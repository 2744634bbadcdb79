import Almond.Lemmas.CleanupAux
import Almond.Sample

/-! # The files of a claimed upload are cleaned up -/

namespace Almond

open Conc FileStorage

namespace Handlers

variable {cfg : Config} {t : Tid} {s : AppState} {env : Nat → Env} {n : Nat} {α : Type}

/-! ## Unlinks that succeed -/

/-- No unlink fails in a run of a task alone. -/
def UnlinksSucceed (cfg : Config) (t : Tid) (env : Nat → Env) (n : Nat) (s : AppState) (p : Async α) : Prop :=
  ∀ i path, (p.requests (exec cfg t) env n s)[i]? = some (.fs (.removeFile path)) → (env (n + i)).fs.fault = none

/-- What the outside decides when it lets unlinks succeed. -/
def sparing : Req → Env → Env
  | .fs (.removeFile _), e => { e with fs := { e.fs with fault := none } }
  | _, e => e

/-- The requests of a task when unlinks succeed. -/
def unlinking (cfg : Config) (t : Tid) (r : Req) (e : Env) (s : AppState) : Resp r × AppState :=
  exec cfg t r (sparing r e) s

/-- A run in which no unlink fails is one in which unlinks succeed. -/
theorem alone_unlinking {p : Async α} (h : UnlinksSucceed cfg t env n s p) :
    p.alone (unlinking cfg t) env n s = p.alone (exec cfg t) env n s := by
  refine Task.alone_congr fun i r hr s' => ?_
  have hspare : sparing r (env (n + i)) = env (n + i) := by
    cases r with
    | fs r =>
      cases r with
      | removeFile path =>
        have hfault := h i path hr
        rcases henv : env (n + i) with ⟨⟨fault, chunk, available⟩, _⟩
        rw [henv] at hfault
        simp only at hfault
        subst hfault
        rfl
      | _ => rfl
    | _ => rfl
  rw [unlinking, hspare]

/-- What holds whatever fails holds when unlinks succeed. -/
theorem yields_unlinking {p : Async α} {Q : α → AppState → Prop} (h : p.Yields (exec cfg t) Anything Q s) :
    p.Yields (unlinking cfg t) Anything Q s := by
  have hspare : ∀ r e, Anything e → Anything (sparing r e) := fun _ _ _ => trivial
  exact h.decided (fun _ _ _ => rfl) hspare

/-- A file that is unlinked is gone. -/
theorem gone_of_unlink (path : Path) (e : Env) :
    (unlinking cfg t (.fs (.removeFile path)) e s).2.bytesAt (.localFile path) = none := by
  simp only [unlinking, sparing, exec, Disk.exec, Disk.perform]
  by_cases hfile : s.disk.hasFile path = true
  · simp only [hfile, if_true, AppState.bytesAt, Disk.file?, Disk.unlink, AList.lookup_erase, Option.map_none]
  · simp only [hfile, Bool.false_eq_true, if_false]
    exact hasFile_eq_false_iff.1 (Bool.eq_false_iff.2 hfile)

/-- Discarding chunk files removes them all and brings no file back. -/
theorem discardChunkFiles_yields (chunks : List ChunkInfo) :
    (discardChunkFiles chunks).Yields (unlinking cfg t) Anything (fun _ s' =>
      (∀ chunk ∈ chunks, s'.bytesAt (.localFile chunk.chunkPath) = none) ∧
        ∀ path, s.bytesAt (.localFile path) = none → s'.bytesAt (.localFile path) = none) s := by
  induction chunks generalizing s with
  | nil => exact ⟨nofun, fun _ => id⟩
  | cons chunk chunks ih =>
    intro e _
    refine ih.mono fun _ s' ⟨hchunks, hgone⟩ => ⟨?_, fun path hpath => hgone path ?_⟩
    · exact List.forall_mem_cons.2 ⟨hgone _ (gone_of_unlink _ e), hchunks⟩
    · exact gone_of_disposes (r := .fs (.removeFile chunk.chunkPath)) rfl _ hpath

/-! ## Reconstruction -/

/-- The path that a reconstruction reserves. -/
def reconstructionTemp (cfg : Config) (s : AppState) : Path :=
  cfg.storage.temp ++ [tempName "reconstruct".toList s.uuids none]

/-- No chunk file of an upload is left, and no reconstruction remains. -/
structure Cleaned (cfg : Config) (chunkUpload : ChunkUpload) (s s' : AppState) : Prop where
  chunks : ∀ chunk ∈ chunkUpload.chunks, s'.disk.hasFile chunk.chunkPath = false
  temp : s.disk.hasFile (reconstructionTemp cfg s) = false → s'.disk.hasFile (reconstructionTemp cfg s) = false

/-- The temporary directory cannot be created: the operation fails, or a file stands where a directory must be. -/
def TempDirFails (cfg : Config) (e : Env) (s : AppState) : Prop :=
  e.fs.fault ≠ none ∨ s.disk.obstructed cfg.storage.temp = true

/-- The chunks of an upload lead past the cleanup: their lengths overflow before a gap, or they cover the upload and the temporary
directory cannot be created. -/
def Escapes (cfg : Config) (chunkUpload : ChunkUpload) (e : Env) (s : AppState) : Prop :=
  coverage (sortChunks chunkUpload.chunks) 0 = .overflow ∨
    coverage (sortChunks chunkUpload.chunks) 0 = .upTo chunkUpload.uploadLength ∧ TempDirFails cfg e s

/-- Once the temporary directory is there, a reconstruction cleans up, whatever fails. -/
theorem reserved_yields {root : Path} (hlayout : cfg.storage = .new root) (chunkUpload : ChunkUpload) (chunks : List ChunkInfo)
    (expectedSha256 : Str) :
    Task.Yields (unlinking cfg t) Anything (do
      let temp ← request (.reserveTemp cfg.storage.temp "reconstruct".toList none)
      let result ← attempt do
        let totalWritten ← withTemp temp (reconstructInto cfg.libs chunks chunkUpload.uploadLength expectedSha256 temp)
        let stored ← Upload.finalizeUpload cfg temp expectedSha256 totalWritten
          (Http.getExtensionFromMime cfg.libs chunkUpload.uploadType) (some chunkUpload.uploadType) chunkUpload.expiration
        return stored.metadata
      discardChunkFiles chunks
      ofResult result : AsyncResult FileMetadata).run (fun _ s' =>
        (∀ chunk ∈ chunks, s'.bytesAt (.localFile chunk.chunkPath) = none) ∧
          s'.bytesAt (.localFile (reconstructionTemp cfg s)) = none) s := by
  intro e _
  have ht : Scratch cfg.storage (reconstructionTemp cfg s) := ⟨_, [], rfl⟩
  refine yields_attempt_bind (Q := fun _ s' => s'.bytesAt (.localFile (reconstructionTemp cfg s)) = none) (yields_unlinking ?_)
    fun result s₁ hgone => ?_
  · refine Task.Yields.run_bind (withTemp_yields List.mem_cons_self (reconstructInto_temps _ _ _ _)) (fun _ _ h => h)
      fun totalWritten s₂ howned => ?_
    exact Task.Yields.run_bind (publishBlob_gone hlayout ht howned) (fun _ _ h => h) fun _ _ h => h
  · refine Task.Yields.lift_bind (discardChunkFiles_yields chunks) fun _ s₂ h => ?_
    exact ⟨h.1, h.2 _ hgone⟩

/-- The temporary directory is created unless that fails, which changes nothing. -/
theorem ensureTempDir_alone (env : Nat → Env) (n : Nat) (s : AppState) :
    (TempDirFails cfg (env n) s ∧ ∃ error, Task.alone (unlinking cfg t) env (ensureTempDir cfg).run n s = (.error error, n + 1, s)) ∨
      ¬ TempDirFails cfg (env n) s ∧ ∃ s', Task.alone (unlinking cfg t) env (ensureTempDir cfg).run n s = (.ok (), n + 1, s') ∧
        s'.uuids = s.uuids := by
  have hdir : ∀ x s', unlinking cfg t (.fs (.createDirAll cfg.storage.temp)) (env n) s = (x, s') →
      Task.alone (unlinking cfg t) env (ensureTempDir cfg).run n s = (x.mapError fun error =>
        .ioError s!"Failed to create temporary storage {display cfg.storage.temp}: {error.message}", n + 1, s') := by
    intro x s' h
    show ((unlinking cfg t (.fs (.createDirAll cfg.storage.temp)) (env n) s).1.mapError _, n + 1,
      (unlinking cfg t (.fs (.createDirAll cfg.storage.temp)) (env n) s).2) = _
    rw [h]
  cases hfault : (env n).fs.fault with
  | some message =>
    refine .inl ⟨.inl (hfault ▸ Option.some_ne_none _), _, hdir (.error ⟨.other, message⟩) s ?_⟩
    simp only [unlinking, sparing, exec, Disk.exec, hfault, Disk.faulted, writers]
  | none =>
    by_cases hobstructed : s.disk.obstructed cfg.storage.temp = true
    · refine .inl ⟨.inr hobstructed, _,
        hdir (.error (if s.disk.hasFile cfg.storage.temp then Disk.fileExists else Disk.notDirectory)) s ?_⟩
      simp only [unlinking, sparing, exec, Disk.exec, hfault, Disk.perform, hobstructed, if_true, writers]
    · have hmade : (unlinking cfg t (.fs (.createDirAll cfg.storage.temp)) (env n) s).1 = .ok () := by
        simp only [unlinking, sparing, exec, Disk.exec, hfault, Disk.perform, if_neg hobstructed]
      exact .inr ⟨fun h => h.elim (absurd hfault) hobstructed, _, hdir (.ok ()) _ (Prod.ext hmade rfl), rfl⟩

/-- A reconstruction of chunks that cover the upload changes nothing when the temporary directory cannot be created. -/
theorem reconstructCovered_fails {env : Nat → Env} {n : Nat} (chunkUpload : ChunkUpload) (chunks : List ChunkInfo)
    (expectedSha256 : Str) (h : TempDirFails cfg (env n) s) :
    (Task.alone (unlinking cfg t) env (reconstructCovered cfg chunkUpload chunks expectedSha256).run n s).2.2 = s := by
  unfold reconstructCovered
  rw [Task.alone_run_bind]
  rcases ensureTempDir_alone (t := t) env n s with ⟨_, error, hdir⟩ | ⟨hcreated, _⟩
  · rw [hdir]
  · exact absurd h hcreated

/-- A reconstruction of chunks that cover the upload cleans up when the temporary directory can be created. -/
theorem reconstructCovered_cleans {env : Nat → Env} {n : Nat} {root : Path} (hlayout : cfg.storage = .new root)
    (chunkUpload : ChunkUpload) (chunks : List ChunkInfo) (expectedSha256 : Str) (h : ¬ TempDirFails cfg (env n) s) :
    let s' := (Task.alone (unlinking cfg t) env (reconstructCovered cfg chunkUpload chunks expectedSha256).run n s).2.2
    (∀ chunk ∈ chunks, s'.bytesAt (.localFile chunk.chunkPath) = none) ∧ s'.bytesAt (.localFile (reconstructionTemp cfg s)) = none := by
  unfold reconstructCovered
  rw [Task.alone_run_bind]
  rcases ensureTempDir_alone (t := t) env n s with ⟨hfails, _⟩ | ⟨_, s₁, hdir, huuids⟩
  · exact absurd hfails h
  · rw [hdir]
    have hany : ∀ i, Anything (env i) := fun _ => trivial
    have htemp : reconstructionTemp cfg s = reconstructionTemp cfg s₁ := by simp only [reconstructionTemp, huuids]
    rw [htemp]
    exact (reserved_yields hlayout chunkUpload chunks expectedSha256).alone hany (n + 1)

/-- A run that is led past the cleanup changes nothing. -/
theorem alone_of_escapes {chunkUpload : ChunkUpload} (expectedSha256 : Str) (h : Escapes cfg chunkUpload (env n) s) :
    (Task.alone (unlinking cfg t) env (reconstructBlob cfg chunkUpload expectedSha256).run n s).2.2 = s := by
  rcases h with hoverflow | ⟨hcoverage, hfails⟩
  · simp only [reconstructBlob, hoverflow]
    rfl
  · simp only [reconstructBlob, hcoverage, ne_eq, not_true_eq_false, if_false]
    exact reconstructCovered_fails _ _ _ hfails

/-- Any other run cleans up. -/
theorem cleaned_of_not_escapes {root : Path} (hlayout : cfg.storage = .new root) {chunkUpload : ChunkUpload} (expectedSha256 : Str)
    (h : ¬ Escapes cfg chunkUpload (env n) s) :
    Cleaned cfg chunkUpload s (Task.alone (unlinking cfg t) env (reconstructBlob cfg chunkUpload expectedSha256).run n s).2.2 := by
  have hsorted : ∀ chunk, chunk ∈ sortChunks chunkUpload.chunks ↔ chunk ∈ chunkUpload.chunks := fun _ => List.mem_insertionSort _
  -- The chunk files are discarded before an error is returned.
  have hdiscard : ∀ message, Cleaned cfg chunkUpload s (Task.alone (unlinking cfg t) env (do
      discardChunkFiles (sortChunks chunkUpload.chunks)
      throw (.badRequest message) : AsyncResult FileMetadata).run n s).2.2 := by
    intro message
    have hyields : Task.Yields (unlinking cfg t) Anything (do
        discardChunkFiles (sortChunks chunkUpload.chunks)
        throw (.badRequest message) : AsyncResult FileMetadata).run (fun _ s' =>
          (∀ chunk ∈ sortChunks chunkUpload.chunks, s'.bytesAt (.localFile chunk.chunkPath) = none) ∧
            ∀ path, s.bytesAt (.localFile path) = none → s'.bytesAt (.localFile path) = none) s :=
      Task.Yields.lift_bind (discardChunkFiles_yields _) fun _ _ h => h
    have hany : ∀ i, Anything (env i) := fun _ => trivial
    have hgone := hyields.alone hany n
    refine ⟨fun chunk hchunk => hasFile_eq_false_iff.2 (hgone.1 chunk ((hsorted chunk).2 hchunk)), fun hfile => ?_⟩
    exact hasFile_eq_false_iff.2 (hgone.2 _ (hasFile_eq_false_iff.1 hfile))
  cases hcoverage : coverage (sortChunks chunkUpload.chunks) 0 with
  | broken =>
    simp only [reconstructBlob, hcoverage]
    exact hdiscard _
  | overflow => exact absurd (.inl hcoverage) h
  | upTo expectedOffset =>
    by_cases hlength : expectedOffset = chunkUpload.uploadLength
    · subst hlength
      simp only [reconstructBlob, hcoverage, ne_eq, not_true_eq_false, if_false]
      have hcreated : ¬ TempDirFails cfg (env n) s := fun hfails => h (.inr ⟨hcoverage, hfails⟩)
      have hcovered := reconstructCovered_cleans (t := t) hlayout chunkUpload (sortChunks chunkUpload.chunks) expectedSha256 hcreated
      refine ⟨fun chunk hchunk => ?_, fun _ => ?_⟩
      · exact hasFile_eq_false_iff.2 (hcovered.1 chunk ((hsorted chunk).2 hchunk))
      · exact hasFile_eq_false_iff.2 hcovered.2
    · simp only [reconstructBlob, hcoverage, hlength, ne_eq, not_false_eq_true, if_true]
      exact hdiscard _

/-- A claimed upload is cleaned up exactly when its chunks do not lead past the cleanup, or none of its chunk files is there. -/
theorem reconstruct_cleans_iff {root : Path} (hlayout : cfg.storage = .new root) {chunkUpload : ChunkUpload} {expectedSha256 : Str}
    (hunlinks : UnlinksSucceed cfg t env n s (reconstructBlob cfg chunkUpload expectedSha256).run) :
    Cleaned cfg chunkUpload s (Task.alone (exec cfg t) env (reconstructBlob cfg chunkUpload expectedSha256).run n s).2.2 ↔
      ¬ Escapes cfg chunkUpload (env n) s ∨ ∀ chunk ∈ chunkUpload.chunks, s.disk.hasFile chunk.chunkPath = false := by
  rw [← alone_unlinking hunlinks]
  by_cases hescapes : Escapes cfg chunkUpload (env n) s
  · rw [alone_of_escapes expectedSha256 hescapes]
    refine ⟨fun h => .inr h.chunks, fun h => ⟨h.resolve_left (not_not.2 hescapes), id⟩⟩
  · exact ⟨fun _ => .inl hescapes, fun _ => cleaned_of_not_escapes hlayout expectedSha256 hescapes⟩

end Handlers

namespace Sample

/-- A claimed upload of one byte. -/
def wholeByte : ChunkUpload where
  sha256 := hash
  owner := []
  uploadType := []
  uploadLength := 1
  chunks := [⟨0, 1, config.storage.temp ++ ["0".toList]⟩]
  createdAt := 0
  expiration := none

/-- A disk with its chunk file. -/
def withChunk : AppState :=
  { started with
    disk := { disk with
      names := AList.insert (config.storage.temp ++ ["0".toList]) 0 ∅
      nodes := fun _ => ⟨[7], 0⟩
      nextIno := 1 } }

/-- The first operation fails, and no other one. -/
def firstFails : Nat → Env
  | 0 => { calm with fs := { calm.fs with fault := some "No space left on device (os error 28)" } }
  | _ + 1 => calm

end Sample

namespace Handlers

open Sample in
/-- When nothing fails, the upload is cleaned up. -/
theorem reconstruct_cleans_iff_calm :
    Cleaned config wholeByte withChunk (Task.alone (exec config 0) (fun _ => calm) (reconstructBlob config wholeByte hash).run 0 withChunk).2.2 ↔
      ¬ Escapes config wholeByte calm withChunk ∨ ∀ chunk ∈ wholeByte.chunks, withChunk.disk.hasFile chunk.chunkPath = false :=
  reconstruct_cleans_iff rfl fun _ _ _ => rfl

open Sample in
/-- When the temporary directory cannot be created, the chunk file stays. -/
theorem reconstruct_cleans_false :
    UnlinksSucceed config 0 firstFails 0 withChunk (reconstructBlob config wholeByte hash).run ∧
      ¬ Cleaned config wholeByte withChunk
        (Task.alone (exec config 0) firstFails (reconstructBlob config wholeByte hash).run 0 withChunk).2.2 := by
  have hcoverage : coverage (sortChunks wholeByte.chunks) 0 = .upTo wholeByte.uploadLength := by decide
  have hunlinks : UnlinksSucceed config 0 firstFails 0 withChunk (reconstructBlob config wholeByte hash).run := by
    intro i path h
    cases i with
    | succ i =>
      have hcalm : 0 + (i + 1) = i + 1 := Nat.zero_add _
      rw [hcalm]
      rfl
    | zero =>
      simp only [reconstructBlob, hcoverage, ne_eq, not_true_eq_false, if_false] at h
      cases h
  have hfault : (firstFails 0).fs.fault ≠ none := Option.some_ne_none _
  refine ⟨hunlinks, fun h => ?_⟩
  rw [← alone_unlinking hunlinks, alone_of_escapes hash (.inr ⟨hcoverage, .inl hfault⟩)] at h
  exact absurd (h.chunks _ List.mem_cons_self) (by decide)

end Handlers

end Almond
