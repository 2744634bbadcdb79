import Almond.Lemmas.MaintenanceAux
import Almond.Lemmas.NamesAux
import Almond.Lemmas.PublicationAux
import Almond.Lemmas.UploadsAux

/-! # Copies that wait for their removal

A copy that was displaced is removed by the publication that displaced it, or waits in the queue until a pass takes it. Whoever has it
to remove holds it; a task holds what its record says. -/

namespace Almond

open Conc FileStorage

/-- A request that keeps to what a task has to remove: it gives only that to the queue, and makes an entry only by a publication, at a
place of its hash. -/
def Req.Retires (layout : StorageLayout) (held : List FileLocation) : Req → Prop
  | .index (.publish sha256 m) => Housed layout sha256 m.origin m.location
  | .index (.insert _ _) | .index (.replace _) => False
  | .queueSuperseded _ metadata => metadata.location ∈ held
  | .extendSuperseded retry => ∀ e ∈ retry, e.2.location ∈ held
  | _ => True

/-- A request that neither makes an entry nor touches the queue. -/
def Req.Passes : Req → Prop
  | .index (.publish _ _) | .index (.insert _ _) | .index (.replace _) | .takeSuperseded | .queueSuperseded _ _
  | .extendSuperseded _ => False
  | _ => True

/-- What does not touch the queue keeps to what a task has to remove. -/
theorem Req.Passes.retires {layout : StorageLayout} {held : List FileLocation} {r : Req} (h : r.Passes) : r.Retires layout held := by
  cases r with
  | index r => cases r <;> first | exact trivial | exact h.elim
  | queueSuperseded sha256 m => exact h.elim
  | extendSuperseded retry => exact h.elim
  | _ => exact trivial

/-- A request that inspects does not touch the queue. -/
theorem Req.inspects.passes {r : Req} (h : r.inspects) : r.Passes := by
  cases r with
  | index r => cases r <;> first | exact trivial | exact h.elim
  | _ => first | exact trivial | exact h.elim

/-- A request of an eviction does not touch the queue. -/
theorem Req.Evicts.passes {r : Req} (h : r.Evicts) : r.Passes := by
  cases r with
  | index r => cases r <;> first | exact trivial | exact h.elim
  | _ => first | exact trivial | exact h.elim

/-- A request of a removal does not touch the queue. -/
theorem Req.Ends.passes {layout : StorageLayout} {sha256 : Str} {r : Req} (h : r.Ends layout sha256) : r.Passes := by
  cases r with
  | index r => cases r <;> first | exact trivial | exact h.elim
  | _ => first | exact trivial | exact h.elim

/-- A request of a handler does not touch the queue. -/
theorem Req.Receives.passes {layout : StorageLayout} {r : Req} (h : r.Receives layout) : r.Passes := by
  cases r with
  | index r => exact Req.inspects.passes (r := .index r) h
  | _ => first | exact trivial | exact h.elim

/-- The operations that publish, remove and evict blobs. -/
def Op.stores : Op → Bool
  | .get _ _ _ | .upload _ _ | .mirror _ _ | .patch _ _ | .publish _ _ | .remove _ _ _ | .enforceStorageLimits => true
  | _ => false

namespace Superseded

/-- What a task has to remove after a request: what it took from the queue, or the copy that its publication displaced, less what it
removed or gave to the queue. -/
def retire (held : List FileLocation) : (r : Req) → Resp r → List FileLocation
  | .takeSuperseded, pending => pending.map (·.2.location)
  | .extendSuperseded _, _ => []
  | .queueSuperseded _ metadata, _ => held.erase metadata.location
  | .index (.publish _ _), .published (some displaced) => displaced.location :: held
  | .fs (.removeFile p), .ok _ => held.erase (.localFile p)
  | .fs (.removeFile p), .error error => if error.kind = .notFound then held.erase (.localFile p) else held
  | .s3 (.deleteObject key), .ok _ => held.erase (.s3 key)
  | _, _ => held

/-- What a task has to remove after its requests, the latest first. -/
def holding : List (Task.Event Req Resp) → List FileLocation
  | [] => []
  | ⟨r, x⟩ :: past => retire (holding past) r x

/-- Whether a task is in the middle of a pass over the queue. -/
def reconciling : List (Task.Event Req Resp) → Bool
  | [] => false
  | ⟨.takeSuperseded, _⟩ :: _ => true
  | ⟨.extendSuperseded _, _⟩ :: _ => false
  | _ :: past => reconciling past

/-- What an operation may request after its requests so far: a pass over the queue removes only what it has to remove. -/
def May (cfg : Config) (op : Op) (past : List (Task.Event Req Resp)) (r : Req) : Prop :=
  op.stores = true → r.Retires cfg.storage (holding past) ∧
    (op = .enforceStorageLimits → reconciling past = true → ∀ location, r.removes = some location → location ∈ holding past)

/-- The protocol of an operation. -/
abbrev Retiring (cfg : Config) (op : Op) : Protocol Req Resp Str (List (Task.Event Req Resp)) :=
  .recording (Req.Foresees cfg.storage) (fun _ _ => True) (May cfg op)

section

variable {cfg : Config} {op : Op} {past : List (Task.Event Req Resp)} {α β : Type}

/-- What does not touch the queue begins no pass and ends none. -/
theorem reconciling_of_passes {r : Req} {x : Resp r} (h : r.Passes) : reconciling (⟨r, x⟩ :: past) = reconciling past := by
  cases r with
  | takeSuperseded => exact h.elim
  | extendSuperseded retry => exact h.elim
  | _ => rfl

/-- What does not touch the queue is allowed outside a pass. -/
theorem may_of_passes {r : Req} (h : r.Passes) (hpass : op = .enforceStorageLimits → reconciling past = false) : May cfg op past r :=
  fun _ => ⟨h.retires, fun hop hr => nomatch hr.symm.trans (hpass hop)⟩

/-- A task that does not touch the queue obeys outside a pass. -/
theorem obeys_of_passes {p : Async α} (hp : p.Issues Req.Passes) (hpass : op = .enforceStorageLimits → reconciling past = false) :
    p.Obeys (Retiring cfg op) (fun q _ => op = .enforceStorageLimits → reconciling q = false) past :=
  hp.obeys_keeping (I := fun q => op = .enforceStorageLimits → reconciling q = false) (fun _ _ _ => trivial)
    (fun _ _ hq hr => may_of_passes hr hq) (fun _ _ _ hq hr hop => (reconciling_of_passes hr).trans (hq hop)) hpass

/-! ## Passes over the queue -/

/-- A task whose result is inspected. -/
theorem obeys_attempt_bind {R : List (Task.Event Req Resp) → AppResult α → Prop} {S : List (Task.Event Req Resp) → AppResult β → Prop}
    {p : AsyncResult α} {f : AppResult α → AsyncResult β} (hp : p.run.Obeys (Retiring cfg op) R past)
    (hf : ∀ q x, R q x → (f x).run.Obeys (Retiring cfg op) S q) : (attempt p >>= f).run.Obeys (Retiring cfg op) S past := by
  refine Task.Obeys.run_bind (R := fun q x => ∃ y, x = .ok y ∧ R q y) (hp.bind fun q y hy => ⟨y, rfl, hy⟩) ?_ ?_
  · rintro q e ⟨_, he, _⟩
    nomatch he
  · rintro q x ⟨y, hy, hx⟩
    cases hy
    exact hf q x hx

/-- A task under a mutation guard. -/
theorem obeys_guarded {R : List (Task.Event Req Resp) → AppResult α → Prop} {sha256 : Str} {p : AsyncResult α}
    (hp : p.run.Obeys (Retiring cfg op) R past) : (guarded sha256 p).run.Obeys (Retiring cfg op) R past :=
  ⟨trivial, hp.bind fun _ _ h => ⟨trivial, h⟩⟩

/-- Removing the bytes of a copy that a task has to remove: the task need no longer do it, unless it failed. -/
theorem removePhysicalFile_obeys {m : FileMetadata} (hm : m.location ∈ holding past) :
    (removePhysicalFile cfg m).run.Obeys (Retiring cfg op) (fun q x => reconciling q = reconciling past ∧
      holding q = match x with
        | .ok _ => (holding past).erase m.location
        | .error _ => holding past) past := by
  have hmay : ∀ r : Req, r.Passes → r.removes = some m.location → May cfg op past r := by
    refine fun r hr hremoves _ => ⟨hr.retires, fun _ _ location hl => ?_⟩
    cases hremoves.symm.trans hl
    exact hm
  unfold removePhysicalFile
  cases hl : m.location with
  | localFile p =>
    refine ⟨hmay _ trivial (congrArg some hl.symm), fun x _ => ?_⟩
    cases x with
    | ok u => exact ⟨rfl, rfl⟩
    | error error =>
      show Task.Obeys _ _ (if error.kind = .notFound then _ else _ : AsyncResult Unit).run _
      by_cases hk : error.kind = .notFound
      · rw [if_pos hk]
        exact ⟨rfl, if_pos hk⟩
      · rw [if_neg hk]
        exact ⟨rfl, if_neg hk⟩
  | s3 key =>
    cases hc : cfg.nativeS3 with
    | false => exact ⟨rfl, rfl⟩
    | true =>
      refine ⟨hmay _ trivial (congrArg some hl.symm), fun x _ => ?_⟩
      cases x with
      | ok u => exact ⟨rfl, rfl⟩
      | error error => exact ⟨rfl, rfl⟩

/-- A pass has removed what it does not give back to the queue, and never fails. -/
theorem retrySuperseded_obeys {pending : List (Str × FileMetadata)} {kept : List FileLocation} (hpass : reconciling past = true)
    (hheld : (holding past).Perm (pending.map (·.2.location) ++ kept)) :
    (retrySuperseded cfg pending).run.Obeys (Retiring cfg op) (fun q x => ∃ retry, x = .ok retry ∧ reconciling q = true ∧
      (holding q).Perm (retry.map (·.2.location) ++ kept)) past := by
  induction pending generalizing past kept with
  | nil => exact ⟨[], rfl, hpass, hheld⟩
  | cons e pending ih =>
    have hmem : e.2.location ∈ holding past := hheld.mem_iff.2 (List.mem_cons_self ..)
    refine obeys_attempt_bind (obeys_guarded (removePhysicalFile_obeys hmem)) fun q removed ⟨hq, hholding⟩ => ?_
    cases removed with
    | ok u =>
      have hrest : (holding q).Perm (pending.map (·.2.location) ++ kept) := by
        rw [hholding]
        have herase := hheld.erase e.2.location
        rwa [List.map_cons, List.cons_append, List.erase_cons_head] at herase
      refine Task.Obeys.run_bind (ih (hq.trans hpass) hrest) (fun _ _ ⟨_, he, _⟩ => nomatch he) fun q' retry h => ?_
      exact h
    | error error =>
      -- The copy stays with the pass while the rest of the queue is worked on.
      have hrest : (holding q).Perm (pending.map (·.2.location) ++ e.2.location :: kept) := by
        rw [hholding]
        exact hheld.trans List.perm_middle.symm
      refine Task.Obeys.run_bind (ih (hq.trans hpass) hrest) (fun _ _ ⟨_, he, _⟩ => nomatch he) fun q' retry h => ?_
      obtain ⟨_, hr, hpass', hperm⟩ := h
      cases hr
      exact ⟨_, rfl, hpass', hperm.trans List.perm_middle⟩

/-- A pass over the queue gives back to the queue only what it took from it. -/
theorem reconcileSupersededBlobs_obeys (hpass : reconciling past = false) :
    (reconcileSupersededBlobs cfg).run.Obeys (Retiring cfg op) (fun q _ => reconciling q = false) past := by
  have htake : May cfg op past .takeSuperseded := fun _ => ⟨trivial, fun _ hr => nomatch hr.symm.trans hpass⟩
  refine ⟨htake, fun pending _ => ?_⟩
  have hheld : (holding (⟨.takeSuperseded, pending⟩ :: past)).Perm (pending.map (·.2.location) ++ []) := by
    rw [List.append_nil]
    exact .refl _
  refine Task.Obeys.run_bind (retrySuperseded_obeys rfl hheld) (fun _ _ ⟨_, he, _⟩ => nomatch he) fun q retry h => ?_
  obtain ⟨_, hr, _, hperm⟩ := h
  cases hr
  refine ⟨fun _ => ⟨fun e he => ?_, fun _ _ _ hl => nomatch hl⟩, fun _ _ => rfl⟩
  rw [hperm.mem_iff, List.append_nil]
  exact List.mem_map_of_mem he

/-- A pass of the cleanup job. -/
theorem enforceStorageLimits_obeys :
    (Startup.enforceStorageLimits cfg).run.Obeys (Retiring cfg .enforceStorageLimits) (fun _ _ => True) [] := by
  have hpasses : ∀ {β : Type} {p : Async β} {q : List (Task.Event Req Resp)}, p.Issues Req.Evicts → reconciling q = false →
      p.Obeys (Retiring cfg .enforceStorageLimits) (fun q _ => reconciling q = false) q := fun hp hq =>
    (obeys_of_passes (hp.mono fun _ => Req.Evicts.passes) fun _ => hq).mono fun _ _ h => h rfl
  have hread : ∀ {q : List (Task.Event Req Resp)} (r : Req), r.Passes → reconciling q = false →
      May cfg .enforceStorageLimits q r := fun r hr hq => may_of_passes hr fun _ => hq
  refine ⟨hread _ trivial rfl, fun now _ => ?_⟩
  refine Task.Obeys.run_bind (reconcileSupersededBlobs_obeys rfl) (fun _ _ _ => trivial) fun q₁ _ h₁ => ?_
  refine ⟨hread _ trivial h₁, fun entries _ => ?_⟩
  refine Task.Obeys.run_bind (hpasses (Startup.evictExpired_evicts cfg _ entries) h₁) (fun _ _ _ => trivial) fun q₂ _ h₂ => ?_
  refine ⟨hread _ trivial h₂, fun remaining _ => ?_⟩
  refine Task.Obeys.run_bind (hpasses (Startup.evictCapacity_evicts cfg ..) h₂) (fun _ _ _ => trivial) fun q₃ _ h₃ => ?_
  refine Task.Obeys.lift_bind (hpasses ((Startup.cleanupEmptyDirs_evicts _).issues fun _ => id) h₃) fun q₄ _ h₄ => ?_
  exact Task.Obeys.lift ((hpasses ((Startup.cleanupEmptyDirs_evicts _).issues fun _ => id) h₄).mono fun _ _ _ => trivial)

/-! ## Publications -/

/-- A publication hands the copy it displaced to the queue only when it did not remove it. -/
theorem publishMetadata_obeys {sha256 : Str} {m : FileMetadata} (hop : op ≠ .enforceStorageLimits)
    (hm : Housed cfg.storage sha256 m.origin m.location) :
    (publishMetadata cfg sha256 m).run.Obeys (Retiring cfg op) (fun _ _ => True) past := by
  have hmay : ∀ (q : List (Task.Event Req Resp)) (r : Req), r.Retires cfg.storage (holding q) → May cfg op q r :=
    fun q r hr _ => ⟨hr, fun h => absurd h hop⟩
  refine ⟨hmay _ _ hm, fun outcome _ => ?_⟩
  cases outcome with
  | retained existing => exact trivial
  | published displaced =>
    refine ⟨hmay _ _ trivial, fun published _ => ?_⟩
    cases published with
    | none => exact trivial
    | some published =>
      cases displaced with
      | none => exact trivial
      | some displaced =>
        refine obeys_attempt_bind (removePhysicalFile_obeys (List.mem_cons_self ..)) fun q removed ⟨_, hholding⟩ => ?_
        cases removed with
        | ok u => exact trivial
        | error error =>
          refine ⟨hmay _ _ ?_, fun _ _ => trivial⟩
          rw [Req.Retires, hholding]
          exact List.mem_cons_self ..

/-- A task that does not touch the queue obeys when its operation makes no pass. -/
theorem obeys_of_uses {p : Async α} (hop : op ≠ .enforceStorageLimits) (hp : p.Issues Req.Passes) :
    p.Obeys (Retiring cfg op) (fun _ _ => True) past :=
  (obeys_of_passes hp fun h => absurd h hop).mono fun _ _ _ => trivial

/-- A part that does not touch the queue, before more. -/
theorem obeys_uses_bind {p : AsyncResult α} {f : α → AsyncResult β} (hop : op ≠ .enforceStorageLimits) (hp : p.run.Uses Req.Passes)
    (hf : ∀ q a, (f a).run.Obeys (Retiring cfg op) (fun _ _ => True) q) :
    (p >>= f).run.Obeys (Retiring cfg op) (fun _ _ => True) past :=
  Task.Obeys.run_bind (obeys_of_uses hop (hp.issues fun _ => id)) (fun _ _ _ => trivial) fun q a _ => hf q a

/-- The end of a publication. -/
theorem finish_obeys {publication : BlobPublication} {location : FileLocation} (hop : op ≠ .enforceStorageLimits)
    (hl : Housed cfg.storage publication.sha256 publication.origin location) :
    (do
      let metadata ← publication.metadata location
      publishMetadata cfg publication.sha256 metadata : AsyncResult StoredBlob).run.Obeys (Retiring cfg op) (fun _ _ => True) past :=
  ⟨fun _ => ⟨trivial, fun h => absurd h hop⟩, fun _ _ => publishMetadata_obeys hop hl⟩

/-- Storing a file in the bucket does not touch the queue, and returns the key of its blob. -/
theorem put_within (temp : Path) (sha256 : Str) (extension : Option Str) (expiration : Option Nat) :
    (NativeStorage.put temp sha256 extension expiration).run.Within Req.Passes
      fun x => ∀ key, x = .ok key → NativeStorage.objectKey sha256 extension expiration = .ok key := by
  have hfs : ∀ r : FsReq, (fs r).Uses Req.Passes := fun _ => uses_request trivial
  refine Task.Within.run_bind (p := ofResult _) (R := fun x => x = NativeStorage.objectKey sha256 extension expiration) rfl
    (fun _ _ => nofun) fun key hkey => ?_
  refine Task.Within.run_bind (uses_orErr (hfs _)) (fun _ _ => nofun) fun ino _ => ?_
  refine Task.Within.run_bind (uses_orErr (uses_request trivial)) (fun _ _ => nofun) fun _ _ => ?_
  refine Task.Within.run_bind (uses_orErr (hfs _)) (fun _ _ => nofun) fun _ _ => ?_
  intro _ h
  cases h
  exact hkey.symm

/-- The publication of a file to the bucket. -/
theorem publishToS3_obeys {temp : Path} {publication : BlobPublication} (hop : op ≠ .enforceStorageLimits)
    (horigin : publication.origin = .upload) :
    (publishToS3 cfg temp publication).run.Obeys (Retiring cfg op) (fun _ _ => True) past := by
  have hmay : ∀ (q : List (Task.Event Req Resp)) (r : Req), r.Passes → May cfg op q r := fun _ _ hr =>
    may_of_passes hr fun h => absurd h hop
  refine obeys_uses_bind hop (NativeStorage.ensureAvailable_uses.mono (fun _ => Req.inspects.passes) fun _ _ => trivial) fun q₁ _ => ?_
  refine Task.Obeys.run_bind ((put_within ..).obeys_recording fun q r _ hr => hmay q r hr) (fun _ _ _ => trivial) fun q₂ key hkey => ?_
  refine ⟨hmay _ _ trivial, fun _ _ => ?_⟩
  exact finish_obeys hop (horigin ▸ housed_of_objectKey (hkey.2 key rfl))

/-- The publication of a file to its completed path. -/
theorem publishToDisk_obeys {temp : Path} {publication : BlobPublication} (hop : op ≠ .enforceStorageLimits) :
    (publishToDisk cfg temp publication).run.Obeys (Retiring cfg op) (fun _ _ => True) past := by
  have hfs : ∀ r : FsReq, (fs r).Uses Req.Passes := fun _ => uses_request trivial
  refine Task.Obeys.run_bind (p := ofResult _) (R := fun _ x => x = completedPath cfg.storage publication.origin publication.sha256
    publication.extension publication.expiration) rfl (fun _ _ _ => trivial) fun q finalPath hp => ?_
  refine obeys_uses_bind hop (uses_orErr (hfs _)) fun q₁ _ => ?_
  refine obeys_uses_bind hop (uses_orErr (hfs _)) fun q₂ present => ?_
  have hrest : ∀ q, (do
      orIoErr (fun error => s!"Failed to publish {display temp} to {display finalPath}: {error.message}")
        (fs (.rename temp finalPath))
      request (.intoPublished temp)
      let metadata ← publication.metadata (.localFile finalPath)
      publishMetadata cfg publication.sha256 metadata : AsyncResult StoredBlob).run.Obeys (Retiring cfg op) (fun _ _ => True) q := by
    intro q
    refine obeys_uses_bind hop (uses_orErr (hfs _)) fun q₃ _ => ?_
    refine ⟨may_of_passes trivial fun h => absurd h hop, fun _ _ => ?_⟩
    exact finish_obeys hop (housed_of_completedPath hp.symm)
  cases present with
  | false => exact hrest q₂
  | true =>
    have hdisposes : ∀ r : Req, r.Disposes (.localFile finalPath) → r.Passes := fun r h => h.physical.evicts.passes
    exact obeys_uses_bind hop ((removeLocalFile_uses finalPath).mono hdisposes fun _ _ => trivial) fun q _ => hrest q

/-- A publication. -/
theorem publishBlob_obeys {temp : Path} {publication : BlobPublication} (hop : op ≠ .enforceStorageLimits) :
    (publishBlob cfg temp publication).run.Obeys (Retiring cfg op) (fun _ _ => True) past := by
  have hdrop : ∀ (x : AppResult StoredBlob) q, (do request (.dropTemp temp); ofResult x : AsyncResult StoredBlob).run.Obeys
      (Retiring cfg op) (fun _ _ => True) q := fun x q => ⟨may_of_passes trivial fun h => absurd h hop, fun _ _ => trivial⟩
  refine obeys_attempt_bind (R := fun _ _ => True) ?_ fun q x _ => hdrop x q
  refine obeys_uses_bind (p := ofResult _) hop trivial fun q₁ _ => obeys_guarded ?_
  refine obeys_uses_bind hop ((ensureNotQuarantined_uses ..).mono (fun _ => Req.inspects.passes) fun _ _ => trivial) fun q₂ _ => ?_
  have hstore : ∀ q, (if publication.origin = .upload ∧ cfg.nativeS3 = true then publishToS3 cfg temp publication
      else publishToDisk cfg temp publication : AsyncResult StoredBlob).run.Obeys (Retiring cfg op) (fun _ _ => True) q := by
    intro q
    by_cases hs3 : publication.origin = .upload ∧ cfg.nativeS3 = true
    · rw [if_pos hs3]
      exact publishToS3_obeys hop hs3.1
    · rw [if_neg hs3]
      exact publishToDisk_obeys hop
  refine ⟨may_of_passes trivial fun h => absurd h hop, fun existing _ => ?_⟩
  cases existing with
  | none => exact hstore _
  | some existing =>
    show Task.Obeys _ _ (if keepsIncumbent publication existing = true then _ else _ : AsyncResult StoredBlob).run _
    cases keepsIncumbent publication existing with
    | true => exact trivial
    | false => exact hstore _

/-- What is listed is at a place of its hash. -/
theorem housed_of_listed {layout : StorageLayout} {sha256 : Str} {m : FileMetadata} (h : NativeStorage.Listed sha256 m) :
    Housed layout sha256 m.origin m.location := by
  obtain ⟨horigin, key, parsed, hl, hparsed, rfl⟩ := h
  rw [horigin, hl]
  obtain ⟨name, hparse, rfl⟩ := NativeStorage.keyUnder_of_parseObjectKey hparsed
  obtain ⟨hv, hname, _⟩ := BlobName.parse_eq_some hparse
  refine ⟨hv, rfl, _, name.drop BlobName.hashLen, NativeStorage.hashPrefix_eq hv, ?_⟩
  conv_lhs => rw [hname]
  simp [NativeStorage.keyUnder]

/-- The publication of what was found in the bucket. -/
theorem publishExistingMetadata_obeys {sha256 : Str} {m : FileMetadata} (hop : op ≠ .enforceStorageLimits)
    (hm : NativeStorage.Listed sha256 m) :
    (publishExistingMetadata cfg sha256 m).run.Obeys (Retiring cfg op) (fun _ _ => True) past :=
  Task.Obeys.run_bind (obeys_guarded (publishMetadata_obeys hop (housed_of_listed hm))) (fun _ _ _ => trivial) fun _ _ _ => trivial

/-! ## The operations -/

/-- Every operation keeps to what its tasks have to remove. -/
theorem program_obeys (cfg : Config) (op : Op) :
    (program cfg op).traced.Obeys (Retiring cfg op) (fun _ _ => True) [] := by
  suffices h : (program cfg op).Obeys (Retiring cfg op) (fun _ _ => True) [] from h.traced
  cases hs : op.stores with
  | false =>
    have hmay : ∀ q r, May cfg op q r := fun _ _ h => nomatch hs.symm.trans h
    exact Task.obeys_of_admits hmay (fun _ _ => trivial) (fun _ _ => trivial) (fun _ _ => trivial) _ _
  | true =>
    have hreceives : ∀ {target : Str → Prop} {p : Async Outcome}, op ≠ .enforceStorageLimits →
        Task.Receives cfg target (fun _ => True) p → p.Obeys (Retiring cfg op) (fun _ _ => True) [] := by
      intro target p hop hp
      refine (hp.obeys_keeping (I := fun _ => True) (fun _ _ => id) (fun _ _ _ hr => may_of_passes (Req.Receives.passes hr) fun h => absurd h hop)
        (fun _ _ _ _ _ => trivial) ?_ trivial).mono fun _ _ _ => trivial
      rintro q s - ⟨temp, publication, -, -, rfl⟩
      exact publishBlob_obeys hop
    cases op with
    | get headers head filename =>
      have hop : Op.get headers head filename ≠ .enforceStorageLimits := nofun
      refine ((program_discovers headers head filename).obeys_keeping (I := fun _ => True) (fun _ _ => id)
        (fun _ _ _ hr => may_of_passes hr.receives.passes fun h => absurd h hop) (fun _ _ _ _ _ => trivial) ?_ trivial).mono fun _ _ _ => trivial
      rintro q s - ⟨_, _, m, hm, rfl⟩
      exact publishExistingMetadata_obeys hop hm
    | remove sha256 removal expected =>
      have hop : Op.remove sha256 removal expected ≠ .enforceStorageLimits := nofun
      have hends := (removeLocked_ends cfg sha256 removal expected).issues_withLock (l := sha256)
      exact (obeys_of_uses hop (hends.mono fun _ h => h.passes)).bind fun _ _ _ => trivial
    | enforceStorageLimits => exact enforceStorageLimits_obeys.bind fun _ _ _ => trivial
    | upload headers body => exact hreceives nofun (program_receives rfl)
    | mirror headers body => exact hreceives nofun (program_receives rfl)
    | patch headers body => exact hreceives nofun (program_receives rfl)
    | publish publication body => exact hreceives nofun (program_receives rfl)
    | _ => nomatch hs

end

/-! ## Copies that wait -/

/-- The steps of a server. -/
abbrev Past := List (Server × Label Req Resp Str Op Report)

/-- What a task has to remove in a history. -/
def held (past : Past) (t : Tid) : List FileLocation :=
  holding ((Task.record t past).map (·.2))

/-- Whether the copy at a location waits for its removal: in the queue, or with a task that has to remove it. -/
def waits (past : Past) (c : Server) (location : FileLocation) : Bool :=
  c.world.store.superseded.any (·.2.location = location) ||
    (List.range c.world.next).any fun t => (c.tasks t).isSome && (held past t).contains location

/-- The steps of publications, removals, evictions and passes over the queue. -/
def serves : Label Req Resp Str Op Report → Bool
  | .spawned _ op | .called _ op _ _ => op.stores
  | .crashed => false
  | _ => true

/-- A publication stores its blob where no copy waits for its removal, and where the copy that it displaces is not. -/
def storesApart (past : Past) (c : Server) : Label Req Resp Str Op Report → Bool
  | .called _ _ (.index (.publish _ m)) (.published displaced) =>
    !waits past c m.location && displaced.all fun d => d.location ≠ m.location
  | _ => true

/-- What waits, waits in the queue or with a running task. -/
theorem waits_iff {past : Past} {c : Server} {location : FileLocation} :
    waits past c location = true ↔ (∃ e ∈ c.world.store.superseded, e.2.location = location) ∨
      ∃ t < c.world.next, (c.tasks t).isSome = true ∧ location ∈ held past t := by
  simp only [waits, Bool.or_eq_true, List.any_eq_true, decide_eq_true_eq, List.mem_range, Bool.and_eq_true, List.contains_iff_mem]

section

variable {cfg : Config} {t : Tid} {s : AppState}

/-- What is in the queue after a request was in it before, or was given to it. -/
theorem mem_superseded_exec {r : Req} {e : Env} {x : Str × FileMetadata} (h : x ∈ (exec cfg t r e s).2.superseded) :
    x ∈ s.superseded ∨ r = .queueSuperseded x.1 x.2 ∨ ∃ retry, r = .extendSuperseded retry ∧ x ∈ retry := by
  cases r with
  | takeSuperseded => nomatch h
  | queueSuperseded sha256 m =>
    simp only [exec, queued] at h
    split at h
    · exact .inl h
    · rcases List.mem_append.1 h with h | h
      · exact .inl h
      · cases List.mem_singleton.1 h
        exact .inr (.inl rfl)
  | extendSuperseded retry =>
    rcases List.mem_append.1 h with h | h
    · exact .inl h
    · exact .inr (.inr ⟨retry, rfl, h⟩)
  | receiveToken token =>
    refine .inl ?_
    simp only [exec] at h
    split at h <;> exact h
  | dropTemp p =>
    refine .inl ?_
    simp only [exec] at h
    split at h <;> exact h
  | _ => exact .inl h

/-- What a task has to remove after a request it had to remove before, took from the queue, or has displaced. -/
theorem mem_retire_exec {held : List FileLocation} {r : Req} {e : Env} {location : FileLocation}
    (h : location ∈ retire held r (exec cfg t r e s).1) :
    location ∈ held ∨ (∃ x ∈ s.superseded, x.2.location = location) ∨
      ∃ sha256 m displaced, r = .index (.publish sha256 m) ∧ s.index.get sha256 = some displaced ∧
        s.index.publish sha256 m = (.published (some displaced), s.index.insert sha256 m) ∧ displaced.location = location := by
  cases r with
  | takeSuperseded =>
    obtain ⟨x, hx, rfl⟩ := List.mem_map.1 h
    exact .inr (.inl ⟨x, hx, rfl⟩)
  | extendSuperseded retry => nomatch h
  | queueSuperseded sha256 m => exact .inl (List.mem_of_mem_erase h)
  | index r =>
    cases r with
    | publish sha256 m =>
      obtain ⟨existing, _, _, hp⟩ | ⟨_, hp⟩ := BlobIndex.publish_cases s.index sha256 m
      · simp only [exec, IndexReq.exec, hp] at h
        exact .inl h
      · simp only [exec, IndexReq.exec, hp] at h
        cases hg : s.index.get sha256 with
        | none =>
          rw [hg] at h
          exact .inl h
        | some displaced =>
          rw [hg] at h hp
          rcases List.mem_cons.1 h with rfl | h
          · exact .inr (.inr ⟨sha256, m, displaced, rfl, hg, hp, rfl⟩)
          · exact .inl h
    | _ => exact .inl h
  | fs r =>
    cases r with
    | removeFile p =>
      refine .inl ?_
      generalize (exec cfg t (.fs (.removeFile p)) e s).1 = x at h
      cases x with
      | ok u => exact List.mem_of_mem_erase h
      | error error =>
        simp only [retire] at h
        split at h
        · exact List.mem_of_mem_erase h
        · exact h
    | _ => exact .inl h
  | s3 r =>
    cases r with
    | deleteObject key =>
      refine .inl ?_
      generalize (exec cfg t (.s3 (.deleteObject key)) e s).1 = x at h
      cases x with
      | ok u => exact List.mem_of_mem_erase h
      | error error => exact h
    | _ => exact .inl h
  | _ => exact .inl h

/-- A request that keeps to what its task has to remove makes no entry, unless it publishes. -/
theorem get_exec_of_retires {layout : StorageLayout} {held : List FileLocation} {r : Req} {e : Env} {sha256 : Str} {m : FileMetadata}
    (hr : r.Retires layout held) (hno : ∀ key m', r ≠ .index (.publish key m')) (h : (exec cfg t r e s).2.index.get sha256 = some m) :
    s.index.get sha256 = some m := by
  by_cases hm : r.mutates sha256
  · cases r with
    | index r =>
      cases r with
      | publish key m' => exact absurd rfl (hno key m')
      | insert key m' => exact hr.elim
      | replace map => exact hr.elim
      | removeIfLocationMatches key location =>
        obtain rfl : key = sha256 := hm
        obtain ⟨_, _, _, hx⟩ | ⟨_, hx⟩ := BlobIndex.removeIf_cases s.index key location
        · simp only [exec, IndexReq.exec, hx, BlobIndex.get_remove_self] at h
          cases h
        · simp only [exec, IndexReq.exec, hx] at h
          exact h
      | _ => exact hm.elim
    | _ => exact hm.elim
  · rw [get_exec hm] at h
    exact h

end

section

variable {cfg : Config} {s : AppState} {past : Past} {c c' : Server}
  {ok : Past → Server → Label Req Resp Str Op Report → Prop}

/-- What a running task has to remove waits. -/
theorem waits_of_held (h : History (machine cfg) ok (Server.idle s) past c) {t : Tid} {location : FileLocation}
    (ht : (c.tasks t).isSome = true) (hl : location ∈ held past t) : waits past c location = true := by
  obtain ⟨⟨op, p⟩, hp⟩ := Option.isSome_iff_exists.1 ht
  exact waits_iff.2 (.inr ⟨t, (h.stands.1 t op p hp).1, ht, hl⟩)

/-- A request of a task makes only the copy wait that it displaces. -/
theorem waits_of_call (h : History (machine cfg) ok (Server.idle s) past c) {t : Tid} {op : Op} {r : Req}
    {k : Resp r → Task Req Resp Str Report} {e : Env} (ht : c.tasks t = some (op, .call r k))
    (hr : r.Retires cfg.storage (held past t)) {location : FileLocation}
    (hw : waits ((c, Label.called t op r (exec cfg t r e c.world.store).1) :: past)
      (c.put t op (k (exec cfg t r e c.world.store).1) (c.world.setStore (exec cfg t r e c.world.store).2)) location = true) :
    waits past c location = true ∨ ∃ sha256 m displaced, r = .index (.publish sha256 m) ∧
      c.world.store.index.get sha256 = some displaced ∧
      c.world.store.index.publish sha256 m = (.published (some displaced), c.world.store.index.insert sha256 m) ∧
      displaced.location = location := by
  have hsome : (c.tasks t).isSome = true := Option.isSome_iff_exists.2 ⟨_, ht⟩
  rcases waits_iff.1 hw with ⟨x, hx, rfl⟩ | ⟨t', hlt, hrunning, hl⟩
  · rcases mem_superseded_exec hx with hold | rfl | ⟨retry, rfl, hretry⟩
    · exact .inl (waits_iff.2 (.inl ⟨x, hold, rfl⟩))
    · exact .inl (waits_of_held h hsome hr)
    · exact .inl (waits_of_held h hsome (hr x hretry))
  · by_cases hself : t' = t
    · subst hself
      have hrecord : held ((c, Label.called t' op r (exec cfg t' r e c.world.store).1) :: past) t' =
          retire (held past t') r (exec cfg t' r e c.world.store).1 := by
        unfold held
        rw [show Task.record t' ((c, Label.called t' op r (exec cfg t' r e c.world.store).1) :: past) =
          (op, ⟨r, (exec cfg t' r e c.world.store).1⟩) :: Task.record t' past from List.filterMap_cons_some (if_pos rfl)]
        rfl
      rw [hrecord] at hl
      rcases mem_retire_exec hl with hl | ⟨x, hx, rfl⟩ | hdisplaced
      · exact .inl (waits_of_held h hsome hl)
      · exact .inl (waits_iff.2 (.inl ⟨x, hx, rfl⟩))
      · exact .inr hdisplaced
    · have hrecord : held ((c, Label.called t op r (exec cfg t r e c.world.store).1) :: past) t' = held past t' := by
        unfold held
        rw [show Task.record t' ((c, Label.called t op r (exec cfg t r e c.world.store).1) :: past) = Task.record t' past from
          List.filterMap_cons_none (if_neg (Ne.symm hself))]
      rw [hrecord] at hl
      simp only [Sys.put, Function.update_of_ne hself] at hrunning
      exact .inl (waits_of_held h hrunning hl)

/-- A step that is no request makes no copy wait. -/
theorem waits_of_step (h : History (machine cfg) ok (Server.idle s) past c) {l : Label Req Resp Str Op Report}
    (hs : Step (machine cfg) c l c') (hl : ∀ t op r x, l ≠ .called t op r x) (hserves : serves l = true) {location : FileLocation}
    (hw : waits ((c, l) :: past) c' location = true) : waits past c location = true := by
  have hrecord : ∀ t, held ((c, l) :: past) t = held past t := by
    intro t
    unfold held
    cases l with
    | called t' op r x => exact absurd rfl (hl t' op r x)
    | _ => rfl
  have hsame : ∀ {c' : Server}, waits ((c, l) :: past) c' location = true →
      c'.world.store.superseded = c.world.store.superseded →
      (∀ t, (c'.tasks t).isSome = true → (c.tasks t).isSome = true ∨ held past t = []) → waits past c location = true := by
    intro c' hw hqueue htasks
    rcases waits_iff.1 hw with ⟨x, hx, hxl⟩ | ⟨t, _, hrunning, hheld⟩
    · exact waits_iff.2 (.inl ⟨x, hqueue ▸ hx, hxl⟩)
    · rw [hrecord] at hheld
      rcases htasks t hrunning with hold | hnone
      · exact waits_of_held h hold hheld
      · rw [hnone] at hheld
        cases hheld
  have hput : ∀ {t : Tid} {op : Op} {p : Task Req Resp Str Report} {w : World Str AppState} {x₀}, c.tasks t = some x₀ →
      ∀ t', ((c.put t op p w).tasks t').isSome = true → (c.tasks t').isSome = true ∨ held past t' = [] := by
    intro t op p w x₀ ht t' ht'
    by_cases hself : t' = t
    · exact .inl (Option.isSome_iff_exists.2 ⟨x₀, hself ▸ ht⟩)
    · simp only [Sys.put, Function.update_of_ne hself] at ht'
      exact .inl ht'
  have herase : ∀ {t : Tid} {w : World Str AppState} t', ((c.erase t w).tasks t').isSome = true →
      (c.tasks t').isSome = true ∨ held past t' = [] := by
    intro t w t' ht'
    obtain ⟨x, hx⟩ := Option.isSome_iff_exists.1 ht'
    exact .inl (Option.isSome_iff_exists.2 ⟨x, Sys.tasks_of_erase hx⟩)
  cases hs with
  | spawn he =>
    refine hsame hw rfl fun t ht => ?_
    by_cases hself : t = c.world.next
    · refine .inr ?_
      unfold held
      rw [h.stands.2 t (Nat.le_of_eq hself.symm)]
      rfl
    · simp only [Sys.put, Function.update_of_ne hself] at ht
      exact .inl ht
  | call e ht => exact (hl _ _ _ _ rfl).elim
  | acquire ht hf => exact hsame hw rfl (hput ht)
  | release ht => exact hsame hw rfl (hput ht)
  | finish ht => exact hsame hw rfl herase
  | drop ht => exact hsame hw rfl herase
  | tick e => exact hsame hw rfl fun t ht => .inl ht
  | crash => cases hserves

/-! ## What waits is no entry -/

/-- Every entry is at a place of its hash, and no copy waits there for its removal. -/
structure Settled (layout : StorageLayout) (past : Past) (c : Server) : Prop where
  housed : ∀ sha256 m, c.world.store.index.get sha256 = some m → Housed layout sha256 m.origin m.location
  apart : ∀ sha256 m, c.world.store.index.get sha256 = some m → waits past c m.location = false

/-- A step that is no request leaves the entries. -/
theorem index_of_step {l : Label Req Resp Str Op Report} (hs : Step (machine cfg) c l c') (hl : ∀ t op r x, l ≠ .called t op r x)
    (hserves : serves l = true) : c'.world.store.index = c.world.store.index := by
  cases hs with
  | call e ht => exact (hl _ _ _ _ rfl).elim
  | crash => nomatch hserves
  | _ => rfl

/-- A request of a task keeps the entries apart from what waits, when a publication stores its blob apart. -/
theorem settled_of_call (h : History (machine cfg) ok (Server.idle s) past c) (hc : Settled cfg.storage past c) {t : Tid} {op : Op}
    {r : Req} {k : Resp r → Task Req Resp Str Report} {e : Env} (ht : c.tasks t = some (op, .call r k))
    (hr : r.Retires cfg.storage (held past t))
    (hapart : storesApart past c (.called t op r (exec cfg t r e c.world.store).1) = true) :
    Settled cfg.storage ((c, Label.called t op r (exec cfg t r e c.world.store).1) :: past)
      (c.put t op (k (exec cfg t r e c.world.store).1) (c.world.setStore (exec cfg t r e c.world.store).2)) := by
  generalize hs' : (exec cfg t r e c.world.store).2 = s'
  have hwaits : ∀ location, waits ((c, Label.called t op r (exec cfg t r e c.world.store).1) :: past)
      (c.put t op (k (exec cfg t r e c.world.store).1) (c.world.setStore (exec cfg t r e c.world.store).2)) location = true → _ :=
    fun location => waits_of_call h ht hr
  rw [hs'] at hwaits
  by_cases hpublish : ∃ key m', r = .index (.publish key m')
  · obtain ⟨key, m', rfl⟩ := hpublish
    obtain ⟨existing, _, _, hx⟩ | ⟨_, hx⟩ := BlobIndex.publish_cases c.world.store.index key m'
    · -- The incumbent keeps its place, and nothing is displaced.
      have hsame : s'.index = c.world.store.index := by
        rw [← hs']
        simp only [exec, IndexReq.exec, hx]
      refine ⟨fun sha256 m hm => hc.housed sha256 m (hsame ▸ hm), fun sha256 m hm => Bool.eq_false_iff.2 fun hw => ?_⟩
      rcases hwaits _ hw with hw | ⟨_, _, _, he, _, hstored, _⟩
      · exact Bool.false_ne_true ((hc.apart sha256 m (hsame ▸ hm)).symm.trans hw)
      · cases he
        cases hx.symm.trans hstored
    · have hinsert : s'.index = c.world.store.index.insert key m' := by
        rw [← hs']
        simp only [exec, IndexReq.exec, hx]
      have hfree : waits past c m'.location = false ∧ ∀ d, c.world.store.index.get key = some d → d.location ≠ m'.location := by
        simp only [storesApart, exec, IndexReq.exec, hx, Bool.and_eq_true, Bool.not_eq_true'] at hapart
        refine ⟨hapart.1, fun d hd => ?_⟩
        have hdisplaced := hapart.2
        rw [hd] at hdisplaced
        exact of_decide_eq_true hdisplaced
      have hentry : ∀ sha256 m, s'.index.get sha256 = some m →
          m = m' ∧ sha256 = key ∨ sha256 ≠ key ∧ c.world.store.index.get sha256 = some m := by
        intro sha256 m hm
        rw [hinsert] at hm
        by_cases hk : sha256 = key
        · subst hk
          rw [BlobIndex.get_insert_self] at hm
          cases hm
          exact .inl ⟨rfl, rfl⟩
        · rw [BlobIndex.get_insert_of_ne _ _ hk] at hm
          exact .inr ⟨hk, hm⟩
      refine ⟨fun sha256 m hm => ?_, fun sha256 m hm => Bool.eq_false_iff.2 fun hw => ?_⟩
      · rcases hentry sha256 m hm with ⟨rfl, rfl⟩ | ⟨_, hm⟩
        · exact hr
        · exact hc.housed sha256 m hm
      · have hold := hwaits _ hw
        rcases hentry sha256 m hm with ⟨rfl, rfl⟩ | ⟨hk, hm⟩
        · rcases hold with hw | ⟨_, _, d, he, hd, _, hl⟩
          · exact Bool.false_ne_true (hfree.1.symm.trans hw)
          · cases he
            exact hfree.2 d hd hl
        · rcases hold with hw | ⟨_, _, d, he, hd, _, hl⟩
          · exact Bool.false_ne_true ((hc.apart sha256 m hm).symm.trans hw)
          · cases he
            have hhoused := hc.housed _ d hd
            rw [hl] at hhoused
            exact hk ((hc.housed sha256 m hm).hash_unique hhoused)
  · have hno : ∀ key m', r ≠ .index (.publish key m') := fun key m' he => hpublish ⟨key, m', he⟩
    have hget : ∀ sha256 m, s'.index.get sha256 = some m → c.world.store.index.get sha256 = some m := by
      intro sha256 m hm
      rw [← hs'] at hm
      exact get_exec_of_retires hr hno hm
    refine ⟨fun sha256 m hm => hc.housed sha256 m (hget sha256 m hm), fun sha256 m hm => Bool.eq_false_iff.2 fun hw => ?_⟩
    rcases hwaits _ hw with hw | ⟨_, _, _, he, _⟩
    · exact Bool.false_ne_true ((hc.apart sha256 m (hget sha256 m hm)).symm.trans hw)
    · exact hno _ _ he

/-- In every history in which publications store their blobs apart, no copy waits at the location of an entry. -/
theorem settled_of_history (hsessions : s.sessions.Each fun _ upload => upload.WellFormed cfg.storage)
    (hhoused : ∀ sha256 m, s.index.get sha256 = some m → Housed cfg.storage sha256 m.origin m.location) (hqueue : s.superseded = [])
    (h : History (machine cfg) (fun past c l => (serves l && storesApart past c l) = true) (Server.idle s) past c) :
    Settled cfg.storage past c := by
  induction h with
  | start =>
    refine ⟨hhoused, fun sha256 m _ => Bool.eq_false_iff.2 fun hw => ?_⟩
    rcases waits_iff.1 hw with ⟨x, hx, _⟩ | ⟨t, hlt, _⟩
    · rw [show (Server.idle s).world.store.superseded = [] from hqueue] at hx
      nomatch hx
    · exact Nat.not_lt_zero _ hlt
  | @step past c l c' h hok hs ih =>
    obtain ⟨hserves, hapart⟩ := Bool.and_eq_true_iff.1 hok
    by_cases hcall : ∃ t op r x, l = .called t op r x
    · obtain ⟨t, op, r, x, rfl⟩ := hcall
      cases hs with
      | call e ht =>
        obtain ⟨es, hes, hobeys⟩ := h.obeys (fun op => program_obeys cfg op) (Uploads.foreseen_of_history hsessions h).2 ht
        have hheld : held past t = holding es := by
          unfold held
          rw [hes, List.map_map]
          exact congrArg holding (List.map_id _)
        exact settled_of_call h ih ht (hheld ▸ (hobeys.1 hserves).1) hapart
    · have hl : ∀ t op r x, l ≠ .called t op r x := fun t op r x he => hcall ⟨t, op, r, x, he⟩
      have hindex := index_of_step hs hl hserves
      refine ⟨fun sha256 m hm => ih.housed sha256 m (hindex ▸ hm), fun sha256 m hm => Bool.eq_false_iff.2 fun hw => ?_⟩
      have hw' := waits_of_step h hs hl hserves hw
      exact Bool.false_ne_true ((ih.apart sha256 m (hindex ▸ hm)).symm.trans hw')

end

end Superseded

end Almond
