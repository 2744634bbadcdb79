import Almond.Lemmas.HoldersAux
import Almond.Sample

/-! # Sessions that are registered

In every run of chunks, uploads, removals and cleanups, a registered session has chunks that are apart, inside the upload and shorter
than it, each in a file that is still there. The exception is an upload whose only chunk completes it: when its payment is rejected it
is put back without a chunk. -/

namespace Almond

open Conc FileStorage Handlers

/-- A registered session that more chunks can complete: it has chunks, which are apart, inside the upload and together shorter than it,
and their files are there unless an operation took them away that is no chunk. -/
structure ChunkUpload.Resumable (past : Custody.Past) (s : AppState) (upload : ChunkUpload) : Prop where
  nonempty : upload.chunks ≠ []
  apart : upload.chunks.Pairwise ChunkInfo.Apart
  inside : ∀ chunk ∈ upload.chunks, chunk.offset + chunk.length ≤ upload.uploadLength
  lacks : (upload.chunks.map ChunkInfo.length).sum < upload.uploadLength
  stored : ∀ chunk ∈ upload.chunks,
    s.disk.hasFile chunk.chunkPath = true ∨ Custody.removedAside chunk.chunkPath past s = true

namespace Custody

/-! ## Runs -/

/-- The operations on blobs and chunks. -/
def serving : Op → Bool
  | .cleanupAbandonedChunks => true
  | op => op.stores

/-- The steps of a process that serves and cleans up. -/
def serves : Label Req Resp Str Op Report → Bool
  | .spawned _ op | .called _ op _ _ => serving op
  | .crashed => false
  | _ => true

variable {cfg : Config} {root : Path} {s : AppState} {past : Past} {c : Server}

/-- Nobody has a chunk file when the server starts. -/
theorem guarded_start (hsessions : s.sessions = .empty) (htemps : s.temps = [])
    (hhoused : ∀ sha256 m, s.index.get sha256 = some m → Housed cfg.storage sha256 m.origin m.location) :
    Guarded cfg.storage [] s := by
  have hnone : ∀ {p h}, ¬ Has cfg.storage [] s p h := by
    intro p h hh
    cases h with
    | task t => exact hh rfl
    | session key =>
      obtain ⟨upload, hu, -⟩ := hh
      rw [hsessions] at hu
      nomatch hu
  refine ⟨fun t e he => (nomatch he), hhoused, fun x hx => ?_, ?_, fun p h hh => absurd hh hnone, fun p h h' hh => absurd hh hnone,
    fun p h hh => absurd hh.has hnone⟩
  · rw [htemps] at hx
    nomatch hx
  · rw [hsessions]
    exact SessionState.each_empty _

/-- Every operation that serves keeps the entries at places of their hashes. -/
theorem retires_of_serving {op : Op} (hserving : serving op = true) {t : Tid} {r : Req} {k : Resp r → Task Req Resp Str Report}
    {ok : Past → Server → Label Req Resp Str Op Report → Prop} (hg : Guarded cfg.storage past c.world.store)
    (h : History (machine cfg) ok (Server.idle s) past c) (ht : c.tasks t = some (op, .call r k))
    (hallowed : Allowed cfg.storage op (events past t) r) : ∃ held, r.Retires cfg.storage held := by
  have hstores : op.stores = true → ∃ held, r.Retires cfg.storage held := by
    intro hs
    have hforeseen : ∀ t, ∀ e ∈ Task.record t past, Req.Foresees cfg.storage e.2.1 e.2.2 := fun t e he =>
      (hg.answered t e.2 (List.mem_map_of_mem he)).1
    obtain ⟨es, -, hobeys⟩ := h.obeys (fun op => Superseded.program_obeys cfg op) hforeseen ht
    exact ⟨_, (hobeys.1 hs).1⟩
  cases op with
  | cleanupAbandonedChunks => exact ⟨[], hallowed.2.retires⟩
  | _ => exact hstores hserving

/-- In every history in which no upload is restored without its only chunk, every chunk file has one holder. -/
theorem guarded_of_history (hlayout : cfg.storage = .new root) (hsessions : s.sessions = .empty) (htemps : s.temps = [])
    (hhoused : ∀ sha256 m, s.index.get sha256 = some m → Housed cfg.storage sha256 m.origin m.location)
    (h : History (machine cfg) (fun _ c l => (serves l && restoresSome c.world.store l) = true) (Server.idle s) past c) :
    Guarded cfg.storage past c.world.store := by
  induction h with
  | start => exact guarded_start hsessions htemps hhoused
  | @step past c l c' h hok hs ih =>
    obtain ⟨hserves, hsome⟩ := Bool.and_eq_true_iff.1 hok
    cases hs with
    | @call t op r k e ht =>
      obtain ⟨es, hes, hobeys⟩ := h.obeys (fun op => program_obeys hlayout op) (fun t e he => ih.answered t e.2 (List.mem_map_of_mem he)) ht
      have hevents : events past t = es := by
        rw [events, hes, List.map_map]
        exact List.map_id _
      have hallowed : Allowed cfg.storage op (events past t) r := hevents ▸ hobeys.1
      obtain ⟨held, hretires⟩ := retires_of_serving hserves ih h ht hallowed
      exact ih.call hlayout hretires hallowed hsome
    | drop ht => exact ih.drop
    | crash => cases hserves
    | _ => exact ih.still (fun _ => rfl) rfl rfl (fun _ => id) rfl fun _ _ => id

/-! ## Registered sessions -/

/-- In every run in which no upload is put back without its only chunk, every registered session can be resumed. In a run of chunks and
chunk cleanups, only a chunk cleanup takes a file of a session away. -/
theorem registered_resumable (hlayout : cfg.storage = .new root) (hsessions : s.sessions = .empty) (htemps : s.temps = [])
    (hhoused : ∀ sha256 m, s.index.get sha256 = some m → Housed cfg.storage sha256 m.origin m.location)
    (h : History (machine cfg) (fun _ c l => (serves l && restoresSome c.world.store l) = true) (Server.idle s) past c) :
    ∀ key upload, c.world.store.sessions.uploads.lookup key = some upload → upload.Resumable past c.world.store := by
  intro key upload hu
  have hg := guarded_of_history hlayout hsessions htemps hhoused h
  have hsession := hg.sessions key upload hu
  refine ⟨hsession.nonempty, hsession.apart, fun chunk hc => (hsession.fits chunk hc).inside, hsession.lacks, fun chunk hc => ?_⟩
  have hholds : Holds cfg.storage past c.world.store chunk.chunkPath (.session key) := ⟨upload, hu, List.mem_map_of_mem hc⟩
  exact hg.stored chunk.chunkPath _ hholds

/-- The first half of an upload. -/
def firstHalf : Op :=
  .patch [("authorization".toList, "Nostr e30=".toList), ("x-sha-256".toList, Sample.hash), ("upload-type".toList, "image/png".toList),
    ("upload-length".toList, "6".toList), ("content-length".toList, "3".toList), ("upload-offset".toList, "0".toList)] [.ok [1, 2, 3]]

/-- The key of the uploads of the hash. -/
def sampleKey : ChunkUploadKey := ⟨Sample.event.pubkey, Sample.hash⟩

theorem firstHalf_replays : (((machine Sample.config).replay (Server.idle Sample.started) ([.spawn firstHalf] ++ Sample.steps 0 17)).any
    fun p => p.1.all (fun x => serves x.2 && restoresSome x.1.world.store x.2) && p.2.world.store.sessions.hasUpload sampleKey) = true := by
  decide

/-- The session of the first half of an upload. -/
theorem registered_resumable_half : ∃ past c upload,
    History (machine Sample.config) (fun _ c l => (serves l && restoresSome c.world.store l) = true) (Server.idle Sample.started) past c ∧
      c.world.store.sessions.uploads.lookup sampleKey = some upload ∧ upload.Resumable past c.world.store := by
  obtain ⟨c, hrun, hregistered⟩ := exists_run_of_replay (machine Sample.config) (Server.idle Sample.started) _
    (fun c l => serves l && restoresSome c.world.store l) (fun c => c.world.store.sessions.hasUpload sampleKey) firstHalf_replays
  obtain ⟨past, h⟩ := hrun.exists_history
  obtain ⟨upload, hu⟩ := Option.isSome_iff_exists.1 hregistered
  exact ⟨past, c, upload, h, hu, registered_resumable (s := Sample.started) rfl rfl rfl nofun h _ _ hu⟩

/-- The configuration of a server that charges for uploads. -/
def charging : Config := { Sample.config with featurePaidUpload := true }

/-- Whether a server has a session without a chunk. -/
def keepsEmpty (c : Server) : Bool :=
  (c.world.store.sessions.uploads.lookup sampleKey).any fun upload => upload.chunks.isEmpty

theorem unpaid_replays : (((machine charging).replay (Server.idle Sample.started) ([.spawn Sample.patch] ++ Sample.steps 0 18)).any
    fun p => p.1.all (fun x => serves x.2) && keepsEmpty p.2) = true := by
  decide

/-- An upload of one chunk that is not paid for is put back without a chunk. -/
theorem registered_resumable_false :
    ¬ ∀ (cfg : Config) (root : Path) (s : AppState) (past : Past) (c : Server) (key : ChunkUploadKey) (upload : ChunkUpload),
      cfg.storage = .new root → s.sessions = .empty → s.temps = [] →
      (∀ sha256 m, s.index.get sha256 = some m → Housed cfg.storage sha256 m.origin m.location) →
      History (machine cfg) (fun _ _ l => serves l = true) (Server.idle s) past c →
      c.world.store.sessions.uploads.lookup key = some upload → upload.Resumable past c.world.store := by
  intro hall
  obtain ⟨c, hrun, hempty⟩ := exists_run_of_replay (machine charging) (Server.idle Sample.started) _ (fun _ l => serves l) keepsEmpty
    unpaid_replays
  obtain ⟨past, h⟩ := hrun.exists_history
  obtain ⟨upload, hu, hnil⟩ := (Option.any_eq_true ..).1 hempty
  have hresumable := hall charging _ Sample.started past c sampleKey upload rfl rfl rfl nofun h hu
  exact hresumable.nonempty (List.isEmpty_iff.1 hnil)

end Custody

end Almond
