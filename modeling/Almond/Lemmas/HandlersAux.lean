import Almond.Lemmas.Footprints
import Almond.Lemmas.ChunksAux

/-! # What the handlers are put together from

A handler receives a body into scratch files and settles a payment, all of which leaves the blobs alone, and then publishes at most one
blob, of the hash its request names. -/

namespace Almond

open Conc FileStorage

/-- A request that leaves the blobs alone: it reads, or works on scratch files, payments and trust. -/
def Req.Prepares (layout : StorageLayout) : Req → Prop
  | .fs (.createFile p) | .fs (.removeFile p) | .dropTemp p | .closeFile p => Scratch layout p
  | .fs (.writeAll _ _) | .fs (.createDirAll _) => True
  | .reserveTemp dir _ _ => dir = layout.temp
  | .receiveToken _ | .insertDvm _ | .consumeReplay _ _ _ | .uuid => True
  | r => r.inspects

/-- A request that leaves the disk and the entries: it reads, settles a payment, or consumes an authorization. -/
def Req.Checks : Req → Prop
  | .receiveToken _ | .consumeReplay _ _ _ => True
  | r => r.inspects

/-- A request that also works on the sessions, but takes no reservation and gives none back. -/
def Req.Settles (layout : StorageLayout) : Req → Prop
  | .sessions (.restore _ upload) => upload.WellFormed layout
  | .sessions (.evictOlderThan _) => True
  | .sessions _ => False
  | r => r.Prepares layout

/-- A request of a chunked upload, which also works on the sessions. -/
def Req.Receives (layout : StorageLayout) : Req → Prop
  | .sessions (.commit _ params chunk) => chunk.Fits layout params.uploadLength ∧ params.uploadLength ≤ u64Max
  | .sessions (.restore _ upload) => upload.WellFormed layout
  | .sessions _ => True
  | r => r.Prepares layout

/-- A response as the handlers rely on it: reserved paths and the files of chunks are scratch files. -/
def Req.Foresees (layout : StorageLayout) : (r : Req) → Resp r → Prop
  | .reserveTemp _ _ _, p => Scratch layout p
  | .sessions (.commit _ params _), .complete upload => upload.Completed layout ∧ upload.uploadLength = params.uploadLength
  | .sessions (.evictOlderThan _), evicted => ∀ upload ∈ evicted, upload.WellFormed layout
  | _, _ => True

/-- A request after which the sessions are well formed if they were before, and whose answer is foreseen. -/
def Req.KeepsWellFormed (layout : StorageLayout) : Req → Prop
  | .reserveTemp dir _ _ => dir = layout.temp
  | .sessions (.commit _ params chunk) => chunk.Fits layout params.uploadLength ∧ params.uploadLength ≤ u64Max
  | .sessions (.restore _ upload) => upload.WellFormed layout
  | _ => True

/-- A request that does not reach the registry keeps the sessions well formed. -/
theorem keepsWellFormed_of_not_registers {layout : StorageLayout} {r : Req} (h : ¬ r.registers) : r.KeepsWellFormed layout := by
  cases r with
  | sessions r => exact absurd trivial h
  | reserveTemp dir namePrefix extension => exact absurd trivial h
  | _ => exact trivial

/-- A request that reads prepares. -/
theorem Handlers.prepares_of_inspects {layout : StorageLayout} {r : Req} (h : r.inspects) : r.Prepares layout := by
  cases r with
  | fs r => cases r <;> first | exact h | exact h.elim
  | sessions r => exact h.elim
  | _ => first | exact h | exact h.elim

/-- Reading is a part of checking. -/
theorem Req.inspects.checks {r : Req} (h : r.inspects) : r.Checks := by
  cases r with
  | receiveToken token => exact trivial
  | consumeReplay eventId expiresAt now => exact trivial
  | _ => exact h

/-- Checking is a part of preparing. -/
theorem Req.Checks.prepares {layout : StorageLayout} {r : Req} (h : r.Checks) : r.Prepares layout := by
  cases r with
  | receiveToken token => exact trivial
  | consumeReplay eventId expiresAt now => exact trivial
  | _ => exact Handlers.prepares_of_inspects h

/-- Preparing is a part of settling. -/
theorem Req.Prepares.settles {layout : StorageLayout} {r : Req} (h : r.Prepares layout) : r.Settles layout := by
  cases r with
  | sessions r => exact h.elim
  | _ => exact h

/-- Settling is a part of receiving. -/
theorem Req.Settles.receives {layout : StorageLayout} {r : Req} (h : r.Settles layout) : r.Receives layout := by
  cases r with
  | sessions r => cases r <;> first | exact h | exact h.elim
  | _ => exact h

/-- Preparing is a part of receiving. -/
theorem Req.Prepares.receives {layout : StorageLayout} {r : Req} (h : r.Prepares layout) : r.Receives layout :=
  h.settles.receives

/-- Receiving changes no entry. -/
theorem Req.Receives.never {layout : StorageLayout} {r : Req} (h : r.Receives layout) : r.Never := by
  intro sha256 hm
  cases r with
  | index r => cases r <;> first | exact h.elim | exact hm.elim
  | _ => exact hm.elim

/-- Receiving keeps the sessions well formed. -/
theorem Req.Receives.keepsWellFormed {layout : StorageLayout} {r : Req} (h : r.Receives layout) : r.KeepsWellFormed layout := by
  cases r with
  | sessions r => cases r <;> exact h
  | reserveTemp dir namePrefix extension => exact h
  | _ => exact trivial

/-- The answer to a commit is foreseen when a session that it completes is complete. -/
theorem foresees_commit {layout : StorageLayout} {key : ChunkUploadKey} {params : SessionParams} {chunk : ChunkInfo} {x : Commit}
    (h : ∀ upload, x = .complete upload → upload.Completed layout ∧ upload.uploadLength = params.uploadLength) :
    Req.Foresees layout (.sessions (.commit key params chunk)) x := by
  cases x with
  | complete upload => exact h upload rfl
  | _ => exact trivial

/-- The sessions stay well formed, and the answer is foreseen. -/
theorem wellFormed_exec {cfg : Config} {t : Tid} {r : Req} {e : Env} {s : AppState}
    (hs : s.sessions.Each fun _ upload => upload.WellFormed cfg.storage) (hr : r.KeepsWellFormed cfg.storage) :
    (exec cfg t r e s).2.sessions.Each (fun _ upload => upload.WellFormed cfg.storage) ∧
      r.Foresees cfg.storage (exec cfg t r e s).1 := by
  cases r with
  | sessions r =>
    cases r with
    | reserve key =>
      refine ⟨fun k upload hl => hs k upload ?_, trivial⟩
      simp only [exec, SessionReq.exec] at hl
      have hu := s.sessions.reserve_uploads cfg.sessionLimits key
      rcases hres : s.sessions.reserve cfg.sessionLimits key with ⟨_ | _ | _, st⟩ <;> rw [hres] at hl hu <;> exact hu ▸ hl
    | release key =>
      refine ⟨fun k upload hl => hs k upload ?_, trivial⟩
      rwa [← s.sessions.consumeReservation_uploads key]
    | commit key params chunk =>
      have hc := SessionState.wellFormed_commit hs key s.clock.instant hr.1 hr.2
      exact ⟨hc.1, foresees_commit hc.2⟩
    | restore key upload => exact ⟨hs.restore hr, trivial⟩
    | evictOlderThan age =>
      have he := hs.evict age s.clock.instant
      exact ⟨he.1, fun upload hu => (he.2 upload hu).elim fun _ h => h⟩
  | reserveTemp dir namePrefix extension =>
    have hdir : dir = cfg.storage.temp := hr
    exact ⟨hs, _, [], by rw [← hdir]; rfl⟩
  | _ =>
    refine ⟨?_, trivial⟩
    first
    | exact hs
    | simp only [exec]
      split <;> exact hs

/-- A publication, from a scratch file, of a hash that satisfies a predicate. -/
def PublishesBlob (cfg : Config) (target : Str → Prop) (p : Async (AppResult StoredBlob)) : Prop :=
  ∃ temp publication, Scratch cfg.storage temp ∧ target publication.sha256 ∧ p = (publishBlob cfg temp publication).run

/-- The hashes of publications can be described more loosely. -/
theorem PublishesBlob.mono {cfg : Config} {target target' : Str → Prop} (htarget : ∀ sha256, target sha256 → target' sha256)
    {p : Async (AppResult StoredBlob)} (h : PublishesBlob cfg target p) : PublishesBlob cfg target' p := by
  obtain ⟨temp, publication, ht, hp, he⟩ := h
  exact ⟨temp, publication, ht, htarget _ hp, he⟩

/-- A task that publishes blobs of hashes that satisfy a predicate and otherwise leaves the blobs alone. -/
abbrev Task.Publishes {α : Type} (cfg : Config) (target : Str → Prop) (R : α → Prop) (p : Async α) : Prop :=
  p.Built (Req.Foresees cfg.storage) (Req.Prepares cfg.storage) (PublishesBlob cfg target) R

/-- A task that also works on the sessions. -/
abbrev Task.Receives {α : Type} (cfg : Config) (target : Str → Prop) (R : α → Prop) (p : Async α) : Prop :=
  p.Built (Req.Foresees cfg.storage) (Req.Receives cfg.storage) (PublishesBlob cfg target) R

/-- A task that works on the sessions, but leaves the reservations alone. -/
abbrev Task.Settles {α : Type} (cfg : Config) (target : Str → Prop) (R : α → Prop) (p : Async α) : Prop :=
  p.Built (Req.Foresees cfg.storage) (Req.Settles cfg.storage) (PublishesBlob cfg target) R

/-- A task that leaves the sessions alone leaves the reservations alone. -/
theorem Task.Publishes.settles {α : Type} {cfg : Config} {target : Str → Prop} {R : α → Prop} {p : Async α}
    (h : Task.Publishes cfg target R p) : Task.Settles cfg target R p :=
  h.widen fun _ => Req.Prepares.settles

/-- A task that leaves the reservations alone is a part of a chunked upload. -/
theorem Task.Settles.receives {α : Type} {cfg : Config} {target : Str → Prop} {R : α → Prop} {p : Async α}
    (h : Task.Settles cfg target R p) : Task.Receives cfg target R p :=
  h.widen fun _ => Req.Settles.receives

/-- A task that leaves the sessions alone is a part of a chunked upload. -/
theorem Task.Publishes.receives {α : Type} {cfg : Config} {target : Str → Prop} {R : α → Prop} {p : Async α}
    (h : Task.Publishes cfg target R p) : Task.Receives cfg target R p :=
  h.widen fun _ => Req.Prepares.receives

/-- A charge settles a payment. -/
theorem Cashu.charge_uses (cfg : Config) (headers : Headers) (operation : PaidOperation) (size : Nat) :
    (charge cfg headers operation size).run.Uses Req.Checks := by
  unfold charge
  split
  · exact trivial
  · cases extractCashuHeader headers with
    | none => exact trivial
    | some tokenStr =>
      refine Task.Uses.run_bind (p := ofResult _) trivial fun token => ?_
      refine Task.Uses.run_bind (p := ofResult _) trivial fun _ => ?_
      split
      · refine Task.Uses.run_bind (uses_orErr (uses_request trivial)) fun received => ?_
        split <;> exact trivial
      · exact trivial

/-- Binding an authorization reads the clock and consumes its event. -/
theorem Authorization.bind_uses (authorized : Authorized) (sha256 : Str) : (authorized.bind sha256).run.Uses Req.Checks := by
  refine Task.Uses.run_bind (p := ofResult _) trivial fun _ => ?_
  split
  · refine Task.Uses.lift_bind (p := nowSecs) ⟨trivial, fun _ _ => trivial⟩ fun now => ?_
    refine Task.Uses.lift_bind (uses_request trivial) fun seen => ?_
    cases seen <;> exact trivial
  · exact trivial

namespace Handlers

/-! ## The headers of a chunk -/

/-- A number among the headers is a `u64`. -/
theorem parseHeader_le {headers : Headers} {name shown : String} {n : Nat} (h : parseHeader headers name shown = .ok n) :
    n ≤ u64Max := by
  unfold parseHeader at h
  split at h
  · rename_i m hm
    cases h
    obtain ⟨v, _, hv⟩ := Option.bind_eq_some_iff.1 hm
    exact parseU64_le hv
  · nomatch h

/-- Where the parts of a chunk's headers come from. -/
theorem parseChunkHeaders_spec {headers : Headers} {chunk : ChunkHeaders} (h : parseChunkHeaders headers = .ok chunk) :
    Http.str headers "x-sha-256" = some chunk.sha256 ∧ BlobName.isValidHash chunk.sha256 = true ∧
      chunk.uploadLength ≤ u64Max := by
  unfold parseChunkHeaders at h
  cases hs : Http.str headers "x-sha-256" with
  | none => rw [hs] at h; nomatch h
  | some sha256 =>
    rw [hs] at h
    obtain ⟨_, hv, h⟩ := bind_eq_ok.1 h
    cases ht : Http.str headers "upload-type" with
    | none => rw [ht] at h; nomatch h
    | some uploadType =>
      rw [ht] at h
      obtain ⟨uploadLength, hl, h⟩ := bind_eq_ok.1 h
      obtain ⟨contentLength, _, h⟩ := bind_eq_ok.1 h
      obtain ⟨uploadOffset, _, h⟩ := bind_eq_ok.1 h
      cases h
      refine ⟨rfl, ?_, parseHeader_le hl⟩
      unfold validateSha256Format at hv
      split at hv
      · assumption
      · nomatch hv

/-- What the checks of a chunk's headers establish. -/
theorem checkChunkHeaders_spec {cfg : Config} {headers : Headers} {chunk : ChunkHeaders} {u : Unit}
    (h : checkChunkHeaders cfg headers chunk = .ok u) :
    0 < chunk.contentLength ∧ chunk.uploadOffset + chunk.contentLength ≤ chunk.uploadLength := by
  unfold checkChunkHeaders at h
  split at h
  · nomatch h
  · rename_i hne
    split at h
    · nomatch h
    · split at h
      · nomatch h
      · split at h
        · nomatch h
        · rename_i chunkEnd he
          obtain ⟨rfl, _⟩ := checkedAdd_eq_some.1 he
          split at h
          · nomatch h
          · exact ⟨Nat.pos_of_ne_zero hne, by omega⟩

/-- What the headers of an accepted chunk say: a valid hash, and bytes inside an upload whose length is a `u64`. -/
theorem readChunkHeaders_spec {cfg : Config} {headers : Headers} {chunk : ChunkHeaders}
    (h : readChunkHeaders cfg headers = .ok chunk) :
    (Http.str headers "x-sha-256" = some chunk.sha256 ∧ BlobName.isValidHash chunk.sha256 = true) ∧ 0 < chunk.contentLength ∧
      chunk.uploadOffset + chunk.contentLength ≤ chunk.uploadLength ∧ chunk.uploadLength ≤ u64Max := by
  obtain ⟨chunk', hp, h⟩ := bind_eq_ok.1 h
  obtain ⟨_, hc, h⟩ := bind_eq_ok.1 h
  cases h
  obtain ⟨hs, hv, hl⟩ := parseChunkHeaders_spec hp
  obtain ⟨h₀, hle⟩ := checkChunkHeaders_spec hc
  exact ⟨⟨hs, hv⟩, h₀, hle, hl⟩

/-- An accepted chunk belongs to an upload within the blob limit. -/
theorem readChunkHeaders_limit {cfg : Config} {headers : Headers} {chunk : ChunkHeaders}
    (h : readChunkHeaders cfg headers = .ok chunk) : chunk.uploadLength ≤ cfg.maxBlobSizeBytes := by
  obtain ⟨chunk', _, h⟩ := bind_eq_ok.1 h
  obtain ⟨_, hc, h⟩ := bind_eq_ok.1 h
  cases h
  unfold checkChunkHeaders at hc
  split at hc
  · nomatch hc
  · split at hc
    · nomatch hc
    · rename_i hno
      exact Nat.le_of_not_lt fun hlt => hno (.inr hlt)

/-! ## The pieces of a handler -/

section

variable {cfg : Config} {target : Str → Prop} {P : Req → Prop} {α β ε : Type}

/-- Streaming a body to a scratch file prepares. -/
theorem prepares_of_streams {layout : StorageLayout} {temp : Path} {r : Req} (ht : Scratch layout temp)
    (h : Upload.Streams temp r) : r.Prepares layout := by
  cases r with
  | fs r => cases r <;> first | exact h ▸ ht | exact trivial | exact h.elim
  | closeFile p => exact h ▸ ht
  | _ => first | exact trivial | exact h.elim

/-- A task that only reads is a part of every handler. -/
theorem publishes_of_inspects {R : α → Prop} {p : Async α} (h : p.Within Req.inspects R) :
    Task.Publishes cfg target R p :=
  h.built fun _ => prepares_of_inspects

/-- One request of a handler. -/
theorem publishes_request {r : Req} {R : Resp r → Prop} (hr : P r)
    (hR : ∀ x, r.Foresees cfg.storage x → R x) : Task.Built (Req.Foresees cfg.storage) P (PublishesBlob cfg target) R (request r) :=
  .call hr fun x hx => .ret (hR x hx)

/-- A part of a handler whose result is inspected. -/
theorem publishes_attempt_bind {R : AppResult α → Prop} {S : AppResult β → Prop} {p : AsyncResult α}
    {f : AppResult α → AsyncResult β} (hp : Task.Built (Req.Foresees cfg.storage) P (PublishesBlob cfg target) R p.run)
    (hf : ∀ x, R x → Task.Built (Req.Foresees cfg.storage) P (PublishesBlob cfg target) S (f x).run) : Task.Built (Req.Foresees cfg.storage) P (PublishesBlob cfg target) S (attempt p >>= f).run :=
  Task.Built.lift_bind (p := p.run) hp hf

/-- A part of a handler whose error is mapped. -/
theorem publishes_orErr {message : ε → AppError} {p : Async (Except ε α)}
    (hp : Task.Built (Req.Foresees cfg.storage) P (PublishesBlob cfg target) (fun _ => True) p) : Task.Built (Req.Foresees cfg.storage) P (PublishesBlob cfg target) (fun _ => True) (orErr message p).run :=
  hp.bind fun _ _ => .ret trivial

/-- A sequence whose first part promises nothing of its result. -/
theorem publishes_bind {p : AsyncResult α} {f : α → AsyncResult β} (hp : Task.Built (Req.Foresees cfg.storage) P (PublishesBlob cfg target) (fun _ => True) p.run)
    (hf : ∀ a, Task.Built (Req.Foresees cfg.storage) P (PublishesBlob cfg target) (fun _ => True) (f a).run) :
    Task.Built (Req.Foresees cfg.storage) P (PublishesBlob cfg target) (fun _ => True) (p >>= f).run :=
  hp.run_bind (fun _ _ => trivial) fun a _ => hf a

/-- A request followed by more. -/
theorem publishes_request_bind {r : Req} {f : Resp r → AsyncResult β} (hr : P r)
    (hf : ∀ x, r.Foresees cfg.storage x → Task.Built (Req.Foresees cfg.storage) P (PublishesBlob cfg target) (fun _ => True) (f x).run) :
    Task.Built (Req.Foresees cfg.storage) P (PublishesBlob cfg target) (fun _ => True) ((liftM (request r) : AsyncResult (Resp r)) >>= f).run :=
  Task.Built.lift_bind (publishes_request hr fun _ h => h) hf

/-- A fallible value is a part of every handler. -/
theorem publishes_ofResult {x : AppResult α} : Task.Built (Req.Foresees cfg.storage) P (PublishesBlob cfg target) (fun _ => True) (ofResult x).run :=
  .ret trivial

/-- A fallible value that is used. -/
theorem publishes_ofResult_eq (x : AppResult α) : Task.Built (Req.Foresees cfg.storage) P (PublishesBlob cfg target) (fun y => y = x) (ofResult x).run :=
  .ret rfl

/-- The publication of a blob from a scratch file. -/
theorem publishes_publishBlob {temp : Path} {publication : BlobPublication} (ht : Scratch cfg.storage temp)
    (hp : target publication.sha256) : Task.Built (Req.Foresees cfg.storage) P (PublishesBlob cfg target) (fun _ => True) (publishBlob cfg temp publication).run := by
  have h : Task.Built (Req.Foresees cfg.storage) P (PublishesBlob cfg target) (fun _ => True) ((publishBlob cfg temp publication).run.bind .ret) :=
    .sub ⟨temp, publication, ht, hp, rfl⟩ fun _ => .ret trivial
  rwa [Task.bind_ret] at h

/-- Work on a scratch file that is unlinked when the work fails: what holds of its result still does. -/
theorem publishes_withTemp_of {R : AppResult α → Prop} {temp : Path} {work : AsyncResult α} (ht : Scratch cfg.storage temp)
    (hw : Task.Publishes cfg target R work.run) : Task.Publishes cfg target R (withTemp temp work).run := by
  refine publishes_attempt_bind hw fun x hx => ?_
  cases x with
  | ok a => exact .ret hx
  | error e => exact Task.Built.lift_bind (publishes_request (r := .dropTemp temp) (R := fun _ => True) ht fun _ _ => trivial) fun _ _ => .ret hx

/-- Work on a scratch file leaves the blobs alone when the work does. -/
theorem publishes_withTemp {temp : Path} {work : AsyncResult α} (ht : Scratch cfg.storage temp)
    (hw : Task.Publishes cfg target (fun _ => True) work.run) :
    Task.Publishes cfg target (fun _ => True) (withTemp temp work).run :=
  publishes_withTemp_of ht hw

/-! ## The parts of the handlers -/

/-- Reading the expiration only reads the clock. -/
theorem extractExpiration_uses (headers : Headers) : (extractExpiration headers).run.Uses Req.inspects :=
  Task.Uses.lift_bind (p := nowSecs) ⟨trivial, fun _ _ => trivial⟩ fun _ =>
    Task.Uses.run_bind (p := ofResult _) trivial fun _ => trivial

/-- Reading the expiration leaves the blobs alone. -/
theorem extractExpiration_publishes (headers : Headers) :
    Task.Publishes cfg target (fun _ => True) (extractExpiration headers).run :=
  publishes_of_inspects (extractExpiration_uses headers)

/-- The check of a key asks for trust, and records it. -/
theorem checkPubkeyAuthorization_uses {P : Req → Prop} (hP : ∀ r, r.inspects → P r) (hinsert : ∀ pubkey, P (.insertDvm pubkey))
    (event : Event) (mode : Auth.AuthMode) : (Auth.checkPubkeyAuthorization cfg event mode).run.Uses P := by
  cases mode with
  | strict =>
    simp only [Auth.checkPubkeyAuthorization]
    split
    · exact trivial
    · split <;> exact trivial
  | unrestricted => exact trivial
  | wotOnly =>
    simp only [Auth.checkPubkeyAuthorization]
    split
    · exact trivial
    · refine Task.Uses.lift_bind (uses_request (r := .isTrusted event.pubkey) (hP _ trivial)) fun x => ?_
      cases x <;> exact trivial
  | dvmOnly =>
    simp only [Auth.checkPubkeyAuthorization]
    split
    · exact trivial
    · refine Task.Uses.lift_bind (uses_request (r := .isDvm event.pubkey) (hP _ trivial)) fun x => ?_
      cases x with
      | true => exact trivial
      | false =>
        refine Task.Uses.lift_bind (uses_request (r := .checkDvmAnnouncement event.pubkey) (hP _ trivial)) fun x => ?_
        rcases x with _ | (_ | _)
        · exact trivial
        · exact trivial
        · exact Task.Within.lift (uses_request (hinsert _))

/-- The check of a key leaves the blobs alone. -/
theorem checkPubkeyAuthorization_publishes (event : Event) (mode : Auth.AuthMode) :
    Task.Publishes cfg target (fun _ => True) (Auth.checkPubkeyAuthorization cfg event mode).run :=
  (checkPubkeyAuthorization_uses (P := Req.Prepares cfg.storage) (fun _ => prepares_of_inspects) (fun _ => trivial) event mode).built
    fun _ => id

/-- An authorization reads the clock and asks for trust. -/
theorem authorize_uses {P : Req → Prop} (hP : ∀ r, r.inspects → P r) (hinsert : ∀ pubkey, P (.insertDvm pubkey)) (headers : Headers)
    (operation : Authorization.Operation) : (Authorization.authorize cfg headers operation).run.Uses P := by
  refine Task.Uses.run_bind (p := ofResult _) trivial fun mode => ?_
  cases Http.str headers "authorization" with
  | none => exact trivial
  | some authHeader =>
    refine Task.Uses.run_bind (p := ofResult _) trivial fun event => ?_
    refine Task.Uses.lift_bind (p := nowSecs) ⟨hP _ trivial, fun _ _ => trivial⟩ fun now => ?_
    refine Task.Uses.run_bind (p := ofResult _) trivial fun expiration => ?_
    refine Task.Uses.run_bind (p := ofResult _) trivial fun _ => ?_
    exact Task.Uses.run_bind (checkPubkeyAuthorization_uses hP hinsert event mode) fun _ => trivial

/-- An authorization leaves the blobs alone. -/
theorem authorize_publishes (headers : Headers) (operation : Authorization.Operation) :
    Task.Publishes cfg target (fun _ => True) (Authorization.authorize cfg headers operation).run :=
  (authorize_uses (P := Req.Prepares cfg.storage) (fun _ => prepares_of_inspects) (fun _ => trivial) headers operation).built fun _ => id

/-- Binding an authorization consumes at most its event, and succeeds only for a hash the authorization is valid for. -/
theorem bind_publishes_of (authorized : Authorization.Authorized) (sha256 : Str) :
    Task.Publishes cfg target (fun x => ∀ u, x = .ok u → authorized.validate sha256 = .ok ()) (authorized.bind sha256).run := by
  refine Task.Built.run_bind (publishes_ofResult_eq _) (fun _ _ => nofun) fun _ hv => ?_
  split
  · refine Task.Built.call (r := Req.systemTime) trivial fun now _ => ?_
    refine Task.Built.call (r := Req.consumeReplay _ _ _) trivial fun x _ => ?_
    cases x <;> exact .ret fun _ _ => hv.symm
  · exact .ret fun _ _ => hv.symm

/-- Binding an authorization consumes at most its event. -/
theorem bind_publishes (authorized : Authorization.Authorized) (sha256 : Str) :
    Task.Publishes cfg target (fun _ => True) (authorized.bind sha256).run :=
  (bind_publishes_of authorized sha256).mono fun _ _ => trivial

/-- The capacity check only reads. -/
theorem ensureStorageCapacity_uses (bytes : Nat) : (ensureStorageCapacity cfg bytes).run.Uses Req.inspects := by
  unfold ensureStorageCapacity
  split
  · exact trivial
  · refine Task.Uses.lift_bind (uses_request (r := .index .stats) trivial) fun stats => ?_
    split
    · exact trivial
    · refine Task.Uses.run_bind (uses_orErr (uses_request (r := .fs .availableSpace) trivial)) fun available => ?_
      split <;> exact trivial

/-- The capacity check leaves the blobs alone. -/
theorem ensureStorageCapacity_publishes (bytes : Nat) :
    Task.Publishes cfg target (fun _ => True) (ensureStorageCapacity cfg bytes).run :=
  publishes_of_inspects (ensureStorageCapacity_uses bytes)

/-- Creating the temporary directory leaves the blobs alone. -/
theorem ensureTempDir_publishes : Task.Publishes cfg target (fun _ => True) (ensureTempDir cfg).run :=
  publishes_orErr (publishes_request (r := .fs (.createDirAll _)) trivial fun _ _ => trivial)

/-- A payment leaves the blobs alone. -/
theorem charge_publishes (headers : Headers) (operation : PaidOperation) (size : Nat) :
    Task.Publishes cfg target (fun _ => True) (Cashu.charge cfg headers operation size).run :=
  (Cashu.charge_uses cfg headers operation size).built fun _ h => h.prepares

/-- Streaming a body to a scratch file leaves the blobs alone. -/
theorem streamToTempFile_publishes (body : Body) {temp : Path} (maxBytes : Nat) (ht : Scratch cfg.storage temp) :
    Task.Publishes cfg target (fun _ => True) (Upload.streamToTempFile cfg.libs body temp maxBytes).run :=
  (Upload.streamToTempFile_uses cfg.libs body temp maxBytes).built fun _ => prepares_of_streams ht

/-- The quarantine check only reads. -/
theorem ensureNotQuarantined_publishes (sha256 : Str) :
    Task.Publishes cfg target (fun _ => True) (ensureNotQuarantined cfg.storage sha256).run :=
  publishes_of_inspects (ensureNotQuarantined_uses cfg.storage sha256)

/-- The requests of discarding the chunks of an upload. -/
theorem discardChunkFiles_uses {chunks : List ChunkInfo} (h : ∀ chunk ∈ chunks, P (.fs (.removeFile chunk.chunkPath))) :
    (discardChunkFiles chunks).Uses P := by
  induction chunks with
  | nil => exact trivial
  | cons chunk chunks ih =>
    obtain ⟨hchunk, hchunks⟩ := List.forall_mem_cons.1 h
    exact Task.Uses.bind (uses_request (r := .fs (.removeFile _)) hchunk) fun _ => ih hchunks

/-- Discarding the chunks of an upload leaves the blobs alone. -/
theorem discardChunkFiles_publishes {chunks : List ChunkInfo} (h : ∀ chunk ∈ chunks, Scratch cfg.storage chunk.chunkPath) :
    Task.Publishes cfg target (fun _ => True) (discardChunkFiles chunks) :=
  (discardChunkFiles_uses (P := Req.Prepares cfg.storage) h).built fun _ => id

/-! ## Uploads and mirrors -/

/-- A successful check of equality. -/
theorem eq_of_ensureUploadHashMatches {declared calculated : Str} {u : Unit}
    (h : ensureUploadHashMatches declared calculated = .ok u) : calculated = declared := by
  unfold ensureUploadHashMatches at h
  split at h
  · rename_i he
    exact he.symm
  · nomatch h

/-- What an upload receives has the declared hash. -/
theorem receiveUpload_publishes (headers : Headers) (body : Body) (authorized : Authorization.Authorized)
    (declaredSha256 : Str) {temp : Path} (ht : Scratch cfg.storage temp) :
    Task.Publishes cfg target (fun x => ∀ y, x = .ok y → y.1 = declaredSha256)
      (receiveUpload cfg headers body authorized declaredSha256 temp).run := by
  refine (streamToTempFile_publishes body _ ht).run_bind (fun _ _ => nofun) fun received _ => ?_
  refine Task.Built.run_bind (publishes_ofResult_eq _) (fun _ _ => nofun) fun u hu => ?_
  have he := eq_of_ensureUploadHashMatches hu.symm
  refine (bind_publishes authorized declaredSha256).run_bind (fun _ _ => nofun) fun _ _ => ?_
  refine (ensureNotQuarantined_publishes received.1).run_bind (fun _ _ => nofun) fun _ _ => ?_
  refine (charge_publishes headers .upload received.2).run_bind (fun _ _ => nofun) fun _ _ => ?_
  refine .ret fun y hy => ?_
  cases hy
  exact he

/-- After its authorization an upload publishes at most the hash its request declares, which the authorization is valid for. -/
theorem uploadFile_split (cfg : Config) (headers : Headers) (body : Body) : ∃ rest : Authorization.Authorized → AsyncResult Response,
    uploadFile cfg headers body = (Authorization.authorize cfg headers .upload >>= rest) ∧ ∀ authorized,
      Task.Publishes cfg (fun sha256 => extractDeclaredUploadHash headers = .ok sha256 ∧
        Auth.validateUploadAuth authorized.event sha256 = .ok ()) (fun _ => True) (rest authorized).run := by
  refine ⟨_, rfl, fun authorized => ?_⟩
  refine Task.Built.run_bind (publishes_ofResult_eq _) (fun _ _ => trivial) fun declaredSha256 hd => ?_
  refine Task.Built.run_bind (publishes_ofResult_eq _) (fun _ _ => trivial) fun _ hv => ?_
  refine publishes_bind (extractExpiration_publishes headers) fun expiration => ?_
  refine publishes_bind (ensureStorageCapacity_publishes _) fun _ => ?_
  refine publishes_bind ensureTempDir_publishes fun _ => ?_
  refine publishes_request_bind (r := .reserveTemp _ _ _) rfl fun temp ht => ?_
  refine (publishes_withTemp_of ht (receiveUpload_publishes headers body authorized declaredSha256 ht)).run_bind
    (fun _ _ => trivial) fun received hr => ?_
  have he : received.1 = declaredSha256 := hr received rfl
  refine publishes_bind (publishes_publishBlob ht ?_) fun _ => .ret trivial
  exact ⟨hd.symm.trans (congrArg _ he.symm), he ▸ hv.symm⟩

/-- An upload publishes at most the hash its request declares. -/
theorem uploadFile_publishes (headers : Headers) (body : Body)
    (h : ∀ sha256, extractDeclaredUploadHash headers = .ok sha256 → target sha256) :
    Task.Publishes cfg target (fun _ => True) (uploadFile cfg headers body).run := by
  obtain ⟨rest, heq, hrest⟩ := uploadFile_split cfg headers body
  rw [heq]
  exact publishes_bind (authorize_publishes headers .upload) fun authorized =>
    (hrest authorized).parts fun _ hs => hs.mono fun sha256 hs => h sha256 hs.1

/-- Collecting a body waits for its frames. -/
theorem collectBody_uses (hframe : P .nextFrame) (limit : Nat) (body : Body) (received : Bytes) :
    (collectBody limit body received).run.Uses P := by
  induction body generalizing received with
  | nil => exact Task.Uses.lift_bind (uses_request hframe) fun _ => trivial
  | cons frame frames ih =>
    refine Task.Uses.lift_bind (uses_request hframe) fun _ => ?_
    cases frame with
    | error _ => exact trivial
    | ok data =>
      simp only
      split
      · exact trivial
      · exact ih _

/-- Collecting a body leaves the blobs alone. -/
theorem collectBody_publishes (limit : Nat) (body : Body) (received : Bytes) :
    Task.Publishes cfg target (fun _ => True) (collectBody limit body received).run :=
  (collectBody_uses (P := Req.Prepares cfg.storage) trivial limit body received).built fun _ => id

/-- Writing a response waits for its frames, and writes them to its file. -/
theorem writeResponse_uses {ino : Ino} (hframe : P .nextFrame) (hwrite : ∀ bytes, P (.fs (.writeAll ino bytes))) (maxSizeBytes : Nat)
    (frames : List (AppResult Bytes)) (received : Bytes) : (writeResponse ino maxSizeBytes frames received).run.Uses P := by
  induction frames generalizing received with
  | nil => exact Task.Uses.lift_bind (uses_request hframe) fun _ => trivial
  | cons frame frames ih =>
    refine Task.Uses.lift_bind (uses_request hframe) fun _ => ?_
    refine Task.Uses.run_bind (p := ofResult _) trivial fun data => ?_
    cases checkedAdd received.length data.length with
    | none => exact trivial
    | some newSize =>
      simp only
      split
      · exact trivial
      · exact Task.Uses.run_bind (uses_orErr (uses_request (hwrite _))) fun _ => ih _

/-- Streaming a response to a scratch file leaves the blobs alone. -/
theorem streamResponseToTempFile_publishes (response : Fetched) {temp : Path} (maxSizeBytes : Nat)
    (ht : Scratch cfg.storage temp) :
    Task.Publishes cfg target (fun _ => True) (streamResponseToTempFile cfg.libs response temp maxSizeBytes).run := by
  refine publishes_bind (publishes_orErr (publishes_request (r := .fs (.createFile temp)) ht fun _ _ => trivial)) fun ino => ?_
  refine publishes_attempt_bind (R := fun _ => True) ?_ fun written _ =>
    publishes_request_bind (r := .closeFile temp) ht fun _ _ => publishes_ofResult
  have hwrites : (writeResponse ino maxSizeBytes response.frames []).run.Uses (Req.Prepares cfg.storage) :=
    writeResponse_uses trivial (fun _ => trivial) maxSizeBytes _ _
  refine publishes_bind (hwrites.built fun _ => id) fun received => ?_
  exact publishes_bind (publishes_orErr (publishes_request (r := .fs (.syncAll _)) trivial fun _ _ => trivial)) fun _ => .ret trivial

/-- What a mirror receives leaves the blobs alone. -/
theorem receiveMirror_publishes (headers : Headers) (response : Fetched) (expectedSha256 : Str) {temp : Path}
    (ht : Scratch cfg.storage temp) :
    Task.Publishes cfg target (fun _ => True) (receiveMirror cfg headers response expectedSha256 temp).run := by
  refine publishes_bind (streamResponseToTempFile_publishes response _ ht) fun received => ?_
  simp only
  split
  · exact .ret trivial
  · refine publishes_bind (ensureNotQuarantined_publishes expectedSha256) fun _ => ?_
    exact publishes_bind (charge_publishes headers .mirror received.2) fun _ => .ret trivial

/-- The event of an authorized request is the one its header decodes to. -/
theorem authorize_event (headers : Headers) (operation : Authorization.Operation) :
    Task.Publishes cfg target
      (fun x => ∀ authorized, x = .ok authorized →
        ∃ h, Http.str headers "authorization" = some h ∧ Auth.parseAuthHeader cfg.libs h = .ok authorized.event)
      (Authorization.authorize cfg headers operation).run := by
  refine Task.Built.run_bind (R := fun _ => True) (.ret trivial) (fun _ _ => nofun) fun mode _ => ?_
  cases ha : Http.str headers "authorization" with
  | none => exact .ret nofun
  | some authHeader =>
    refine Task.Built.run_bind (publishes_ofResult_eq _) (fun _ _ => nofun) fun event he => ?_
    refine Task.Built.lift_bind (R := fun _ => True) (.call trivial fun _ _ => .ret trivial) fun now _ => ?_
    refine Task.Built.run_bind (R := fun _ => True) (.ret trivial) (fun _ _ => nofun) fun expiration _ => ?_
    refine Task.Built.run_bind (R := fun _ => True) (.ret trivial) (fun _ _ => nofun) fun _ _ => ?_
    refine (checkPubkeyAuthorization_publishes event mode).run_bind (fun _ _ => nofun) fun _ _ => .ret ?_
    intro authorized h
    cases h
    exact ⟨authHeader, rfl, he.symm⟩

/-- After its authorization a mirror publishes at most the hash its authorization names, which is one to upload. -/
theorem mirrorBlob_split (cfg : Config) (headers : Headers) (body : Body) : ∃ rest : Authorization.Authorized → AsyncResult Response,
    mirrorBlob cfg headers body = (Authorization.authorize cfg headers .mirror >>= rest) ∧ ∀ authorized,
      Task.Publishes cfg (fun sha256 => Auth.validateTTag authorized.event "upload" = .ok () ∧
        Auth.extractSha256FromEvent authorized.event = some sha256) (fun _ => True) (rest authorized).run := by
  refine ⟨_, rfl, fun authorized => ?_⟩
  refine Task.Built.run_bind (publishes_ofResult_eq _) (fun _ _ => trivial) fun _ hv => ?_
  cases hx : Auth.extractSha256FromEvent authorized.event with
  | none => exact .ret trivial
  | some expectedSha256 =>
    refine publishes_bind (extractExpiration_publishes headers) fun expiration => ?_
    refine publishes_bind (collectBody_publishes _ body []) fun bytes => ?_
    refine publishes_bind publishes_ofResult fun field => ?_
    cases field with
    | none => exact .ret trivial
    | some url =>
      refine publishes_bind (publishes_request (r := .fetchFromUrl url) (R := fun _ => True) trivial fun _ _ => trivial)
        fun response => ?_
      refine publishes_bind publishes_ofResult fun _ => ?_
      refine publishes_bind ensureTempDir_publishes fun _ => ?_
      refine publishes_request_bind (r := .reserveTemp _ _ _) rfl fun temp ht => ?_
      refine publishes_bind (publishes_withTemp ht (receiveMirror_publishes headers response expectedSha256 ht)) fun bodySize => ?_
      exact publishes_bind (publishes_publishBlob ht ⟨hv.symm, rfl⟩) fun _ => .ret trivial

/-- A mirror publishes at most the hash its authorization names. -/
theorem mirrorBlob_publishes (headers : Headers) (body : Body)
    (h : ∀ a event sha256, Http.str headers "authorization" = some a → Auth.parseAuthHeader cfg.libs a = .ok event →
      Auth.extractSha256FromEvent event = some sha256 → target sha256) :
    Task.Publishes cfg target (fun _ => True) (mirrorBlob cfg headers body).run := by
  obtain ⟨rest, heq, hrest⟩ := mirrorBlob_split cfg headers body
  rw [heq]
  refine (authorize_event headers .mirror).run_bind (fun _ _ => trivial) fun authorized ha => ?_
  obtain ⟨header, hheader, hevent⟩ := ha authorized rfl
  exact (hrest authorized).parts fun _ hs => hs.mono fun sha256 hs => h header _ sha256 hheader hevent hs.2

/-! ## Chunked uploads -/

/-- Copying a chunk reads it and writes what was read. -/
theorem copyChunk_uses {P : Req → Prop} {ino : Ino} (hread : ∀ ino offset len, P (.fs (.read ino offset len)))
    (hwrite : ∀ bytes, P (.fs (.writeAll ino bytes))) (source : Ino) (fuel position remaining : Nat) (written : Bytes) :
    (copyChunk source ino fuel position remaining written).run.Uses P := by
  induction fuel generalizing position remaining written with
  | zero => cases remaining <;> exact trivial
  | succ fuel ih =>
    cases remaining with
    | zero => exact trivial
    | succ remaining =>
      refine Task.Uses.run_bind (uses_orErr (uses_request (hread _ _ _))) fun bytes => ?_
      simp only
      split
      · exact trivial
      · refine Task.Uses.run_bind (uses_orErr (uses_request (hwrite _))) fun _ => ?_
        cases checkedAdd written.length bytes.length with
        | none => exact trivial
        | some _ => exact ih _ _ _

/-- Copying chunks opens and reads them, and writes what was read. -/
theorem copyChunks_uses {P : Req → Prop} {ino : Ino} (hP : ∀ r, r.inspects → P r) (hwrite : ∀ bytes, P (.fs (.writeAll ino bytes)))
    (chunks : List ChunkInfo) (written : Bytes) : (copyChunks ino chunks written).run.Uses P := by
  induction chunks generalizing written with
  | nil => exact trivial
  | cons chunk chunks ih =>
    refine Task.Uses.run_bind (uses_orErr (uses_request (hP _ trivial))) fun source => ?_
    refine Task.Uses.run_bind (copyChunk_uses (fun _ _ _ => hP _ trivial) hwrite source _ _ _ _) fun written => ?_
    refine Task.Uses.run_bind (uses_orErr (uses_request (hP _ trivial))) fun rest => ?_
    split
    · exact trivial
    · exact ih _

/-- Writing a reconstruction reads the chunks and writes to its file. -/
theorem writeReconstruction_uses {P : Req → Prop} {ino : Ino} (hP : ∀ r, r.inspects → P r) (hwrite : ∀ bytes, P (.fs (.writeAll ino bytes)))
    (chunks : List ChunkInfo) (uploadLength : Nat) (expectedSha256 : Str) :
    (writeReconstruction cfg.libs chunks uploadLength expectedSha256 ino).run.Uses P := by
  refine Task.Uses.run_bind (copyChunks_uses hP hwrite chunks []) fun written => ?_
  split
  · exact trivial
  · exact Task.Uses.run_bind (uses_orErr (uses_request (hP _ trivial))) fun _ => trivial

/-- A reconstruction reads the chunks and writes the temporary file. -/
theorem reconstructInto_uses {P : Req → Prop} {temp : Path} (hP : ∀ r, r.inspects → P r) (hstreams : ∀ r, Upload.Streams temp r → P r)
    (chunks : List ChunkInfo) (uploadLength : Nat) (expectedSha256 : Str) :
    (reconstructInto cfg.libs chunks uploadLength expectedSha256 temp).run.Uses P := by
  refine Task.Uses.run_bind (uses_orErr (uses_request (r := .fs (.createFile temp)) (hstreams _ rfl))) fun ino => ?_
  refine Task.Uses.run_bind (uses_attempt (writeReconstruction_uses hP (fun _ => hstreams _ trivial) chunks uploadLength expectedSha256))
    fun written => ?_
  exact Task.Uses.lift_bind (uses_request (r := .closeFile temp) (hstreams _ rfl)) fun _ => trivial

/-- Writing a reconstruction leaves the blobs alone. -/
theorem reconstructInto_publishes (chunks : List ChunkInfo) (uploadLength : Nat) (expectedSha256 : Str) {temp : Path}
    (ht : Scratch cfg.storage temp) :
    Task.Publishes cfg target (fun _ => True) (reconstructInto cfg.libs chunks uploadLength expectedSha256 temp).run :=
  (reconstructInto_uses (P := Req.Prepares cfg.storage) (fun _ => prepares_of_inspects) (fun _ => prepares_of_streams ht) chunks uploadLength
    expectedSha256).built fun _ => id

/-- A reconstruction publishes at most its hash. -/
theorem reconstructBlob_publishes {upload : ChunkUpload} {sha256 : Str} (hu : upload.WellFormed cfg.storage) (h : target sha256) :
    Task.Publishes cfg target (fun _ => True) (reconstructBlob cfg upload sha256).run := by
  have hchunks : ∀ chunk ∈ sortChunks upload.chunks, Scratch cfg.storage chunk.chunkPath := fun c hc =>
    (hu.fits c ((perm_sortChunks _).mem_iff.1 hc)).file.scratch
  have hdiscard : ∀ x : AppResult FileMetadata, Task.Publishes cfg target (fun _ => True)
      (((do discardChunkFiles (sortChunks upload.chunks); ofResult x) : AsyncResult FileMetadata)).run := fun x =>
    Task.Built.lift_bind (discardChunkFiles_publishes hchunks) fun _ _ => publishes_ofResult
  unfold reconstructBlob
  simp only
  split
  · exact hdiscard (.error _)
  · exact .ret trivial
  · split
    · exact hdiscard (.error _)
    · refine publishes_bind ensureTempDir_publishes fun _ => ?_
      refine publishes_request_bind (r := .reserveTemp _ _ _) rfl fun temp ht => ?_
      refine publishes_attempt_bind (R := fun _ => True) ?_ fun x _ => hdiscard x
      refine publishes_bind (publishes_withTemp ht (reconstructInto_publishes _ _ _ ht)) fun total => ?_
      exact publishes_bind (publishes_publishBlob ht h) fun _ => .ret trivial

/-- Writing a chunk leaves the blobs alone. -/
theorem writeChunk_publishes (body : Body) {chunkPath : Path} (contentLength : Nat) (hp : Scratch cfg.storage chunkPath) :
    Task.Publishes cfg target (fun _ => True) (writeChunk cfg body chunkPath contentLength).run := by
  refine publishes_attempt_bind (streamToTempFile_publishes body contentLength hp) fun x _ => ?_
  rcases x with error | ⟨_, written⟩
  · exact publishes_request_bind (r := .fs (.removeFile _)) hp fun _ _ => .ret trivial
  · simp only
    split
    · exact publishes_request_bind (r := .fs (.removeFile _)) hp fun _ _ => .ret trivial
    · exact .ret trivial

/-- Preparing the directory of the chunk files leaves the blobs alone. -/
theorem prepareChunkDir_publishes (contentLength : Nat) :
    Task.Publishes cfg target (fun _ => True) (prepareChunkDir cfg contentLength).run := by
  refine publishes_bind (ensureStorageCapacity_publishes contentLength) fun _ => ?_
  refine publishes_bind ensureTempDir_publishes fun _ => ?_
  exact publishes_orErr (publishes_request (r := .fs (.createDirAll _)) trivial fun _ _ => trivial)

/-- Undoing a completion leaves the blobs alone. -/
theorem undoCompletion_settles {key : ChunkUploadKey} {upload : ChunkUpload} {chunkPath : Path}
    (hu : upload.WellFormed cfg.storage) (hp : Scratch cfg.storage chunkPath) :
    Task.Settles cfg target (fun _ => True) (undoCompletion key upload chunkPath) := by
  have hrest : ({ upload with chunks := upload.chunks.dropLast } : ChunkUpload).WellFormed cfg.storage := hu.dropLast
  refine Task.Built.call (r := Req.sessions (.restore _ _)) hrest fun restored _ => ?_
  cases restored with
  | true => exact .call hp fun _ _ => .ret trivial
  | false => exact (discardChunkFiles_publishes fun c hc => (hu.fits c hc).file.scratch).settles

/-- What follows a completion publishes at most the hash. -/
theorem finishUpload_settles (headers : Headers) (key : ChunkUploadKey) (chunk : ChunkHeaders) {chunkPath : Path}
    {upload : ChunkUpload} (hp : Scratch cfg.storage chunkPath) (hu : upload.WellFormed cfg.storage) (h : target chunk.sha256) :
    Task.Settles cfg target (fun _ => True) (finishUpload cfg headers key chunk chunkPath upload).run := by
  refine publishes_attempt_bind (charge_publishes headers .upload chunk.uploadLength).settles fun x _ => ?_
  cases x with
  | error e => exact Task.Built.lift_bind (undoCompletion_settles hu hp) fun _ _ => .ret trivial
  | ok _ =>
    simp only
    split
    · exact .ret trivial
    · split
      · exact .ret trivial
      · exact publishes_bind (reconstructBlob_publishes hu h).settles fun _ => .ret trivial

/-- A chunk is stored in a chunk file. -/
theorem storeChunk_publishes (body : Body) (chunk : ChunkHeaders) :
    Task.Publishes cfg target (fun x => ∀ p, x = .ok p → ChunkFile cfg.storage p) (storeChunk cfg body chunk).run := by
  refine (prepareChunkDir_publishes chunk.contentLength).run_bind (fun _ _ => nofun) fun _ _ => ?_
  refine Task.Built.lift_bind (publishes_request (r := .uuid) (R := fun _ => True) trivial fun _ _ => trivial) fun uuid _ => ?_
  have hp : ChunkFile cfg.storage (chunksDir cfg.storage ++ [chunkName chunk.sha256 chunk.uploadOffset uuid]) := ⟨_, rfl⟩
  refine (writeChunk_publishes body chunk.contentLength hp.scratch).run_bind (fun _ _ => nofun) fun _ _ => .ret ?_
  intro p he
  cases he
  exact hp

/-- A received chunk is in a chunk file. -/
theorem receiveChunk_publishes (body : Body) (key : ChunkUploadKey) (chunk : ChunkHeaders) :
    Task.Receives cfg target (fun x => ∀ p, x = .ok p → ChunkFile cfg.storage p) (receiveChunk cfg body key chunk).run := by
  refine publishes_attempt_bind (storeChunk_publishes body chunk).receives fun x hx => ?_
  cases x with
  | ok p => exact .ret hx
  | error e =>
    exact Task.Built.lift_bind (publishes_request (r := .sessions (.release key)) (R := fun _ => True) trivial
      fun _ _ => trivial) fun _ _ => .ret hx

/-- After its authorization a chunk publishes at most the hash its request names, which the authorization is valid for. -/
theorem patchUpload_split (cfg : Config) (headers : Headers) (body : Body) :
    ∃ rest : ChunkHeaders → Authorization.Authorized → AsyncResult Response,
      patchUpload cfg headers body = (do
        let chunk ← ofResult (readChunkHeaders cfg headers)
        let authorized ← Authorization.authorize cfg headers .chunkUpload
        rest chunk authorized) ∧
      ∀ chunk authorized, readChunkHeaders cfg headers = .ok chunk →
        Task.Receives cfg (fun sha256 => sha256 = chunk.sha256 ∧ authorized.validate chunk.sha256 = .ok ()) (fun _ => True)
          (rest chunk authorized).run := by
  refine ⟨_, rfl, fun chunk authorized hc => ?_⟩
  obtain ⟨_, hpos, hin, hlen⟩ := readChunkHeaders_spec hc
  refine (bind_publishes_of authorized chunk.sha256).receives.run_bind (fun _ _ => trivial) fun u hv => ?_
  refine publishes_bind (ensureNotQuarantined_publishes chunk.sha256).receives fun _ => ?_
  refine publishes_bind (extractExpiration_publishes headers).receives fun expiration => ?_
  refine publishes_request_bind (r := .sessions (.reserve _)) trivial fun reservation _ => ?_
  cases reservation with
  | globalLimit => exact .ret trivial
  | perPubkeyLimit => exact .ret trivial
  | granted =>
    refine (receiveChunk_publishes body _ chunk).run_bind (fun _ _ => trivial) fun chunkPath hp => ?_
    refine publishes_request_bind (r := .sessions (.commit _ _ _)) ⟨⟨hp chunkPath rfl, hpos, hin⟩, hlen⟩ fun committed hu => ?_
    cases committed with
    | incomplete => exact .ret trivial
    | overlap => exact publishes_request_bind (r := .fs (.removeFile _)) (hp chunkPath rfl).scratch fun _ _ => .ret trivial
    | paramMismatch => exact publishes_request_bind (r := .fs (.removeFile _)) (hp chunkPath rfl).scratch fun _ _ => .ret trivial
    | complete upload =>
      exact (finishUpload_settles headers _ chunk (hp chunkPath rfl).scratch hu.1.toWellFormed ⟨rfl, hv u rfl⟩).receives

/-- A chunk publishes at most the hash its request names. -/
theorem patchUpload_publishes (headers : Headers) (body : Body)
    (h : ∀ sha256, Http.str headers "x-sha-256" = some sha256 → target sha256) :
    Task.Receives cfg target (fun _ => True) (patchUpload cfg headers body).run := by
  obtain ⟨rest, heq, hrest⟩ := patchUpload_split cfg headers body
  rw [heq]
  refine Task.Built.run_bind (publishes_ofResult_eq _) (fun _ _ => trivial) fun chunk hc => ?_
  obtain ⟨⟨hsha, _⟩, _⟩ := readChunkHeaders_spec hc.symm
  refine publishes_bind (authorize_publishes headers .chunkUpload).receives fun authorized => ?_
  refine (hrest chunk authorized hc.symm).parts fun _ hs => hs.mono ?_
  rintro _ ⟨rfl, _⟩
  exact h _ hsha

/-! ## The other intakes, and serving -/

/-- A received body is published under its hash. -/
theorem receiveAndPublish_publishes (publication : BlobPublication) (body : Body) (h : target publication.sha256) :
    Task.Publishes cfg target (fun _ => True) (Upload.receiveAndPublish cfg body publication).run := by
  refine publishes_request_bind (r := .reserveTemp _ _ _) rfl fun temp ht => ?_
  refine publishes_attempt_bind (streamToTempFile_publishes body _ ht) fun x _ => ?_
  cases x with
  | error e => exact publishes_request_bind (r := .dropTemp _) ht fun _ _ => .ret trivial
  | ok _ => exact publishes_publishBlob ht h

/-- A request of the chunk cleanup: it evicts sessions, removes scratch files, or reads. -/
def Sweeps (layout : StorageLayout) : Req → Prop
  | .sessions (.evictOlderThan _) => True
  | .fs (.removeFile p) => Scratch layout p
  | r => r.inspects

/-- The chunk cleanup is a part of settling. -/
theorem Sweeps.settles {layout : StorageLayout} {r : Req} (h : Sweeps layout r) : r.Settles layout := by
  cases r with
  | sessions r => cases r <;> first | exact trivial | exact h.elim
  | fs r => cases r <;> first | exact h | exact h.elim
  | _ => first | exact h | exact h.elim

/-- Discarding the files of evicted sessions removes scratch files. -/
theorem discardEvicted_uses {layout : StorageLayout} {uploads : List ChunkUpload} (h : ∀ upload ∈ uploads, upload.WellFormed layout) :
    (discardEvicted uploads).Uses (Sweeps layout) := by
  induction uploads with
  | nil => exact trivial
  | cons upload uploads ih =>
    obtain ⟨hupload, huploads⟩ := List.forall_mem_cons.1 h
    exact Task.Uses.bind (discardChunkFiles_uses fun c hc => (hupload.fits c hc).file.scratch) fun _ => ih huploads

/-- Removing old chunk files reads, and removes scratch files. -/
theorem sweepChunkFiles_uses (layout : StorageLayout) (cutoffTime : Nat) (names : List Str) :
    (sweepChunkFiles (chunksDir layout) cutoffTime names).Uses (Sweeps layout) := by
  induction names with
  | nil => exact Task.Uses.bind (uses_request (r := .fs (.nextEntry _)) trivial) fun _ => trivial
  | cons name names ih =>
    refine Task.Uses.bind (uses_request (r := .fs (.nextEntry _)) trivial) fun x => ?_
    cases x with
    | error e => exact trivial
    | ok _ =>
      refine Task.Uses.bind (uses_request (r := .fs (.fileType _)) trivial) fun fileType => ?_
      split
      · refine Task.Uses.bind (uses_request (r := .fs (.metadata _)) trivial) fun m => ?_
        rcases m with e | ⟨_, modified⟩
        · exact ih
        · simp only
          split
          · exact Task.Uses.bind (uses_request (r := .fs (.removeFile _)) (ChunkFile.scratch ⟨name, rfl⟩)) fun _ => ih
          · exact ih
      · exact ih

/-- The chunk cleanup evicts sessions, removes scratch files, and reads. -/
theorem cleanupAbandonedChunks_sweeps :
    (cleanupAbandonedChunks cfg).Built (Req.Foresees cfg.storage) (Sweeps cfg.storage) (PublishesBlob cfg target) fun _ => True := by
  refine Task.Built.call (r := Req.sessions (.evictOlderThan _)) trivial fun evicted hu => ?_
  refine ((discardEvicted_uses hu).built fun _ => id).bind fun _ _ => ?_
  refine Task.Within.built (fun _ => id) (R := fun _ => True) ?_
  refine Task.Uses.bind (uses_request (r := .fs (.tryExists _)) trivial) fun x => ?_
  split
  · refine Task.Uses.bind (uses_request (r := .systemTime) trivial) fun now => ?_
    refine Task.Uses.bind (uses_request (r := .fs (.readDir _)) trivial) fun names => ?_
    cases names with
    | error e => exact trivial
    | ok names => exact sweepChunkFiles_uses cfg.storage _ names
  · exact trivial

/-- The chunk cleanup leaves the blobs alone. -/
theorem cleanupAbandonedChunks_settles : Task.Settles cfg target (fun _ => True) (cleanupAbandonedChunks cfg) :=
  cleanupAbandonedChunks_sweeps.widen fun _ => Sweeps.settles

/-- Serving a blob reads it, and settles its payment. -/
theorem serveBlob_uses (headers : Headers) (head : Bool) (fileHash : Str) (size : Nat) (bytes : Serving.BlobBytes) :
    (Serving.serveBlob cfg headers head fileHash size bytes).run.Uses Req.Checks := by
  simp only [Serving.serveBlob]
  split
  · exact trivial
  · split
    · exact trivial
    · refine Task.Uses.run_bind (Cashu.charge_uses cfg headers .download size) fun _ => ?_
      cases bytes with
      | localFile path => exact (Serving.serveFileWithRange_uses path headers _).mono (fun _ => Req.inspects.checks) fun _ => id
      | native key => exact (Serving.serveS3WithRange_uses key size headers _).mono (fun _ => Req.inspects.checks) fun _ => id

/-- The publication of metadata for an object of a hash that was found in the bucket. -/
def DiscoversBlob (cfg : Config) (sha256 : Str) (p : Async (AppResult FileMetadata)) : Prop :=
  ∃ metadata, NativeStorage.Listed sha256 metadata ∧ p = (publishExistingMetadata cfg sha256 metadata).run

/-- A `GET` publishes at most what it finds in the bucket of the hash its path names, when there is a bucket. -/
theorem handleFileRequest_searches (headers : Headers) (head : Bool) (filename : Str) :
    (Serving.handleFileRequest cfg headers head filename).run.Built (Req.Foresees cfg.storage) Req.Checks
      (fun p => cfg.nativeS3 = true ∧ ∃ sha256, Serving.getSha256HashFromFilename filename = some sha256 ∧ DiscoversBlob cfg sha256 p)
      fun _ => True := by
  have hserve : ∀ fileHash size bytes, (Serving.serveBlob cfg headers head fileHash size bytes).run.Built (Req.Foresees cfg.storage)
      Req.Checks (fun p => cfg.nativeS3 = true ∧ ∃ sha256, Serving.getSha256HashFromFilename filename = some sha256 ∧
        DiscoversBlob cfg sha256 p) fun _ => True := fun fileHash size bytes =>
    (serveBlob_uses headers head fileHash size bytes).built fun _ => id
  unfold Serving.handleFileRequest
  cases hh : Serving.getSha256HashFromFilename filename with
  | none => exact .ret trivial
  | some fileHash =>
    rw [hh] at hserve
    refine Task.Built.run_bind (R := fun _ => True) ?_ (fun _ _ => trivial) fun source _ => ?_
    · refine Task.Built.call (r := Req.index (.get _)) trivial fun x _ => ?_
      cases x with
      | some m => exact .ret trivial
      | none =>
        refine Task.Built.run_bind (R := fun _ => True) ?_ (fun _ _ => trivial) fun published _ => ?_
        · unfold Serving.discoverBlob
          split
          · rename_i hs3
            refine Task.Built.run_bind (NativeStorage.ensureAvailable_uses.built fun _ => Req.inspects.checks)
              (fun _ _ => trivial) fun _ _ => ?_
            refine Task.Built.run_bind ((NativeStorage.find_within cfg.libs fileHash).built fun _ => Req.inspects.checks)
              (fun _ _ => trivial) fun found hfound => ?_
            cases found with
            | none => exact .ret trivial
            | some m => exact .sub ⟨hs3, fileHash, rfl, m, hfound m rfl, rfl⟩ fun x => by cases x <;> exact .ret trivial
          · exact .ret trivial
        · cases published with
          | some m => exact .ret trivial
          | none =>
            refine Task.Built.call (r := Req.getServeFile _) trivial fun file _ => ?_
            cases file <;> exact .ret trivial
    · cases source with
      | indexed m =>
        refine Task.Built.run_bind (R := fun _ => True) (.ret trivial) (fun _ _ => trivial) fun bytes _ => ?_
        exact hserve _ _ _
      | serveFile file => exact hserve _ _ _
      | upstream => exact .call trivial fun _ _ => .ret trivial

end

end Handlers

/-! ## The programs -/

/-- The shape of a `GET`. -/
theorem exists_get_of_isGet {op : Op} (h : op.isGet = true) : ∃ headers head filename, op = .get headers head filename := by
  cases op with
  | get headers head filename => exact ⟨headers, head, filename, rfl⟩
  | _ => nomatch h

/-- A `GET` checks, and publishes at most what it finds in the bucket, when there is one. -/
theorem program_searches {cfg : Config} (headers : Headers) (head : Bool) (filename : Str) :
    (program cfg (.get headers head filename)).Built (Req.Foresees cfg.storage) Req.Checks
      (fun p => cfg.nativeS3 = true ∧ ∃ sha256, Serving.getSha256HashFromFilename filename = some sha256 ∧ Handlers.DiscoversBlob cfg sha256 p)
      fun _ => True :=
  (Handlers.handleFileRequest_searches headers head filename).bind fun _ _ => .ret trivial

/-- A `GET` publishes at most what it finds in the bucket. -/
theorem program_discovers {cfg : Config} (headers : Headers) (head : Bool) (filename : Str) :
    (program cfg (.get headers head filename)).Built (Req.Foresees cfg.storage) (Req.Prepares cfg.storage)
      (fun p => ∃ sha256, Serving.getSha256HashFromFilename filename = some sha256 ∧ Handlers.DiscoversBlob cfg sha256 p)
      fun _ => True :=
  ((program_searches headers head filename).parts fun _ h => h.2).widen fun _ h => h.prepares

/-- Whether an operation works on sessions. -/
def Op.isChunked : Op → Bool
  | .patch _ _ | .cleanupAbandonedChunks => true
  | _ => false

/-- An upload in one piece publishes at most the hash it names. -/
theorem program_publishes {cfg : Config} {op : Op} (h : op.isUpload = true) (hc : op.isChunked = false) :
    Task.Publishes cfg (fun sha256 => op.target cfg = some sha256) (fun _ => True) (program cfg op) := by
  cases op with
  | upload headers body =>
    refine (Handlers.uploadFile_publishes headers body fun sha256 hs => ?_).bind fun _ _ => .ret trivial
    rw [Op.target, hs]
    rfl
  | mirror headers body =>
    refine (Handlers.mirrorBlob_publishes headers body fun a event sha256 ha he hs => ?_).bind fun _ _ => .ret trivial
    simp only [Op.target, ha, Option.bind_some, he, Except.toOption, hs]
  | publish publication body =>
    have h : Task.Publishes cfg (fun sha256 => (Op.publish publication body).target cfg = some sha256) (fun _ => True)
        (Upload.receiveAndPublish cfg body publication).run := Handlers.receiveAndPublish_publishes publication body rfl
    exact h.bind fun _ _ => .ret trivial
  | patch headers body => nomatch hc
  | _ => nomatch h

/-- The chunk cleanup as a program. -/
theorem program_sweeps (cfg : Config) :
    (program cfg .cleanupAbandonedChunks).Built (Req.Foresees cfg.storage) (Handlers.Sweeps cfg.storage) (PublishesBlob cfg fun _ => False)
      fun _ => True :=
  Handlers.cleanupAbandonedChunks_sweeps.bind fun _ _ => .ret trivial

/-- An upload publishes at most the hash it names. -/
theorem program_receives {cfg : Config} {op : Op} (h : op.isUpload = true) :
    Task.Receives cfg (fun sha256 => op.target cfg = some sha256) (fun _ => True) (program cfg op) := by
  cases hc : op.isChunked with
  | false => exact (program_publishes h hc).receives
  | true =>
    cases op with
    | patch headers body => exact (Handlers.patchUpload_publishes headers body fun _ hs => hs).bind fun _ _ => .ret trivial
    | cleanupAbandonedChunks => nomatch h
    | _ => nomatch hc

end Almond
