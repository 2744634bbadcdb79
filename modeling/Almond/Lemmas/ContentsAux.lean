import Almond.Lemmas.CustodyAux

/-! # Who writes a chunk file

Only the request that named a chunk file creates it and writes to it, and not any more once it committed the chunk. What it commits is a
file to which it has written the whole body that it received. -/

namespace Almond

open Conc FileStorage Handlers

namespace Contents

/-- What a request has written to a file since it created it, after another response. -/
def next (p : Path) (w : Option (Ino × Bytes)) : (r : Req) → Resp r → Option (Ino × Bytes)
  | .fs (.createFile p'), .ok ino => if p' = p then some (ino, []) else w
  | .fs (.writeAll ino bytes), .ok _ => w.map fun file => if file.1 = ino then (ino, file.2 ++ bytes) else file
  | _, _ => w

/-- What a request has written to a file since it created it, and under which inode, after its requests so far, the latest first. -/
def written (p : Path) : List (Task.Event Req Resp) → Option (Ino × Bytes)
  | [] => none
  | ⟨r, x⟩ :: past => next p (written p past) r x

/-- A request named a chunk file. -/
def Named (layout : StorageLayout) (past : List (Task.Event Req Resp)) (p : Path) : Prop :=
  ∃ uuid, ⟨.uuid, uuid⟩ ∈ past ∧ names layout uuid p = true

/-- A request committed the chunk in a file. -/
def Committed (past : List (Task.Event Req Resp)) (p : Path) : Prop :=
  ∃ key params chunk x, ⟨.sessions (.commit key params chunk), x⟩ ∈ past ∧ chunk.chunkPath = p

/-- A chunk whose file holds the body of a request, by what the request has written. -/
def Holds (layout : StorageLayout) (op : Op) (past : List (Task.Event Req Resp)) (chunk : ChunkInfo) : Prop :=
  ChunkFile layout chunk.chunkPath ∧ ∃ headers body ino, op = .patch headers body ∧
    written chunk.chunkPath past = some (ino, receivedBytes body) ∧ chunk.length = (receivedBytes body).length

/-- A request that neither creates a file nor writes to one, moves none to a chunk file, and gives none to a session. -/
def Free (layout : StorageLayout) : Req → Prop
  | .fs (.createFile _) | .fs (.writeAll _ _) => False
  | .fs (.rename _ p) => ¬ ChunkFile layout p
  | .sessions (.commit _ _ _) | .sessions (.restore _ _) => False
  | _ => True

/-- A request that writes to one inode, or is free. -/
def Writes (layout : StorageLayout) (ino : Ino) : Req → Prop
  | .fs (.writeAll ino' _) => ino' = ino
  | r => Free layout r

/-- What an operation may request: it creates only chunk files that it named, writes only to files that it created, commits only a file that
holds its body, and gives back only chunks of an upload that it completed. -/
def May (layout : StorageLayout) (op : Op) (past : List (Task.Event Req Resp)) : Req → Prop
  | .fs (.createFile p) => ChunkFile layout p → Named layout past p ∧ ¬ Committed past p
  | .fs (.writeAll ino _) => ∃ p bytes, written p past = some (ino, bytes) ∧ (ChunkFile layout p → ¬ Committed past p)
  | .fs (.rename _ p) => ¬ ChunkFile layout p
  | .sessions (.commit _ _ chunk) => Holds layout op past chunk
  | .sessions (.restore _ upload) => ∀ chunk ∈ upload.chunks, ∃ key params last whole,
      ⟨.sessions (.commit key params last), .complete whole⟩ ∈ past ∧ chunk ∈ whole.chunks
  | _ => True

/-- A response as the requests rely on it: a temporary file is directly below its directory. -/
def Answers (layout : StorageLayout) (r : Req) (x : Resp r) : Prop :=
  r.Foresees layout x ∧
    match r, x with
    | .reserveTemp dir _ _, p => ∃ name, p = dir ++ [name]
    | _, _ => True

/-- The protocol of an operation. -/
abbrev protocol (layout : StorageLayout) (op : Op) : Protocol Req Resp Str (List (Task.Event Req Resp)) :=
  .recording (Answers layout) (fun _ _ => True) (May layout op)

/-! ## Requests -/

section

variable {layout : StorageLayout} {op : Op} {past : List (Task.Event Req Resp)} {r : Req} {x : Resp r}

/-- A free request may always be made. -/
theorem may_of_free (h : Free layout r) : May layout op past r := by
  cases r with
  | fs r => cases r <;> first | exact trivial | exact h | exact h.elim
  | sessions r => cases r <;> first | exact trivial | exact h.elim
  | _ => exact trivial

/-- A free request writes nothing. -/
theorem next_of_free (h : Free layout r) (p : Path) (w : Option (Ino × Bytes)) : next p w r x = w := by
  cases r with
  | fs r => cases r <;> first | rfl | exact h.elim
  | _ => rfl

/-- A request that reads is free. -/
theorem free_of_inspects (h : r.inspects) : Free layout r := by
  cases r with
  | fs r => cases r <;> first | exact trivial | exact h.elim
  | sessions r => exact h.elim
  | _ => exact trivial

/-- A request that checks is free. -/
theorem free_of_checks (h : r.Checks) : Free layout r := by
  cases r with
  | receiveToken token => exact trivial
  | consumeReplay eventId expiresAt now => exact trivial
  | _ => exact free_of_inspects h

/-- The chunk cleanup is free. -/
theorem free_of_sweeps (h : Sweeps layout r) : Free layout r := by
  cases r with
  | sessions r => cases r <;> first | exact trivial | exact h.elim
  | fs r => cases r <;> first | exact trivial | exact h.elim
  | _ => exact trivial

/-- A publication moves no file to a chunk file. -/
theorem free_of_places {root : Path} (hlayout : layout = .new root) {sha256 : Str} (h : r.Places layout sha256) : Free layout r := by
  cases r with
  | fs r =>
    cases r with
    | rename p q =>
      obtain ⟨origin, extension, expiration, hq⟩ := h
      exact fun hc => (housed_of_completedPath hq).ne_scratch hlayout hc.scratch rfl
    | createFile p => exact h.elim
    | writeAll ino bytes => exact h.elim
    | _ => exact trivial
  | sessions r => exact h.elim
  | _ => exact trivial

/-- Maintenance moves no file to a chunk file. -/
theorem free_of_maintains {root : Path} (hlayout : layout = .new root) (h : r.Maintains layout) : Free layout r := by
  cases r with
  | fs r =>
    cases r with
    | rename p q =>
      rintro ⟨name, rfl⟩
      subst hlayout
      simp only [Req.Maintains, StorageLayout.new, chunksDir, List.append_assoc, List.prefix_append_right_inj] at h
      rcases h with h | h <;> exact absurd (List.cons_prefix_cons.1 h).1 (by decide)
    | createFile p => exact h.elim
    | writeAll ino bytes => exact h.elim
    | _ => exact trivial
  | sessions r => exact h.elim
  | _ => exact trivial

/-- Only a commit commits a chunk. -/
theorem committed_of_cons (hr : ∀ key params chunk, r ≠ .sessions (.commit key params chunk)) {p : Path}
    (h : Committed (⟨r, x⟩ :: past) p) :
    Committed past p := by
  obtain ⟨key, params, chunk, y, hmem, hp⟩ := h
  rcases List.mem_cons.1 hmem with he | hmem
  · cases he
    exact absurd rfl (hr key params chunk)
  · exact ⟨key, params, chunk, y, hmem, hp⟩

end

/-! ## What a request has written -/

/-- A record that was extended without a commit. -/
structure Extends (past q : List (Task.Event Req Resp)) : Prop where
  suffix : past <:+ q
  committed : ∀ p, Committed q p → Committed past p

/-- A record that was extended by the creation of a file, to which some bytes were written. -/
structure Opened (past q : List (Task.Event Req Resp)) (p : Path) (ino : Ino) (bytes : Bytes) : Prop extends Extends past q where
  written : written p q = some (ino, bytes)

section

variable {layout : StorageLayout} {past q : List (Task.Event Req Resp)} {r : Req} {x : Resp r} {p : Path} {ino : Ino} {bytes : Bytes}

theorem Extends.refl (past : List (Task.Event Req Resp)) : Extends past past :=
  ⟨List.suffix_refl past, fun _ => id⟩

/-- A request that commits nothing extends the record without a commit. -/
theorem Extends.cons (h : Extends past q) (hr : ∀ key params chunk, r ≠ .sessions (.commit key params chunk)) :
    Extends past (⟨r, x⟩ :: q) :=
  ⟨h.suffix.trans (List.suffix_cons ..), fun p hp => h.committed p (committed_of_cons hr hp)⟩

/-- A free request commits nothing. -/
theorem ne_commit_of_free (h : Free layout r) (key : ChunkUploadKey) (params : SessionParams) (chunk : ChunkInfo) :
    r ≠ .sessions (.commit key params chunk) := by
  rintro rfl
  exact h

/-- A free request leaves what was written. -/
theorem Opened.free (h : Opened past q p ino bytes) (hr : Free layout r) : Opened past (⟨r, x⟩ :: q) p ino bytes :=
  ⟨h.toExtends.cons (ne_commit_of_free hr), (next_of_free hr p _).trans h.written⟩

/-- A file that was created is empty. -/
theorem opened_createFile (h : Extends past q) (p : Path) (ino : Ino) : Opened past (⟨.fs (.createFile p), .ok ino⟩ :: q) p ino [] :=
  ⟨h.cons nofun, if_pos rfl⟩

/-- What is written to a file is appended to it. -/
theorem Opened.writeAll (h : Opened past q p ino bytes) (piece : Bytes) (u : Unit) :
    Opened past (⟨.fs (.writeAll ino piece), .ok u⟩ :: q) p ino (bytes ++ piece) := by
  refine ⟨h.toExtends.cons nofun, ?_⟩
  show (Contents.written p q).map _ = _
  rw [h.written, Option.map_some, if_pos rfl]

end

/-- A request that reads writes to no other inode. -/
theorem writes_of_inspects {layout : StorageLayout} {ino : Ino} {r : Req} (h : r.inspects) : Writes layout ino r := by
  cases r with
  | fs r => cases r <;> first | exact trivial | exact h.elim
  | sessions r => exact h.elim
  | _ => exact trivial

/-- A request that writes to one inode does so, or is free. -/
theorem free_or_of_writes {layout : StorageLayout} {ino : Ino} {r : Req} (h : Writes layout ino r) :
    (∃ piece, r = .fs (.writeAll ino piece)) ∨ Free layout r := by
  cases r with
  | fs r =>
    cases r with
    | writeAll ino' piece => exact .inl ⟨piece, (show ino' = ino from h) ▸ rfl⟩
    | _ => exact .inr h
  | _ => exact .inr h

section

variable {cfg : Config} {op : Op} {past q : List (Task.Event Req Resp)} {α β : Type} {p : Path} {ino : Ino} {bytes : Bytes}

/-- A free part extends the record without a commit. -/
theorem obeys_of_free {f : Async α} (hf : f.Issues (Free cfg.storage)) :
    f.Obeys (protocol cfg.storage op) (fun q _ => Extends past q) past :=
  hf.obeys_keeping (I := Extends past) (fun _ _ _ => trivial) (fun _ _ _ hr => may_of_free hr)
    (fun _ _ _ hq hr => hq.cons (ne_commit_of_free hr)) (.refl past)

/-- A free part before more. -/
theorem free_bind {S : List (Task.Event Req Resp) → AppResult β → Prop} {f : AsyncResult α} {g : α → AsyncResult β}
    (hf : f.run.Issues (Free cfg.storage)) (herror : ∀ q e, Extends past q → S q (.error e))
    (hg : ∀ q a, Extends past q → (g a).run.Obeys (protocol cfg.storage op) S q) : (f >>= g).run.Obeys (protocol cfg.storage op) S past :=
  Task.Obeys.run_bind (obeys_of_free hf) (fun q e h => herror q e h) fun q a h => hg q a h

/-- A part that writes to a file that the request created leaves it with some bytes. -/
theorem writes_obeys {f : Async α} (hf : f.Uses (Writes cfg.storage ino)) (hp : ChunkFile cfg.storage p → ¬ Committed past p)
    (h : Opened past q p ino bytes) : f.Obeys (protocol cfg.storage op) (fun q _ => ∃ bytes, Opened past q p ino bytes) q := by
  have hissues : f.Issues (Writes cfg.storage ino) := hf.issues fun _ => id
  refine hissues.obeys_keeping (I := fun q => ∃ bytes, Opened past q p ino bytes) (fun _ _ _ => trivial) ?_ ?_ ⟨bytes, h⟩
  · rintro q r ⟨bytes, h⟩ hr
    rcases free_or_of_writes hr with ⟨piece, rfl⟩ | hfree
    · exact ⟨p, bytes, h.written, fun hc hcommitted => hp hc (h.committed p hcommitted)⟩
    · exact may_of_free hfree
  · rintro q r x ⟨bytes, h⟩ hr
    rcases free_or_of_writes hr with ⟨piece, rfl⟩ | hfree
    · cases x with
      | ok u => exact ⟨_, h.writeAll piece u⟩
      | error error => exact ⟨bytes, h.toExtends.cons nofun, h.written⟩
    · exact ⟨bytes, h.free hfree⟩

/-! ## Intakes -/

/-- The file that a request writes to may be created and written to: it is no chunk file, or the request named it and has not committed
it. -/
def Open (layout : StorageLayout) (past : List (Task.Event Req Resp)) (p : Path) : Prop :=
  ChunkFile layout p → Named layout past p ∧ ¬ Committed past p

/-- The pieces of a frame are written to a file that may be written to. -/
theorem writePieces_obeys (hp : ChunkFile cfg.storage p → ¬ Committed past p) (maxBytes : Nat) (pieces : List Bytes)
    (h : Opened past q p ino bytes) : (Upload.writePieces ino maxBytes pieces bytes).run.Obeys (protocol cfg.storage op)
      (fun q x => Extends past q ∧ ∀ w, x = .ok w → w = bytes ++ pieces.flatten ∧ Opened past q p ino w) q := by
  have hfailed : ∀ {α : Type} {Q : α → Prop} (e : AppError) w, (.error e : AppResult α) = .ok w → Q w := by
    rintro α Q e w ⟨⟩
  induction pieces generalizing bytes q with
  | nil =>
    refine ⟨h.toExtends, ?_⟩
    rintro w ⟨⟩
    exact ⟨(List.append_nil _).symm, h⟩
  | cons piece rest ih =>
    unfold Upload.writePieces
    cases checkedAdd bytes.length piece.length with
    | none => exact ⟨h.toExtends, hfailed _⟩
    | some nextTotal =>
      simp only
      split
      · exact ⟨h.toExtends, hfailed _⟩
      · refine Task.Obeys.run_bind (p := orIoErr _ (fs (.writeAll ino piece)))
          (R := fun q x => Extends past q ∧ ∀ u, x = .ok u → Opened past q p ino (bytes ++ piece)) ?_ (fun q e hq => ⟨hq.1, hfailed e⟩)
          fun q u hq => ?_
        · refine ⟨⟨p, bytes, h.written, fun hc hcommitted => hp hc (h.committed p hcommitted)⟩, fun x _ => ?_⟩
          cases x with
          | ok u => exact ⟨(h.writeAll piece u).toExtends, fun _ _ => h.writeAll piece u⟩
          | error error =>
            refine ⟨h.toExtends.cons ?_, hfailed _⟩
            rintro _ _ _ ⟨⟩
        · refine (ih (hq.2 u rfl)).mono fun q x hq => ⟨hq.1, fun w hw => ?_⟩
          obtain ⟨hr, ho⟩ := hq.2 w hw
          exact ⟨by rw [hr, List.flatten_cons, List.append_assoc], ho⟩

/-- The frames of a body are written to a file that may be written to. -/
theorem writeFrames_obeys (hp : ChunkFile cfg.storage p → ¬ Committed past p) (maxBytes : Nat) (body : Body)
    (h : Opened past q p ino bytes) : (Upload.writeFrames ino maxBytes body bytes).run.Obeys (protocol cfg.storage op)
      (fun q x => Extends past q ∧ ∀ w, x = .ok w → w = bytes ++ receivedBytes body ∧ Opened past q p ino w) q := by
  have hframe : Free cfg.storage .nextFrame := trivial
  induction body generalizing bytes q with
  | nil =>
    refine ⟨trivial, fun _ _ => ⟨(h.free hframe).toExtends, ?_⟩⟩
    rintro w ⟨⟩
    exact ⟨(List.append_nil _).symm, h.free hframe⟩
  | cons frame frames ih =>
    refine ⟨trivial, fun _ _ => ?_⟩
    cases frame with
    | error _ => exact ⟨(h.free hframe).toExtends, fun _ => nofun⟩
    | ok data =>
      refine Task.Obeys.run_bind (writePieces_obeys hp maxBytes _ (h.free hframe)) (fun q e hq => ⟨hq.1, fun _ => nofun⟩)
        fun q received hq => ?_
      obtain ⟨hr, ho⟩ := hq.2 received rfl
      rw [Upload.flatten_pieces (by decide) _ _ (le_refl _)] at hr
      refine (ih ho).mono fun q x hq => ⟨hq.1, fun w hw => ?_⟩
      obtain ⟨hr', ho'⟩ := hq.2 w hw
      exact ⟨by rw [hr', hr, receivedBytes_ok, List.append_assoc], ho'⟩

/-- What is streamed to a file that may be written to is the body, whose length is returned. -/
theorem streamToTempFile_obeys (hp : Open cfg.storage past p) (body : Body) (maxBytes : Nat) :
    (Upload.streamToTempFile cfg.libs body p maxBytes).run.Obeys (protocol cfg.storage op) (fun q x => Extends past q ∧
      ∀ received, x = .ok received → received.2 = (receivedBytes body).length ∧
        ∃ ino, written p q = some (ino, receivedBytes body)) past := by
  refine Task.Obeys.run_bind (p := orIoErr _ (fs (.createFile p)))
    (R := fun q x => Extends past q ∧ ∀ ino, x = .ok ino → Opened past q p ino []) ?_ (fun q e hq => ⟨hq.1, fun _ => nofun⟩)
      fun q ino hq => ?_
  · refine ⟨hp, fun x _ => ?_⟩
    cases x with
    | ok ino => exact ⟨(opened_createFile (.refl past) p ino).toExtends,
      fun _ he => (Except.ok.inj he) ▸ opened_createFile (.refl past) p ino⟩
    | error error => exact ⟨(Extends.refl past).cons nofun, fun _ => nofun⟩
  · refine Task.Obeys.lift_bind (p := ExceptT.run _) (R := fun q x => Extends past q ∧ ∀ received, x = .ok received →
      received.2 = (receivedBytes body).length ∧ Opened past q p ino (receivedBytes body)) ?_ fun q x hq => ⟨trivial, fun _ _ => ?_⟩
    · refine Task.Obeys.run_bind (writeFrames_obeys (fun hc => (hp hc).2) maxBytes body (hq.2 ino rfl))
        (fun q e hq => ⟨hq.1, fun _ => nofun⟩) fun q received hq => ?_
      obtain ⟨rfl, ho⟩ := hq.2 received rfl
      refine ⟨trivial, fun x _ => ?_⟩
      have hsync : Free cfg.storage (.fs (.syncAll ino)) := trivial
      have ho' : Opened past (⟨.fs (.syncAll ino), x⟩ :: q) p ino (receivedBytes body) := ho.free hsync
      cases x with
      | ok u =>
        refine ⟨ho'.toExtends, ?_⟩
        rintro _ ⟨⟩
        exact ⟨rfl, ho'⟩
      | error error => exact ⟨ho'.toExtends, fun _ => nofun⟩
    · refine ⟨hq.1.cons nofun, fun received hr => ?_⟩
      obtain ⟨hlength, ho⟩ := hq.2 received hr
      exact ⟨hlength, ino, ho.written⟩

/-! ## Parts that always keep to the protocol -/

/-- A part that keeps to the protocol, whatever was requested before. -/
def Runs (cfg : Config) (op : Op) (f : Async α) : Prop :=
  ∀ past, f.Obeys (protocol cfg.storage op) (fun _ _ => True) past

/-- A free part always keeps to the protocol. -/
theorem runs_of_free {f : Async α} (hf : f.Issues (Free cfg.storage)) : Runs cfg op f :=
  fun _ => (obeys_of_free hf).mono fun _ _ _ => trivial

/-- A part that checks always keeps to the protocol. -/
theorem runs_of_checks {f : Async α} (hf : f.Uses Req.Checks) : Runs cfg op f :=
  runs_of_free (hf.issues fun _ => free_of_checks)

/-- A part that reads always keeps to the protocol. -/
theorem runs_of_inspects {f : Async α} (hf : f.Uses Req.inspects) : Runs cfg op f :=
  runs_of_free (hf.issues fun _ => free_of_inspects)

/-- A publication always keeps to the protocol. -/
theorem runs_publishBlob {root : Path} (hlayout : cfg.storage = .new root) (temp : Path) (publication : BlobPublication) :
    Runs cfg op (publishBlob cfg temp publication).run :=
  runs_of_free ((publishBlob_places cfg temp publication).mono fun _ => free_of_places hlayout)

/-- A part before more. -/
theorem Runs.run_bind {f : AsyncResult α} {g : α → AsyncResult β} (hf : Runs cfg op f.run) (hg : ∀ a, Runs cfg op (g a).run) :
    Runs cfg op (f >>= g).run :=
  fun past => Task.Obeys.run_bind (hf past) (fun _ _ _ => trivial) fun q a _ => hg a q

/-- A part that cannot fail before more. -/
theorem Runs.lift_bind {f : Async α} {g : α → AsyncResult β} (hf : Runs cfg op f) (hg : ∀ a, Runs cfg op (g a).run) :
    Runs cfg op ((liftM f : AsyncResult α) >>= g).run :=
  fun past => Task.Obeys.lift_bind (hf past) fun q a _ => hg a q

/-- A free request always keeps to the protocol. -/
theorem runs_request {r : Req} (hr : Free cfg.storage r) : Runs cfg op (request r) :=
  runs_of_free ⟨hr, fun _ _ => rfl⟩

/-- A part whose result does not matter. -/
theorem runs_attempt {f : AsyncResult α} (hf : Runs cfg op f.run) : Runs cfg op (attempt f).run :=
  fun past => (hf past).bind fun _ _ _ => trivial

/-- Work with a temporary file. -/
theorem runs_withTemp {temp : Path} {work : AsyncResult α} (hwork : Runs cfg op work.run) : Runs cfg op (withTemp temp work).run := by
  refine Runs.run_bind (runs_attempt hwork) fun x => ?_
  cases x with
  | ok a => exact fun _ => trivial
  | error e => exact Runs.lift_bind (runs_request (r := .dropTemp temp) trivial) fun _ _ => trivial

/-- A temporary file is no chunk file. -/
theorem reserveTemp_bind {namePrefix : Str} {extension : Option Str} {g : Path → AsyncResult β}
    (hg : ∀ temp, ¬ ChunkFile cfg.storage temp → Runs cfg op (g temp).run) :
    Runs cfg op (liftM (request (.reserveTemp cfg.storage.temp namePrefix extension)) >>= g).run := by
  refine fun past => ⟨trivial, fun temp htemp => ?_⟩
  obtain ⟨name, rfl⟩ := htemp.2
  exact hg _ (Custody.not_chunkFile_temp _ name) _

/-- Streaming a body to a temporary file always keeps to the protocol. -/
theorem runs_streamToTempFile (body : Body) {temp : Path} (maxBytes : Nat) (htemp : ¬ ChunkFile cfg.storage temp) :
    Runs cfg op (Upload.streamToTempFile cfg.libs body temp maxBytes).run :=
  fun _ => (streamToTempFile_obeys (fun hc => absurd hc htemp) body maxBytes).mono fun _ _ _ => trivial

/-- Writing to a temporary file that the request creates always keeps to the protocol. -/
theorem createFile_bind {temp : Path} {message : IoError → String} {g : Ino → AsyncResult β} (htemp : ¬ ChunkFile cfg.storage temp)
    (hg : ∀ ino, (g ino).run.Uses (Writes cfg.storage ino)) :
    Runs cfg op (orIoErr message (fs (.createFile temp)) >>= g).run := by
  refine fun past => ⟨fun hc => absurd hc htemp, fun x _ => ?_⟩
  cases x with
  | ok ino =>
    exact (writes_obeys (hg ino) (fun hc => absurd hc htemp) (opened_createFile (.refl past) temp ino)).mono fun _ _ _ => trivial
  | error error => exact trivial

/-! ## Requests in one piece -/

variable {root : Path}

/-- The requests of an authorization are free. -/
theorem runs_authorize (headers : Headers) (operation : Authorization.Operation) :
    Runs cfg op (Authorization.authorize cfg headers operation).run :=
  runs_of_free ((authorize_uses (fun _ => free_of_inspects) (fun _ => trivial) headers operation).issues fun _ => id)

/-- The preparation of the temporary directory is free. -/
theorem runs_ensureTempDir : Runs cfg op (ensureTempDir cfg).run :=
  fun _ => ⟨trivial, fun _ _ => trivial⟩

/-- An upload keeps to the protocol. -/
theorem runs_uploadFile (hlayout : cfg.storage = .new root) (headers : Headers) (body : Body) :
    Runs cfg op (uploadFile cfg headers body).run := by
  refine Runs.run_bind (runs_authorize headers .upload) fun authorized => ?_
  refine Runs.run_bind (f := ofResult _) (fun _ => trivial) fun declaredSha256 => ?_
  refine Runs.run_bind (f := ofResult _) (fun _ => trivial) fun _ => ?_
  refine Runs.run_bind (runs_of_inspects (extractExpiration_uses headers)) fun expiration => ?_
  refine Runs.run_bind (runs_of_inspects (ensureStorageCapacity_uses _)) fun _ => ?_
  refine Runs.run_bind runs_ensureTempDir fun _ => ?_
  refine reserveTemp_bind fun temp htemp => ?_
  refine Runs.run_bind (runs_withTemp ?_) fun received => Runs.run_bind (runs_publishBlob hlayout temp _) fun _ _ => trivial
  refine Runs.run_bind (runs_streamToTempFile body _ htemp) fun received => ?_
  refine Runs.run_bind (f := ofResult _) (fun _ => trivial) fun _ => ?_
  refine Runs.run_bind (runs_of_checks (Authorization.bind_uses authorized declaredSha256)) fun _ => ?_
  refine Runs.run_bind (runs_of_inspects (ensureNotQuarantined_uses cfg.storage received.1)) fun _ => ?_
  exact Runs.run_bind (runs_of_checks (Cashu.charge_uses cfg headers .upload received.2)) fun _ _ => trivial

/-- A mirror keeps to the protocol. -/
theorem runs_mirrorBlob (hlayout : cfg.storage = .new root) (headers : Headers) (body : Body) :
    Runs cfg op (mirrorBlob cfg headers body).run := by
  refine Runs.run_bind (runs_authorize headers .mirror) fun authorized => ?_
  refine Runs.run_bind (f := ofResult _) (fun _ => trivial) fun _ => ?_
  cases Auth.extractSha256FromEvent authorized.event with
  | none => exact fun _ => trivial
  | some expectedSha256 =>
    refine Runs.run_bind (runs_of_inspects (extractExpiration_uses headers)) fun expiration => ?_
    refine Runs.run_bind (runs_of_inspects (collectBody_uses trivial _ body [])) fun bytes => ?_
    refine Runs.run_bind (f := ofResult _) (fun _ => trivial) fun field => ?_
    cases field with
    | none => exact fun _ => trivial
    | some url =>
      refine Runs.run_bind (f := ExceptT.mk (request (.fetchFromUrl url))) (runs_request (r := .fetchFromUrl url) trivial)
        fun response => ?_
      refine Runs.run_bind (f := ofResult _) (fun _ => trivial) fun _ => ?_
      refine Runs.run_bind runs_ensureTempDir fun _ => ?_
      refine reserveTemp_bind fun temp htemp => ?_
      refine Runs.run_bind (runs_withTemp ?_) fun bodySize => Runs.run_bind (runs_publishBlob hlayout temp _) fun _ _ => trivial
      refine Runs.run_bind (f := streamResponseToTempFile _ _ _ _) (createFile_bind htemp fun ino => ?_) fun received => ?_
      · refine Task.Uses.run_bind (uses_attempt ?_) fun written =>
          Task.Uses.lift_bind (uses_request (r := .closeFile temp) trivial) fun _ => trivial
        refine Task.Uses.run_bind (writeResponse_uses trivial (fun _ => rfl) _ _ _) fun received => ?_
        exact Task.Uses.run_bind (uses_orErr (uses_request (r := .fs (.syncAll ino)) trivial)) fun _ => trivial
      · simp only
        split
        · exact fun _ => trivial
        · refine Runs.run_bind (runs_of_inspects (ensureNotQuarantined_uses cfg.storage expectedSha256)) fun _ => ?_
          exact Runs.run_bind (runs_of_checks (Cashu.charge_uses cfg headers .mirror received.2)) fun _ _ => trivial

/-- A body that is received and published keeps to the protocol. -/
theorem runs_receiveAndPublish (hlayout : cfg.storage = .new root) (body : Body) (publication : BlobPublication) :
    Runs cfg op (Upload.receiveAndPublish cfg body publication).run := by
  refine reserveTemp_bind fun temp htemp => ?_
  refine Runs.run_bind (runs_attempt (runs_streamToTempFile body _ htemp)) fun x => ?_
  cases x with
  | error error => exact Runs.lift_bind (runs_request (r := .dropTemp temp) trivial) fun _ _ => trivial
  | ok received => exact runs_publishBlob hlayout temp publication

/-! ## Chunks -/

variable {headers : Headers} {body : Body}

/-- A chunk file that was stored holds the body, which is as long as declared. -/
def Receives (layout : StorageLayout) (body : Body) (contentLength : Nat) (q : List (Task.Event Req Resp)) (p : Path) : Prop :=
  ChunkFile layout p ∧ (∃ ino, written p q = some (ino, receivedBytes body)) ∧ contentLength = (receivedBytes body).length

/-- A chunk that was written holds the body, which is as long as declared. -/
theorem writeChunk_obeys (hp : Open cfg.storage past p) (body : Body) (contentLength : Nat) :
    (writeChunk cfg body p contentLength).run.Obeys (protocol cfg.storage op) (fun q x => ∀ u, x = .ok u →
      (∃ ino, written p q = some (ino, receivedBytes body)) ∧ contentLength = (receivedBytes body).length) past := by
  refine Task.Obeys.lift_bind (p := (Upload.streamToTempFile cfg.libs body p contentLength).run)
    (streamToTempFile_obeys hp body contentLength)
    fun q x hx => ?_
  have hremove : ∀ error : AppError, (do
      let _ ← fs (.removeFile p)
      throw error : AsyncResult Unit).run.Obeys (protocol cfg.storage op) (fun q x => ∀ u, x = .ok u →
        (∃ ino, written p q = some (ino, receivedBytes body)) ∧ contentLength = (receivedBytes body).length) q :=
    fun error => ⟨trivial, fun _ _ _ => nofun⟩
  rcases x with error | ⟨hash, size⟩
  · exact hremove error
  · show Task.Obeys _ _ (if size ≠ contentLength then _ else _ : AsyncResult Unit).run _
    split
    · exact hremove _
    · rename_i hsize
      obtain ⟨hlength, hwritten⟩ := hx.2 _ rfl
      exact fun _ _ => ⟨hwritten, (of_not_not hsize).symm.trans hlength⟩

/-- A chunk that was stored is in a chunk file that the request named, which holds the body. -/
theorem storeChunk_obeys (hpast : ∀ p, ¬ Committed past p) (body : Body) (chunk : ChunkHeaders) :
    (storeChunk cfg body chunk).run.Obeys (protocol cfg.storage op)
      (fun q x => ∀ p, x = .ok p → Receives cfg.storage body chunk.contentLength q p) past := by
  have hprepare : (prepareChunkDir cfg chunk.contentLength).run.Uses (Free cfg.storage) := by
    refine Task.Uses.run_bind ((ensureStorageCapacity_uses _).mono (fun _ => free_of_inspects) fun _ => id) fun _ => ?_
    refine Task.Uses.run_bind (uses_orErr (uses_request (r := .fs (.createDirAll _)) trivial)) fun _ => ?_
    exact uses_orErr (uses_request (r := .fs (.createDirAll _)) trivial)
  refine free_bind (hprepare.issues fun _ => id) (fun _ _ _ _ => nofun) fun q₁ _ h₁ => ?_
  refine ⟨trivial, fun uuid _ => ?_⟩
  have hopen : Open cfg.storage (⟨.uuid, uuid⟩ :: q₁) (chunksDir cfg.storage ++ [chunkName chunk.sha256 chunk.uploadOffset uuid]) := by
    refine fun _ => ⟨⟨uuid, List.mem_cons_self, Custody.names_chunkName ..⟩, fun hcommitted => ?_⟩
    exact hpast _ (h₁.committed _ (committed_of_cons (r := .uuid) nofun hcommitted))
  refine Task.Obeys.run_bind (writeChunk_obeys hopen body chunk.contentLength) (fun _ _ _ _ => nofun) fun q₂ u h₂ => ?_
  rintro p ⟨⟩
  exact ⟨⟨_, rfl⟩, h₂ u rfl⟩

/-- A chunk that was received is in a chunk file that holds the body. -/
theorem receiveChunk_obeys (hpast : ∀ p, ¬ Committed past p) (body : Body) (key : ChunkUploadKey) (chunk : ChunkHeaders) :
    (receiveChunk cfg body key chunk).run.Obeys (protocol cfg.storage op)
      (fun q x => ∀ p, x = .ok p → Receives cfg.storage body chunk.contentLength q p) past := by
  refine Task.Obeys.lift_bind (p := (storeChunk cfg body chunk).run) (storeChunk_obeys hpast body chunk) fun q x hx => ?_
  cases x with
  | ok p => exact hx
  | error e => exact ⟨trivial, fun _ _ _ => nofun⟩

/-- Removing chunk files is free. -/
theorem runs_discardChunkFiles (chunks : List ChunkInfo) : Runs cfg op (discardChunkFiles chunks) := by
  have huses : (discardChunkFiles chunks).Uses (Free cfg.storage) := discardChunkFiles_uses fun _ _ => trivial
  exact runs_of_free (huses.issues fun _ => id)

/-- A reconstruction keeps to the protocol. -/
theorem runs_reconstructBlob (hlayout : cfg.storage = .new root) (upload : ChunkUpload) (sha256 : Str) :
    Runs cfg op (reconstructBlob cfg upload sha256).run := by
  have hdiscard : ∀ x : AppResult FileMetadata, Runs cfg op
      (do discardChunkFiles (sortChunks upload.chunks); ofResult x : AsyncResult FileMetadata).run := fun x =>
    Runs.lift_bind (runs_discardChunkFiles _) fun _ _ => trivial
  unfold reconstructBlob
  simp only
  split
  · exact hdiscard (.error _)
  · exact fun _ => trivial
  · split
    · exact hdiscard (.error _)
    · refine Runs.run_bind runs_ensureTempDir fun _ => ?_
      refine reserveTemp_bind fun temp htemp => ?_
      refine Runs.run_bind (runs_attempt (Runs.run_bind (runs_withTemp ?_) fun total => ?_)) fun x => hdiscard x
      swap
      · exact Runs.run_bind (runs_publishBlob hlayout temp _) fun _ _ => trivial
      refine createFile_bind htemp fun ino => ?_
      refine Task.Uses.run_bind (uses_attempt ?_) fun written =>
        Task.Uses.lift_bind (uses_request (r := .closeFile temp) trivial) fun _ => trivial
      exact writeReconstruction_uses (fun _ => writes_of_inspects) (fun _ => rfl) _ _ _

/-- What follows a completion gives back only chunks of the upload. -/
theorem finishUpload_obeys (hlayout : cfg.storage = .new root) (key : ChunkUploadKey) (chunk : ChunkHeaders) {params : SessionParams}
    {last : ChunkInfo} {upload : ChunkUpload} {chunkPath : Path} (h : ⟨.sessions (.commit key params last), .complete upload⟩ ∈ past) :
    (finishUpload cfg headers key chunk chunkPath upload).run.Obeys (protocol cfg.storage op) (fun _ _ => True) past := by
  have hcharge : (Cashu.charge cfg headers .upload chunk.uploadLength).run.Issues (Free cfg.storage) :=
    (Cashu.charge_uses ..).issues fun _ => free_of_checks
  refine Task.Obeys.lift_bind (p := (Cashu.charge cfg headers .upload chunk.uploadLength).run) (obeys_of_free hcharge) fun q x hq => ?_
  cases x with
  | error paymentError =>
    refine Task.Obeys.lift_bind (R := fun _ _ => True) ⟨fun c hc => ?_, fun restored _ => ?_⟩ fun _ _ _ => trivial
    · exact ⟨key, params, last, upload, hq.suffix.mem h, (List.dropLast_sublist _).subset hc⟩
    · cases restored with
      | true => exact ⟨trivial, fun _ _ => trivial⟩
      | false => exact runs_discardChunkFiles _ _
  | ok _ =>
    simp only
    split
    · exact trivial
    · split
      · exact trivial
      · refine Task.Obeys.run_bind (runs_reconstructBlob hlayout upload chunk.sha256 q) (fun _ _ _ => trivial) fun _ _ _ => trivial

/-- A chunk commits only a file that holds its body. -/
theorem patchUpload_obeys (hlayout : cfg.storage = .new root) (headers : Headers) (body : Body) :
    (patchUpload cfg headers body).run.Obeys (protocol cfg.storage (.patch headers body)) (fun _ _ => True) [] := by
  have hfree : ∀ {γ : Type} {f : AsyncResult γ} {g : γ → AsyncResult Response} {q : List (Task.Event Req Resp)},
      f.run.Uses (Free cfg.storage) → (∀ p, ¬ Committed q p) →
      (∀ q a, (∀ p, ¬ Committed q p) → (g a).run.Obeys (protocol cfg.storage (.patch headers body)) (fun _ _ => True) q) →
      (f >>= g).run.Obeys (protocol cfg.storage (.patch headers body)) (fun _ _ => True) q := fun hf hq hg =>
    free_bind (hf.issues fun _ => id) (fun _ _ _ => trivial) fun q' a h => hg q' a fun p hp => hq p (h.committed p hp)
  unfold patchUpload
  refine hfree (f := ofResult (readChunkHeaders cfg headers)) trivial nofun fun q chunk h => ?_
  refine hfree (authorize_uses (fun _ => free_of_inspects) (fun _ => trivial) headers .chunkUpload) h fun q authorized h => ?_
  refine hfree ((Authorization.bind_uses authorized chunk.sha256).mono (fun _ => free_of_checks) fun _ => id) h fun q _ h => ?_
  refine hfree ((ensureNotQuarantined_uses cfg.storage chunk.sha256).mono (fun _ => free_of_inspects) fun _ => id) h fun q _ h => ?_
  refine hfree ((extractExpiration_uses headers).mono (fun _ => free_of_inspects) fun _ => id) h fun q expiration h => ?_
  refine ⟨trivial, fun reservation _ => ?_⟩
  cases reservation with
  | globalLimit => exact trivial
  | perPubkeyLimit => exact trivial
  | granted =>
    refine Task.Obeys.run_bind (receiveChunk_obeys (fun p hp => h p (committed_of_cons (by rintro _ _ _ ⟨⟩) hp)) body _ chunk)
      (fun _ _ _ => trivial) fun q chunkPath hreceived => ?_
    obtain ⟨hfile, ⟨ino, hwritten⟩, hlength⟩ := hreceived chunkPath rfl
    refine ⟨⟨hfile, headers, body, ino, rfl, hwritten, hlength⟩, fun committed _ => ?_⟩
    cases committed with
    | incomplete => exact trivial
    | overlap => exact ⟨trivial, fun _ _ => trivial⟩
    | paramMismatch => exact ⟨trivial, fun _ _ => trivial⟩
    | complete upload => exact finishUpload_obeys hlayout _ chunk List.mem_cons_self

/-! ## The operations -/

/-- Every operation creates and writes only its own files, and commits only a file that holds its body. -/
theorem program_obeys (hlayout : cfg.storage = .new root) (op : Op) :
    (program cfg op).traced.Obeys (protocol cfg.storage op) (fun _ _ => True) [] := by
  suffices h : (program cfg op).Obeys (protocol cfg.storage op) (fun _ _ => True) [] from h.traced
  cases hm : op.maintains with
  | true => exact runs_of_free ((program_maintains hm).mono fun _ => free_of_maintains hlayout) []
  | false =>
    have hbuilt : ∀ {P : Req → Prop} {S : Async (AppResult FileMetadata) → Prop} {f : Async Outcome},
        f.Built (Req.Foresees cfg.storage) P S (fun _ => True) → (∀ r, P r → Free cfg.storage r) → (∀ s, S s → Runs cfg op s) →
        f.Obeys (protocol cfg.storage op) (fun _ _ => True) [] := fun hf hP hS =>
      (hf.obeys_keeping (I := fun _ => True) (fun _ _ h => h.1) (fun _ r _ hr => may_of_free (hP r hr)) (fun _ _ _ _ _ => trivial)
        (fun q s _ hs => hS s hs q) trivial).mono fun _ _ _ => trivial
    rcases Op.cases_of_not_maintains hm with hg | hu | rfl
    · obtain ⟨headers, head, filename, rfl⟩ := exists_get_of_isGet hg
      refine hbuilt (program_searches headers head filename) (fun _ => free_of_checks) ?_
      rintro _ ⟨_, sha256, _, m, _, rfl⟩
      exact runs_of_free ((publishExistingMetadata_places cfg sha256 m).mono fun _ => free_of_places hlayout)
    · cases op with
      | upload headers body => exact (runs_uploadFile hlayout headers body []).bind fun _ _ _ => trivial
      | mirror headers body => exact (runs_mirrorBlob hlayout headers body []).bind fun _ _ _ => trivial
      | patch headers body => exact (patchUpload_obeys hlayout headers body).bind fun _ _ _ => trivial
      | publish publication body => exact (runs_receiveAndPublish hlayout body publication []).bind fun _ _ _ => trivial
      | _ => nomatch hu
    · refine ((program_sweeps cfg).obeys_keeping (I := fun _ => True) (fun _ _ h => h.1) (fun _ _ _ hr => may_of_free (free_of_sweeps hr))
        (fun _ _ _ _ _ => trivial) ?_ trivial).mono fun _ _ _ => trivial
      rintro q _ - ⟨_, _, _, hno, _⟩
      exact hno.elim

end

end Contents

end Almond
