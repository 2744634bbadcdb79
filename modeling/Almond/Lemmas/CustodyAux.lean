import Almond.Lemmas.DoorsAux
import Almond.Lemmas.SupersededAux
import Almond.Lemmas.TicketsAux

/-! # The files of chunks and who has them

The file of a chunk belongs to the request that named it, from then on to the session that it was committed to, and to the request that
completes the session. Only who has a file removes it, whatever the other requests do; a request that gave its file to a session never
removes it again. -/

namespace Almond

open Conc FileStorage Handlers

/-- The paths of the files of an upload. -/
def ChunkUpload.paths (upload : ChunkUpload) : List Path :=
  upload.chunks.map ChunkInfo.chunkPath

/-- What a request has of a chunk file: nothing, its name, or the file itself. -/
inductive Custody where
  | absent
  | named
  | kept
  deriving DecidableEq, Repr

/-- Whether a path is that of a chunk file which a request named with an identifier. -/
def names (layout : StorageLayout) (uuid : Nat) (p : Path) : Bool :=
  p.dropLast = chunksDir layout && p.getLast?.any fun name => ('_' :: decimal uuid).isSuffixOf name

/-- What a request has of a chunk file after another response. -/
def Custody.next (layout : StorageLayout) (p : Path) (q : Custody) : (r : Req) → Resp r → Custody
  | .uuid, uuid => if names layout uuid p then .named else q
  | .fs (.createFile p'), .ok _ => if p' = p ∧ q = .named then .kept else q
  | .fs (.removeFile p'), _ => if p' = p ∧ q = .kept then .named else q
  | .sessions (.commit _ _ chunk), .incomplete => if chunk.chunkPath = p then .absent else q
  | .sessions (.commit _ _ _), .complete upload => if p ∈ upload.paths then .kept else q
  | .sessions (.restore _ upload), true => if p ∈ upload.paths then .absent else q
  | _, _ => q

/-- What a request has of a chunk file after its requests so far, the latest first. -/
def custody (layout : StorageLayout) (p : Path) : List (Task.Event Req Resp) → Custody
  | [] => .absent
  | ⟨r, x⟩ :: past => (custody layout p past).next layout p r x

/-- A request that gives files to a session. -/
def Req.gives : Req → Prop
  | .sessions (.commit _ _ _) | .sessions (.restore _ _) => True
  | _ => False

/-- A request that neither moves nor removes a file, names none, and gives none to a session. -/
def Req.Mild (layout : StorageLayout) : Req → Prop
  | .fs (.removeFile _) | .fs (.removeDirAll _) | .fs (.rename _ _) | .uuid | .adoptTemp _ => False
  | .sessions (.commit _ _ _) | .sessions (.restore _ _) => False
  | .reserveTemp dir _ _ => dir = layout.temp
  | _ => True

/-- A request that neither takes a session over nor gives it back, and works on temporary files where they belong. -/
def Req.Aside (layout : StorageLayout) : Req → Prop
  | .sessions (.commit _ _ _) | .sessions (.restore _ _) | .adoptTemp _ => False
  | .reserveTemp dir _ _ => dir = layout.temp
  | _ => True

/-- A session that is registered and not complete: it has chunks, each in a file of its own, and lacks some bytes. -/
structure ChunkUpload.Partial (layout : StorageLayout) (upload : ChunkUpload) : Prop extends upload.WellFormed layout where
  lacks : (upload.chunks.map ChunkInfo.length).sum < upload.uploadLength
  nonempty : upload.chunks ≠ []
  nodup : upload.paths.Nodup

namespace Custody

/-- What a chunk may request: it removes only files that it has, and gives only files to a session that it keeps. -/
def May (layout : StorageLayout) (past : List (Task.Event Req Resp)) : Req → Prop
  | .fs (.removeFile p) => ChunkFile layout p → custody layout p past ≠ .absent
  | .fs (.rename p _) => ¬ ChunkFile layout p
  | .fs (.removeDirAll _) | .adoptTemp _ => False
  | .reserveTemp dir _ _ => dir = layout.temp
  | .sessions (.commit _ params chunk) => (chunk.Fits layout params.uploadLength ∧ params.uploadLength ≤ u64Max) ∧
      custody layout chunk.chunkPath past = .kept
  | .sessions (.restore _ upload) => upload.WellFormed layout ∧ (upload.chunks.map ChunkInfo.length).sum < upload.uploadLength ∧
      upload.paths.Nodup ∧ ∀ p ∈ upload.paths, custody layout p past = .kept
  | _ => True

/-- What an operation may request. -/
def Allowed (layout : StorageLayout) (op : Op) (past : List (Task.Event Req Resp)) (r : Req) : Prop :=
  match op with
  | .patch _ _ => May layout past r
  | .cleanupAbandonedChunks => r.Aside layout ∧ r.Passes
  | _ => r.Aside layout

/-- A response as the requests rely on it: a temporary file is directly below its directory, what a publication displaces is no chunk
file, and an upload that a chunk completes ends with the chunk and has no file twice. -/
def Answers (layout : StorageLayout) (r : Req) (x : Resp r) : Prop :=
  r.Foresees layout x ∧
    match r, x with
    | .reserveTemp dir _ _, p => ∃ name, p = dir ++ [name]
    | .index (.publish _ _), .published (some displaced) => ∀ p, ChunkFile layout p → displaced.location ≠ .localFile p
    | .sessions (.commit _ _ chunk), .complete upload => upload.paths.Nodup ∧ upload.chunks.getLast? = some chunk
    | _, _ => True

/-- The protocol of an operation. -/
abbrev protocol (layout : StorageLayout) (op : Op) : Protocol Req Resp Str (List (Task.Event Req Resp)) :=
  .recording (Answers layout) (fun _ _ => True) (Allowed layout op)

/-! ## Names -/

section

variable {layout : StorageLayout} {p : Path} {uuid uuid' : Nat}

/-- The path of a chunk file ends with its identifier. -/
theorem names_chunkName (layout : StorageLayout) (sha256 : Str) (uploadOffset uuid : Nat) :
    names layout uuid (chunksDir layout ++ [chunkName sha256 uploadOffset uuid]) = true := by
  have hsuffix : '_' :: decimal uuid <:+ chunkName sha256 uploadOffset uuid := List.suffix_append ..
  simp only [names, List.dropLast_concat, List.getLast?_concat, Option.any_some, decide_true, Bool.true_and]
  exact List.isSuffixOf_iff_suffix.2 hsuffix

/-- What was named is a chunk file. -/
theorem chunkFile_of_names (h : names layout uuid p = true) : ChunkFile layout p := by
  obtain ⟨hdir, hname⟩ := Bool.and_eq_true_iff.1 h
  obtain ⟨name, hlast, -⟩ := (Option.any_eq_true ..).1 hname
  refine ⟨name, ?_⟩
  rw [← of_decide_eq_true hdir]
  exact (List.dropLast_append_getLast? name hlast).symm

/-- A path has at most one identifier. -/
theorem names_unique (h : names layout uuid p = true) (h' : names layout uuid' p = true) : uuid = uuid' := by
  obtain ⟨name, hlast, hname⟩ := (Option.any_eq_true ..).1 (Bool.and_eq_true_iff.1 h).2
  obtain ⟨name', hlast', hname'⟩ := (Option.any_eq_true ..).1 (Bool.and_eq_true_iff.1 h').2
  cases hlast.symm.trans hlast'
  have hdigits : ∀ {n m : Nat}, '_' :: decimal n <:+ '_' :: decimal m → decimal n = decimal m := by
    intro n m hs
    rcases List.suffix_cons_iff.1 hs with he | hs
    · exact (List.cons.inj he).2
    · exact absurd (hs.subset List.mem_cons_self) (not_mem_decimal (by decide))
  have hdecimal : decimal uuid = decimal uuid' :=
    (List.suffix_or_suffix_of_suffix (List.isSuffixOf_iff_suffix.1 hname) (List.isSuffixOf_iff_suffix.1 hname')).elim hdigits
      fun hs => (hdigits hs).symm
  rw [← digitsValue_decimal uuid, hdecimal, digitsValue_decimal]

end

/-! ## What a request keeps -/

section

variable {layout : StorageLayout} {p : Path} {past : List (Task.Event Req Resp)} {r : Req} {x : Resp r}

/-- A mild request leaves a kept file kept. -/
theorem kept_of_mild (hr : r.Mild layout) (h : custody layout p past = .kept) : custody layout p (⟨r, x⟩ :: past) = .kept := by
  cases r with
  | fs r =>
    cases r with
    | createFile p' =>
      cases x with
      | ok ino =>
        simp only [custody, next, h, reduceCtorEq, and_false, if_false]
      | error error => exact h
    | removeFile p' => exact hr.elim
    | _ => exact h
  | sessions r => cases r <;> first | exact h | exact hr.elim
  | uuid => exact hr.elim
  | _ => exact h

/-- Only giving a file to a session gives it away. -/
theorem ne_absent_cons (hr : ¬ r.gives) (h : custody layout p past ≠ .absent) : custody layout p (⟨r, x⟩ :: past) ≠ .absent := by
  cases r with
  | fs r =>
    cases r with
    | createFile p' =>
      cases x with
      | ok ino =>
        simp only [custody, next]
        split
        · exact nofun
        · exact h
      | error error => exact h
    | removeFile p' =>
      simp only [custody, next]
      split
      · exact nofun
      · exact h
    | _ => exact h
  | sessions r => cases r <;> first | exact h | exact absurd trivial hr
  | uuid =>
    simp only [custody, next]
    split
    · exact nofun
    · exact h
  | _ => exact h

/-- A mild request gives no file to a session. -/
theorem not_gives_of_mild (hr : r.Mild layout) : ¬ r.gives := by
  cases r with
  | sessions r => cases r <;> first | exact id | exact hr.elim
  | _ => exact id

/-- A request that reads is mild. -/
theorem mild_of_inspects {r : Req} (hr : r.inspects) : r.Mild layout := by
  cases r with
  | fs r => cases r <;> first | exact trivial | exact hr.elim
  | sessions r => exact hr.elim
  | _ => first | exact trivial | exact hr.elim

/-- A request that checks is mild. -/
theorem mild_of_checks {r : Req} (hr : r.Checks) : r.Mild layout := by
  cases r with
  | receiveToken token => exact trivial
  | consumeReplay eventId expiresAt now => exact trivial
  | _ => exact mild_of_inspects hr

/-- Streaming a body is mild. -/
theorem mild_of_streams {temp : Path} {r : Req} (hr : Upload.Streams temp r) : r.Mild layout := by
  cases r with
  | fs r => cases r <;> first | exact trivial | exact hr.elim
  | _ => first | exact trivial | exact hr.elim

/-- Only a chunk must mind what it requests, and the chunk cleanup leaves the queue alone. -/
theorem allowed_of {op : Op} {r : Req} (hmay : op.isPatch = true → May layout past r) (haside : op.isPatch = false → r.Aside layout)
    (hop : op ≠ .cleanupAbandonedChunks) : Allowed layout op past r := by
  cases op with
  | patch headers body => exact hmay rfl
  | cleanupAbandonedChunks => exact absurd rfl hop
  | _ => exact haside rfl

/-- A mild request is allowed. -/
theorem allowed_of_mild {op : Op} {r : Req} (hop : op ≠ .cleanupAbandonedChunks) (hr : r.Mild layout) : Allowed layout op past r := by
  refine allowed_of (fun _ => ?_) (fun _ => ?_) hop
  all_goals
    cases r with
    | fs r => cases r <;> first | exact trivial | exact hr.elim
    | sessions r => cases r <;> first | exact trivial | exact hr.elim
    | _ => first | exact trivial | exact hr

/-- The removal of a file that is no chunk file is allowed. -/
theorem allowed_removeFile {op : Op} (hop : op ≠ .cleanupAbandonedChunks) (hp : op.isPatch = true → ¬ ChunkFile layout p) :
    Allowed layout op past (.fs (.removeFile p)) :=
  allowed_of (fun h hc => absurd hc (hp h)) (fun _ => trivial) hop

end

/-- A request has all of some files, or their names. -/
def Owns (layout : StorageLayout) (paths : List Path) (past : List (Task.Event Req Resp)) : Prop :=
  ∀ p ∈ paths, custody layout p past ≠ .absent

/-- A request has all of some files. -/
def Keeps (layout : StorageLayout) (paths : List Path) (past : List (Task.Event Req Resp)) : Prop :=
  ∀ p ∈ paths, custody layout p past = .kept

/-- Whose files a request has, it has their names. -/
theorem Keeps.owns {layout : StorageLayout} {paths : List Path} {past : List (Task.Event Req Resp)} (h : Keeps layout paths past) :
    Owns layout paths past := by
  intro p hp
  rw [h p hp]
  exact nofun

section

variable {cfg : Config} {op : Op} {paths : List Path} {past : List (Task.Event Req Resp)} {α β : Type}

/-- Parts that issue only what is allowed, and give no file to a session, leave the request what it has. -/
theorem obeys_of_issues {P : Req → Prop} {p : Async α} (hp : p.Issues P) (hallowed : ∀ q r, P r → Allowed cfg.storage op q r)
    (hgives : ∀ r, P r → ¬ r.gives) (h : Owns cfg.storage paths past) :
    p.Obeys (protocol cfg.storage op) (fun q _ => Owns cfg.storage paths q) past :=
  hp.obeys_keeping (I := Owns cfg.storage paths) (fun _ _ _ => trivial) (fun q r _ hr => hallowed q r hr)
    (fun _ r _ hq hr p hp => ne_absent_cons (hgives r hr) (hq p hp)) h

/-- Mild parts leave the request what it has. -/
theorem obeys_of_mild {p : Async α} (hop : op ≠ .cleanupAbandonedChunks) (hp : p.Issues (Req.Mild cfg.storage))
    (h : Owns cfg.storage paths past) : p.Obeys (protocol cfg.storage op) (fun q _ => Owns cfg.storage paths q) past :=
  obeys_of_issues hp (fun _ _ => allowed_of_mild hop) (fun _ => not_gives_of_mild) h

/-- Mild parts leave the files that the request keeps. -/
theorem keeps_of_mild {p : Async α} (hop : op ≠ .cleanupAbandonedChunks) (hp : p.Issues (Req.Mild cfg.storage))
    (h : Keeps cfg.storage paths past) : p.Obeys (protocol cfg.storage op) (fun q _ => Keeps cfg.storage paths q) past :=
  hp.obeys_keeping (I := Keeps cfg.storage paths) (fun _ _ _ => trivial) (fun _ _ _ hr => allowed_of_mild hop hr)
    (fun _ _ _ hq hr p hp => kept_of_mild hr (hq p hp)) h

/-- A part that leaves the request what it has, before more. -/
theorem obeys_run_bind {S : List (Task.Event Req Resp) → AppResult β → Prop} {p : AsyncResult α} {f : α → AsyncResult β}
    (hp : p.run.Obeys (protocol cfg.storage op) (fun q _ => Owns cfg.storage paths q) past)
    (herror : ∀ q e, Owns cfg.storage paths q → S q (.error e))
    (hf : ∀ q a, Owns cfg.storage paths q → (f a).run.Obeys (protocol cfg.storage op) S q) :
    (p >>= f).run.Obeys (protocol cfg.storage op) S past :=
  Task.Obeys.run_bind hp (fun q e h => herror q e h) fun q a h => hf q a h

/-! ## Publications -/

section

variable {root : Path}

/-- A place of a hash is no chunk file. -/
theorem housed_ne_chunkFile (hlayout : cfg.storage = .new root) {sha256 : Str} {origin : BlobOrigin} {location : FileLocation} {p : Path}
    (h : Housed cfg.storage sha256 origin location) (hp : ChunkFile cfg.storage p) : location ≠ .localFile p :=
  h.ne_scratch hlayout hp.scratch

/-- Making metadata visible removes no chunk file. -/
theorem publishMetadata_obeys (hop : op ≠ .cleanupAbandonedChunks) (sha256 : Str) (m : FileMetadata) (h : Owns cfg.storage paths past) :
    (publishMetadata cfg sha256 m).run.Obeys (protocol cfg.storage op) (fun q _ => Owns cfg.storage paths q) past := by
  have hcons : ∀ {q : List (Task.Event Req Resp)} {r : Req} {x : Resp r}, ¬ r.gives → Owns cfg.storage paths q →
      Owns cfg.storage paths (⟨r, x⟩ :: q) := fun hr hq p hp => ne_absent_cons hr (hq p hp)
  refine ⟨allowed_of_mild hop trivial, fun outcome houtcome => ?_⟩
  have h₁ := hcons (r := .index (.publish sha256 m)) (x := outcome) id h
  cases outcome with
  | retained existing => exact h₁
  | published displaced =>
    refine ⟨allowed_of_mild hop trivial, fun published _ => ?_⟩
    have h₂ := hcons (r := .index (.get sha256)) (x := published) id h₁
    cases published with
    | none => exact h₂
    | some published =>
      cases displaced with
      | none => exact h₂
      | some displaced =>
        have hallowed : ∀ q (r : Req), r.Disposes displaced.location → Allowed cfg.storage op q r := by
          intro q r hr
          cases r with
          | fs r =>
            cases r with
            | removeFile p => exact allowed_removeFile hop fun _ hp => houtcome.2 p hp hr
            | _ => exact hr.elim
          | s3 r => exact allowed_of_mild hop trivial
          | _ => exact hr.elim
        have hgives : ∀ r : Req, r.Disposes displaced.location → ¬ r.gives := by
          intro r hr
          cases r with
          | sessions r => exact hr.elim
          | _ => exact id
        have hremove := obeys_of_issues ((removePhysicalFile_uses cfg displaced).issues fun _ => id) hallowed hgives h₂
        refine Task.Obeys.lift_bind (p := (removePhysicalFile cfg displaced).run) hremove fun q removed hq => ?_
        cases removed with
        | ok _ => exact hq
        | error _ => exact ⟨allowed_of_mild hop trivial, fun _ _ => hcons (r := .queueSuperseded sha256 displaced) id hq⟩

/-- The end of a publication removes no chunk file. -/
theorem finish_obeys (hop : op ≠ .cleanupAbandonedChunks) (publication : BlobPublication) (location : FileLocation)
    (h : Owns cfg.storage paths past) :
    (do
      let metadata ← publication.metadata location
      publishMetadata cfg publication.sha256 metadata : AsyncResult StoredBlob).run.Obeys (protocol cfg.storage op)
        (fun q _ => Owns cfg.storage paths q) past :=
  Task.Obeys.lift_bind (obeys_of_mild hop ((metadata_uses publication location).issues fun _ => mild_of_inspects) h)
    fun _ _ hq => publishMetadata_obeys hop _ _ hq

/-- The publication of a file to the bucket removes no chunk file, unless it is one. -/
theorem publishToS3_obeys (hop : op ≠ .cleanupAbandonedChunks) {temp : Path} (htemp : op.isPatch = true → ¬ ChunkFile cfg.storage temp)
    (publication : BlobPublication) (h : Owns cfg.storage paths past) :
    (publishToS3 cfg temp publication).run.Obeys (protocol cfg.storage op) (fun q _ => Owns cfg.storage paths q) past := by
  refine obeys_run_bind (obeys_of_mild hop (NativeStorage.ensureAvailable_uses.issues fun _ => mild_of_inspects) h) (fun _ _ => id)
    fun q₁ _ h₁ => ?_
  have hallowed : ∀ q (r : Req), r.Stores temp → Allowed cfg.storage op q r := by
    intro q r hr
    cases r with
    | fs r =>
      cases r with
      | removeFile p => exact allowed_removeFile hop fun hpatch => (show p = temp from hr) ▸ htemp hpatch
      | openFile p => exact allowed_of_mild hop trivial
      | _ => exact hr.elim
    | s3 r => exact allowed_of_mild hop trivial
    | _ => exact hr.elim
  have hgives : ∀ r : Req, r.Stores temp → ¬ r.gives := by
    intro r hr
    cases r with
    | sessions r => exact hr.elim
    | _ => exact id
  have hput := (put_uses temp publication.sha256 publication.extension publication.expiration).issues fun _ => id
  refine obeys_run_bind (obeys_of_issues hput hallowed hgives h₁) (fun _ _ => id) fun q₂ key h₂ => ?_
  refine Task.Obeys.lift_bind (obeys_of_mild hop (uses_request (r := .intoPublished temp) trivial |>.issues fun _ => id) h₂) fun q₃ _ h₃ => ?_
  exact finish_obeys hop publication _ h₃

/-- The publication of a file to its completed path removes no chunk file, unless it is one. -/
theorem publishToDisk_obeys (hlayout : cfg.storage = .new root) (hop : op ≠ .cleanupAbandonedChunks) {temp : Path}
    (htemp : op.isPatch = true → ¬ ChunkFile cfg.storage temp) (publication : BlobPublication) (h : Owns cfg.storage paths past) :
    (publishToDisk cfg temp publication).run.Obeys (protocol cfg.storage op) (fun q _ => Owns cfg.storage paths q) past := by
  have hmild : ∀ {γ : Type} {p : AsyncResult γ} {f : γ → AsyncResult StoredBlob} {q : List (Task.Event Req Resp)},
      p.run.Uses (Req.Mild cfg.storage) → Owns cfg.storage paths q →
      (∀ q a, Owns cfg.storage paths q → (f a).run.Obeys (protocol cfg.storage op) (fun q _ => Owns cfg.storage paths q) q) →
      (p >>= f).run.Obeys (protocol cfg.storage op) (fun q _ => Owns cfg.storage paths q) q := fun hp hq hf =>
    obeys_run_bind (obeys_of_mild hop (hp.issues fun _ => id) hq) (fun _ _ => id) hf
  refine Task.Obeys.run_bind (p := ofResult _) (R := fun q x => x = completedPath cfg.storage publication.origin publication.sha256
    publication.extension publication.expiration ∧ Owns cfg.storage paths q) ⟨rfl, h⟩ (fun _ _ h => h.2) fun q finalPath hp => ?_
  have hfinal : ¬ ChunkFile cfg.storage finalPath := fun hc =>
    housed_ne_chunkFile hlayout (housed_of_completedPath hp.1.symm) hc rfl
  refine hmild (uses_orErr (uses_request (r := .fs (.createDirAll _)) trivial)) hp.2 fun q₁ _ h₁ => ?_
  refine hmild (uses_orErr (uses_request (r := .fs (.tryExists _)) trivial)) h₁ fun q₂ present h₂ => ?_
  have hrest : ∀ q, Owns cfg.storage paths q → (do
      orIoErr (fun error => s!"Failed to publish {display temp} to {display finalPath}: {error.message}")
        (fs (.rename temp finalPath))
      request (.intoPublished temp)
      let metadata ← publication.metadata (.localFile finalPath)
      publishMetadata cfg publication.sha256 metadata : AsyncResult StoredBlob).run.Obeys (protocol cfg.storage op)
        (fun q _ => Owns cfg.storage paths q) q := by
    intro q hq
    have hrename : Allowed cfg.storage op q (.fs (.rename temp finalPath)) := allowed_of htemp (fun _ => trivial) hop
    refine obeys_run_bind (p := orIoErr _ (fs (.rename temp finalPath))) ⟨hrename, fun _ _ => ?_⟩ (fun _ _ => id) fun q₃ _ h₃ => ?_
    · exact fun p hp => ne_absent_cons (r := .fs (.rename temp finalPath)) id (hq p hp)
    · refine hmild (p := liftM (request (.intoPublished temp))) (Task.Within.lift (uses_request trivial)) h₃ fun q₄ _ h₄ => ?_
      exact finish_obeys hop publication _ h₄
  cases present with
  | false => exact hrest q₂ h₂
  | true =>
    refine obeys_run_bind (obeys_of_issues ((removeLocalFile_uses finalPath).issues fun _ => id) (fun q r hr => ?_) (fun r hr => ?_) h₂)
      (fun _ _ => id) fun q _ hq => hrest q hq
    · cases r with
      | fs r =>
        cases r with
        | removeFile p => exact allowed_removeFile hop fun _ => FileLocation.localFile.inj (show FileLocation.localFile finalPath = .localFile p from hr) ▸ hfinal
        | _ => exact hr.elim
      | s3 r => exact allowed_of_mild hop trivial
      | _ => exact hr.elim
    · cases r with
      | sessions r => exact hr.elim
      | _ => exact id

/-- A publication removes no chunk file, unless it publishes one. -/
theorem publishBlob_obeys (hlayout : cfg.storage = .new root) (hop : op ≠ .cleanupAbandonedChunks) {temp : Path}
    (htemp : op.isPatch = true → ¬ ChunkFile cfg.storage temp) (publication : BlobPublication) (h : Owns cfg.storage paths past) :
    (publishBlob cfg temp publication).run.Obeys (protocol cfg.storage op) (fun q _ => Owns cfg.storage paths q) past := by
  have hdrop : ∀ (x : AppResult StoredBlob) q, Owns cfg.storage paths q →
      (do request (.dropTemp temp); ofResult x : AsyncResult StoredBlob).run.Obeys (protocol cfg.storage op)
        (fun q _ => Owns cfg.storage paths q) q := fun x q hq =>
    ⟨allowed_of_mild hop trivial, fun _ _ p hp => ne_absent_cons (r := .dropTemp temp) id (hq p hp)⟩
  refine Task.Obeys.lift_bind (p := ExceptT.run _) (R := fun q _ => Owns cfg.storage paths q) ?_ fun q x hq => hdrop x q hq
  refine obeys_run_bind (p := ofResult _) h (fun _ _ => id) fun q₁ _ h₁ => ⟨trivial, ?_⟩
  refine Task.Obeys.bind (R := fun q _ => Owns cfg.storage paths q) ?_ fun _ _ hq => ⟨trivial, hq⟩
  refine obeys_run_bind (obeys_of_mild hop ((ensureNotQuarantined_uses ..).issues fun _ => mild_of_inspects) h₁) (fun _ _ => id)
    fun q₂ _ h₂ => ?_
  have hstore : ∀ q, Owns cfg.storage paths q → (if publication.origin = .upload ∧ cfg.nativeS3 = true then publishToS3 cfg temp publication
      else publishToDisk cfg temp publication : AsyncResult StoredBlob).run.Obeys (protocol cfg.storage op)
        (fun q _ => Owns cfg.storage paths q) q := by
    intro q hq
    by_cases hs3 : publication.origin = .upload ∧ cfg.nativeS3 = true
    · rw [if_pos hs3]
      exact publishToS3_obeys hop htemp publication hq
    · rw [if_neg hs3]
      exact publishToDisk_obeys hlayout hop htemp publication hq
  refine ⟨allowed_of_mild hop trivial, fun existing _ => ?_⟩
  have h₃ : Owns cfg.storage paths (⟨.index (.get publication.sha256), existing⟩ :: q₂) := fun p hp => ne_absent_cons id (h₂ p hp)
  cases existing with
  | none => exact hstore _ h₃
  | some existing =>
    show Task.Obeys _ _ (if keepsIncumbent publication existing = true then _ else _ : AsyncResult StoredBlob).run _
    cases keepsIncumbent publication existing with
    | true => exact h₃
    | false => exact hstore _ h₃

/-- The publication of what was found in the bucket removes no chunk file. -/
theorem publishExistingMetadata_obeys (hop : op ≠ .cleanupAbandonedChunks) (sha256 : Str) (m : FileMetadata)
    (h : Owns cfg.storage paths past) :
    (publishExistingMetadata cfg sha256 m).run.Obeys (protocol cfg.storage op) (fun q _ => Owns cfg.storage paths q) past := by
  have hguarded : (guarded sha256 (publishMetadata cfg sha256 m)).run.Obeys (protocol cfg.storage op)
      (fun q _ => Owns cfg.storage paths q) past := ⟨trivial, (publishMetadata_obeys hop sha256 m h).bind fun _ _ hq => ⟨trivial, hq⟩⟩
  exact obeys_run_bind hguarded (fun _ _ => id) fun _ _ => id

end

/-! ## Chunks -/

section

variable {root : Path} {headers : Headers} {body : Body}

/-- A body that was streamed to a file that the request named is kept. -/
theorem streamToTempFile_obeys (hop : op ≠ .cleanupAbandonedChunks) (body : Body) {p : Path} (maxBytes : Nat)
    (h : custody cfg.storage p past = .named) :
    (Upload.streamToTempFile cfg.libs body p maxBytes).run.Obeys (protocol cfg.storage op)
      (fun q x => Owns cfg.storage [p] q ∧ ∀ received, x = .ok received → Keeps cfg.storage [p] q) past := by
  refine Task.Obeys.run_bind (p := orIoErr _ (fs (.createFile p)))
    (R := fun q x => match x with
      | .ok _ => Keeps cfg.storage [p] q
      | .error _ => Owns cfg.storage [p] q)
    ⟨allowed_of_mild hop trivial, fun x _ => ?_⟩ (fun _ _ hq => ⟨hq, fun _ => nofun⟩) fun q ino hq => ?_
  · cases x with
    | ok ino => exact List.forall_mem_singleton.2 (if_pos ⟨rfl, h⟩)
    | error error => exact List.forall_mem_singleton.2 fun he => nomatch h.symm.trans he
  · have hrest : ∀ {γ : Type} {f : AsyncResult γ}, f.run.Uses (Upload.Streams p) →
        f.run.Obeys (protocol cfg.storage op) (fun q _ => Keeps cfg.storage [p] q) q := fun hf =>
      keeps_of_mild hop (hf.issues fun _ => mild_of_streams) hq
    refine (hrest ?_).mono fun q _ hq => ⟨hq.owns, fun _ _ => hq⟩
    refine Task.Uses.run_bind (uses_attempt ?_) fun written => Task.Uses.lift_bind (uses_request rfl) fun _ => trivial
    refine Task.Uses.run_bind (Upload.writeFrames_uses p ino maxBytes body []) fun received => ?_
    exact Task.Uses.run_bind (uses_orErr (uses_request trivial)) fun _ => trivial

/-- A chunk that was written is kept. -/
theorem writeChunk_obeys (body : Body) {p : Path} (contentLength : Nat) (h : custody cfg.storage p past = .named) :
    (writeChunk cfg body p contentLength).run.Obeys (protocol cfg.storage (.patch headers body))
      (fun q x => ∀ u, x = .ok u → Keeps cfg.storage [p] q) past := by
  have hpatch : Op.patch headers body ≠ .cleanupAbandonedChunks := nofun
  refine Task.Obeys.lift_bind (p := (Upload.streamToTempFile cfg.libs body p contentLength).run)
    (streamToTempFile_obeys hpatch body contentLength h) fun q x hx => ?_
  obtain ⟨howns, hkeeps⟩ := hx
  have hremove : ∀ error : AppError, (do
      let _ ← fs (.removeFile p)
      throw error : AsyncResult Unit).run.Obeys (protocol cfg.storage (.patch headers body))
        (fun q x => ∀ u, x = .ok u → Keeps cfg.storage [p] q) q := fun error =>
    ⟨fun _ => howns p (List.mem_singleton_self p), fun _ _ _ => nofun⟩
  rcases x with error | ⟨hash, written⟩
  · exact hremove error
  · show Task.Obeys _ _ (if written ≠ contentLength then _ else _ : AsyncResult Unit).run _
    split
    · exact hremove _
    · exact fun _ _ => hkeeps _ rfl

/-- A chunk that was stored is in a chunk file, which the request keeps. -/
theorem storeChunk_obeys (body : Body) (chunk : ChunkHeaders) :
    (storeChunk cfg body chunk).run.Obeys (protocol cfg.storage (.patch headers body))
      (fun q x => ∀ p, x = .ok p → ChunkFile cfg.storage p ∧ Keeps cfg.storage [p] q) past := by
  have hprepare : (prepareChunkDir cfg chunk.contentLength).run.Uses (Req.Mild cfg.storage) := by
    refine Task.Uses.run_bind ((ensureStorageCapacity_uses _).mono (fun _ => mild_of_inspects) fun _ => id) fun _ => ?_
    refine Task.Uses.run_bind (uses_orErr (uses_request (r := .fs (.createDirAll _)) trivial)) fun _ => ?_
    exact uses_orErr (uses_request (r := .fs (.createDirAll _)) trivial)
  have hnone : Owns cfg.storage [] past := nofun
  refine Task.Obeys.run_bind (obeys_of_mild nofun (hprepare.issues fun _ => id) hnone) (fun _ _ _ _ => nofun) fun q₁ _ _ => ?_
  refine ⟨trivial, fun uuid _ => ?_⟩
  have hnamed : custody cfg.storage (chunksDir cfg.storage ++ [chunkName chunk.sha256 chunk.uploadOffset uuid]) (⟨.uuid, uuid⟩ :: q₁) = .named :=
    if_pos (names_chunkName ..)
  refine Task.Obeys.run_bind (writeChunk_obeys body chunk.contentLength hnamed) (fun _ _ _ _ => nofun) fun q₂ u h₂ => ?_
  intro p hp
  cases hp
  exact ⟨⟨_, rfl⟩, h₂ u rfl⟩

/-- A chunk that was received is in a chunk file, which the request keeps. -/
theorem receiveChunk_obeys (body : Body) (key : ChunkUploadKey) (chunk : ChunkHeaders) :
    (receiveChunk cfg body key chunk).run.Obeys (protocol cfg.storage (.patch headers body))
      (fun q x => ∀ p, x = .ok p → ChunkFile cfg.storage p ∧ Keeps cfg.storage [p] q) past := by
  refine Task.Obeys.lift_bind (p := (storeChunk cfg body chunk).run) (storeChunk_obeys body chunk) fun q x hx => ?_
  cases x with
  | ok p => exact hx
  | error e => exact ⟨trivial, fun _ _ _ => nofun⟩

/-- A request removes the files that it has. -/
theorem discardChunkFiles_obeys {chunks : List ChunkInfo} (h : Owns cfg.storage (chunks.map ChunkInfo.chunkPath) past) :
    (discardChunkFiles chunks).Obeys (protocol cfg.storage (.patch headers body)) (fun _ _ => True) past := by
  induction chunks generalizing past with
  | nil => exact trivial
  | cons chunk chunks ih =>
    obtain ⟨hchunk, hchunks⟩ := List.forall_mem_cons.1 h
    refine ⟨fun _ => hchunk, fun _ _ => ih fun p hp => ?_⟩
    exact ne_absent_cons (r := .fs (.removeFile chunk.chunkPath)) id (hchunks p hp)

/-- A file directly below the temporary directory is no chunk file. -/
theorem not_chunkFile_temp (layout : StorageLayout) (name : Str) : ¬ ChunkFile layout (layout.temp ++ [name]) := by
  rintro ⟨name', he⟩
  have hlength := congrArg List.length he
  simp [chunksDir] at hlength

/-- A reconstruction removes only the chunk files of its upload. -/
theorem reconstructBlob_obeys (hlayout : cfg.storage = .new root) {upload : ChunkUpload} (sha256 : Str)
    (h : Owns cfg.storage upload.paths past) :
    (reconstructBlob cfg upload sha256).run.Obeys (protocol cfg.storage (.patch headers body)) (fun _ _ => True) past := by
  have hpatch : Op.patch headers body ≠ .cleanupAbandonedChunks := nofun
  have hsorted : ∀ q, Owns cfg.storage upload.paths q → Owns cfg.storage ((sortChunks upload.chunks).map ChunkInfo.chunkPath) q :=
    fun q hq p hp => hq p (((perm_sortChunks upload.chunks).map _).mem_iff.1 hp)
  have hdiscard : ∀ (x : AppResult FileMetadata) q, Owns cfg.storage upload.paths q →
      (do discardChunkFiles (sortChunks upload.chunks); ofResult x : AsyncResult FileMetadata).run.Obeys
        (protocol cfg.storage (.patch headers body)) (fun _ _ => True) q := fun x q hq =>
    Task.Obeys.lift_bind (discardChunkFiles_obeys (hsorted q hq)) fun _ _ _ => trivial
  unfold reconstructBlob
  simp only
  split
  · exact hdiscard (.error _) past h
  · exact trivial
  · split
    · exact hdiscard (.error _) past h
    · have htempDir : (ensureTempDir cfg).run.Uses (Req.Mild cfg.storage) := uses_orErr (uses_request (r := .fs (.createDirAll _)) trivial)
      refine obeys_run_bind (obeys_of_mild hpatch (htempDir.issues fun _ => id) h) (fun _ _ _ => trivial) fun q₁ _ h₁ => ?_
      refine Task.Obeys.lift_bind (p := request (.reserveTemp cfg.storage.temp "reconstruct".toList none))
        (R := fun q temp => (∃ name, temp = cfg.storage.temp ++ [name]) ∧ Owns cfg.storage upload.paths q) ?_ fun q₂ temp htemp => ?_
      · exact ⟨rfl, fun x hx => ⟨hx.2, fun p hp => ne_absent_cons id (h₁ p hp)⟩⟩
      · obtain ⟨⟨name, rfl⟩, h₂⟩ := htemp
        have hinto : (reconstructInto cfg.libs (sortChunks upload.chunks) upload.uploadLength sha256 (cfg.storage.temp ++ [name])).run.Uses
            (Req.Mild cfg.storage) := reconstructInto_uses (fun _ => mild_of_inspects) (fun _ => mild_of_streams) _ _ _
        have hwith : (withTemp (cfg.storage.temp ++ [name]) (reconstructInto cfg.libs (sortChunks upload.chunks) upload.uploadLength sha256
            (cfg.storage.temp ++ [name]))).run.Uses (Req.Mild cfg.storage) := by
          refine Task.Uses.run_bind (uses_attempt hinto) fun x => ?_
          cases x with
          | ok a => exact trivial
          | error e => exact Task.Uses.lift_bind (uses_request (r := .dropTemp _) trivial) fun _ => trivial
        refine Task.Obeys.run_bind (p := attempt _) (R := fun q _ => Owns cfg.storage upload.paths q) ?_ (fun _ _ _ => trivial)
          fun q₃ x h₃ => hdiscard x q₃ h₃
        refine Task.Obeys.bind (R := fun q _ => Owns cfg.storage upload.paths q) ?_ fun q₃ _ h₃ => h₃
        refine obeys_run_bind (obeys_of_mild hpatch (hwith.issues fun _ => id) h₂) (fun _ _ => id) fun q₃ total h₃ => ?_
        exact obeys_run_bind (publishBlob_obeys hlayout hpatch (fun _ => not_chunkFile_temp _ _) _ h₃) (fun _ _ => id) fun _ _ => id

/-- A complete session lacks bytes without its last chunk. -/
theorem lacks_dropLast {layout : StorageLayout} {upload : ChunkUpload} {chunk : ChunkInfo} (h : upload.Completed layout)
    (hlast : upload.chunks.getLast? = some chunk) : (upload.chunks.dropLast.map ChunkInfo.length).sum < upload.uploadLength := by
  have hchunks := List.dropLast_append_getLast? chunk hlast
  have hpos := (h.fits chunk (hchunks ▸ List.mem_append_right _ (List.mem_singleton_self chunk))).nonempty
  have hsum := h.sum_eq
  rw [← hchunks, List.map_append, List.sum_append, List.map_singleton, List.sum_singleton] at hsum
  omega

/-- The chunk that completes an upload is the only one in its file. -/
theorem chunkPath_not_mem_dropLast {upload : ChunkUpload} {chunk : ChunkInfo} (hnodup : upload.paths.Nodup)
    (hlast : upload.chunks.getLast? = some chunk) : chunk.chunkPath ∉ upload.chunks.dropLast.map ChunkInfo.chunkPath := by
  have hchunks := List.dropLast_append_getLast? chunk hlast
  rw [ChunkUpload.paths, ← hchunks, List.map_append, List.nodup_append'] at hnodup
  exact fun hmem => hnodup.2.2 hmem (List.mem_singleton_self _)

/-- A request whose payment is rejected gives the other files back to a session, and removes only files that it has. -/
theorem undoCompletion_obeys (key : ChunkUploadKey) {upload : ChunkUpload} {chunk : ChunkInfo} (hu : upload.Completed cfg.storage)
    (hnodup : upload.paths.Nodup) (hlast : upload.chunks.getLast? = some chunk) (h : Keeps cfg.storage upload.paths past) :
    (undoCompletion key upload chunk.chunkPath).Obeys (protocol cfg.storage (.patch headers body)) (fun _ _ => True) past := by
  have hsub : (upload.chunks.dropLast.map ChunkInfo.chunkPath).Sublist upload.paths := (List.dropLast_sublist _).map _
  have hmem : chunk.chunkPath ∈ upload.paths :=
    List.mem_map_of_mem (List.dropLast_append_getLast? chunk hlast ▸ List.mem_append_right _ (List.mem_singleton_self chunk))
  refine ⟨⟨hu.toWellFormed.dropLast, lacks_dropLast hu hlast, hnodup.sublist hsub, fun p hp => h p (hsub.subset hp)⟩, fun restored _ => ?_⟩
  cases restored with
  | true =>
    refine ⟨fun _ => ?_, fun _ _ => trivial⟩
    have hkept : custody cfg.storage chunk.chunkPath
        (⟨.sessions (.restore key { upload with chunks := upload.chunks.dropLast }), true⟩ :: past) = .kept :=
      (if_neg (chunkPath_not_mem_dropLast hnodup hlast)).trans (h _ hmem)
    exact fun he => nomatch hkept.symm.trans he
  | false => exact discardChunkFiles_obeys h.owns

/-- A request that completes a session keeps its files. -/
theorem keeps_of_complete (key : ChunkUploadKey) (params : SessionParams) (chunk : ChunkInfo) {layout : StorageLayout} {upload : ChunkUpload}
    (q : List (Task.Event Req Resp)) : Keeps layout upload.paths (⟨.sessions (.commit key params chunk), .complete upload⟩ :: q) := by
  intro p hp
  simp only [custody, next, hp, if_true]

/-- What follows a completion removes only files that the request has. -/
theorem finishUpload_obeys (hlayout : cfg.storage = .new root) (key : ChunkUploadKey) (chunk : ChunkHeaders) {upload : ChunkUpload}
    {offset length : Nat} {chunkPath : Path} (hu : upload.Completed cfg.storage) (hnodup : upload.paths.Nodup)
    (hlast : upload.chunks.getLast? = some ⟨offset, length, chunkPath⟩) (h : Keeps cfg.storage upload.paths past) :
    (finishUpload cfg headers key chunk chunkPath upload).run.Obeys (protocol cfg.storage (.patch headers body))
      (fun _ _ => True) past := by
  have hpatch : Op.patch headers body ≠ .cleanupAbandonedChunks := nofun
  refine Task.Obeys.lift_bind (p := (Cashu.charge cfg headers .upload chunk.uploadLength).run)
    (keeps_of_mild hpatch ((Cashu.charge_uses ..).issues fun _ => mild_of_checks) h) fun q x hq => ?_
  cases x with
  | error e => exact Task.Obeys.lift_bind (undoCompletion_obeys key hu hnodup hlast hq) fun _ _ _ => trivial
  | ok _ =>
    simp only
    split
    · exact trivial
    · split
      · exact trivial
      · exact Task.Obeys.run_bind (reconstructBlob_obeys hlayout chunk.sha256 hq.owns) (fun _ _ _ => trivial) fun _ _ _ => trivial

/-- A chunk removes only files that it has, and gives only files to a session that it keeps. -/
theorem patchUpload_obeys (hlayout : cfg.storage = .new root) (headers : Headers) (body : Body) :
    (patchUpload cfg headers body).run.Obeys (protocol cfg.storage (.patch headers body)) (fun _ _ => True) [] := by
  have hpatch : Op.patch headers body ≠ .cleanupAbandonedChunks := nofun
  have hmild : ∀ {γ : Type} {p : AsyncResult γ} {f : γ → AsyncResult Response} {q : List (Task.Event Req Resp)},
      p.run.Uses (Req.Mild cfg.storage) →
      (∀ q a, (f a).run.Obeys (protocol cfg.storage (.patch headers body)) (fun _ _ => True) q) →
      (p >>= f).run.Obeys (protocol cfg.storage (.patch headers body)) (fun _ _ => True) q := by
    intro γ p f q hp hf
    have hnone : Owns cfg.storage [] q := nofun
    exact obeys_run_bind (obeys_of_mild hpatch (hp.issues fun _ => id) hnone) (fun _ _ _ => trivial) fun q a _ => hf q a
  unfold patchUpload
  refine Task.Obeys.run_bind (p := ofResult _) (R := fun _ x => x = readChunkHeaders cfg headers) rfl (fun _ _ _ => trivial) fun q chunk hc => ?_
  obtain ⟨_, hpos, hin, hlen⟩ := readChunkHeaders_spec hc.symm
  refine hmild (authorize_uses (fun _ => mild_of_inspects) (fun _ => trivial) headers .chunkUpload) fun q authorized => ?_
  refine hmild ((Authorization.bind_uses authorized chunk.sha256).mono (fun _ => mild_of_checks) fun _ => id) fun q _ => ?_
  refine hmild ((ensureNotQuarantined_uses cfg.storage chunk.sha256).mono (fun _ => mild_of_inspects) fun _ => id) fun q _ => ?_
  refine hmild ((extractExpiration_uses headers).mono (fun _ => mild_of_inspects) fun _ => id) fun q expiration => ?_
  refine ⟨trivial, fun reservation _ => ?_⟩
  cases reservation with
  | globalLimit => exact trivial
  | perPubkeyLimit => exact trivial
  | granted =>
    refine Task.Obeys.run_bind (receiveChunk_obeys body _ chunk) (fun _ _ _ => trivial) fun q chunkPath h => ?_
    obtain ⟨hfile, hkeeps⟩ := h chunkPath rfl
    have hkept := hkeeps chunkPath (List.mem_singleton_self chunkPath)
    refine ⟨⟨⟨⟨hfile, hpos, hin⟩, hlen⟩, hkept⟩, fun committed hcommitted => ?_⟩
    cases committed with
    | incomplete => exact trivial
    | overlap => exact ⟨fun _ he => (nomatch hkept.symm.trans he), fun _ _ => trivial⟩
    | paramMismatch => exact ⟨fun _ he => (nomatch hkept.symm.trans he), fun _ _ => trivial⟩
    | complete upload =>
      obtain ⟨⟨hcompleted, _⟩, hnodup, hlast⟩ := hcommitted
      exact finishUpload_obeys hlayout _ chunk hcompleted hnodup hlast (keeps_of_complete _ _ _ q)

/-! ## The operations -/

/-- A request of the storage services keeps aside. -/
theorem aside_of_maintains {layout : StorageLayout} {r : Req} (h : r.Maintains layout) : r.Aside layout := by
  cases r with
  | sessions r => exact h.elim
  | reserveTemp dir namePrefix extension => exact h.elim
  | adoptTemp p => exact h.elim
  | _ => exact trivial

/-- A request that leaves the sessions alone keeps aside. -/
theorem aside_of_prepares {layout : StorageLayout} {r : Req} (h : r.Prepares layout) : r.Aside layout := by
  cases r with
  | sessions r => exact h.elim
  | reserveTemp dir namePrefix extension => exact h
  | adoptTemp p => exact h.elim
  | _ => exact trivial

/-- A request of the chunk cleanup keeps aside, and leaves the queue alone. -/
theorem aside_of_sweeps {layout : StorageLayout} {r : Req} (h : Sweeps layout r) : r.Aside layout ∧ r.Passes := by
  cases r with
  | sessions r => cases r <;> first | exact ⟨trivial, trivial⟩ | exact h.elim
  | index r => exact ⟨trivial, Req.inspects.passes h⟩
  | _ => first | exact ⟨trivial, trivial⟩ | exact h.elim

/-- Every operation keeps to the files that it has. -/
theorem program_obeys (hlayout : cfg.storage = .new root) (op : Op) :
    (program cfg op).traced.Obeys (protocol cfg.storage op) (fun _ _ => True) [] := by
  suffices h : (program cfg op).Obeys (protocol cfg.storage op) (fun _ _ => True) [] from h.traced
  have haside : ∀ {q : List (Task.Event Req Resp)} {r : Req}, op.isPatch = false → op ≠ .cleanupAbandonedChunks → r.Aside cfg.storage →
      Allowed cfg.storage op q r := fun hp hop hr => allowed_of (fun h => nomatch hp.symm.trans h) (fun _ => hr) hop
  cases hm : op.maintains with
  | true =>
    have hpatch : op.isPatch = false := by cases op <;> first | rfl | nomatch hm
    have hop : op ≠ .cleanupAbandonedChunks := by
      rintro rfl
      nomatch hm
    exact ((program_maintains hm).obeys_keeping (I := fun _ => True) (fun _ _ _ => trivial)
      (fun _ _ _ hr => haside hpatch hop (aside_of_maintains hr)) (fun _ _ _ _ _ => trivial) trivial)
  | false =>
    have hnone : ∀ q, Owns cfg.storage [] q := fun _ => nofun
    rcases Op.cases_of_not_maintains hm with hg | hu | rfl
    · obtain ⟨headers, head, filename, rfl⟩ := exists_get_of_isGet hg
      have hop : Op.get headers head filename ≠ .cleanupAbandonedChunks := nofun
      refine ((program_discovers headers head filename).obeys_keeping (I := fun _ => True) (fun _ _ h => h.1)
        (fun _ _ _ hr => haside rfl hop (aside_of_prepares hr)) (fun _ _ _ _ _ => trivial) ?_ trivial).mono fun _ _ _ => trivial
      rintro q _ - ⟨sha256, _, m, _, rfl⟩
      exact (publishExistingMetadata_obeys hop sha256 m (hnone q)).mono fun _ _ _ => trivial
    · cases hc : op.isChunked with
      | false =>
        have hpatch : op.isPatch = false := by cases op <;> first | rfl | nomatch hc
        have hop : op ≠ .cleanupAbandonedChunks := by
          rintro rfl
          nomatch hc
        refine ((program_publishes hu hc).obeys_keeping (I := fun _ => True) (fun _ _ h => h.1)
          (fun _ _ _ hr => haside hpatch hop (aside_of_prepares hr)) (fun _ _ _ _ _ => trivial) ?_ trivial).mono fun _ _ _ => trivial
        rintro q _ - ⟨temp, publication, _, _, rfl⟩
        exact (publishBlob_obeys hlayout hop (fun h => nomatch hpatch.symm.trans h) publication (hnone q)).mono fun _ _ _ => trivial
      | true =>
        cases op with
        | patch headers body => exact (patchUpload_obeys hlayout headers body).bind fun _ _ _ => trivial
        | cleanupAbandonedChunks => nomatch hu
        | _ => nomatch hc
    · refine ((program_sweeps cfg).obeys_keeping (I := fun _ => True) (fun _ _ h => h.1) (fun _ _ _ hr => aside_of_sweeps hr)
        (fun _ _ _ _ _ => trivial) ?_ trivial).mono fun _ _ _ => trivial
      rintro q _ - ⟨_, _, _, hno, _⟩
      exact hno.elim

end

end

end Custody

end Almond
