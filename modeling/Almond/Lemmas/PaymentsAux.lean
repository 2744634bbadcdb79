import Almond.Lemmas.BindingAux
import Almond.Lemmas.PriceAux

/-! # What a request is charged for

A request asks the wallet at most once, with a token that covers the price of bytes it has verified, and it stores a blob only after the
wallet settled the price of the blob. -/

namespace Almond.Payments

open Authorization Cashu Conc FileStorage Handlers

/-! ## What a request owes -/

/-- The wallet was not asked to settle anything. -/
def Unredeemed (past : List (Task.Event Req Resp)) : Prop :=
  ∀ e ∈ past, ∀ tokenStr, e.1 ≠ .receiveToken tokenStr

/-- What an operation on a number of bytes costs. -/
def price (cfg : Config) (size : Nat) : Nat :=
  (quote cfg.cashuPricePerMb cfg.cashuAcceptedMints size).amountSats

/-- Whether a token pays for an operation on a number of bytes: it comes with the request, and covers the price at an accepted mint. -/
def Pays (cfg : Config) (headers : Headers) (operation : PaidOperation) (size : Nat) (tokenStr : Str) : Prop :=
  operation.isPaid cfg = true ∧ cfg.cashuWallet = true ∧ extractCashuHeader headers = some tokenStr ∧
    ∃ token, parseToken cfg.libs tokenStr = .ok token ∧ verifyTokenBasics token (price cfg size) cfg.cashuAcceptedMints = .ok ()

/-- Where the size of a blob comes from: its entry, an entry that kept its place when the blob was indexed, or a file outside the
storage roots. -/
def Found (past : List (Task.Event Req Resp)) (sha256 : Str) (size : Nat) : Prop :=
  (∃ m : FileMetadata, ⟨.index (.get sha256), some m⟩ ∈ past ∧ m.size = size) ∨
    (∃ m existing : FileMetadata, ⟨.index (.publish sha256 m), .retained existing⟩ ∈ past ∧ existing.size = size) ∨
    ∃ file : ServeFile, ⟨.getServeFile sha256, some file⟩ ∈ past ∧ file.size = size

/-- Whether an operation owes a token. For an upload and a mirror, the bytes have the hash they should have. -/
def Owes (cfg : Config) (past : List (Task.Event Req Resp)) (tokenStr : Str) : Op → Prop
  | .upload headers body => extractDeclaredUploadHash headers = .ok (cfg.libs.sha256Hex (receivedBytes body)) ∧
      Pays cfg headers .upload (receivedBytes body).length tokenStr
  | .mirror headers _ => ∃ url response event, ⟨.fetchFromUrl url, .ok response⟩ ∈ past ∧ eventOf cfg headers = some event ∧
      Auth.extractSha256FromEvent event = some (cfg.libs.sha256Hex (receivedBytes response.frames)) ∧
      Pays cfg headers .mirror (receivedBytes response.frames).length tokenStr
  | .patch headers _ => ∃ chunk, readChunkHeaders cfg headers = .ok chunk ∧ Pays cfg headers .upload chunk.uploadLength tokenStr
  | .get headers head filename => head = false ∧ ∃ fileHash size, Serving.getSha256HashFromFilename filename = some fileHash ∧
      Found past fileHash size ∧ Pays cfg headers .download size tokenStr
  | _ => False

/-- Whether an operation serves a request that may be charged. -/
def IsCharged : Op → Prop
  | .upload _ _ | .patch _ _ | .mirror _ _ | .get _ _ _ => True
  | _ => False

/-- What an operation that stores a blob for its client is charged as. -/
def stores : Op → Option PaidOperation
  | .upload _ _ | .patch _ _ => some .upload
  | .mirror _ _ => some .mirror
  | _ => none

/-- Whether an operation may issue a request: it redeems one token, which it owes, and stores only what was paid for. -/
def May (cfg : Config) (op : Op) (past : List (Task.Event Req Resp)) (r : Req) : Prop :=
  (∀ tokenStr, r = .receiveToken tokenStr → IsCharged op → Unredeemed past ∧ Owes cfg past tokenStr op) ∧
    ∀ operation sha256, stores op = some operation → operation.isPaid cfg = true → r.mutates sha256 →
      ∃ m, r = .index (.publish sha256 m) ∧ Settled past (price cfg m.size)

/-- The protocol of an operation that is charged. -/
abbrev till (cfg : Config) (op : Op) : Protocol Req Resp Str (List (Task.Event Req Resp)) :=
  .recording (fun _ _ => True) (fun _ _ => True) (May cfg op)

/-! ## Requests that cost nothing -/

/-- A request that redeems no token and changes no entry. -/
def Free (r : Req) : Prop :=
  r.Never ∧ ∀ tokenStr, r ≠ .receiveToken tokenStr

/-- Reading is free. -/
theorem free_of_inspects {r : Req} (h : r.inspects) : Free r := by
  refine ⟨h.never, ?_⟩
  rintro tokenStr rfl
  exact h

/-- Writing to a file is free. -/
theorem free_of_streams {temp : Path} {r : Req} (h : Upload.Streams temp r) : Free r := by
  refine ⟨h.never, ?_⟩
  rintro tokenStr rfl
  exact h

/-- Storing a file is free. -/
theorem free_of_stores {temp : Path} {r : Req} (h : r.Stores temp) : Free r := by
  refine ⟨h.never, ?_⟩
  rintro tokenStr rfl
  exact h

/-- A disposal is free. -/
theorem free_of_disposes {location : FileLocation} {r : Req} (h : r.Disposes location) : Free r := by
  refine ⟨fun sha256 hm => ?_, ?_⟩
  · cases r with
    | index r => exact h.elim
    | _ => exact hm.elim
  · rintro tokenStr rfl
    exact h

/-- A request that keeps the records of the server: of temporary files, sessions, identifiers, keys and events. -/
def Notes : Req → Prop
  | .reserveTemp _ _ _ | .intoPublished _ | .dropTemp _ | .closeFile _ | .sessions _ | .uuid | .insertDvm _ | .consumeReplay _ _ _ => True
  | _ => False

/-- Keeping records is free. -/
theorem free_of_notes {r : Req} (h : Notes r) : Free r := by
  refine ⟨fun sha256 hm => ?_, ?_⟩
  · cases r with
    | index r => exact h.elim
    | _ => exact hm.elim
  · rintro tokenStr rfl
    exact h

/-- A request to the file system is free. -/
theorem free_fs (r : FsReq) : Free (.fs r) :=
  ⟨fun _ => id, fun _ h => by cases h⟩

/-- A request of a publication, which makes at most an entry of one size. -/
def Enters (size : Nat) (r : Req) : Prop :=
  (∀ tokenStr, r ≠ .receiveToken tokenStr) ∧ ∀ sha256, r.mutates sha256 → ∃ m, r = .index (.publish sha256 m) ∧ m.size = size

/-- What is free makes no entry. -/
theorem Free.enters {r : Req} (h : Free r) (size : Nat) : Enters size r :=
  ⟨h.2, fun sha256 hm => absurd hm (h.1 sha256)⟩

/-- Keeping records makes no entry. -/
theorem enters_of_notes {size : Nat} {r : Req} (h : Notes r) : Enters size r :=
  (free_of_notes h).enters size

section

variable {cfg : Config} {op : Op} {past : List (Task.Event Req Resp)} {α β : Type} {size : Nat}

/-- What is free may be issued. -/
theorem may_of_free {q : List (Task.Event Req Resp)} {r : Req} (h : Free r) : May cfg op q r :=
  ⟨fun tokenStr hr => absurd hr (h.2 tokenStr), fun _ sha256 _ _ hm => absurd hm (h.1 sha256)⟩

/-- A request that redeems nothing. -/
theorem Unredeemed.cons {q : List (Task.Event Req Resp)} {r : Req} (hq : Unredeemed q) (h : ∀ tokenStr, r ≠ .receiveToken tokenStr)
    (x : Resp r) : Unredeemed (⟨r, x⟩ :: q) := by
  intro e he
  rcases List.mem_cons.1 he with rfl | he
  · exact h
  · exact hq e he

/-- What is free redeems nothing. -/
theorem unredeemed_of_free {q : List (Task.Event Req Resp)} {r : Req} (h : Free r) (x : Resp r) (hq : Unredeemed q) :
    Unredeemed (⟨r, x⟩ :: q) :=
  hq.cons h.2 x

/-- What is free may be issued at any time. -/
theorem obeys_free {p : Async α} (hp : p.Issues Free) : p.Obeys (till cfg op) (fun q _ => past <:+ q) past :=
  hp.obeys_recording (fun _ _ _ => trivial) fun _ _ _ hr => may_of_free hr

/-- A part of an operation that costs nothing. -/
theorem obeys_of_free {R : α → Prop} {p : Async α} (hp : p.Issues Free) (hends : p.Ends R) (hpast : Unredeemed past) :
    p.Obeys (till cfg op) (fun q a => (past <:+ q ∧ Unredeemed q) ∧ R a) past :=
  (hp.obeys_keeping (I := fun q => past <:+ q ∧ Unredeemed q) (fun _ _ _ => trivial) (fun _ _ _ hr => may_of_free hr)
    (fun _ _ x hq hr => ⟨hq.1.trans (List.suffix_cons ..), unredeemed_of_free hr x hq.2⟩) ⟨List.suffix_refl past, hpast⟩).ends hends

/-- A part that costs nothing, followed by more. -/
theorem obeys_free_bind {R : AppResult α → Prop} {S : List (Task.Event Req Resp) → AppResult β → Prop} {p : AsyncResult α}
    {f : α → AsyncResult β} (hp : p.run.Issues Free) (hends : p.run.Ends R) (hpast : Unredeemed past) (he : ∀ q e, S q (.error e))
    (hf : ∀ q a, past <:+ q → Unredeemed q → R (.ok a) → (f a).run.Obeys (till cfg op) S q) :
    (p >>= f).run.Obeys (till cfg op) S past :=
  Task.Obeys.run_bind (obeys_of_free hp hends hpast) (fun q e _ => he q e) fun q a h => hf q a h.1.1 h.1.2 h.2

/-- A part that costs nothing and ends anyhow, followed by more. -/
theorem obeys_uses_bind {S : List (Task.Event Req Resp) → AppResult β → Prop} {p : AsyncResult α} {f : α → AsyncResult β}
    (hp : p.run.Uses Free) (hpast : Unredeemed past) (he : ∀ q e, S q (.error e))
    (hf : ∀ q a, past <:+ q → Unredeemed q → (f a).run.Obeys (till cfg op) S q) : (p >>= f).run.Obeys (till cfg op) S past :=
  obeys_free_bind (hp.issues fun _ => id) (Task.ends_trivial _) hpast he fun q a hq hun _ => hf q a hq hun

/-- A charge redeems a token that pays, and succeeds for a paid operation only when the price was settled. -/
theorem charge_obeys {headers : Headers} {operation : PaidOperation} (hpast : Unredeemed past)
    (howes : ∀ tokenStr, Pays cfg headers operation size tokenStr → Owes cfg past tokenStr op) :
    (charge cfg headers operation size).run.Obeys (till cfg op)
      (fun q x => past <:+ q ∧ (operation.isPaid cfg = true → x = .ok () → Settled q (price cfg size))) past := by
  have hrefl : past <:+ past := List.suffix_refl past
  have herror : ∀ e : AppError, operation.isPaid cfg = true → (.error e : AppResult Unit) = .ok () → Settled past (price cfg size) :=
    fun _ _ h => by cases h
  unfold charge
  by_cases hpaid : operation.isPaid cfg = true
  swap
  · rw [if_pos (by simpa using hpaid)]
    exact ⟨hrefl, fun h => absurd h hpaid⟩
  rw [if_neg (by simpa using hpaid)]
  cases hheader : extractCashuHeader headers with
  | none => exact ⟨hrefl, herror _⟩
  | some tokenStr =>
    refine Task.Obeys.run_bind (R := fun q x => q = past ∧ x = parseToken cfg.libs tokenStr) (p := ofResult _) ⟨rfl, rfl⟩ ?_ ?_
    · rintro q e ⟨rfl, _⟩
      exact ⟨hrefl, herror e⟩
    rintro q token ⟨rfl, htoken⟩
    refine Task.Obeys.run_bind (R := fun q' x => q' = q ∧ x = verifyTokenBasics token (price cfg size) cfg.cashuAcceptedMints)
      (p := ofResult _) ⟨rfl, rfl⟩ ?_ ?_
    · rintro q' e ⟨rfl, _⟩
      exact ⟨hrefl, herror e⟩
    rintro q' _ ⟨rfl, hverify⟩
    by_cases hwallet : cfg.cashuWallet = true
    swap
    · simp only [hwallet]
      exact ⟨hrefl, herror _⟩
    simp only [hwallet, if_true]
    have hpays : Pays cfg headers operation size tokenStr := ⟨hpaid, hwallet, hheader, token, htoken.symm, hverify.symm⟩
    refine Task.Obeys.run_bind (R := fun q x => ∃ y, q = ⟨.receiveToken tokenStr, y⟩ :: q' ∧ ∀ n, x = .ok n → y = .ok n)
      ⟨⟨fun tokenStr' h _ => ?_, fun _ _ _ _ => False.elim⟩, fun y _ => ⟨y, rfl, fun n h => ?_⟩⟩ ?_ ?_
    · cases h
      exact ⟨hpast, howes _ hpays⟩
    · cases y with
      | ok m => exact congrArg _ (Except.ok.inj h)
      | error e => cases h
    · rintro _ e ⟨y, rfl, _⟩
      exact ⟨List.suffix_cons .., fun _ h => by cases h⟩
    rintro _ received ⟨y, rfl, hy⟩
    obtain rfl := hy received rfl
    by_cases hless : received < (quote cfg.cashuPricePerMb cfg.cashuAcceptedMints size).amountSats
    · rw [if_pos hless]
      exact ⟨List.suffix_cons .., fun _ h => by cases h⟩
    · rw [if_neg hless]
      exact ⟨List.suffix_cons .., fun _ _ => ⟨tokenStr, received, List.mem_cons_self, Nat.le_of_not_lt hless⟩⟩

/-- A part under a charge that was settled makes its entry. -/
theorem obeys_of_enters (hsettled : ∀ operation, stores op = some operation → operation.isPaid cfg = true → Settled past (price cfg size))
    {p : Async α} (hp : p.Issues (Enters size)) : p.Obeys (till cfg op) (fun q _ => past <:+ q) past := by
  refine hp.obeys_recording (fun _ _ _ => trivial) fun q r hq hr => ⟨fun tokenStr h => absurd h (hr.1 tokenStr), ?_⟩
  intro operation sha256 hop hpaid hm
  obtain ⟨m, hr, hsize⟩ := hr.2 sha256 hm
  exact ⟨m, hr, hsize ▸ (hsettled operation hop hpaid).mono hq.subset⟩

/-- A request of a publication that makes no entry. -/
theorem enters_of_places {sha256 : Str} {r : Req} (h : r.Places cfg.storage sha256) (hpublish : ∀ m, r ≠ .index (.publish sha256 m)) :
    Enters size r := by
  refine ⟨?_, fun other hm => ?_⟩
  · rintro tokenStr rfl
    exact h
  · cases r with
    | index r =>
      cases r with
      | publish key m =>
        obtain rfl : key = sha256 := h
        exact absurd rfl (hpublish m)
      | insert key m => exact h.elim
      | removeIfLocationMatches key m => exact h.elim
      | replace map => exact h.elim
      | _ => exact hm.elim
    | _ => exact hm.elim

/-- Making an entry of a size visible. -/
theorem publishMetadata_enters (sha256 : Str) {m : FileMetadata} (hsize : m.size = size) :
    (publishMetadata cfg sha256 m).run.Uses (Enters size) := by
  have hpublish : Enters size (.index (.publish sha256 m)) := by
    refine ⟨fun _ h => (by cases h), ?_⟩
    rintro _ rfl
    exact ⟨m, rfl, hsize⟩
  have hplaces : ∀ {r : Req}, r.Places cfg.storage sha256 → (∀ m, r ≠ .index (.publish sha256 m)) → Enters size r := enters_of_places
  refine Task.Uses.lift_bind (uses_request hpublish) fun outcome => ?_
  cases outcome with
  | retained existing => exact trivial
  | published displaced =>
    refine Task.Uses.lift_bind (uses_request (hplaces (r := .index (.get sha256)) trivial fun _ h => by cases h)) fun published => ?_
    cases published with
    | none => exact trivial
    | some published =>
      cases displaced with
      | none => exact trivial
      | some displaced =>
        refine Task.Uses.run_bind (uses_attempt ?_) fun removed => ?_
        · refine (removePhysicalFile_uses cfg displaced).mono (fun r h => hplaces h.places ?_) fun _ _ => trivial
          rintro m rfl
          exact h
        · cases removed with
          | ok _ => exact trivial
          | error _ =>
            have hqueue : Enters size (.queueSuperseded sha256 displaced) := hplaces trivial fun _ h => by cases h
            exact Task.Uses.lift_bind (uses_request hqueue) fun _ => trivial

/-- Creating the metadata of a publication and making it visible. -/
theorem metadata_enters (publication : BlobPublication) (loc : FileLocation) (hsize : publication.size = size) :
    ((liftM (publication.metadata loc) : AsyncResult FileMetadata) >>= fun m => publishMetadata cfg publication.sha256 m).run.Uses
      (Enters size) := by
  refine Task.Within.run_bind (R := fun x => ∀ m, x = .ok m → m.size = size) ?_ (fun _ _ => trivial) fun m hm => ?_
  · have hclock : Enters size .systemTime := (free_of_inspects (r := .systemTime) trivial).enters size
    refine ⟨hclock, fun time _ => ?_⟩
    rintro m ⟨⟩
    exact hsize
  · exact publishMetadata_enters publication.sha256 (hm m rfl)

/-- The requests of the publication of an object. -/
theorem publishToS3_enters (temp : Path) (publication : BlobPublication) (hsize : publication.size = size) :
    (publishToS3 cfg temp publication).run.Uses (Enters size) := by
  have hpublished : Enters size (.intoPublished temp) := enters_of_notes trivial
  refine Task.Uses.run_bind ?_ fun _ => ?_
  · exact NativeStorage.ensureAvailable_uses.mono (fun r h => (free_of_inspects h).enters size) fun _ _ => trivial
  refine Task.Uses.run_bind ((put_uses ..).mono (fun r h => (free_of_stores h).enters size) fun _ _ => trivial) fun key => ?_
  refine Task.Uses.lift_bind (uses_request hpublished) fun _ => ?_
  exact metadata_enters publication (.s3 key) hsize

/-- The requests of the publication of a file. -/
theorem publishToDisk_enters (temp : Path) (publication : BlobPublication) (hsize : publication.size = size) :
    (publishToDisk cfg temp publication).run.Uses (Enters size) := by
  have hfs : ∀ r : FsReq, Enters size (.fs r) := fun r => (free_fs r).enters size
  have hpublished : Enters size (.intoPublished temp) := enters_of_notes trivial
  refine Task.Uses.run_bind (p := ofResult _) trivial fun finalPath => ?_
  refine Task.Uses.run_bind (uses_orErr (uses_request (hfs _))) fun _ => ?_
  refine Task.Uses.run_bind (uses_orErr (uses_request (hfs _))) fun present => ?_
  have hrest : ((do
      orIoErr (fun error => s!"Failed to publish {display temp} to {display finalPath}: {error.message}")
        (fs (.rename temp finalPath))
      request (.intoPublished temp)
      let metadata ← publication.metadata (.localFile finalPath)
      publishMetadata cfg publication.sha256 metadata : AsyncResult StoredBlob)).run.Uses (Enters size) := by
    refine Task.Uses.run_bind (uses_orErr (uses_request (hfs _))) fun _ => ?_
    refine Task.Uses.lift_bind (uses_request hpublished) fun _ => ?_
    exact metadata_enters publication (.localFile finalPath) hsize
  cases present with
  | false => exact hrest
  | true =>
    refine Task.Uses.run_bind ((removeLocalFile_uses finalPath).mono (fun r h => ?_) fun _ _ => trivial) fun _ => hrest
    exact (free_of_disposes h).enters size

/-- The requests of the guarded part of a publication. -/
theorem publishLocked_enters (temp : Path) (publication : BlobPublication) (hsize : publication.size = size) :
    (publishLocked cfg temp publication).run.Uses (Enters size) := by
  have hget : Enters size (.index (.get publication.sha256)) :=
    (free_of_inspects (r := .index (.get publication.sha256)) trivial).enters size
  refine Task.Uses.run_bind
    ((ensureNotQuarantined_uses ..).mono (fun r h => (free_of_inspects h).enters size) fun _ _ => trivial) fun _ => ?_
  have hstore : ((if publication.origin = .upload ∧ cfg.nativeS3 = true then publishToS3 cfg temp publication
      else publishToDisk cfg temp publication : AsyncResult StoredBlob)).run.Uses (Enters size) := by
    split
    · exact publishToS3_enters temp publication hsize
    · exact publishToDisk_enters temp publication hsize
  refine Task.Uses.lift_bind (uses_request hget) fun existing => ?_
  cases existing with
  | none => exact hstore
  | some existing =>
    cases hk : keepsIncumbent publication existing with
    | true => simp only [hk, if_true]; exact trivial
    | false => simp only [hk]; exact hstore

/-- The requests of a publication. -/
theorem publishBlob_enters (temp : Path) (publication : BlobPublication) (hsize : publication.size = size) :
    (publishBlob cfg temp publication).run.Issues (Enters size) := by
  have hdrop : Enters size (.dropTemp temp) := enters_of_notes trivial
  refine Task.Issues.lift_bind (p := ExceptT.run _) ?_ fun x => ⟨hdrop, fun _ _ => rfl⟩
  refine Task.Issues.run_bind (p := ofResult _) rfl fun _ => ?_
  exact (publishLocked_enters temp publication hsize).issues_withLock

/-! ## Uploads and mirrors -/

/-- Creating the temporary directory is free. -/
theorem ensureTempDir_free : (ensureTempDir cfg).run.Uses Free :=
  uses_orErr (uses_request (free_fs _))

/-- The walk over chunks ends after their bytes. -/
theorem sum_of_coverage {chunks : List ChunkInfo} {start n : Nat} (h : coverage chunks start = .upTo n) :
    n = start + (chunks.map (·.length)).sum := by
  induction chunks generalizing start with
  | nil =>
    cases h
    exact (Nat.add_zero _).symm
  | cons chunk chunks ih =>
    unfold coverage at h
    split at h
    · cases h
    · cases hadd : checkedAdd start chunk.length with
      | none => simp only [hadd] at h; cases h
      | some next =>
        simp only [hadd] at h
        rw [ih h, (checkedAdd_eq_some.1 hadd).1, List.map_cons, List.sum_cons, Nat.add_assoc]

/-- Discarding chunk files is free. -/
theorem discardChunkFiles_free (chunks : List ChunkInfo) : (discardChunkFiles chunks).Uses Free := by
  induction chunks with
  | nil => exact trivial
  | cons chunk chunks ih => exact Task.Uses.bind (uses_request (free_fs _)) fun _ => ih

/-- A reconstruction that succeeds has the size of the upload. -/
theorem reconstructInto_ends (libs : Libs) (chunks : List ChunkInfo) (uploadLength : Nat) (expectedSha256 : Str) (temp : Path) :
    (reconstructInto libs chunks uploadLength expectedSha256 temp).run.Ends fun x => ∀ n, x = .ok n → n = uploadLength := by
  unfold reconstructInto
  refine Task.Ends.run_bind (Task.ends_trivial _) (fun _ _ _ h => by cases h) fun target _ => ?_
  refine Task.Ends.lift_bind_of (R := fun x => ∀ n, x = .ok n → n = uploadLength) ?_ fun x hx =>
    Task.Ends.lift_bind fun _ => Task.ends_ret hx
  refine Task.Ends.run_bind (p := copyChunks _ _ []) (Task.ends_trivial _) (fun _ _ _ h => by cases h) fun written _ => ?_
  split
  · exact Task.ends_ret fun _ h => by cases h
  rename_i hmatches
  refine Task.Ends.run_bind (Task.ends_trivial _) (fun _ _ _ h => by cases h) fun _ _ => Task.ends_ret ?_
  rintro n ⟨⟩
  exact not_not.1 fun h => hmatches (.inl h)

/-- A reconstruction under a temporary blob that succeeds has the size of the upload. -/
theorem withTemp_ends {R : α → Prop} {temp : Path} {work : AsyncResult α} (hw : work.run.Ends fun x => ∀ a, x = .ok a → R a) :
    (withTemp temp work).run.Ends fun x => ∀ a, x = .ok a → R a := by
  refine Task.Ends.lift_bind_of hw fun x hx => ?_
  cases x with
  | ok a => exact Task.ends_ret hx
  | error e => exact Task.Ends.lift_bind fun _ => Task.ends_ret fun _ h => by cases h

/-- The requests of work whose failure does not end a task, followed by more. -/
theorem issues_attempt_bind {P : Req → Prop} {work : AsyncResult α} {f : AppResult α → AsyncResult β} (hw : work.run.Issues P)
    (hf : ∀ x, (f x).run.Issues P) : (attempt work >>= f).run.Issues P :=
  Task.Issues.lift_bind (p := work.run) hw hf

/-- The requests of a reconstruction. -/
theorem reconstructBlob_enters {upload : ChunkUpload} (sha256 : Str) (hsum : (upload.chunks.map (·.length)).sum = size) :
    (reconstructBlob cfg upload sha256).run.Issues (Enters size) := by
  have hfree : ∀ {r : Req}, Free r → Enters size r := fun h => h.enters size
  have hreads : ∀ r : Req, r.inspects → Enters size r := fun _ h => hfree (free_of_inspects h)
  have hdiscard : ∀ (chunks : List ChunkInfo) (x : AppResult FileMetadata),
      (((do discardChunkFiles chunks; ofResult x) : AsyncResult FileMetadata)).run.Issues (Enters size) := fun chunks x =>
    Task.Issues.lift_bind ((discardChunkFiles_free chunks).issues fun _ => hfree) fun _ => rfl
  unfold reconstructBlob
  dsimp only
  cases hcoverage : coverage (sortChunks upload.chunks) 0 with
  | broken => exact hdiscard _ (.error _)
  | overflow => exact rfl
  | upTo n =>
    dsimp only
    split
    · exact hdiscard _ (.error _)
    rename_i hlength
    have hsize : upload.uploadLength = size := by
      rw [← hsum, ← ((perm_sortChunks upload.chunks).map _).sum_eq, ← not_not.1 hlength, sum_of_coverage hcoverage, Nat.zero_add]
    unfold reconstructCovered
    have hreserve : Enters size (.reserveTemp cfg.storage.temp "reconstruct".toList none) := enters_of_notes trivial
    refine Task.Issues.run_bind (ensureTempDir_free.issues fun _ => hfree) fun _ => ?_
    refine Task.Issues.lift_bind ((uses_request hreserve).issues fun _ => id) fun temp => ?_
    refine issues_attempt_bind ?_ (hdiscard (sortChunks upload.chunks))
    have hinto : (reconstructInto cfg.libs (sortChunks upload.chunks) upload.uploadLength sha256 temp).run.Uses (Enters size) :=
      reconstructInto_uses hreads (fun _ h => hfree (free_of_streams h)) _ _ _
    refine Task.Issues.run_bind_of ?_ (withTemp_ends (reconstructInto_ends cfg.libs _ upload.uploadLength sha256 temp)) fun total htotal => ?_
    · refine issues_attempt_bind (hinto.issues fun _ => id) fun x => ?_
      cases x with
      | ok _ => exact rfl
      | error _ => exact ⟨enters_of_notes trivial, fun _ _ => rfl⟩
    · exact Task.Issues.run_bind (publishBlob_enters temp _ ((htotal total rfl).trans hsize)) fun _ => rfl

/-- Undoing a completion is free. -/
theorem undoCompletion_free (key : ChunkUploadKey) (upload : ChunkUpload) (chunkPath : Path) :
    (undoCompletion key upload chunkPath).Uses Free := by
  refine Task.Uses.bind (uses_request (free_of_notes trivial)) fun restored => ?_
  cases restored with
  | true => exact Task.Uses.bind (uses_request (free_fs _)) fun _ => trivial
  | false => exact discardChunkFiles_free upload.chunks

/-- What follows the completion of an upload redeems what is owed, and publishes what was settled. -/
theorem finishUpload_obeys {headers : Headers} {body : Body} {chunk : ChunkHeaders} (key : ChunkUploadKey) (chunkPath : Path)
    (upload : ChunkUpload) (hchunk : readChunkHeaders cfg headers = .ok chunk) (hpast : Unredeemed past) :
    (finishUpload cfg headers key chunk chunkPath upload).run.Obeys (till cfg (.patch headers body)) (fun _ _ => True) past := by
  refine Task.Obeys.lift_bind (p := ExceptT.run _) (charge_obeys hpast fun tokenStr h => ⟨chunk, hchunk, h⟩) fun q x hcharge => ?_
  cases x with
  | error e =>
    refine Task.Obeys.lift_bind (R := fun _ _ => True) ?_ fun _ _ _ => trivial
    exact (obeys_free ((undoCompletion_free key upload chunkPath).issues fun _ => id)).mono fun _ _ _ => trivial
  | ok u =>
    dsimp only
    split
    · exact trivial
    split
    · exact trivial
    rename_i hsum
    refine Task.Obeys.run_bind (obeys_of_enters ?_ (reconstructBlob_enters chunk.sha256 (not_not.1 hsum)))
      (fun _ _ _ => trivial) fun _ _ _ => trivial
    rintro _ ⟨⟩ hpaid
    exact hcharge.2 hpaid rfl

variable {headers : Headers} {head : Bool} {filename : Str}

/-- More of the answers. -/
theorem Found.mono {q : List (Task.Event Req Resp)} {sha256 : Str} (h : Found past sha256 size) (hq : past <:+ q) : Found q sha256 size := by
  obtain ⟨m, hm, hsize⟩ | ⟨m, existing, hm, hsize⟩ | ⟨file, hm, hsize⟩ := h
  · exact .inl ⟨m, hq.subset hm, hsize⟩
  · exact .inr (.inl ⟨m, existing, hq.subset hm, hsize⟩)
  · exact .inr (.inr ⟨file, hq.subset hm, hsize⟩)

/-- What a download of bytes that cost something may answer: that the client has them, what an upstream server answered, or the bytes
after their price was settled. -/
def Delivers (cfg : Config) (headers : Headers) (filename : Str) (past : List (Task.Event Req Resp)) (resp : Response) : Prop :=
  ∃ fileHash, Serving.getSha256HashFromFilename filename = some fileHash ∧
    (Http.notModified headers (Http.blobEtag fileHash) = true ∧ resp = .bare 304 ∨
      ⟨.fetchFromUpstream filename, .ok resp⟩ ∈ past ∨ ∃ size, Found past fileHash size ∧ Settled past (price cfg size))

end

end Almond.Payments
