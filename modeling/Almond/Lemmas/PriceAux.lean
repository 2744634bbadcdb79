import Almond.Conc.Returns
import Almond.Preflight
import Almond.Lemmas.IntakeAux

/-! # Which errors ask for payment

A client is asked to pay in one place. What comes before it and after it may fail, but not with the error that asks for payment, whatever
the answers are. -/

namespace Almond

open Conc

variable {α β ε : Type} {P P' : AppError → Prop}

/-! ## The errors of a task -/

/-- The errors of a result satisfy `P`. -/
def Erring (P : AppError → Prop) (x : AppResult α) : Prop :=
  ∀ e, x = .error e → P e

/-- Whatever the answers are, the errors of a task satisfy `P`. -/
def Fails (P : AppError → Prop) (p : AsyncResult α) : Prop :=
  p.run.Ends (Erring P)

theorem erring_ok {a : α} : Erring P (.ok a : AppResult α) :=
  nofun

theorem erring_error {e : AppError} (h : P e) : Erring P (.error e : AppResult α) := by
  rintro _ ⟨⟩
  exact h

/-- The errors of a sequence are those of its parts. -/
theorem Erring.bind {x : AppResult α} {f : α → AppResult β} (hx : Erring P x) (hf : ∀ a, Erring P (f a)) : Erring P (x >>= f) := by
  cases x with
  | ok a => exact hf a
  | error e => exact erring_error (hx e rfl)

/-- An error that is reported in other words. -/
theorem erring_mapError {message : ε → AppError} {x : Except ε α} (h : ∀ e, P (message e)) : Erring P (x.mapError message) := by
  cases x with
  | ok a => exact erring_ok
  | error e => exact erring_error (h e)

theorem fails_pure {a : α} : Fails P (pure a) :=
  Task.ends_ret erring_ok

theorem fails_throw {e : AppError} (h : P e) : Fails P (throw e : AsyncResult α) :=
  Task.ends_ret (erring_error h)

theorem fails_ofResult {x : AppResult α} (h : Erring P x) : Fails P (ofResult x) :=
  Task.ends_ret h

theorem fails_orErr {message : ε → AppError} {p : Async (Except ε α)} (h : ∀ e, P (message e)) : Fails P (orErr message p) :=
  Task.Ends.bind (Task.ends_trivial p) fun _ _ => Task.ends_ret (erring_mapError h)

theorem fails_lift {p : Async α} : Fails P (liftM p) :=
  Task.Ends.bind (Task.ends_trivial p) fun _ _ => Task.ends_ret erring_ok

/-- The errors can be described more loosely. -/
theorem Fails.mono (hP : ∀ e, P e → P' e) {p : AsyncResult α} (hp : Fails P p) : Fails P' p :=
  Task.Ends.mono (fun _ hx e he => hP e (hx e he)) hp

/-- The errors of a sequence are those of its parts. -/
theorem Fails.bind {p : AsyncResult α} {f : α → AsyncResult β} (hp : Fails P p) (hf : ∀ a, Fails P (f a)) : Fails P (p >>= f) :=
  Task.Ends.run_bind hp (fun e he => erring_error (he e rfl)) fun a _ => hf a

/-- A request has no errors of its own. -/
theorem fails_lift_bind {p : Async α} {f : α → AsyncResult β} (hf : ∀ a, Fails P (f a)) : Fails P ((liftM p : AsyncResult α) >>= f) :=
  Task.Ends.lift_bind hf

/-- A task whose result is inspected, followed by more. -/
theorem Fails.attempt_bind {p : AsyncResult α} {f : AppResult α → AsyncResult β} (hp : Fails P p) (hf : ∀ x, Erring P x → Fails P' (f x)) :
    Fails P' (attempt p >>= f) :=
  Task.Ends.bind (R := fun x => ∃ y, x = .ok y ∧ Erring P y) (Task.Ends.bind hp fun y hy => Task.ends_ret ⟨y, rfl, hy⟩) fun _ hx => by
    obtain ⟨y, rfl, hy⟩ := hx
    exact hf y hy

/-- A task under a guard. -/
theorem Fails.guarded {sha256 : Str} {p : AsyncResult α} (hp : Fails P p) : Fails P (guarded sha256 p) :=
  Task.Ends.withLock hp

/-! ## Tasks that do not ask for payment -/

/-- An error does not ask for payment. -/
def Unbilled (e : AppError) : Prop :=
  ∀ amount unit mints, e ≠ .paymentRequired amount unit mints

/-- A result is no demand for payment. -/
abbrev Unasked (x : AppResult α) : Prop :=
  Erring Unbilled x

/-- A task does not ask for payment. -/
abbrev Gratis (p : AsyncResult α) : Prop :=
  Fails Unbilled p

namespace Auth

theorem unasked_parseAuthHeader (libs : Libs) (authHeader : Str) : Unasked (parseAuthHeader libs authHeader) := by
  unfold parseAuthHeader
  split
  · refine (erring_mapError fun _ => nofun).bind fun bytes => (erring_mapError fun _ => nofun).bind fun json => ?_
    exact erring_mapError fun _ => nofun
  · exact erring_error nofun

theorem unasked_verifyEvent (libs : Libs) (now : Nat) (event : Event) : Unasked (verifyEvent libs now event) := by
  unfold verifyEvent
  refine (erring_mapError fun _ => nofun).bind fun _ => ?_
  dsimp only
  split
  · exact erring_error nofun
  split
  · exact erring_error nofun
  split
  · exact erring_error nofun
  split
  · exact erring_error nofun
  · exact erring_ok

theorem unasked_checkServerTags (tags : List Tag) : Unasked (checkServerTags tags) := by
  fun_induction checkServerTags tags with
  | case1 => exact erring_ok
  | case2 => exact erring_error nofun
  | case3 _ _ _ _ _ ih => exact ih
  | case4 => exact erring_error nofun

theorem unasked_validateServerTags (event : Event) (publicUrl : Str) : Unasked (validateServerTags event publicUrl) := by
  unfold validateServerTags
  dsimp only
  split
  · exact erring_ok
  refine (unasked_checkServerTags _).bind fun _ => ?_
  split
  · exact erring_ok
  · exact erring_error nofun

/-- The policy for events does not ask for payment. -/
theorem unasked_verifyEventWithPolicy (cfg : Config) (now : Nat) (event : Event) : Unasked (verifyEventWithPolicy cfg now event) := by
  unfold verifyEventWithPolicy
  refine (unasked_verifyEvent _ _ _).bind fun _ => ?_
  dsimp only
  split
  · split
    · exact erring_error nofun
    split
    · exact erring_error nofun
    · exact (unasked_validateServerTags _ _).bind fun _ => erring_ok
  · exact erring_error nofun

theorem unasked_validateEventKind (libs : Libs) (event : Event) (expectedKind : Nat) :
    Unasked (validateEventKind libs event expectedKind) := by
  unfold validateEventKind
  split
  · exact erring_ok
  · exact erring_error nofun

theorem unasked_validateHashAuth (event : Event) (verb : String) (sha256 : Str) (noTag noMatch : String) :
    Unasked (validateHashAuth event verb sha256 noTag noMatch) := by
  have hverb : Unasked (validateTTag event verb) := by
    unfold validateTTag
    split
    · exact erring_ok
    · exact erring_error nofun
  unfold validateHashAuth
  refine hverb.bind fun _ => ?_
  dsimp only
  split
  · exact erring_error nofun
  split
  · exact erring_ok
  · exact erring_error nofun

/-- The check of a key does not ask for payment. -/
theorem gratis_checkPubkeyAuthorization (cfg : Config) (event : Event) (mode : AuthMode) : Gratis (checkPubkeyAuthorization cfg event mode) := by
  cases mode with
  | strict =>
    simp only [checkPubkeyAuthorization]
    split
    · exact fails_throw nofun
    split
    · exact fails_pure
    · exact fails_throw nofun
  | unrestricted => exact fails_pure
  | wotOnly =>
    simp only [checkPubkeyAuthorization]
    split
    · exact fails_pure
    refine fails_lift_bind fun trusted => ?_
    split
    · exact fails_pure
    · exact fails_throw nofun
  | dvmOnly =>
    simp only [checkPubkeyAuthorization]
    split
    · exact fails_pure
    refine fails_lift_bind fun known => ?_
    split
    · exact fails_pure
    refine fails_lift_bind fun announced => ?_
    split
    · exact fails_lift
    · exact fails_throw nofun

end Auth

namespace Authorization

open Auth

/-- Authentication does not ask for payment. -/
theorem gratis_authorize (cfg : Config) (headers : Headers) (operation : Operation) : Gratis (authorize cfg headers operation) := by
  have hmode : Unasked (modeOf cfg operation) := by
    unfold modeOf
    split
    · exact erring_ok
    split
    · exact erring_ok
    · exact erring_error nofun
  unfold authorize
  refine (fails_ofResult hmode).bind fun mode => ?_
  split
  · refine (fails_ofResult (unasked_parseAuthHeader _ _)).bind fun event => fails_lift_bind fun now => ?_
    refine (fails_ofResult (unasked_verifyEventWithPolicy _ _ _)).bind fun expiration => ?_
    refine (fails_ofResult (unasked_validateEventKind _ _ _)).bind fun _ => ?_
    exact (gratis_checkPubkeyAuthorization _ _ _).bind fun _ => fails_pure
  · exact fails_throw nofun

/-- Binding an authorization does not ask for payment. -/
theorem gratis_bind (authorized : Authorized) (sha256 : Str) : Gratis (authorized.bind sha256) := by
  have hvalid : Unasked (authorized.validate sha256) := by
    unfold Authorized.validate
    split
    · exact unasked_validateHashAuth _ _ _ _ _
    · exact unasked_validateHashAuth _ _ _ _ _
    · exact unasked_validateHashAuth _ _ _ _ _
    · exact unasked_validateHashAuth _ _ _ _ _
    · exact erring_error nofun
  unfold Authorized.bind
  refine (fails_ofResult hvalid).bind fun _ => ?_
  split
  · unfold consumeSingleUse
    refine fails_lift_bind fun now => fails_lift_bind fun seen => ?_
    split
    · exact fails_throw nofun
    · exact fails_pure
  · exact fails_pure

end Authorization

namespace FileStorage

open NativeStorage

theorem unasked_validateSha256Format (sha256 : Str) : Unasked (validateSha256Format sha256) := by
  unfold validateSha256Format
  split
  · exact erring_ok
  · exact erring_error nofun

theorem unasked_requireHash (sha256 : Str) : Unasked (BlobName.requireHash sha256) := by
  unfold BlobName.requireHash
  split
  · exact erring_ok
  · exact erring_error nofun

theorem unasked_fanOut (sha256 : Str) : Unasked (BlobName.fanOut sha256) :=
  (unasked_requireHash sha256).bind fun _ => erring_ok

theorem unasked_name (sha256 : Str) (expiration : Option Nat) (extension : Option Str) : Unasked (BlobName.name sha256 expiration extension) :=
  (unasked_requireHash sha256).bind fun _ => erring_ok

theorem gratis_orIoErr {message : IoError → String} {p : Async (Except IoError α)} : Gratis (orIoErr message p) :=
  fails_orErr fun _ => nofun

theorem gratis_orS3Err {message : String} {p : Async (Except String α)} : Gratis (orS3Err message p) :=
  fails_orErr fun _ => nofun

/-- The check of the capacity does not ask for payment. -/
theorem gratis_ensureStorageCapacity (cfg : Config) (bytes : Nat) : Gratis (ensureStorageCapacity cfg bytes) := by
  unfold ensureStorageCapacity
  split
  · exact fails_throw nofun
  refine fails_lift_bind fun stats => ?_
  split
  · exact fails_throw nofun
  refine gratis_orIoErr.bind fun available => ?_
  split
  · exact fails_throw nofun
  · exact fails_pure

theorem gratis_inspectEntries (quarantine : Path) (sha256 : Str) (names : List Str) : Gratis (inspectEntries quarantine sha256 names) := by
  induction names with
  | nil => exact gratis_orIoErr
  | cons name names ih =>
    unfold inspectEntries
    refine gratis_orIoErr.bind fun _ => ?_
    split
    · exact fails_throw nofun
    · exact ih

/-- The check of the quarantine does not ask for payment. -/
theorem gratis_ensureNotQuarantined (layout : StorageLayout) (sha256 : Str) : Gratis (ensureNotQuarantined layout sha256) := by
  unfold ensureNotQuarantined
  refine (fails_ofResult (unasked_validateSha256Format sha256)).bind fun _ => fails_lift_bind fun listed => ?_
  split
  · exact gratis_inspectEntries _ _ _
  split
  · exact fails_pure
  · exact fails_throw nofun

theorem gratis_removeLocalFile (path : Path) : Gratis (removeLocalFile path) := by
  unfold removeLocalFile
  refine fails_lift_bind fun removed => ?_
  split
  · exact fails_pure
  split
  · exact fails_pure
  · exact fails_throw nofun

theorem gratis_removePhysicalFile (cfg : Config) (metadata : FileMetadata) : Gratis (removePhysicalFile cfg metadata) := by
  unfold removePhysicalFile
  split
  · exact gratis_removeLocalFile _
  split
  · exact gratis_orS3Err
  · exact fails_throw nofun

theorem gratis_publishMetadata (cfg : Config) (sha256 : Str) (metadata : FileMetadata) : Gratis (publishMetadata cfg sha256 metadata) := by
  unfold publishMetadata
  refine fails_lift_bind fun outcome => ?_
  split
  · refine fails_lift_bind fun published => ?_
    split
    · exact fails_throw nofun
    split
    · refine (gratis_removePhysicalFile cfg _).attempt_bind fun removed _ => ?_
      split
      · exact fails_lift_bind fun _ => fails_pure
      · exact fails_pure
    · exact fails_pure
  · exact fails_pure

theorem gratis_publishToS3 (cfg : Config) (temp : Path) (publication : BlobPublication) : Gratis (publishToS3 cfg temp publication) := by
  have havailable : Gratis ensureAvailable := by
    unfold ensureAvailable
    refine fails_lift_bind fun status => ?_
    split
    · exact fails_pure
    · exact fails_throw nofun
  have hput : ∀ sha256 extension expiration, Gratis (put temp sha256 extension expiration) := by
    intro sha256 extension expiration
    refine (fails_ofResult ((unasked_fanOut _).bind fun _ => (unasked_name _ _ _).bind fun _ => erring_ok)).bind fun key => ?_
    exact gratis_orIoErr.bind fun _ => gratis_orS3Err.bind fun _ => gratis_orIoErr.bind fun _ => fails_pure
  unfold publishToS3
  refine havailable.bind fun _ => (hput _ _ _).bind fun key => fails_lift_bind fun _ => fails_lift_bind fun metadata => ?_
  exact gratis_publishMetadata _ _ _

theorem gratis_publishToDisk (cfg : Config) (temp : Path) (publication : BlobPublication) : Gratis (publishToDisk cfg temp publication) := by
  unfold publishToDisk
  refine (fails_ofResult ((unasked_fanOut _).bind fun _ => (unasked_name _ _ _).bind fun _ => erring_ok)).bind fun path => ?_
  refine Fails.bind (p := createParentDirs path) gratis_orIoErr fun _ => gratis_orIoErr.bind fun present => ?_
  have hrest : Gratis (do
      orIoErr (fun error => s!"Failed to publish {display temp} to {display path}: {error.message}") (fs (.rename temp path))
      request (.intoPublished temp)
      let metadata ← publication.metadata (.localFile path)
      publishMetadata cfg publication.sha256 metadata) :=
    gratis_orIoErr.bind fun _ => fails_lift_bind fun _ => fails_lift_bind fun metadata => gratis_publishMetadata _ _ _
  split
  · exact (gratis_removeLocalFile path).bind fun _ => hrest
  · exact hrest

/-- The publication of a blob does not ask for payment. -/
theorem gratis_publishBlob (cfg : Config) (temp : Path) (publication : BlobPublication) : Gratis (publishBlob cfg temp publication) := by
  have hstore : Gratis (if publication.origin = .upload ∧ cfg.nativeS3 = true then publishToS3 cfg temp publication
      else publishToDisk cfg temp publication) := by
    split
    · exact gratis_publishToS3 _ _ _
    · exact gratis_publishToDisk _ _ _
  have hlocked : Gratis (publishLocked cfg temp publication) := by
    unfold publishLocked
    refine (gratis_ensureNotQuarantined _ _).bind fun _ => fails_lift_bind fun existing => ?_
    split
    · split
      · exact fails_pure
      · exact hstore
    · exact hstore
  unfold publishBlob
  refine Fails.attempt_bind (P := Unbilled) ?_ fun stored hstored => fails_lift_bind fun _ => fails_ofResult hstored
  exact (fails_ofResult (unasked_validateSha256Format _)).bind fun _ => hlocked.guarded

end FileStorage

namespace Upload

theorem gratis_writePieces (ino : Ino) (maxBytes : Nat) (pieces : List Bytes) (received : Bytes) :
    Gratis (writePieces ino maxBytes pieces received) := by
  induction pieces generalizing received with
  | nil => exact fails_pure
  | cons piece rest ih =>
    unfold writePieces
    split
    · exact fails_throw nofun
    split
    · exact fails_throw nofun
    · exact FileStorage.gratis_orIoErr.bind fun _ => ih _

theorem gratis_writeFrames (ino : Ino) (maxBytes : Nat) (body : Body) (received : Bytes) : Gratis (writeFrames ino maxBytes body received) := by
  induction body generalizing received with
  | nil => exact fails_lift_bind fun _ => fails_pure
  | cons frame frames ih =>
    unfold writeFrames
    refine fails_lift_bind fun _ => ?_
    split
    · exact fails_throw nofun
    · exact (gratis_writePieces _ _ _ _).bind fun received => ih received

/-- The receipt of a body does not ask for payment. -/
theorem gratis_streamToTempFile (libs : Libs) (body : Body) (temp : Path) (maxBytes : Nat) :
    Gratis (streamToTempFile libs body temp maxBytes) := by
  unfold streamToTempFile
  refine FileStorage.gratis_orIoErr.bind fun ino => ?_
  refine Fails.attempt_bind (P := Unbilled) ?_ fun written hwritten => fails_lift_bind fun _ => fails_ofResult hwritten
  exact (gratis_writeFrames _ _ _ _).bind fun received => FileStorage.gratis_orIoErr.bind fun _ => fails_pure

/-- The pieces that are written are appended, whatever the answers are. -/
theorem ends_writePieces (ino : Ino) (maxBytes : Nat) (pieces : List Bytes) (received : Bytes) :
    (writePieces ino maxBytes pieces received).run.Ends fun x => ∀ w, x = .ok w → w = received ++ pieces.flatten := by
  induction pieces generalizing received with
  | nil =>
    refine Task.ends_ret ?_
    rintro w ⟨⟩
    exact (List.append_nil _).symm
  | cons piece rest ih =>
    unfold writePieces
    split
    · exact Task.ends_ret nofun
    split
    · exact Task.ends_ret nofun
    · refine Task.Ends.run_bind (Task.ends_trivial _) (fun _ _ => nofun) fun _ _ => (ih _).mono fun x hx w hw => ?_
      rw [hx w hw, List.flatten_cons, List.append_assoc]

/-- The frames that are written are appended, whatever the answers are. -/
theorem ends_writeFrames (ino : Ino) (maxBytes : Nat) (body : Body) (received : Bytes) :
    (writeFrames ino maxBytes body received).run.Ends fun x => ∀ w, x = .ok w → w = received ++ receivedBytes body := by
  induction body generalizing received with
  | nil =>
    refine Task.Ends.lift_bind fun _ => Task.ends_ret ?_
    rintro w ⟨⟩
    exact (List.append_nil _).symm
  | cons frame frames ih =>
    unfold writeFrames
    refine Task.Ends.lift_bind fun _ => ?_
    cases frame with
    | error _ => exact Task.ends_ret nofun
    | ok data =>
      refine Task.Ends.run_bind (ends_writePieces _ _ _ _) (fun _ _ => nofun) fun written hwritten => ?_
      refine (ih written).mono fun x hx w hw => ?_
      have hpieces : (pieces chunkSize data.length data).flatten = data := flatten_pieces (by decide) _ data (Nat.le_refl _)
      rw [hx w hw, hwritten written rfl, hpieces, receivedBytes_ok, List.append_assoc]

/-- What was streamed is the body. -/
theorem ends_streamToTempFile (libs : Libs) (body : Body) (temp : Path) (maxBytes : Nat) :
    (streamToTempFile libs body temp maxBytes).run.Ends fun x => ∀ r, x = .ok r →
      r = (libs.sha256Hex (receivedBytes body), (receivedBytes body).length) := by
  unfold streamToTempFile
  refine Task.Ends.run_bind (Task.ends_trivial _) (fun _ _ => nofun) fun ino _ => ?_
  refine Task.Ends.run_bind (R := fun x => ∀ y r, x = .ok y → y = .ok r → r = (libs.sha256Hex (receivedBytes body), (receivedBytes body).length))
    ?_ (fun _ _ => nofun) fun written hwritten => Task.Ends.lift_bind fun _ => Task.ends_ret fun r hr => hwritten written r rfl hr
  refine Task.Ends.bind (R := fun x => ∀ r, x = .ok r → r = (libs.sha256Hex (receivedBytes body), (receivedBytes body).length)) ?_
    fun x hx => Task.ends_ret ?_
  · refine Task.Ends.run_bind (ends_writeFrames _ _ _ _) (fun _ _ => nofun) fun received hreceived => ?_
    refine Task.Ends.run_bind (Task.ends_trivial _) (fun _ _ => nofun) fun _ _ => Task.ends_ret ?_
    rintro r ⟨⟩
    obtain rfl : received = receivedBytes body := hreceived received rfl
    rfl
  · rintro _ r ⟨⟩ hr
    exact hx r hr

end Upload

/-! ## The demand for payment -/

namespace Cashu

variable {cfg : Config} {headers : Headers} {operation : PaidOperation} {size : Nat}

/-- An error that demands payment for an operation demands what is quoted, and the operation is paid. -/
def Demands (cfg : Config) (operation : PaidOperation) (size : Nat) (e : AppError) : Prop :=
  ∀ amount unit mints, e = .paymentRequired amount unit mints →
    operation.isPaid cfg = true ∧ amount = (quote cfg.cashuPricePerMb cfg.cashuAcceptedMints size).amountSats

/-- What demands no payment does not demand a wrong one. -/
theorem demands_of_unbilled {e : AppError} (h : Unbilled e) : Demands cfg operation size e := by
  intro amount unit mints he
  exact absurd he (h amount unit mints)

theorem unasked_parseToken (libs : Libs) (tokenStr : Str) : Unasked (parseToken libs tokenStr) := by
  unfold parseToken
  dsimp only
  split
  · exact erring_error nofun
  · exact erring_mapError fun _ => nofun

theorem unasked_verifyTokenBasics (token : Token) (required : Nat) (mints : List Str) : Unasked (verifyTokenBasics token required mints) := by
  unfold verifyTokenBasics
  refine (erring_mapError fun _ => nofun).bind fun mintUrl => ?_
  dsimp only
  split
  · refine (erring_mapError fun _ => nofun).bind fun tokenSats => ?_
    split
    · exact erring_error nofun
    · exact erring_ok
  · exact erring_error nofun

/-- What a charge demands is the quote. -/
theorem fails_charge (cfg : Config) (headers : Headers) (operation : PaidOperation) (size : Nat) :
    Fails (Demands cfg operation size) (charge cfg headers operation size) := by
  unfold charge
  split
  · exact fails_pure
  rename_i hpaid
  have hdemand : Demands cfg operation size (quote cfg.cashuPricePerMb cfg.cashuAcceptedMints size).paymentRequired := by
    rintro amount unit mints ⟨⟩
    exact ⟨by simpa using hpaid, rfl⟩
  dsimp only
  split
  · exact fails_throw hdemand
  · unfold settle
    refine ((fails_ofResult (unasked_parseToken _ _)).mono fun _ => demands_of_unbilled).bind fun token => ?_
    refine ((fails_ofResult (unasked_verifyTokenBasics _ _ _)).mono fun _ => demands_of_unbilled).bind fun _ => ?_
    dsimp only
    split
    · refine Fails.bind (p := receiveToken _) (fails_orErr fun _ => demands_of_unbilled nofun) fun received => ?_
      split
      · exact fails_throw hdemand
      · exact fails_pure
    · exact fails_throw (demands_of_unbilled nofun)

/-- The mint settled an amount. -/
def Settled (events : List (Task.Event Req Resp)) (amount : Nat) : Prop :=
  ∃ token received, ⟨.receiveToken token, .ok received⟩ ∈ events ∧ amount ≤ received

/-- More of the answers. -/
theorem Settled.mono {events events' : List (Task.Event Req Resp)} {amount : Nat} (h : Settled events amount) (hsub : events ⊆ events') :
    Settled events' amount := by
  obtain ⟨token, received, hmem, hle⟩ := h
  exact ⟨token, received, hsub hmem, hle⟩

/-- A charge for a paid operation that succeeds was settled with at least the quote. -/
theorem settled_of_charge (hpaid : operation.isPaid cfg = true) {events : List (Task.Event Req Resp)} {u : Unit}
    (h : (charge cfg headers operation size).run.Returns events (.ok u)) :
    Settled events (quote cfg.cashuPricePerMb cfg.cashuAcceptedMints size).amountSats := by
  unfold charge at h
  rw [hpaid] at h
  simp only [Bool.not_true, Bool.false_eq_true, if_false] at h
  split at h
  · exact nomatch h.2
  · rename_i tokenStr _
    unfold settle at h
    obtain ⟨token, events₁, hsub₁, h⟩ := h.of_bind_right
    obtain ⟨_, events₂, hsub₂, h⟩ := h.of_bind_right
    dsimp only at h
    split at h
    · obtain ⟨before, after, received, rfl, hreceived, hafter⟩ := Task.returns_run_bind_ok_iff.1 h
      -- The wallet is asked once, and its answer is not below the quote.
      obtain ⟨x, rest, rfl, rfl, hx⟩ := hreceived
      obtain rfl : x = .ok received := by
        cases x with
        | ok y => exact congrArg _ (Except.ok.inj hx)
        | error e => nomatch hx
      refine ⟨tokenStr, received, hsub₁ (hsub₂ (List.mem_append_left after List.mem_cons_self)), ?_⟩
      split at hafter
      · exact nomatch hafter.2
      · rename_i henough
        exact Nat.le_of_not_lt henough
    · exact nomatch h.2

end Cashu

namespace Handlers

open Authorization Cashu FileStorage

variable {cfg : Config}

/-- Work with a temporary blob that succeeds. -/
theorem returns_of_withTemp {temp : Path} {work : AsyncResult α} {events : List (Task.Event Req Resp)} {a : α}
    (h : (withTemp temp work).run.Returns events (.ok a)) : ∃ before, before ⊆ events ∧ work.run.Returns before (.ok a) := by
  obtain ⟨before, after, x, rfl, hx, h⟩ := Task.returns_run_bind_ok_iff.1 h
  obtain ⟨before', after', y, rfl, hy, rfl, hxy⟩ := Task.returns_bind_iff.1 hx
  obtain rfl : y = x := Except.ok.inj hxy
  cases y with
  | ok a' =>
    obtain ⟨rfl, ha⟩ := h
    obtain rfl : a' = a := Except.ok.inj ha
    exact ⟨before', by simp, hy⟩
  | error e =>
    obtain ⟨_, _, _, h⟩ := Task.Returns.of_bind_right h
    exact nomatch h

/-- Work with a temporary blob can fail as the work can. -/
theorem exists_returns_withTemp {temp : Path} {work : AsyncResult α} {e : AppError} (h : ∃ events, work.run.Returns events (.error e)) :
    ∃ events, (withTemp temp work).run.Returns events (.error e) := by
  obtain ⟨events, h⟩ := h
  have hattempt : (attempt work).run.Returns (events ++ []) (.ok (.error e)) := Task.returns_bind_iff.2 ⟨events, [], .error e, rfl, h, rfl, rfl⟩
  exact Task.exists_returns_bind_ok ⟨_, hattempt⟩ ⟨[⟨.dropTemp temp, ()⟩], (), [], rfl, rfl, rfl⟩

/-- Work with a temporary blob fails as the work does. -/
theorem Fails.withTemp {P : AppError → Prop} {temp : Path} {work : AsyncResult α} (h : Fails P work) : Fails P (withTemp temp work) := by
  unfold Handlers.withTemp
  refine h.attempt_bind fun x hx => ?_
  cases x with
  | ok a => exact fails_pure
  | error e => exact fails_lift_bind fun _ => fails_throw (hx e rfl)

/-- What the receipt of an upload demands is the quote for the bytes of its body. -/
theorem fails_receiveUpload (cfg : Config) (headers : Headers) (body : Body) (authorized : Authorized) (declaredSha256 : Str) (temp : Path) :
    Fails (Demands cfg .upload (receivedBytes body).length) (receiveUpload cfg headers body authorized declaredSha256 temp) := by
  unfold receiveUpload
  refine Task.Ends.run_bind ((Upload.ends_streamToTempFile cfg.libs body temp _).and (Upload.gratis_streamToTempFile _ _ _ _)) ?_ ?_
  · intro e he
    exact erring_error (demands_of_unbilled (he.2 e rfl))
  rintro ⟨sha256, totalBytes⟩ ⟨hsize, -⟩
  obtain rfl : totalBytes = (receivedBytes body).length := congrArg Prod.snd (hsize _ rfl)
  have hmatches : Unasked (ensureUploadHashMatches declaredSha256 sha256) := by
    unfold ensureUploadHashMatches
    split
    · exact erring_ok
    · exact erring_error nofun
  refine Fails.bind ((fails_ofResult hmatches).mono fun _ => demands_of_unbilled) fun _ => ?_
  refine Fails.bind ((gratis_bind _ _).mono fun _ => demands_of_unbilled) fun _ => ?_
  refine Fails.bind ((gratis_ensureNotQuarantined _ _).mono fun _ => demands_of_unbilled) fun _ => ?_
  exact (fails_charge _ _ _ _).bind fun _ => fails_pure

/-- What an upload demands is the quote for the bytes of its body. -/
theorem fails_uploadFile (cfg : Config) (headers : Headers) (body : Body) :
    Fails (Demands cfg .upload (receivedBytes body).length) (uploadFile cfg headers body) := by
  have hdeclared : Unasked (extractDeclaredUploadHash headers) := by
    unfold extractDeclaredUploadHash
    split
    · split
      · exact (unasked_validateSha256Format _).bind fun _ => erring_ok
      · exact erring_error nofun
    · exact erring_error nofun
  have hexpiration : Gratis (extractExpiration headers) := by
    refine fails_lift_bind fun now => Fails.bind (fails_ofResult ?_) fun expiration => fails_ofResult ?_
    · unfold Http.clientExpiration
      split
      · exact erring_ok
      split
      · exact erring_ok
      · exact erring_error nofun
    · unfold Http.resolveExpiration
      split
      · exact erring_error nofun
      · exact erring_ok
  unfold uploadFile
  refine ((gratis_authorize _ _ _).mono fun _ => demands_of_unbilled).bind fun authorized => ?_
  refine ((fails_ofResult hdeclared).mono fun _ => demands_of_unbilled).bind fun declaredSha256 => ?_
  refine ((fails_ofResult (Auth.unasked_validateHashAuth _ _ _ _ _)).mono fun _ => demands_of_unbilled).bind fun _ => ?_
  refine (hexpiration.mono fun _ => demands_of_unbilled).bind fun expiration => ?_
  refine ((gratis_ensureStorageCapacity _ _).mono fun _ => demands_of_unbilled).bind fun _ => ?_
  refine Fails.bind (p := ensureTempDir cfg) (gratis_orIoErr.mono fun _ => demands_of_unbilled) fun _ => fails_lift_bind fun temp => ?_
  refine (Fails.withTemp (fails_receiveUpload _ _ _ _ _ _)).bind fun received => ?_
  exact ((gratis_publishBlob _ _ _).mono fun _ => demands_of_unbilled).bind fun stored => fails_pure

/-- An upload that is accepted was settled with at least the quote for the bytes of its body. -/
theorem settled_of_uploadFile (hpaid : cfg.featurePaidUpload = true) {headers : Headers} {body : Body}
    {events : List (Task.Event Req Resp)} {r : Response} (h : (uploadFile cfg headers body).run.Returns events (.ok r)) :
    Settled events (quote cfg.cashuPricePerMb cfg.cashuAcceptedMints (receivedBytes body).length).amountSats := by
  unfold uploadFile at h
  obtain ⟨authorized, e₁, hsub₁, h⟩ := h.of_bind_right
  obtain ⟨declaredSha256, e₂, hsub₂, h⟩ := h.of_bind_right
  obtain ⟨_, e₃, hsub₃, h⟩ := h.of_bind_right
  obtain ⟨expiration, e₄, hsub₄, h⟩ := h.of_bind_right
  obtain ⟨_, e₅, hsub₅, h⟩ := h.of_bind_right
  obtain ⟨_, e₆, hsub₆, h⟩ := h.of_bind_right
  obtain ⟨temp, e₇, hsub₇, h⟩ := h.of_bind_right
  obtain ⟨received, e₈, hsub₈, h⟩ := h.of_bind_left
  obtain ⟨e₉, hsub₉, h⟩ := returns_of_withTemp h
  unfold receiveUpload at h
  obtain ⟨before, after, ⟨sha256, totalBytes⟩, rfl, hstream, h⟩ := Task.returns_run_bind_ok_iff.1 h
  obtain rfl : totalBytes = (receivedBytes body).length := congrArg Prod.snd (Upload.ends_streamToTempFile _ _ _ _ _ _ hstream _ rfl)
  obtain ⟨_, e₁₀, hsub₁₀, h⟩ := Task.Returns.of_bind_right h
  obtain ⟨_, e₁₁, hsub₁₁, h⟩ := h.of_bind_right
  obtain ⟨_, e₁₂, hsub₁₂, h⟩ := h.of_bind_right
  obtain ⟨_, e₁₃, hsub₁₃, h⟩ := h.of_bind_left
  have hsettled := @settled_of_charge cfg headers .upload _ hpaid _ _ h
  refine hsettled.mono fun event hevent => ?_
  have hafter : event ∈ before ++ after := List.mem_append_right before (hsub₁₀ (hsub₁₁ (hsub₁₂ (hsub₁₃ hevent))))
  exact hsub₁ (hsub₂ (hsub₃ (hsub₄ (hsub₅ (hsub₆ (hsub₇ (hsub₈ (hsub₉ hafter))))))))

end Handlers

end Almond
