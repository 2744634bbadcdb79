import Almond.Auth

/-! # Who may perform an operation -/

namespace Almond.Authorization

open Auth

/-- A verb a client can ask this server to perform. -/
inductive Operation where
  | upload
  | mirror
  | chunkUpload
  | delete
  | list
  deriving DecidableEq, Repr

/-- The name of an operation in the refusal of a disabled feature. -/
def Operation.name : Operation → String
  | .upload | .chunkUpload => "Upload"
  | .mirror => "Mirror"
  | .delete => "Delete"
  | .list => "List"

/-- Whether an authorization event of the operation is single-use. -/
def Operation.isDestructive : Operation → Bool
  | .delete => true
  | _ => false

/-- The configured mode of an operation, or `none` when it is not a feature. -/
def Operation.feature (cfg : Config) : Operation → Option FeatureMode
  | .upload | .chunkUpload => some cfg.featureUploadEnabled
  | .mirror => some cfg.featureMirrorEnabled
  | .delete | .list => none

/-- The authorization mode of a feature mode, or `none` when the feature is off. -/
def modeFor (feature : FeatureMode) (hasWhitelist : Bool) : Option AuthMode :=
  match feature with
  | .off => none
  | .wot => some .wotOnly
  | .dvm => some .dvmOnly
  | .public => some (if hasWhitelist then .strict else .unrestricted)

/-- The authorization mode of an operation. -/
def modeOf (cfg : Config) (operation : Operation) : AppResult AuthMode :=
  match operation.feature cfg with
  | none => .ok .strict
  | some feature =>
    match modeFor feature (cfg.allowedPubkeys ≠ []) with
    | some mode => .ok mode
    | none => .error (.forbidden s!"{operation.name} feature is disabled")

/-- A client that may attempt an operation. -/
structure Authorized where
  event : Event
  operation : Operation
  expiration : Nat
  deriving DecidableEq, Repr

/-- Reject an event that has been presented before. -/
def consumeSingleUse (eventId : Str) (expiresAt : Nat) : AsyncResult Unit := do
  let now ← nowSecs
  if ← request (.consumeReplay eventId expiresAt now) then
    throw (.conflict "Authorization event was already used")

/-- The check of the verb and of the hash of an authorization. -/
def Authorized.validate (authorized : Authorized) (sha256 : Str) : AppResult Unit :=
  match authorized.operation with
  | .upload | .mirror => validateUploadAuth authorized.event sha256
  | .chunkUpload => validateChunkUploadAuth authorized.event sha256
  | .delete => validateDeleteAuth authorized.event sha256
  | .list => .error (.internalError "List authorization must be bound without a blob hash")

/-- Bind an authorization to the blob it applies to. -/
def Authorized.bind (authorized : Authorized) (sha256 : Str) : AsyncResult Unit := do
  ofResult (authorized.validate sha256)
  if authorized.operation.isDestructive then
    consumeSingleUse authorized.event.id authorized.expiration

/-- Authenticate the caller and check that it may attempt an operation. -/
def authorize (cfg : Config) (headers : Headers) (operation : Operation) : AsyncResult Authorized := do
  let mode ← ofResult (modeOf cfg operation)
  let some authHeader := Http.str headers "authorization"
    | throw (.unauthorized "Missing Authorization header")
  let event ← ofResult (parseAuthHeader cfg.libs authHeader)
  let now ← nowSecs
  let expiration ← ofResult (verifyEventWithPolicy cfg now event)
  ofResult (validateEventKind cfg.libs event 24242)
  checkPubkeyAuthorization cfg event mode
  return ⟨event, operation, expiration⟩

end Almond.Authorization
