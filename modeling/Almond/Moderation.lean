import Almond.Authorization
import Almond.Startup

/-! # Deletions, reports and listings

The handlers that end blobs at the request of a client, and the one that lists them. They answer errors with a bare status code. -/

namespace Almond.Moderation

open Authorization FileStorage Conc

/-- What a resolved report does to a blob. -/
inductive ReportAction where
  | quarantine
  | delete
  deriving DecidableEq, Repr

/-- The name of an action. -/
def ReportAction.asStr : ReportAction → String
  | .quarantine => "quarantine"
  | .delete => "delete"

/-- The name of a feature mode. -/
def modeName : FeatureMode → String
  | .off => "off"
  | .wot => "wot"
  | .dvm => "dvm"
  | .public => "public"

/-- A report as its JSON body spells it. -/
structure ReportEvent where
  id : Str
  pubkey : Str
  createdAt : Int
  kind : Nat
  tags : List (List Str)
  content : Str
  sig : Str
  deriving DecidableEq

/-- The audit record of a report. -/
structure Record where
  status : String
  mode : String
  action : String
  requested : List Str
  processed : List Str
  receivedAt : Nat
  event : Event
  deriving DecidableEq

/-- The part of the configuration that only these handlers read, and the libraries that only they call. -/
structure Settings where
  featureListEnabled : Bool
  featureReportEnabled : FeatureMode
  reportAction : ReportAction
  authClockSkewSecs : Nat
  /-- `PublicKey::from_hex`. -/
  publicKeyFromHex : Str → Option PublicKey
  /-- The reading of an event from the JSON text of a report. -/
  parseReport : ReportEvent → Except String Event
  /-- The JSON text of a record. -/
  recordBody : Record → Bytes
  /-- Whether `info!` is logged. What it would log is only evaluated then. -/
  infoEnabled : Bool

/-- A handler that fails with a status code. -/
abbrev Handler := ExceptT Nat Async

/-- `map_err(StatusCode::from)`. -/
def orStatus {α : Type} (p : AsyncResult α) : Handler α :=
  ExceptT.mk (p.run.bind fun x => .ret (x.mapError AppError.status))

/-- `map_err` to a fixed status code. -/
def orCode {ε α : Type} (status : Nat) (p : Async (Except ε α)) : Handler α :=
  ExceptT.mk (p.bind fun x => .ret (x.mapError fun _ => status))

/-! ## `DELETE` -/

/-- Handle the deletion of a blob. -/
def deleteBlob (cfg : Config) (headers : Headers) (filename : Str) : Handler Response := do
  let sha256 := filename.takeWhile (· ≠ '.')
  if byteLen sha256 ≠ 64 ∨ sha256.all Auth.isHexDigit = false then throw 400
  let authorized ← orStatus (authorize cfg headers .delete)
  orStatus (authorized.bind sha256)
  let _ ← orCode 503 (removeIndexedBlob cfg sha256 .requested none).run
  return .bare 204

/-! ## `PUT /report` -/

/-- What a report is answered with. -/
inductive ReportReply where
  | report (status : Nat) (message : String) (processed : List Str) (action : String)
  | error (status : Nat) (error : String)
  /-- No answer: the handler panics. -/
  | panicked
  deriving DecidableEq

/-- The hashes of the `x` tags of a report. -/
def extractBlobHashes (tags : List (List Str)) : List Str :=
  tags.filterMap fun tag => match tag with
    | name :: hash :: _ =>
      if name = "x".toList ∧ byteLen hash = 64 ∧ hash.all Auth.isHexDigit = true then some hash else none
    | _ => none

/-- Write a file as a whole. -/
def write (path : Path) (bytes : Bytes) : Handler Unit := do
  let ino ← orCode 500 (fs (.createFile path))
  let written ← fs (.writeAll ino bytes)
  request (.closeFile path)
  orCode 500 (.ret written)

/-- Persist the audit record of a report. -/
def recordReport (cfg : Config) (settings : Settings) (event : Event) (status action : String)
    (requested processed : List Str) : Handler Unit := do
  let now ← nowSecs
  write (cfg.storage.reports ++ [event.id ++ ".json".toList])
    (settings.recordBody ⟨status, modeName settings.featureReportEnabled, action, requested, processed, now, event⟩)

/-- How a resolved report removes a blob. -/
def ReportAction.removal : ReportAction → Removal
  | .quarantine => .quarantined
  | .delete => .reported

/-- Remove the reported blobs; returns those that were removed. -/
def processBlobs (cfg : Config) (action : ReportAction) : List Str → Async (List Str)
  | [] => return []
  | sha256 :: hashes => do
    match ← index (.get sha256) with
    | none => processBlobs cfg action hashes
    | some _ =>
      let removed ← (removeIndexedBlob cfg sha256 action.removal none).run
      let processed ← processBlobs cfg action hashes
      match removed with
      | .ok true => return sha256 :: processed
      | _ => return processed

/-- What is logged of the content of a report. `none` stands for the panic of a slice that cuts a character. -/
def loggedContent (content : Str) : Option Str :=
  if byteLen content > 100 then (BlobName.splitAtByte 100 content).map fun (head, _) => head ++ "...".toList
  else some content

/-- Process the blobs of a report, and record what became of them. -/
def processReport (cfg : Config) (settings : Settings) (event : Event) (blobHashes : List Str) : Handler ReportReply := do
  let action := settings.reportAction.asStr
  let processed ← processBlobs cfg settings.reportAction blobHashes
  recordReport cfg settings event (if processed = [] then "noop" else "processed") action blobHashes processed
  if processed = [] then
    return .error 404 "No matching blobs found"
  let verb := if settings.reportAction = .quarantine then "quarantined" else "deleted"
  return .report 200 s!"Report processed: {processed.length} blob(s) {verb}" processed action

/-- Resolve a report whose blobs are to be removed. -/
def resolveReport (cfg : Config) (settings : Settings) (content : Str) (event : Event) (blobHashes : List Str) :
    Handler ReportReply := do
  recordReport cfg settings event "pending" settings.reportAction.asStr blobHashes []
  if settings.infoEnabled ∧ loggedContent content = none then
    return .panicked
  processReport cfg settings event blobHashes

/-- Handle a report. -/
def reportBlob (cfg : Config) (settings : Settings) (report : ReportEvent) : Handler ReportReply := do
  if settings.featureReportEnabled = .off then throw 404
  if report.kind ≠ 1984 then throw 400
  let some reporterPubkey := settings.publicKeyFromHex report.pubkey
    | throw 400
  let isAllowed := cfg.allowedPubkeys.contains reporterPubkey
  let event ← orCode 400 (.ret (settings.parseReport report))
  orCode 401 (.ret (cfg.libs.verifyEvent event))
  let now ← nowSecs
  if report.createdAt < 0 then throw 400
  if report.createdAt.toNat > saturatingAdd now settings.authClockSkewSecs then throw 401
  orStatus (consumeSingleUse report.id (saturatingAdd now cfg.authMaxTtlSecs))
  let blobHashes := extractBlobHashes report.tags
  if settings.featureReportEnabled = .public then
    recordReport cfg settings event "noop" "none" blobHashes []
    return .report 202 "Report accepted for moderation" [] "none"
  if isAllowed = false then throw 401
  if blobHashes = [] then throw 400
  resolveReport cfg settings report.content event blobHashes

/-! ## `GET /list` -/

/-- The query of a listing. -/
structure ListQuery where
  since : Option Nat
  until' : Option Nat
  cursor : Option Str
  limit : Option Nat
  deriving DecidableEq, Repr

/-- `DEFAULT_LIST_LIMIT`. -/
def defaultListLimit : Nat := 100

/-- `MAX_LIST_LIMIT`. -/
def maxListLimit : Nat := 1000

/-- The key that the path of a listing names, if it names one. -/
def parsePathPubkey (settings : Settings) (path : Str) : Except Nat (Option PublicKey) :=
  match stripPrefix "/list/".toList path with
  | none => .ok none
  | some value =>
    if value = [] ∨ '/' ∈ value then .error 400
    else match settings.publicKeyFromHex value with
      | some pubkey => .ok (some pubkey)
      | none => .error 400

/-- The cursor of a query, in lower case. -/
def parseCursor : Option Str → Except Nat (Option Str)
  | none => .ok none
  | some cursor =>
    if byteLen cursor ≠ 64 ∨ cursor.all Auth.isHexDigit = false then .error 400 else .ok (some (cursor.map Char.toLower))

/-- Bind an authorization for an operation without a hash. -/
def bindWithoutHash (authorized : Authorized) : AppResult Unit :=
  match authorized.operation with
  | .list => Auth.validateTTag authorized.event "list"
  | _ => .error (.internalError "A blob hash is required to bind this authorization")

/-- Handle a listing; returns what its descriptors describe. -/
def listBlobs (cfg : Config) (settings : Settings) (headers : Headers) (path : Str) (params : ListQuery) :
    Handler (List (Str × FileMetadata)) := do
  if settings.featureListEnabled = false then throw 403
  let authorized ← orStatus (authorize cfg headers .list)
  orStatus (ofResult (bindWithoutHash authorized))
  let requestedPubkey ← orCode 400 (.ret (parsePathPubkey settings path))
  let servesCatalog := requestedPubkey.all cfg.allowedPubkeys.contains
  let limit := max 1 (min (params.limit.getD defaultListLimit) maxListLimit)
  let cursor ← orCode 400 (.ret (parseCursor params.cursor))
  if servesCatalog then
    index (.page (params.since.getD 0) (params.until'.getD u64Max) none cursor limit)
  else return []

/-! ## The moderated server -/

/-- The operations that end blobs at the request of a client, and the one that lists them. -/
inductive Op where
  /-- `build_state`. -/
  | boot
  /-- `DELETE`. -/
  | delete (headers : Headers) (filename : Str)
  /-- `PUT /report`. -/
  | report (report : ReportEvent)
  /-- `GET /list`. -/
  | list (headers : Headers) (path : Str) (params : ListQuery)

/-- What the operations return. -/
inductive Outcome where
  | done (result : AppResult Unit)
  | response (result : Except Nat Response)
  | reply (result : Except Nat ReportReply)
  | listed (result : Except Nat (List (Str × FileMetadata)))

/-- The program of an operation. -/
def program (cfg : Config) (settings : Settings) : Op → Async Outcome
  | .boot => .done <$> (Startup.buildState cfg).run
  | .delete headers filename => .response <$> (deleteBlob cfg headers filename).run
  | .report report => .reply <$> (reportBlob cfg settings report).run
  | .list headers path params => .listed <$> (listBlobs cfg settings headers path params).run

/-- The passing of time on a wall clock that never goes back. -/
def tick (env : Env) (s : AppState) : AppState :=
  { s with clock := ⟨max s.clock.system env.system, s.clock.instant + env.elapsed⟩ }

/-- The server as a machine that deletes, moderates and lists. -/
def machine (cfg : Config) (settings : Settings) : Machine Req Resp Str Env AppState Op Outcome where
  body := program cfg settings
  exec := exec cfg
  discard := discard
  enabled op s := match op with
    | .boot => false
    | _ => s.up
  tick := tick
  crash := crash
  boot := .boot

/-- A server with its tasks. -/
abbrev Server := Sys Req Resp Str AppState Op Outcome

/-- A server without tasks. -/
def Server.idle (s : AppState) : Server :=
  ⟨⟨s, fun _ => none, 0⟩, fun _ => none⟩

end Almond.Moderation
