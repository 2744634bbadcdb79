import Almond.Effects

/-! # The authorization events of BUD-11 -/

namespace Almond.Auth

/-- How a caller's key is authorized, once its event has been verified. -/
inductive AuthMode where
  /-- Only an entry of the whitelist. -/
  | strict
  /-- Any valid signature. -/
  | unrestricted
  /-- The whitelist, then the web of trust. -/
  | wotOnly
  /-- The whitelist, then a live announcement. -/
  | dvmOnly
  deriving DecidableEq, Repr

/-- Decode an `Authorization` header. -/
def parseAuthHeader (libs : Libs) (authHeader : Str) : AppResult Event := do
  let some encoded := stripPrefix "Nostr ".toList authHeader
    | throw (.unauthorized "Invalid Authorization header prefix")
  let bytes ← (libs.decodeBase64 encoded).mapError fun e => .unauthorized s!"Failed to decode base64: {e}"
  let json ← (libs.fromUtf8 bytes).mapError fun e => .unauthorized s!"Failed to convert to UTF-8: {e}"
  (libs.parseEvent json).mapError fun e => .unauthorized s!"Failed to parse event JSON: {e}"

/-- The first tag of a kind. -/
def firstTag (event : Event) (kind : String) : Option Tag :=
  event.tags.find? fun t => t.kind = kind.toList

/-- The tags of a kind. -/
def tagsOf (event : Event) (kind : String) : List Tag :=
  event.tags.filter fun t => t.kind = kind.toList

/-- Verify the signature, the creation time and the expiration of an event. -/
def verifyEvent (libs : Libs) (now : Nat) (event : Event) : AppResult Unit := do
  (libs.verifyEvent event).mapError fun e => .unauthorized s!"Invalid event signature: {e}"
  if event.createdAt > now then throw (.unauthorized "Authorization event is in the future")
  match firstTag event "expiration" with
  | none => throw (.unauthorized "Missing required expiration tag")
  | some expiration =>
    match expiration.content.bind parseU64 with
    | none => throw (.unauthorized "Invalid expiration tag value")
    | some expTime => if now ≥ expTime then throw (.unauthorized "Event expired")

/-- A canonical ASCII domain name. -/
def isLowercaseDomain (domain : Str) : Bool :=
  domain ≠ [] && byteLen domain ≤ 253 && (domain.splitOn '.').all fun label =>
    label ≠ [] && byteLen label ≤ 63 && label.head? ≠ some '-' && label.getLast? ≠ some '-' &&
      label.all fun c => ('a' ≤ c && c ≤ 'z') || c.isDigit || c = '-'

/-- The lower-case domain of a URL. -/
def extractDomain (url : Str) : Str :=
  let withoutScheme := ((stripPrefix "https://".toList url).or (stripPrefix "http://".toList url)).getD url
  (withoutScheme.takeWhile fun c => c ≠ '/' && c ≠ ':').map Char.toLower

/-- The first failure among the `server` tags. -/
def checkServerTags : List Tag → AppResult Unit
  | [] => .ok ()
  | tag :: tags =>
    match tag.content with
    | none => .error (.unauthorized "Auth event server tag has no domain")
    | some domain =>
      if isLowercaseDomain domain then checkServerTags tags
      else .error (.unauthorized "Auth event server tag must be a lowercase domain name")

/-- Every `server` tag must be a canonical domain, and one of them this server's. -/
def validateServerTags (event : Event) (publicUrl : Str) : AppResult Unit := do
  let serverTags := tagsOf event "server"
  if serverTags = [] then return ()
  checkServerTags serverTags
  unless serverTags.any fun tag => tag.content = some (extractDomain publicUrl) do
    throw (.unauthorized "Auth event server tag does not match this server")

/-- Apply the lifetime and server-binding policy to a verified event; returns its expiration. -/
def verifyEventWithPolicy (cfg : Config) (now : Nat) (event : Event) : AppResult Nat := do
  verifyEvent cfg.libs now event
  let some expiration := ((firstTag event "expiration").bind Tag.content).bind parseU64
    | throw (.unauthorized "Invalid expiration tag value")
  if expiration - event.createdAt > cfg.authMaxTtlSecs then
    throw (.unauthorized "Authorization event TTL exceeds the server policy")
  if cfg.authRequireServerTag && !(event.tags.any fun t => t.kind = "server".toList) then
    throw (.unauthorized "Authorization event requires a server tag")
  validateServerTags event cfg.publicUrl
  return expiration

/-- Validate the kind of an event. -/
def validateEventKind (libs : Libs) (event : Event) (expectedKind : Nat) : AppResult Unit :=
  if event.kind = expectedKind then .ok ()
  else .error (.unauthorized s!"Invalid event kind: expected {expectedKind}, got {libs.showKind event.kind}")

/-- Validate that the first `t` tag names a verb. -/
def validateTTag (event : Event) (expectedVerb : String) : AppResult Unit :=
  if (firstTag event "t").bind Tag.content = some expectedVerb.toList then .ok ()
  else .error (.unauthorized s!"Missing or invalid 't' tag: expected '{expectedVerb}'")

/-- Validate that an event carries a verb and an `x` tag with a hash. -/
def validateHashAuth (event : Event) (verb : String) (sha256 : Str) (noTag noMatch : String) : AppResult Unit := do
  validateTTag event verb
  if tagsOf event "x" = [] then throw (.unauthorized noTag)
  unless (tagsOf event "x").any fun tag => tag.content = some sha256 do
    throw (.unauthorized noMatch)

/-- Validate an upload authorization. -/
def validateUploadAuth (event : Event) (expectedSha256 : Str) : AppResult Unit :=
  validateHashAuth event "upload" expectedSha256 "No x tag found in event"
    s!"No matching x tag found for hash {text expectedSha256}"

/-- Validate a delete authorization. -/
def validateDeleteAuth (event : Event) (sha256 : Str) : AppResult Unit :=
  validateHashAuth event "delete" sha256 "No 'x' tags found in delete authorization"
    s!"No matching 'x' tag found for hash {text sha256}"

/-- Validate a chunk upload authorization. -/
def validateChunkUploadAuth (event : Event) (sha256 : Str) : AppResult Unit :=
  validateHashAuth event "upload" sha256 "No 'x' tags found for chunk upload"
    s!"Final blob hash {text sha256} not found in x tags"

/-- `is_ascii_hexdigit`. -/
def isHexDigit (c : Char) : Bool :=
  c.isDigit || ('a' ≤ c && c ≤ 'f') || ('A' ≤ c && c ≤ 'F')

/-- The first content of an `x` tag that looks like a hash. -/
def extractSha256FromEvent (event : Event) : Option Str :=
  ((tagsOf event "x").filterMap Tag.content).find? fun content => byteLen content = 64 && content.all isHexDigit

/-- Whether a key is on the whitelist. -/
def whitelisted (cfg : Config) (pubkey : PublicKey) : Bool :=
  cfg.allowedPubkeys ≠ [] && cfg.allowedPubkeys.contains pubkey

/-- Check a key against an authorization mode. -/
def checkPubkeyAuthorization (cfg : Config) (event : Event) : AuthMode → AsyncResult Unit
  | .strict => do
    if cfg.allowedPubkeys = [] then throw (.forbidden "Operation requires ALLOWED_NPUBS to be configured")
    unless cfg.allowedPubkeys.contains event.pubkey do
      throw (.unauthorized "Pubkey not in ALLOWED_NPUBS whitelist")
  | .unrestricted => return ()
  | .wotOnly => do
    if whitelisted cfg event.pubkey then return ()
    unless ← request (.isTrusted event.pubkey) do
      throw (.unauthorized "Pubkey not in Web of Trust")
  | .dvmOnly => do
    if whitelisted cfg event.pubkey then return ()
    if ← request (.isDvm event.pubkey) then return ()
    match ← request (.checkDvmAnnouncement event.pubkey) with
    | .ok true => request (.insertDvm event.pubkey)
    | _ => throw (.unauthorized "Pubkey not a recognized DVM for allowed kinds")

end Almond.Auth
