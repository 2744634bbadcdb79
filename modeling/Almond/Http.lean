import Almond.Models

/-! # Requests, their headers, and responses -/

namespace Almond

/-- The headers of a request. A name is in lower case; a value is a sequence of bytes. -/
abbrev Headers := List (Str × Str)

/-- A request body as it arrives: frames of bytes, or a broken transfer. -/
abbrev Body := List (Except Unit Bytes)

/-- What of a response depends on the state. -/
structure Response where
  status : Nat
  /-- The blob that a descriptor in the body describes. -/
  descriptor : Option (Str × FileMetadata)
  /-- The first byte of the blob in the body, and the number of its bytes. -/
  content : Option (Nat × Nat)
  deriving DecidableEq, Repr

/-- A response without a body. -/
def Response.bare (status : Nat) : Response :=
  ⟨status, none, none⟩

namespace Http

/-- `HeaderValue::to_str`: visible ASCII characters, spaces and tabs. -/
def toStr (value : Str) : Option Str :=
  if value.all fun c => c = '\t' || (32 ≤ c.toNat && c.toNat < 127) then some value else none

/-- The first value of a header. -/
def get (headers : Headers) (name : String) : Option Str :=
  headers.lookup name.toList

/-- The first value of a header, as text. -/
def str (headers : Headers) (name : String) : Option Str :=
  (get headers name).bind toStr

/-- `DEFAULT_CONTENT_TYPE`. -/
def defaultContentType : Str :=
  "application/octet-stream".toList

/-- The content type of a request. -/
def extractContentType (headers : Headers) : Str :=
  (str headers "content-type").getD defaultContentType

/-- The canonical extension of a media type. -/
def getExtensionFromMime (libs : Libs) (contentType : Str) : Option Str :=
  let mimeType := trim (contentType.takeWhile (· ≠ ';'))
  match text mimeType with
  | "application/vnd.apple.mpegurl" | "application/x-mpegurl" | "audio/mpegurl" | "audio/x-mpegurl" => some "m3u8".toList
  | "video/mp2t" => some "ts".toList
  | "application/dash+xml" => some "mpd".toList
  | "image/jpeg" | "image/pjpeg" => some "jpg".toList
  | "text/plain" => some "txt".toList
  | "audio/mpeg" => some "mp3".toList
  | "audio/mp4" => some "m4a".toList
  | "application/xml" | "text/xml" => some "xml".toList
  | "text/javascript" | "application/javascript" => some "js".toList
  | "application/octet-stream" => some "bin".toList
  | _ => (libs.mimeExtensions mimeType).bind List.head?

/-- The expiration a client asks for. -/
def clientExpiration (headers : Headers) : AppResult (Option Nat) :=
  match get headers "x-expiration" with
  | none => .ok none
  | some value =>
    match (toStr value).bind parseU64 with
    | some expiration => .ok (some expiration)
    | none => .error (.badRequest "Invalid X-Expiration header")

/-- An expiration must lie in the future. -/
def resolveExpiration (now : Nat) (expiration : Option Nat) : AppResult (Option Nat) :=
  if expiration.any fun e => e ≤ now then .error (.badRequest "X-Expiration must be a future Unix timestamp")
  else .ok expiration

/-! ## Entity tags and ranges -/

/-- The strong validator of a blob. -/
def blobEtag (sha256 : Str) : Str :=
  '"' :: sha256 ++ ['"']

/-- `trim_start_matches("W/")`. -/
def trimWeak : Str → Str
  | 'W' :: '/' :: rest => trimWeak rest
  | s => s

/-- The weak comparison of a list of entity tags with a tag. -/
def etagListMatches (list etag : Str) : Bool :=
  (list.splitOn ',').any fun candidate => trim candidate = ['*'] || trimWeak (trim candidate) = etag

/-- The outcome of reading a `Range` header. -/
inductive RangeSpec where
  /-- An inclusive range of bytes. -/
  | satisfiable (start «end» : Nat)
  | unsatisfiable
  | ignore
  deriving DecidableEq, Repr

/-- The last byte a range asks for; an end past the last byte is clamped. -/
def rangeEnd (last : Str) (totalSize : Nat) : Option Nat :=
  if last = [] then some (totalSize - 1) else (parseU64 last).map fun e => min e (totalSize - 1)

/-- `bytes=-SUFFIX`: the last bytes. -/
def suffixRange (last : Str) (totalSize : Nat) : RangeSpec :=
  match parseU64 last with
  | none => .ignore
  | some 0 => .unsatisfiable
  | some suffix => .satisfiable (totalSize - suffix) (totalSize - 1)

/-- `bytes=START-END` and `bytes=START-`. -/
def boundedRange (first last : Str) (totalSize : Nat) : RangeSpec :=
  match parseU64 first with
  | none => .ignore
  | some start =>
    if start ≥ totalSize then .unsatisfiable
    else match rangeEnd last totalSize with
      | none => .ignore
      | some e => if start > e then .unsatisfiable else .satisfiable start e

/-- Read a `Range` header with a single range. -/
def parseRangeHeader (value : Str) (totalSize : Nat) : RangeSpec :=
  match (stripPrefix "bytes=".toList (trim value)).map trim with
  | none => .ignore
  | some spec =>
    if spec.contains ',' then .ignore
    else match splitOnce '-' spec with
      | none => .ignore
      | some (first, last) =>
        if totalSize = 0 then .unsatisfiable
        else if trim first = [] then suffixRange (trim last) totalSize
        else boundedRange (trim first) (trim last) totalSize

/-- Whether the `If-Range` validator of a request, if it has one, is the blob's. -/
def honorRange (headers : Headers) (etag : Str) : Bool :=
  (str headers "if-range").all fun v => etagListMatches v etag

/-- The range a request asks for. -/
def requestedRange (headers : Headers) (etag : Str) (totalSize : Nat) : RangeSpec :=
  match honorRange headers etag, str headers "range" with
  | true, some value => parseRangeHeader value totalSize
  | _, _ => .ignore

/-- Whether the client already holds the blob. -/
def notModified (headers : Headers) (etag : Str) : Bool :=
  (str headers "if-none-match").any fun v => etagListMatches v etag

/-- The response that carries a range of a blob. -/
def rangeResponse (range : RangeSpec) (totalSize : Nat) : Response :=
  match range with
  | .satisfiable start e => ⟨206, none, some (start, e - start + 1)⟩
  | .unsatisfiable => .bare 416
  | .ignore => ⟨200, none, some (0, totalSize)⟩

end Http

end Almond
