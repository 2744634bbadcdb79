import Almond.Serving
import Almond.Upload

/-! # Filling the cache from another server

A blob that is fetched from another server goes to a file of its own, which the responses under way read while it grows, and is
published once it is complete. -/

namespace Almond.Upstream

open FileStorage

/-- A download that is about to begin: its file, open for writing, and what the response promised. -/
structure PreparedDownload where
  tempPath : Path
  contentType : Str
  totalLen : Option Nat
  writer : Ino
  deriving DecidableEq, Repr

/-- Create the file of a download. -/
def prepareDownloadState (cfg : Config) (contentType : Str) (totalLen : Option Nat) : AsyncResult PreparedDownload := do
  let fileExtension := ((Http.getExtensionFromMime cfg.libs contentType).map fun ext => '.' :: ext).getD []
  orIoErr (fun error => s!"Failed to create temp directory: {error.message}") (fs (.createDirAll cfg.storage.temp))
  let uuid ← request .uuid
  let tempPath := cfg.storage.temp ++ ["upstream_".toList ++ decimal uuid ++ fileExtension]
  let writer ← orIoErr (fun error => s!"Failed to create temp file: {error.message}") (fs (.createFile tempPath))
  return ⟨tempPath, contentType, totalLen, writer⟩

/-- The comparison of a computed hash with the hash in a file name, or with the name. -/
def upstreamHashMatchesFilename (computedHash filename : Str) : Bool :=
  ((Serving.getSha256HashFromFilename filename).getD filename).map Char.toLower = computedHash.map Char.toLower

/-- Write the frames of a response to the file of a download; returns its bytes. Neither a file nor a buffer is longer than an `i64`
counts, so the sum of their lengths is a `u64`. A flush follows each write, and fails as the write does. -/
def writeChunks (writer : Ino) (maxSizeBytes : Nat) : List (AppResult Bytes) → Bytes → ExceptT String Async Bytes
  | [], received => do
    request .nextFrame
    return received
  | next :: chunks, received => do
    request .nextFrame
    match next with
    | .error error => throw error.toText
    | .ok chunk =>
      let newSize := received.length + chunk.length
      if newSize > maxSizeBytes then throw s!"upstream body exceeded the {maxSizeBytes} byte limit"
      match ← fs (.writeAll writer chunk) with
      | .error error => throw error.message
      | .ok () => writeChunks writer maxSizeBytes chunks (received ++ chunk)

/-- The fallible part of a download: the frames are written, counted, hashed and compared, and the file is published as a cache copy. -/
def download (cfg : Config) (upstreamResp : Fetched) (filename : Str) (prepared : PreparedDownload) :
    ExceptT String Async (Str × Nat) := do
  let maxSizeBytes := Upload.upstreamFetchLimit cfg
  let expectedLen := prepared.totalLen.or upstreamResp.contentLength
  if expectedLen.any (· > maxSizeBytes) then throw s!"upstream file exceeds the {maxSizeBytes} byte limit"
  let received ← writeChunks prepared.writer maxSizeBytes upstreamResp.frames []
  if expectedLen.any (· ≠ received.length) then
    throw s!"upstream body length mismatch: expected Some({expectedLen.getD 0}), received {received.length}"
  let sha256 := cfg.libs.sha256Hex received
  if ¬ upstreamHashMatchesFilename sha256 filename then
    let requestedHash := (Serving.getSha256HashFromFilename filename).getD filename
    throw s!"upstream hash mismatch: requested {text requestedHash}, received {text sha256}"
  request (.adoptTemp prepared.tempPath)
  match ← (publishBlob cfg prepared.tempPath
    { sha256 := sha256, origin := .upstreamCache, extension := Http.getExtensionFromMime cfg.libs prepared.contentType,
      mimeType := some prepared.contentType, size := received.length, expiration := none }).run with
  | .error error => throw error.toText
  | .ok _ => return (sha256, received.length)

/-- Download a response to its prepared file, and remove the file of a download that failed. -/
def runDownload (cfg : Config) (upstreamResp : Fetched) (filename : Str) (prepared : PreparedDownload) : Async Unit := do
  match ← (download cfg upstreamResp filename prepared).run with
  | .ok _ => request (.closeFile prepared.tempPath)
  | .error _ =>
    let _ ← fs (.removeFile prepared.tempPath)
    request (.closeFile prepared.tempPath)

/-- Fill the cache with a response: its callers prepare the download and then run it, in the background or while they stream the
growing file. -/
def fillCache (cfg : Config) (filename contentType : Str) (totalLen : Option Nat) (upstreamResp : Fetched) : AsyncResult Unit := do
  let prepared ← prepareDownloadState cfg contentType totalLen
  runDownload cfg upstreamResp filename prepared

end Almond.Upstream
