import Almond.FileStorage

/-! # Streaming bodies into temporary files, and the intake of finished blobs -/

namespace Almond.Upload

/-- `CHUNK_SIZE`. -/
def chunkSize : Nat := 1024 * 1024

/-- `slice::chunks`: pieces of a given size, the last one maybe shorter. The fuel is the number of bytes. -/
def pieces (size : Nat) : Nat → Bytes → List Bytes
  | 0, _ => []
  | _ + 1, [] => []
  | fuel + 1, data => data.take size :: pieces size fuel (data.drop size)

/-- Write the pieces of one frame; returns what was received so far. -/
def writePieces (ino : Ino) (maxBytes : Nat) : List Bytes → Bytes → AsyncResult Bytes
  | [], received => return received
  | piece :: rest, received => do
    match checkedAdd received.length piece.length with
    | none => throw (.payloadTooLarge "Upload size overflow")
    | some nextTotal =>
      if nextTotal > maxBytes then
        throw (.payloadTooLarge s!"Upload exceeds configured maximum of {maxBytes} bytes")
      orIoErr (fun error => s!"Failed to write to temp file: {error.message}") (fs (.writeAll ino piece))
      writePieces ino maxBytes rest (received ++ piece)

/-- Write a body; returns its bytes. -/
def writeFrames (ino : Ino) (maxBytes : Nat) : Body → Bytes → AsyncResult Bytes
  | [], received => do
    request .nextFrame
    return received
  | frame :: frames, received => do
    request .nextFrame
    match frame with
    | .error () => throw (.payloadTooLarge "Request body exceeded the configured upload limit")
    | .ok data =>
      let received ← writePieces ino maxBytes (pieces chunkSize data.length data) received
      writeFrames ino maxBytes frames received

/-- Stream a body to a temporary file; returns its hash and its size. -/
def streamToTempFile (libs : Libs) (body : Body) (tempPath : Path) (maxBytes : Nat) : AsyncResult (Str × Nat) := do
  let ino ← orIoErr (fun error => s!"Failed to create temp file: {error.message}") (fs (.createFile tempPath))
  let written ← attempt do
    let received ← writeFrames ino maxBytes body []
    orIoErr (fun error => s!"Failed to sync temp file: {error.message}") (fs (.syncAll ino))
    return (libs.sha256Hex received, received.length)
  request (.closeFile tempPath)
  ofResult written

/-- The most this server stores for a blob that a client uploads. -/
def clientUploadLimit (cfg : Config) : Nat :=
  cfg.maxBlobSizeBytes

/-- The most this server stores for a blob that it fetches. -/
def upstreamFetchLimit (cfg : Config) : Nat :=
  if cfg.maxUpstreamDownloadSizeBytes < cfg.maxBlobSizeBytes then cfg.maxUpstreamDownloadSizeBytes
  else cfg.maxBlobSizeBytes

/-- Finalize an authorized upload or mirror as uploaded content. -/
def finalizeUpload (cfg : Config) (temp : Path) (sha256 : Str) (size : Nat) (extension mimeType : Option Str)
    (expiration : Option Nat) : AsyncResult FileStorage.StoredBlob :=
  FileStorage.publishBlob cfg temp
    { sha256 := sha256, origin := .upload, extension := extension, mimeType := mimeType, size := size, expiration := expiration }

/-- Receive a body into a temporary blob and publish it: what every intake does once its checks have passed. -/
def receiveAndPublish (cfg : Config) (body : Body) (publication : FileStorage.BlobPublication) :
    AsyncResult FileStorage.StoredBlob := do
  let temp ← request (.reserveTemp cfg.storage.temp "upload".toList none)
  match ← attempt (streamToTempFile cfg.libs body temp cfg.maxBlobSizeBytes) with
  | .error error =>
    request (.dropTemp temp)
    throw error
  | .ok _ => FileStorage.publishBlob cfg temp publication

end Almond.Upload
