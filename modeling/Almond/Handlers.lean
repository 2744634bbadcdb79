import Almond.Authorization
import Almond.Cashu
import Almond.Upload

/-! # Uploads, mirrors and chunked uploads -/

namespace Almond.Handlers

open Authorization Cashu FileStorage

/-- The expiration a client asks for, checked against the clock. -/
def extractExpiration (headers : Headers) : AsyncResult (Option Nat) := do
  let now ← nowSecs
  let expiration ← ofResult (Http.clientExpiration headers)
  ofResult (Http.resolveExpiration now expiration)

/-- The response to a blob that is stored. -/
def storedResponse (sha256 : Str) (stored : StoredBlob) : Response :=
  ⟨if stored.created then 201 else 200, some (sha256, stored.metadata), none⟩

/-- Work with a temporary blob, which is unlinked when the work fails. -/
def withTemp {α : Type} (temp : Path) (work : AsyncResult α) : AsyncResult α := do
  match ← attempt work with
  | .ok a => return a
  | .error error =>
    request (.dropTemp temp)
    throw error

/-! ## `PUT /upload` -/

/-- The hash that a request declares. -/
def extractDeclaredUploadHash (headers : Headers) : AppResult Str := do
  let some value := Http.get headers "x-sha-256"
    | throw (.badRequest "Missing X-SHA-256 header")
  let some sha256 := Http.toStr value
    | throw (.badRequest "X-SHA-256 header must be ASCII")
  validateSha256Format sha256
  return sha256

/-- The received bytes must have the declared hash. -/
def ensureUploadHashMatches (declaredSha256 calculatedSha256 : Str) : AppResult Unit :=
  if declaredSha256 = calculatedSha256 then .ok ()
  else .error (.conflict "Uploaded blob does not match X-SHA-256")

/-- The size a request declares. -/
def declaredSize (cfg : Config) (headers : Headers) : Nat :=
  ((Http.str headers "content-length").bind parseU64).getD cfg.maxBlobSizeBytes

/-- The part of an upload between its temporary blob and its publication; returns the hash and the size. -/
def receiveUpload (cfg : Config) (headers : Headers) (body : Body) (authorized : Authorized) (declaredSha256 : Str)
    (temp : Path) : AsyncResult (Str × Nat) := do
  let (sha256, totalBytes) ← Upload.streamToTempFile cfg.libs body temp (Upload.clientUploadLimit cfg)
  ofResult (ensureUploadHashMatches declaredSha256 sha256)
  authorized.bind declaredSha256
  ensureNotQuarantined cfg.storage sha256
  charge cfg headers .upload totalBytes
  return (sha256, totalBytes)

/-- Handle an upload. -/
def uploadFile (cfg : Config) (headers : Headers) (body : Body) : AsyncResult Response := do
  let authorized ← authorize cfg headers .upload
  let declaredSha256 ← ofResult (extractDeclaredUploadHash headers)
  ofResult (Auth.validateUploadAuth authorized.event declaredSha256)
  let contentType := Http.extractContentType headers
  let expiration ← extractExpiration headers
  ensureStorageCapacity cfg (declaredSize cfg headers)
  ensureTempDir cfg
  let temp ← request (.reserveTemp cfg.storage.temp "upload".toList none)
  let (sha256, totalBytes) ← withTemp temp (receiveUpload cfg headers body authorized declaredSha256 temp)
  let stored ← Upload.finalizeUpload cfg temp sha256 totalBytes (Http.getExtensionFromMime cfg.libs contentType)
    (some contentType) expiration
  return storedResponse sha256 stored

/-! ## `PUT /mirror` -/

/-- The largest body of a mirror request. -/
def maxMirrorJsonBytes : Nat := 64 * 1024

/-- Collect a body of a limited size. -/
def collectBody (limit : Nat) : Body → Bytes → AsyncResult Bytes
  | [], received => do
    request .nextFrame
    return received
  | frame :: frames, received => do
    request .nextFrame
    match frame with
    | .error () => throw (.payloadTooLarge "Mirror request body exceeds 64 KiB")
    | .ok data =>
      if (received ++ data).length > limit then throw (.payloadTooLarge "Mirror request body exceeds 64 KiB")
      collectBody limit frames (received ++ data)

/-- Reject a response whose declared length exceeds a limit. -/
def checkSizeLimit (contentLength : Option Nat) (maxSizeBytes : Nat) : AppResult Unit :=
  match contentLength with
  | some contentLength =>
    if contentLength > maxSizeBytes then
      .error (.payloadTooLarge
        s!"File too large: {contentLength / (1024 * 1024)} MB exceeds limit of {maxSizeBytes / (1024 * 1024)} MB")
    else .ok ()
  | none => .ok ()

/-- Write the frames of a response; returns its bytes. -/
def writeResponse (ino : Ino) (maxSizeBytes : Nat) : List (AppResult Bytes) → Bytes → AsyncResult Bytes
  | [], received => do
    request .nextFrame
    return received
  | frame :: frames, received => do
    request .nextFrame
    let data ← ofResult frame
    match checkedAdd received.length data.length with
    | none => throw (.payloadTooLarge "Download size overflow")
    | some newSize =>
      if newSize > maxSizeBytes then
        throw (.payloadTooLarge
          s!"File too large: {newSize} bytes exceeds limit of {maxSizeBytes / (1024 * 1024)} MB")
      orIoErr (fun error => s!"Failed to write chunk: {error.message}") (fs (.writeAll ino data))
      writeResponse ino maxSizeBytes frames (received ++ data)

/-- Stream a response to a temporary file; returns its hash and its size. -/
def streamResponseToTempFile (libs : Libs) (response : Fetched) (tempPath : Path) (maxSizeBytes : Nat) :
    AsyncResult (Str × Nat) := do
  let ino ← orIoErr (fun error => s!"Failed to create temp file: {error.message}") (fs (.createFile tempPath))
  let written ← attempt do
    let received ← writeResponse ino maxSizeBytes response.frames []
    orIoErr (fun error => s!"Failed to sync temp file: {error.message}") (fs (.syncAll ino))
    return (libs.sha256Hex received, received.length)
  request (.closeFile tempPath)
  ofResult written

/-- The part of a mirror between its temporary blob and its publication; returns the size. -/
def receiveMirror (cfg : Config) (headers : Headers) (response : Fetched) (expectedSha256 : Str) (temp : Path) :
    AsyncResult Nat := do
  let (calculatedSha256, bodySize) ← streamResponseToTempFile cfg.libs response temp (Upload.upstreamFetchLimit cfg)
  if calculatedSha256 ≠ expectedSha256 then
    throw (.conflict s!"SHA256 hash mismatch: expected {text expectedSha256}, got {text calculatedSha256}")
  ensureNotQuarantined cfg.storage expectedSha256
  charge cfg headers .mirror bodySize
  return bodySize

/-- Handle a mirror request. -/
def mirrorBlob (cfg : Config) (headers : Headers) (body : Body) : AsyncResult Response := do
  let authorized ← authorize cfg headers .mirror
  ofResult (Auth.validateTTag authorized.event "upload")
  let some expectedSha256 := Auth.extractSha256FromEvent authorized.event
    | throw (.unauthorized "No valid SHA-256 hash found in auth event")
  let expiration ← extractExpiration headers
  let bytes ← collectBody maxMirrorJsonBytes body []
  let field ← ofResult ((cfg.libs.parseUrlField bytes).mapError fun e => .badRequest s!"JSON error: {e}")
  let some url := field
    | throw (.badRequest "Missing 'url' field in request body")
  let response ← ExceptT.mk (request (.fetchFromUrl url))
  ofResult (checkSizeLimit response.contentLength (Upload.upstreamFetchLimit cfg))
  ensureTempDir cfg
  let extension := Http.getExtensionFromMime cfg.libs response.contentType
  let temp ← request (.reserveTemp cfg.storage.temp "mirror".toList extension)
  let bodySize ← withTemp temp (receiveMirror cfg headers response expectedSha256 temp)
  let stored ← Upload.finalizeUpload cfg temp expectedSha256 bodySize extension (some response.contentType) expiration
  return storedResponse expectedSha256 stored

/-! ## Reconstruction -/

/-- Remove the chunk files of an upload; failures are ignored. -/
def discardChunkFiles : List ChunkInfo → Async Unit
  | [] => return ()
  | chunk :: chunks => do
    let _ ← fs (.removeFile chunk.chunkPath)
    discardChunkFiles chunks

/-- The chunks in the order of their offsets. -/
def sortChunks (chunks : List ChunkInfo) : List ChunkInfo :=
  chunks.insertionSort fun a b => a.offset ≤ b.offset

/-- The first outcome of the walk over sorted chunks: the end of their coverage, a gap or an overlap, or an overflow. -/
inductive Coverage where
  | upTo (offset : Nat)
  | broken
  | overflow
  deriving DecidableEq, Repr

/-- Walk over sorted chunks. -/
def coverage : List ChunkInfo → Nat → Coverage
  | [], expectedOffset => .upTo expectedOffset
  | chunk :: chunks, expectedOffset =>
    if chunk.offset ≠ expectedOffset then .broken
    else match checkedAdd expectedOffset chunk.length with
      | none => .overflow
      | some expectedOffset => coverage chunks expectedOffset

/-- The size of the copy buffer. -/
def bufferSize : Nat := 64 * 1024

/-- Copy the declared bytes of one open chunk file to the target. The fuel is the number of bytes that remain, since a read returns
at least one. -/
def copyChunk (source target : Ino) : Nat → Nat → Nat → Bytes → AsyncResult Bytes
  | _, _, 0, written => return written
  | 0, _, _ + 1, _ => throw (.badRequest "Chunk file is shorter than declared")
  | fuel + 1, position, remaining + 1, written => do
    let bytes ← orIoErr (fun error => s!"Failed to read chunk: {error.message}")
      (fs (.read source position (min (remaining + 1) bufferSize)))
    if bytes = [] then throw (.badRequest "Chunk file is shorter than declared")
    orIoErr (fun error => s!"Failed to write reconstruction: {error.message}") (fs (.writeAll target bytes))
    match checkedAdd written.length bytes.length with
    | none => throw (.badRequest "Reconstruction size overflows")
    | some _ => copyChunk source target fuel (position + bytes.length) (remaining + 1 - bytes.length) (written ++ bytes)

/-- Copy the chunks to the target; returns what was written. -/
def copyChunks (target : Ino) : List ChunkInfo → Bytes → AsyncResult Bytes
  | [], written => return written
  | chunk :: chunks, written => do
    let source ← orIoErr (fun error => s!"Failed to open chunk file: {error.message}") (fs (.openFile chunk.chunkPath))
    let written ← copyChunk source target chunk.length 0 chunk.length written
    let rest ← orIoErr (fun error => s!"Failed to validate chunk size: {error.message}")
      (fs (.read source chunk.length 1))
    if rest ≠ [] then throw (.badRequest "Chunk file is longer than declared")
    copyChunks target chunks written

/-- Write the reconstruction of an upload to an open file; returns its size. -/
def writeReconstruction (libs : Libs) (chunks : List ChunkInfo) (uploadLength : Nat) (expectedSha256 : Str) (target : Ino) :
    AsyncResult Nat := do
  let written ← copyChunks target chunks []
  if written.length ≠ uploadLength ∨ libs.sha256Hex written ≠ expectedSha256 then
    throw (.unauthorized "Reconstructed blob does not match claimed SHA-256")
  orIoErr (fun error => s!"Failed to sync reconstruction: {error.message}") (fs (.syncAll target))
  return written.length

/-- Reconstruct an upload in a temporary file; returns its size. -/
def reconstructInto (libs : Libs) (chunks : List ChunkInfo) (uploadLength : Nat) (expectedSha256 : Str) (temp : Path) :
    AsyncResult Nat := do
  let target ← orIoErr (fun error => s!"Failed to create reconstruction file: {error.message}") (fs (.createFile temp))
  let written ← attempt (writeReconstruction libs chunks uploadLength expectedSha256 target)
  request (.closeFile temp)
  ofResult written

/-- The reconstruction of an upload whose sorted chunks cover it. -/
def reconstructCovered (cfg : Config) (chunkUpload : ChunkUpload) (chunks : List ChunkInfo) (expectedSha256 : Str) :
    AsyncResult FileMetadata := do
  ensureTempDir cfg
  let temp ← request (.reserveTemp cfg.storage.temp "reconstruct".toList none)
  let result ← attempt do
    let totalWritten ← withTemp temp
      (reconstructInto cfg.libs chunks chunkUpload.uploadLength expectedSha256 temp)
    let stored ← Upload.finalizeUpload cfg temp expectedSha256 totalWritten
      (Http.getExtensionFromMime cfg.libs chunkUpload.uploadType) (some chunkUpload.uploadType) chunkUpload.expiration
    return stored.metadata
  discardChunkFiles chunks
  ofResult result

/-- Reconstruct a claimed upload and publish it. -/
def reconstructBlob (cfg : Config) (chunkUpload : ChunkUpload) (expectedSha256 : Str) : AsyncResult FileMetadata := do
  let chunks := sortChunks chunkUpload.chunks
  match coverage chunks 0 with
  | .broken =>
    discardChunkFiles chunks
    throw (.badRequest "Chunk coverage has a gap or overlap")
  | .overflow => throw (.badRequest "Chunk length overflows")
  | .upTo expectedOffset =>
    if expectedOffset ≠ chunkUpload.uploadLength then
      discardChunkFiles chunks
      throw (.badRequest "Chunks do not cover the declared upload length")
    reconstructCovered cfg chunkUpload chunks expectedSha256

/-! ## `PATCH /upload` -/

/-- What the headers of a chunk say. -/
structure ChunkHeaders where
  sha256 : Str
  uploadType : Str
  uploadLength : Nat
  contentLength : Nat
  uploadOffset : Nat
  deriving DecidableEq, Repr

/-- A required number among the headers. -/
def parseHeader (headers : Headers) (name : String) (shown : String) : AppResult Nat :=
  match (Http.str headers name).bind parseU64 with
  | some n => .ok n
  | none => .error (.badRequest s!"Missing or invalid {shown} header")

/-- Read the headers of a chunk. -/
def parseChunkHeaders (headers : Headers) : AppResult ChunkHeaders := do
  let some sha256 := Http.str headers "x-sha-256"
    | throw (.badRequest "Missing X-SHA-256 header")
  validateSha256Format sha256
  let some uploadType := Http.str headers "upload-type"
    | throw (.badRequest "Missing Upload-Type header")
  let uploadLength ← parseHeader headers "upload-length" "Upload-Length"
  let contentLength ← parseHeader headers "content-length" "content-length"
  let uploadOffset ← parseHeader headers "upload-offset" "Upload-Offset"
  return ⟨sha256, uploadType, uploadLength, contentLength, uploadOffset⟩

/-- Check the numbers and the content type of a chunk. -/
def checkChunkHeaders (cfg : Config) (headers : Headers) (chunk : ChunkHeaders) : AppResult Unit :=
  if chunk.contentLength = 0 then .error (.badRequest "Empty chunks are not accepted")
  else if chunk.uploadLength = 0 ∨ chunk.uploadLength > cfg.maxBlobSizeBytes then
    .error (.payloadTooLarge "Upload-Length exceeds the configured blob limit")
  else if chunk.contentLength > cfg.maxChunkSizeBytes then
    .error (.payloadTooLarge "Chunk exceeds the configured chunk limit")
  else match checkedAdd chunk.uploadOffset chunk.contentLength with
    | none => .error (.badRequest "Upload-Offset overflows")
    | some chunkEnd =>
      if chunkEnd > chunk.uploadLength then .error (.badRequest "Chunk exceeds Upload-Length")
      else if Http.extractContentType headers ≠ Http.defaultContentType then
        .error (.badRequest "Chunk Content-Type must be application/octet-stream")
      else .ok ()

/-- Read and check the headers of a chunk. -/
def readChunkHeaders (cfg : Config) (headers : Headers) : AppResult ChunkHeaders := do
  let chunk ← parseChunkHeaders headers
  checkChunkHeaders cfg headers chunk
  return chunk

/-- The directory of the chunk files. -/
def chunksDir (layout : StorageLayout) : Path :=
  layout.temp ++ ["chunks".toList]

/-- The name of a chunk file. -/
def chunkName (sha256 : Str) (uploadOffset uuid : Nat) : Str :=
  "chunk_".toList ++ sha256 ++ '_' :: decimal uploadOffset ++ '_' :: decimal uuid

/-- Run the work under a reservation, which is released when the work fails. -/
def orRelease {α : Type} (key : ChunkUploadKey) (work : AsyncResult α) : AsyncResult α := do
  match ← attempt work with
  | .ok a => return a
  | .error error =>
    sessions (.release key)
    throw error

/-- Prepare the directory of the chunk files. -/
def prepareChunkDir (cfg : Config) (contentLength : Nat) : AsyncResult Unit := do
  ensureStorageCapacity cfg contentLength
  ensureTempDir cfg
  orIoErr (fun error => s!"Failed to create chunk directory: {error.message}")
    (fs (.createDirAll (chunksDir cfg.storage)))

/-- Write the body of a chunk to its file; the file of a body that is broken or of another length is removed. -/
def writeChunk (cfg : Config) (body : Body) (chunkPath : Path) (contentLength : Nat) : AsyncResult Unit := do
  match ← attempt (Upload.streamToTempFile cfg.libs body chunkPath contentLength) with
  | .error error =>
    let _ ← fs (.removeFile chunkPath)
    throw error
  | .ok (_, written) =>
    if written ≠ contentLength then
      let _ ← fs (.removeFile chunkPath)
      throw (.badRequest "Chunk body does not match Content-Length")

/-- Put an upload back whose payment was rejected, without its last chunk; when its key is in use again, drop its files. -/
def undoCompletion (key : ChunkUploadKey) (upload : ChunkUpload) (chunkPath : Path) : Async Unit := do
  if ← sessions (.restore key { upload with chunks := upload.chunks.dropLast }) then
    let _ ← fs (.removeFile chunkPath)
  else
    discardChunkFiles upload.chunks

/-- What follows the completion of an upload. -/
def finishUpload (cfg : Config) (headers : Headers) (key : ChunkUploadKey) (chunk : ChunkHeaders) (chunkPath : Path)
    (upload : ChunkUpload) : AsyncResult Response := do
  match ← attempt (charge cfg headers .upload chunk.uploadLength) with
  | .error paymentError =>
    undoCompletion key upload chunkPath
    throw paymentError
  | .ok () =>
    if upload.chunks.length = 1 ∧ upload.chunks.head?.any (fun c => c.length ≠ chunk.uploadLength) then
      return .bare 204
    if (upload.chunks.map (·.length)).sum ≠ chunk.uploadLength then
      return .bare 204
    let metadata ← reconstructBlob cfg upload chunk.sha256
    return ⟨200, some (chunk.sha256, metadata), none⟩

/-- Store the body of a chunk in a file of its own; returns its path. -/
def storeChunk (cfg : Config) (body : Body) (chunk : ChunkHeaders) : AsyncResult Path := do
  prepareChunkDir cfg chunk.contentLength
  let uuid ← request .uuid
  let chunkPath := chunksDir cfg.storage ++ [chunkName chunk.sha256 chunk.uploadOffset uuid]
  writeChunk cfg body chunkPath chunk.contentLength
  return chunkPath

/-- Receive the body of a chunk under its reservation; returns the path of the chunk file. -/
def receiveChunk (cfg : Config) (body : Body) (key : ChunkUploadKey) (chunk : ChunkHeaders) : AsyncResult Path :=
  orRelease key (storeChunk cfg body chunk)

/-- Handle one chunk of a resumable upload. -/
def patchUpload (cfg : Config) (headers : Headers) (body : Body) : AsyncResult Response := do
  let chunk ← ofResult (readChunkHeaders cfg headers)
  let authorized ← authorize cfg headers .chunkUpload
  authorized.bind chunk.sha256
  ensureNotQuarantined cfg.storage chunk.sha256
  let key : ChunkUploadKey := ⟨authorized.event.pubkey, chunk.sha256⟩
  let expiration ← extractExpiration headers
  let params : SessionParams := ⟨chunk.sha256, authorized.event.pubkey, chunk.uploadType, chunk.uploadLength, expiration⟩
  match ← sessions (.reserve key) with
  | .globalLimit | .perPubkeyLimit => throw (.conflict "Session capacity exhausted")
  | .granted =>
    let chunkPath ← receiveChunk cfg body key chunk
    match ← sessions (.commit key params ⟨chunk.uploadOffset, chunk.contentLength, chunkPath⟩) with
    | .incomplete => return .bare 204
    | .overlap | .paramMismatch =>
      let _ ← fs (.removeFile chunkPath)
      throw (.conflict "Chunk conflicts with an existing session")
    | .complete upload => finishUpload cfg headers key chunk chunkPath upload

/-! ## Abandoned chunks -/

/-- Remove the chunk files of evicted sessions. -/
def discardEvicted : List ChunkUpload → Async Unit
  | [] => return ()
  | upload :: uploads => do
    discardChunkFiles upload.chunks
    discardEvicted uploads

/-- Remove the files of the chunk directory that were last written before a time. -/
def sweepChunkFiles (directory : Path) (cutoffTime : Nat) : List Str → Async Unit
  | [] => do
    let _ ← fs (.nextEntry directory)
  | name :: names => do
    match ← fs (.nextEntry directory) with
    | .error _ => return ()
    | .ok () =>
      if (← fs (.fileType (directory ++ [name]))) matches .ok .file then
        if let .ok (_, modified) ← fs (.metadata (directory ++ [name])) then
          if modified < cutoffTime then
            let _ ← fs (.removeFile (directory ++ [name]))
      sweepChunkFiles directory cutoffTime names

/-- Remove chunk files that are older than the session timeout. -/
def cleanupOrphanedChunkFiles (cfg : Config) : Async Unit := do
  if (← fs (.tryExists (chunksDir cfg.storage))) matches .ok true then
    let now ← request .systemTime
    if let .ok names ← fs (.readDir (chunksDir cfg.storage)) then
      sweepChunkFiles (chunksDir cfg.storage) (now - cfg.chunkCleanupTimeout) names

/-- Clean up abandoned chunked uploads and their files. -/
def cleanupAbandonedChunks (cfg : Config) : Async Unit := do
  let evicted ← sessions (.evictOlderThan cfg.chunkCleanupTimeout)
  discardEvicted evicted
  cleanupOrphanedChunkFiles cfg

end Almond.Handlers
