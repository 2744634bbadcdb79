import Almond.Cashu
import Almond.Upload

/-! # Serving blobs -/

namespace Almond.Serving

/-- Where the bytes of a requested blob come from. -/
inductive BlobSource where
  | indexed (metadata : FileMetadata)
  /-- A file outside the storage roots. -/
  | serveFile (file : ServeFile)
  /-- Not held here: a recent miss, or a walk over the upstream servers. -/
  | upstream
  deriving DecidableEq, Repr

/-- The bytes behind a resolved blob. -/
inductive BlobBytes where
  | localFile (path : Path)
  | native (key : Str)
  deriving DecidableEq, Repr

/-- The hash in `<hash>` or `<hash>.<extension>`. -/
def getSha256HashFromFilename (filename : Str) : Option Str :=
  let hash := filename.takeWhile (· ≠ '.')
  if byteLen hash = 64 && hash.all fun c => c.isDigit || ('a' ≤ c && c ≤ 'f') || ('A' ≤ c && c ≤ 'F') then some hash
  else none

/-- The refusal of a name without a hash. -/
def badFilename (filename : Str) : AppError :=
  if byteLen (filename.takeWhile (· ≠ '.')) = 64 then .badRequest "Invalid SHA-256 hash"
  else .notFound "Blob not found"

/-- Find a blob in the bucket that the index does not know, and index it. -/
def discoverBlob (cfg : Config) (fileHash : Str) : AsyncResult (Option FileMetadata) := do
  if cfg.nativeS3 then
    NativeStorage.ensureAvailable
    match ← NativeStorage.find cfg.libs fileHash with
    | some metadata => return some (← FileStorage.publishExistingMetadata cfg fileHash metadata)
    | none => return none
  else return none

/-- Decide where a blob comes from. -/
def resolveBlob (cfg : Config) (fileHash : Str) : AsyncResult BlobSource := do
  match ← index (.get fileHash) with
  | some metadata => return .indexed metadata
  | none =>
    match ← discoverBlob cfg fileHash with
    | some published => return .indexed published
    | none =>
      match ← request (.getServeFile fileHash) with
      | some file => return .serveFile file
      | none => return .upstream

/-- Serve a file, or a range of it. -/
def serveFileWithRange (path : Path) (headers : Headers) (etag : Str) : AsyncResult Response := do
  match ← fs (.openFile path) with
  | .error error =>
    if error.kind = .notFound then throw (.notFound s!"Blob file no longer exists: {error.message}")
    else throw (.ioError s!"Failed to open file: {error.message}")
  | .ok file =>
    match ← fs (.fileLen file) with
    | .error error =>
      if error.kind = .notFound then throw (.notFound s!"Blob file no longer exists: {error.message}")
      else throw (.ioError s!"Failed to read file metadata: {error.message}")
    | .ok totalSize =>
      let range := Http.requestedRange headers etag totalSize
      if let .satisfiable start _ := range then
        orIoErr (fun error => s!"Failed to seek in file: {error.message}") (fs (.seek file start))
      return Http.rangeResponse range totalSize

/-- Serve an object of the bucket, or a range of it. -/
def serveS3WithRange (key : Str) (totalSize : Nat) (headers : Headers) (etag : Str) : AsyncResult Response := do
  let range := Http.requestedRange headers etag totalSize
  if range = .unsatisfiable then
    return Http.rangeResponse range totalSize
  orS3Err "S3 GetObject failed: " (s3 (.getObject key))
  return Http.rangeResponse range totalSize

/-- Turn a resolved blob into a response. -/
def serveBlob (cfg : Config) (headers : Headers) (head : Bool) (fileHash : Str) (size : Nat) (bytes : BlobBytes) :
    AsyncResult Response := do
  let etag := Http.blobEtag fileHash
  if Http.notModified headers etag then return .bare 304
  if head then return .bare 200
  Cashu.charge cfg headers .download size
  match bytes with
  | .localFile path => serveFileWithRange path headers etag
  | .native key => serveS3WithRange key size headers etag

/-- The bytes of an indexed blob. -/
def blobBytes (cfg : Config) (metadata : FileMetadata) : AppResult BlobBytes :=
  match metadata.location with
  | .localFile path => .ok (.localFile path)
  | .s3 key =>
    if cfg.nativeS3 then .ok (.native key)
    else .error (.serviceUnavailable "S3 storage is not configured")

/-- Handle a `GET` or a `HEAD` of a blob. -/
def handleFileRequest (cfg : Config) (headers : Headers) (head : Bool) (filename : Str) : AsyncResult Response := do
  match getSha256HashFromFilename filename with
  | none => throw (badFilename filename)
  | some fileHash =>
    match ← resolveBlob cfg fileHash with
    | .indexed metadata =>
      let bytes ← ofResult (blobBytes cfg metadata)
      serveBlob cfg headers head fileHash metadata.size bytes
    | .serveFile file => serveBlob cfg headers head fileHash file.size (.localFile file.path)
    | .upstream => ExceptT.mk (request (.fetchFromUpstream filename))

end Almond.Serving
