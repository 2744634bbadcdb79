import Almond.NativeStorage

/-! # Publication and removal of blobs -/

namespace Almond.FileStorage

/-- The caller-provided properties of one completed blob. -/
structure BlobPublication where
  sha256 : Str
  origin : BlobOrigin
  extension : Option Str
  mimeType : Option Str
  size : Nat
  expiration : Option Nat
  deriving DecidableEq, Repr

/-- The result of one storage publication. -/
structure StoredBlob where
  metadata : FileMetadata
  created : Bool
  deriving DecidableEq, Repr

/-- The metadata of a publication at a location. -/
def BlobPublication.metadata (publication : BlobPublication) (location : FileLocation) : Async FileMetadata := do
  let createdAt ← nowSecs
  return {
    location := location
    extension := publication.extension
    mimeType := publication.mimeType
    size := publication.size
    createdAt := createdAt
    pubkey := none
    expiration := publication.expiration
    origin := publication.origin }

/-- The root selected by an origin. -/
def originRoot (layout : StorageLayout) : BlobOrigin → Path
  | .upload => layout.uploads
  | .upstreamCache => layout.upstreamCache

/-- The path of a completed blob. -/
def completedPath (layout : StorageLayout) (origin : BlobOrigin) (hash : Str) (extension : Option Str)
    (expiration : Option Nat) : AppResult Path := do
  let (h0, h1) ← BlobName.fanOut hash
  let filename ← BlobName.name hash expiration extension
  return originRoot layout origin ++ [h0, h1, filename]

/-- Create the parent directories of a file. -/
def createParentDirs (path : Path) : AsyncResult Unit :=
  orIoErr (fun error => s!"Failed to create directory {display path.dropLast}: {error.message}")
    (fs (.createDirAll path.dropLast))

/-- Remove a file; a missing one is no error. -/
def removeLocalFile (path : Path) : AsyncResult Unit := do
  match ← fs (.removeFile path) with
  | .ok () => return ()
  | .error error =>
    if error.kind = .notFound then return ()
    else throw (.ioError s!"Failed to remove file {display path}: {error.message}")

/-- Validate the format of a hash. -/
def validateSha256Format (sha256 : Str) : AppResult Unit :=
  if BlobName.isValidHash sha256 then .ok ()
  else .error (.badRequest "SHA-256 must be exactly 64 lowercase hexadecimal characters")

/-! ## Quarantine -/

/-- Whether the name of a quarantined file belongs to a hash. -/
def quarantineNameMatches (sha256 name : Str) : Bool :=
  sha256.isPrefixOf name &&
    (name.drop sha256.length = [] || (name.drop sha256.length).head? = some '_' || (name.drop sha256.length).head? = some '.')

/-- Look for a name that belongs to a hash. -/
def inspectEntries (quarantine : Path) (sha256 : Str) : List Str → AsyncResult Unit
  | [] =>
    orIoErr (fun error => s!"Failed to read quarantine directory {display quarantine}: {error.message}")
      (fs (.nextEntry quarantine))
  | name :: names => do
    orIoErr (fun error => s!"Failed to read quarantine directory {display quarantine}: {error.message}")
      (fs (.nextEntry quarantine))
    if quarantineNameMatches sha256 name then throw (.forbidden "Blob is quarantined and cannot be uploaded")
    inspectEntries quarantine sha256 names

/-- Reject a hash that was quarantined. -/
def ensureNotQuarantined (layout : StorageLayout) (sha256 : Str) : AsyncResult Unit := do
  ofResult (validateSha256Format sha256)
  match ← fs (.readDir layout.quarantine) with
  | .ok names => inspectEntries layout.quarantine sha256 names
  | .error error =>
    if error.kind = .notFound then return ()
    else throw (.ioError
      s!"Failed to inspect quarantine directory {display layout.quarantine}: {error.message}")

/-! ## Publication -/

/-- Remove the bytes of an entry. -/
def removePhysicalFile (cfg : Config) (metadata : FileMetadata) : AsyncResult Unit :=
  match metadata.location with
  | .localFile path => removeLocalFile path
  | .s3 key =>
    if cfg.nativeS3 then NativeStorage.delete key
    else throw (.serviceUnavailable "S3 storage is not configured")

/-- Make metadata visible, and remove the copy it displaced. -/
def publishMetadata (cfg : Config) (sha256 : Str) (metadata : FileMetadata) : AsyncResult StoredBlob := do
  match ← index (.publish sha256 metadata) with
  | .published displaced =>
    match ← index (.get sha256) with
    -- A panic of the source: the guard keeps the published entry in place.
    | none => throw (.internalError "published blob must remain indexed")
    | some published =>
      if let some displaced := displaced then
        if let .error _ ← attempt (removePhysicalFile cfg displaced) then
          request (.queueSuperseded sha256 displaced)
      return ⟨published, true⟩
  | .retained existing => return ⟨existing, false⟩

/-- The part of a publication that moves the bytes to S3. -/
def publishToS3 (cfg : Config) (temp : Path) (publication : BlobPublication) : AsyncResult StoredBlob := do
  NativeStorage.ensureAvailable
  let key ← NativeStorage.put temp publication.sha256 publication.extension publication.expiration
  request (.intoPublished temp)
  let metadata ← publication.metadata (.s3 key)
  publishMetadata cfg publication.sha256 metadata

/-- The part of a publication that moves the bytes to their completed path. -/
def publishToDisk (cfg : Config) (temp : Path) (publication : BlobPublication) : AsyncResult StoredBlob := do
  let finalPath ← ofResult (completedPath cfg.storage publication.origin publication.sha256 publication.extension
    publication.expiration)
  createParentDirs finalPath
  let present ← orIoErr (fun error => s!"Failed to inspect final blob path {display finalPath}: {error.message}")
    (fs (.tryExists finalPath))
  if present then
    removeLocalFile finalPath
  orIoErr (fun error => s!"Failed to publish {display temp} to {display finalPath}: {error.message}")
    (fs (.rename temp finalPath))
  request (.intoPublished temp)
  let metadata ← publication.metadata (.localFile finalPath)
  publishMetadata cfg publication.sha256 metadata

/-- Whether an indexed blob keeps its place against a publication. -/
def keepsIncumbent (publication : BlobPublication) (existing : FileMetadata) : Bool :=
  publication.origin = .upstreamCache || existing.origin = .upload

/-- The part of a publication under the mutation guard. -/
def publishLocked (cfg : Config) (temp : Path) (publication : BlobPublication) : AsyncResult StoredBlob := do
  ensureNotQuarantined cfg.storage publication.sha256
  let store : AsyncResult StoredBlob :=
    if publication.origin = .upload ∧ cfg.nativeS3 = true then publishToS3 cfg temp publication
    else publishToDisk cfg temp publication
  match ← index (.get publication.sha256) with
  | some existing => if keepsIncumbent publication existing then return ⟨existing, false⟩ else store
  | none => store

/-- Publish a completed temporary file into its origin-specific final location. The temporary file is unlinked after the guard is
given back, unless it was published. -/
def publishBlob (cfg : Config) (temp : Path) (publication : BlobPublication) : AsyncResult StoredBlob := do
  let stored ← attempt do
    ofResult (validateSha256Format publication.sha256)
    guarded publication.sha256 (publishLocked cfg temp publication)
  request (.dropTemp temp)
  ofResult stored

/-- Publish metadata for bytes that are already in place. -/
def publishExistingMetadata (cfg : Config) (sha256 : Str) (metadata : FileMetadata) : AsyncResult FileMetadata := do
  let stored ← guarded sha256 (publishMetadata cfg sha256 metadata)
  return stored.metadata

/-- Retry the removal of the copies in a queue; returns those that remain. -/
def retrySuperseded (cfg : Config) : List (Str × FileMetadata) → AsyncResult (List (Str × FileMetadata))
  | [] => return []
  | (sha256, metadata) :: pending => do
    let removed ← attempt (guarded sha256 (removePhysicalFile cfg metadata))
    let retry ← retrySuperseded cfg pending
    match removed with
    | .ok () => return retry
    | .error _ => return (sha256, metadata) :: retry

/-- Retry the removal of copies displaced by a successful publication. -/
def reconcileSupersededBlobs (cfg : Config) : AsyncResult Unit := do
  let pending ← request .takeSuperseded
  let retry ← retrySuperseded cfg pending
  request (.extendSuperseded retry)

/-! ## Capacity -/

/-- Create the temporary directory. -/
def ensureTempDir (cfg : Config) : AsyncResult Unit :=
  orIoErr (fun error => s!"Failed to create temporary storage {display cfg.storage.temp}: {error.message}")
    (fs (.createDirAll cfg.storage.temp))

/-- Whether the configured totals have no room for more bytes. -/
def overQuota (cfg : Config) (stats : IndexStats) (bytes : Nat) : Bool :=
  (cfg.maxTotalSize ≠ 0 && saturatingAdd stats.totalBytes bytes > cfg.maxTotalSize) ||
    (cfg.maxTotalFiles ≠ 0 && stats.count ≥ cfg.maxTotalFiles)

/-- Reject a write that the configured limits have no room for. -/
def ensureStorageCapacity (cfg : Config) (bytes : Nat) : AsyncResult Unit := do
  if bytes > cfg.maxBlobSizeBytes then
    throw (.payloadTooLarge s!"Blob size {bytes} exceeds configured maximum {cfg.maxBlobSizeBytes}")
  let stats ← index .stats
  if overQuota cfg stats bytes then throw (.insufficientStorage "Storage quota would be exceeded")
  let available ← orIoErr (fun error => s!"Failed to inspect available disk space: {error.message}")
    (fs .availableSpace)
  if available < saturatingAdd cfg.minFreeDiskBytes bytes then
    throw (.insufficientStorage "Configured free-disk reserve would be violated")

/-! ## Removal -/

/-- Why a blob is leaving the served set. -/
inductive Removal where
  | requested
  | reported
  | quarantined
  | evicted
  deriving DecidableEq, Repr

/-- Whether a removal also drops the backend objects that the index does not point at. -/
def Removal.sweepsBackend : Removal → Bool
  | .requested | .reported => true
  | .quarantined | .evicted => false

/-- Drop every object stored under a hash. -/
def sweepBackendCopies (cfg : Config) (sha256 : Str) : AsyncResult Unit :=
  if cfg.nativeS3 then NativeStorage.deleteMatching sha256 else return ()

/-- Move a local blob into the quarantine root; a blob in the bucket is removed. -/
def quarantineCurrent (cfg : Config) (sha256 : Str) (metadata : FileMetadata) : AsyncResult Unit :=
  match metadata.location with
  | .s3 _ => sweepBackendCopies cfg sha256
  | .localFile path => do
    let quarantine := cfg.storage.quarantine
    orIoErr (fun error => s!"Failed to create quarantine directory {display quarantine}: {error.message}")
      (fs (.createDirAll quarantine))
    let destination := quarantine ++ [path.getLast?.getD sha256]
    orIoErr (fun error => s!"Failed to quarantine {display path} into {display destination}: {error.message}")
      (fs (.rename path destination))

/-- Whether the index has moved on since a caller selected an entry. -/
def movedOn (current : FileMetadata) : Option FileMetadata → Bool
  | none => false
  | some expected =>
    current.location ≠ expected.location || current.createdAt ≠ expected.createdAt || current.origin ≠ expected.origin

/-- What a removal does to the bytes of the current entry. -/
def dispose (cfg : Config) (sha256 : Str) (removal : Removal) (current : FileMetadata) : AsyncResult Unit :=
  if removal = .quarantined then quarantineCurrent cfg sha256 current else removePhysicalFile cfg current

/-- The part of a removal under the mutation guard. -/
def removeLocked (cfg : Config) (sha256 : Str) (removal : Removal) (expected : Option FileMetadata) : AsyncResult Bool := do
  match ← index (.get sha256) with
  | none =>
    if removal.sweepsBackend then
      sweepBackendCopies cfg sha256
    return false
  | some current =>
    if movedOn current expected then return false
    dispose cfg sha256 removal current
    if removal.sweepsBackend then
      sweepBackendCopies cfg sha256
    index (.removeIfLocationMatches sha256 current.location)

/-- Remove one indexed blob under the per-hash mutation guard; returns whether an indexed entry was removed. -/
def removeIndexedBlob (cfg : Config) (sha256 : Str) (removal : Removal) (expected : Option FileMetadata) : AsyncResult Bool :=
  guarded sha256 (removeLocked cfg sha256 removal expected)

end Almond.FileStorage
