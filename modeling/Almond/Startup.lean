import Almond.FileStorage

/-! # Storage initialization, the startup scan and retention

A walk of a directory tree pops directories off a stack until it is empty. The number of directories bounds it. -/

namespace Almond.Startup

/-- The error of a walk that met more directories than there are. -/
def unfinishedWalk : AppError :=
  .internalError "directory walk did not finish"

/-- Create directories. -/
def createDirs : List Path → AsyncResult Unit
  | [] => return ()
  | directory :: directories => do
    orIoErr (fun error => s!"Failed to create storage directory {display directory}: {error.message}")
      (fs (.createDirAll directory))
    createDirs directories

/-- Create all storage roots. -/
def initializeStorage (layout : StorageLayout) : AsyncResult Unit :=
  createDirs [layout.root, layout.uploads, layout.upstreamCache, layout.temp, layout.quarantine, layout.reports]

/-! ## The temporary directory -/

/-- Remove the entries of the temporary directory. -/
def clearEntries (tempDir : Path) : List Str → AsyncResult Unit
  | [] => orIoErr (·.message) (fs (.nextEntry tempDir))
  | name :: names => do
    orIoErr (·.message) (fs (.nextEntry tempDir))
    match ← fs (.fileType (tempDir ++ [name])) with
    | .ok .dir => orIoErr (·.message) (fs (.removeDirAll (tempDir ++ [name])))
    | .ok .file => orIoErr (·.message) (fs (.removeFile (tempDir ++ [name])))
    | _ => pure ()
    clearEntries tempDir names

/-- Clear the temporary directory. -/
def clearTempDirectory (tempDir : Path) : AsyncResult Unit := do
  match ← fs (.tryExists tempDir) with
  | .ok true =>
    let names ← orIoErr (·.message) (fs (.readDir tempDir))
    clearEntries tempDir names
  | _ => return ()

/-! ## Legacy trees -/

/-- Move one file of a legacy tree, or drop it when its destination has the same size. -/
def migrateFile (source destination : Path) : AsyncResult Unit := do
  let present ← orIoErr (fun error => s!"Failed to inspect migration destination {display destination}: {error.message}")
    (fs (.tryExists destination))
  if present then
    let (sourceSize, _) ← orIoErr (fun error => s!"Failed to inspect migration source {display source}: {error.message}")
      (fs (.metadata source))
    let (destinationSize, _) ← orIoErr
      (fun error => s!"Failed to inspect migration destination {display destination}: {error.message}")
      (fs (.metadata destination))
    if sourceSize ≠ destinationSize then
      throw (.ioError s!"Conflicting legacy migration files: {display source} and {display destination}")
    orIoErr (fun error => s!"Failed to remove migrated duplicate {display source}: {error.message}")
      (fs (.removeFile source))
  else
    orIoErr (fun error => s!"Failed to migrate {display source} to {display destination}: {error.message}")
      (fs (.rename source destination))

/-- Migrate the entries of one directory; returns the subdirectories. -/
def mergeEntries (source destination : Path) : List Str → AsyncResult (List (Path × Path))
  | [] => do
    orIoErr (fun error => s!"Failed to enumerate migration source {display source}: {error.message}")
      (fs (.nextEntry source))
    return []
  | name :: names => do
    orIoErr (fun error => s!"Failed to enumerate migration source {display source}: {error.message}")
      (fs (.nextEntry source))
    let fileType ← orIoErr
      (fun error => s!"Failed to inspect migration source {display (source ++ [name])}: {error.message}")
      (fs (.fileType (source ++ [name])))
    match fileType with
    | .dir =>
      let directories ← mergeEntries source destination names
      return (source ++ [name], destination ++ [name]) :: directories
    | .file =>
      migrateFile (source ++ [name]) (destination ++ [name])
      mergeEntries source destination names
    | .other => mergeEntries source destination names

/-- Walk a legacy tree. -/
def mergeDirs : Nat → List (Path × Path) → AsyncResult Unit
  | _, [] => return ()
  | 0, _ :: _ => throw unfinishedWalk
  | fuel + 1, (source, destination) :: directories => do
    orIoErr (fun error => s!"Failed to create migration destination {display destination}: {error.message}")
      (fs (.createDirAll destination))
    let names ← orIoErr (fun error => s!"Failed to read migration source {display source}: {error.message}")
      (fs (.readDir source))
    let found ← mergeEntries source destination names
    mergeDirs fuel (found.reverse ++ directories)

/-- Move one legacy tree into the uploads. -/
def mergeLegacyTree (source destination : Path) : AsyncResult Unit := do
  let fuel ← fs .dirCount
  mergeDirs fuel [(source, destination)]

/-- Whether a directory name is a single hexadecimal digit. -/
def isLegacyName (name : Str) : Bool :=
  name.length = 1 && name.all fun c => c.isDigit || ('a' ≤ c && c ≤ 'f') || ('A' ≤ c && c ≤ 'F')

/-- Move the legacy trees among the entries of the storage root. -/
def migrateEntries (layout : StorageLayout) : List Str → AsyncResult Unit
  | [] => orIoErr (fun error => s!"Failed to enumerate storage root {display layout.root}: {error.message}")
      (fs (.nextEntry layout.root))
  | name :: names => do
    orIoErr (fun error => s!"Failed to enumerate storage root {display layout.root}: {error.message}")
      (fs (.nextEntry layout.root))
    if isLegacyName name then
      let fileType ← orIoErr
        (fun error => s!"Failed to inspect legacy entry {display (layout.root ++ [name])}: {error.message}")
        (fs (.fileType (layout.root ++ [name])))
      if fileType = .dir then
        mergeLegacyTree (layout.root ++ [name]) (layout.uploads ++ [name])
    migrateEntries layout names

/-- Move legacy trees into the uploads. -/
def migrateLegacyBlobs (layout : StorageLayout) : AsyncResult Unit := do
  let names ← orIoErr (fun error => s!"Failed to read storage root {display layout.root}: {error.message}")
    (fs (.readDir layout.root))
  migrateEntries layout names

/-! ## The startup scan -/

/-- `Path::extension` of a file name: what follows its last dot, unless the dot begins the name. -/
def pathExtension (name : Str) : Option Str :=
  let reversed := name.reverse
  match reversed.dropWhile (· ≠ '.') with
  | [] | [_] => none
  | _ :: _ :: _ => some (reversed.takeWhile (· ≠ '.')).reverse

/-- What a scan has found: the entries, and the cache duplicates of uploads. -/
structure Scan where
  map : AList fun _ : Str => FileMetadata
  displaced : List FileMetadata

/-- A scan that has found nothing. -/
def Scan.empty : Scan := ⟨∅, []⟩

/-- Record one file. -/
def Scan.record (scan : Scan) (origin : BlobOrigin) (sha256 : Str) (metadata : FileMetadata) : Scan where
  map := scan.map.insert sha256 metadata
  displaced := match scan.map.lookup sha256 with
    | some previous =>
      if previous.origin = .upstreamCache ∧ origin = .upload then scan.displaced ++ [previous] else scan.displaced
    | none => scan.displaced

/-- What the index records of a scanned file. -/
def scannedMetadata (libs : Libs) (origin : BlobOrigin) (path : Path) (name : Str) (parsed : BlobName.ParsedName)
    (size modified : Nat) : FileMetadata where
  location := .localFile path
  extension := pathExtension name
  mimeType := libs.mimeFromPath path
  size := size
  createdAt := asSecs modified
  pubkey := none
  expiration := parsed.expiration
  origin := origin

/-- Scan the entries of one directory; returns the subdirectories and what was found. -/
def scanEntries (libs : Libs) (origin : BlobOrigin) (directory : Path) :
    List Str → List Path → Scan → AsyncResult (List Path × Scan)
  | [], directories, scan => do
    orIoErr (fun error => s!"Failed to enumerate blob root {display directory}: {error.message}")
      (fs (.nextEntry directory))
    return (directories, scan)
  | name :: names, directories, scan => do
    orIoErr (fun error => s!"Failed to enumerate blob root {display directory}: {error.message}")
      (fs (.nextEntry directory))
    let path := directory ++ [name]
    let fileType ← orIoErr (fun error => s!"Failed to inspect blob path {display path}: {error.message}")
      (fs (.fileType path))
    match fileType with
    | .dir => scanEntries libs origin directory names (path :: directories) scan
    | .other => scanEntries libs origin directory names directories scan
    | .file =>
      match BlobName.parse name with
      | none => scanEntries libs origin directory names directories scan
      | some parsed =>
        let (size, modified) ← orIoErr (fun error => s!"Failed to read blob metadata {display path}: {error.message}")
          (fs (.metadata path))
        scanEntries libs origin directory names directories
          (scan.record origin parsed.hash (scannedMetadata libs origin path name parsed size modified))

/-- Walk a blob root. -/
def scanDirs (libs : Libs) (origin : BlobOrigin) : Nat → List Path → Scan → AsyncResult Scan
  | _, [], scan => return scan
  | 0, _ :: _, _ => throw unfinishedWalk
  | fuel + 1, directory :: directories, scan => do
    let names ← orIoErr (fun error => s!"Failed to scan blob root {display directory}: {error.message}")
      (fs (.readDir directory))
    let (directories, scan) ← scanEntries libs origin directory names directories scan
    scanDirs libs origin fuel directories scan

/-- Scan one blob root. -/
def scanBlobRoot (libs : Libs) (root : Path) (origin : BlobOrigin) (scan : Scan) : AsyncResult Scan := do
  let fuel ← fs .dirCount
  scanDirs libs origin fuel [root] scan

/-- Remove the cache duplicates of uploads; a failure is only logged. -/
def removeDuplicates : List FileMetadata → Async Unit
  | [] => return ()
  | duplicate :: duplicates => do
    if let .localFile path := duplicate.location then
      let _ ← fs (.removeFile path)
    removeDuplicates duplicates

/-- Reconstruct the index: the cache is scanned first, then uploads overwrite. -/
def buildFileIndex (libs : Libs) (layout : StorageLayout) : AsyncResult Unit := do
  let cached ← scanBlobRoot libs layout.upstreamCache .upstreamCache .empty
  let scan ← scanBlobRoot libs layout.uploads .upload { cached with displaced := [] }
  index (.replace scan.map)
  removeDuplicates scan.displaced

/-- Initialize the state of a new process. A failed clearing of the temporary directory and a failed listing of the bucket are
only logged. -/
def buildState (cfg : Config) : AsyncResult Unit := do
  initializeStorage cfg.storage
  let _ ← attempt (clearTempDirectory cfg.storage.temp)
  migrateLegacyBlobs cfg.storage
  buildFileIndex cfg.libs cfg.storage
  if cfg.nativeS3 then
    let _ ← attempt (NativeStorage.syncIndex cfg.libs)
  request .ready

/-! ## Retention -/

/-- The earliest of several deadlines. -/
def earliest : Option Nat → Option Nat → Option Nat
  | some a, some b => some (min a b)
  | some a, none => some a
  | none, b => b

/-- The earliest deadline at which cleanup deletes a blob. A limit of 0 disables it. -/
def cleanupDeadline (metadata : FileMetadata) (maxFileAgeSecs maxUpstreamCacheTtlSecs : Nat) : Option Nat :=
  let ageDeadline (secs : Nat) : Option Nat := if secs > 0 then some (saturatingAdd metadata.createdAt secs) else none
  match metadata.origin with
  | .upload => earliest metadata.expiration (ageDeadline maxFileAgeSecs)
  | .upstreamCache => ageDeadline maxUpstreamCacheTtlSecs

/-- Whether a blob's deadline has passed. -/
def expired (cfg : Config) (metadata : FileMetadata) (now : Nat) : Bool :=
  (cleanupDeadline metadata cfg.maxFileAgeSecs cfg.maxUpstreamCacheTtlSecs).any fun deadline => deadline ≤ now

/-- The deadline announced as `Sunset`: the one of an upload. A cache copy announces none. -/
def sunsetExpiration (metadata : FileMetadata) (maxFileAgeSecs : Nat) : Option Nat :=
  match metadata.origin with
  | .upload => cleanupDeadline metadata maxFileAgeSecs 0
  | .upstreamCache => none

/-- Evict one candidate; returns whether it was removed. -/
def deleteCleanupCandidate (cfg : Config) (sha256 : Str) (metadata : FileMetadata) : AsyncResult Bool := do
  match ← attempt (FileStorage.removeIndexedBlob cfg sha256 .evicted (some metadata)) with
  | .ok removed => return removed
  | .error _ => return false

/-- Evict the blobs whose deadline has passed. -/
def evictExpired (cfg : Config) (now : Nat) : List (Str × FileMetadata) → AsyncResult Unit
  | [] => return ()
  | (sha256, metadata) :: entries => do
    if expired cfg metadata now then
      let _ ← deleteCleanupCandidate cfg sha256 metadata
    evictExpired cfg now entries

/-- The order of eviction under capacity pressure: cache copies first, then the oldest. -/
def capacityEvictionOrder (entries : List (Str × FileMetadata)) : List (Str × FileMetadata) :=
  let byOrigin (origin : BlobOrigin) :=
    (entries.filter fun e => e.2.origin = origin).insertionSort fun a b => a.2.createdAt ≤ b.2.createdAt
  byOrigin .upstreamCache ++ byOrigin .upload

/-- Evict until the aggregate limits hold. -/
def evictCapacity (cfg : Config) : List (Str × FileMetadata) → Nat → Nat → AsyncResult Unit
  | [], _, _ => return ()
  | (sha256, metadata) :: entries, totalSize, totalFiles => do
    let sizeOk := cfg.maxTotalSize = 0 ∨ totalSize ≤ cfg.maxTotalSize
    let filesOk := cfg.maxTotalFiles = 0 ∨ totalFiles ≤ cfg.maxTotalFiles
    if sizeOk ∧ filesOk then
      return ()
    if ← deleteCleanupCandidate cfg sha256 metadata then
      evictCapacity cfg entries (totalSize - metadata.size) (totalFiles - 1)
    else
      evictCapacity cfg entries totalSize totalFiles

/-- Look at the entries of one directory; returns the subdirectories and whether there was any entry. -/
def emptyDirEntries (directory : Path) : List Str → List Path → Async (List Path)
  | [], directories => do
    let _ ← fs (.nextEntry directory)
    return directories
  | name :: names, directories => do
    match ← fs (.nextEntry directory) with
    | .error _ => return directories
    | .ok () =>
      match ← fs (.fileType (directory ++ [name])) with
      | .ok .dir => emptyDirEntries directory names ((directory ++ [name]) :: directories)
      | _ => emptyDirEntries directory names directories

/-- Collect the empty directories below a root. -/
def emptyDirs (root : Path) : Nat → List Path → List Path → Async (List Path)
  | _, [], found => return found
  | 0, _ :: _, found => return found
  | fuel + 1, directory :: directories, found => do
    match ← fs (.readDir directory) with
    | .error _ => emptyDirs root fuel directories found
    | .ok names =>
      let directories ← emptyDirEntries directory names directories
      emptyDirs root fuel directories (if names = [] ∧ directory ≠ root then directory :: found else found)

/-- Remove directories; a failure is ignored. -/
def removeDirs : List Path → Async Unit
  | [] => return ()
  | directory :: directories => do
    let _ ← fs (.removeDir directory)
    removeDirs directories

/-- Remove the empty directories below a root, the innermost first. -/
def cleanupEmptyDirs (root : Path) : Async Unit := do
  let fuel ← fs .dirCount
  let found ← emptyDirs root fuel [root] []
  removeDirs found

/-- Apply expiration and capacity cleanup at an injected time. -/
def enforceStorageLimitsAt (cfg : Config) (now : Nat) : AsyncResult Unit := do
  FileStorage.reconcileSupersededBlobs cfg
  let entries ← index .snapshot
  evictExpired cfg now entries
  let remaining ← index .snapshot
  evictCapacity cfg (capacityEvictionOrder remaining) (remaining.foldl (fun sum e => saturatingAdd sum e.2.size) 0)
    remaining.length
  cleanupEmptyDirs cfg.storage.uploads
  cleanupEmptyDirs cfg.storage.upstreamCache

/-- Apply expiration and capacity cleanup. -/
def enforceStorageLimits (cfg : Config) : AsyncResult Unit := do
  let now ← nowSecs
  enforceStorageLimitsAt cfg now

end Almond.Startup
