import Almond.Effects

/-! # The S3 backend -/

namespace Almond.NativeStorage

/-- The key of a blob: `<h0>/<h1>/<name>`. -/
def objectKey (sha256 : Str) (extension : Option Str) (expiration : Option Nat) : AppResult Str := do
  let (h0, h1) ← BlobName.fanOut sha256
  let filename ← BlobName.name sha256 expiration extension
  return h0 ++ '/' :: h1 ++ '/' :: filename

/-- The prefix of every key of a hash. -/
def hashPrefix (sha256 : Str) : AppResult Str := do
  let (h0, h1) ← BlobName.fanOut sha256
  return h0 ++ '/' :: h1 ++ '/' :: sha256

/-- Read a key back into the parts of its blob name. -/
def parseObjectKey (key : Str) : Option BlobName.ParsedName :=
  match key.splitOn '/' with
  | [first, second, filename] =>
    match BlobName.parse filename with
    | some parsed =>
      if first = parsed.hash.take 1 ∧ second = (parsed.hash.drop 1).take 1 then some parsed else none
    | none => none
  | _ => none

/-- What the index records of a listed object. -/
def objectMetadata (libs : Libs) (key : Str) (object : S3Object) (parsed : BlobName.ParsedName) : FileMetadata where
  location := .s3 key
  extension := parsed.extension
  mimeType := parsed.extension.bind libs.mimeFromExt
  size := object.data.length
  createdAt := object.lastModified
  pubkey := none
  expiration := parsed.expiration
  origin := .upload

/-- Fail with 503 while the bucket is unreachable. -/
def ensureAvailable : AsyncResult Unit := do
  match ← request .s3Status with
  | .available => return ()
  | .unavailable error _ => throw (.serviceUnavailable s!"S3 storage is unavailable: {error}")

/-- The objects of a page that the index can record. -/
def pageEntries (libs : Libs) (objects : List (Str × S3Object)) : List (Str × FileMetadata) :=
  objects.filterMap fun (key, object) =>
    (parseObjectKey key).map fun parsed => (parsed.hash, objectMetadata libs key object parsed)

/-- The entries of the pages of a listing. -/
def listPages (libs : Libs) : List PageToken → AsyncResult (List (Str × FileMetadata))
  | [] => return []
  | page :: pages => do
    let objects ← orS3Err "S3 ListObjectsV2 failed: " (s3 (.listPage [] page))
    let entries ← listPages libs pages
    return pageEntries libs objects ++ entries

/-- List the bucket. -/
def listAll (libs : Libs) : AsyncResult (List (Str × FileMetadata)) := do
  let pages ← s3 .paginate
  listPages libs pages

/-- Merge listed entries into the index: an indexed hash keeps its entry. -/
def mergeListing : List (Str × FileMetadata) → Async Unit
  | [] => return ()
  | (sha256, metadata) :: entries => do
    unless ← index (.contains sha256) do
      index (.insert sha256 metadata)
    mergeListing entries

/-- List the bucket and merge it into the index, then record whether the bucket answered. -/
def syncIndex (libs : Libs) : AsyncResult Unit := do
  match ← attempt (listAll libs) with
  | .ok entries =>
    mergeListing entries
    request (.setS3Status .available)
  | .error error =>
    let lastAttempt ← nowSecs
    request (.setS3Status (.unavailable error.toText lastAttempt))
    throw error

/-- Store a temporary file under the key of its blob, and consume it. -/
def put (tempPath : Path) (sha256 : Str) (extension : Option Str) (expiration : Option Nat) : AsyncResult Str := do
  let key ← ofResult (objectKey sha256 extension expiration)
  let ino ← orIoErr (fun error => s!"Unable to read temporary blob for S3 upload: {error.message}")
    (fs (.openFile tempPath))
  orS3Err "S3 PutObject failed: " (s3 (.putObject key ino))
  orIoErr (fun error => error.message) (fs (.removeFile tempPath))
  return key

/-- The first object of a page that belongs to a hash. -/
def firstOf (libs : Libs) (sha256 : Str) (objects : List (Str × S3Object)) : Option FileMetadata :=
  ((pageEntries libs objects).find? fun e => e.1 = sha256).map (·.2)

/-- Search the pages of a listing for an object of a hash. -/
def findInPages (libs : Libs) (sha256 keyPrefix : Str) : List PageToken → AsyncResult (Option FileMetadata)
  | [] => return none
  | page :: pages => do
    let objects ← orS3Err "S3 ListObjectsV2 failed: " (s3 (.listPage keyPrefix page))
    match firstOf libs sha256 objects with
    | some metadata => return some metadata
    | none => findInPages libs sha256 keyPrefix pages

/-- Find an object of a hash. -/
def find (libs : Libs) (sha256 : Str) : AsyncResult (Option FileMetadata) := do
  let keyPrefix ← ofResult (hashPrefix sha256)
  let pages ← s3 .paginate
  findInPages libs sha256 keyPrefix pages

/-- Delete one object. -/
def delete (key : Str) : AsyncResult Unit :=
  orS3Err "S3 DeleteObject failed: " (s3 (.deleteObject key))

/-- The keys of a page that belong to a hash. -/
def matchingKeys (sha256 : Str) (objects : List (Str × S3Object)) : List Str :=
  (objects.map (·.1)).filter fun key => (parseObjectKey key).any fun parsed => parsed.hash = sha256

/-- Delete objects, one after another. -/
def deleteKeys : List Str → AsyncResult Unit
  | [] => return ()
  | key :: keys => do
    delete key
    deleteKeys keys

/-- Delete the objects of a hash on the pages of a listing. -/
def deleteInPages (sha256 keyPrefix : Str) : List PageToken → AsyncResult Unit
  | [] => return ()
  | page :: pages => do
    let objects ← orS3Err "S3 ListObjectsV2 failed: " (s3 (.listPage keyPrefix page))
    deleteKeys (matchingKeys sha256 objects)
    deleteInPages sha256 keyPrefix pages

/-- Delete every object of a hash. -/
def deleteMatching (sha256 : Str) : AsyncResult Unit := do
  let keyPrefix ← ofResult (hashPrefix sha256)
  let pages ← s3 .paginate
  deleteInPages sha256 keyPrefix pages

end Almond.NativeStorage
