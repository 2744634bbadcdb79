import Almond.System

/-! # A small server

One configuration, one hash and one freshly started server, at which statements about all of them are evaluated. -/

namespace Almond.Sample

open Conc

/-- A hash. -/
def hash : Str := List.replicate 64 'a'

/-- An authorization to upload the hash. -/
def event : Event where
  id := []
  pubkey := []
  createdAt := 1700000000
  kind := 24242
  tags := [⟨"t".toList, some "upload".toList⟩, ⟨"x".toList, some hash⟩, ⟨"expiration".toList, some "1700003600".toList⟩]
  content := []
  sig := []

/-- A mint. -/
def mint : Str := "https://mint.example".toList

/-- Libraries that know no media type, one event and one token. -/
def libs : Libs where
  sha256Hex _ := hash
  mimeFromExt _ := none
  mimeFromPath _ := none
  mimeExtensions _ := none
  decodeBase64 _ := .ok []
  fromUtf8 _ := .ok []
  parseEvent _ := .ok event
  verifyEvent _ := .ok ()
  showKind n := toString n
  parseToken _ := .ok ⟨.ok mint, .ok 1⟩
  parseUrlField _ := .ok none

/-- A server with its storage below `/srv` and a bucket. -/
def config : Config where
  storage := StorageLayout.new ["srv".toList]
  nativeS3 := true
  maxTotalSize := 0
  maxTotalFiles := 0
  maxBlobSizeBytes := 1048576
  minFreeDiskBytes := 0
  maxUpstreamDownloadSizeBytes := 1048576
  maxChunkSizeBytes := 1048576
  maxFileAgeSecs := 0
  maxUpstreamCacheTtlSecs := 0
  chunkCleanupTimeout := 1800000000000
  sessionLimits := ⟨100, 10⟩
  featureUploadEnabled := .public
  featureMirrorEnabled := .public
  featurePaidUpload := false
  featurePaidMirror := false
  featurePaidDownload := false
  cashuPricePerMb := 1
  cashuAcceptedMints := []
  cashuWallet := false
  publicUrl := "https://blobs.example".toList
  allowedPubkeys := []
  authMaxTtlSecs := 3600
  authRequireServerTag := false
  libs := libs

/-- A `GET` of the hash. -/
def get : Op := .get [] false hash

/-- The headers of a chunk that is the whole blob. -/
def chunkHeaders : Headers :=
  [("authorization".toList, "Nostr e30=".toList), ("x-sha-256".toList, hash), ("upload-type".toList, "image/png".toList),
    ("upload-length".toList, "3".toList), ("content-length".toList, "3".toList), ("upload-offset".toList, "0".toList)]

/-- The blob in one chunk. -/
def patch : Op := .patch chunkHeaders [.ok [1, 2, 3]]

/-- The object key of the hash. -/
def key : Str := "a/a/".toList ++ hash

/-- A disk with the storage directories and no file. -/
def disk : Disk where
  names := ∅
  nodes _ := ⟨[], 0⟩
  nextIno := 0
  dirs := [[], config.storage.root, config.storage.uploads, config.storage.upstreamCache, config.storage.temp,
    config.storage.quarantine, config.storage.reports]

/-- A server that has just started, with nothing stored. -/
def started : AppState where
  disk := disk
  bucket := ∅
  clock := ⟨1700000000000000000, 0⟩
  uuids := 0
  receipts := []
  s3Status := .available
  index := .empty
  superseded := []
  sessions := .empty
  trustedPubkeys := []
  dvmPubkeys := []
  destructiveEventReplays := ∅
  tickets := []
  temps := []
  writing := []
  up := true

/-- An outside that decides nothing. -/
def calm : Env where
  fs := ⟨none, 65536, 1000000000⟩
  s3 := ⟨none, []⟩
  announced := .ok false
  settled := .error "no mint"
  fetched := .error (.networkError "no network")
  serveFile := none
  upstream := .error (.notFound "File not found")
  system := 1700000000000000000
  elapsed := 0

/-- Several steps of one task. -/
def steps (t : Tid) (n : Nat) : List (Move Env Op) :=
  List.replicate n (.step t calm)

/-- The bucket holds one object of the hash. -/
def stocked : AppState :=
  { started with bucket := AList.insert key ⟨[1, 2, 3], 1690000000⟩ ∅ }

/-- An uploaded blob of three bytes. -/
def metadata (name : Str) : FileMetadata :=
  ⟨.localFile (config.storage.uploads ++ [name]), none, none, 3, 1700000000, none, none, .upload⟩

end Almond.Sample
