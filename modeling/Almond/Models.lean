import Almond.BlobName

/-! # The data the program works on -/

namespace Almond

/-- A Nostr public key, in hexadecimal. -/
abbrev PublicKey := Str

/-- Where the bytes of a blob are. -/
inductive FileLocation where
  | localFile (path : Path)
  | s3 (key : Str)
  deriving DecidableEq, Repr

/-- The reason a completed blob is retained. -/
inductive BlobOrigin where
  | upload
  | upstreamCache
  deriving DecidableEq, Repr

/-- What the index knows about one blob. -/
structure FileMetadata where
  location : FileLocation
  extension : Option Str
  mimeType : Option Str
  size : Nat
  createdAt : Nat
  pubkey : Option PublicKey
  expiration : Option Nat
  origin : BlobOrigin
  deriving DecidableEq, Repr

/-- The storage roots. -/
structure StorageLayout where
  root : Path
  uploads : Path
  upstreamCache : Path
  temp : Path
  quarantine : Path
  reports : Path
  deriving DecidableEq, Repr

/-- The roots below one storage path. -/
def StorageLayout.new (root : Path) : StorageLayout where
  root := root
  uploads := root ++ ["uploads".toList]
  upstreamCache := root ++ ["upstream-cache".toList]
  temp := root ++ ["temp".toList]
  quarantine := root ++ ["quarantine".toList]
  reports := root ++ ["reports".toList]

/-- Who may use a feature. -/
inductive FeatureMode where
  | off
  | wot
  | dvm
  | «public»
  deriving DecidableEq, Repr

/-! ## Chunked uploads -/

/-- A resumable upload is owned by exactly one key. -/
structure ChunkUploadKey where
  pubkey : PublicKey
  sha256 : Str
  deriving DecidableEq, Repr

/-- One received chunk. -/
structure ChunkInfo where
  offset : Nat
  length : Nat
  chunkPath : Path
  deriving DecidableEq, Repr

/-- One resumable upload. `createdAt` is a reading of the monotonic clock. -/
structure ChunkUpload where
  sha256 : Str
  owner : PublicKey
  uploadType : Str
  uploadLength : Nat
  chunks : List ChunkInfo
  createdAt : Nat
  expiration : Option Nat
  deriving DecidableEq, Repr

/-- The parameters a new session is created with. -/
structure SessionParams where
  sha256 : Str
  owner : PublicKey
  uploadType : Str
  uploadLength : Nat
  expiration : Option Nat
  deriving DecidableEq, Repr

/-- The capacity of the session registry. -/
structure SessionLimits where
  maxSessions : Nat
  maxSessionsPerPubkey : Nat
  deriving DecidableEq, Repr

/-! ## Authorization events and payments -/

/-- A tag of a Nostr event: its kind and its first value. -/
structure Tag where
  kind : Str
  content : Option Str
  deriving DecidableEq, Repr

/-- A Nostr event. -/
structure Event where
  id : Str
  pubkey : PublicKey
  createdAt : Nat
  kind : Nat
  tags : List Tag
  content : Str
  sig : Str
  deriving DecidableEq, Repr

/-- A Cashu token: the mint it names and the sum of its proofs, when the token states them. -/
structure Token where
  mintUrl : Except String Str
  value : Except String Nat

/-- A file that is served from outside the storage roots. -/
structure ServeFile where
  path : Path
  size : Nat
  mimeType : Option Str
  deriving DecidableEq, Repr

/-- The operations money can be demanded for. -/
inductive PaidOperation where
  | upload
  | mirror
  | download
  deriving DecidableEq, Repr

/-- The libraries the program calls. -/
structure Libs where
  /-- `hex::encode(Sha256::digest(..))`. -/
  sha256Hex : Bytes → Str
  /-- `mime_guess::from_ext`, the essence of its first guess. -/
  mimeFromExt : Str → Option Str
  /-- `mime_guess::from_path`, the essence of its first guess. -/
  mimeFromPath : Path → Option Str
  /-- `mime_guess::get_mime_extensions_str`. -/
  mimeExtensions : Str → Option (List Str)
  /-- Base64 decoding, in the URL-safe or the standard alphabet, padded or not. -/
  decodeBase64 : Str → Except String Bytes
  /-- `String::from_utf8`. -/
  fromUtf8 : Bytes → Except String Str
  /-- The reading of an event from its JSON text. -/
  parseEvent : Str → Except String Event
  /-- `Event::verify`: the error of a wrong id or signature. -/
  verifyEvent : Event → Except String Unit
  /-- The `Debug` form of an event kind. -/
  showKind : Nat → String
  /-- `Token::from_str`. -/
  parseToken : Str → Except String Token
  /-- The reading of a JSON body: the text of its `url` field, when it has one. -/
  parseUrlField : Bytes → Except String (Option Str)

/-- The configured part of the application state. -/
structure Config where
  storage : StorageLayout
  /-- Whether an S3-compatible backend is configured. -/
  nativeS3 : Bool
  maxTotalSize : Nat
  maxTotalFiles : Nat
  maxBlobSizeBytes : Nat
  minFreeDiskBytes : Nat
  maxUpstreamDownloadSizeBytes : Nat
  maxChunkSizeBytes : Nat
  maxFileAgeSecs : Nat
  maxUpstreamCacheTtlSecs : Nat
  /-- Nanoseconds. -/
  chunkCleanupTimeout : Nat
  sessionLimits : SessionLimits
  featureUploadEnabled : FeatureMode
  featureMirrorEnabled : FeatureMode
  featurePaidUpload : Bool
  featurePaidMirror : Bool
  featurePaidDownload : Bool
  cashuPricePerMb : Nat
  cashuAcceptedMints : List Str
  /-- Whether a wallet was initialized. -/
  cashuWallet : Bool
  publicUrl : Str
  allowedPubkeys : List PublicKey
  authMaxTtlSecs : Nat
  authRequireServerTag : Bool
  libs : Libs

end Almond
