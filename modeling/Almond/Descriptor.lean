import Almond.Startup

/-! # Blob descriptors -/

namespace Almond

/-- `DEFAULT_MIME_TYPE`. -/
def defaultMimeType : Str :=
  "application/octet-stream".toList

/-- The public address of a blob; it always has an extension. -/
def buildPublicBlobUrl (publicUrl sha256 : Str) (extension : Option Str) : Str :=
  trimEndMatches '/' publicUrl ++ '/' :: sha256 ++ '.' :: (extension.filter (· ≠ [])).getD "bin".toList

/-- What a client is told of a blob. -/
structure BlobDescriptor where
  url : Str
  sha256 : Str
  size : Nat
  type : Str
  uploaded : Nat
  expiration : Option Nat
  nip94 : List (List Str)
  deriving DecidableEq, Repr

/-- The descriptor of an entry. -/
def createBlobDescriptor (cfg : Config) (sha256 : Str) (metadata : FileMetadata) : BlobDescriptor :=
  let contentType := metadata.mimeType.getD defaultMimeType
  let url := buildPublicBlobUrl cfg.publicUrl sha256 metadata.extension
  { url := url
    sha256 := sha256
    size := metadata.size
    type := contentType
    uploaded := metadata.createdAt
    expiration := Startup.sunsetExpiration metadata cfg.maxFileAgeSecs
    nip94 := [["url".toList, url], ["m".toList, contentType], ["x".toList, sha256], ["size".toList, decimal metadata.size]] }

end Almond
