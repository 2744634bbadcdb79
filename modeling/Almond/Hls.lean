import Almond.Handlers

/-! # The segments of a mirrored playlist -/

namespace Almond.Hls

open FileStorage

/-- A reference of a playlist: a hash and an optional extension. -/
structure HlsReference where
  sha256 : Str
  extension : Option Str
  deriving DecidableEq, Repr

/-- Run a fallible task; its error becomes a text. -/
def orText {α : Type} (message : String) (p : AsyncResult α) : ExceptT String Async α :=
  ExceptT.mk (p.run.bind fun x => .ret (x.mapError fun error => message ++ error.toText))

/-- The address of a reference. -/
def fetchUrl (originBaseUrl : Str) (reference : HlsReference) : Str :=
  originBaseUrl ++ '/' :: reference.sha256 ++ match reference.extension with
    | some extension => '.' :: extension
    | none => []

/-- The part of a mirrored reference from its temporary blob on: the segment is streamed, compared and published. -/
def receiveSegment (cfg : Config) (response : Fetched) (reference : HlsReference) (extension : Option Str) (temp : Path) :
    ExceptT String Async Bool := do
  match ← (Handlers.streamResponseToTempFile cfg.libs response temp (Upload.upstreamFetchLimit cfg)).run with
  | .error error =>
    request (.dropTemp temp)
    throw s!"Failed to stream segment: {error.toText}"
  | .ok (calculatedSha256, bodySize) =>
    if calculatedSha256 ≠ reference.sha256 then
      request (.dropTemp temp)
      throw s!"SHA256 mismatch for segment {text reference.sha256}"
    match ← (Upload.finalizeUpload cfg temp reference.sha256 bodySize extension (some response.contentType) none).run with
    | .error error => throw s!"Failed to finalize {text reference.sha256}: {error.toText}"
    | .ok _ => return true

/-- Mirror one reference; returns whether it was stored. -/
def mirrorSingleReference (cfg : Config) (originBaseUrl : Str) (reference : HlsReference) : ExceptT String Async Bool := do
  if ← index (.contains reference.sha256) then return false
  let response ← orText "Failed to fetch segment: " (ExceptT.mk (request (.fetchFromUrl (fetchUrl originBaseUrl reference))))
  let extension := Http.getExtensionFromMime cfg.libs response.contentType
  orText "Insufficient storage for segment: "
    (ensureStorageCapacity cfg (response.contentLength.getD (Upload.upstreamFetchLimit cfg)))
  orText "Failed to ensure temp dir: " (ensureTempDir cfg)
  let temp ← request (.reserveTemp cfg.storage.temp "hls_segment".toList extension)
  receiveSegment cfg response reference extension temp

end Almond.Hls
