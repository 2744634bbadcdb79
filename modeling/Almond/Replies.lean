import Almond.Ranges
import Almond.Tail
import Almond.UpstreamServers

/-! # The bytes that a response carries

A file, an object of the bucket and a download that is in flight are served by three responders. They read the `Range` header alike, and
each computes its headers and finds its bytes in its own way. -/

namespace Almond.Replies

open Http

/-- What the body of a reply is read from. -/
inductive BodySource where
  | empty
  /-- The file from a start, and at most so many bytes of it. -/
  | file (start : Nat) (take : Option Nat)
  /-- The object, or the range of it that is asked for. -/
  | object (range : Option Str)
  /-- A stream that follows a download. -/
  | tail (start : Nat) (limit : Option Nat)
  deriving DecidableEq, Repr

/-- What a response says about the bytes it carries. -/
structure Reply where
  status : Nat
  contentRange : Option Str
  contentLength : Option Nat
  body : BodySource
  deriving DecidableEq, Repr

/-! ## Arithmetic -/

/-- A `u64` minus another one. `none` stands for an overflow. -/
def checkedSub (a b : Nat) : Option Nat :=
  if b ≤ a then some (a - b) else none

/-- `end - start + 1`. -/
def rangeLength (start «end» : Nat) : Option Nat :=
  (checkedSub «end» start).bind (checkedAdd · 1)

/-- `bytes START-END/SIZE`. -/
def contentRange (start «end» totalSize : Nat) : Str :=
  "bytes ".toList ++ decimal start ++ '-' :: decimal «end» ++ '/' :: decimal totalSize

/-- `bytes */SIZE`. -/
def unsatisfiedRange (totalSize : Nat) : Str :=
  "bytes */".toList ++ decimal totalSize

/-- `bytes=START-END`. -/
def objectRange (start «end» : Nat) : Str :=
  "bytes=".toList ++ decimal start ++ '-' :: decimal «end»

/-! ## Stored blobs -/

/-- The reply to a range that lies outside of the blob. -/
def unsatisfiable (totalSize : Nat) : Reply :=
  ⟨416, some (unsatisfiedRange totalSize), none, .empty⟩

/-- `serve_file_with_range`, once the file is open and its size is known. `none` stands for an overflow. -/
def serveFileWithRange (headers : Headers) (etag : Str) (totalSize : Nat) : Option Reply :=
  match requestedRange headers etag totalSize with
  | .satisfiable start «end» => do
    let length ← rangeLength start «end»
    return ⟨206, some (contentRange start «end» totalSize), some length, .file start (some length)⟩
  | .unsatisfiable => some (unsatisfiable totalSize)
  | .ignore => some ⟨200, none, some totalSize, .file 0 none⟩

/-- `serve_s3_with_range`, when the bucket gives the object. -/
def serveS3WithRange (headers : Headers) (etag : Str) (totalSize : Nat) : Option Reply :=
  match requestedRange headers etag totalSize with
  | .satisfiable start «end» => do
    let length ← rangeLength start «end»
    return ⟨206, some (contentRange start «end» totalSize), some length, .object (some (objectRange start «end»))⟩
  | .unsatisfiable => some (unsatisfiable totalSize)
  | .ignore => some ⟨200, none, some totalSize, .object none⟩

/-! ## Downloads in flight -/

/-- What a download that is in flight answers. -/
inductive InFlight where
  /-- The request has to be served in another way. -/
  | declined
  | failed (status : Nat)
  | overflowed
  | answered (reply : Reply)
  deriving DecidableEq, Repr

/-- `serve_non_range_download`. The file of the download can be opened and sought in, or not. -/
def serveNonRangeDownload (opened : Bool) (totalLen : Option Nat) : InFlight :=
  if opened then .answered ⟨200, none, totalLen, .tail 0 totalLen⟩ else .failed 500

/-- `serve_range_download`. -/
def serveRangeDownload (opened : Bool) (totalLen : Option Nat) (snapshot : DownloadProgress) (headers : Headers) : InFlight :=
  match totalLen, str headers "range" with
  | some totalLen, some range =>
    match parseRangeHeader range totalLen with
    | .satisfiable start «end» =>
      if snapshot.phase = .running ∧ start > saturatingAdd snapshot.written UpstreamServers.seekAheadLimit then .declined
      else match opened, checkedAdd «end» 1, rangeLength start «end» with
        | false, _, _ => .failed 500
        | true, some limit, some length =>
          .answered ⟨206, some (contentRange start «end» totalLen), some length, .tail start (some limit)⟩
        | true, _, _ => .overflowed
    | .unsatisfiable => .answered (unsatisfiable totalLen)
    | .ignore => serveNonRangeDownload opened (some totalLen)
  | _, _ => .declined

/-- `serve_existing_download`, for a `GET`. -/
def serveExistingDownload (opened : Bool) (totalLen : Option Nat) (snapshot : DownloadProgress) (headers : Headers) : InFlight :=
  if (get headers "range").isNone then serveNonRangeDownload opened totalLen
  else serveRangeDownload opened totalLen snapshot headers

/-! ## Bodies -/

/-- A stream that follows a download of a blob which is complete. -/
structure Completed (blob : Bytes) (st : Tail.TailState) : Prop where
  phase : st.progress.phase = .complete
  written : st.progress.written = blob.length
  file : st.file.take blob.length = blob

/-- The bytes that the body of a reply gives for a blob, when no read fails. The bucket gives ranges of its objects. -/
def Gives (getRange : Bytes → Str → Bytes) (blob : Bytes) : BodySource → Bytes → Prop
  | .empty, body => body = []
  | .file start take, body => body = take.elim (blob.drop start) (blob.drop start).take
  | .object range, body => body = range.elim blob (getRange blob)
  | .tail start limit, body => ∀ st result, Tail.Reachable start limit st → Completed blob st → st.point = .ended result →
      (∀ e, result ≠ .error (.io e)) → result = .ok () ∧ st.yielded.flatten = body

end Almond.Replies
