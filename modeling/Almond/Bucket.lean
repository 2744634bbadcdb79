import Mathlib.Data.List.Sort
import Almond.Models

/-! # The S3 bucket

Single operations on single objects are atomic. A listing is not: it is cut into pages, and each page is read from the bucket as it
is when the page is requested. -/

namespace Almond

/-- An object of the bucket; `lastModified` is in seconds. -/
structure S3Object where
  data : Bytes
  lastModified : Nat
  deriving DecidableEq, Repr

/-- The objects, by their keys. -/
abbrev Bucket := AList fun _ : Str => S3Object

/-- The outcome of the last listing of the bucket. -/
inductive S3Status where
  | available
  | unavailable (error : String) (lastAttempt : Nat)
  deriving DecidableEq, Repr

/-- One page of a listing: the keys with exactly `index` of the cuts below them. -/
structure PageToken where
  cuts : List Str
  index : Nat
  deriving DecidableEq, Repr

/-- The operations on the bucket. -/
inductive S3Req where
  /-- Store the contents of an open file under a key. -/
  | putObject (key : Str) (ino : Nat)
  /-- Begin a listing: the pages it will have. -/
  | paginate
  /-- One page of the objects under a prefix. -/
  | listPage (keyPrefix : Str) (page : PageToken)
  | getObject (key : Str)
  | deleteObject (key : Str)
  deriving DecidableEq

/-- What each operation on the bucket returns. -/
@[reducible] def S3Req.Resp : S3Req → Type
  | .putObject _ _ | .getObject _ | .deleteObject _ => Except String Unit
  | .paginate => List PageToken
  | .listPage _ _ => Except String (List (Str × S3Object))

/-- What the outside decides of one operation on the bucket. -/
structure S3Env where
  /-- The message of a failed operation. -/
  fault : Option String
  /-- Where a listing is cut into pages. -/
  cuts : List Str
  deriving DecidableEq, Repr

namespace Bucket

/-- The page of a key. -/
def pageOf (cuts : List Str) (key : Str) : Nat :=
  (cuts.filter fun c => !strLe key c).length

/-- The objects of one page, in the order of their keys. -/
def page (b : Bucket) (keyPrefix : Str) (p : PageToken) : List (Str × S3Object) :=
  ((b.entries.filter fun e => keyPrefix.isPrefixOf e.1 && pageOf p.cuts e.1 = p.index).map fun e =>
    (e.1, e.2)).insertionSort fun a b => strLe a.1 b.1

/-- The pages of a listing with given cuts. -/
def pages (cuts : List Str) : List PageToken :=
  (List.range (cuts.length + 1)).map (⟨cuts, ·⟩)

/-- The effect of an operation that does not fail; `contents` are the bytes of the open files. -/
def perform (b : Bucket) (env : S3Env) (now : Nat) (contents : Nat → Bytes) : (r : S3Req) → r.Resp × Bucket
  | .putObject key ino => (.ok (), b.insert key ⟨contents ino, now⟩)
  | .paginate => (pages env.cuts, b)
  | .listPage keyPrefix p => (.ok (b.page keyPrefix p), b)
  | .getObject key => (if (b.lookup key).isSome then .ok () else .error "NoSuchKey", b)
  | .deleteObject key => (.ok (), b.erase key)

/-- The response to a failed operation; beginning a listing asks the bucket nothing. -/
def faulted (env : S3Env) (message : String) : (r : S3Req) → r.Resp
  | .putObject _ _ | .getObject _ | .deleteObject _ | .listPage _ _ => .error message
  | .paginate => pages env.cuts

/-- One operation on the bucket. -/
def exec (b : Bucket) (env : S3Env) (now : Nat) (contents : Nat → Bytes) (r : S3Req) : r.Resp × Bucket :=
  match env.fault with
  | some message => (faulted env message r, b)
  | none => b.perform env now contents r

end Bucket

end Almond
