import Almond.BlobIndex
import Almond.Data.Paging

/-! # Runs of the catalogue

The index on its own, under any sequence of its operations, and readers that walk it in pages. -/

namespace Almond.BlobIndex

/-- The operations that change the index. -/
inductive Mutation where
  | insert (key : Str) (metadata : FileMetadata)
  | publish (key : Str) (metadata : FileMetadata)
  | remove (sha256 : Str)
  | removeIfLocationMatches (sha256 : Str) (location : FileLocation)
  | replace (map : AList fun _ : Str => FileMetadata)

/-- The index after one operation. -/
def apply (i : BlobIndex) : Mutation → BlobIndex
  | .insert key metadata => i.insert key metadata
  | .publish key metadata => (i.publish key metadata).2
  | .remove sha256 => (i.remove sha256).1
  | .removeIfLocationMatches sha256 location => (i.removeIfLocationMatches sha256 location).2
  | .replace map => i.replace map

/-- Whether an operation writes to the entries: it does not when its key is absent, when it retains the entry of its key, and when the
location of the entry does not match. -/
def touches (i : BlobIndex) : Mutation → Bool
  | .insert _ _ | .replace _ => true
  | .publish key metadata => !(metadata.origin = .upstreamCache && i.contains key)
  | .remove sha256 => i.contains sha256
  | .removeIfLocationMatches sha256 location => (i.get sha256).any fun metadata => metadata.location = location

/-- The subtraction that an operation makes, if it makes one: from what, and how much. -/
def subtraction (i : BlobIndex) (op : Mutation) : Option (Nat × Nat) :=
  if i.touches op then match op with
    | .insert key metadata | .publish key metadata =>
      (i.get key).map fun previous => (wrappingAdd i.totalBytes metadata.size, previous.size)
    | .remove sha256 | .removeIfLocationMatches sha256 _ => (i.get sha256).map fun removed => (i.totalBytes, removed.size)
    | .replace _ => none
  else none

/-- The sum of the sizes of some entries. -/
def sumSizes (map : AList fun _ : Str => FileMetadata) : Nat :=
  (map.entries.map fun e => e.2.size).sum

/-- Whether the sums that an operation makes are `u64`s. -/
def Fits (i : BlobIndex) (op : Mutation) : Prop :=
  i.touches op = true → match op with
    | .insert _ metadata | .publish _ metadata => sumSizes i.map + metadata.size ≤ u64Max
    | .replace map => sumSizes map ≤ u64Max
    | .remove _ | .removeIfLocationMatches _ _ => True

/-- The indexes that can be reached by operations each of which meets a condition. -/
inductive Reachable (ok : BlobIndex → Mutation → Prop) : BlobIndex → Prop
  | empty : Reachable ok .empty
  | step {i : BlobIndex} (h : Reachable ok i) (op : Mutation) (hok : ok i op) : Reachable ok (i.apply op)

/-- What holds initially and is preserved by every operation that meets the condition holds of every reachable index. -/
theorem Reachable.invariant {ok : BlobIndex → Mutation → Prop} {I : BlobIndex → Prop} {i : BlobIndex} (h : Reachable ok i)
    (hempty : I .empty) (hstep : ∀ i op, I i → ok i op → I (i.apply op)) : I i := by
  induction h with
  | empty => exact hempty
  | step _ op hok ih => exact hstep _ op ih hok

/-! ## Readers -/

/-- What a query returns for one key of the order. -/
def result? (i : BlobIndex) (since until' : Nat) (author : Option PublicKey) (e : Nat × Str) : Option (Str × FileMetadata) :=
  (i.get e.2).bind fun metadata => if isResult since until' author metadata then some (e.2, metadata) else none

/-- All results of a query, in their order. -/
def listing (i : BlobIndex) (since until' : Nat) (author : Option PublicKey) : List (Str × FileMetadata) :=
  i.order.filterMap (i.result? since until' author)

/-- The pages of a client that asks on from the last hash of each page, until a page is empty. -/
inductive Pages (i : BlobIndex) (since until' : Nat) (author : Option PublicKey) (limit : Nat) :
    Option Str → List (List (Str × FileMetadata)) → Prop
  | done {cursor : Option Str} (h : i.page since until' author cursor limit = []) : Pages i since until' author limit cursor []
  | more {cursor : Option Str} {page : List (Str × FileMetadata)} {sha256 : Str} {metadata : FileMetadata}
      {pages : List (List (Str × FileMetadata))} (h : i.page since until' author cursor limit = page ++ [(sha256, metadata)])
      (hp : Pages i since until' author limit (some sha256) pages) :
      Pages i since until' author limit cursor ((page ++ [(sha256, metadata)]) :: pages)

/-- Whether an operation removes an entry. -/
def Mutation.removes : Mutation → Bool
  | .remove _ | .removeIfLocationMatches _ _ => true
  | _ => false

/-- A client on its way, while entries are removed: the index as it is now, the pages it has received and its cursor. Each page is
requested in a situation that satisfies a condition. -/
inductive Listing (since until' : Nat) (author : Option PublicKey) (limit : Nat)
    (ok : BlobIndex → List (List (Str × FileMetadata)) → Option Str → Prop) (i₀ : BlobIndex) :
    BlobIndex → List (List (Str × FileMetadata)) → Option Str → Prop
  | start : Listing since until' author limit ok i₀ i₀ [] none
  | remove {i : BlobIndex} {pages : List (List (Str × FileMetadata))} {cursor : Option Str}
      (hl : Listing since until' author limit ok i₀ i pages cursor) (op : Mutation) (hop : op.removes = true) :
      Listing since until' author limit ok i₀ (i.apply op) pages cursor
  | read {i : BlobIndex} {pages : List (List (Str × FileMetadata))} {cursor : Option Str} {page : List (Str × FileMetadata)}
      {sha256 : Str} {metadata : FileMetadata} (hl : Listing since until' author limit ok i₀ i pages cursor)
      (hok : ok i pages cursor) (hp : i.page since until' author cursor limit = page ++ [(sha256, metadata)]) :
      Listing since until' author limit ok i₀ i (pages ++ [page ++ [(sha256, metadata)]]) (some sha256)

/-- Whether the place of the cursor is known: its entry is still there, or nothing is that was received. -/
def CursorKnown (i : BlobIndex) (pages : List (List (Str × FileMetadata))) (cursor : Option Str) : Prop :=
  ∀ sha256, cursor = some sha256 → i.contains sha256 = true ∨ ∀ e ∈ pages.flatten, i.contains e.1 = false

end Almond.BlobIndex
