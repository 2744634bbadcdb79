import Almond.Startup

/-! # What retention keeps

Retention removes what has expired, and then the least valuable blobs until the limits hold: copies of other servers before uploads,
and the oldest first. -/

namespace Almond

open Conc

/-- A deletion has failed, and not because there was nothing to delete. -/
def deletionFailed : Task.Event Req Resp → Bool
  | ⟨.fs (.removeFile _), .error error⟩ => error.kind ≠ .notFound
  | ⟨.s3 (.deleteObject _), .error _⟩ => true
  | _ => false

namespace Startup

/-- The blobs whose deadline has not passed. -/
def survivors (cfg : Config) (now : Nat) (i : BlobIndex) : List (Str × FileMetadata) :=
  i.snapshot.filter fun e => !expired cfg e.2 now

/-- Some blobs satisfy every limit that is set. -/
def WithinLimits (cfg : Config) (entries : List (Str × FileMetadata)) : Prop :=
  (cfg.maxTotalSize ≠ 0 → (entries.map fun e => e.2.size).sum ≤ cfg.maxTotalSize) ∧
    (cfg.maxTotalFiles ≠ 0 → entries.length ≤ cfg.maxTotalFiles)

/-- What goes before what: copies of other servers before uploads, the older before the newer, and else as they are listed. -/
def GoesBefore (listing : List (Str × FileMetadata)) (a b : Str × FileMetadata) : Prop :=
  a.2.origin = .upstreamCache ∧ b.2.origin = .upload ∨
    a.2.origin = b.2.origin ∧
      (a.2.createdAt < b.2.createdAt ∨ a.2.createdAt = b.2.createdAt ∧ [a, b].Sublist listing)

/-- The order in which blobs are given up. -/
def EvictionOrder (listing order : List (Str × FileMetadata)) : Prop :=
  order.Perm listing ∧ order.Pairwise (GoesBefore listing)

/-- A listing of the index. -/
def isListing : Task.Event Req Resp → Bool
  | ⟨.index .snapshot, _⟩ => true
  | _ => false

/-- The capacity pass of a cleanup, given what it has done, the latest first: what the pass has done, and what it has listed. -/
def capacityPass : List (Task.Event Req Resp) → Option (List (Task.Event Req Resp) × List (Str × FileMetadata))
  | [] => none
  | ⟨.index .snapshot, listing⟩ :: past => if past.any isListing then some ([], listing) else none
  | event :: past => (capacityPass past).map fun pass => (event :: pass.1, pass.2)

/-- A request of the removal of a hash: it looks at its entry, or ends it. -/
def Removes (sha256 : Str) : Req → Prop
  | .index (.get key) | .index (.removeIfLocationMatches key _) => key = sha256
  | _ => False

end Startup

end Almond
