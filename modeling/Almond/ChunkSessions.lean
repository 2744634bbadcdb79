import Almond.Models

/-! # The resumable-upload session registry -/

namespace Almond

/-- The outcome of reserving capacity. -/
inductive Reservation where
  | granted
  | globalLimit
  | perPubkeyLimit
  deriving DecidableEq, Repr

/-- The outcome of committing a chunk. -/
inductive Commit where
  /-- The chunk was appended; the upload is incomplete. -/
  | incomplete
  /-- The chunk was appended and the upload left the registry. -/
  | complete (upload : ChunkUpload)
  /-- The chunk overlaps one that was received before. -/
  | overlap
  /-- The reservation or the stored parameters disagree with the request. -/
  | paramMismatch
  deriving DecidableEq, Repr

/-- The persisted uploads, and the number of outstanding reservations of each key. -/
structure SessionState where
  uploads : AList fun _ : ChunkUploadKey => ChunkUpload
  pending : AList fun _ : ChunkUploadKey => Nat

namespace SessionState

/-- A registry without sessions. -/
def empty : SessionState := ⟨∅, ∅⟩

/-- Whether a key has a session. -/
def hasUpload (st : SessionState) (key : ChunkUploadKey) : Bool :=
  (st.uploads.lookup key).isSome

/-- Whether a key has an outstanding reservation. -/
def hasPending (st : SessionState) (key : ChunkUploadKey) : Bool :=
  (st.pending.lookup key).isSome

/-- The reserved keys that have no session yet. -/
def pendingWithoutUpload (st : SessionState) : List ChunkUploadKey :=
  st.pending.keys.filter fun k => !st.hasUpload k

/-- The number of keys that count toward the capacity. -/
def sessions (st : SessionState) : Nat :=
  st.uploads.keys.length + st.pendingWithoutUpload.length

/-- The number of keys of one owner that count toward the capacity. -/
def ownerSessions (st : SessionState) (pubkey : PublicKey) : Nat :=
  ((st.uploads.keys ++ st.pendingWithoutUpload).filter fun k => k.pubkey = pubkey).length

/-- Reserve capacity for one request. -/
def reserve (limits : SessionLimits) (st : SessionState) (key : ChunkUploadKey) : Reservation × SessionState :=
  if st.hasUpload key || st.hasPending key then
    (.granted, { st with pending := st.pending.insert key ((st.pending.lookup key).getD 0 + 1) })
  else if st.sessions ≥ limits.maxSessions then (.globalLimit, st)
  else if st.ownerSessions key.pubkey ≥ limits.maxSessionsPerPubkey then (.perPubkeyLimit, st)
  else (.granted, { st with pending := st.pending.insert key 1 })

/-- Take one reservation of a key away, if it has one. -/
def consumeReservation (st : SessionState) (key : ChunkUploadKey) : Bool × SessionState :=
  match st.pending.lookup key with
  | none => (false, st)
  | some count =>
    if count = 1 then (true, { st with pending := st.pending.erase key })
    else (true, { st with pending := st.pending.insert key (count - 1) })

/-- Discard a reservation. -/
def release (st : SessionState) (key : ChunkUploadKey) : SessionState :=
  (st.consumeReservation key).2

/-- The session a first chunk creates. -/
def newUpload (params : SessionParams) (now : Nat) : ChunkUpload where
  sha256 := params.sha256
  owner := params.owner
  uploadType := params.uploadType
  uploadLength := params.uploadLength
  chunks := []
  createdAt := now
  expiration := params.expiration

/-- Whether two chunks share a byte. -/
def overlaps (chunk existing : ChunkInfo) : Bool :=
  chunk.offset < saturatingAdd existing.offset existing.length &&
    existing.offset < saturatingAdd chunk.offset chunk.length

/-- The sum of the lengths of the chunks and of one more, when it fits. -/
def newTotal (chunks : List ChunkInfo) (chunk : ChunkInfo) : Option Nat :=
  (chunks.foldlM (fun total existing => checkedAdd total existing.length) 0).bind fun total =>
    checkedAdd total chunk.length

/-- Append a chunk to a session that is in the registry. -/
def append (st : SessionState) (key : ChunkUploadKey) (upload : ChunkUpload) (params : SessionParams)
    (chunk : ChunkInfo) : Commit × SessionState :=
  if upload.uploadType ≠ params.uploadType ∨ upload.uploadLength ≠ params.uploadLength then (.paramMismatch, st)
  else if upload.chunks.any (overlaps chunk) then (.overlap, st)
  else match newTotal upload.chunks chunk with
    | none => (.paramMismatch, st)
    | some total =>
      let upload' := { upload with chunks := upload.chunks ++ [chunk] }
      if total = upload.uploadLength then (.complete upload', { st with uploads := st.uploads.erase key })
      else (.incomplete, { st with uploads := st.uploads.insert key upload' })

/-- Append a written chunk to its session, creating the session for a first chunk. -/
def commit (st : SessionState) (key : ChunkUploadKey) (params : SessionParams) (chunk : ChunkInfo) (now : Nat) :
    Commit × SessionState :=
  match st.consumeReservation key with
  | (false, st) => (.paramMismatch, st)
  | (true, st) =>
    match st.uploads.lookup key with
    | some upload => st.append key upload params chunk
    | none =>
      let upload := newUpload params now
      { st with uploads := st.uploads.insert key upload }.append key upload params chunk

/-- Put a completed upload back whose payment was rejected, unless its key is in use again. -/
def restore (st : SessionState) (key : ChunkUploadKey) (upload : ChunkUpload) : Bool × SessionState :=
  if st.hasUpload key || st.hasPending key then (false, st)
  else (true, { st with uploads := st.uploads.insert key upload })

/-- Whether a session outlives an eviction: a body is in flight for it, or it is younger than `age`. -/
def keeps (st : SessionState) (age now : Nat) (key : ChunkUploadKey) (upload : ChunkUpload) : Bool :=
  st.hasPending key || now - upload.createdAt < age

/-- Remove the sessions older than `age` that have no body in flight, and return them. -/
def evictOlderThan (st : SessionState) (age now : Nat) : List ChunkUpload × SessionState :=
  ((st.uploads.entries.filter fun e => !st.keeps age now e.1 e.2).map (·.2),
    { st with uploads := retain (st.keeps age now) st.uploads })

end SessionState

end Almond
