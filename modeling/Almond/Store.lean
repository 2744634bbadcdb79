import Almond.FileStorage
import Almond.Lemmas.ChunksAux

/-! # The store as its index describes it

An entry of the index says where the bytes of a hash are. The bytes of a location are the contents of the file or of the object there;
a store is consistent with its index when each entry leads to bytes, in the place that its hash and its origin prescribe. -/

namespace Almond

open FileStorage

/-- The bytes at a location. -/
def AppState.bytesAt (s : AppState) : FileLocation → Option Bytes
  | .localFile p => (s.disk.file? p).map Node.data
  | .s3 key => (s.bucket.lookup key).map S3Object.data

/-- A place of a hash: below the root of the origin, or among the keys of the hash for an upload, under a name that starts with the
hash. -/
def Place (layout : StorageLayout) (sha256 : Str) (origin : BlobOrigin) : FileLocation → Prop
  | .localFile p => ∃ dirs rest, p = originRoot layout origin ++ dirs ++ [sha256 ++ rest]
  | .s3 key => origin = .upload ∧ ∃ keyPrefix rest, NativeStorage.hashPrefix sha256 = .ok keyPrefix ∧ key = keyPrefix ++ rest

/-- A location that the program gives to the bytes of a hash. -/
structure Housed (layout : StorageLayout) (sha256 : Str) (origin : BlobOrigin) (location : FileLocation) : Prop where
  valid : BlobName.isValidHash sha256 = true
  place : Place layout sha256 origin location

/-- A store that is consistent with its index: every entry has a place of its hash, and leads to bytes. -/
structure Consistent (layout : StorageLayout) (s : AppState) : Prop where
  housed : ∀ sha256 m, s.index.get sha256 = some m → Housed layout sha256 m.origin m.location
  present : ∀ sha256 m, s.index.get sha256 = some m → ∃ bytes, s.bytesAt m.location = some bytes

/-! ## Places are distinct -/

section

variable {root : Path} {sha256 sha256' : Str} {origin origin' : BlobOrigin} {location : FileLocation}

/-- The roots of two origins share no path. -/
theorem originRoot_append_inj {p q : Path}
    (h : originRoot (.new root) origin ++ p = originRoot (.new root) origin' ++ q) : origin = origin' := by
  cases origin <;> cases origin' <;> first | rfl | simp [originRoot, StorageLayout.new] at h

/-- A location belongs to one origin. -/
theorem Housed.origin_unique (h : Housed (.new root) sha256 origin location) (h' : Housed (.new root) sha256' origin' location) :
    origin = origin' := by
  obtain ⟨_, h⟩ := h
  obtain ⟨_, h'⟩ := h'
  cases location with
  | localFile p =>
    obtain ⟨dirs, rest, hp⟩ := h
    obtain ⟨dirs', rest', hp'⟩ := h'
    rw [hp, List.append_assoc, List.append_assoc] at hp'
    exact originRoot_append_inj hp'
  | s3 key => exact h.1.trans h'.1.symm

/-- What follows the fan-out of a key starts with the hash. -/
theorem drop_hashPrefix (hv : BlobName.isValidHash sha256 = true) {keyPrefix : Str}
    (h : NativeStorage.hashPrefix sha256 = .ok keyPrefix) : keyPrefix.drop 4 = sha256 := by
  rw [NativeStorage.hashPrefix, BlobName.fanOut_eq hv] at h
  have hlen := BlobName.length_of_isValidHash hv
  obtain ⟨a, b, rest, rfl⟩ : ∃ a b rest, sha256 = a :: b :: rest := by
    match sha256, hlen with
    | a :: b :: rest, _ => exact ⟨a, b, rest, rfl⟩
  cases h
  rfl

/-- A location belongs to one hash. -/
theorem Housed.hash_unique {layout : StorageLayout} (h : Housed layout sha256 origin location)
    (h' : Housed layout sha256' origin' location) : sha256 = sha256' := by
  obtain ⟨hv, h⟩ := h
  obtain ⟨hv', h'⟩ := h'
  have hlen := (BlobName.length_of_isValidHash hv).trans (BlobName.length_of_isValidHash hv').symm
  cases location with
  | localFile p =>
    obtain ⟨dirs, rest, hp⟩ := h
    obtain ⟨dirs', rest', hp'⟩ := h'
    have hlast := congrArg List.getLast? (hp.symm.trans hp')
    rw [List.getLast?_concat, List.getLast?_concat] at hlast
    exact (List.append_inj (Option.some.inj hlast) hlen).1
  | s3 key =>
    obtain ⟨_, keyPrefix, rest, hk, rfl⟩ := h
    obtain ⟨_, keyPrefix', rest', hk', he⟩ := h'
    have hd := drop_hashPrefix hv hk
    have hd' := drop_hashPrefix hv' hk'
    have hlen₁ := congrArg List.length hd
    have hlen₁' := congrArg List.length hd'
    rw [List.length_drop] at hlen₁ hlen₁'
    have h64 := BlobName.length_of_isValidHash hv
    have hpre : keyPrefix = keyPrefix' := by
      refine (List.append_inj he ?_).1
      simp only [BlobName.hashLen] at h64
      omega
    rw [← hd, ← hd', hpre]

/-- A scratch file is no place of a hash. -/
theorem Housed.ne_scratch {layout : StorageLayout} (hlayout : layout = .new root) {p : Path} (h : Housed layout sha256 origin location)
    (hp : Scratch layout p) : location ≠ .localFile p := by
  subst hlayout
  rintro rfl
  obtain ⟨name, rest, hp⟩ := hp
  obtain ⟨_, dirs, rest', hd⟩ := h
  rw [hp] at hd
  cases origin <;> simp [originRoot, StorageLayout.new] at hd

end

end Almond
