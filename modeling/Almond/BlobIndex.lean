import Almond.Models

/-! # The in-memory catalogue of stored blobs -/

namespace Almond

/-- Aggregates over the index. -/
structure IndexStats where
  count : Nat
  totalBytes : Nat
  generation : Nat
  deriving DecidableEq, Repr

/-- The outcome of publishing a completed blob. -/
inductive PublishResult where
  /-- The new metadata is visible; the entry it displaced is returned for cleanup. -/
  | published (displaced : Option FileMetadata)
  /-- An existing entry kept precedence. -/
  | retained (existing : FileMetadata)
  deriving DecidableEq, Repr

/-- The index: the entries, the sum of their sizes, their newest-first order and the number of mutations. -/
structure BlobIndex where
  map : AList fun _ : Str => FileMetadata
  totalBytes : Nat
  order : List (Nat × Str)
  generation : Nat
  deriving DecidableEq

namespace BlobIndex

/-- The order of `(Reverse(created_at), Reverse(sha256))` pairs: newest first. -/
def newer (a b : Nat × Str) : Bool :=
  if a.1 = b.1 then strLe b.2 a.2 else b.1 ≤ a.1

/-- `BTreeSet::insert`. -/
def orderInsert (a : Nat × Str) : List (Nat × Str) → List (Nat × Str)
  | [] => [a]
  | b :: bs => if a = b then b :: bs else if newer a b then a :: b :: bs else b :: orderInsert a bs

/-- An index without entries. -/
def empty : BlobIndex := ⟨∅, 0, [], 0⟩

/-- The entry of a hash. -/
def get (i : BlobIndex) (sha256 : Str) : Option FileMetadata :=
  i.map.lookup sha256

/-- Whether a hash has an entry. -/
def contains (i : BlobIndex) (sha256 : Str) : Bool :=
  (i.get sha256).isSome

/-- `Entries::insert`: the index after it, and the entry it replaced. -/
def insertEntry (i : BlobIndex) (key : Str) (metadata : FileMetadata) : BlobIndex × Option FileMetadata :=
  let previous := i.get key
  let (total, order) := match previous with
    | some p => (wrappingAdd i.totalBytes metadata.size - p.size, i.order.erase (p.createdAt, key))
    | none => (wrappingAdd i.totalBytes metadata.size, i.order)
  (⟨i.map.insert key metadata, total, orderInsert (metadata.createdAt, key) order, i.generation + 1⟩, previous)

/-- `Entries::remove`: the index after it, and the entry it removed. -/
def remove (i : BlobIndex) (sha256 : Str) : BlobIndex × Option FileMetadata :=
  match i.get sha256 with
  | some removed =>
    (⟨i.map.erase sha256, i.totalBytes - removed.size, i.order.erase (removed.createdAt, sha256), i.generation + 1⟩,
      some removed)
  | none => (i, none)

/-- Insert an entry, whatever was there. -/
def insert (i : BlobIndex) (key : Str) (metadata : FileMetadata) : BlobIndex :=
  (i.insertEntry key metadata).1

/-- Publish one completed blob: uploads replace what is there, cache fills never do. -/
def publish (i : BlobIndex) (key : Str) (metadata : FileMetadata) : PublishResult × BlobIndex :=
  match metadata.origin, i.get key with
  | .upstreamCache, some existing => (.retained existing, i)
  | _, _ =>
    let (i', displaced) := i.insertEntry key metadata
    (.published displaced, i')

/-- Remove a hash only if its location still matches. -/
def removeIfLocationMatches (i : BlobIndex) (sha256 : Str) (location : FileLocation) : Bool × BlobIndex :=
  match i.get sha256 with
  | some metadata => if metadata.location = location then (true, (i.remove sha256).1) else (false, i)
  | none => (false, i)

/-- Replace the entire contents. -/
def replace (i : BlobIndex) (map : AList fun _ : Str => FileMetadata) : BlobIndex where
  map := map
  totalBytes := map.entries.foldl (fun total e => wrappingAdd total e.2.size) 0
  order := map.entries.foldl (fun o e => orderInsert (e.2.createdAt, e.1) o) []
  generation := i.generation + 1

/-- The aggregates. -/
def stats (i : BlobIndex) : IndexStats :=
  ⟨i.map.keys.length, i.totalBytes, i.generation⟩

/-- Every entry. -/
def snapshot (i : BlobIndex) : List (Str × FileMetadata) :=
  i.map.entries.map fun e => (e.1, e.2)

/-! ## Pages -/

/-- Whether an entry is a result of a query, as the cursor is tested. -/
def isResult (since until' : Nat) (author : Option PublicKey) (metadata : FileMetadata) : Bool :=
  metadata.createdAt ≥ since && metadata.createdAt ≤ until' && author.all fun author => metadata.pubkey = some author

/-- Whether an entry is passed over, as the scan tests it. -/
def isSkipped (since until' : Nat) (author : Option PublicKey) (metadata : FileMetadata) : Bool :=
  metadata.createdAt < since || metadata.createdAt > until' || author.any fun author => metadata.pubkey ≠ some author

/-- The scan over the ordered keys: past the cursor, it collects results until the page is full. -/
def collect (i : BlobIndex) (since until' : Nat) (author : Option PublicKey) (cursor : Option Str) (limit : Nat) :
    List (Nat × Str) → Bool → List (Str × FileMetadata) → List (Str × FileMetadata)
  | [], _, page => page
  | (_, sha256) :: order, false, page => collect i since until' author cursor limit order (cursor = some sha256) page
  | (_, sha256) :: order, true, page =>
    match i.get sha256 with
    | none => collect i since until' author cursor limit order true page
    | some metadata =>
      if isSkipped since until' author metadata then collect i since until' author cursor limit order true page
      else if (page ++ [(sha256, metadata)]).length = limit then page ++ [(sha256, metadata)]
      else collect i since until' author cursor limit order true (page ++ [(sha256, metadata)])

/-- A newest-first page. -/
def page (i : BlobIndex) (since until' : Nat) (author : Option PublicKey) (cursor : Option Str) (limit : Nat) :
    List (Str × FileMetadata) :=
  let cursorIsInResult := (cursor.bind i.get).any (isResult since until' author)
  collect i since until' author cursor limit i.order (!cursorIsInResult) []

/-! ## What each operation does to the entries -/

/-- After an insertion the key has the new entry. -/
@[simp] theorem get_insert_self (i : BlobIndex) (h : Str) (m : FileMetadata) : (i.insert h m).get h = some m :=
  AList.lookup_insert ..

/-- An insertion leaves the entries of other hashes. -/
theorem get_insert_of_ne (i : BlobIndex) {h h' : Str} (m : FileMetadata) (hne : h' ≠ h) :
    (i.insert h m).get h' = i.get h' :=
  AList.lookup_insert_ne hne

/-- After a removal the hash has no entry. -/
@[simp] theorem get_remove_self (i : BlobIndex) (h : Str) : (i.remove h).1.get h = none := by
  unfold remove
  split
  · exact AList.lookup_erase ..
  · assumption

/-- A removal leaves the entries of other hashes. -/
theorem get_remove_of_ne (i : BlobIndex) {h h' : Str} (hne : h' ≠ h) : (i.remove h).1.get h' = i.get h' := by
  unfold remove
  split
  · exact AList.lookup_erase_ne hne
  · rfl

/-- A publication either retains the entry that was there, or replaces it. -/
theorem publish_cases (i : BlobIndex) (h : Str) (m : FileMetadata) :
    (∃ e, m.origin = .upstreamCache ∧ i.get h = some e ∧ i.publish h m = (.retained e, i)) ∨
      ((m.origin = .upstreamCache → i.get h = none) ∧ i.publish h m = (.published (i.get h), i.insert h m)) := by
  unfold publish
  split
  · rename_i e ho he
    exact .inl ⟨e, ho, he, rfl⟩
  · rename_i hn
    refine .inr ⟨fun ho => ?_, rfl⟩
    cases he : i.get h with
    | none => rfl
    | some e => exact absurd he (hn e ho)

/-- A publication leaves the entries of other hashes. -/
theorem get_publish_of_ne (i : BlobIndex) {h h' : Str} (m : FileMetadata) (hne : h' ≠ h) :
    (i.publish h m).2.get h' = i.get h' := by
  obtain ⟨_, _, _, hp⟩ | ⟨_, hp⟩ := publish_cases i h m
  · rw [hp]
  · rw [hp]
    exact get_insert_of_ne i m hne

/-- A conditional removal removes the entry exactly when its location matches. -/
theorem removeIf_cases (i : BlobIndex) (h : Str) (loc : FileLocation) :
    (∃ m, i.get h = some m ∧ m.location = loc ∧ i.removeIfLocationMatches h loc = (true, (i.remove h).1)) ∨
      ((∀ m, i.get h = some m → m.location ≠ loc) ∧ i.removeIfLocationMatches h loc = (false, i)) := by
  unfold removeIfLocationMatches
  cases hg : i.get h with
  | none => exact .inr ⟨nofun, rfl⟩
  | some m =>
    by_cases hm : m.location = loc
    · exact .inl ⟨m, rfl, hm, if_pos hm⟩
    · refine .inr ⟨fun m' h' => ?_, if_neg hm⟩
      cases h'
      exact hm

/-- A conditional removal leaves the entries of other hashes. -/
theorem get_removeIf_of_ne (i : BlobIndex) {h h' : Str} (loc : FileLocation) (hne : h' ≠ h) :
    (i.removeIfLocationMatches h loc).2.get h' = i.get h' := by
  obtain ⟨_, _, _, hp⟩ | ⟨_, hp⟩ := removeIf_cases i h loc
  · rw [hp]
    exact get_remove_of_ne i hne
  · rw [hp]

@[simp] theorem get_replace (i : BlobIndex) (map : AList fun _ : Str => FileMetadata) (h : Str) :
    (i.replace map).get h = map.lookup h :=
  rfl

end BlobIndex

end Almond
