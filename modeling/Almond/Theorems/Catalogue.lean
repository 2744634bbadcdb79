import Almond.Lemmas.ListingAux
import Almond.Sample

/-! # The catalogue over whole runs -/

namespace Almond.BlobIndex

open Paging

/-! ## The redundant parts -/

/-- After any operations whose sums fit, the total is the sum of the sizes of the entries and the order consists of the keys of the
entries, in order; no subtraction saturates, and the operations that leave the entries alone are those that are not counted. -/
theorem index_consistent {i : BlobIndex} (h : Reachable Fits i) :
    i.totalBytes = sumSizes i.map ∧ i.order.Pairwise Before ∧
      (∀ createdAt sha256, (createdAt, sha256) ∈ i.order ↔ ∃ m, i.get sha256 = some m ∧ m.createdAt = createdAt) ∧
      ∀ op, i.Fits op → (∀ a b, i.subtraction op = some (a, b) → b ≤ a) ∧
        (i.touches op = true → (i.apply op).generation = i.generation + 1) ∧
        (i.touches op = false → i.apply op = i) ∧
        ((i.apply op).map ≠ i.map → i.generation < (i.apply op).generation) := by
  have hs := h.summed
  have ho := h.ordered
  refine ⟨hs, ho.sorted, fun c k => ho.mem_iff c k, fun op hfit => ⟨fun a b hab => hs.subtraction_le hfit hab, ?_, ?_, ?_⟩⟩
  · exact generation_of_touches
  · exact apply_of_not_touches
  · intro hne
    cases ht : i.touches op with
    | true =>
      rw [generation_of_touches ht]
      exact Nat.lt_succ_self _
    | false =>
      rw [apply_of_not_touches ht] at hne
      exact absurd rfl hne

/-- The parts of an index in which one entry has been overwritten. -/
theorem index_consistent_overwritten :
    ((BlobIndex.empty.apply (.insert Sample.hash (Sample.metadata []))).apply
      (.insert Sample.hash (Sample.metadata Sample.hash))).totalBytes = 3 := by
  have hr : Reachable Fits ((BlobIndex.empty.apply (.insert Sample.hash (Sample.metadata []))).apply
      (.insert Sample.hash (Sample.metadata Sample.hash))) :=
    (Reachable.empty.step _ fun _ => by decide).step _ fun _ => by decide
  exact (index_consistent hr).1.trans (by decide)

/-! ## Readers -/

/-- Over an index that does not change, every client ends with an empty page, and it has then received every result once, newest
first. -/
theorem pagination_complete {i : BlobIndex} (h : Reachable (fun _ _ => True) i) (since until' : Nat) (author : Option PublicKey)
    {limit : Nat} (hlimit : 1 ≤ limit) :
    (∃ pages, i.Pages since until' author limit none pages) ∧
      ∀ pages, i.Pages since until' author limit none pages →
        (∀ sha256 m, (sha256, m) ∈ pages.flatten ↔ i.get sha256 = some m ∧ isResult since until' author m = true) ∧
          (pages.flatten.map Prod.fst).Nodup ∧
          pages.flatten.Pairwise fun a b =>
            b.2.createdAt < a.2.createdAt ∨ a.2.createdAt = b.2.createdAt ∧ strLe b.1 a.1 = true ∧ a.1 ≠ b.1 := by
  have ho := h.ordered
  have hnodup := ho.nodup_listing since until' author
  constructor
  · obtain ⟨pages, hw⟩ := exists_walk hnodup hlimit none
    exact ⟨pages, ho.pages_of_walk hlimit hw⟩
  · intro pages hp
    have hflat : pages.flatten = i.listing since until' author := (ho.walk_of_pages hlimit hp).flatten_eq hnodup hlimit
    rw [hflat]
    refine ⟨fun sha256 m => ho.mem_listing, hnodup, ho.sorted_listing.imp fun hab => before_iff.1 hab⟩

/-- An index of three entries of the same time. -/
def three : BlobIndex :=
  ((BlobIndex.empty.apply (.insert Sample.hash (Sample.metadata []))).apply
    (.insert (List.replicate 64 'b') (Sample.metadata []))).apply (.insert (List.replicate 64 'c') (Sample.metadata []))

/-- The index of three entries was reached. -/
theorem reachable_three : Reachable (fun _ _ => True) three :=
  ((Reachable.empty.step _ trivial).step _ trivial).step _ trivial

/-- The pages of a client of the index of three entries. -/
theorem pagination_complete_three : ∃ pages, three.Pages 0 u64Max none 2 none pages ∧ (pages.flatten.map Prod.fst).Nodup := by
  obtain ⟨⟨pages, hp⟩, h⟩ := pagination_complete reachable_three 0 u64Max none (by decide : 1 ≤ 2)
  exact ⟨pages, hp, (h pages hp).2.1⟩

/-- Whatever is removed while a client walks the list, it reaches an empty page. As long as its cursor is known whenever it asks, it
receives nothing twice, and the next page repeats nothing exactly when the cursor is known. -/
theorem pagination_survives_removals {i₀ : BlobIndex} (h : Reachable (fun _ _ => True) i₀) (since until' : Nat)
    (author : Option PublicKey) {limit : Nat} (hlimit : 1 ≤ limit) :
    (∀ i pages cursor, Listing since until' author limit (fun _ _ _ => True) i₀ i pages cursor →
      pages.length ≤ i₀.map.keys.length * (i₀.map.keys.length + 2)) ∧
    ∀ i pages cursor, Listing since until' author limit CursorKnown i₀ i pages cursor →
      (pages.flatten.map Prod.fst).Nodup ∧
        ∀ page sha256 metadata, i.page since until' author cursor limit = page ++ [(sha256, metadata)] →
          (((pages ++ [page ++ [(sha256, metadata)]]).flatten.map Prod.fst).Nodup ↔ CursorKnown i pages cursor) := by
  have ho := h.ordered
  have hnodup := ho.nodup_listing since until' author
  constructor
  · intro i pages cursor hl
    obtain ⟨_, hd⟩ := hl.drain (fun _ _ _ => True) ho hlimit fun _ _ => trivial
    have hlen := ho.length_listing_le since until' author
    calc pages.length ≤ _ := hd.length_le hnodup hlimit
      _ ≤ _ := Nat.mul_le_mul hlen (Nat.add_le_add_right hlen 2)
  · intro i pages cursor hl
    obtain ⟨hw, hd⟩ := hl.drain (Findable Prod.fst) ho hlimit fun hw hok => hw.findable_iff.2 hok
    have hr := hd.reading hnodup
    -- What was received has the keys of results of the first index, which are different.
    have hkeys : ∀ {pages cursor}, Reading Prod.fst (i₀.listing since until' author) (i.listing since until' author) pages cursor →
        (pages.flatten.map Prod.fst).Nodup := by
      intro pages cursor hr
      exact hr.nodup.map_on fun a ha b hb hab => List.inj_on_of_nodup_map hnodup (hr.known a ha) (hr.known b hb) hab
    refine ⟨hkeys hr, fun page sha256 metadata hp => ?_⟩
    rw [hw.ordered.page_eq hlimit] at hp
    rw [← hw.findable_iff]
    constructor
    · intro hn
      by_contra hf
      exact hr.not_nodup hlimit hf hp hn.of_map
    · intro hf
      exact hkeys (hr.read hnodup hf hp)

/-- The hash of the first result of the index of three entries. -/
def first : Str := List.replicate 64 'c'

/-- The hash of the second one. -/
def second : Str := List.replicate 64 'b'

/-- A client of the index of three entries that has received one entry, which is then removed. -/
theorem pagination_survives_removals_first :
    (([[(first, Sample.metadata [])]] : List (List (Str × FileMetadata))).flatten.map Prod.fst).Nodup := by
  have hstart : Listing 0 u64Max none 1 CursorKnown three three [] none := .start
  have hp : three.page 0 u64Max none none 1 = [] ++ [(first, Sample.metadata [])] := by decide
  have hl := (hstart.read nofun hp).remove (.remove first) rfl
  exact ((pagination_survives_removals reachable_three 0 u64Max none (by decide)).2 _ _ _ hl).1

/-- A client whose last received entry is removed receives the first one again. -/
theorem pagination_survives_removals_false :
    ¬ ∀ (i₀ i : BlobIndex) (since until' : Nat) (author : Option PublicKey) (limit : Nat) (pages : List (List (Str × FileMetadata)))
      (cursor : Option Str), Reachable (fun _ _ => True) i₀ → 1 ≤ limit →
        Listing since until' author limit (fun _ _ _ => True) i₀ i pages cursor → (pages.flatten.map Prod.fst).Nodup := by
  intro h
  have hstart : Listing 0 u64Max none 1 (fun _ _ _ => True) three three [] none := .start
  have hp : three.page 0 u64Max none none 1 = [] ++ [(first, Sample.metadata [])] := by decide
  have hp₂ : three.page 0 u64Max none (some first) 1 = [] ++ [(second, Sample.metadata [])] := by decide
  have hp₃ : (three.apply (.remove second)).page 0 u64Max none (some second) 1 = [] ++ [(first, Sample.metadata [])] := by
    decide
  have hl := ((hstart.read trivial hp).read trivial hp₂).remove (.remove second) rfl
  exact absurd (h _ _ _ _ _ _ _ _ reachable_three (by decide) (hl.read trivial hp₃)) (by decide)

end Almond.BlobIndex
