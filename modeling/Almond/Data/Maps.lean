import Mathlib.Data.List.AList

/-! # Entries of a finite map after a change -/

namespace Maps

variable {κ β : Type} [DecidableEq κ] {m : AList fun _ : κ => β} {k k' : κ} {b b' : β}

/-- An entry of a map with one more entry is that one, or was there. -/
theorem lookup_insert_cases (h : (m.insert k b).lookup k' = some b') : k' = k ∧ b' = b ∨ k' ≠ k ∧ m.lookup k' = some b' := by
  by_cases hk : k' = k
  · subst hk
    rw [AList.lookup_insert] at h
    exact .inl ⟨rfl, (Option.some.inj h).symm⟩
  · rw [AList.lookup_insert_ne hk] at h
    exact .inr ⟨hk, h⟩

/-- An entry of a map without the entry of one key was there, under another key. -/
theorem lookup_erase_cases (h : (m.erase k).lookup k' = some b) : k' ≠ k ∧ m.lookup k' = some b := by
  have hk : k' ≠ k := by
    rintro rfl
    rw [AList.lookup_erase] at h
    nomatch h
  rw [AList.lookup_erase_ne hk] at h
  exact ⟨hk, h⟩

/-- The map with `f` applied to every value. -/
def mapValues (f : β → β) (m : AList fun _ : κ => β) : AList fun _ : κ => β where
  entries := m.entries.map fun e => ⟨e.1, f e.2⟩
  nodupKeys := by
    have hkeys : (m.entries.map fun e => (⟨e.1, f e.2⟩ : Sigma fun _ : κ => β)).keys = m.entries.keys := by
      simp only [List.keys, List.map_map]
      rfl
    simp only [List.NodupKeys, hkeys]
    exact m.nodupKeys

omit [DecidableEq κ] in
/-- An entry of the map with new values is one of the map before. -/
theorem mem_entries_mapValues {f : β → β} {e : Sigma fun _ : κ => β} :
    e ∈ (mapValues f m).entries ↔ ∃ b, ⟨e.1, b⟩ ∈ m.entries ∧ e.2 = f b := by
  simp only [mapValues, List.mem_map]
  constructor
  · rintro ⟨e, he, rfl⟩
    exact ⟨e.2, he, rfl⟩
  · rintro ⟨b, hb, he⟩
    exact ⟨⟨e.1, b⟩, hb, Sigma.ext rfl (heq_of_eq he.symm)⟩

/-- The value of a key in the map with new values. -/
@[simp]
theorem lookup_mapValues {f : β → β} : (mapValues f m).lookup k = (m.lookup k).map f := by
  apply Option.ext
  intro b
  have hmem : ∀ (n : AList fun _ : κ => β) (c : β), n.lookup k = some c ↔ ⟨k, c⟩ ∈ n.entries := fun n c => AList.mem_lookup_iff
  rw [hmem, mem_entries_mapValues, Option.map_eq_some_iff]
  simp only [hmem, eq_comm (a := b)]

end Maps
