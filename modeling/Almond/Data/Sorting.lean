import Mathlib.Data.List.Sort

/-! # Sorting by a key

A list is sorted by a key stably: elements with the same key keep their order. -/

namespace Sorting

variable {α β : Type} {l : List α} {a b : α}

/-- Two elements of a list come in one order or in the other. -/
theorem sublist_pair_total (ha : a ∈ l) (hb : b ∈ l) (hne : a ≠ b) : [a, b].Sublist l ∨ [b, a].Sublist l := by
  induction l with
  | nil => simp at ha
  | cons c l ih =>
    rcases List.mem_cons.1 ha with rfl | ha'
    · have hb' := (List.mem_cons.1 hb).resolve_left (Ne.symm hne)
      exact .inl (.cons_cons a (List.singleton_sublist.2 hb'))
    rcases List.mem_cons.1 hb with rfl | hb'
    · exact .inr (.cons_cons b (List.singleton_sublist.2 ha'))
    · rcases ih ha' hb' with h | h
      · exact .inl (h.cons c)
      · exact .inr (h.cons c)

/-- Two elements of a list without duplicates do not come in both orders. -/
theorem not_sublist_pair_swap (hl : l.Nodup) (h : [a, b].Sublist l) : ¬ [b, a].Sublist l := by
  induction l with
  | nil => simp at h
  | cons c l ih =>
    intro h'
    obtain ⟨hc, hl'⟩ := List.nodup_cons.1 hl
    cases h with
    | cons _ h =>
      cases h' with
      | cons _ h' => exact ih hl' h h'
      | cons_cons _ h' => exact hc (h.subset (List.mem_cons_of_mem _ List.mem_cons_self))
    | cons_cons _ h =>
      cases h' with
      | cons _ h' => exact hc (h'.subset (List.mem_cons_of_mem _ List.mem_cons_self))
      | cons_cons _ h' => exact hc (h.subset List.mem_cons_self)

/-- In a list that was sorted by a key, what comes first has the smaller key, or the same key and came first before. -/
theorem pairwise_insertionSort [LinearOrder β] (key : α → β) (hl : l.Nodup) :
    (l.insertionSort fun a b => key a ≤ key b).Pairwise fun a b => key a < key b ∨ key a = key b ∧ [a, b].Sublist l := by
  let r : α → α → Prop := fun a b => key a ≤ key b
  have : Std.Total r := ⟨fun a b => le_total (key a) (key b)⟩
  have : IsTrans α r := ⟨fun _ _ _ => le_trans⟩
  have hsorted : (l.insertionSort r).Pairwise r := List.pairwise_insertionSort r l
  have hnodup : (l.insertionSort r).Nodup := (List.perm_insertionSort r l).nodup_iff.2 hl
  rw [List.pairwise_iff_forall_sublist]
  intro a b h
  rcases lt_or_eq_of_le (List.pairwise_iff_forall_sublist.1 hsorted h) with hlt | heq
  · exact .inl hlt
  · have hmem : ∀ x ∈ [a, b], x ∈ l := fun x hx => (List.mem_insertionSort r).1 (h.subset hx)
    have hne : a ≠ b := by
      have := hnodup.sublist h
      simp at this
      exact this
    refine .inr ⟨heq, (sublist_pair_total (hmem a (by simp)) (hmem b (by simp)) hne).resolve_right fun hba => ?_⟩
    -- The sort is stable, so it would keep the other order as well.
    exact not_sublist_pair_swap hnodup h (List.pair_sublist_insertionSort heq.ge hba)

end Sorting
