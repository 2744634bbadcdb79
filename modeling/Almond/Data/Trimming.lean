import Mathlib.Data.List.DropRight
import Mathlib.Data.List.TakeWhile

/-! # Trimming lists

A list without the elements at its two ends that satisfy a predicate. -/

namespace Almond.Trimming

variable {α : Type} {p : α → Bool} {a b l w w' : List α} {c : α}

/-- A list without the elements at its ends that satisfy a predicate. -/
def trimBy (p : α → Bool) (l : List α) : List α :=
  (l.dropWhile p).rdropWhile p

/-- Only elements that are trimmed. -/
def Blank (p : α → Bool) (l : List α) : Prop :=
  ∀ c ∈ l, p c = true

/-- A list with elements around it that are trimmed. -/
def Padded (p : α → Bool) (l padded : List α) : Prop :=
  ∃ w w', Blank p w ∧ Blank p w' ∧ padded = w ++ l ++ w'

/-- An element that stays ends what is trimmed at the start. -/
theorem dropWhile_append_cons (hc : p c = false) (a b : List α) : (a ++ c :: b).dropWhile p = a.dropWhile p ++ c :: b := by
  induction a with
  | nil => simp [hc]
  | cons x a ih =>
    simp only [List.cons_append, List.dropWhile_cons]
    split
    · exact ih
    · rfl

/-- An element that stays ends what is trimmed at the end. -/
theorem rdropWhile_append_cons (hc : p c = false) (a b : List α) : (a ++ c :: b).rdropWhile p = a ++ c :: b.rdropWhile p := by
  have hreverse : (a ++ c :: b).reverse = b.reverse ++ c :: a.reverse := by simp
  rw [List.rdropWhile, hreverse, dropWhile_append_cons hc]
  simp [List.rdropWhile]

/-- A list around an element that stays is trimmed at its start and at its end. -/
theorem trimBy_append_cons (hc : p c = false) (a b : List α) : trimBy p (a ++ c :: b) = a.dropWhile p ++ c :: b.rdropWhile p := by
  rw [trimBy, dropWhile_append_cons hc, rdropWhile_append_cons hc]

/-- A list of elements that are trimmed, or one that has a first element that stays. -/
theorem blank_or_eq (p : α → Bool) (l : List α) : Blank p l ∨ ∃ a c b, l = a ++ c :: b ∧ p c = false := by
  by_cases h : ∃ c ∈ l, p c = false
  · obtain ⟨c, hc, hp⟩ := h
    obtain ⟨a, b, rfl⟩ := List.append_of_mem hc
    exact .inr ⟨a, c, b, rfl, hp⟩
  · simp only [not_exists, not_and, Bool.not_eq_false] at h
    exact .inl h

/-- Nothing stays of elements that are trimmed. -/
theorem trimBy_blank (h : Blank p l) : trimBy p l = [] := by
  rw [trimBy, List.dropWhile_eq_nil_iff.2 h, List.rdropWhile_nil]

/-- What was trimmed at its start is trimmed. -/
theorem trimBy_dropWhile (p : α → Bool) (l : List α) : trimBy p (l.dropWhile p) = trimBy p l := by
  rw [trimBy, List.dropWhile_idempotent, trimBy]

/-- What was trimmed at its end is trimmed. -/
theorem trimBy_rdropWhile (p : α → Bool) (l : List α) : trimBy p (l.rdropWhile p) = trimBy p l := by
  rcases blank_or_eq p l with h | ⟨a, c, b, rfl, hc⟩
  · rw [List.rdropWhile_eq_nil_iff.2 h, trimBy_blank h]
    rfl
  · rw [rdropWhile_append_cons hc, trimBy_append_cons hc, trimBy_append_cons hc, List.rdropWhile_idempotent]

/-- Trimming again changes nothing. -/
theorem trimBy_trimBy (p : α → Bool) (l : List α) : trimBy p (trimBy p l) = trimBy p l :=
  (trimBy_rdropWhile p (l.dropWhile p)).trans (trimBy_dropWhile p l)

/-- What is trimmed around a list. -/
theorem padded_trimBy (p : α → Bool) (l : List α) : Padded p (trimBy p l) l := by
  refine ⟨l.takeWhile p, (l.dropWhile p).rtakeWhile p, fun c hc => List.mem_takeWhile_imp hc, fun c hc => List.mem_rtakeWhile_imp hc, ?_⟩
  rw [trimBy, List.append_assoc, List.rdropWhile_append_rtakeWhile, List.takeWhile_append_dropWhile]

/-- An element that stays is in what is left. -/
theorem mem_trimBy (hc : p c = false) (h : c ∈ l) : c ∈ trimBy p l := by
  obtain ⟨w, w', hw, hw', heq⟩ := padded_trimBy p l
  have hnot : ∀ w, Blank p w → c ∉ w := fun w hw hmem => Bool.false_ne_true (hc.symm.trans (hw c hmem))
  rw [heq] at h
  rcases List.mem_append.1 h with h | h
  · exact (List.mem_append.1 h).resolve_left (hnot w hw)
  · exact absurd h (hnot w' hw')

/-- A list is trimmed as it is with elements around it that are trimmed. -/
theorem Padded.trimBy_eq (h : Padded p l a) : trimBy p a = trimBy p l := by
  obtain ⟨w, w', hw, hw', rfl⟩ := h
  have hend : ∀ l : List α, (l ++ w').rdropWhile p = l.rdropWhile p := by
    intro l
    rw [List.rdropWhile, List.reverse_append, List.dropWhile_append_of_pos fun c hc => hw' c (List.mem_reverse.1 hc)]
    rfl
  rw [trimBy, List.append_assoc, List.dropWhile_append_of_pos hw, List.dropWhile_append]
  split
  · rename_i hnil
    have hl : l.dropWhile p = [] := List.isEmpty_iff.1 hnil
    rw [List.dropWhile_eq_nil_iff.2 hw', trimBy, hl]
  · rw [hend, trimBy]

/-- A list whose elements stay is trimmed. -/
theorem trimBy_of_forall (h : ∀ c ∈ l, p c = false) : trimBy p l = l := by
  rcases List.eq_nil_or_concat l with rfl | ⟨l, c, rfl⟩
  · rfl
  · have hc := h c (by simp)
    rw [trimBy, List.dropWhile_eq_self_iff.2, List.concat_eq_append, List.rdropWhile_concat_neg _ _ _ (by simp [hc])]
    intro hl
    simpa using h _ (List.getElem_mem hl)

/-- What a list with elements around it that are trimmed is without them. -/
theorem padded_iff (h : ∀ c ∈ l, p c = false) : Padded p l a ↔ trimBy p a = l := by
  refine ⟨fun hp => hp.trimBy_eq.trans (trimBy_of_forall h), ?_⟩
  rintro rfl
  exact padded_trimBy p a

end Almond.Trimming
