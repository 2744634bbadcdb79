import Mathlib.Data.List.Pairwise

/-! # First occurrences

The entries of a list whose keys were not seen before, each key once. -/

namespace FirstOccurrences

variable {α κ : Type} [DecidableEq κ] (key : α → κ)

/-- The first entry of each key that is not among those seen. -/
def firsts : List α → List κ → List α
  | [], _ => []
  | a :: l, seen => if key a ∈ seen then firsts l seen else a :: firsts l (key a :: seen)

variable {key} {l l' : List α} {seen : List κ} {a : α}

/-- First occurrences keep their order. -/
theorem firsts_sublist : (firsts key l seen).Sublist l := by
  induction l generalizing seen with
  | nil => exact .slnil
  | cons a l ih =>
    rw [firsts]
    split
    · exact ih.cons a
    · exact ih.cons_cons a

/-- Their keys are those that were not seen. -/
theorem mem_map_firsts {k : κ} : k ∈ (firsts key l seen).map key ↔ k ∈ l.map key ∧ k ∉ seen := by
  induction l generalizing seen with
  | nil => simp [firsts]
  | cons a l ih =>
    rw [firsts]
    split
    · rename_i ha
      rw [ih, List.map_cons, List.mem_cons]
      refine ⟨fun h => ⟨.inr h.1, h.2⟩, fun ⟨h, hk⟩ => ⟨h.resolve_left fun he => hk (he ▸ ha), hk⟩⟩
    · rename_i ha
      rw [List.map_cons, List.mem_cons, ih, List.map_cons, List.mem_cons, List.mem_cons, not_or]
      constructor
      · rintro (rfl | ⟨h, -, hk⟩)
        · exact ⟨.inl rfl, ha⟩
        · exact ⟨.inr h, hk⟩
      · rintro ⟨h, hk⟩
        by_cases he : k = key a
        · exact .inl he
        · exact .inr ⟨h.resolve_left he, he, hk⟩

/-- No key comes twice. -/
theorem nodup_map_firsts : ((firsts key l seen).map key).Nodup := by
  induction l generalizing seen with
  | nil => exact List.nodup_nil
  | cons a l ih =>
    rw [firsts]
    split
    · exact ih
    · rw [List.map_cons, List.nodup_cons]
      exact ⟨fun h => (mem_map_firsts.1 h).2 List.mem_cons_self, ih⟩

/-- Entries whose keys were seen do not count. -/
theorem firsts_append_of_seen (h : ∀ a ∈ l, key a ∈ seen) : firsts key (l ++ l') seen = firsts key l' seen := by
  induction l with
  | nil => rfl
  | cons a l ih =>
    obtain ⟨ha, hl⟩ := List.forall_mem_cons.1 h
    rw [List.cons_append, firsts, if_pos ha, ih hl]

/-- An entry whose key was not seen is the first one of its key, or comes after it. -/
theorem exists_firsts_before {R : α → α → Prop} (hrefl : ∀ a, R a a) (hl : l.Pairwise R) (ha : a ∈ l) (hseen : key a ∉ seen) :
    ∃ b ∈ firsts key l seen, key b = key a ∧ R b a := by
  induction l generalizing seen with
  | nil => nomatch ha
  | cons c l ih =>
    obtain ⟨hc, hl⟩ := List.pairwise_cons.1 hl
    rw [firsts]
    by_cases hkey : key c = key a
    · rw [if_neg (hkey ▸ hseen)]
      refine ⟨c, List.mem_cons_self, hkey, ?_⟩
      rcases List.mem_cons.1 ha with rfl | ha
      · exact hrefl a
      · exact hc a ha
    · have ha' : a ∈ l := (List.mem_cons.1 ha).resolve_left fun he => hkey (congrArg key he.symm)
      split
      · exact ih hl ha' hseen
      · have hseen' : key a ∉ key c :: seen := fun h => (List.mem_cons.1 h).elim (fun he => hkey he.symm) hseen
        obtain ⟨b, hb, hba⟩ := ih hl ha' hseen'
        exact ⟨b, List.mem_cons_of_mem _ hb, hba⟩

/-- Entries that are added one after another, unless their key is there, are the first occurrences. -/
theorem foldl_push_eq (start : List α) :
    l.foldl (fun added a => if added.any fun b => key b = key a then added else added ++ [a]) start =
      start ++ firsts key l (start.map key) := by
  -- What counts as seen is a matter of membership.
  have hcongr : ∀ (l : List α) (seen seen' : List κ), (∀ k, k ∈ seen ↔ k ∈ seen') → firsts key l seen = firsts key l seen' := by
    intro l
    induction l with
    | nil => exact fun _ _ _ => rfl
    | cons a l ih =>
      intro seen seen' h
      simp only [firsts, h]
      rw [ih seen seen' h, ih (key a :: seen) (key a :: seen') fun k => by simp only [List.mem_cons, h]]
  induction l generalizing start with
  | nil => simp [firsts]
  | cons a l ih =>
    have hany : (start.any fun b => key b = key a) = true ↔ key a ∈ start.map key := by
      simp only [List.any_eq_true, decide_eq_true_eq, List.mem_map]
    rw [List.foldl_cons, ih, firsts]
    by_cases h : key a ∈ start.map key
    · rw [if_pos (hany.2 h), if_pos h]
    · rw [if_neg fun hc => h (hany.1 hc), if_neg h, List.append_assoc, List.singleton_append]
      rw [hcongr l ((start ++ [a]).map key) (key a :: start.map key) fun k => by simp [or_comm]]

end FirstOccurrences
