import Mathlib.Data.List.Nodup
import Mathlib.Data.List.Sublists

/-! # Paging through a list

A reader walks a list in pages. It asks for each page with the key of the last element of the page before, its cursor; a cursor that is
not in the list means the beginning. -/

namespace Paging

section

variable {α κ : Type} [DecidableEq κ] (key : α → κ) {limit : Nat} {l : List α}

/-- What follows the element with a key. -/
def after (c : κ) : List α → List α
  | [] => []
  | a :: as => if key a = c then as else after c as

/-- Where the page after a cursor begins. -/
def rest (cursor : Option κ) (l : List α) : List α :=
  match cursor with
  | some c => if c ∈ l.map key then after key c l else l
  | none => l

/-- The page after a cursor. -/
def page (limit : Nat) (cursor : Option κ) (l : List α) : List α :=
  (rest key cursor l).take limit

variable {key}

/-- What follows an element whose key is its own. -/
theorem after_append {l₁ l₂ : List α} {a : α} (h : ((l₁ ++ a :: l₂).map key).Nodup) :
    after key (key a) (l₁ ++ a :: l₂) = l₂ := by
  induction l₁ with
  | nil => exact if_pos rfl
  | cons b l₁ ih =>
    rw [List.cons_append, List.map_cons, List.nodup_cons] at h
    have hne : key b ≠ key a := by
      intro he
      exact h.1 (he ▸ List.mem_map_of_mem (List.mem_append_right _ List.mem_cons_self))
    rw [List.cons_append, after, if_neg hne]
    exact ih h.2

/-- The page after an element of the list begins with what follows it. -/
theorem rest_append {l₁ l₂ : List α} {a : α} (h : ((l₁ ++ a :: l₂).map key).Nodup) :
    rest key (some (key a)) (l₁ ++ a :: l₂) = l₂ := by
  have hm : key a ∈ (l₁ ++ a :: l₂).map key := List.mem_map_of_mem (List.mem_append_right _ List.mem_cons_self)
  simp only [rest, if_pos hm]
  exact after_append h

/-- A page begins somewhere in the list. -/
theorem rest_suffix (key : α → κ) (cursor : Option κ) (l : List α) : rest key cursor l <:+ l := by
  have hafter : ∀ (c : κ) (l : List α), after key c l <:+ l := by
    intro c l
    induction l with
    | nil => exact List.suffix_refl _
    | cons a l ih =>
      simp only [after]
      split
      · exact List.suffix_cons ..
      · exact ih.trans (List.suffix_cons ..)
  cases cursor with
  | none => exact List.suffix_refl _
  | some c =>
    simp only [rest]
    split
    · exact hafter c l
    · exact List.suffix_refl _

/-- The page after the last element of a page begins where that page ended. -/
theorem rest_of_page {cursor : Option κ} {p : List α} {a : α} (h : (l.map key).Nodup)
    (hp : page key limit cursor l = p ++ [a]) : rest key (some (key a)) l = (rest key cursor l).drop limit := by
  obtain ⟨l₁, hl⟩ := rest_suffix key cursor l
  have hrest : rest key cursor l = p ++ a :: (rest key cursor l).drop limit := by
    calc rest key cursor l = page key limit cursor l ++ (rest key cursor l).drop limit := (List.take_append_drop ..).symm
      _ = p ++ a :: (rest key cursor l).drop limit := by rw [hp, List.append_assoc, List.singleton_append]
  generalize (rest key cursor l).drop limit = l₂ at hrest ⊢
  rw [hrest] at hl
  have hsplit : l = (l₁ ++ p) ++ a :: l₂ := by rw [← hl, List.append_assoc]
  subst hsplit
  exact rest_append h

/-! ## Walks over a list that does not change -/

variable (key) in
/-- The pages of a reader that walks a list from a cursor on until a page is empty. -/
inductive Walk (limit : Nat) (l : List α) : Option κ → List (List α) → Prop
  | done {cursor : Option κ} (h : page key limit cursor l = []) : Walk limit l cursor []
  | more {cursor : Option κ} {p : List α} {a : α} {pages : List (List α)} (h : page key limit cursor l = p ++ [a])
      (hw : Walk limit l (some (key a)) pages) : Walk limit l cursor ((p ++ [a]) :: pages)

/-- A walk reads what follows its cursor, once and in order. -/
theorem Walk.flatten_eq (h : (l.map key).Nodup) (hlimit : 1 ≤ limit) {cursor : Option κ} {pages : List (List α)}
    (hw : Walk key limit l cursor pages) : pages.flatten = rest key cursor l := by
  induction hw with
  | done hp =>
    rcases List.take_eq_nil_iff.1 hp with h0 | hnil
    · omega
    · exact hnil.symm
  | more hp _ ih =>
    rw [List.flatten_cons, ih, rest_of_page h hp, ← hp]
    exact List.take_append_drop ..

/-- Every reader reaches an empty page. -/
theorem exists_walk (h : (l.map key).Nodup) (hlimit : 1 ≤ limit) (cursor : Option κ) :
    ∃ pages, Walk key limit l cursor pages := by
  generalize hn : (rest key cursor l).length = n
  induction n using Nat.strong_induction_on generalizing cursor with
  | _ n ih =>
    rcases List.eq_nil_or_concat' (page key limit cursor l) with hp | ⟨p, a, hp⟩
    · exact ⟨[], .done hp⟩
    · have hpos : (rest key cursor l) ≠ [] := by
        intro hnil
        rw [page, hnil, List.take_nil] at hp
        exact List.append_ne_nil_of_right_ne_nil p (List.cons_ne_nil a []) hp.symm
      have hlen := List.length_pos_of_ne_nil hpos
      have hdrop : (rest key (some (key a)) l).length < n := by
        rw [rest_of_page h hp, List.length_drop]
        omega
      obtain ⟨pages, hw⟩ := ih _ hdrop (some (key a)) rfl
      exact ⟨_, .more hp hw⟩

end

/-! ## Walks over a list that loses elements -/

section

variable {α κ : Type} {key : α → κ} {l : List α}

/-- The cursor can be found: its element is still in the list, or the list has lost all that was read. -/
def Findable (key : α → κ) (l : List α) (pages : List (List α)) (cursor : Option κ) : Prop :=
  ∀ c, cursor = some c → c ∈ l.map key ∨ ∀ a ∈ pages.flatten, a ∉ l

/-- What holds of a reader whose cursor could always be found: the list consists of what was read and, after it, what was not, and what
was read ends with the cursor, if the cursor is still there. -/
structure Reading (key : α → κ) (l₀ l : List α) (pages : List (List α)) (cursor : Option κ) : Prop where
  sublist : l.Sublist l₀
  known : ∀ a ∈ pages.flatten, a ∈ l₀
  nodup : pages.flatten.Nodup
  split : ∃ l₁ l₂, l = l₁ ++ l₂ ∧ (∀ a ∈ l₁, a ∈ pages.flatten) ∧ (∀ a ∈ l₂, a ∉ pages.flatten) ∧
    (cursor = none → l₁ = []) ∧ ∀ c, cursor = some c → c ∈ l.map key → ∃ l₃ a, l₁ = l₃ ++ [a] ∧ key a = c

namespace Reading

variable {l₀ : List α} {pages : List (List α)} {cursor : Option κ}

/-- A reader at the beginning. -/
theorem start (key : α → κ) (l₀ : List α) : Reading key l₀ l₀ [] none :=
  ⟨List.Sublist.refl _, nofun, List.nodup_nil, [], l₀, rfl, nofun, fun _ _ => List.not_mem_nil, fun _ => rfl, nofun⟩

/-- The list loses elements. -/
theorem lose (hr : Reading key l₀ l pages cursor) (h : (l₀.map key).Nodup) {l' : List α} (hs : l'.Sublist l) :
    Reading key l₀ l' pages cursor := by
  have hsub := hr.sublist
  obtain ⟨l₁, l₂, rfl, h₁, h₂, hnone, hlast⟩ := hr.split
  obtain ⟨l₁', l₂', rfl, hs₁, hs₂⟩ := List.sublist_append_iff.1 hs
  refine ⟨hs.trans hsub, hr.known, hr.nodup, l₁', l₂', rfl, fun a ha => h₁ a (hs₁.subset ha),
    fun a ha => h₂ a (hs₂.subset ha), ?_, ?_⟩
  · intro hc
    rw [hnone hc] at hs₁
    exact List.sublist_nil.1 hs₁
  · intro c hc hm
    obtain ⟨l₃, a, rfl, rfl⟩ := hlast c hc ((hs.map key).subset hm)
    obtain ⟨l₃', r, rfl, hs₃, hr'⟩ := List.sublist_append_iff.1 hs₁
    obtain ⟨b, hb, hkey⟩ := List.mem_map.1 hm
    -- The element with the cursor's key can only be the last one that was read.
    have hinj : ∀ x y, x ∈ l₀ → y ∈ l₀ → key x = key y → x = y := fun x y hx hy => List.inj_on_of_nodup_map h hx hy
    have hba : b = a := by
      refine hinj b a (hsub.subset (hs.subset hb)) (hsub.subset ?_) hkey
      simp
    subst hba
    have hnodup : ((l₃ ++ [b]) ++ l₂).Nodup := (List.Nodup.of_map key h).sublist hsub
    rcases List.sublist_singleton.1 hr' with rfl | rfl
    · exfalso
      rw [List.append_nil] at hb
      rcases List.mem_append.1 hb with hb | hb
      · simp only [List.append_assoc, List.nodup_append, List.mem_append, List.mem_singleton] at hnodup
        exact hnodup.2.2 b (hs₃.subset hb) b (.inl rfl) rfl
      · simp only [List.nodup_append, List.mem_append, List.mem_singleton] at hnodup
        exact hnodup.2.2 b (.inr rfl) b (hs₂.subset hb) rfl
    · exact ⟨l₃', b, rfl, rfl⟩

end Reading

end

section

variable {α κ : Type} [DecidableEq κ] {key : α → κ} {limit : Nat} {l l₀ : List α} {pages : List (List α)} {cursor : Option κ}

variable (key) in
/-- A reader on its way: the list as it is now, the pages it has read, and its cursor. Between two pages the list loses elements, and
each page is read in a situation that satisfies a condition. -/
inductive Drain (limit : Nat) (ok : List α → List (List α) → Option κ → Prop) (l₀ : List α) :
    List α → List (List α) → Option κ → Prop
  | start : Drain limit ok l₀ l₀ [] none
  | lose {l l' : List α} {pages : List (List α)} {cursor : Option κ} (hd : Drain limit ok l₀ l pages cursor) (hs : l'.Sublist l) :
      Drain limit ok l₀ l' pages cursor
  | read {l p : List α} {a : α} {pages : List (List α)} {cursor : Option κ} (hd : Drain limit ok l₀ l pages cursor)
      (hok : ok l pages cursor) (hp : page key limit cursor l = p ++ [a]) :
      Drain limit ok l₀ l (pages ++ [p ++ [a]]) (some (key a))

namespace Reading

/-- A reader whose cursor can be found goes on with what it has not read. -/
theorem rest_eq (hr : Reading key l₀ l pages cursor) (h : (l₀.map key).Nodup) (hf : Findable key l pages cursor) :
    ∃ l₁ l₂, l = l₁ ++ l₂ ∧ (∀ a ∈ l₁, a ∈ pages.flatten) ∧ (∀ a ∈ l₂, a ∉ pages.flatten) ∧ rest key cursor l = l₂ := by
  have hl := h.sublist (hr.sublist.map key)
  obtain ⟨l₁, l₂, rfl, h₁, h₂, hnone, hlast⟩ := hr.split
  refine ⟨l₁, l₂, rfl, h₁, h₂, ?_⟩
  cases cursor with
  | none =>
    rw [hnone rfl]
    rfl
  | some c =>
    by_cases hm : c ∈ (l₁ ++ l₂).map key
    · obtain ⟨l₃, a, rfl, rfl⟩ := hlast c rfl hm
      rw [List.append_assoc] at hl ⊢
      exact rest_append hl
    · have hgone := (hf c rfl).resolve_left hm
      have hnil : l₁ = [] := by
        refine List.eq_nil_iff_forall_not_mem.2 fun a ha => ?_
        exact hgone a (h₁ a ha) (List.mem_append_left _ ha)
      simp only [rest, if_neg hm]
      rw [hnil, List.nil_append]

/-- A reader whose cursor can be found reads nothing twice. -/
theorem read (hr : Reading key l₀ l pages cursor) (h : (l₀.map key).Nodup) (hf : Findable key l pages cursor) {p : List α} {a : α}
    (hp : page key limit cursor l = p ++ [a]) : Reading key l₀ l (pages ++ [p ++ [a]]) (some (key a)) := by
  have hsub := hr.sublist
  have hl : l.Nodup := (List.Nodup.of_map key h).sublist hsub
  obtain ⟨l₁, l₂, rfl, h₁, h₂, hrest⟩ := hr.rest_eq h hf
  have htake : l₂ = p ++ [a] ++ l₂.drop limit := by
    rw [← hp, page, hrest]
    exact (List.take_append_drop ..).symm
  generalize l₂.drop limit = l₃ at htake
  subst htake
  have hnodup := (List.nodup_append.1 hl).2.1
  refine ⟨hsub, ?_, ?_, l₁ ++ (p ++ [a]), l₃, (List.append_assoc ..).symm, ?_, ?_, nofun, ?_⟩
  · intro b hb
    rw [List.flatten_append, List.flatten_singleton, List.mem_append] at hb
    rcases hb with hb | hb
    · exact hr.known b hb
    · exact hsub.subset (List.mem_append_right _ (List.mem_append_left _ hb))
  · rw [List.flatten_append, List.flatten_singleton]
    refine List.nodup_append.2 ⟨hr.nodup, (List.nodup_append.1 hnodup).1, ?_⟩
    rintro b hb _ hb' rfl
    exact h₂ b (List.mem_append_left _ hb') hb
  · intro b hb
    rw [List.flatten_append, List.flatten_singleton, List.mem_append]
    exact (List.mem_append.1 hb).imp (h₁ b) id
  · intro b hb hm
    rw [List.flatten_append, List.flatten_singleton, List.mem_append] at hm
    rcases hm with hm | hm
    · exact h₂ b (List.mem_append_right _ hb) hm
    · exact (List.nodup_append.1 hnodup).2.2 b hm b hb rfl
  · rintro _ ⟨⟩ _
    exact ⟨l₁ ++ p, a, (List.append_assoc ..).symm, rfl⟩

/-- A reader whose cursor cannot be found reads something again. -/
theorem not_nodup {p : List α} {a : α} (hr : Reading key l₀ l pages cursor)
    (hlimit : 1 ≤ limit) (hf : ¬ Findable key l pages cursor) (hp : page key limit cursor l = p ++ [a]) :
    ¬ (pages ++ [p ++ [a]]).flatten.Nodup := by
  obtain ⟨c, rfl, hm, b, hb, hbl⟩ : ∃ c, cursor = some c ∧ c ∉ l.map key ∧ ∃ b ∈ pages.flatten, b ∈ l := by
    simpa only [Findable, not_forall, not_or, not_not, exists_prop] using hf
  obtain ⟨l₁, l₂, rfl, h₁, h₂, _, _⟩ := hr.split
  -- The list begins with something that was read, and the page begins with the list.
  cases l₁ with
  | nil => exact absurd hb (h₂ b hbl)
  | cons d l₁ =>
    have hd : d ∈ page key limit (some c) (d :: l₁ ++ l₂) := by
      obtain ⟨n, rfl⟩ : ∃ n, limit = n + 1 := ⟨limit - 1, by omega⟩
      simp only [page, rest, if_neg hm]
      exact List.mem_cons_self
    rw [hp] at hd
    intro hnodup
    rw [List.flatten_append, List.flatten_singleton] at hnodup
    exact (List.nodup_append.1 hnodup).2.2 d (h₁ d List.mem_cons_self) d hd rfl

end Reading

/-- A reader whose cursor could be found whenever it read. -/
theorem Drain.reading (h : (l₀.map key).Nodup)
    (hd : Drain key limit (Findable key) l₀ l pages cursor) : Reading key l₀ l pages cursor := by
  induction hd with
  | start => exact .start key l₀
  | lose _ hs ih => exact ih.lose h hs
  | read _ hok hp ih => exact ih.read h hok hp

/-- Whenever and whatever the list loses, a reader reaches an empty page: a page brings it on, and what it has to read again was lost
elements before. -/
theorem Drain.length_le {ok : List α → List (List α) → Option κ → Prop} (h : (l₀.map key).Nodup) (hlimit : 1 ≤ limit)
    (hd : Drain key limit ok l₀ l pages cursor) : pages.length ≤ l₀.length * (l₀.length + 2) := by
  have hbound : l.Sublist l₀ ∧ pages.length + (l.length * (l₀.length + 1) + (rest key cursor l).length) ≤
      l₀.length * (l₀.length + 2) := by
    induction hd with
    | start =>
      refine ⟨List.Sublist.refl _, ?_⟩
      rw [rest, List.length_nil, Nat.zero_add, ← Nat.mul_succ]
    | @lose l l' pages cursor _ hs ih =>
      obtain ⟨hsub, ih⟩ := ih
      refine ⟨hs.trans hsub, ?_⟩
      rcases Nat.eq_or_lt_of_le hs.length_le with he | hlt
      · rw [hs.eq_of_length he]
        exact ih
      · have hrest := (rest_suffix key cursor l').length_le
        have hl := hsub.length_le
        have hmul : (l'.length + 1) * (l₀.length + 1) ≤ l.length * (l₀.length + 1) := Nat.mul_le_mul_right _ hlt
        rw [Nat.succ_mul] at hmul
        omega
    | @read l p a pages cursor _ _ hp ih =>
      obtain ⟨hsub, ih⟩ := ih
      refine ⟨hsub, ?_⟩
      have hne : rest key cursor l ≠ [] := by
        intro hnil
        rw [page, hnil, List.take_nil] at hp
        exact List.append_ne_nil_of_right_ne_nil p (List.cons_ne_nil a []) hp.symm
      have hpos := List.length_pos_of_ne_nil hne
      rw [rest_of_page (h.sublist (hsub.map key)) hp, List.length_drop, List.length_append, List.length_singleton]
      omega
  have hpages := hbound.2
  omega

end

end Paging
