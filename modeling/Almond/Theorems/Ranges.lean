import Almond.Lemmas.RangesAux

/-! # Ranges -/

namespace Almond.Http

variable {header first last : Str} {n : Nat} {range : ByteRange}

/-! ## How a header is classified -/

/-- A header is classified as its range selects, or ignored when it has no well-formed range. -/
def Classified (header : Str) (n : Nat) : Prop :=
  (∀ range, Asks header range → parseRangeHeader header n = range.select n) ∧
    ((¬ ∃ range, Asks header range) → parseRangeHeader header n = .ignore)

/-- The texts around the dash are read: the numbers that have to be compared fit, and a malformed text is not passed over. -/
structure Readable (n : Nat) (first last : Str) : Prop where
  fits : (∃ range, Spells first last range) → n = 0 ∨ (first = [] ∧ digitsValue last ≤ u64Max) ∨
    first ≠ [] ∧ digitsValue first ≤ u64Max ∧ (n ≤ digitsValue first ∨ digitsValue last ≤ u64Max)
  rejected : (¬ ∃ range, Spells first last range) → 0 < n ∧ (first = [] → parseU64 last = none) ∧
    (first ≠ [] → ∀ start, parseU64 first = some start → start < n ∧ last ≠ [] ∧ parseU64 last = none)

/-- Nothing can be selected of an empty resource. -/
theorem select_zero (range : ByteRange) : range.select 0 = .unsatisfiable := by
  cases range <;> simp [ByteRange.select]

/-- The last bytes are read when their number fits. -/
theorem suffixRange_eq_select (hn : 0 < n) (h : IsNumber last) :
    suffixRange last n = (ByteRange.suffix (digitsValue last)).select n ↔ digitsValue last ≤ u64Max := by
  unfold suffixRange ByteRange.select
  rw [h.parseU64_eq]
  by_cases hfits : digitsValue last ≤ u64Max
  · simp only [hfits, if_true, iff_true]
    cases hv : digitsValue last with
    | zero => simp
    | succ k =>
      have hlength : n - (k + 1) = n - min (k + 1) n := by omega
      simp [hn, hlength]
  · have hpos : 0 < digitsValue last := by omega
    simp [hfits, hpos, hn]

/-- A range that has no end is read when its start fits. -/
theorem boundedRange_eq_select_open (h : IsNumber first) :
    boundedRange first [] n = (ByteRange.open (digitsValue first)).select n ↔ digitsValue first ≤ u64Max := by
  unfold boundedRange ByteRange.select
  rw [h.parseU64_eq]
  by_cases hfits : digitsValue first ≤ u64Max
  · simp only [hfits, if_true, iff_true, rangeEnd, ge_iff_le]
    by_cases hlt : digitsValue first < n
    · have hle : ¬ n ≤ digitsValue first := by omega
      have hend : ¬ digitsValue first > n - 1 := by omega
      simp [hlt, hle, hend]
    · simp [hlt, Nat.le_of_not_lt hlt]
  · simp only [hfits, if_false, iff_false]
    split <;> nofun

/-- A range is read when its start fits, and its end unless the start is past the resource. -/
theorem boundedRange_eq_select (hfirst : IsNumber first) (hlast : IsNumber last) :
    boundedRange first last n = (ByteRange.closed (digitsValue first) (digitsValue last)).select n ↔
      digitsValue first ≤ u64Max ∧ (n ≤ digitsValue first ∨ digitsValue last ≤ u64Max) := by
  unfold boundedRange ByteRange.select
  rw [hfirst.parseU64_eq]
  by_cases hfits : digitsValue first ≤ u64Max
  · simp only [hfits, if_true, true_and, ge_iff_le]
    by_cases hle : n ≤ digitsValue first
    · have hlt : ¬ (digitsValue first ≤ digitsValue last ∧ digitsValue first < n) := by omega
      simp [hle, hlt]
    · simp only [hle, if_false, false_or, rangeEnd, hlast.1, hlast.parseU64_eq]
      by_cases hfits' : digitsValue last ≤ u64Max
      · simp only [hfits', if_true, Option.map_some, iff_true]
        by_cases hinverted : digitsValue first ≤ digitsValue last
        · have hend : ¬ digitsValue first > min (digitsValue last) (n - 1) := by omega
          simp [hend, hinverted, Nat.lt_of_not_le hle]
        · have hend : digitsValue first > min (digitsValue last) (n - 1) := by omega
          simp [hend, hinverted]
      · simp only [hfits', if_false, Option.map_none, iff_false]
        split <;> nofun
  · simp only [hfits, if_false, false_and, iff_false]
    split <;> nofun

/-- A malformed suffix is ignored. -/
theorem suffixRange_eq_ignore : suffixRange last n = .ignore ↔ parseU64 last = none := by
  unfold suffixRange
  split <;> simp_all

/-- A malformed range is ignored, unless its end is not read. -/
theorem boundedRange_eq_ignore :
    boundedRange first last n = .ignore ↔ ∀ start, parseU64 first = some start → start < n ∧ last ≠ [] ∧ parseU64 last = none := by
  unfold boundedRange
  cases hfirst : parseU64 first with
  | none => simp
  | some start =>
    simp only [ge_iff_le, Option.some.injEq, forall_eq']
    by_cases hle : n ≤ start
    · simp [hle]
    · have hlt : start < n := by omega
      simp only [hle, if_false, hlt, true_and, rangeEnd]
      by_cases hnil : last = []
      · simp only [hnil, if_true, ne_eq, not_true_eq_false, false_and, iff_false]
        split <;> nofun
      · cases hlast : parseU64 last with
        | none => simp [hnil]
        | some e =>
          simp only [hnil, if_false, Option.map_some, reduceCtorEq, and_false, iff_false]
          split <;> nofun

/-- The texts around the dash are classified exactly when they are read. -/
theorem readParts_iff : ((∀ range, Spells first last range → readParts n first last = range.select n) ∧
    ((¬ ∃ range, Spells first last range) → readParts n first last = .ignore)) ↔ Readable n first last := by
  by_cases hn : n = 0
  · subst hn
    have hparts : readParts 0 first last = .unsatisfiable := rfl
    simp only [hparts, select_zero, implies_true, true_and, reduceCtorEq, imp_false, not_not]
    exact ⟨fun h => ⟨fun _ => .inl rfl, fun hno => absurd h hno⟩, fun h => by_contra fun hno => nomatch (h.rejected hno).1⟩
  have hpos : 0 < n := Nat.pos_of_ne_zero hn
  have hrejected : readParts n first last = .ignore ↔ (first = [] → parseU64 last = none) ∧
      (first ≠ [] → ∀ start, parseU64 first = some start → start < n ∧ last ≠ [] ∧ parseU64 last = none) := by
    by_cases hfirst : first = []
    · simp [readParts, hn, hfirst, suffixRange_eq_ignore]
    · simp only [readParts, hn, hfirst, if_false, boundedRange_eq_ignore, false_imp_iff, true_and, ne_eq, not_false_eq_true,
        true_imp_iff]
  have hfits : ∀ range, Spells first last range → (readParts n first last = range.select n ↔
      n = 0 ∨ (first = [] ∧ digitsValue last ≤ u64Max) ∨
        first ≠ [] ∧ digitsValue first ≤ u64Max ∧ (n ≤ digitsValue first ∨ digitsValue last ≤ u64Max)) := by
    intro range hspells
    cases hspells with
    | closed hfirst hlast => simp [readParts, hn, hfirst.1, boundedRange_eq_select hfirst hlast]
    | «open» hfirst =>
      have hnil : digitsValue [] ≤ u64Max := Nat.zero_le _
      simp [readParts, hn, hfirst.1, boundedRange_eq_select_open hfirst, hnil]
    | suffix hlast => simp [readParts, hn, suffixRange_eq_select hpos hlast]
  constructor
  · intro h
    refine ⟨fun ⟨range, hspells⟩ => (hfits range hspells).1 (h.1 range hspells), fun hno => ⟨hpos, hrejected.1 (h.2 hno)⟩⟩
  · intro h
    exact ⟨fun range hspells => (hfits range hspells).2 (h.fits ⟨range, hspells⟩), fun hno => hrejected.2 (h.rejected hno).2⟩

/-- A header is classified as its range selects, or ignored when it has none, exactly when the numbers of a well-formed range that have to
be compared are at most the largest `u64`, and no malformed text around the dash is passed over: none is when the resource is not empty,
its start, if it parses, lies within the resource, and its end does not parse. -/
theorem range_header_classified (header : Str) (n : Nat) :
    Classified header n ↔ ∀ first last, rangeParts header = some (first, last) → Readable n first last := by
  unfold Classified
  simp only [asks_iff, parseRangeHeader_eq]
  cases hparts : rangeParts header with
  | none => simp
  | some parts =>
    obtain ⟨first, last⟩ := parts
    simp only [Option.some.injEq, Prod.mk.injEq, Option.elim_some]
    have hspells : ∀ range, (∃ first' last', (first = first' ∧ last = last') ∧ Spells first' last' range) ↔ Spells first last range := by
      intro range
      refine ⟨?_, fun h => ⟨first, last, ⟨rfl, rfl⟩, h⟩⟩
      rintro ⟨_, _, ⟨rfl, rfl⟩, h⟩
      exact h
    simp only [hspells, readParts_iff]
    refine ⟨?_, fun h => h first last ⟨rfl, rfl⟩⟩
    rintro h _ _ ⟨rfl, rfl⟩
    exact h

/-- An end that does not fit is not cut off: its header is ignored. -/
theorem range_header_classified_false : ¬ Classified "bytes=0-18446744073709551616".toList 1000 := by
  intro h
  have hasks : Asks "bytes=0-18446744073709551616".toList (.closed 0 18446744073709551616) :=
    asks_iff.2 ⟨['0'], "18446744073709551616".toList, by decide, .closed ⟨by decide, List.all_eq_true.1 (by decide)⟩
      ⟨by decide, List.all_eq_true.1 (by decide)⟩⟩
  have hselect := h.1 _ hasks
  revert hselect
  decide

end Almond.Http
