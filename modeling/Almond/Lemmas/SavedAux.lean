import Almond.ConfigValidation
import Almond.Data.Trimming
import Almond.Lemmas.ConfigEditorAux
import Almond.Lemmas.RangesAux

/-! # Strings of the page in a file

A string of the page is saved as characters: a pair of surrogates is one character, and a surrogate on its own is replaced. Units that
are no surrogates are saved one by one. The page and the server agree on what white space is, but for two characters. -/

namespace Almond.ConfigEditor

open Trimming

variable {c d : CodeUnit} {s t v w : JsString}

/-! ## Characters -/

/-- Half of a pair of surrogates. -/
def isSurrogate (c : CodeUnit) : Bool :=
  0xD800 ≤ c && c ≤ 0xDFFF

/-- The character of a code unit on its own. -/
def unitChar (c : CodeUnit) : Char :=
  if isSurrogate c then '\uFFFD' else Char.ofNat c.toNat

/-- The character of a code point. -/
def toChar : JsString → Char
  | [c, d] => Char.ofNat (0x10000 + (c.toNat - 0xD800) * 0x400 + (d.toNat - 0xDC00))
  | c :: _ => unitChar c
  | [] => '\uFFFD'

/-- A string as it is saved. -/
def saved (s : JsString) : Str :=
  (codePoints s).map toChar

/-- A pair of units of which one is no surrogate is no pair of surrogates. -/
theorem isSurrogatePair_eq_false (h : isSurrogate c = false ∨ isSurrogate d = false) : isSurrogatePair c d = false := by
  rw [Bool.eq_false_iff]
  intro hp
  simp only [isSurrogatePair, Bool.and_eq_true, decide_eq_true_eq, UInt16.le_iff_toNat_le] at hp
  simp only [isSurrogate, Bool.and_eq_false_iff, decide_eq_false_iff_not, UInt16.le_iff_toNat_le] at h
  simp at h hp
  omega

/-- A unit that is no surrogate is a character. -/
theorem codePoints_unit (h : isSurrogate c = false) (s : JsString) : codePoints (c :: s) = [c] :: codePoints s :=
  codePoints_cons fun _ _ => isSurrogatePair_eq_false (.inl h)

/-- What is around a unit that is no surrogate is saved on its own. -/
theorem saved_append_cons (h : isSurrogate c = false) (s t : JsString) : saved (s ++ c :: t) = saved s ++ unitChar c :: saved t := by
  have hpoints : codePoints (s ++ c :: t) = codePoints s ++ [c] :: codePoints t := by
    induction s using codePoints.induct with
    | case1 => exact codePoints_unit h t
    | case2 d =>
      rw [List.singleton_append, codePoints_cons, codePoints_unit h]
      · rfl
      · intro e he
        cases he
        exact isSurrogatePair_eq_false (.inr h)
    | case3 d e s hp ih => rw [List.cons_append, List.cons_append, codePoints_pair hp, codePoints_pair hp, ih, List.cons_append]
    | case4 d e s hp ih =>
      have hsplit : ∀ rest, codePoints (d :: e :: rest) = [d] :: codePoints (e :: rest) := fun rest => by
        rw [codePoints, if_neg hp]
      rw [List.cons_append] at ih
      rw [List.cons_append, List.cons_append, hsplit, hsplit, ih, List.cons_append]
  rw [saved, hpoints, List.map_append, List.map_cons]
  rfl

/-- Units that are no surrogates are saved one by one. -/
theorem saved_of_forall (h : ∀ c ∈ s, isSurrogate c = false) : saved s = s.map unitChar := by
  induction s with
  | nil => rfl
  | cons c s ih =>
    obtain ⟨hc, hs⟩ := List.forall_mem_cons.1 h
    have happend := saved_append_cons hc [] s
    rw [List.nil_append, ih hs] at happend
    exact happend

/-- Only the empty string is saved as nothing. -/
theorem saved_eq_nil_iff : saved s = [] ↔ s = [] := by
  rw [saved, List.map_eq_nil_iff]
  constructor
  · intro h
    cases s with
    | nil => rfl
    | cons c s =>
      cases s with
      | nil => cases h
      | cons d s =>
        rw [codePoints] at h
        split at h <;> cases h
  · rintro rfl
    rfl

/-- The halves of a pair are surrogates, and its character is beyond the basic plane. -/
theorem isSurrogate_of_pair (h : isSurrogatePair c d = true) : isSurrogate c = true ∧ isSurrogate d = true ∧
    ∃ n, 0x10000 ≤ n ∧ n < 0x110000 ∧ toChar [c, d] = Char.ofNat n := by
  simp only [isSurrogatePair, isSurrogate, Bool.and_eq_true, decide_eq_true_eq, UInt16.le_iff_toNat_le] at h ⊢
  simp at h ⊢
  exact ⟨by omega, by omega, _, by omega, by omega, rfl⟩

/-- A test that has one answer for the replacement and beyond the basic plane finds the same among the units and the characters. -/
theorem exists_mem_saved_iff {p : Char → Bool} {a b : Bool} (hreplaced : p '\uFFFD' = b)
    (hlarge : ∀ n, 0x10000 ≤ n → n < 0x110000 → p (Char.ofNat n) = b) :
    (∃ x ∈ saved s, p x = a) ↔ ∃ c ∈ s, p (unitChar c) = a := by
  have hcons : ∀ x (s : Str), (∃ y ∈ x :: s, p y = a) ↔ p x = a ∨ ∃ y ∈ s, p y = a := fun x s => by simp
  have hcons' : ∀ c (s : JsString), (∃ d ∈ c :: s, p (unitChar d) = a) ↔ p (unitChar c) = a ∨ ∃ d ∈ s, p (unitChar d) = a :=
    fun c s => by simp
  induction s using codePoints.induct with
  | case1 => simp [saved, codePoints]
  | case2 c => simp [saved, codePoints, toChar]
  | case3 c d s hp ih =>
    obtain ⟨hc, hd, n, hle, hlt, hn⟩ := isSurrogate_of_pair hp
    have hpoints : saved (c :: d :: s) = toChar [c, d] :: saved s := by rw [saved, codePoints_pair hp]; rfl
    have hchar : p (unitChar c) = b ∧ p (unitChar d) = b := by simp only [unitChar, hc, hd, if_true, hreplaced, and_self]
    rw [hpoints, hcons, hcons', hcons', hn, hlarge n hle hlt, hchar.1, hchar.2, ← or_assoc, or_self]
    exact or_congr_right ih
  | case4 c d s hp ih =>
    have hpoints : saved (c :: d :: s) = unitChar c :: saved (d :: s) := by rw [saved, codePoints, if_neg hp]; rfl
    rw [hpoints, hcons, hcons']
    exact or_congr_right ih

/-- A unit that is no surrogate keeps its number. -/
theorem toNat_unitChar (h : isSurrogate c = false) : (unitChar c).toNat = c.toNat := by
  have hlt := c.toNat_lt
  simp only [isSurrogate, Bool.and_eq_false_iff, decide_eq_false_iff_not, UInt16.le_iff_toNat_le] at h
  simp only [UInt16.toNat_ofNat] at h
  have hvalid : c.toNat.isValidChar := by
    rcases h with h | h
    · exact .inl (by omega)
    · exact .inr ⟨by omega, by omega⟩
  have hsurrogate : isSurrogate c = false := by
    simp only [isSurrogate, Bool.and_eq_false_iff, decide_eq_false_iff_not, UInt16.le_iff_toNat_le, UInt16.toNat_ofNat]
    exact h
  simp only [unitChar, hsurrogate, Bool.false_eq_true, if_false]
  rw [Char.ofNat, dif_pos hvalid]
  rfl

/-- A character of ASCII comes from one unit. -/
theorem unitChar_eq_iff {x : Char} (hx : x.toNat < 0x80) : unitChar c = x ↔ c.toNat = x.toNat := by
  cases hc : isSurrogate c with
  | true =>
    have hchar : unitChar c = '\uFFFD' := if_pos hc
    simp only [isSurrogate, Bool.and_eq_true, decide_eq_true_eq, UInt16.le_iff_toNat_le, UInt16.toNat_ofNat] at hc
    rw [hchar]
    constructor
    · rintro rfl
      exact absurd hx (by decide)
    · intro h
      omega
  | false =>
    rw [← toNat_unitChar hc]
    exact ⟨fun h => congrArg Char.toNat h, Char.toNat_inj.1⟩

/-! ## White space -/

/-- White space of the page. -/
theorem isWhiteSpace_iff : isWhiteSpace c = true ↔ (9 ≤ c.toNat ∧ c.toNat ≤ 13) ∨ c.toNat = 32 ∨ c.toNat = 160 ∨ c.toNat = 5760 ∨
    (8192 ≤ c.toNat ∧ c.toNat ≤ 8202) ∨ c.toNat = 8232 ∨ c.toNat = 8233 ∨ c.toNat = 8239 ∨ c.toNat = 8287 ∨ c.toNat = 12288 ∨
    c.toNat = 65279 := by
  simp only [isWhiteSpace, Bool.or_eq_true, Bool.and_eq_true, decide_eq_true_eq, UInt16.le_iff_toNat_le, ← UInt16.toNat_inj,
    UInt16.toNat_ofNat, or_assoc]

/-- White space is no surrogate. -/
theorem isSurrogate_of_isWhiteSpace (h : isWhiteSpace c = true) : isSurrogate c = false := by
  rw [isWhiteSpace_iff] at h
  simp only [isSurrogate, Bool.and_eq_false_iff, decide_eq_false_iff_not, UInt16.le_iff_toNat_le, UInt16.toNat_ofNat]
  omega

/-- The byte order mark, which only the page takes for white space. -/
def byteOrderMark : CodeUnit := 0xFEFF

/-- White space of the page is white space of the server, except for the byte order mark. -/
theorem isWhitespace_unitChar (h : isWhiteSpace c = true) : isWhitespace (unitChar c) = true ↔ c ≠ byteOrderMark := by
  have hn := toNat_unitChar (isSurrogate_of_isWhiteSpace h)
  rw [isWhiteSpace_iff] at h
  rw [byteOrderMark, ne_eq, ← UInt16.toNat_inj]
  simp only [isWhitespace, hn, Bool.or_eq_true, Bool.and_eq_true, decide_eq_true_eq, UInt16.toNat_ofNat]
  omega

/-- A unit that is saved on its own, as what is no white space. -/
def Solid (c : CodeUnit) : Prop :=
  isSurrogate c = false ∧ isWhitespace (unitChar c) = false ∧ c ≠ byteOrderMark

/-- The trimmed string, as a list that is trimmed. -/
theorem trim_eq (s : JsString) : trim s = trimBy isWhiteSpace s :=
  rfl

/-- The byte order mark in a file. -/
theorem unitChar_byteOrderMark : unitChar byteOrderMark = '\uFEFF' := by
  decide

/-- What the page trims from a string, the server trims from it, unless there is a byte order mark: that stays. -/
theorem trim_saved (hcore : ∀ c ∈ trim s, Solid c) : (byteOrderMark ∉ s → Almond.trim (saved s) = (trim s).map unitChar) ∧
    (byteOrderMark ∈ s → '\uFEFF' ∈ Almond.trim (saved s)) := by
  obtain ⟨w, w', hw, hw', heq⟩ := padded_trimBy isWhiteSpace s
  rw [← trim_eq] at heq
  have hsaved : saved s = s.map unitChar := by
    refine saved_of_forall fun c hc => ?_
    rw [heq] at hc
    rcases List.mem_append.1 hc with hc | hc
    · rcases List.mem_append.1 hc with hc | hc
      · exact isSurrogate_of_isWhiteSpace (hw c hc)
      · exact (hcore c hc).1
    · exact isSurrogate_of_isWhiteSpace (hw' c hc)
  rw [Http.trim_eq, hsaved]
  constructor
  · intro hmark
    have hblank : ∀ v : JsString, (∀ c ∈ v, c ∈ s) → Blank isWhiteSpace v → Blank isWhitespace (v.map unitChar) := by
      intro v hv hblank x hx
      obtain ⟨c, hc, rfl⟩ := List.mem_map.1 hx
      exact (isWhitespace_unitChar (hblank c hc)).2 fun h => hmark (h ▸ hv c hc)
    have hpadded : Padded isWhitespace ((trim s).map unitChar) (s.map unitChar) := by
      refine ⟨w.map unitChar, w'.map unitChar, hblank w ?_ hw, hblank w' ?_ hw', ?_⟩
      · intro c hc
        rw [heq]
        simp [hc]
      · intro c hc
        rw [heq]
        simp [hc]
      · conv_lhs => rw [heq]
        simp
    rw [hpadded.trimBy_eq, trimBy_of_forall]
    intro x hx
    obtain ⟨c, hc, rfl⟩ := List.mem_map.1 hx
    exact (hcore c hc).2.1
  · intro hmark
    refine mem_trimBy (by decide) (List.mem_map.2 ⟨_, hmark, unitChar_byteOrderMark⟩)

/-! ## Lists -/

/-- A character beyond the basic plane has its number. -/
theorem toNat_ofNat_large {n : Nat} (hle : 0x10000 ≤ n) (hlt : n < 0x110000) : (Char.ofNat n).toNat = n := by
  have hvalid : n.isValidChar := .inr ⟨by omega, hlt⟩
  rw [Char.ofNat, dif_pos hvalid]
  rfl

/-- No unit is a comma exactly when no character is. -/
theorem comma_mem_saved_iff : ',' ∈ saved s ↔ comma ∈ s := by
  have h := exists_mem_saved_iff (s := s) (p := fun x => decide (x = ',')) (a := true) (b := false) (by decide) fun n hle hlt => by
    refine decide_eq_false fun heq => ?_
    have hn := toNat_ofNat_large hle hlt
    rw [heq] at hn
    have hcomma : ','.toNat = 44 := rfl
    omega
  have hunit : ∀ c : CodeUnit, unitChar c = ',' ↔ c = comma := by
    intro c
    rw [unitChar_eq_iff (by decide), ← UInt16.toNat_inj]
    rfl
  simpa [hunit] using h

/-- The elements of a list are saved one by one. -/
theorem splitOn_saved (s : JsString) : (saved s).splitOn ',' = (s.splitOn comma).map saved := by
  by_cases h : comma ∈ s
  · obtain ⟨a, b, heq, ha⟩ := List.eq_append_cons_of_mem h
    have hlt : b.length < s.length := by
      rw [heq, List.length_append, List.length_cons]
      omega
    have hchar : unitChar comma = ',' := by decide
    rw [heq, saved_append_cons (by decide), hchar, List.splitOn_append_cons_self, List.splitOn_append_cons_self,
      List.splitOn_eq_singleton (mt comma_mem_saved_iff.1 ha), List.splitOn_eq_singleton ha, splitOn_saved b]
    rfl
  · rw [List.splitOn_eq_singleton h, List.splitOn_eq_singleton (mt comma_mem_saved_iff.1 h)]
    rfl
termination_by s.length

end Almond.ConfigEditor
