import Almond.Lemmas.NamesAux
import Almond.Ranges

/-! # What a `Range` header says

The texts around the dash of a header, the ranges that they name, and the bytes of a resource that a range selects. -/

namespace Almond.Http

open Trimming

variable {header first last s : Str} {n : Nat}

/-! ## Trimmed texts -/

/-- `trim` removes white space. -/
theorem trim_eq (s : Str) : trim s = trimBy isWhitespace s :=
  rfl

/-- A digit is no white space. -/
theorem not_isWhitespace_of_isDigit {c : Char} (h : c.isDigit = true) : isWhitespace c = false := by
  simp only [Char.isDigit, Bool.and_eq_true, decide_eq_true_eq, ge_iff_le, UInt32.le_iff_toNat_le] at h
  have hlow : 48 ≤ c.toNat := h.1
  have hhigh : c.toNat ≤ 57 := h.2
  simp only [isWhitespace, Bool.or_eq_false_iff, Bool.and_eq_false_iff, decide_eq_false_iff_not]
  omega

/-- A separator is not in white space. -/
theorem not_mem_of_blank {c : Char} {w : Str} (hw : Blank isWhitespace w) (hc : isWhitespace c = false) : c ∉ w := by
  intro hm
  nomatch hc.symm.trans (hw c hm)

/-- A text is a prefix and a rest, or does not begin with the prefix. -/
theorem stripPrefix_eq_some {p rest : Str} : stripPrefix p s = some rest ↔ s = p ++ rest := by
  unfold stripPrefix
  split
  · rename_i hp
    obtain ⟨t, rfl⟩ := List.isPrefixOf_iff_prefix.1 hp
    simp
  · rename_i hp
    refine ⟨nofun, ?_⟩
    rintro rfl
    exact absurd (List.isPrefixOf_iff_prefix.2 (List.prefix_append p rest)) hp

/-! ## The texts around the dash -/

/-- The texts around the dash of a header with a single range of bytes. -/
def rangeParts (header : Str) : Option (Str × Str) :=
  ((stripPrefix "bytes=".toList (trim header)).map trim).bind fun spec =>
    if spec.contains ',' then none else (splitOnce '-' spec).map fun (first, last) => (trim first, trim last)

/-- What is made of the texts around the dash. -/
def readParts (totalSize : Nat) (first last : Str) : RangeSpec :=
  if totalSize = 0 then .unsatisfiable
  else if first = [] then suffixRange last totalSize
  else boundedRange first last totalSize

/-- A header is read by the texts around its dash. -/
theorem parseRangeHeader_eq (header : Str) (n : Nat) :
    parseRangeHeader header n = (rangeParts header).elim .ignore fun parts => readParts n parts.1 parts.2 := by
  unfold parseRangeHeader rangeParts
  cases (stripPrefix "bytes=".toList (trim header)).map trim with
  | none => rfl
  | some spec =>
    simp only [Option.bind_some]
    split
    · rfl
    · cases splitOnce '-' spec <;> rfl

/-- The texts around the dash of a header, with the white space around them. -/
theorem rangeParts_eq_some : rangeParts header = some (first, last) ↔
    ∃ w a b, Blank isWhitespace w ∧ header = w ++ "bytes=".toList ++ a ++ '-' :: b ∧ '-' ∉ a ∧ ',' ∉ a ++ b ∧
      trim a = first ∧ trim b = last := by
  have hb : isWhitespace 'b' = false := by decide
  have hdash : isWhitespace '-' = false := by decide
  have hcomma : isWhitespace ',' = false := by decide
  constructor
  · intro h
    obtain ⟨spec, hspec, h⟩ := Option.bind_eq_some_iff.1 h
    obtain ⟨rest, hrest, rfl⟩ := Option.map_eq_some_iff.1 hspec
    obtain ⟨w, w', hw, hw', hheader⟩ := padded_trimBy isWhitespace header
    obtain ⟨v, v', hv, hv', hspec'⟩ := padded_trimBy isWhitespace rest
    split at h
    · nomatch h
    · rename_i hnone
      obtain ⟨⟨a, b⟩, hsplit, hparts⟩ := Option.map_eq_some_iff.1 h
      cases hparts
      have hs := eq_of_splitOnce hsplit
      rw [← trim_eq, hs] at hspec'
      rw [← trim_eq, stripPrefix_eq_some.1 hrest, hspec'] at hheader
      rw [List.contains_iff_mem, hs] at hnone
      have ha : Padded isWhitespace a (v ++ a) := ⟨v, [], hv, fun _ hc => (nomatch hc), by simp⟩
      have hb : Padded isWhitespace b (b ++ (v' ++ w')) := by
        refine ⟨[], v' ++ w', fun _ hc => (nomatch hc), fun c hc => ?_, by simp⟩
        exact (List.mem_append.1 hc).elim (hv' c) (hw' c)
      refine ⟨w, v ++ a, b ++ (v' ++ w'), hw, by rw [hheader]; simp, ?_, ?_, ha.trimBy_eq, hb.trimBy_eq⟩
      · rw [List.mem_append]
        exact not_or.2 ⟨not_mem_of_blank hv hdash, not_mem_of_splitOnce hsplit⟩
      · simp only [List.mem_append, List.mem_cons, not_or] at hnone ⊢
        exact ⟨⟨not_mem_of_blank hv hcomma, hnone.1⟩, hnone.2.2, not_mem_of_blank hv' hcomma, not_mem_of_blank hw' hcomma⟩
  · rintro ⟨w, a, b, hw, rfl, ha, hab, rfl, rfl⟩
    have htrim : trim (w ++ "bytes=".toList ++ a ++ '-' :: b) = "bytes=".toList ++ (a ++ '-' :: b.rdropWhile isWhitespace) := by
      have hheader : w ++ "bytes=".toList ++ a ++ '-' :: b = w ++ 'b' :: ("ytes=".toList ++ a ++ '-' :: b) := by simp
      rw [hheader, trim_eq, trimBy_append_cons hb, rdropWhile_append_cons hdash, List.dropWhile_eq_nil_iff.2 hw]
      simp
    have hspec : trim (a ++ '-' :: b.rdropWhile isWhitespace) = a.dropWhile isWhitespace ++ '-' :: b.rdropWhile isWhitespace := by
      rw [trim_eq, trimBy_append_cons hdash, List.rdropWhile_idempotent]
    have hsplit : '-' ∉ a.dropWhile isWhitespace := fun hm => ha ((List.dropWhile_suffix _).subset hm)
    have hnone : ¬ (a.dropWhile isWhitespace ++ '-' :: b.rdropWhile isWhitespace).contains ',' = true := by
      rw [List.contains_iff_mem]
      intro hm
      simp only [List.mem_append, List.mem_cons] at hm hab
      rcases hm with hm | hm | hm
      · exact hab (.inl ((List.dropWhile_suffix _).subset hm))
      · nomatch hm
      · exact hab (.inr ((List.rdropWhile_prefix _ _).subset hm))
    rw [rangeParts, htrim, stripPrefix_eq_some.2 rfl, Option.map_some, Option.bind_some, hspec, if_neg hnone, splitOnce_append hsplit]
    simp only [Option.map_some, trim_eq, trimBy_dropWhile, trimBy_rdropWhile]

/-! ## Numbers -/

/-- A number is parsed exactly when it fits. -/
theorem IsNumber.parseU64_eq (h : IsNumber s) : parseU64 s = if digitsValue s ≤ u64Max then some (digitsValue s) else none := by
  have hall : s.all Char.isDigit = true := List.all_eq_true.2 h.2
  rw [parseU64, BlobName.unsigned_of_all_isDigit hall]
  simp only [h.1, hall, ne_eq, not_false_eq_true, true_and]

/-! ## Ranges -/

/-- The texts around the dash of a well-formed range have no separators and no white space. -/
theorem Spells.forall_mem {range : ByteRange} (h : Spells first last range) : ∀ c ∈ first ++ last, c.isDigit = true := by
  cases h with
  | closed hfirst hlast => exact fun c hc => (List.mem_append.1 hc).elim (hfirst.2 c) (hlast.2 c)
  | «open» hfirst => simpa using hfirst.2
  | suffix hlast => exact hlast.2

/-- A well-formed header is one whose texts around the dash are. -/
theorem asks_iff {range : ByteRange} : Asks header range ↔ ∃ first last, rangeParts header = some (first, last) ∧ Spells first last range := by
  have hdash : ¬ '-'.isDigit = true := by decide
  have hcomma : ¬ ','.isDigit = true := by decide
  constructor
  · rintro ⟨w, a, b, first, last, hw, ha, hb, hspells, rfl⟩
    have hdigits := hspells.forall_mem
    have hnone : ∀ c, ¬ c.isDigit = true → isWhitespace c = false → c ∉ a ++ b := by
      intro c hc hws hm
      obtain ⟨v, v', hv, hv', rfl⟩ := ha
      obtain ⟨u, u', hu, hu', rfl⟩ := hb
      have hm' : c ∈ first ++ last := by
        have hmem := fun {x : Str} (hx : Blank isWhitespace x) => not_mem_of_blank hx hws
        simpa [hmem hv, hmem hv', hmem hu, hmem hu'] using hm
      exact hc (hdigits c hm')
    have hws : ∀ c ∈ first ++ last, isWhitespace c = false := fun c hc => not_isWhitespace_of_isDigit (hdigits c hc)
    refine ⟨first, last, rangeParts_eq_some.2 ⟨w, a, b, hw, rfl, ?_, hnone ',' hcomma (by decide), ?_, ?_⟩, hspells⟩
    · exact fun hm => hnone '-' hdash (by decide) (List.mem_append_left _ hm)
    · exact (padded_iff fun c hc => hws c (List.mem_append_left _ hc)).1 ha
    · exact (padded_iff fun c hc => hws c (List.mem_append_right _ hc)).1 hb
  · rintro ⟨first, last, hparts, hspells⟩
    obtain ⟨w, a, b, hw, rfl, _, _, rfl, rfl⟩ := rangeParts_eq_some.1 hparts
    exact ⟨w, a, b, _, _, hw, padded_trimBy isWhitespace a, padded_trimBy isWhitespace b, hspells, rfl⟩

end Almond.Http
