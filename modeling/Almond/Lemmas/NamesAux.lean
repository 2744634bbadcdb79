import Almond.Startup
import Mathlib.Data.List.Induction
import Mathlib.Data.List.TakeWhile

/-! # Blob names read back

A name that is built from a hash, an expiration and an extension parses into these three, and its last dot starts the extension. -/

namespace Almond

/-! ## Decimal numbers -/

/-- A number prints as digits. -/
theorem isDigit_of_mem_decimal {n : Nat} {c : Char} (h : c ∈ decimal n) : c.isDigit = true :=
  Nat.isDigit_of_mem_toDigits (by omega) (by omega) h

/-- A number prints as something. -/
theorem decimal_ne_nil (n : Nat) : decimal n ≠ [] :=
  Nat.toDigits_ne_nil

/-- The digits of a number have its value. -/
theorem digitsValue_decimal (n : Nat) : digitsValue (decimal n) = n :=
  Nat.ofDigitChars_ten_toDigits

/-- A separator is not a digit. -/
theorem not_mem_decimal {n : Nat} {c : Char} (hc : c.isDigit = false) : c ∉ decimal n := by
  intro h
  rw [isDigit_of_mem_decimal h] at hc
  nomatch hc

/-- A digit is the digit of its value. -/
theorem digitChar_digitValue {c : Char} (h : c.isDigit = true) : (digitValue c).digitChar = c := by
  simp only [Char.isDigit, Bool.and_eq_true, decide_eq_true_eq] at h
  have hl : 48 ≤ c.toNat := h.1
  have hu : c.toNat ≤ 57 := h.2
  have hval : digitValue c = c.toNat - 48 := rfl
  obtain ⟨k, hk⟩ : ∃ k, c.toNat = 48 + k := ⟨c.toNat - 48, by omega⟩
  have hk9 : k ≤ 9 := by omega
  have hc : c = Char.ofNat (48 + k) := by rw [← hk, Char.ofNat_toNat]
  have hall : ∀ k ≤ 9, k.digitChar = Char.ofNat (48 + k) := by decide
  rw [hval, hk, Nat.add_sub_cancel_left, hall k hk9, hc]

/-- The value of one more digit. -/
theorem digitsValue_concat (digits : Str) (c : Char) : digitsValue (digits ++ [c]) = 10 * digitsValue digits + digitValue c := by
  simp only [digitsValue, List.foldl_append, List.foldl_cons, List.foldl_nil]

/-- A run of digits is the number it stands for, after zeros. -/
theorem eq_zeros_append_decimal {digits : Str} (hne : digits ≠ []) (h : digits.all Char.isDigit = true) :
    ∃ zeros, digits = List.replicate zeros '0' ++ decimal (digitsValue digits) := by
  induction digits using List.reverseRecOn with
  | nil => exact absurd rfl hne
  | append_singleton digits c ih =>
    simp only [List.all_append, List.all_cons, List.all_nil, Bool.and_true, Bool.and_eq_true] at h
    have hc := digitChar_digitValue h.2
    have hlt : digitValue c < 10 := by
      have := h.2
      simp only [Char.isDigit, Bool.and_eq_true, decide_eq_true_eq] at this
      have hu : c.toNat ≤ 57 := this.2
      have hval : digitValue c = c.toNat - 48 := rfl
      omega
    have hone : decimal (digitValue c) = [c] := by rw [decimal, Nat.toDigits_of_lt_base hlt, hc]
    rw [digitsValue_concat]
    by_cases hd : digits = []
    · subst hd
      have hnil : digitsValue [] = 0 := rfl
      exact ⟨0, by rw [hnil, Nat.mul_zero, Nat.zero_add, hone]; rfl⟩
    · obtain ⟨zeros, hz⟩ := ih hd h.1
      by_cases hv : digitsValue digits = 0
      · rw [hv] at hz
        have hzero : decimal 0 = ['0'] := rfl
        refine ⟨zeros + 1, ?_⟩
        rw [hv, Nat.mul_zero, Nat.zero_add, hone, hz, hzero, List.replicate_succ']
      · refine ⟨zeros, ?_⟩
        have hdiv : (10 * digitsValue digits + digitValue c) / 10 = digitsValue digits := by omega
        have hmod : (10 * digitsValue digits + digitValue c) % 10 = digitValue c := by omega
        rw [decimal, Nat.toDigits_of_base_le (by omega) (by omega), hdiv, hmod, hc, ← List.append_assoc, ← decimal, ← hz]

/-! ## Separators -/

/-- A text without the separator does not split. -/
theorem splitOnce_of_not_mem {c : Char} {s : Str} (h : c ∉ s) : splitOnce c s = none := by
  have hdrop : s.dropWhile (· ≠ c) = [] := by
    refine List.dropWhile_eq_nil_iff.2 fun x hx => decide_eq_true ?_
    rintro rfl
    exact h hx
  rw [splitOnce, hdrop]

/-- A text splits at its first separator. -/
theorem splitOnce_append {c : Char} {s rest : Str} (h : c ∉ s) : splitOnce c (s ++ c :: rest) = some (s, rest) := by
  have hne : ∀ x ∈ s, decide (x ≠ c) = true := by
    intro x hx
    refine decide_eq_true ?_
    rintro rfl
    exact h hx
  have hdrop : (s ++ c :: rest).dropWhile (· ≠ c) = c :: rest := by
    rw [List.dropWhile_append_of_pos hne, List.dropWhile_cons_of_neg (by simp)]
  have htake : (s ++ c :: rest).takeWhile (· ≠ c) = s := by
    rw [List.takeWhile_append_of_pos hne, List.takeWhile_cons_of_neg (by simp), List.append_nil]
  rw [splitOnce, hdrop, htake]

/-- A text that splits is its parts and the separator between them. -/
theorem eq_of_splitOnce {c : Char} {s head rest : Str} (h : splitOnce c s = some (head, rest)) : s = head ++ c :: rest := by
  unfold splitOnce at h
  split at h
  · nomatch h
  · rename_i d rest' hd
    have hdc : d = c := by
      have := List.head?_dropWhile_not (p := fun x => decide (x ≠ c)) s
      rw [hd] at this
      simpa using this
    cases h
    have hs := List.takeWhile_append_dropWhile (p := fun x => decide (x ≠ c)) (l := s)
    rw [hd, hdc] at hs
    exact hs.symm

/-- The text before the first separator does not have it. -/
theorem not_mem_of_splitOnce {c : Char} {s head rest : Str} (h : splitOnce c s = some (head, rest)) : c ∉ head := by
  unfold splitOnce at h
  split at h
  · nomatch h
  · cases h
    intro hc
    simpa using List.mem_takeWhile_imp hc

namespace BlobName

/-! ## The grammar -/

/-- The names of the grammar, by the digits of their expiration. -/
def spelled (hash : Str) (digits extension : Option Str) : Str :=
  hash ++ digits.elim [] ('_' :: ·) ++ extension.elim [] ('.' :: ·)

/-- The digits of a `u64`. -/
def IsU64 (digits : Str) : Prop :=
  digits ≠ [] ∧ digits.all Char.isDigit = true ∧ digitsValue digits ≤ u64Max

/-- A name is spelled with the digits of its expiration. -/
theorem append_suffix_eq_spelled (hash : Str) (e : Option Nat) (x : Option Str) :
    hash ++ suffix e x = spelled hash (e.map decimal) x := by
  cases e <;> cases x <;> simp [suffix, spelled]

/-- Digits have no sign. -/
theorem unsigned_of_all_isDigit {digits : Str} (h : digits.all Char.isDigit = true) : unsigned digits = digits := by
  unfold unsigned
  split
  · simp only [List.all_cons, Bool.and_eq_true] at h
    exact absurd h.1 (by decide)
  · rfl

/-- The digits of a `u64` parse to their value. -/
theorem parseU64_of_isU64 {digits : Str} (h : IsU64 digits) : parseU64 digits = some (digitsValue digits) := by
  rw [parseU64, unsigned_of_all_isDigit h.2.1]
  exact if_pos h

/-- What follows the hash of a spelled name is read. -/
theorem parseRest_spelled {digits : Option Str} (h : ∀ ds, digits = some ds → IsU64 ds) (x : Option Str) :
    parseRest (digits.elim [] ('_' :: ·) ++ x.elim [] ('.' :: ·)) = some (digits.map digitsValue, x) := by
  cases digits with
  | none => cases x <;> rfl
  | some ds =>
    obtain ⟨hne, hall, hle⟩ := h ds rfl
    have hdot : '.' ∉ ds := by
      intro hm
      exact absurd (List.all_eq_true.1 hall _ hm) (by decide)
    have hdigits : ¬ (ds = [] ∨ ¬ ds.all Char.isDigit = true) := by
      rintro (h | h)
      · exact hne h
      · exact h hall
    cases x with
    | none =>
      simp only [Option.elim_some, Option.elim_none, List.append_nil, parseRest, splitOnce_of_not_mem hdot, if_neg hdigits,
        parseU64_of_isU64 ⟨hne, hall, hle⟩, Option.map_some]
    | some x =>
      simp only [Option.elim_some, List.cons_append, parseRest, splitOnce_append hdot, if_neg hdigits,
        parseU64_of_isU64 ⟨hne, hall, hle⟩, Option.map_some]

/-- The digits of a number that parses are those of a `u64`. -/
theorem isU64_of_parseU64 {digits : Str} {n : Nat} (hall : digits.all Char.isDigit = true)
    (h : parseU64 digits = some n) : IsU64 digits ∧ digitsValue digits = n := by
  rw [parseU64, unsigned_of_all_isDigit hall] at h
  split at h
  · rename_i hc
    exact ⟨hc, Option.some.inj h⟩
  · nomatch h

/-- What is read after a hash is spelled. -/
theorem spelled_of_parseRest {rest : Str} {e : Option Nat} {x : Option Str} (h : parseRest rest = some (e, x)) :
    ∃ digits : Option Str, (∀ ds, digits = some ds → IsU64 ds) ∧ digits.map digitsValue = e ∧
      rest = digits.elim [] ('_' :: ·) ++ x.elim [] ('.' :: ·) := by
  unfold parseRest at h
  split at h
  · cases h
    exact ⟨none, nofun, rfl, rfl⟩
  · rename_i after
    -- the digits end at the first dot, or with the text
    have hread : ∀ digits extension, after = digits ++ extension.elim [] ('.' :: ·) →
        (if digits = [] ∨ ¬ digits.all Char.isDigit = true then none
          else (parseU64 digits).map fun n => (some n, extension)) = some (e, x) →
        ∃ ds : Option Str, (∀ ds', ds = some ds' → IsU64 ds') ∧ ds.map digitsValue = e ∧
          '_' :: after = ds.elim [] ('_' :: ·) ++ x.elim [] ('.' :: ·) := by
      intro digits extension hafter hif
      split at hif
      · nomatch hif
      · rename_i hd
        obtain ⟨_, hall⟩ := not_or.1 hd
        obtain ⟨n, hn, he⟩ := Option.map_eq_some_iff.1 hif
        cases he
        obtain ⟨hu, hval⟩ := isU64_of_parseU64 (not_not.1 hall) hn
        refine ⟨some digits, fun ds hds => ?_, by rw [Option.map_some, hval], by rw [hafter]; rfl⟩
        cases hds
        exact hu
    cases hs : splitOnce '.' after with
    | none =>
      rw [hs] at h
      exact hread after none (List.append_nil _).symm h
    | some parts =>
      obtain ⟨digits, extension⟩ := parts
      rw [hs] at h
      exact hread digits (some extension) (eq_of_splitOnce hs) h
  · cases h
    exact ⟨none, nofun, rfl, rfl⟩
  · nomatch h

/-- A spelled name is read back: the digits give the expiration. -/
theorem parse_spelled {hash : Str} (hv : isValidHash hash = true) {digits : Option Str} (h : ∀ ds, digits = some ds → IsU64 ds)
    (x : Option Str) : parse (spelled hash digits x) = some ⟨hash, digits.map digitsValue, x⟩ := by
  have hlen := length_of_isValidHash hv
  rw [parse, spelled, List.append_assoc, ← hlen, List.take_left' rfl, List.drop_left' rfl]
  simp only [hv, if_true, parseRest_spelled h, Option.map_some]

/-- What is read is spelled. -/
theorem spelled_of_parse {n : Str} {p : ParsedName} (h : parse n = some p) :
    isValidHash p.hash = true ∧ ∃ digits : Option Str, (∀ ds, digits = some ds → IsU64 ds) ∧
      digits.map digitsValue = p.expiration ∧ n = spelled p.hash digits p.extension := by
  obtain ⟨hv, hn, hrest⟩ := parse_eq_some h
  obtain ⟨digits, hd, he, hr⟩ := spelled_of_parseRest hrest
  refine ⟨hv, digits, hd, he, ?_⟩
  rw [spelled, List.append_assoc, ← hr]
  exact hn

/-- A printed `u64` is the digits of one. -/
theorem isU64_decimal {n : Nat} (h : n ≤ u64Max) : IsU64 (decimal n) :=
  ⟨decimal_ne_nil n, List.all_eq_true.2 fun _ hc => isDigit_of_mem_decimal hc, (digitsValue_decimal n).symm ▸ h⟩

/-- The parts of a blob name read back. -/
theorem parse_append_suffix {hash : Str} (h : isValidHash hash = true) {e : Option Nat} (he : ∀ n, e = some n → n ≤ u64Max)
    (x : Option Str) : parse (hash ++ suffix e x) = some ⟨hash, e, x⟩ := by
  have hdigits : ∀ ds, e.map decimal = some ds → IsU64 ds := by
    intro ds hds
    obtain ⟨n, hn, rfl⟩ := Option.map_eq_some_iff.1 hds
    exact isU64_decimal (he n hn)
  have hvalue : (e.map decimal).map digitsValue = e := by
    cases e with
    | none => rfl
    | some n => rw [Option.map_some, Option.map_some, digitsValue_decimal]
  rw [append_suffix_eq_spelled, parse_spelled h hdigits, hvalue]

/-- A hash has no dot. -/
theorem dot_not_mem {hash : Str} (h : isValidHash hash = true) : '.' ∉ hash := by
  simp only [isValidHash, Bool.and_eq_true, List.all_eq_true] at h
  intro hm
  have := h.2 '.' hm
  revert this
  decide

end BlobName

namespace Startup

/-- A name without a dot has no extension. -/
theorem pathExtension_of_not_mem {name : Str} (h : '.' ∉ name) : pathExtension name = none := by
  have hdrop : name.reverse.dropWhile (· ≠ '.') = [] := by
    refine List.dropWhile_eq_nil_iff.2 fun x hx => decide_eq_true ?_
    rintro rfl
    exact h (List.mem_reverse.1 hx)
  simp only [pathExtension, hdrop]

/-- What follows the last dot of a name is its extension. -/
theorem pathExtension_append {stem extension : Str} (hs : stem ≠ []) (h : '.' ∉ extension) :
    pathExtension (stem ++ '.' :: extension) = some extension := by
  have hne : ∀ x ∈ extension.reverse, decide (x ≠ '.') = true := by
    intro x hx
    refine decide_eq_true ?_
    rintro rfl
    exact h (List.mem_reverse.1 hx)
  have hrev : (stem ++ '.' :: extension).reverse = extension.reverse ++ '.' :: stem.reverse := by simp
  have hdrop : (stem ++ '.' :: extension).reverse.dropWhile (· ≠ '.') = '.' :: stem.reverse := by
    rw [hrev, List.dropWhile_append_of_pos hne, List.dropWhile_cons_of_neg (by simp)]
  have htake : (stem ++ '.' :: extension).reverse.takeWhile (· ≠ '.') = extension.reverse := by
    rw [hrev, List.takeWhile_append_of_pos hne, List.takeWhile_cons_of_neg (by simp), List.append_nil]
  obtain ⟨c, rest, hc⟩ := List.exists_cons_of_ne_nil (List.reverse_ne_nil_iff.2 hs)
  simp only [pathExtension, hdrop, hc, htake, List.reverse_reverse]

/-- An extension has no dot. -/
theorem dot_not_mem_pathExtension {name extension : Str} (h : pathExtension name = some extension) : '.' ∉ extension := by
  simp only [pathExtension] at h
  split at h
  · nomatch h
  · nomatch h
  · obtain rfl := Option.some.inj h
    intro hm
    have hp := List.mem_takeWhile_imp (List.mem_reverse.1 hm)
    exact absurd rfl (of_decide_eq_true hp)

/-- The extension of a blob name is the one it is spelled with, as long as this has no dot. -/
theorem pathExtension_spelled {hash : Str} (h : BlobName.isValidHash hash = true) {digits : Option Str}
    (hd : ∀ ds, digits = some ds → ds.all Char.isDigit = true) {x : Option Str} (hx : ∀ extension, x = some extension → '.' ∉ extension) :
    pathExtension (BlobName.spelled hash digits x) = x := by
  have hdot := BlobName.dot_not_mem h
  have hne : hash ≠ [] := by
    rintro rfl
    exact nomatch BlobName.length_of_isValidHash h
  cases x with
  | none =>
    refine pathExtension_of_not_mem fun hm => ?_
    rw [BlobName.spelled, Option.elim_none, List.append_nil] at hm
    rcases List.mem_append.1 hm with hm | hm
    · exact hdot hm
    · cases digits with
      | none => nomatch hm
      | some ds =>
        rcases List.mem_cons.1 hm with hm | hm
        · nomatch hm
        · exact absurd (List.all_eq_true.1 (hd ds rfl) _ hm) (by decide)
  | some x => exact pathExtension_append (List.append_ne_nil_of_left_ne_nil hne _) (hx x rfl)

/-- The extension of a blob name is the one it was built with, as long as this has no dot. -/
theorem pathExtension_append_suffix {hash : Str} (h : BlobName.isValidHash hash = true) (e : Option Nat) {x : Option Str}
    (hx : ∀ extension, x = some extension → '.' ∉ extension) : pathExtension (hash ++ BlobName.suffix e x) = x := by
  rw [BlobName.append_suffix_eq_spelled]
  refine pathExtension_spelled h (fun ds hds => ?_) hx
  obtain ⟨n, _, rfl⟩ := Option.map_eq_some_iff.1 hds
  exact List.all_eq_true.2 fun _ hc => isDigit_of_mem_decimal hc

/-- The extension of a file is the one its blob name parses to exactly when this has no dot. -/
theorem pathExtension_eq_iff {name : Str} {parsed : BlobName.ParsedName} (h : BlobName.parse name = some parsed) :
    pathExtension name = parsed.extension ↔ ∀ extension, parsed.extension = some extension → '.' ∉ extension := by
  constructor
  · intro he extension hx
    exact dot_not_mem_pathExtension (he.trans hx)
  · intro hx
    obtain ⟨hv, digits, hd, _, hname⟩ := BlobName.spelled_of_parse h
    rw [hname]
    exact pathExtension_spelled hv (fun ds hds => (hd ds hds).2.1) hx

end Startup

namespace NativeStorage

/-! ## Object keys -/

variable {key name : Str} {parsed : BlobName.ParsedName}

/-- A hash has no slash. -/
theorem slash_not_mem {hash : Str} (h : BlobName.isValidHash hash = true) : '/' ∉ hash := by
  simp only [BlobName.isValidHash, Bool.and_eq_true, List.all_eq_true] at h
  intro hm
  exact absurd (h.2 '/' hm) (by decide)

/-- The key under the fan-out of a hash. -/
def keyUnder (hash name : Str) : Str :=
  hash.take 1 ++ '/' :: (hash.drop 1).take 1 ++ '/' :: name

/-- A name without a slash reads back from its key. -/
theorem parseObjectKey_keyUnder (h : BlobName.parse name = some parsed) (hslash : '/' ∉ name) :
    parseObjectKey (keyUnder parsed.hash name) = some parsed := by
  have hv := slash_not_mem (BlobName.parse_eq_some h).1
  have hfirst : '/' ∉ parsed.hash.take 1 := fun hm => hv (List.mem_of_mem_take hm)
  have hsecond : '/' ∉ (parsed.hash.drop 1).take 1 := fun hm => hv (List.mem_of_mem_drop (List.mem_of_mem_take hm))
  have hsplit : (keyUnder parsed.hash name).splitOn '/' = [parsed.hash.take 1, (parsed.hash.drop 1).take 1, name] := by
    have hjoin : keyUnder parsed.hash name = ['/'].intercalate [parsed.hash.take 1, (parsed.hash.drop 1).take 1, name] := by
      simp [keyUnder, List.intercalate]
    rw [hjoin]
    refine List.splitOn_intercalate '/' (fun l hl => ?_) (List.cons_ne_nil _ _)
    simp only [List.mem_cons, List.not_mem_nil, or_false] at hl
    rcases hl with rfl | rfl | rfl
    · exact hfirst
    · exact hsecond
    · exact hslash
  simp only [parseObjectKey, hsplit, h, and_self, if_true]

/-- A key that is read is the one of a blob name. -/
theorem keyUnder_of_parseObjectKey (h : parseObjectKey key = some parsed) :
    ∃ name, BlobName.parse name = some parsed ∧ key = keyUnder parsed.hash name := by
  unfold parseObjectKey at h
  split at h
  · rename_i first second filename hsplit
    split at h
    · rename_i parsed' hname
      split at h
      · rename_i hfan
        cases h
        have hkey : key = first ++ '/' :: second ++ '/' :: filename := by
          rw [← @List.intercalate_splitOn _ key _ _ '/', hsplit]
          simp [List.intercalate]
        refine ⟨filename, hname, ?_⟩
        rw [keyUnder, ← hfan.1, ← hfan.2]
        exact hkey
      · nomatch h
    · nomatch h
  · nomatch h

/-- The prefix of a valid hash. -/
theorem hashPrefix_eq {hash : Str} (h : BlobName.isValidHash hash = true) : hashPrefix hash = .ok (keyUnder hash hash) := by
  rw [hashPrefix, BlobName.fanOut_eq h]
  rfl

/-- The key of a valid hash. -/
theorem objectKey_eq {hash : Str} (h : BlobName.isValidHash hash = true) (x : Option Str) (e : Option Nat) :
    objectKey hash x e = .ok (keyUnder hash (hash ++ BlobName.suffix e x)) := by
  rw [objectKey, BlobName.fanOut_eq h, BlobName.name_eq h]
  rfl

/-- A key that is read has the prefix of its hash. -/
theorem keyUnder_prefix (h : parseObjectKey key = some parsed) : keyUnder parsed.hash parsed.hash <+: key := by
  obtain ⟨name, hparse, rfl⟩ := keyUnder_of_parseObjectKey h
  obtain ⟨_, hname, _⟩ := BlobName.parse_eq_some hparse
  refine ⟨name.drop BlobName.hashLen, ?_⟩
  conv_rhs => rw [hname]
  simp [keyUnder]

end NativeStorage

end Almond
