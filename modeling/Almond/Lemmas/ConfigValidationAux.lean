import Almond.Lemmas.ConfigDocumentAux
import Almond.Lemmas.SavedAux
import Almond.Lemmas.ServerConfigAux

/-! # Values of the form and of the server

What a value that the form lets through is read as by the parser of the server: durations and sizes, counts, lists and words. -/

namespace Almond.ConfigEditor

open Trimming ServerConfig

variable {c : CodeUnit} {s raw value : JsString} {n m max : Nat}

/-! ## Digits -/

/-- A digit of the page. -/
theorem isDigit_iff : isDigit c = true ↔ 48 ≤ c.toNat ∧ c.toNat ≤ 57 := by
  simp only [isDigit, Bool.and_eq_true, decide_eq_true_eq, UInt16.le_iff_toNat_le, UInt16.toNat_ofNat]

/-- A unit of ASCII is no surrogate. -/
theorem isSurrogate_of_lt (h : c.toNat < 128) : isSurrogate c = false := by
  simp only [isSurrogate, Bool.and_eq_false_iff, decide_eq_false_iff_not, UInt16.le_iff_toNat_le, UInt16.toNat_ofNat]
  omega

/-- A unit of ASCII that can be seen is saved on its own, as what is no white space. -/
theorem solid_of_lt (h : c.toNat < 128) (h' : 32 < c.toNat) : Solid c := by
  have hn := toNat_unitChar (isSurrogate_of_lt h)
  refine ⟨isSurrogate_of_lt h, ?_, ?_⟩
  · rw [Bool.eq_false_iff, ne_eq, isWhitespace]
    simp only [hn, Bool.or_eq_true, Bool.and_eq_true, decide_eq_true_eq]
    omega
  · rintro rfl
    exact absurd h (by decide)

/-- The number of a digit. -/
theorem isDigit_iff_toNat (x : Char) : x.isDigit = true ↔ 48 ≤ x.toNat ∧ x.toNat ≤ 57 := by
  simp only [Char.isDigit, Bool.and_eq_true, decide_eq_true_eq, UInt32.le_iff_toNat_le]
  rfl

/-- A digit of the page is a digit of the server, of the same value. -/
theorem isDigit_unitChar (h : isDigit c = true) : (unitChar c).isDigit = true ∧ digitValue (unitChar c) = c.toNat - 0x30 ∧ Solid c := by
  rw [isDigit_iff] at h
  have hn := toNat_unitChar (isSurrogate_of_lt (c := c) (by omega))
  rw [isDigit_iff_toNat, digitValue, hn]
  exact ⟨h, rfl, solid_of_lt (by omega) (by omega)⟩

/-- Only a digit is saved as a digit. -/
theorem isDigit_of_unitChar (h : (unitChar c).isDigit = true) : isDigit c = true := by
  have hx := (isDigit_iff_toNat _).1 h
  rw [isDigit_iff, (unitChar_eq_iff (x := unitChar c) (by omega)).1 rfl]
  exact hx

/-- Digits are saved as digits, of the same value. -/
theorem digitsValue_map (h : ∀ c ∈ s, isDigit c = true) : digitsValue (s.map unitChar) = bigInt s := by
  have hfold : ∀ n, (s.map unitChar).foldl (fun n c => 10 * n + digitValue c) n = s.foldl (fun n c => 10 * n + (c.toNat - 0x30)) n := by
    induction s with
    | nil => intro n; rfl
    | cons c s ih =>
      obtain ⟨hc, hs⟩ := List.forall_mem_cons.1 h
      intro n
      rw [List.map_cons, List.foldl_cons, List.foldl_cons, (isDigit_unitChar hc).2.1]
      exact ih hs _
  exact hfold 0

/-! ## Durations and sizes -/

section

variable {units : List (Str × Nat)} {sample : Str}

/-- A number with a unit, as the page and the server read it. -/
inductive Measures (units : List (Str × Nat)) (raw : JsString) : Nat → Prop
  | zero : trim raw = js "0" → Measures units raw 0
  | unit (digits unit : JsString) (u : Str) (k : Nat) : trim raw = digits ++ unit → digits ≠ [] → (∀ c ∈ digits, isDigit c = true) →
      unit ≠ [] → (∀ c ∈ unit, isLetter c = true) → units.find? (fun (u, _) => eqIgnoreAsciiCase u (unit.map unitChar)) = some (u, k) →
      0 < k → Measures units raw (bigInt digits * k)

/-- A letter of the page. -/
theorem isLetter_iff : isLetter c = true ↔ (65 ≤ c.toNat ∧ c.toNat ≤ 90) ∨ (97 ≤ c.toNat ∧ c.toNat ≤ 122) := by
  simp only [isLetter, Bool.or_eq_true, Bool.and_eq_true, decide_eq_true_eq, UInt16.le_iff_toNat_le, UInt16.toNat_ofNat]

/-- Only a character of ASCII becomes one of ASCII in lower case. -/
theorem toLower_lt_iff (x : Char) : x.toLower.toNat < 128 ↔ x.toNat < 128 := by
  rw [toNat_toLower]
  split
  · omega
  · rfl

/-- A number with its unit is no white space. -/
theorem Measures.solid (h : Measures units raw n) : ∀ c ∈ trim raw, Solid c := by
  cases h with
  | zero htrim =>
    rw [htrim]
    intro c hc
    obtain rfl := List.mem_singleton.1 hc
    exact solid_of_lt (by decide) (by decide)
  | unit digits unit u k htrim _ hdigits _ hletters =>
    rw [htrim]
    intro c hc
    rcases List.mem_append.1 hc with hc | hc
    · exact (isDigit_unitChar (hdigits c hc)).2.2
    · have := isLetter_iff.1 (hletters c hc)
      exact solid_of_lt (by omega) (by omega)

/-- A number with its unit is parsed by the server, if there is no byte order mark around it. -/
theorem Measures.parseWithUnit_eq (h : Measures units raw n) (hn : n ≤ u64Max) (hmark : byteOrderMark ∉ raw) :
    parseWithUnit (saved raw) units sample = .ok n := by
  have hsaved := (trim_saved h.solid).1 hmark
  cases h with
  | zero htrim =>
    have hzero : Almond.trim (saved raw) = ['0'] := by
      rw [hsaved, htrim]
      decide
    simp only [parseWithUnit, hzero, if_true]
  | unit digits unit u k htrim hne hdigits hunit hletters hfind hk =>
    obtain ⟨l, rest, rfl⟩ := List.exists_cons_of_ne_nil hunit
    have hl : (unitChar l).isDigit = false := by
      rw [Bool.eq_false_iff]
      intro hdigit
      have hrange := isDigit_iff.1 (isDigit_of_unitChar hdigit)
      have := isLetter_iff.1 (hletters l List.mem_cons_self)
      omega
    have hall : ∀ x ∈ digits.map unitChar, x.isDigit = true := by
      intro x hx
      obtain ⟨c, hc, rfl⟩ := List.mem_map.1 hx
      exact (isDigit_unitChar (hdigits c hc)).1
    rw [htrim, List.map_append, List.map_cons] at hsaved
    have htake : (Almond.trim (saved raw)).takeWhile Char.isDigit = digits.map unitChar := by
      rw [hsaved, List.takeWhile_append_of_pos hall, List.takeWhile_cons, hl]
      simp
    have hdrop : (Almond.trim (saved raw)).dropWhile Char.isDigit = unitChar l :: rest.map unitChar := by
      rw [hsaved, List.dropWhile_append_of_pos hall, List.dropWhile_cons, hl]
      simp
    have hzero : Almond.trim (saved raw) ≠ ['0'] := by
      intro heq
      rw [heq] at hdrop
      cases hdrop
    have hvalue := digitsValue_map hdigits
    have hle : digitsValue (digits.map unitChar) ≤ u64Max := by
      rw [hvalue]
      exact (Nat.le_mul_of_pos_right _ hk).trans hn
    have hnumber := parseUnsigned_of_le (by simpa using hne) hall hle
    rw [List.map_cons] at hfind
    simp only [parseWithUnit, hzero, if_false, htake, hdrop, List.cons_ne_nil, hnumber, hfind, hvalue, hn, if_true]

/-- What the server parses has no byte order mark. -/
theorem byteOrderMark_not_mem (hunits : (units.all fun u => u.1.all fun x => x.toNat < 128) = true) (hsolid : ∀ c ∈ trim raw, Solid c)
    (h : parseWithUnit (saved raw) units sample = .ok n) : byteOrderMark ∉ raw := by
  intro hmark
  have hmem := (trim_saved hsolid).2 hmark
  suffices hascii : ∀ x ∈ Almond.trim (saved raw), x.toNat < 128 by exact absurd (hascii _ hmem) (by decide)
  simp only [parseWithUnit] at h
  split at h
  · rename_i hzero
    intro x hx
    rw [hzero] at hx
    obtain rfl := List.mem_singleton.1 hx
    decide
  · split at h
    · cases h
    · split at h
      · cases h
      · split at h
        · cases h
        · rename_i u _ hfind
          have heq := List.find?_some hfind
          simp only [eqIgnoreAsciiCase, decide_eq_true_eq] at heq
          intro x hx
          rw [← List.takeWhile_append_dropWhile (p := Char.isDigit) (l := Almond.trim (saved raw))] at hx
          rcases List.mem_append.1 hx with hx | hx
          · have := (isDigit_iff_toNat x).1 (List.mem_takeWhile_imp hx)
            omega
          · have hlower := List.mem_map_of_mem (f := Char.toLower) hx
            rw [← heq] at hlower
            obtain ⟨y, hy, hyx⟩ := List.mem_map.1 hlower
            have hlt := of_decide_eq_true (List.all_eq_true.1 (List.all_eq_true.1 hunits _ (List.mem_of_find?_eq_some hfind)) y hy)
            rw [← toLower_lt_iff] at hlt ⊢
            rwa [← hyx]

end

/-- What a table says of a name is in the table. -/
theorem mem_of_lookup {α : Type} {table : List (JsString × α)} {name : JsString} {a : α} (h : table.lookup name = some a) :
    (name, a) ∈ table := by
  obtain ⟨l₁, l₂, rfl, _⟩ := List.lookup_eq_some_iff.1 h
  simp

/-- A duration of the page is one of the server. -/
theorem measures_of_parseDuration (h : ConfigEditor.parseDuration raw = some n) : Measures durationUnits raw n := by
  simp only [ConfigEditor.parseDuration] at h
  split at h
  · cases h
    exact .zero ‹_›
  · split at h
    · nomatch h
    · rename_i hne
      obtain ⟨k, hk, rfl⟩ := Option.map_eq_some_iff.1 h
      have hdigits : ∀ c ∈ (trim raw).takeWhile isDigit, isDigit c = true := fun c hc => List.mem_takeWhile_imp hc
      have htrim := (List.takeWhile_append_dropWhile (p := isDigit) (l := trim raw)).symm
      have hletters : ∀ {word : JsString}, (trim raw).dropWhile isDigit = word → word.all isLetter = true →
          ∀ c ∈ (trim raw).dropWhile isDigit, isLetter c = true := fun hword hall => hword ▸ List.all_eq_true.1 hall
      have hmem := mem_of_lookup hk
      simp only [durationSeconds, List.mem_cons, Prod.mk.injEq, List.not_mem_nil, or_false] at hmem
      rcases hmem with ⟨hunit, rfl⟩ | ⟨hunit, rfl⟩ | ⟨hunit, rfl⟩ | ⟨hunit, rfl⟩
      · exact .unit _ _ _ 1 htrim hne hdigits (by rw [hunit]; decide) (hletters hunit (by decide)) (by rw [hunit]; rfl) (by decide)
      · exact .unit _ _ _ 60 htrim hne hdigits (by rw [hunit]; decide) (hletters hunit (by decide)) (by rw [hunit]; rfl) (by decide)
      · exact .unit _ _ _ 3600 htrim hne hdigits (by rw [hunit]; decide) (hletters hunit (by decide)) (by rw [hunit]; rfl) (by decide)
      · exact .unit _ _ _ 86400 htrim hne hdigits (by rw [hunit]; decide) (hletters hunit (by decide)) (by rw [hunit]; rfl) (by decide)

/-- A unit of ASCII in lower case. -/
theorem toNat_lowerUnit (c : CodeUnit) : (lowerUnit c).toNat = if 65 ≤ c.toNat ∧ c.toNat ≤ 90 then c.toNat + 32 else c.toNat := by
  have hcond : (0x41 ≤ c && c ≤ 0x5A) = true ↔ 65 ≤ c.toNat ∧ c.toNat ≤ 90 := by
    simp only [Bool.and_eq_true, decide_eq_true_eq, UInt16.le_iff_toNat_le, UInt16.toNat_ofNat]
  unfold lowerUnit
  by_cases h : 65 ≤ c.toNat ∧ c.toNat ≤ 90
  · rw [if_pos (hcond.2 h), if_pos h, UInt16.toNat_add]
    change (c.toNat + 32) % 2 ^ 16 = c.toNat + 32
    omega
  · rw [if_neg (mt hcond.1 h), if_neg h]

/-- A letter in lower case. -/
def isLowerLetter (c : CodeUnit) : Bool :=
  97 ≤ c.toNat && c.toNat ≤ 122

/-- A unit of ASCII. -/
def isAscii (c : CodeUnit) : Bool :=
  c.toNat < 128

/-- What is a letter in lower case is a letter. -/
theorem isLetter_of_lowerUnit (h : isLowerLetter (lowerUnit c) = true) : isLetter c = true := by
  rw [isLowerLetter, Bool.and_eq_true, decide_eq_true_eq, decide_eq_true_eq, toNat_lowerUnit] at h
  rw [isLetter_iff]
  split at h <;> omega

/-- A word of ASCII is saved in lower case as the page compares it. -/
theorem map_toLower_of_foldCase {unit word : JsString} (h : foldCase unit = word) (hword : word.all isAscii = true) :
    (∀ c ∈ unit, c.toNat < 128) ∧ saved unit = unit.map unitChar ∧ (unit.map unitChar).map Char.toLower = word.map unitChar := by
  subst h
  have hlower : ∀ c ∈ unit, (lowerUnit c).toNat < 128 := fun c hc =>
    of_decide_eq_true (List.all_eq_true.1 hword _ (List.mem_map_of_mem (f := lowerUnit) hc))
  have hunit : ∀ c ∈ unit, c.toNat < 128 := by
    intro c hc
    have hc := hlower c hc
    rw [toNat_lowerUnit] at hc
    split at hc <;> omega
  refine ⟨hunit, saved_of_forall fun c hc => isSurrogate_of_lt (hunit c hc), ?_⟩
  rw [foldCase, List.map_map, List.map_map]
  refine List.map_congr_left fun c hc => Char.toNat_inj.1 ?_
  rw [Function.comp, Function.comp, toNat_toLower, toNat_unitChar (isSurrogate_of_lt (hunit c hc)),
    toNat_unitChar (isSurrogate_of_lt (hlower c hc)), toNat_lowerUnit]

/-- A size of the page is one of the server. -/
theorem measures_of_parseSize (h : ConfigEditor.parseSize raw = some n) : Measures sizeUnits raw n := by
  simp only [ConfigEditor.parseSize] at h
  split at h
  · cases h
    exact .zero ‹_›
  · split at h
    · nomatch h
    · rename_i hne
      obtain ⟨k, hk, rfl⟩ := Option.map_eq_some_iff.1 h
      have hdigits : ∀ c ∈ (trim raw).takeWhile isDigit, isDigit c = true := fun c hc => List.mem_takeWhile_imp hc
      have htrim := (List.takeWhile_append_dropWhile (p := isDigit) (l := trim raw)).symm
      have hne' : ∀ word, foldCase ((trim raw).dropWhile isDigit) = word → word ≠ [] → (trim raw).dropWhile isDigit ≠ [] := by
        intro word hword hne hnil
        rw [hnil] at hword
        exact hne hword.symm
      rw [Nat.shiftLeft_eq]
      have hmem := mem_of_lookup hk
      simp only [sizeShift, List.mem_cons, Prod.mk.injEq, List.not_mem_nil, or_false] at hmem
      have hread : ∀ (word : JsString) (u : Str) (k : Nat), foldCase ((trim raw).dropWhile isDigit) = word → word ≠ [] →
          word.all isLowerLetter = true →
          sizeUnits.find? (fun (u, _) => u.map Char.toLower = word.map unitChar) = some (u, 2 ^ k) →
          Measures sizeUnits raw (bigInt ((trim raw).takeWhile isDigit) * 2 ^ k) := by
        intro word u k hword hnil hletters hfind
        have hascii : word.all isAscii = true := List.all_eq_true.2 fun c hc => by
          have hc := List.all_eq_true.1 hletters c hc
          rw [isLowerLetter, Bool.and_eq_true, decide_eq_true_eq, decide_eq_true_eq] at hc
          exact decide_eq_true (by omega)
        have hall : ∀ c ∈ (trim raw).dropWhile isDigit, isLetter c = true := by
          rw [← hword] at hletters
          exact fun c hc => isLetter_of_lowerUnit (List.all_eq_true.1 hletters _ (List.mem_map_of_mem hc))
        have hlower := (map_toLower_of_foldCase hword hascii).2.2
        refine .unit _ _ u _ htrim hne hdigits (hne' word hword hnil) hall ?_ (Nat.two_pow_pos k)
        simp only [eqIgnoreAsciiCase, hlower]
        exact hfind
      rcases hmem with ⟨hunit, rfl⟩ | ⟨hunit, rfl⟩ | ⟨hunit, rfl⟩ | ⟨hunit, rfl⟩ | ⟨hunit, rfl⟩
      · exact hread _ _ 0 hunit (by decide) (by decide) rfl
      · exact hread _ _ 10 hunit (by decide) (by decide) rfl
      · exact hread _ _ 20 hunit (by decide) (by decide) rfl
      · exact hread _ _ 30 hunit (by decide) (by decide) rfl
      · exact hread _ _ 40 hunit (by decide) (by decide) rfl

/-- A duration is digits and a letter in lower case. -/
theorem lower_of_parseDuration (h : ConfigEditor.parseDuration raw = some n) : ∀ c ∈ trim raw, ¬(65 ≤ c.toNat ∧ c.toNat ≤ 90) := by
  have hword : ∀ {word : JsString}, word.all (fun c => isDigit c || isLowerLetter c) = true → ∀ c ∈ word,
      ¬(65 ≤ c.toNat ∧ c.toNat ≤ 90) := by
    intro word hall c hc
    have hc := List.all_eq_true.1 hall c hc
    simp only [Bool.or_eq_true, isDigit_iff, isLowerLetter, Bool.and_eq_true, decide_eq_true_eq] at hc
    omega
  simp only [ConfigEditor.parseDuration] at h
  split at h
  · rename_i hzero
    rw [hzero]
    exact hword (by decide)
  · split at h
    · nomatch h
    · obtain ⟨k, hk, _⟩ := Option.map_eq_some_iff.1 h
      rw [← List.takeWhile_append_dropWhile (p := isDigit) (l := trim raw)]
      intro c hc
      rcases List.mem_append.1 hc with hc | hc
      · have := isDigit_iff.1 (List.mem_takeWhile_imp hc)
        omega
      · have hmem := mem_of_lookup hk
        simp only [durationSeconds, List.mem_cons, Prod.mk.injEq, List.not_mem_nil, or_false] at hmem
        rcases hmem with ⟨hunit, _⟩ | ⟨hunit, _⟩ | ⟨hunit, _⟩ | ⟨hunit, _⟩
        all_goals
          rw [hunit] at hc
          exact hword (by decide) c hc

/-- A duration that is not too long is parsed to the same number, exactly when there is no byte order mark around it. -/
theorem parseDuration_saved (h : ConfigEditor.parseDuration raw = some n) (hn : n ≤ u64Max) :
    (byteOrderMark ∉ raw → ServerConfig.parseDuration (saved raw) = .ok n) ∧
      (∀ m, ServerConfig.parseDuration (saved raw) = .ok m → byteOrderMark ∉ raw) := by
  have hmeasures := measures_of_parseDuration h
  constructor
  · intro hmark
    have hupper : ¬ (saved raw).any Char.isUpper = true := by
      intro hany
      obtain ⟨x, hx, hup⟩ := List.any_eq_true.1 hany
      have hrange : 65 ≤ x.toNat ∧ x.toNat ≤ 90 := isUpper_iff.1 hup
      have hws : isWhitespace x = false := by
        rw [Bool.eq_false_iff, ne_eq, isWhitespace]
        simp only [Bool.or_eq_true, Bool.and_eq_true, decide_eq_true_eq]
        omega
      have hmem : x ∈ Almond.trim (saved raw) := mem_trimBy hws hx
      rw [(trim_saved hmeasures.solid).1 hmark] at hmem
      obtain ⟨c, hc, rfl⟩ := List.mem_map.1 hmem
      rw [toNat_unitChar (hmeasures.solid c hc).1] at hrange
      exact lower_of_parseDuration h c hc hrange
    rw [ServerConfig.parseDuration, if_neg hupper]
    exact hmeasures.parseWithUnit_eq hn hmark
  · intro m hm
    rw [ServerConfig.parseDuration] at hm
    split at hm
    · cases hm
    · exact byteOrderMark_not_mem (by decide) hmeasures.solid hm

/-- A size that is not too large is parsed to the same number, exactly when there is no byte order mark around it. -/
theorem parseSize_saved (h : ConfigEditor.parseSize raw = some n) (hn : n ≤ u64Max) :
    (byteOrderMark ∉ raw → ServerConfig.parseSize (saved raw) = .ok n) ∧
      (∀ m, ServerConfig.parseSize (saved raw) = .ok m → byteOrderMark ∉ raw) :=
  ⟨(measures_of_parseSize h).parseWithUnit_eq hn, fun _ => byteOrderMark_not_mem (by decide) (measures_of_parseSize h).solid⟩

/-! ## Counts and words -/

/-- A result that is no error. -/
def Succeeds {α : Type} (x : Except Str α) : Prop :=
  ∃ a, x = .ok a

/-- No white space, as the page sees it. -/
def NoSpace (raw : JsString) : Prop :=
  ∀ c ∈ raw, isWhiteSpace c = false

/-- A string without white space is trimmed already. -/
theorem NoSpace.trim_eq (h : NoSpace raw) : trim raw = raw :=
  trimBy_of_forall h

/-- A character of ASCII that can be seen. -/
def Visible (x : Char) : Prop :=
  32 < x.toNat ∧ x.toNat < 128

/-- White space cannot be seen. -/
theorem not_visible_unitChar (h : isWhiteSpace c = true) : ¬ Visible (unitChar c) := by
  have hn := toNat_unitChar (isSurrogate_of_isWhiteSpace h)
  rw [isWhiteSpace_iff] at h
  rw [Visible, hn]
  omega

/-- A character in lower case can be seen exactly when the character can. -/
theorem visible_toLower_iff (x : Char) : Visible x.toLower ↔ Visible x := by
  rw [Visible, Visible, toNat_toLower]
  split <;> omega

/-- A string of which each character can be seen has no white space. -/
theorem noSpace_of_visible (hsaved : saved raw = raw.map unitChar) (h : ∀ x ∈ saved raw, Visible x) : NoSpace raw := by
  intro c hc
  rw [Bool.eq_false_iff]
  intro hws
  refine not_visible_unitChar hws (h _ ?_)
  rw [hsaved]
  exact List.mem_map_of_mem hc

/-- A string around a trimmed string of ASCII is saved unit by unit. -/
theorem saved_of_trim (h : ∀ c ∈ trim raw, isSurrogate c = false) : saved raw = raw.map unitChar := by
  obtain ⟨w, w', hw, hw', heq⟩ := padded_trimBy isWhiteSpace raw
  rw [← ConfigEditor.trim_eq] at heq
  refine saved_of_forall fun c hc => ?_
  rw [heq] at hc
  rcases List.mem_append.1 hc with hc | hc
  · exact (List.mem_append.1 hc).elim (fun hc => isSurrogate_of_isWhiteSpace (hw c hc)) (h c)
  · exact isSurrogate_of_isWhiteSpace (hw' c hc)

/-- Digits as the page tests them. -/
theorem isDigits_iff : isDigits s = true ↔ s ≠ [] ∧ ∀ c ∈ s, isDigit c = true := by
  simp [isDigits]

/-- A count that the page lets through is parsed exactly when there is no white space around it. -/
theorem parseUnsigned_saved (hdigits : isDigits (trim raw) = true) (hle : bigInt (trim raw) ≤ max) :
    Succeeds (parseUnsigned max (saved raw)) ↔ NoSpace raw := by
  obtain ⟨hne, hall⟩ := isDigits_iff.1 hdigits
  have hsaved := saved_of_trim fun c hc => (isDigit_unitChar (hall c hc)).2.2.1
  constructor
  · rintro ⟨m, hm⟩
    refine noSpace_of_visible hsaved fun x hx => ?_
    rcases of_parseUnsigned hm hx with hx | rfl
    · have := (isDigit_iff_toNat x).1 hx
      exact ⟨by omega, by omega⟩
    · exact ⟨by decide, by decide⟩
  · intro h
    rw [h.trim_eq] at hne hall hle
    refine ⟨_, parseUnsigned_of_le ?_ ?_ ?_⟩
    · rw [hsaved]
      simpa using hne
    · rw [hsaved]
      intro x hx
      obtain ⟨c, hc, rfl⟩ := List.mem_map.1 hx
      exact (isDigit_unitChar (hall c hc)).1
    · rw [hsaved, digitsValue_map hall]
      exact hle

/-- What is parsed as a word of ASCII has no white space. -/
theorem visible_of_parseEnum {α : Type} {values : List (Str × α)} (hvalues : ∀ v ∈ values, ∀ x ∈ v.1, Visible x) {s : Str}
    (h : Succeeds (parseEnum values s)) : ∀ x ∈ s, Visible x := by
  obtain ⟨a, ha⟩ := h
  rw [parseEnum] at ha
  split at ha
  · nomatch ha
  · rename_i name _ hfind
    have heq := List.find?_some hfind
    simp only [eqIgnoreAsciiCase, decide_eq_true_eq] at heq
    intro x hx
    have hlower := List.mem_map_of_mem (f := Char.toLower) hx
    rw [← heq] at hlower
    obtain ⟨y, hy, hyx⟩ := List.mem_map.1 hlower
    have hvisible := hvalues _ (List.mem_of_find?_eq_some hfind) y hy
    rw [← visible_toLower_iff] at hvisible ⊢
    rwa [← hyx]

/-- A word is parsed in any case. -/
theorem parseEnum_of_foldCase {α : Type} {values : List (Str × α)} {word : JsString} (h : foldCase raw = word)
    (hword : word.all isAscii = true) {name : Str} {a : α}
    (hfind : values.find? (fun (name, _) => name.map Char.toLower = word.map unitChar) = some (name, a)) :
    parseEnum values (saved raw) = .ok a := by
  obtain ⟨_, hsaved, hlower⟩ := map_toLower_of_foldCase h hword
  have hfound : values.find? (fun (name, _) => eqIgnoreAsciiCase name (saved raw)) = some (name, a) := by
    simp only [eqIgnoreAsciiCase, hsaved, hlower]
    exact hfind
  simp only [parseEnum, hfound]

/-! ## Lists -/

/-- The elements of a list as it is split. -/
def elements (raw : JsString) : List JsString :=
  raw.splitOn comma

/-- Elements are parsed exactly when each is. -/
theorem mapM_succeeds_iff {α : Type} (parse : Str → Except Str α) (items : List Str) :
    Succeeds (items.mapM parse) ↔ ∀ s ∈ items, Succeeds (parse s) := by
  induction items with
  | nil => simp [Succeeds, pure, Except.pure]
  | cons s items ih =>
    rw [List.mapM_cons, List.forall_mem_cons, ← ih]
    cases hs : parse s with
    | error e => simp [Succeeds, bind, Except.bind]
    | ok a =>
      cases hitems : items.mapM parse with
      | error e => simp [Succeeds, bind, Except.bind]
      | ok as => simp [Succeeds, bind, Except.bind, pure, Except.pure]

/-- As many elements are parsed as there are. -/
theorem length_mapM {α : Type} {parse : Str → Except Str α} {items : List Str} {as : List α} (h : items.mapM parse = .ok as) :
    as.length = items.length := by
  induction items generalizing as with
  | nil =>
    cases h
    rfl
  | cons s items ih =>
    rw [List.mapM_cons] at h
    cases hs : parse s with
    | error e => simp [hs, bind, Except.bind] at h
    | ok a =>
      cases hitems : items.mapM parse with
      | error e => simp [hs, hitems, bind, Except.bind] at h
      | ok bs =>
        simp only [hs, hitems, bind, Except.bind, pure, Except.pure, Except.ok.injEq] at h
        rw [← h, List.length_cons, List.length_cons, ih hitems]

/-- A list is parsed exactly when each of its elements is. -/
theorem mapM_saved_iff {α : Type} (parse : Str → Except Str α) (raw : JsString) :
    Succeeds (((saved raw).splitOn ',').mapM parse) ↔ ∀ e ∈ elements raw, Succeeds (parse (saved e)) := by
  rw [mapM_succeeds_iff, splitOn_saved]
  exact List.forall_mem_map

/-- An entry of a list is an element of it, trimmed, unless nothing is left of it. -/
theorem mem_splitList : value ∈ splitList raw ↔ value ≠ [] ∧ ∃ e ∈ elements raw, trim e = value := by
  simp [splitList, elements, and_comm]

/-- An element that is not empty, as the server sees it. -/
def Inhabited (e : JsString) : Prop :=
  ∃ c ∈ e, isWhitespace (unitChar c) = false

/-- Nothing is left of a saved string exactly when it is white space of the server. -/
theorem trim_saved_ne_nil_iff : Almond.trim (saved s) ≠ [] ↔ Inhabited s := by
  have hiff := exists_mem_saved_iff (s := s) (p := isWhitespace) (a := false) (b := false) (by decide) fun n hle hlt => by
    rw [Bool.eq_false_iff, ne_eq, isWhitespace]
    simp only [toNat_ofNat_large hle hlt, Bool.or_eq_true, Bool.and_eq_true, decide_eq_true_eq]
    omega
  rw [Inhabited, ← hiff, Http.trim_eq]
  constructor
  · intro hne
    by_contra hnone
    refine hne (trimBy_blank fun x hx => ?_)
    by_contra hx'
    exact hnone ⟨x, hx, by simpa using hx'⟩
  · rintro ⟨x, hx, hws⟩
    exact List.ne_nil_of_mem (mem_trimBy hws hx)

/-- Any element that is not empty is a text. -/
theorem trimmed_saved : Succeeds (trimmed (α := Str) .ok (saved s)) ↔ Inhabited s := by
  rw [← trim_saved_ne_nil_iff, trimmed]
  split
  · rename_i h
    simp [Succeeds, h]
  · rename_i h
    simp [Succeeds, h]

/-- An element of digits is parsed exactly when it is not empty and has no byte order mark. -/
theorem trimmed_parseUnsigned_saved (hitem : trim s ≠ [] → isDigits (trim s) = true ∧ bigInt (trim s) ≤ max) :
    Succeeds (trimmed (parseUnsigned max) (saved s)) ↔ trim s ≠ [] ∧ byteOrderMark ∉ s := by
  have hdigits : ∀ c ∈ trim s, isDigit c = true := fun c hc => (isDigits_iff.1 (hitem (List.ne_nil_of_mem hc)).1).2 c hc
  obtain ⟨hno, hmark⟩ := trim_saved fun c hc => (isDigit_unitChar (hdigits c hc)).2.2
  rw [trimmed]
  constructor
  · rintro ⟨m, hm⟩
    split at hm
    · nomatch hm
    · rename_i hne
      have hmark : byteOrderMark ∉ s := fun hmem => (of_parseUnsigned hm (hmark hmem)).elim (by decide) (by decide)
      refine ⟨fun hnil => hne ?_, hmark⟩
      rw [hno hmark, hnil]
      rfl
  · rintro ⟨hne, hmem⟩
    have htrim := hno hmem
    rw [htrim, if_neg (by simpa using hne)]
    refine ⟨_, parseUnsigned_of_le (by simpa using hne) ?_ ?_⟩
    · intro x hx
      obtain ⟨c, hc, rfl⟩ := List.mem_map.1 hx
      exact (isDigit_unitChar (hdigits c hc)).1
    · rw [digitsValue_map hdigits]
      exact (hitem hne).2

/-- The words of a switch, as the page takes them. -/
def boolWords : List JsString :=
  [js "true", js "false", js "yes", js "no", js "on", js "off", js "1", js "0"]

/-- A switch that the page lets through is parsed exactly when there is no white space around it. -/
theorem parseEnum_boolish_saved (h : foldCase (trim raw) ∈ boolWords) :
    Succeeds (parseEnum boolishWords (saved raw)) ↔ NoSpace raw := by
  have hword : ∀ {unit : JsString}, foldCase unit ∈ boolWords → (∀ c ∈ unit, c.toNat < 128) ∧
      Succeeds (parseEnum boolishWords (saved unit)) := by
    intro unit hunit
    simp only [boolWords, List.mem_cons, List.not_mem_nil, or_false] at hunit
    rcases hunit with hunit | hunit | hunit | hunit | hunit | hunit | hunit | hunit
    all_goals exact ⟨(map_toLower_of_foldCase hunit (by decide)).1, _, parseEnum_of_foldCase hunit (by decide) rfl⟩
  constructor
  · intro hparsed
    refine noSpace_of_visible (saved_of_trim fun c hc => isSurrogate_of_lt ((hword h).1 c hc)) ?_
    refine visible_of_parseEnum (fun v hv x hx => ?_) hparsed
    have hall : boolishWords.all (fun v => v.1.all fun x => 32 < x.toNat && x.toNat < 128) = true := by decide
    have hx := List.all_eq_true.1 (List.all_eq_true.1 hall v hv) x hx
    rw [Bool.and_eq_true, decide_eq_true_eq, decide_eq_true_eq] at hx
    exact hx
  · intro hspace
    rw [hspace.trim_eq] at h
    exact (hword h).2

/-- The names of the access modes. -/
def modeNames : List JsString :=
  [js "off", js "wot", js "dvm", js "public"]

/-- An access mode that the page lets through is parsed as this mode. -/
theorem parseEnum_mode_saved (h : raw ∈ modeNames) :
    ∃ mode, parseEnum featureModes (saved raw) = .ok mode ∧ (mode = .dvm ↔ raw = js "dvm") := by
  simp only [modeNames, List.mem_cons, List.not_mem_nil, or_false] at h
  rcases h with rfl | rfl | rfl | rfl
  · exact ⟨.off, rfl, by decide⟩
  · exact ⟨.wot, rfl, by decide⟩
  · exact ⟨.dvm, rfl, by decide⟩
  · exact ⟨.public, rfl, by decide⟩

/-- The names of the paid operations. -/
def paidNames : List JsString :=
  [js "upload", js "mirror", js "download"]

/-- An operation is parsed exactly when it is there and has no white space around it. -/
theorem parseEnum_paid_saved (h : trim s ≠ [] → trim s ∈ paidNames) :
    Succeeds (parseEnum paidOperations (saved s)) ↔ s ≠ [] ∧ NoSpace s := by
  have hname : ∀ {name : JsString}, name ∈ paidNames → (∀ c ∈ name, c.toNat < 128) ∧ Succeeds (parseEnum paidOperations (saved name)) := by
    intro name hname
    simp only [paidNames, List.mem_cons, List.not_mem_nil, or_false] at hname
    have hascii : ∀ {name : JsString}, name.all isAscii = true → ∀ c ∈ name, c.toNat < 128 := fun hall c hc =>
      of_decide_eq_true (List.all_eq_true.1 hall c hc)
    rcases hname with rfl | rfl | rfl
    · exact ⟨hascii (by decide), .upload, rfl⟩
    · exact ⟨hascii (by decide), .mirror, rfl⟩
    · exact ⟨hascii (by decide), .download, rfl⟩
  constructor
  · intro hparsed
    constructor
    · rintro rfl
      obtain ⟨_, hno⟩ := hparsed
      nomatch hno
    · refine noSpace_of_visible (saved_of_trim fun c hc => isSurrogate_of_lt ((hname (h (List.ne_nil_of_mem hc))).1 c hc)) ?_
      refine visible_of_parseEnum (fun v hv x hx => ?_) hparsed
      have hall : paidOperations.all (fun v => v.1.all fun x => 32 < x.toNat && x.toNat < 128) = true := by decide
      have hx := List.all_eq_true.1 (List.all_eq_true.1 hall v hv) x hx
      rw [Bool.and_eq_true, decide_eq_true_eq, decide_eq_true_eq] at hx
      exact hx
  · rintro ⟨hne, hspace⟩
    rw [hspace.trim_eq] at h
    exact (hname (h hne)).2

end Almond.ConfigEditor
