import Almond.Lemmas.ConfigEditorAux
import Mathlib.Data.List.TakeDrop

/-! # What the editor writes, it reads -/

namespace Almond.ConfigEditor

variable {c : CodeUnit} {name line v rest key value : JsString}

/-! ## Names and plain values -/

/-- A variable name: `[A-Za-z_][A-Za-z0-9_.]*`. -/
def IsName (name : JsString) : Prop :=
  ∃ c units, name = c :: units ∧ isKeyStart c = true ∧ ∀ u ∈ units, isKeyUnit u = true

/-- A unit that begins a name may be anywhere in it. -/
theorem isKeyUnit_of_isKeyStart (h : isKeyStart c = true) : isKeyUnit c = true := by
  simp only [isKeyStart, isKeyUnit, Bool.or_eq_true] at h ⊢
  tauto

/-- The units of a name are plain. -/
theorem isPlain_of_isKeyUnit (h : isKeyUnit c = true) : isPlain c = true := by
  have hdot : (js "_.-/:@%+,").contains (0x2E : CodeUnit) = true := by decide
  have hlow : (js "_.-/:@%+,").contains (0x5F : CodeUnit) = true := by decide
  simp only [isKeyUnit, isPlain, Bool.or_eq_true, decide_eq_true_eq] at h ⊢
  rcases h with ((h | h) | rfl) | rfl
  · exact .inl (.inl h)
  · exact .inl (.inr h)
  · exact .inr hlow
  · exact .inr hdot

/-- A plain unit leaves a complete value complete. -/
theorem ordinary_of_isPlain (h : isPlain c = true) : Ordinary c := by
  refine ⟨?_, ne_of_isPlain h (by decide), ne_of_isPlain h (by decide), ne_of_isPlain h (by decide)⟩
  simp [isWsNotNewline, (isPlain_spec h).2]

namespace IsName

/-- The units of a name. -/
theorem units (h : IsName name) : ∀ u ∈ name, isKeyUnit u = true := by
  obtain ⟨c, units, rfl, hc, hunits⟩ := h
  exact List.forall_mem_cons.2 ⟨isKeyUnit_of_isKeyStart hc, hunits⟩

/-- A name leaves a complete value complete, and so does the equals sign after it. -/
theorem ordinary (h : IsName name) : ∀ u ∈ name ++ [equals], Ordinary u := by
  intro u hu
  rcases List.mem_append.1 hu with hu | hu
  · exact ordinary_of_isPlain (isPlain_of_isKeyUnit (h.units u hu))
  · rw [List.mem_singleton.1 hu]
    unfold Ordinary
    decide

/-- A name has no newline, and neither has the equals sign. -/
theorem newline_not_mem (h : IsName name) : newline ∉ name ++ [equals] := by
  intro hn
  rcases List.mem_append.1 hn with hn | hn
  · exact ne_of_isPlain (isPlain_of_isKeyUnit (h.units _ hn)) (by decide) rfl
  · exact absurd (List.mem_singleton.1 hn) (by decide)

/-- A line reader goes on from the equals sign. -/
theorem continues (h : IsName name) : Continues .complete (name ++ [equals]) ∧
    evalEndState .complete (name ++ [equals]) = .left .complete := by
  have hstate := evalEndState_complete h.ordinary
  exact ⟨.of_not_mem hstate h.newline_not_mem, hstate⟩

/-- A line that begins with a name is no comment. -/
theorem head?_ne (h : IsName name) (text : JsString) : (skipWs (nextPhysicalLine (name ++ text)).1).head? ≠ some hash := by
  obtain ⟨c, units, rfl, hc, _⟩ := h
  have hplain := isPlain_of_isKeyUnit (isKeyUnit_of_isKeyStart hc)
  have hn : c ≠ newline := ne_of_isPlain hplain (by decide)
  have hws := (isPlain_spec hplain).2
  simp only [List.cons_append, nextPhysicalLine, hn, if_false, skipWs, List.dropWhile_cons, hws, Bool.false_eq_true, List.head?_cons]
  intro heq
  exact ne_of_isPlain hplain (by decide) (Option.some.inj heq)

end IsName

/-! ## Quoted values -/

/-- A value of plain units is not quoted. -/
theorem chooseQuoting_plain (h : ∀ c ∈ v, isPlain c = true) : chooseQuoting v = v := by
  unfold chooseQuoting
  split
  · rename_i hnil
    exact hnil.symm
  · rw [if_pos (List.all_eq_true.2 h)]

/-- A value without a single quote is put in single quotes, unless it is plain. -/
theorem chooseQuoting_strong (h : ¬ ∀ c ∈ v, isPlain c = true) (hquote : singleQuote ∉ v) :
    chooseQuoting v = singleQuote :: (v ++ [singleQuote]) := by
  have hne : v ≠ [] := by
    rintro rfl
    exact h fun _ hc => nomatch hc
  rw [chooseQuoting, if_neg hne, if_neg (mt List.all_eq_true.1 h), if_pos hquote]
  rfl

/-- A value with a single quote is escaped and put in double quotes. -/
theorem chooseQuoting_weak (hquote : singleQuote ∈ v) :
    chooseQuoting v = doubleQuote :: (v.flatMap escapeUnit ++ [doubleQuote]) := by
  have hplain : ¬ v.all isPlain = true := fun h => nomatch List.all_eq_true.1 h _ hquote
  rw [chooseQuoting, if_neg (List.ne_nil_of_mem hquote), if_neg hplain, if_neg (not_not.2 hquote)]
  simp only [replaceUnit_eq_escape]
  rfl

/-- A quoted value reads back. -/
theorem parseValue_chooseQuoting (v : JsString) : parseValue (chooseQuoting v) = .ok ⟨v, false⟩ := by
  have hread : ValueState.start.read (codePoints (chooseQuoting v)) = .ok ⟨false, false, false, false, v, false, .none⟩ := by
    by_cases hplain : ∀ c ∈ v, isPlain c = true
    · rw [chooseQuoting_plain hplain]
      exact read_plain hplain []
    by_cases hquote : singleQuote ∈ v
    · rw [chooseQuoting_weak hquote, codePoints_ascii (by decide)]
      exact read_weak v []
    · rw [chooseQuoting_strong hplain hquote, codePoints_ascii (by decide)]
      exact read_strong hquote []
  rw [parseValue, hread]
  rfl

/-- A quoted value does not begin or end with white space, nor begins it a comment. -/
theorem chooseQuoting_ends (v : JsString) :
    chooseQuoting v = [] ∨ (∃ c q, chooseQuoting v = c :: q ∧ isWhiteSpace c = false ∧ c ≠ hash) ∧
      ∃ q c, chooseQuoting v = q ++ [c] ∧ isWhiteSpace c = false := by
  by_cases hplain : ∀ c ∈ v, isPlain c = true
  · rw [chooseQuoting_plain hplain]
    rcases v.eq_nil_or_concat with rfl | ⟨q, c, hv⟩
    · exact .inl rfl
    · obtain ⟨d, q', hd⟩ := List.exists_cons_of_ne_nil (show v ≠ [] by simp [hv])
      have hdp := hplain d (hd ▸ List.mem_cons_self)
      exact .inr ⟨⟨d, q', hd, (isPlain_spec hdp).2, ne_of_isPlain hdp (by decide)⟩, q, c, by simpa using hv,
        (isPlain_spec (hplain c (by simp [hv]))).2⟩
  by_cases hquote : singleQuote ∈ v
  · rw [chooseQuoting_weak hquote]
    exact .inr ⟨⟨_, _, rfl, by decide, by decide⟩, doubleQuote :: v.flatMap escapeUnit, doubleQuote, rfl, by decide⟩
  · rw [chooseQuoting_strong hplain hquote]
    exact .inr ⟨⟨_, _, rfl, by decide, by decide⟩, singleQuote :: v, singleQuote, rfl, by decide⟩

/-! ## The assignment of a line -/

/-- A name is read up to the equals sign. -/
theorem IsName.parseKey_append (h : IsName name) (q : JsString) : parseKey (name ++ equals :: q) = some (name, equals :: q) := by
  have hkey := h.units
  obtain ⟨c, units, rfl, hc, _⟩ := h
  have hspan : (c :: units ++ equals :: q).span isKeyUnit = (c :: units, equals :: q) := by
    have hno : isKeyUnit equals = false := by decide
    rw [List.span_eq_takeWhile_dropWhile, List.takeWhile_append_of_pos hkey, List.dropWhile_append_of_pos hkey]
    simp [hno]
  rw [← hspan]
  simp [parseKey, hc]

/-- A line that was written reads as its assignment. -/
theorem IsName.parseAssignment_line (h : IsName name) (v : JsString) :
    parseAssignment (name ++ equals :: chooseQuoting v) = .ok ⟨name, v, false, false⟩ := by
  have hstart : skipWs (name ++ equals :: chooseQuoting v) = name ++ equals :: chooseQuoting v := by
    obtain ⟨c, units, rfl, hc, _⟩ := h
    have hws := (isPlain_spec (isPlain_of_isKeyUnit (isKeyUnit_of_isKeyStart hc))).2
    simp [skipWs, hws]
  have hequals : skipWs (equals :: chooseQuoting v) = equals :: chooseQuoting v := by
    have hws : isWhiteSpace equals = false := by decide
    simp [skipWs, hws]
  have hassigned : parseAssigned name (chooseQuoting v) false = .ok ⟨name, v, false, false⟩ := by
    have hparsed := parseValue_chooseQuoting v
    rcases chooseQuoting_ends v with hnil | ⟨⟨c, q, hq, hws, hne⟩, _⟩
    · rw [hnil] at hparsed ⊢
      cases hparsed
      rfl
    · have hskip : skipWs (chooseQuoting v) = chooseQuoting v := by simp [hq, skipWs, hws]
      rw [parseAssigned, hskip, hparsed]
      simp [hq, hne]
  rw [parseAssignment, hstart, h.parseKey_append]
  simp only [hequals, expectEqual, if_true, hassigned]

/-- The entry of a line that was written. -/
theorem IsName.readEntry_line (h : IsName name) (v : JsString) (start «end» : Nat) :
    readEntry start «end» (name ++ equals :: chooseQuoting v ++ [newline]) = .assignment start «end» name v false false := by
  have hlast : ∃ u c, name ++ equals :: chooseQuoting v = u ++ [c] ∧ isWhiteSpace c = false := by
    rcases chooseQuoting_ends v with hnil | ⟨_, q, c, hq, hws⟩
    · exact ⟨name, equals, by rw [hnil], by decide⟩
    · exact ⟨name ++ equals :: q, c, by rw [hq]; simp, hws⟩
  have htrim : trimEnd (name ++ equals :: chooseQuoting v ++ [newline]) = name ++ equals :: chooseQuoting v := by
    obtain ⟨u, c, heq, hws⟩ := hlast
    have hn : isWhiteSpace newline = true := by decide
    rw [heq]
    simp [trimEnd, hws, hn]
  have hne : skipWs (name ++ equals :: chooseQuoting v) ≠ [] := by
    obtain ⟨c, units, rfl, hc, _⟩ := h
    have hws := (isPlain_spec (isPlain_of_isKeyUnit (isKeyUnit_of_isKeyStart hc))).2
    simp [skipWs, hws]
  rw [readEntry, htrim]
  simp only [hne, if_false, h.parseAssignment_line]

/-! ## The line of an assignment -/

/-- A value whose quotes close where they should. -/
def Closes (v : JsString) : Prop :=
  singleQuote ∈ v ∨ Even (trailingBackslashes v)

/-- A text is cut into one assignment and the entries of the rest. -/
def SplitsOff (line rest key value : JsString) : Prop :=
  splitLogicalLines (line ++ newline :: rest) =
    .assignment 0 (line.length + 1) key value false false :: (splitLogicalLines rest).map (Entry.shift (line.length + 1))

/-- The value of a line begins in the state after its quote. -/
theorem IsName.continues_quote (h : IsName name) (quote : CodeUnit) (hquote : quote ≠ newline) :
    Continues .complete (name ++ [equals] ++ [quote]) ∧
      evalEndState .complete (name ++ [equals] ++ [quote]) = .left (LineState.complete.next quote) := by
  obtain ⟨hcontinues, hstate⟩ := h.continues
  refine ⟨(Continues.append_iff hstate).2 ⟨hcontinues, ?_⟩, evalEndState_append_left hstate ?_⟩
  · exact ⟨by simp, fun hn => absurd hn hquote, trivial⟩
  · exact evalEndState_cons_left.2 ⟨by simp, rfl⟩

/-- The line of a quoted value is one logical line when the value leaves its quote open. -/
theorem IsName.logicalLine_quoted (h : IsName name) {quote : CodeUnit} {body : JsString} {state : LineState} (hquote : quote ≠ newline)
    (hopen : LineState.complete.next quote = state) (hbody : Continues state body) (hstate : evalEndState state body = .left state)
    (hclose : evalEndState state [quote, newline] = .left .complete) {fuel : Nat}
    (hfuel : (name ++ equals :: quote :: (body ++ [quote])).length < fuel) :
    logicalLine fuel .complete 0 (name ++ equals :: quote :: (body ++ [quote]) ++ newline :: rest) =
      ⟨(name ++ equals :: quote :: (body ++ [quote])).length + 1, (name ++ equals :: quote :: (body ++ [quote])).length + 1, false⟩ := by
  obtain ⟨hcontinues, hquoted⟩ := h.continues_quote quote hquote
  rw [hopen] at hquoted
  have hw := (Continues.append_iff hquoted).2 ⟨hcontinues, hbody⟩
  have hline : name ++ equals :: quote :: (body ++ [quote]) ++ newline :: rest =
      (name ++ [equals] ++ [quote] ++ body) ++ ([quote] ++ newline :: rest) := by simp
  have hlength : (name ++ equals :: quote :: (body ++ [quote])).length = (name ++ [equals] ++ [quote] ++ body).length + 1 := by
    simp only [List.length_append, List.length_cons, List.length_nil]
    omega
  rw [hline, logicalLine_complete hw (evalEndState_append_left hquoted hstate) (by simpa using Ne.symm hquote) hclose (by omega) 0,
    hlength]
  simp

/-- The line of a value whose quotes close is one logical line. -/
theorem IsName.logicalLine_line (h : IsName name) (hv : Closes v) {fuel : Nat}
    (hfuel : (name ++ equals :: chooseQuoting v).length < fuel) (rest : JsString) :
    logicalLine fuel .complete 0 (name ++ equals :: chooseQuoting v ++ newline :: rest) =
      ⟨(name ++ equals :: chooseQuoting v).length + 1, (name ++ equals :: chooseQuoting v).length + 1, false⟩ := by
  by_cases hplain : ∀ c ∈ v, isPlain c = true
  · -- A plain value.
    rw [chooseQuoting_plain hplain] at hfuel ⊢
    have hordinary : ∀ u ∈ name ++ equals :: v ++ [newline], Ordinary u := by
      intro u hu
      simp only [List.mem_append, List.mem_cons, List.not_mem_nil, or_false] at hu
      rcases hu with (hu | rfl | hu) | rfl
      · exact h.ordinary u (List.mem_append_left _ hu)
      · exact h.ordinary equals (List.mem_append_right _ (List.mem_singleton_self _))
      · exact ordinary_of_isPlain (hplain u hu)
      · exact ordinary_newline
    have hnewline : newline ∉ name ++ equals :: v := by
      intro hn
      simp only [List.mem_append, List.mem_cons] at hn
      rcases hn with hn | hn | hn
      · exact h.newline_not_mem (List.mem_append_left _ hn)
      · exact absurd hn (by decide)
      · exact ne_of_isPlain (hplain _ hn) (by decide) rfl
    have hcontinues : Continues .complete [] := trivial
    have hline := logicalLine_complete hcontinues rfl hnewline (evalEndState_complete hordinary) (Nat.zero_lt_of_lt hfuel) 0 rest
    simpa using hline
  by_cases hquote : singleQuote ∈ v
  · -- An escaped value.
    rw [chooseQuoting_weak hquote] at hfuel ⊢
    have hbody := Continues.of_not_mem (weak_value v) (newline_not_mem_escape v)
    exact h.logicalLine_quoted (by decide) (by decide) hbody (weak_value v) (by decide) hfuel
  · -- A value whose backslashes pair off.
    rw [chooseQuoting_strong hplain hquote] at hfuel ⊢
    obtain ⟨hbody, hstate⟩ := strong_value hquote
    rw [if_pos (hv.resolve_left hquote)] at hstate
    exact h.logicalLine_quoted (by decide) (by decide) hbody hstate (by decide) hfuel

/-- The line of a value that escapes its closing quote goes on. -/
theorem IsName.logicalLine_overruns (h : IsName name) (hv : ¬ Closes v) {fuel : Nat}
    (hfuel : (name ++ equals :: chooseQuoting v ++ newline :: rest).length ≤ fuel) :
    (logicalLine fuel .complete 0 (name ++ equals :: chooseQuoting v ++ newline :: rest)).unterminated = true ∨
      (name ++ equals :: chooseQuoting v).length + 1 <
        (logicalLine fuel .complete 0 (name ++ equals :: chooseQuoting v ++ newline :: rest)).consumedEnd := by
  obtain ⟨hquote, hodd⟩ := not_or.1 hv
  have hplain : ¬ ∀ c ∈ v, isPlain c = true := by
    intro hall
    have hnone : trailingBackslashes v = 0 := by
      rcases v.eq_nil_or_concat with rfl | ⟨u, c, hu⟩
      · rfl
      · have hv' : v = u ++ [c] := by simpa using hu
        rw [hv', trailingBackslashes_concat, if_neg]
        exact ne_of_isPlain (hall c (by simp [hv'])) (by decide)
    exact hodd (by simp [hnone])
  obtain ⟨hbody, hstate⟩ := strong_value hquote
  rw [if_neg hodd] at hstate
  obtain ⟨hcontinues, hquoted⟩ := h.continues_quote singleQuote (by decide)
  have hw : Continues .complete (name ++ [equals] ++ [singleQuote] ++ v) := (Continues.append_iff hquoted).2 ⟨hcontinues, hbody⟩
  have hall : Continues .complete (name ++ [equals] ++ [singleQuote] ++ v ++ [singleQuote, newline]) :=
    (Continues.append_iff (evalEndState_append_left hquoted hstate)).2 ⟨hw, by simp [Continues, LineState.next]; decide⟩
  have hline : name ++ equals :: chooseQuoting v = name ++ [equals] ++ [singleQuote] ++ v ++ [singleQuote] := by
    rw [chooseQuoting_strong hplain hquote]
    simp
  rw [hline] at hfuel ⊢
  have hover := ConfigEditor.logicalLine_overruns (by simpa using hall) hfuel 0
  simpa using hover

/-- The line that the editor writes for a value is cut off from any text that follows it, and reads as the assignment of exactly this
value, exactly when the value has a single quote or ends in an even number of backslashes. -/
theorem quoting_round_trip (h : IsName name) (v rest : JsString) :
    ∃ line, serializeAssignment name ⟨true, v, false⟩ = some line ∧ (SplitsOff line rest name v ↔ Closes v) := by
  refine ⟨name ++ equals :: chooseQuoting v, rfl, fun hsplit => ?_, fun hv => ?_⟩
  · by_contra hv
    have hstart : (skipWs (nextPhysicalLine (name ++ equals :: chooseQuoting v ++ newline :: rest)).1).head? ≠ some hash := by
      rw [List.append_assoc]
      exact h.head?_ne _
    exact splitLogicalLines_overruns (by simp) hstart (h.logicalLine_overruns hv le_rfl) hsplit
  · have htext : name ++ equals :: chooseQuoting v ++ newline :: rest = (name ++ equals :: chooseQuoting v ++ [newline]) ++ rest := by
      simp
    have hlength : (name ++ equals :: chooseQuoting v ++ [newline]).length = (name ++ equals :: chooseQuoting v).length + 1 :=
      List.length_append
    have hfuel : (name ++ equals :: chooseQuoting v).length < (name ++ equals :: chooseQuoting v ++ newline :: rest).length := by simp
    have hline := h.logicalLine_line hv hfuel rest
    have hstart := h.head?_ne (equals :: chooseQuoting v ++ newline :: rest)
    rw [← List.append_assoc, htext] at hstart
    rw [htext, ← hlength] at hline
    rw [SplitsOff, htext, splitLogicalLines_append (by simp) hstart hline, h.readEntry_line, hlength]

/-- A value in single quotes. -/
theorem quoting_round_trip_space : ∃ line, serializeAssignment (js "ALMOND_STORAGE_PATH") ⟨true, js "my files", false⟩ = some line ∧
    (SplitsOff line (js "B=1\n") (js "ALMOND_STORAGE_PATH") (js "my files") ↔ Closes (js "my files")) :=
  quoting_round_trip ⟨_, _, rfl, by decide, List.all_eq_true.1 (by decide)⟩ _ _

/-- A value that ends in a backslash escapes its closing quote, and its line swallows the next one. -/
theorem quoting_round_trip_false : ∃ line, serializeAssignment (js "ALMOND_STORAGE_PATH") ⟨true, js "C:\\files\\", false⟩ = some line ∧
    ¬ SplitsOff line (js "B=1\n") (js "ALMOND_STORAGE_PATH") (js "C:\\files\\") := by
  refine ⟨js "ALMOND_STORAGE_PATH='C:\\files\\'", by decide, ?_⟩
  unfold SplitsOff
  decide

end Almond.ConfigEditor
