import Almond.ConfigEditor
import Mathlib.Data.List.TakeWhile
import Mathlib.Data.List.Induction
import Mathlib.Algebra.Ring.Parity

/-! # Reading lines and values

What a text does to the line reader, unit by unit, and where its logical lines end. What a quoted value does to the value reader. -/

namespace Almond.ConfigEditor

variable {c d : CodeUnit} {s t u v w rest text name : JsString} {state state' : LineState} {fuel cur start : Nat}

/-! ## Physical lines -/

/-- A line ends at the first newline. -/
theorem nextPhysicalLine_append (h : newline ∉ u) (rest : JsString) :
    nextPhysicalLine (u ++ newline :: rest) = (u ++ [newline], rest) := by
  induction u with
  | nil => simp [nextPhysicalLine]
  | cons c u ih =>
    simp only [List.mem_cons, not_or] at h
    rw [List.cons_append, nextPhysicalLine, if_neg (Ne.symm h.1), ih h.2]
    rfl

/-- A line and what follows it are the text. -/
theorem nextPhysicalLine_spec (text : JsString) : (nextPhysicalLine text).1 ++ (nextPhysicalLine text).2 = text := by
  induction text with
  | nil => rfl
  | cons c text ih =>
    rw [nextPhysicalLine]
    split
    · rfl
    · exact congrArg (c :: ·) ih

/-- A text begins with a line, if it is not empty. -/
theorem nextPhysicalLine_ne_nil (h : text ≠ []) : (nextPhysicalLine text).1 ≠ [] := by
  cases text with
  | nil => exact absurd rfl h
  | cons c text =>
    rw [nextPhysicalLine]
    split <;> simp

/-! ## The state at the end of a line -/

/-- A line end that is found further on. -/
def LineEnd.shift (n : Nat) : LineEnd → LineEnd
  | .left state => .left state
  | .comment pos => .comment (pos + n)

/-- Nothing is found any further on. -/
@[simp] theorem LineEnd.shift_zero (e : LineEnd) : e.shift 0 = e := by
  cases e <;> rfl

/-- Further on, and further on again. -/
@[simp] theorem LineEnd.shift_shift (e : LineEnd) (n m : Nat) : (e.shift n).shift m = e.shift (n + m) := by
  cases e <;> simp [shift, Nat.add_assoc]

/-- One code unit that begins no comment. -/
theorem evalEndState_cons (h : ¬(state = .whiteSpace ∧ c = hash)) (w : JsString) :
    evalEndState state (c :: w) = (evalEndState (state.next c) w).shift 1 := by
  rw [evalEndState, if_neg h]
  cases evalEndState (state.next c) w <;> rfl

/-- One code unit of a text without a comment. -/
theorem evalEndState_cons_left :
    evalEndState state (c :: w) = .left state' ↔ ¬(state = .whiteSpace ∧ c = hash) ∧ evalEndState (state.next c) w = .left state' := by
  by_cases h : state = .whiteSpace ∧ c = hash
  · simp [evalEndState, h]
  · rw [evalEndState_cons h, and_iff_right h]
    cases evalEndState (state.next c) w <;> simp [LineEnd.shift]

/-- One text after another. -/
theorem evalEndState_append (h : evalEndState state w = .left state') (t : JsString) :
    evalEndState state (w ++ t) = (evalEndState state' t).shift w.length := by
  induction w generalizing state with
  | nil =>
    cases h
    simp
  | cons c w ih =>
    obtain ⟨hc, hw⟩ := evalEndState_cons_left.1 h
    rw [List.cons_append, evalEndState_cons hc, ih hw, LineEnd.shift_shift]
    rfl

/-- One text after another, without a comment in either. -/
theorem evalEndState_append_left {state'' : LineState} (h : evalEndState state w = .left state')
    (h' : evalEndState state' t = .left state'') : evalEndState state (w ++ t) = .left state'' := by
  rw [evalEndState_append h, h']
  rfl

/-- A code unit that leaves a complete value complete. -/
def Ordinary (c : CodeUnit) : Prop :=
  isWsNotNewline c = false ∧ c ≠ backslash ∧ c ≠ doubleQuote ∧ c ≠ singleQuote

/-- A text of ordinary units leaves a complete value complete. -/
theorem evalEndState_complete (h : ∀ c ∈ w, Ordinary c) : evalEndState .complete w = .left .complete := by
  induction w with
  | nil => rfl
  | cons c w ih =>
    obtain ⟨⟨hws, hb, hd, hs⟩, hw⟩ := List.forall_mem_cons.1 h
    have hnext : LineState.complete.next c = .complete := by simp [LineState.next, hws, hb, hd, hs]
    refine evalEndState_cons_left.2 ⟨by simp, ?_⟩
    rw [hnext]
    exact ih hw

/-- A newline is ordinary. -/
theorem ordinary_newline : Ordinary newline := by
  unfold Ordinary
  decide

/-! ## Logical lines -/

/-- A reader has not finished at any newline of a text, nor met a comment. -/
def Continues : LineState → JsString → Prop
  | _, [] => True
  | state, c :: w => ¬(state = .whiteSpace ∧ c = hash) ∧ (c = newline → state.next c ≠ .complete) ∧ Continues (state.next c) w

namespace Continues

/-- One text after another. -/
theorem append_iff (hw : evalEndState state w = .left state') :
    Continues state (w ++ t) ↔ Continues state w ∧ Continues state' t := by
  induction w generalizing state with
  | nil =>
    cases hw
    simp [Continues]
  | cons c w ih =>
    have hrest := (evalEndState_cons_left.1 hw).2
    simp only [List.cons_append, Continues, ih hrest, and_assoc]

/-- A text without a newline and without a comment. -/
theorem of_not_mem (h : evalEndState state w = .left state') (hw : newline ∉ w) : Continues state w := by
  induction w generalizing state with
  | nil => trivial
  | cons c w ih =>
    simp only [List.mem_cons, not_or] at hw
    obtain ⟨hc, hrest⟩ := evalEndState_cons_left.1 h
    exact ⟨hc, fun he => absurd he.symm hw.1, ih hrest hw.2⟩

/-- The state after a line, and what is left. -/
theorem split (h : Continues state (u ++ newline :: v)) :
    ∃ state', evalEndState state (u ++ [newline]) = .left state' ∧ state' ≠ .complete ∧ Continues state' v := by
  induction u generalizing state with
  | nil =>
    obtain ⟨hc, hne, hv⟩ := h
    exact ⟨_, evalEndState_cons_left.2 ⟨hc, rfl⟩, hne rfl, hv⟩
  | cons c u ih =>
    obtain ⟨hc, _, hu⟩ := h
    obtain ⟨state', hstate, hne, hv⟩ := ih hu
    exact ⟨state', evalEndState_cons_left.2 ⟨hc, hstate⟩, hne, hv⟩

end Continues

/-- A logical line that goes on after its first physical line. -/
theorem logicalLine_of_continues (h : newline ∉ u) (hstate : evalEndState state (u ++ [newline]) = .left state')
    (hne : state' ≠ .complete) (fuel cur : Nat) (rest : JsString) :
    logicalLine (fuel + 1) state cur (u ++ newline :: rest) =
      if rest = [] then ⟨cur + (u.length + 1), cur + (u.length + 1), true⟩ else logicalLine fuel state' (cur + (u.length + 1)) rest := by
  rw [logicalLine, nextPhysicalLine_append h]
  simp only [hstate, List.length_append, List.length_singleton, List.append_eq_nil_iff, List.cons_ne_self, and_false, if_false]

/-- A logical line ends at the newline at which its value is complete. -/
theorem logicalLine_complete (hw : Continues state w) (hstate : evalEndState state w = .left state') (ht : newline ∉ t)
    (hend : evalEndState state' (t ++ [newline]) = .left .complete) (hfuel : w.length < fuel) (cur : Nat) (rest : JsString) :
    logicalLine fuel state cur (w ++ (t ++ newline :: rest)) =
      ⟨cur + (w.length + t.length + 1), cur + (w.length + t.length + 1), false⟩ := by
  induction fuel generalizing w state cur with
  | zero => omega
  | succ fuel ih =>
    by_cases hmem : newline ∈ w
    · obtain ⟨u, v, rfl, hu⟩ := List.eq_append_cons_of_mem hmem
      obtain ⟨mid, hmid, hne, hv⟩ := hw.split
      have hrest : evalEndState mid v = .left state' := by
        have heq : u ++ newline :: v = (u ++ [newline]) ++ v := by simp
        rw [heq, evalEndState_append hmid] at hstate
        cases hr : evalEndState mid v <;> simp [hr, LineEnd.shift] at hstate
        rw [hstate]
      have hlength : v.length < fuel := by simp at hfuel; omega
      rw [List.append_assoc, List.cons_append, logicalLine_of_continues hu hmid hne, if_neg (by simp), ih hv hrest hlength _]
      simp only [List.length_append, List.length_cons]
      congr 1 <;> omega
    · have hline : newline ∉ w ++ t := by simp [hmem, ht]
      have hboth : evalEndState state (w ++ (t ++ [newline])) = .left .complete := evalEndState_append_left hstate hend
      rw [← List.append_assoc, logicalLine, nextPhysicalLine_append hline]
      simp [hboth, Nat.add_assoc]

/-- A logical line consumes something. -/
theorem lt_consumedEnd (h : text ≠ []) (hfuel : text.length ≤ fuel) (state : LineState) (cur : Nat) :
    cur < (logicalLine fuel state cur text).consumedEnd := by
  induction fuel generalizing text state cur with
  | zero => exact absurd (List.length_eq_zero_iff.1 (Nat.le_zero.1 hfuel)) h
  | succ fuel ih =>
    have hline := nextPhysicalLine_ne_nil h
    have hpos := List.length_pos_iff.2 hline
    have hlength := congrArg List.length (nextPhysicalLine_spec text)
    rw [List.length_append] at hlength
    rw [logicalLine]
    simp only [hline, if_false]
    split
    · exact Nat.lt_add_of_pos_right hpos
    · exact Nat.lt_add_of_pos_right hpos
    · split
      · exact Nat.lt_add_of_pos_right hpos
      · rename_i hrest
        exact (Nat.lt_add_of_pos_right hpos).trans (ih hrest (by omega) _ _)

/-- A logical line does not end where its value goes on. -/
theorem logicalLine_overruns (hw : Continues state (w ++ [newline])) (hfuel : (w ++ newline :: rest).length ≤ fuel) (cur : Nat) :
    (logicalLine fuel state cur (w ++ newline :: rest)).unterminated = true ∨
      cur + (w.length + 1) < (logicalLine fuel state cur (w ++ newline :: rest)).consumedEnd := by
  induction fuel generalizing w state cur with
  | zero => simp at hfuel
  | succ fuel ih =>
    by_cases hmem : newline ∈ w
    · obtain ⟨u, v, rfl, hu⟩ := List.eq_append_cons_of_mem hmem
      rw [List.append_assoc, List.cons_append] at hw
      obtain ⟨mid, hmid, hne, hv⟩ := hw.split
      have hlength : (v ++ newline :: rest).length ≤ fuel := by
        simp only [List.length_append, List.length_cons] at hfuel ⊢
        omega
      rw [List.append_assoc, List.cons_append, logicalLine_of_continues hu hmid hne, if_neg (by simp)]
      refine (ih hv hlength _).imp_right fun h => ?_
      simp only [List.length_append, List.length_cons]
      omega
    · obtain ⟨mid, hmid, hne, _⟩ := hw.split
      rw [logicalLine_of_continues hmem hmid hne]
      split
      · exact .inl rfl
      · rename_i hrest
        simp only [List.length_append, List.length_cons] at hfuel
        exact .inr (lt_consumedEnd hrest (by omega) _ _)

/-! ## The entries -/

/-- An entry further on. -/
def Entry.shift (n : Nat) : Entry → Entry
  | .comment start «end» => .comment (start + n) («end» + n)
  | .blank start «end» => .blank (start + n) («end» + n)
  | .assignment start «end» key value hasReference isExport => .assignment (start + n) («end» + n) key value hasReference isExport
  | .unsupported start «end» reason => .unsupported (start + n) («end» + n) reason

/-- The entry of a value text further on. -/
theorem readEntry_shift (start n m : Nat) (text : JsString) :
    readEntry (start + n) (start + n + m) text = (readEntry start (start + m) text).shift n := by
  simp only [readEntry]
  split
  · simp [Entry.shift, Nat.add_right_comm]
  · split <;> simp [Entry.shift, Nat.add_right_comm]

/-- The entries of a text further on. -/
theorem splitFrom_shift (fuel start n : Nat) (text : JsString) :
    splitFrom fuel (start + n) text = (splitFrom fuel start text).map (Entry.shift n) := by
  induction fuel generalizing start text with
  | zero => rfl
  | succ fuel ih =>
    cases text with
    | nil => rfl
    | cons c text =>
      simp only [splitFrom]
      split
      · rw [List.map_cons, Nat.add_right_comm, ih]
        simp [Entry.shift, Nat.add_right_comm]
      · rw [List.map_cons, Nat.add_right_comm start n, ih]
        congr 1
        split
        · simp [Entry.shift, Nat.add_right_comm]
        · rw [← readEntry_shift, Nat.add_right_comm]

/-- What follows a line is shorter. -/
theorem length_nextPhysicalLine_lt (h : text ≠ []) : (nextPhysicalLine text).2.length < text.length := by
  have hpos := List.length_pos_iff.2 (nextPhysicalLine_ne_nil h)
  have hlength := congrArg List.length (nextPhysicalLine_spec text)
  rw [List.length_append] at hlength
  omega

/-- More fuel than code units changes nothing. -/
theorem splitFrom_fuel {fuel' : Nat} (h : text.length ≤ fuel) (h' : text.length ≤ fuel') (start : Nat) :
    splitFrom fuel start text = splitFrom fuel' start text := by
  induction fuel generalizing fuel' start text with
  | zero =>
    obtain rfl := List.length_eq_zero_iff.1 (Nat.le_zero.1 h)
    cases fuel' <;> rfl
  | succ fuel ih =>
    cases text with
    | nil => cases fuel' <;> rfl
    | cons c text =>
      cases fuel' with
      | zero => simp at h'
      | succ fuel' =>
        have hline := length_nextPhysicalLine_lt (List.cons_ne_nil c text)
        have hconsumed := lt_consumedEnd (List.cons_ne_nil c text) le_rfl .complete 0
        have hdrop : ((c :: text).drop (logicalLine (c :: text).length .complete 0 (c :: text)).consumedEnd).length <
            (c :: text).length := by
          rw [List.length_drop]
          simp only [List.length_cons] at hconsumed ⊢
          omega
        simp only [splitFrom]
        split
        · exact congrArg _ (ih (by omega) (by omega) _)
        · exact congrArg _ (ih (by omega) (by omega) _)

/-- The entries of a text that begins with a logical line. -/
theorem splitFrom_of_line {line : LogicalLine} (hne : text ≠ []) (hstart : (skipWs (nextPhysicalLine text).1).head? ≠ some hash)
    (hline : logicalLine text.length .complete 0 text = line) (fuel start : Nat) :
    splitFrom (fuel + 1) start text =
      (if line.unterminated then .unsupported start (start + line.consumedEnd) (js "unterminated quote or trailing escape")
        else readEntry start (start + line.consumedEnd) (text.take line.parseEnd)) ::
      splitFrom fuel (start + line.consumedEnd) (text.drop line.consumedEnd) := by
  cases text with
  | nil => exact absurd rfl hne
  | cons c text => simp only [splitFrom, hstart, if_false, hline]

/-- The entries of a text, with fuel to spare. -/
theorem splitLogicalLines_eq (text : JsString) : splitLogicalLines text = splitFrom (text.length + 1) 0 text :=
  splitFrom_fuel le_rfl (Nat.le_succ _) 0

/-- The entries of a text whose first logical line is complete. -/
theorem splitLogicalLines_append (hne : u ≠ []) (hstart : (skipWs (nextPhysicalLine (u ++ rest)).1).head? ≠ some hash)
    (hline : logicalLine (u ++ rest).length .complete 0 (u ++ rest) = ⟨u.length, u.length, false⟩) :
    splitLogicalLines (u ++ rest) = readEntry 0 u.length u :: (splitLogicalLines rest).map (Entry.shift u.length) := by
  have hrest : splitFrom (u ++ rest).length u.length rest = (splitLogicalLines rest).map (Entry.shift u.length) := by
    rw [splitLogicalLines, ← splitFrom_shift, Nat.zero_add]
    exact splitFrom_fuel (by simp) le_rfl _
  rw [splitLogicalLines_eq, splitFrom_of_line (by simp [hne]) hstart hline]
  simp only [Bool.false_eq_true, if_false, List.take_left, List.drop_left, Nat.zero_add, hrest]

/-- The first entry of a text whose first logical line goes on. -/
theorem splitLogicalLines_overruns {n : Nat} (hne : text ≠ []) (hstart : (skipWs (nextPhysicalLine text).1).head? ≠ some hash)
    (hline : (logicalLine text.length .complete 0 text).unterminated = true ∨
      n < (logicalLine text.length .complete 0 text).consumedEnd) {key value : JsString} {hasReference isExport : Bool}
    {entries : List Entry} :
    splitLogicalLines text ≠ .assignment 0 n key value hasReference isExport :: entries := by
  intro heq
  rw [splitLogicalLines_eq, splitFrom_of_line hne hstart rfl] at heq
  obtain ⟨hentry, _⟩ := List.cons.inj heq
  split at hentry
  · nomatch hentry
  · rename_i hterminated
    have hn := hline.resolve_left hterminated
    simp only [readEntry] at hentry
    split at hentry
    · nomatch hentry
    · split at hentry
      · nomatch hentry
      · obtain ⟨_, hend, _⟩ := Entry.assignment.inj hentry
        omega

/-! ## Quotes and the line reader -/

/-- The number of backslashes at the end of a value. -/
def trailingBackslashes (value : JsString) : Nat :=
  (value.reverse.takeWhile (· = backslash)).length

/-- One more unit at the end. -/
theorem trailingBackslashes_concat (value : JsString) (c : CodeUnit) :
    trailingBackslashes (value ++ [c]) = if c = backslash then trailingBackslashes value + 1 else 0 := by
  unfold trailingBackslashes
  by_cases hc : c = backslash <;> simp [hc]

/-- A value in single quotes: its backslashes pair off from the left. -/
theorem strong_value (h : singleQuote ∉ v) : Continues .strongOpen v ∧
    evalEndState .strongOpen v = .left (if Even (trailingBackslashes v) then .strongOpen else .strongOpenEscape) := by
  induction v using List.reverseRecOn with
  | nil => simp [Continues, evalEndState, trailingBackslashes]
  | append_singleton v c ih =>
    simp only [List.mem_append, List.mem_singleton, not_or] at h
    obtain ⟨hv, hc⟩ := h
    obtain ⟨hcontinues, hstate⟩ := ih hv
    rw [trailingBackslashes_concat, Continues.append_iff hstate]
    refine ⟨⟨hcontinues, ?_⟩, evalEndState_append_left hstate ?_⟩
    · split <;> simp [Continues, LineState.next, Ne.symm hc]
      split <;> simp
    · by_cases heven : Even (trailingBackslashes v) <;> by_cases hb : c = backslash <;>
        simp [evalEndState, LineState.next, heven, hb, Ne.symm hc, Nat.even_add_one]

/-- How a code unit is written in double quotes. -/
def escapeUnit (c : CodeUnit) : JsString :=
  if c = backslash then [backslash, backslash]
  else if c = doubleQuote then [backslash, doubleQuote]
  else if c = dollar then [backslash, dollar]
  else if c = newline then [backslash, letterN]
  else [c]

/-- The units that are escaped, and the others. -/
theorem escapeUnit_cases (c : CodeUnit) :
    c = backslash ∨ c = doubleQuote ∨ c = dollar ∨ c = newline ∨
      escapeUnit c = [c] ∧ c ≠ backslash ∧ c ≠ doubleQuote ∧ c ≠ dollar ∧ c ≠ newline := by
  unfold escapeUnit
  by_cases hb : c = backslash <;> by_cases hd : c = doubleQuote <;> by_cases hdollar : c = dollar <;> by_cases hn : c = newline <;>
    simp [hb, hd, hdollar, hn]

/-- The four replacements escape unit by unit. -/
theorem replaceUnit_eq_escape (value : JsString) :
    replaceUnit newline [backslash, letterN] (replaceUnit dollar [backslash, dollar]
      (replaceUnit doubleQuote [backslash, doubleQuote] (replaceUnit backslash [backslash, backslash] value))) =
      value.flatMap escapeUnit := by
  simp only [replaceUnit, List.flatMap_assoc]
  refine List.flatMap_congr fun c _ => ?_
  rcases escapeUnit_cases c with rfl | rfl | rfl | rfl | ⟨hc, hb, hd, hdollar, hn⟩
  · decide
  · decide
  · decide
  · decide
  · simp [hc, hb, hd, hdollar, hn]

/-- An escaped value in double quotes leaves them open. -/
theorem weak_value (v : JsString) : evalEndState .weakOpen (v.flatMap escapeUnit) = .left .weakOpen := by
  induction v with
  | nil => rfl
  | cons c v ih =>
    refine evalEndState_append_left ?_ ih
    rcases escapeUnit_cases c with rfl | rfl | rfl | rfl | ⟨hc, hb, hd, _, _⟩
    · decide
    · decide
    · decide
    · decide
    · simp [hc, evalEndState, LineState.next, hb, hd]

/-- An escaped value has no newline. -/
theorem newline_not_mem_escape (v : JsString) : newline ∉ v.flatMap escapeUnit := by
  rw [List.mem_flatMap]
  rintro ⟨c, _, hmem⟩
  rcases escapeUnit_cases c with rfl | rfl | rfl | rfl | ⟨hc, _, _, _, hn⟩
  · revert hmem
    decide
  · revert hmem
    decide
  · revert hmem
    decide
  · revert hmem
    decide
  · rw [hc, List.mem_singleton] at hmem
    exact hn hmem.symm

/-! ## Quotes and the value reader -/

/-- A surrogate pair is one character. -/
theorem codePoints_pair (h : isSurrogatePair c d = true) (text : JsString) :
    codePoints (c :: d :: text) = [c, d] :: codePoints text := by
  rw [codePoints, if_pos h]

/-- A unit that begins no pair is a character. -/
theorem codePoints_cons (h : ∀ d, text.head? = some d → isSurrogatePair c d = false) :
    codePoints (c :: text) = [c] :: codePoints text := by
  cases text with
  | nil => rfl
  | cons d text => rw [codePoints, h d rfl, if_neg Bool.false_ne_true]

/-- An ASCII unit is no half of a pair. -/
theorem isSurrogatePair_of_lt (h : c < 0x80 ∨ d < 0x80) : isSurrogatePair c d = false := by
  unfold isSurrogatePair
  rw [Bool.eq_false_iff]
  intro hp
  simp only [Bool.and_eq_true, decide_eq_true_eq, UInt16.le_iff_toNat_le] at hp
  simp only [UInt16.lt_iff_toNat_lt] at h
  simp at h hp
  omega

/-- An ASCII unit is a character. -/
theorem codePoints_ascii (h : c < 0x80) (text : JsString) : codePoints (c :: text) = [c] :: codePoints text :=
  codePoints_cons fun _ _ => isSurrogatePair_of_lt (.inl h)

/-- A value in single quotes. -/
theorem read_strong (h : singleQuote ∉ v) (output : JsString) :
    ValueState.read ⟨true, false, false, false, output, false, .none⟩ (codePoints (v ++ [singleQuote])) =
      .ok ⟨false, false, false, false, output ++ v, false, .none⟩ := by
  have hread : ∀ (p output : JsString) (chars : List JsString), p ≠ [singleQuote] →
      ValueState.read ⟨true, false, false, false, output, false, .none⟩ (p :: chars) =
        ValueState.read ⟨true, false, false, false, output ++ p, false, .none⟩ chars := fun p output chars hp => by
    simp [ValueState.read, ValueState.next, hp]
  induction v using codePoints.induct generalizing output with
  | case1 => simp [codePoints, ValueState.read, ValueState.next]
  | case2 c =>
    simp only [List.mem_singleton] at h
    have hsplit : codePoints ([c] ++ [singleQuote]) = [c] :: codePoints [singleQuote] := by
      refine codePoints_cons fun d hd => isSurrogatePair_of_lt (.inr ?_)
      cases hd
      decide
    rw [hsplit, hread _ _ _ (by simpa using Ne.symm h)]
    simp [codePoints, ValueState.read, ValueState.next]
  | case3 c d s hp ih =>
    simp only [List.mem_cons, not_or] at h
    rw [List.cons_append, List.cons_append, codePoints_pair hp, hread _ _ _ (by simp), ih h.2.2]
    simp
  | case4 c d s hp ih =>
    rw [List.mem_cons, not_or] at h
    have hsplit : codePoints (c :: d :: s ++ [singleQuote]) = [c] :: codePoints (d :: s ++ [singleQuote]) := by
      refine codePoints_cons fun d' hd => ?_
      cases hd
      simpa using hp
    rw [hsplit, hread _ _ _ (by simpa using Ne.symm h.1), ih h.2]
    simp

/-- An escaped unit in double quotes. -/
theorem read_escapeUnit (hpair : ∀ d, text.head? = some d → isSurrogatePair c d = false) (output : JsString) :
    ValueState.read ⟨false, true, false, false, output, false, .none⟩ (codePoints (escapeUnit c ++ text)) =
      ValueState.read ⟨false, true, false, false, output ++ [c], false, .none⟩ (codePoints text) := by
  have htwo : ∀ e, e < 0x80 → codePoints ([backslash, e] ++ text) = [backslash] :: [e] :: codePoints text := fun e he => by
    rw [List.cons_append, List.singleton_append, codePoints_ascii (by decide), codePoints_ascii he]
  rcases escapeUnit_cases c with rfl | rfl | rfl | rfl | ⟨hc, hb, hd, hdollar, _⟩
  · exact congrArg _ (htwo backslash (by decide))
  · exact congrArg _ (htwo doubleQuote (by decide))
  · exact congrArg _ (htwo dollar (by decide))
  · exact congrArg _ (htwo letterN (by decide))
  · rw [hc, List.singleton_append, codePoints_cons hpair]
    simp [ValueState.read, ValueState.next, hb, hd, hdollar]

/-- A unit beyond ASCII is not escaped. -/
theorem escapeUnit_of_le (h : 0x80 ≤ c) : escapeUnit c = [c] := by
  rcases escapeUnit_cases c with rfl | rfl | rfl | rfl | ⟨hc, _⟩
  · exact absurd h (by decide)
  · exact absurd h (by decide)
  · exact absurd h (by decide)
  · exact absurd h (by decide)
  · exact hc

/-- Both halves of a pair are beyond ASCII. -/
theorem le_of_isSurrogatePair (h : isSurrogatePair c d = true) : 0x80 ≤ c ∧ 0x80 ≤ d := by
  unfold isSurrogatePair at h
  simp only [Bool.and_eq_true, decide_eq_true_eq, UInt16.le_iff_toNat_le] at h ⊢
  simp at h ⊢
  omega

/-- The first unit of an escaped value is that of the value, or ASCII. -/
theorem isSurrogatePair_head_escape (h : isSurrogatePair c d = false) {e : CodeUnit}
    (he : ((d :: s).flatMap escapeUnit ++ t).head? = some e) : isSurrogatePair c e = false := by
  have hb : backslash < 0x80 := by decide
  rw [List.flatMap_cons] at he
  rcases escapeUnit_cases d with rfl | rfl | rfl | rfl | ⟨hd, _⟩
  · exact isSurrogatePair_of_lt (.inr (Option.some.inj he ▸ hb))
  · exact isSurrogatePair_of_lt (.inr (Option.some.inj he ▸ hb))
  · exact isSurrogatePair_of_lt (.inr (Option.some.inj he ▸ hb))
  · exact isSurrogatePair_of_lt (.inr (Option.some.inj he ▸ hb))
  · rw [hd] at he
    exact Option.some.inj he ▸ h

/-- A value in double quotes. -/
theorem read_weak (v output : JsString) :
    ValueState.read ⟨false, true, false, false, output, false, .none⟩ (codePoints (v.flatMap escapeUnit ++ [doubleQuote])) =
      .ok ⟨false, false, false, false, output ++ v, false, .none⟩ := by
  have hclose : ∀ output, ValueState.read ⟨false, true, false, false, output, false, .none⟩ (codePoints [doubleQuote]) =
      .ok ⟨false, false, false, false, output, false, .none⟩ := fun _ => rfl
  induction v using codePoints.induct generalizing output with
  | case1 => simpa using hclose output
  | case2 c =>
    have hpair : ∀ d, [doubleQuote].head? = some d → isSurrogatePair c d = false := by
      intro d hd
      cases hd
      exact isSurrogatePair_of_lt (.inr (by decide))
    rw [List.flatMap_singleton, read_escapeUnit hpair, hclose]
  | case3 c d s hp ih =>
    obtain ⟨hc, hd⟩ := le_of_isSurrogatePair hp
    have hsplit : (c :: d :: s).flatMap escapeUnit ++ [doubleQuote] = c :: d :: (s.flatMap escapeUnit ++ [doubleQuote]) := by
      rw [List.flatMap_cons, List.flatMap_cons, escapeUnit_of_le hc, escapeUnit_of_le hd]
      rfl
    rw [hsplit, codePoints_pair hp]
    simp [ValueState.read, ValueState.next, ih]
  | case4 c d s hp ih =>
    rw [List.flatMap_cons, List.append_assoc, read_escapeUnit fun e => isSurrogatePair_head_escape (by simpa using hp), ih]
    simp

/-- A plain unit is ASCII and no white space. -/
theorem isPlain_spec (h : isPlain c = true) : c < 0x80 ∧ isWhiteSpace c = false := by
  rw [Bool.eq_false_iff]
  simp only [isPlain, isLetter, isDigit, js, isWhiteSpace, Bool.or_eq_true, Bool.and_eq_true, decide_eq_true_eq,
    UInt16.le_iff_toNat_le, UInt16.lt_iff_toNat_lt, ← UInt16.toNat_inj, List.contains_iff_mem] at h ⊢
  simp [← UInt16.toNat_inj] at h ⊢
  omega

/-- A plain unit is none that is not plain. -/
theorem ne_of_isPlain (h : isPlain c = true) (hd : isPlain d = false) : c ≠ d := by
  rintro rfl
  rw [h] at hd
  nomatch hd

/-- A plain value. -/
theorem read_plain (h : ∀ c ∈ v, isPlain c = true) (output : JsString) :
    ValueState.read ⟨false, false, false, false, output, false, .none⟩ (codePoints v) =
      .ok ⟨false, false, false, false, output ++ v, false, .none⟩ := by
  induction v generalizing output with
  | nil => simp [codePoints, ValueState.read]
  | cons c v ih =>
    obtain ⟨hc, hv⟩ := List.forall_mem_cons.1 h
    have hne : ∀ d, isPlain d = false → c ≠ d := fun d => ne_of_isPlain hc
    have hnext : (⟨false, false, false, false, output, false, .none⟩ : ValueState).next [c] =
        .ok (some ⟨false, false, false, false, output ++ [c], false, .none⟩) := by
      simp [ValueState.next, hne dollar (by decide), hne singleQuote (by decide), hne doubleQuote (by decide),
        hne backslash (by decide), hne space (by decide), hne tab (by decide)]
    rw [codePoints_ascii (isPlain_spec hc).1, ValueState.read, hnext]
    simp [ih hv]

end Almond.ConfigEditor
