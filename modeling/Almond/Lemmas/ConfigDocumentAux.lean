import Almond.ConfigDocument
import Almond.Data.Tiling
import Almond.Lemmas.ConfigEditorAux

/-! # Documents and their tables

The entries of a text tile it. The table of a document holds the positions of the assignments of each variable, in order, so the
first of them is the first assignment among the entries, and the form is filled from these. -/

namespace Almond.ConfigEditor

open Tiling

variable {text key name : JsString} {entries : List Entry} {table table' : List (JsString × List Nat)} {doc : Document}
  {states : FieldStates} {e : Entry} {fuel start «end» idx : Nat}

/-! ## Where entries start and end -/

/-- How much of a text an entry takes. -/
def Entry.length (e : Entry) : Nat :=
  e.end - e.start

/-- An entry further on starts further on. -/
@[simp] theorem Entry.start_shift (n : Nat) (e : Entry) : (e.shift n).start = e.start + n := by
  cases e <;> rfl

/-- An entry further on ends further on. -/
@[simp] theorem Entry.end_shift (n : Nat) (e : Entry) : (e.shift n).end = e.end + n := by
  cases e <;> rfl

/-- An entry that was read starts where it was read. -/
@[simp] theorem readEntry_start (start «end» : Nat) (text : JsString) : (readEntry start «end» text).start = start := by
  simp only [readEntry]
  split
  · rfl
  · split <;> rfl

/-- An entry that was read ends where it was read. -/
@[simp] theorem readEntry_end (start «end» : Nat) (text : JsString) : (readEntry start «end» text).end = «end» := by
  simp only [readEntry]
  split
  · rfl
  · split <;> rfl

/-- A logical line stays within its text. -/
theorem consumedEnd_le (fuel : Nat) (state : LineState) (cur : Nat) (text : JsString) :
    (logicalLine fuel state cur text).consumedEnd ≤ cur + text.length := by
  induction fuel generalizing text state cur with
  | zero => exact Nat.le_add_right ..
  | succ fuel ih =>
    have hlength := congrArg List.length (nextPhysicalLine_spec text)
    rw [List.length_append] at hlength
    simp only [logicalLine]
    split
    · exact Nat.le_add_right ..
    · split
      · exact Nat.add_le_add_left (by omega) _
      · exact Nat.add_le_add_left (by omega) _
      · split
        · exact Nat.add_le_add_left (by omega) _
        · refine (ih _ _ _).trans ?_
          omega

/-- The first entry of a text. -/
def headEntry (text : JsString) : Entry :=
  let firstLine := (nextPhysicalLine text).1
  if (skipWs firstLine).head? = some hash then .comment 0 firstLine.length
  else
    let line := logicalLine text.length .complete 0 text
    if line.unterminated then .unsupported 0 line.consumedEnd (js "unterminated quote or trailing escape")
    else readEntry 0 line.consumedEnd (text.take line.parseEnd)

/-- The first entry starts at the start. -/
@[simp] theorem headEntry_start (text : JsString) : (headEntry text).start = 0 := by
  simp only [headEntry]
  split
  · rfl
  · split
    · rfl
    · exact readEntry_start ..

/-- The first entry takes something, and no more than the text. -/
theorem headEntry_end (h : text ≠ []) : 0 < (headEntry text).end ∧ (headEntry text).end ≤ text.length := by
  have hline := congrArg List.length (nextPhysicalLine_spec text)
  have hle := consumedEnd_le text.length .complete 0 text
  have hlt := lt_consumedEnd h le_rfl .complete 0
  rw [List.length_append] at hline
  rw [Nat.zero_add] at hle
  simp only [headEntry]
  split
  · exact ⟨List.length_pos_iff.2 (nextPhysicalLine_ne_nil h), show (nextPhysicalLine text).1.length ≤ text.length by omega⟩
  · split
    · exact ⟨hlt, hle⟩
    · rw [readEntry_end]
      exact ⟨hlt, hle⟩

/-- What follows a line. -/
theorem nextPhysicalLine_snd (text : JsString) : (nextPhysicalLine text).2 = text.drop (nextPhysicalLine text).1.length := by
  have h := congrArg (List.drop (nextPhysicalLine text).1.length) (nextPhysicalLine_spec text)
  rwa [List.drop_left] at h

/-- One entry at a position, and the entries of what it leaves. -/
theorem splitFrom_cons (h : text ≠ []) (fuel start : Nat) : splitFrom (fuel + 1) start text =
    (headEntry text).shift start :: splitFrom fuel (start + (headEntry text).end) (text.drop (headEntry text).end) := by
  by_cases hstart : (skipWs (nextPhysicalLine text).1).head? = some hash
  · obtain ⟨c, rest, rfl⟩ := List.exists_cons_of_ne_nil h
    have hhead : headEntry (c :: rest) = .comment 0 (nextPhysicalLine (c :: rest)).1.length := by
      simp only [headEntry, hstart, if_true]
    rw [hhead]
    simp only [splitFrom, hstart, if_true, Entry.shift, Entry.end, Nat.zero_add, nextPhysicalLine_snd, Nat.add_comm start]
  · have hhead : headEntry text = if (logicalLine text.length .complete 0 text).unterminated then
        .unsupported 0 (logicalLine text.length .complete 0 text).consumedEnd (js "unterminated quote or trailing escape")
        else readEntry 0 (logicalLine text.length .complete 0 text).consumedEnd
          (text.take (logicalLine text.length .complete 0 text).parseEnd) := by
      simp only [headEntry, hstart, if_false]
    rw [splitFrom_of_line h hstart rfl, hhead]
    split
    · simp [Entry.shift, Entry.end, Nat.add_comm]
    · have hshift := readEntry_shift 0 start (logicalLine text.length .complete 0 text).consumedEnd
        (text.take (logicalLine text.length .complete 0 text).parseEnd)
      rw [Nat.zero_add, Nat.zero_add] at hshift
      rw [hshift, readEntry_end]

/-- Each entry starts where the one before it ends, up to the end of the text, and none is empty. -/
theorem splitFrom_contiguous (h : text.length ≤ fuel) (start : Nat) :
    Contiguous Entry.start Entry.length start (splitFrom fuel start text) (start + text.length) ∧
      ∀ e ∈ splitFrom fuel start text, e.start < e.end := by
  induction fuel generalizing start text with
  | zero =>
    obtain rfl := List.length_eq_zero_iff.1 (Nat.le_zero.1 h)
    exact ⟨rfl, fun _ he => nomatch he⟩
  | succ fuel ih =>
    by_cases hne : text = []
    · subst hne
      exact ⟨rfl, fun _ he => nomatch he⟩
    · obtain ⟨hpos, hle⟩ := headEntry_end hne
      have hlength : ((headEntry text).shift start).length = (headEntry text).end := by
        rw [Entry.length, Entry.end_shift, Entry.start_shift, headEntry_start, Nat.zero_add, Nat.add_sub_cancel]
      have hfuel : (text.drop (headEntry text).end).length ≤ fuel := by
        rw [List.length_drop]
        omega
      obtain ⟨hrest, hlt⟩ := ih hfuel (start + (headEntry text).end)
      rw [List.length_drop, Nat.add_assoc, Nat.add_sub_cancel' hle] at hrest
      rw [splitFrom_cons hne]
      refine ⟨⟨?_, ?_⟩, List.forall_mem_cons.2 ⟨?_, hlt⟩⟩
      · rw [Entry.start_shift, headEntry_start, Nat.zero_add]
      · rw [hlength]
        exact hrest
      · rw [Entry.start_shift, Entry.end_shift, headEntry_start]
        omega

/-- The entries of a text tile it. -/
theorem splitLogicalLines_contiguous (text : JsString) :
    Contiguous Entry.start Entry.length 0 (splitLogicalLines text) text.length ∧
      ∀ e ∈ splitLogicalLines text, e.start < e.end := by
  have h := splitFrom_contiguous (Nat.le_refl text.length) 0
  rwa [Nat.zero_add] at h

/-! ## The table of a document -/

/-- The positions of the assignments of a variable. -/
def positions (key : JsString) : Nat → List Entry → List Nat
  | _, [] => []
  | idx, e :: entries => if e.key? = some key then idx :: positions key (idx + 1) entries else positions key (idx + 1) entries

/-- What a table holds of a variable with some positions. -/
def occurrences (positions : List Nat) : Option (List Nat) :=
  if positions = [] then none else some positions

/-- A table after a position was added. -/
theorem lookup_addOccurrence (key k : JsString) (idx : Nat) (table : List (JsString × List Nat)) :
    (addOccurrence key idx table).lookup k = if k = key then some ((table.lookup key).getD [] ++ [idx]) else table.lookup k := by
  induction table with
  | nil =>
    by_cases hk : k = key <;> simp [addOccurrence, hk, List.lookup_cons]
    rw [beq_false_of_ne hk]
  | cons entry table ih =>
    obtain ⟨k', occ⟩ := entry
    rw [addOccurrence]
    by_cases hk' : k' = key
    · subst hk'
      by_cases hk : k = k'
      · simp [hk]
      · simp [List.lookup_cons, beq_false_of_ne hk, hk]
    · rw [if_neg hk', List.lookup_cons, List.lookup_cons, List.lookup_cons, ih, beq_false_of_ne (Ne.symm hk')]
      by_cases hk : k = k'
      · subst hk
        simp [hk']
      · simp [beq_false_of_ne hk]

/-- The variables of a table after a position was added. -/
theorem nodup_addOccurrence (h : (table.map Prod.fst).Nodup) (key : JsString) (idx : Nat) :
    ((addOccurrence key idx table).map Prod.fst).Nodup ∧ ∀ k ∈ (addOccurrence key idx table).map Prod.fst,
      k = key ∨ k ∈ table.map Prod.fst := by
  induction table with
  | nil => simp [addOccurrence]
  | cons entry table ih =>
    obtain ⟨k', occ⟩ := entry
    obtain ⟨hnot, hnodup⟩ := List.nodup_cons.1 h
    rw [addOccurrence]
    split
    · exact ⟨h, fun k hk => .inr hk⟩
    · rename_i hne
      obtain ⟨hrest, hmem⟩ := ih hnodup
      refine ⟨List.nodup_cons.2 ⟨fun hk => ?_, hrest⟩, fun k hk => ?_⟩
      · exact (hmem k' hk).elim hne hnot
      · rcases List.mem_cons.1 hk with rfl | hk
        · exact .inr List.mem_cons_self
        · exact (hmem k hk).imp_right (List.mem_cons_of_mem k')

/-- Positions are collected in order, unless a variable has a name that every object has. -/
theorem collectOccurrences_spec (before : JsString → List Nat) (hbefore : ∀ key, table.lookup key = occurrences (before key))
    (hnodup : (table.map Prod.fst).Nodup) (h : collectOccurrences idx entries table = some table') :
    (∀ key, table'.lookup key = occurrences (before key ++ positions key idx entries)) ∧ (table'.map Prod.fst).Nodup := by
  induction entries generalizing idx table before with
  | nil =>
    cases h
    simpa [positions] using ⟨hbefore, hnodup⟩
  | cons e entries ih =>
    rw [collectOccurrences] at h
    split at h
    · rename_i hkey
      simpa [positions, hkey] using ih before hbefore hnodup h
    · rename_i k hkey
      split at h
      · nomatch h
      · have hadded : ∀ key, (addOccurrence k idx table).lookup key = occurrences (before key ++ if key = k then [idx] else []) := by
          intro key
          rw [lookup_addOccurrence, hbefore, hbefore]
          by_cases hk : key = k
          · subst hk
            by_cases hb : before key = [] <;> simp [occurrences, hb]
          · simp [hk]
        obtain ⟨hlookup, hkeys⟩ := ih _ hadded (nodup_addOccurrence hnodup k idx).1 h
        refine ⟨fun key => ?_, hkeys⟩
        rw [hlookup]
        by_cases hk : key = k
        · simp [positions, hkey, hk]
        · simp [positions, hkey, hk, Ne.symm hk]

/-- Positions are collected exactly when no variable has a name that every object has. -/
theorem collectOccurrences_isSome_iff : (collectOccurrences idx entries table).isSome ↔
    ∀ e ∈ entries, ∀ key, e.key? = some key → key ∉ objectPrototype := by
  induction entries generalizing idx table with
  | nil => simp [collectOccurrences]
  | cons e entries ih =>
    rw [collectOccurrences, List.forall_mem_cons]
    split
    · rename_i hkey
      simp [ih, hkey]
    · rename_i k hkey
      by_cases hk : k ∈ objectPrototype <;> simp [ih, hkey, hk]

/-- A document as it is built. -/
structure Document.Built (doc : Document) : Prop where
  entries_eq : doc.entries = splitLogicalLines doc.source
  lookup_eq : ∀ key, doc.keyOccurrences.lookup key = occurrences (positions key 0 doc.entries)
  nodup : (doc.keyOccurrences.map Prod.fst).Nodup

/-- What is built is a document of its text. -/
theorem built_of_buildDocument (h : buildDocument (some text) = some doc) : doc.Built ∧ doc.source = text := by
  obtain ⟨table, htable, rfl⟩ := Option.map_eq_some_iff.1 h
  obtain ⟨hlookup, hnodup⟩ := collectOccurrences_spec (fun _ => []) (fun _ => rfl)
    (show (([] : List (JsString × List Nat)).map Prod.fst).Nodup from List.nodup_nil) htable
  exact ⟨⟨rfl, hlookup, hnodup⟩, rfl⟩

/-- A text is accepted exactly when none of its variables has a name that every object has. -/
theorem exists_buildDocument_iff : (∃ doc, buildDocument (some text) = some doc) ↔
    ∀ e ∈ splitLogicalLines text, ∀ key, e.key? = some key → key ∉ objectPrototype := by
  have h : (buildDocument (some text)).isSome = (collectOccurrences 0 (splitLogicalLines text) []).isSome := Option.isSome_map
  rw [← Option.isSome_iff_exists, h, collectOccurrences_isSome_iff]

/-! ## First assignments -/

/-- Whether an entry assigns a variable. -/
def Entry.assigns (key : JsString) (e : Entry) : Bool :=
  e.key? = some key

/-- A position is not before the first entry. -/
theorem le_of_mem_positions {i : Nat} (h : i ∈ positions key idx entries) : idx ≤ i := by
  induction entries generalizing idx with
  | nil => nomatch h
  | cons e entries ih =>
    rw [positions] at h
    split at h
    · rcases List.mem_cons.1 h with rfl | h
      · exact le_rfl
      · exact (Nat.le_succ idx).trans (ih h)
    · exact (Nat.le_succ idx).trans (ih h)

/-- The first position is that of the first assignment. -/
theorem positions_head : (positions key idx entries).head?.bind (fun i => entries[i - idx]?) = entries.find? (Entry.assigns key) := by
  induction entries generalizing idx with
  | nil => rfl
  | cons e entries ih =>
    by_cases hkey : e.key? = some key
    · simp [positions, Entry.assigns, hkey]
    · rw [positions, if_neg hkey, List.find?_cons_of_neg (by simp [Entry.assigns, hkey]), ← @ih (idx + 1)]
      cases hhead : (positions key (idx + 1) entries).head? with
      | none => rfl
      | some i =>
        have hle := le_of_mem_positions (List.mem_of_mem_head? hhead)
        obtain ⟨j, rfl⟩ := Nat.exists_eq_add_of_le hle
        have hsub : idx + 1 + j - idx = (idx + 1 + j - (idx + 1)) + 1 := by omega
        simp only [Option.bind_some, hsub, List.getElem?_cons_succ]

/-- What an entry that assigns a variable makes the form hold. -/
theorem exists_fieldState (h : Entry.assigns key e = true) : ∃ state, e.fieldState? = some state ∧ state.enabled = true ∧
    e.value? = some state.value := by
  cases e with
  | assignment => exact ⟨_, rfl, rfl, rfl⟩
  | comment => nomatch h
  | blank => nomatch h
  | unsupported => nomatch h

/-- What a document says of a variable: its first assignment. -/
def Document.effective (doc : Document) (key : JsString) : Option FieldState :=
  (doc.entries.find? (Entry.assigns key)).bind Entry.fieldState?

namespace Document.Built

/-- The first occurrence of a variable is its first assignment. -/
theorem firstOccurrenceValue_eq (h : doc.Built) (key : JsString) :
    firstOccurrenceValue doc key = doc.entries.find? (Entry.assigns key) := by
  have hhead : (positions key 0 doc.entries).head?.bind (fun i => doc.entries[i - 0]?) = doc.entries.find? (Entry.assigns key) :=
    positions_head
  rw [← hhead, firstOccurrenceValue, h.lookup_eq, occurrences]
  cases positions key 0 doc.entries <;> simp

end Document.Built

/-- The form is filled from the table, each variable of the schema from its first position. -/
theorem loadFieldStates_eq (h : (table.map Prod.fst).Nodup) (states : FieldStates) (name : JsString) :
    loadFieldStates doc table states name =
      if (schemaByName name).isNone then states name
      else (((table.lookup name).bind List.head?).bind (doc.entries[·]?) |>.bind Entry.fieldState?).getD (states name) := by
  induction table generalizing states with
  | nil => simp [loadFieldStates]
  | cons row table ih =>
    obtain ⟨key, occ⟩ := row
    obtain ⟨hnot, hnodup⟩ := List.nodup_cons.1 h
    have hnone : table.lookup key = none := by
      refine List.lookup_eq_none_iff.2 fun row hrow => bne_iff_ne.2 fun heq => hnot ?_
      exact List.mem_map.2 ⟨row, hrow, heq.symm⟩
    rw [loadFieldStates]
    by_cases hname : name = key
    · subst hname
      cases hschema : (schemaByName name).isNone with
      | true => simp [ih hnodup, hschema]
      | false =>
        cases hstate : (occ.head?.bind (doc.entries[·]?)).bind Entry.fieldState? <;>
          simp [ih hnodup, hschema, hnone, hstate, FieldStates.set]
    · rw [List.lookup_cons, beq_false_of_ne hname]
      split
      · rw [ih hnodup]
      · cases (occ.head?.bind (doc.entries[·]?)).bind Entry.fieldState? with
        | none => exact ih hnodup states
        | some state =>
          have hset : states.set key state name = states name := if_neg hname
          rw [← hset]
          exact ih hnodup (states.set key state)

namespace Document.Built

/-- The form holds of each variable of the schema what the document says of it. -/
theorem loadFromDocument_eq (h : doc.Built) (name : JsString) : (loadFromDocument doc).1 name =
    if (schemaByName name).isNone then ⟨false, [], false⟩ else (doc.effective name).getD ⟨false, [], false⟩ := by
  have hfirst : ((doc.keyOccurrences.lookup name).bind List.head?).bind (doc.entries[·]?) =
      doc.entries.find? (Entry.assigns name) := by
    rw [← h.firstOccurrenceValue_eq, firstOccurrenceValue]
    cases doc.keyOccurrences.lookup name with
    | none => rfl
    | some occ => cases occ <;> rfl
  simp only [loadFromDocument, loadFieldStates_eq h.nodup, hfirst]
  rfl

end Document.Built

/-! ## The text of the form -/

/-- A variable of the schema is found by its name. -/
theorem schemaByName_isNone_of_mem (h : name ∈ almondSchema.map SchemaField.name) : (schemaByName name).isNone = false := by
  obtain ⟨f, hf, rfl⟩ := List.mem_map.1 h
  rw [← Bool.not_eq_true, schemaByName, Option.isNone_iff_eq_none, List.find?_eq_none]
  exact fun hnone => hnone f hf (by simp)

/-- What the form is filled with is not edited. -/
theorem Document.Built.isEdited_loadFromDocument (h : doc.Built) (hname : name ∈ almondSchema.map SchemaField.name) :
    isEdited doc (loadFromDocument doc).1 name = false := by
  rw [isEdited, h.firstOccurrenceValue_eq, h.loadFromDocument_eq, schemaByName_isNone_of_mem hname, Document.effective]
  cases hfirst : doc.entries.find? (Entry.assigns name) with
  | none => rfl
  | some e =>
    obtain ⟨state, hstate, henabled, hvalue⟩ := exists_fieldState (List.find?_some hfirst)
    simp [hstate, henabled, hvalue]

/-- A form that says what its document says is written as the text of the document. -/
theorem buildExport_of_not_edited (h : doc.Built)
    (hedited : ∀ name ∈ almondSchema.map SchemaField.name, isEdited doc states name = false) :
    buildExport doc states = doc.source := by
  have hkeys : editedKeys doc states = [] := List.filter_eq_nil_iff.2 fun name hname => by simp [hedited name hname]
  have hentry : ∀ e idx, exportEntry doc states e idx = slice doc.source e.start e.end := by
    intro e idx
    cases e <;> simp [exportEntry, hkeys, Entry.start, Entry.end]
  have hnew : newKeys doc states = [] := List.filter_eq_nil_iff.2 fun name _ => by simp [hkeys]
  have htiles := (splitLogicalLines_contiguous doc.source).1.flatMap_slices
  have hslices : (doc.entries.zipIdx.flatMap fun e => exportEntry doc states e.1 e.2) =
      doc.entries.flatMap fun e => slice doc.source e.start e.end := by
    simp only [hentry]
    conv_rhs => rw [← List.zipIdx_map_fst 0 doc.entries, List.flatMap_map]
  have hexport : buildExport doc states = doc.entries.zipIdx.flatMap fun e => exportEntry doc states e.1 e.2 := if_pos hnew
  rw [hexport, hslices, h.entries_eq]
  exact htiles

end Almond.ConfigEditor
