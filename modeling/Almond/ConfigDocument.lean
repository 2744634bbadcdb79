import Almond.ConfigSchema

/-! # The document of the configuration editor

An imported text as entries, with the places where each variable is assigned; the form that it fills, the edits of the form, and the
text that the form is written to. -/

namespace Almond.ConfigEditor

/-! ## Entries -/

/-- Where an entry starts. -/
def Entry.start : Entry → Nat
  | .comment start _ => start
  | .blank start _ => start
  | .assignment start _ _ _ _ _ => start
  | .unsupported start _ _ => start

/-- Where an entry ends. -/
def Entry.end : Entry → Nat
  | .comment _ «end» => «end»
  | .blank _ «end» => «end»
  | .assignment _ «end» _ _ _ _ => «end»
  | .unsupported _ «end» _ => «end»

/-- The variable that an entry assigns. -/
def Entry.key? : Entry → Option JsString
  | .assignment _ _ key _ _ _ => some key
  | _ => none

/-- The value that an entry assigns. -/
def Entry.value? : Entry → Option JsString
  | .assignment _ _ _ value _ _ => some value
  | _ => none

/-- Part of a text. -/
def slice (source : JsString) (start «end» : Nat) : JsString :=
  (source.drop start).take («end» - start)

/-- Whether a text ends with another. -/
def endsWith (source suffix : JsString) : Bool :=
  suffix.isSuffixOf source

/-! ## Documents -/

/-- A text, its entries, and the positions of the entries that assign each variable. -/
structure Document where
  source : JsString
  entries : List Entry
  keyOccurrences : List (JsString × List Nat)
  deriving DecidableEq, Repr

/-- The names that a plain object of the page has to begin with. -/
def objectPrototype : List JsString :=
  [js "constructor", js "hasOwnProperty", js "isPrototypeOf", js "propertyIsEnumerable", js "toLocaleString", js "toString",
    js "valueOf", js "__defineGetter__", js "__defineSetter__", js "__lookupGetter__", js "__lookupSetter__", js "__proto__"]

/-- Add a position of a variable. -/
def addOccurrence (key : JsString) (idx : Nat) : List (JsString × List Nat) → List (JsString × List Nat)
  | [] => [(key, [idx])]
  | (k, occ) :: table => if k = key then (k, occ ++ [idx]) :: table else (k, occ) :: addOccurrence key idx table

/-- Collect the positions of some entries. Under a name of every object the table finds what is no list, and `push` throws. -/
def collectOccurrences : Nat → List Entry → List (JsString × List Nat) → Option (List (JsString × List Nat))
  | _, [], table => some table
  | idx, e :: entries, table =>
    match e.key? with
    | none => collectOccurrences (idx + 1) entries table
    | some key => if key ∈ objectPrototype then none else collectOccurrences (idx + 1) entries (addOccurrence key idx table)

/-- The document of a text, or of none. -/
def buildDocument (source : Option JsString) : Option Document :=
  let entries := match source with
    | none => []
    | some text => splitLogicalLines text
  (collectOccurrences 0 entries []).map fun keyOccurrences => ⟨source.getD [], entries, keyOccurrences⟩

/-- The entry that assigns a variable first. -/
def firstOccurrenceValue (doc : Document) (key : JsString) : Option Entry :=
  match doc.keyOccurrences.lookup key with
  | none => none
  | some [] => none
  | some (idx :: _) => doc.entries[idx]?

/-! ## The form -/

/-- What the form holds of each variable. -/
abbrev FieldStates := JsString → FieldState

/-- Every variable is switched off. -/
def resetFieldStates : FieldStates :=
  fun _ => ⟨false, [], false⟩

/-- Change what the form holds of one variable. -/
def FieldStates.set (states : FieldStates) (name : JsString) (state : FieldState) : FieldStates :=
  fun k => if k = name then state else states k

/-- A line that could not be read. -/
structure Unreadable where
  start : Nat
  «end» : Nat
  reason : JsString
  snippet : JsString
  deriving DecidableEq, Repr

/-- What an import reports. -/
structure ImportDiagnostics where
  duplicates : List (JsString × Nat)
  unknown : List JsString
  unsupported : List Unreadable
  deriving DecidableEq, Repr

/-- The state of a variable that an entry assigns. -/
def Entry.fieldState? : Entry → Option FieldState
  | .assignment _ _ _ value hasReference _ => some ⟨true, value, hasReference⟩
  | _ => none

/-- Fill the form from the first assignment of each variable of the schema. -/
def loadFieldStates (doc : Document) : List (JsString × List Nat) → FieldStates → FieldStates
  | [], states => states
  | (key, occ) :: table, states =>
    if (schemaByName key).isNone then loadFieldStates doc table states
    else match occ.head?.bind (doc.entries[·]?) |>.bind Entry.fieldState? with
      | none => loadFieldStates doc table states
      | some state => loadFieldStates doc table (states.set key state)

/-- What the import of a document reports. -/
def importDiagnostics (doc : Document) : ImportDiagnostics :=
  ⟨doc.keyOccurrences.filterMap fun (key, occ) => if 1 < occ.length then some (key, occ.length) else none,
    (doc.keyOccurrences.map Prod.fst).filter fun key => (schemaByName key).isNone,
    doc.entries.filterMap fun
      | .unsupported start «end» reason => some ⟨start, «end», reason, (slice doc.source start «end»).take 160⟩
      | _ => none⟩

/-- Fill the form from a document. -/
def loadFromDocument (doc : Document) : FieldStates × ImportDiagnostics :=
  (loadFieldStates doc doc.keyOccurrences resetFieldStates, importDiagnostics doc)

/-! ## The text of the form -/

/-- Whether the form says something else of a variable than the document. -/
def isEdited (doc : Document) (states : FieldStates) (name : JsString) : Bool :=
  match firstOccurrenceValue doc name with
  | none => (states name).enabled
  | some original => !(states name).enabled || original.value? ≠ some (states name).value

/-- The variables of the form that say something else than the document. -/
def editedKeys (doc : Document) (states : FieldStates) : List JsString :=
  (almondSchema.map SchemaField.name).filter (isEdited doc states)

/-- What an entry is written as. Only the first assignment of an edited variable is written anew. -/
def exportEntry (doc : Document) (states : FieldStates) (entry : Entry) (idx : Nat) : JsString :=
  match entry with
  | .assignment start «end» key _ _ isExport =>
    if (schemaByName key).isNone then slice doc.source start «end»
    else if (doc.keyOccurrences.lookup key).bind List.head? ≠ some idx ∨ key ∉ editedKeys doc states then slice doc.source start «end»
    else match serializeAssignment key (states key) with
      | none => []
      | some line => (if isExport then js "export " else []) ++ line ++ [newline]
  | entry => slice doc.source entry.start entry.end

/-- The variables that are set in the form and nowhere in the document. -/
def newKeys (doc : Document) (states : FieldStates) : List JsString :=
  (almondSchema.map SchemaField.name).filter fun name =>
    name ∈ editedKeys doc states && (doc.keyOccurrences.lookup name).isNone && (states name).enabled

/-- The line of a new variable. -/
def newLine (states : FieldStates) (name : JsString) : JsString :=
  (serializeAssignment name (states name)).getD (js "null") ++ [newline]

/-- What separates the new variables from the text before them. -/
def separator (out : JsString) : JsString :=
  if out ≠ [] ∧ !endsWith out [newline, newline] then
    if endsWith out [newline] then [newline] else [newline, newline]
  else []

/-- The text of the form. -/
def buildExport (doc : Document) (states : FieldStates) : JsString :=
  let out := doc.entries.zipIdx.flatMap fun (entry, idx) => exportEntry doc states entry idx
  if newKeys doc states = [] then out
  else out ++ separator out ++ js "# --- Almond configuration (added by config editor) ---\n" ++
    (newKeys doc states).flatMap (newLine states) ++ js "# --- end Almond configuration ---\n"

end Almond.ConfigEditor
