import Almond.Basic

/-! # The configuration editor

The page that edits an environment file reads it as the server's library does: how a text is cut into logical lines, how an
assignment is read, and how a value is quoted. Its strings are sequences of UTF-16 code units. -/

namespace Almond.ConfigEditor

/-! ## Strings -/

/-- A UTF-16 code unit. -/
abbrev CodeUnit := UInt16

/-- A string of the page. -/
abbrev JsString := List CodeUnit

/-- Strings of the page are equal when a comparison says so. -/
instance : LawfulBEq JsString :=
  inferInstance

/-- An ASCII literal. -/
def js (text : String) : JsString :=
  text.toList.map fun c => c.toNat.toUInt16

def newline : CodeUnit := 0x0A
def carriageReturn : CodeUnit := 0x0D
def space : CodeUnit := 0x20
def tab : CodeUnit := 0x09
def doubleQuote : CodeUnit := 0x22
def hash : CodeUnit := 0x23
def dollar : CodeUnit := 0x24
def singleQuote : CodeUnit := 0x27
def equals : CodeUnit := 0x3D
def backslash : CodeUnit := 0x5C
def letterN : CodeUnit := 0x6E
def openBrace : CodeUnit := 0x7B
def closeBrace : CodeUnit := 0x7D

/-- `\s`, and what `trim` removes: white space and line terminators. -/
def isWhiteSpace (c : CodeUnit) : Bool :=
  (0x09 ≤ c && c ≤ 0x0D) || c = 0x20 || c = 0xA0 || c = 0x1680 || (0x2000 ≤ c && c ≤ 0x200A) || c = 0x2028 || c = 0x2029 ||
    c = 0x202F || c = 0x205F || c = 0x3000 || c = 0xFEFF

/-- White space that does not end a line. -/
def isWsNotNewline (c : CodeUnit) : Bool :=
  isWhiteSpace c && c ≠ newline && c ≠ carriageReturn

/-- `[A-Za-z]`. -/
def isLetter (c : CodeUnit) : Bool :=
  (0x41 ≤ c && c ≤ 0x5A) || (0x61 ≤ c && c ≤ 0x7A)

/-- `[0-9]`. -/
def isDigit (c : CodeUnit) : Bool :=
  0x30 ≤ c && c ≤ 0x39

/-- A string without the white space at its start. -/
def skipWs (s : JsString) : JsString :=
  s.dropWhile isWhiteSpace

/-- A string without the white space at its end. -/
def trimEnd (s : JsString) : JsString :=
  (s.reverse.dropWhile isWhiteSpace).reverse

/-- Whether two code units are a surrogate pair. -/
def isSurrogatePair (c d : CodeUnit) : Bool :=
  0xD800 ≤ c && c ≤ 0xDBFF && 0xDC00 ≤ d && d ≤ 0xDFFF

/-- The characters of a string: a surrogate pair is one of them, and so is any other code unit. -/
def codePoints : JsString → List JsString
  | [] => []
  | [c] => [[c]]
  | c :: d :: s =>
    if isSurrogatePair c d then [c, d] :: codePoints s
    else [c] :: codePoints (d :: s)

/-! ## Logical lines -/

/-- Where a line reader stands between two code units. -/
inductive LineState where
  | whiteSpace
  | escape
  | complete
  | weakOpen
  | weakOpenEscape
  | strongOpen
  | strongOpenEscape
  deriving DecidableEq, Repr

/-- The state after a code unit that begins no comment. -/
def LineState.next : LineState → CodeUnit → LineState
  | .whiteSpace, c =>
    if c = backslash then .escape else if c = doubleQuote then .weakOpen else if c = singleQuote then .strongOpen else .complete
  | .escape, _ => .complete
  | .complete, c =>
    if isWsNotNewline c then .whiteSpace else if c = backslash then .escape else if c = doubleQuote then .weakOpen
    else if c = singleQuote then .strongOpen else .complete
  | .weakOpen, c => if c = backslash then .weakOpenEscape else if c = doubleQuote then .complete else .weakOpen
  | .weakOpenEscape, _ => .weakOpen
  | .strongOpen, c => if c = backslash then .strongOpenEscape else if c = singleQuote then .complete else .strongOpen
  | .strongOpenEscape, _ => .strongOpen

/-- How a physical line ends. -/
inductive LineEnd where
  /-- In a state that the next line goes on from. -/
  | left (state : LineState)
  /-- With a comment, which begins at an offset. -/
  | comment (pos : Nat)
  deriving DecidableEq, Repr

/-- Read one physical line from a state. -/
def evalEndState : LineState → JsString → LineEnd
  | cur, [] => .left cur
  | cur, c :: chunk =>
    if cur = .whiteSpace ∧ c = hash then .comment 0
    else match evalEndState (cur.next c) chunk with
      | .left state => .left state
      | .comment pos => .comment (pos + 1)

/-- The first physical line with its newline, and what follows it. -/
def nextPhysicalLine : JsString → JsString × JsString
  | [] => ([], [])
  | c :: text =>
    if c = newline then ([c], text)
    else
      let (line, rest) := nextPhysicalLine text
      (c :: line, rest)

/-- Where a logical line ends: its value text, and what belongs to its entry. -/
structure LogicalLine where
  parseEnd : Nat
  consumedEnd : Nat
  unterminated : Bool
  deriving DecidableEq, Repr

/-- Join physical lines until a value is complete. The number of code units bounds the number of lines. -/
def logicalLine : Nat → LineState → Nat → JsString → LogicalLine
  | 0, _, cur, _ => ⟨cur, cur, true⟩
  | fuel + 1, state, cur, text =>
    let (chunk, rest) := nextPhysicalLine text
    let lineEnd := cur + chunk.length
    if chunk = [] then ⟨cur, cur, true⟩
    else match evalEndState state chunk with
      | .left .complete => ⟨lineEnd, lineEnd, false⟩
      | .comment pos => ⟨cur + pos, lineEnd, false⟩
      | .left state => if rest = [] then ⟨lineEnd, lineEnd, true⟩ else logicalLine fuel state lineEnd rest

/-! ## Values -/

/-- Where a value reader stands in a reference to a variable. -/
inductive SubMode where
  | none
  | block
  | escapedBlock
  deriving DecidableEq, Repr

/-- The state of a value reader. -/
structure ValueState where
  strongQuote : Bool
  weakQuote : Bool
  escaped : Bool
  expectingEnd : Bool
  output : JsString
  hasReference : Bool
  subMode : SubMode
  deriving DecidableEq, Repr

/-- A value reader at the start. -/
def ValueState.start : ValueState := ⟨false, false, false, false, [], false, .none⟩

/-- One character of a value: an error, or the state after it, unless the value ends before it. -/
def ValueState.next (s : ValueState) (c : JsString) : Except JsString (Option ValueState) :=
  if s.expectingEnd then
    if c = [space] ∨ c = [tab] then .ok (some s)
    else if c = [hash] then .ok none
    else .error (js "unexpected character after value: '" ++ c ++ js "'")
  else if s.escaped then
    if c = [backslash] ∨ c = [singleQuote] ∨ c = [doubleQuote] ∨ c = [dollar] ∨ c = [space] then
      .ok (some { s with output := s.output ++ c, escaped := false })
    else if c = [letterN] then .ok (some { s with output := s.output ++ [newline], escaped := false })
    else .error (js "invalid escape sequence \\" ++ c)
  else if s.strongQuote then
    if c = [singleQuote] then .ok (some { s with strongQuote := false })
    else .ok (some { s with output := s.output ++ c })
  else if s.subMode ≠ .none then
    if c.any fun u => isLetter u || isDigit u then .ok (some s)
    else if s.subMode = .block then
      if c = [openBrace] then .ok (some { s with subMode := .escapedBlock })
      else if c = [dollar] then
        .ok (some { s with hasReference := true, subMode := if !s.strongQuote && !s.escaped then .block else .none })
      else .ok (some { s with hasReference := true, subMode := .none, output := s.output ++ c })
    else if c = [closeBrace] then .ok (some { s with subMode := .none, hasReference := true })
    else .ok (some s)
  else if c = [dollar] then .ok (some { s with subMode := if !s.strongQuote && !s.escaped then .block else .none })
  else if s.weakQuote then
    if c = [doubleQuote] then .ok (some { s with weakQuote := false })
    else if c = [backslash] then .ok (some { s with escaped := true })
    else .ok (some { s with output := s.output ++ c })
  else if c = [singleQuote] then .ok (some { s with strongQuote := true })
  else if c = [doubleQuote] then .ok (some { s with weakQuote := true })
  else if c = [backslash] then .ok (some { s with escaped := true })
  else if c = [space] ∨ c = [tab] then .ok (some { s with expectingEnd := true })
  else .ok (some { s with output := s.output ++ c })

/-- A value reader over some characters. -/
def ValueState.read : ValueState → List JsString → Except JsString ValueState
  | s, [] => .ok s
  | s, c :: chars =>
    match s.next c with
    | .error e => .error e
    | .ok none => .ok s
    | .ok (some s) => s.read chars

/-- A value, and whether it refers to a variable. -/
structure ParsedValue where
  value : JsString
  hasReference : Bool
  deriving DecidableEq, Repr

/-- Read a value. -/
def parseValue (input : JsString) : Except JsString ParsedValue :=
  match ValueState.start.read (codePoints input) with
  | .error e => .error e
  | .ok s =>
    if s.subMode = .escapedBlock ∨ s.strongQuote ∨ s.weakQuote then
      .error (js "unterminated quote or $\x7b...\x7d reference")
    else .ok ⟨s.output, s.hasReference || s.subMode = .block⟩

/-! ## Assignments -/

/-- What an assignment says. -/
structure Assignment where
  key : JsString
  value : JsString
  hasReference : Bool
  isExport : Bool
  deriving DecidableEq, Repr

/-- `[A-Za-z_]`. -/
def isKeyStart (c : CodeUnit) : Bool :=
  isLetter c || c = 0x5F

/-- `[A-Za-z0-9_.]`. -/
def isKeyUnit (c : CodeUnit) : Bool :=
  isLetter c || isDigit c || c = 0x5F || c = 0x2E

/-- Read a variable name; returns what follows it. -/
def parseKey : JsString → Option (JsString × JsString)
  | [] => none
  | c :: line => if isKeyStart c then some ((c :: line).span isKeyUnit) else none

/-- Read an equals sign; returns what follows it. -/
def expectEqual : JsString → Option JsString
  | [] => none
  | c :: line => if c = equals then some line else none

/-- Read what follows the equals sign. The text of a value that refers to a variable is kept as it is. -/
def parseAssigned (key line : JsString) (isExport : Bool) : Except JsString Assignment :=
  let line := skipWs line
  if line = [] ∨ line.head? = some hash then .ok ⟨key, [], false, isExport⟩
  else match parseValue line with
    | .error e => .error e
    | .ok parsed => .ok ⟨key, if parsed.hasReference then line else parsed.value, parsed.hasReference, isExport⟩

/-- Read an assignment. -/
def parseAssignment (text : JsString) : Except JsString Assignment :=
  match parseKey (skipWs text) with
  | none => .error (js "line does not start with a variable name")
  | some (key, line) =>
    let line := skipWs line
    match expectEqual line with
    | some line => parseAssigned key line false
    | none =>
      if key = js "export" then
        match parseKey line with
        | none => .error (js "`export` not followed by a variable name")
        | some (key, line) =>
          match expectEqual (skipWs line) with
          | none => .error (js "expected '=' after variable name")
          | some line => parseAssigned key line true
      else .error (js "expected '=' after variable name")

/-! ## Entries -/

/-- An entry of a text, from an offset to an offset. -/
inductive Entry where
  | comment (start «end» : Nat)
  | blank (start «end» : Nat)
  | assignment (start «end» : Nat) (key value : JsString) (hasReference isExport : Bool)
  | unsupported (start «end» : Nat) (reason : JsString)
  deriving DecidableEq, Repr

/-- The entry of the value text of a logical line. -/
def readEntry (start «end» : Nat) (valueParseText : JsString) : Entry :=
  let trimmed := trimEnd valueParseText
  if skipWs trimmed = [] then .blank start «end»
  else match parseAssignment trimmed with
    | .error reason => .unsupported start «end» reason
    | .ok parsed => .assignment start «end» parsed.key parsed.value parsed.hasReference parsed.isExport

/-- The entries of the rest of a text, which begins at an offset. The number of code units bounds the number of entries. -/
def splitFrom : Nat → Nat → JsString → List Entry
  | 0, _, _ => []
  | _, _, [] => []
  | fuel + 1, start, text =>
    let (firstLine, rest) := nextPhysicalLine text
    if (skipWs firstLine).head? = some hash then
      .comment start (start + firstLine.length) :: splitFrom fuel (start + firstLine.length) rest
    else
      let line := logicalLine text.length .complete 0 text
      let entry :=
        if line.unterminated then .unsupported start (start + line.consumedEnd) (js "unterminated quote or trailing escape")
        else readEntry start (start + line.consumedEnd) (text.take line.parseEnd)
      entry :: splitFrom fuel (start + line.consumedEnd) (text.drop line.consumedEnd)

/-- Cut a text into entries. -/
def splitLogicalLines (source : JsString) : List Entry :=
  splitFrom source.length 0 source

/-! ## Quoting -/

/-- `[A-Za-z0-9_.\-\/:@%+,]`. -/
def isPlain (c : CodeUnit) : Bool :=
  isLetter c || isDigit c || (js "_.-/:@%+,").contains c

/-- Replace every occurrence of a code unit. -/
def replaceUnit (c : CodeUnit) (replacement : JsString) (s : JsString) : JsString :=
  s.flatMap fun u => if u = c then replacement else [u]

/-- Quote a value. -/
def chooseQuoting (value : JsString) : JsString :=
  if value = [] then []
  else if value.all isPlain then value
  else if singleQuote ∉ value then singleQuote :: value ++ [singleQuote]
  else
    let escaped := replaceUnit newline [backslash, letterN] (replaceUnit dollar [backslash, dollar]
      (replaceUnit doubleQuote [backslash, doubleQuote] (replaceUnit backslash [backslash, backslash] value)))
    doubleQuote :: escaped ++ [doubleQuote]

/-- What the form holds of a variable. -/
structure FieldState where
  enabled : Bool
  value : JsString
  hasReference : Bool
  deriving DecidableEq, Repr

/-- The line of a variable, unless it is switched off. A value that refers to a variable is written as it is. -/
def serializeAssignment (name : JsString) (state : FieldState) : Option JsString :=
  if !state.enabled then none
  else if state.hasReference then some (name ++ equals :: state.value)
  else some (name ++ equals :: chooseQuoting state.value)

end Almond.ConfigEditor
