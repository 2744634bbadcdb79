import Almond.Basic

/-! # The blob-name grammar

`<hash>[_<expiration>][.<extension>]`, and the two-level fan-out prefix of a hash. -/

namespace Almond.BlobName

/-- `HASH_LEN`. -/
def hashLen : Nat := 64

/-- The three parts of a blob name. -/
structure ParsedName where
  hash : Str
  expiration : Option Nat
  extension : Option Str
  deriving DecidableEq, Repr

/-- A lowercase hexadecimal digit. -/
def isLowerHex (c : Char) : Bool :=
  c.isDigit || ('a' ≤ c && c ≤ 'f')

/-- Exactly 64 lowercase hexadecimal characters. -/
def isValidHash (hash : Str) : Bool :=
  hash.length == hashLen && hash.all isLowerHex

/-- Fail with `BadRequest` unless the hash satisfies the policy. -/
def requireHash (hash : Str) : AppResult Unit :=
  if isValidHash hash then .ok () else .error (.badRequest "Invalid SHA-256 hash")

/-- What follows the hash in a blob name. -/
def suffix : Option Nat → Option Str → Str
  | some expiration, some extension => '_' :: decimal expiration ++ '.' :: extension
  | some expiration, none => '_' :: decimal expiration
  | none, some extension => '.' :: extension
  | none, none => []

/-- Build `<hash>[_<expiration>][.<extension>]`. -/
def name (hash : Str) (expiration : Option Nat) (extension : Option Str) : AppResult Str := do
  requireHash hash
  return hash ++ suffix expiration extension

/-- The expiration and the extension that follow a hash. -/
def parseRest (rest : Str) : Option (Option Nat × Option Str) :=
  match rest with
  | [] => some (none, none)
  | '_' :: afterUnderscore =>
    let (digits, extension) := match splitOnce '.' afterUnderscore with
      | none => (afterUnderscore, none)
      | some (digits, ext) => (digits, some ext)
    if digits = [] ∨ ¬ digits.all Char.isDigit then none
    else (parseU64 digits).map fun n => (some n, extension)
  | '.' :: extension => some (none, some extension)
  | _ => none

/-- `str::get(..n)` with what follows it: `n` counts bytes, and there is nothing when it cuts a character or runs past the end. -/
def splitAtByte : Nat → Str → Option (Str × Str)
  | 0, s => some ([], s)
  | _ + 1, [] => none
  | n + 1, c :: s =>
    if c.utf8Size ≤ n + 1 then (splitAtByte (n + 1 - c.utf8Size) s).map fun (head, rest) => (c :: head, rest) else none

/-- Parse a blob name back into its parts. The source cuts at a byte; a head that is a valid hash has as many characters. -/
def parse (name : Str) : Option ParsedName :=
  let hash := name.take hashLen
  if isValidHash hash then
    (parseRest (name.drop hashLen)).map fun (expiration, extension) => ⟨hash, expiration, extension⟩
  else none

/-- The fan-out directories of a hash: its first two characters. -/
def fanOut (hash : Str) : AppResult (Str × Str) := do
  requireHash hash
  return (hash.take 1, (hash.drop 1).take 1)

/-! ## The grammar's facts -/

/-- The length of a valid hash. -/
theorem length_of_isValidHash {hash : Str} (h : isValidHash hash = true) : hash.length = hashLen := by
  simp only [isValidHash, Bool.and_eq_true, beq_iff_eq] at h
  exact h.1

/-- The name of a valid hash starts with the hash. -/
theorem name_eq {hash : Str} (h : isValidHash hash = true) (e : Option Nat) (x : Option Str) :
    name hash e x = .ok (hash ++ suffix e x) := by
  simp only [name, requireHash, h, if_true]
  rfl

/-- The fan-out of a valid hash. -/
theorem fanOut_eq {hash : Str} (h : isValidHash hash = true) : fanOut hash = .ok (hash.take 1, (hash.drop 1).take 1) := by
  simp only [fanOut, requireHash, h, if_true]
  rfl

/-- What `parse` reads starts with the hash it returns, and the hash is valid. -/
theorem parse_eq_some {n : Str} {p : ParsedName} (h : parse n = some p) :
    isValidHash p.hash = true ∧ n = p.hash ++ n.drop hashLen ∧
      parseRest (n.drop hashLen) = some (p.expiration, p.extension) := by
  simp only [parse] at h
  split at h
  · rename_i hv
    obtain ⟨⟨e, x⟩, hr, hp⟩ := Option.map_eq_some_iff.1 h
    subst hp
    exact ⟨hv, (List.take_append_drop hashLen n).symm, hr⟩
  · nomatch h

/-- What may follow a hash in a blob name: nothing, or text after `_` or `.`. -/
theorem head_of_parseRest {rest : Str} {x : Option Nat × Option Str} (h : parseRest rest = some x) :
    rest = [] ∨ rest.head? = some '_' ∨ rest.head? = some '.' := by
  unfold parseRest at h
  split at h
  · exact .inl rfl
  · exact .inr (.inl rfl)
  · exact .inr (.inr rfl)
  · nomatch h

/-- A name that is built from a hash continues with nothing, `_` or `.`. -/
theorem head_of_suffix (e : Option Nat) (x : Option Str) :
    suffix e x = [] ∨ (suffix e x).head? = some '_' ∨ (suffix e x).head? = some '.' := by
  cases e <;> cases x <;> simp [suffix]

end Almond.BlobName
