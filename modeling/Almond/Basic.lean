import Mathlib.Algebra.Ring.Nat
import Mathlib.Data.Char
import Mathlib.Data.List.AList
import Mathlib.Data.List.Lex

/-! # Texts, paths, machine integers and errors -/

namespace Almond

/-- File names, object keys, hashes and header values: sequences of characters. -/
abbrev Str := List Char

/-- The contents of files and objects. -/
abbrev Bytes := List UInt8

/-- A file-system path, by its components. -/
abbrev Path := List Str

/-- Texts are equal when a comparison says so. -/
instance : LawfulBEq Str :=
  inferInstance

/-- Paths are equal when a comparison says so. -/
instance : LawfulBEq Path :=
  inferInstance

/-- A path as the error messages print it. -/
def display (p : Path) : String :=
  String.ofList (List.flatten (p.map fun c => '/' :: c))

/-- The text of a sequence of characters. -/
def text (s : Str) : String :=
  String.ofList s

/-- The order of strings, by their characters. -/
def strLe : Str → Str → Bool
  | [], _ => true
  | _ :: _, [] => false
  | a :: as, b :: bs => if a = b then strLe as bs else a.toNat ≤ b.toNat

/-- `str::split_once`: the text before the first separator, and the text after it. -/
def splitOnce (c : Char) (s : Str) : Option (Str × Str) :=
  match s.dropWhile (· ≠ c) with
  | [] => none
  | _ :: rest => some (s.takeWhile (· ≠ c), rest)

/-- `char::is_whitespace`: the property `White_Space` of Unicode. -/
def isWhitespace (c : Char) : Bool :=
  let n := c.toNat
  (0x09 ≤ n && n ≤ 0x0D) || n = 0x20 || n = 0x85 || n = 0xA0 || n = 0x1680 || (0x2000 ≤ n && n ≤ 0x200A) || n = 0x2028 || n = 0x2029 ||
    n = 0x202F || n = 0x205F || n = 0x3000

/-- `str::trim`. -/
def trim (s : Str) : Str :=
  ((s.dropWhile isWhitespace).reverse.dropWhile isWhitespace).reverse

/-- `str::strip_prefix`. -/
def stripPrefix (p s : Str) : Option Str :=
  if p.isPrefixOf s then some (s.drop p.length) else none

/-- `str::trim_end_matches` of one character. -/
def trimEndMatches (c : Char) (s : Str) : Str :=
  (s.reverse.dropWhile (· = c)).reverse

/-- The number of bytes of a text. -/
def byteLen (s : Str) : Nat :=
  (s.map Char.utf8Size).sum

/-! ## Hash maps -/

/-- `HashMap::retain`. -/
def retain {κ : Type} {β : Type} (p : κ → β → Bool) (m : AList fun _ : κ => β) : AList fun _ : κ => β :=
  ⟨m.entries.filter fun e => p e.1 e.2, m.nodupKeys.sublist List.filter_sublist⟩

/-- What `retain` keeps. -/
theorem lookup_retain_eq_some {κ : Type} {β : Type} [DecidableEq κ] {p : κ → β → Bool} {m : AList fun _ : κ => β} {k : κ}
    {b : β} : (retain p m).lookup k = some b ↔ m.lookup k = some b ∧ p k b = true := by
  rw [← Option.mem_def, ← Option.mem_def, AList.mem_lookup_iff, AList.mem_lookup_iff]
  exact List.mem_filter

/-! ## Unsigned 64-bit arithmetic -/

/-- The largest `u64`. -/
def u64Max : Nat := 2 ^ 64 - 1

/-- `u64::checked_add`. -/
def checkedAdd (a b : Nat) : Option Nat :=
  if a + b ≤ u64Max then some (a + b) else none

/-- The sum of two `u64`s in a release build, which wraps around. -/
def wrappingAdd (a b : Nat) : Nat :=
  (a + b) % (u64Max + 1)

/-- `u64::saturating_add`. -/
def saturatingAdd (a b : Nat) : Nat :=
  min (a + b) u64Max

/-- `u64::saturating_mul`. -/
def saturatingMul (a b : Nat) : Nat :=
  min (a * b) u64Max

/-- The value of a decimal digit. -/
def digitValue (c : Char) : Nat :=
  c.toNat - '0'.toNat

/-- The value of a run of decimal digits. -/
def digitsValue (s : Str) : Nat :=
  s.foldl (fun n c => 10 * n + digitValue c) 0

/-- The digits of a number that may start with `+`. -/
def unsigned : Str → Str
  | '+' :: rest => rest
  | s => s

/-- `str::parse::<u64>`: an optional `+`, then one or more decimal digits whose value fits. -/
def parseU64 (s : Str) : Option Nat :=
  if unsigned s ≠ [] ∧ (unsigned s).all Char.isDigit ∧ digitsValue (unsigned s) ≤ u64Max then
    some (digitsValue (unsigned s))
  else none

/-- A number as `format!` prints it. -/
def decimal (n : Nat) : Str :=
  Nat.toDigits 10 n

/-- A checked sum is the sum, and fits. -/
theorem checkedAdd_eq_some {a b c : Nat} : checkedAdd a b = some c ↔ c = a + b ∧ a + b ≤ u64Max := by
  unfold checkedAdd
  by_cases h : a + b ≤ u64Max
  · rw [if_pos h, Option.some.injEq]
    exact ⟨fun hc => ⟨hc.symm, h⟩, fun hc => hc.1.symm⟩
  · rw [if_neg h]
    exact ⟨nofun, fun hc => absurd hc.2 h⟩

/-- A wrapping sum that fits is the sum. -/
theorem wrappingAdd_eq {a b : Nat} (h : a + b ≤ u64Max) : wrappingAdd a b = a + b :=
  Nat.mod_eq_of_lt (Nat.lt_succ_of_le h)

/-- A saturating sum that fits is the sum. -/
theorem saturatingAdd_eq {a b : Nat} (h : a + b ≤ u64Max) : saturatingAdd a b = a + b :=
  Nat.min_eq_left h

/-- What `parse` returns fits. -/
theorem parseU64_le {s : Str} {n : Nat} (h : parseU64 s = some n) : n ≤ u64Max := by
  unfold parseU64 at h
  split at h
  · rename_i hc
    exact Option.some.inj h ▸ hc.2.2
  · nomatch h

/-! ## Errors -/

/-- The kinds of `std::io::Error` that the program tells apart. -/
inductive IoErrorKind where
  | notFound
  | other
  deriving DecidableEq, Repr

/-- A failed file operation. -/
structure IoError where
  kind : IoErrorKind
  message : String
  deriving DecidableEq, Repr

/-- `AppError`. -/
inductive AppError where
  | unauthorized (msg : String)
  | forbidden (msg : String)
  | paymentRequired (amountSats : Nat) (unit : String) (mints : List String)
  | badRequest (msg : String)
  | lengthRequired (msg : String)
  | payloadTooLarge (msg : String)
  | notFound (msg : String)
  | conflict (msg : String)
  | insufficientStorage (msg : String)
  | ioError (msg : String)
  | networkError (msg : String)
  | timeout (msg : String)
  | badGateway (msg : String)
  | serviceUnavailable (msg : String)
  | internalError (msg : String)
  deriving DecidableEq, Repr

/-- The text of an error. -/
def AppError.toText : AppError → String
  | .unauthorized msg => "Unauthorized: " ++ msg
  | .forbidden msg => "Forbidden: " ++ msg
  | .paymentRequired amountSats unit mints =>
    let mintList := String.intercalate ", " mints
    s!"Payment required: {amountSats} {unit} (mints: {mintList})"
  | .badRequest msg => "Bad request: " ++ msg
  | .lengthRequired msg => "Length required: " ++ msg
  | .payloadTooLarge msg => "Payload too large: " ++ msg
  | .notFound msg => "Not found: " ++ msg
  | .conflict msg => "Conflict: " ++ msg
  | .insufficientStorage msg => "Insufficient storage: " ++ msg
  | .ioError msg => "I/O error: " ++ msg
  | .networkError msg => "Network error: " ++ msg
  | .timeout msg => "Timeout: " ++ msg
  | .badGateway msg => "Bad gateway: " ++ msg
  | .serviceUnavailable msg => "Service unavailable: " ++ msg
  | .internalError msg => "Internal error: " ++ msg

/-- The status code of an error. -/
def AppError.status : AppError → Nat
  | .unauthorized _ => 401
  | .forbidden _ => 403
  | .paymentRequired _ _ _ => 402
  | .badRequest _ => 400
  | .lengthRequired _ => 411
  | .payloadTooLarge _ => 413
  | .notFound _ => 404
  | .conflict _ => 409
  | .insufficientStorage _ => 507
  | .ioError _ => 500
  | .networkError _ => 502
  | .timeout _ => 408
  | .badGateway _ => 502
  | .serviceUnavailable _ => 503
  | .internalError _ => 500

/-- `AppResult`. -/
abbrev AppResult (α : Type) := Except AppError α

/-- A sequence of fallible steps succeeds when each does. -/
theorem bind_eq_ok {α β : Type} {x : AppResult α} {f : α → AppResult β} {b : β} :
    (x >>= f) = .ok b ↔ ∃ a, x = .ok a ∧ f a = .ok b := by
  cases x with
  | error e => exact ⟨nofun, fun ⟨_, h, _⟩ => nomatch h⟩
  | ok a => exact ⟨fun h => ⟨a, rfl, h⟩, fun ⟨_, h, h'⟩ => by cases h; exact h'⟩

end Almond
