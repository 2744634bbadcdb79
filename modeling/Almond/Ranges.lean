import Almond.Data.Trimming
import Almond.Http

/-! # Ranges of bytes

A `Range` header with a single range, and what it selects of a resource. -/

namespace Almond.Http

open Trimming

/-! ## Headers -/

/-- One or more decimal digits. -/
def IsNumber (s : Str) : Prop :=
  s ≠ [] ∧ ∀ c ∈ s, c.isDigit = true

/-- A single range of bytes. -/
inductive ByteRange where
  /-- `START-END`. -/
  | closed (start «end» : Nat)
  /-- `START-`. -/
  | «open» (start : Nat)
  /-- `-N`: the last bytes. -/
  | suffix (length : Nat)
  deriving DecidableEq, Repr

/-- The texts around the dash of a well-formed range. -/
inductive Spells : Str → Str → ByteRange → Prop
  | closed {first last : Str} (hfirst : IsNumber first) (hlast : IsNumber last) :
      Spells first last (.closed (digitsValue first) (digitsValue last))
  | «open» {first : Str} (hfirst : IsNumber first) : Spells first [] (.open (digitsValue first))
  | suffix {last : Str} (hlast : IsNumber last) : Spells [] last (.suffix (digitsValue last))

/-- A header with a single well-formed range, with optional white space around it and around its parts. -/
def Asks (header : Str) (range : ByteRange) : Prop :=
  ∃ w a b first last, Blank isWhitespace w ∧ Padded isWhitespace first a ∧ Padded isWhitespace last b ∧ Spells first last range ∧
    header = w ++ "bytes=".toList ++ a ++ '-' :: b

/-- What a range selects of a resource of a size: the range, cut off at the last byte, unless it has no byte of the resource. -/
def ByteRange.select (totalSize : Nat) : ByteRange → RangeSpec
  | .closed start e => if start ≤ e ∧ start < totalSize then .satisfiable start (min e (totalSize - 1)) else .unsatisfiable
  | .open start => if start < totalSize then .satisfiable start (totalSize - 1) else .unsatisfiable
  | .suffix length =>
    if 0 < length ∧ 0 < totalSize then .satisfiable (totalSize - min length totalSize) (totalSize - 1) else .unsatisfiable

end Almond.Http
