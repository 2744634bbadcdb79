import Almond.BlobFilter
import Almond.Data.Doubles
import Almond.Data.MessagePack
import Mathlib.Algebra.Ring.Int.Defs

/-! # The filter in the browser

The page `filter-test.html` decodes a binary fuse filter and looks hashes up in it. Its numbers are doubles, and its bitwise operators
work on signed 32-bit integers. -/

namespace Almond.FilterTest

open BlobFilter MessagePack

/-! ## Numbers of JavaScript -/

/-- A value of JavaScript, as far as a decoded filter has them. -/
inductive JsValue where
  /-- A natural number that is a double. -/
  | number (n : Nat)
  | bigint (n : Nat)
  | text (s : Str)
  | array (elements : List JsValue)
  | other

/-- `ToInt32`: a number modulo 2^32, with a sign. -/
def toInt32 (n : Int) : Int :=
  if n % 2 ^ 32 < 2 ^ 31 then n % 2 ^ 32 else n % 2 ^ 32 - 2 ^ 32

/-- The operator `^`. -/
def xor32 (a b : Int) : Int :=
  toInt32 ((a % 2 ^ 32).toNat ^^^ (b % 2 ^ 32).toNat : Nat)

/-- An element of an array, as the operator `^` takes it: what is outside of the array is `undefined`, and counts as zero. -/
def elementAt (elements : List Nat) (i : Int) : Nat :=
  if i < 0 then 0 else elements.getD i.toNat 0

/-! ## The lookup -/

/-- `_murmur3Mix64`. -/
def murmur3Mix64 (k : Nat) : Nat :=
  let k := k % 2 ^ 64
  let k := k ^^^ k >>> 33
  let k := k * 0xff51afd7ed558ccd % 2 ^ 64
  let k := k ^^^ k >>> 33
  let k := k * 0xc4ceb9fe1a85ec53 % 2 ^ 64
  k ^^^ k >>> 33

/-- `_mix`. -/
def mix (key seed : Nat) : Nat :=
  murmur3Mix64 ((key + seed) % 2 ^ 64)

/-- `_fingerprint`. -/
def fingerprint (hash : Nat) : Nat :=
  hash ^^^ hash >>> 32

/-- `_hashOfHash`. -/
def hashOfHash (hash segmentLength segmentLengthMask segmentCountLength : Nat) : Nat × Int × Int :=
  let hi := (hash * segmentCountLength) >>> 64
  let h0 := hi % 2 ^ 32
  let h1 := h0 + segmentLength
  let h2 := h1 + segmentLength
  (h0, xor32 h1 (hash >>> 18 &&& segmentLengthMask : Nat), xor32 h2 (hash &&& segmentLengthMask : Nat))

/-- A filter that was decoded. -/
structure Deserialized where
  seed : Nat
  segmentLength : Nat
  segmentLengthMask : Nat
  segmentCountLength : Nat
  fingerprints : List Nat
  deriving DecidableEq

/-- `_testBinaryFuse16`. -/
def testBinaryFuse16 (filter : Deserialized) (hashU64 : Nat) : Bool :=
  let hash := mix hashU64 filter.seed
  let f : Int := (fingerprint hash % 2 ^ 16 : Nat)
  let (h0, h1, h2) := hashOfHash hash filter.segmentLength filter.segmentLengthMask filter.segmentCountLength
  let f := xor32 f (elementAt filter.fingerprints h0)
  let f := xor32 f (elementAt filter.fingerprints h1)
  let f := xor32 f (elementAt filter.fingerprints h2)
  f % 2 ^ 16 = 0

/-! ## Decoding -/

/-- What the browser brings: `atob`, `BigInt` of a text, and `MessagePack.decode`. Each of them may throw. -/
structure Browser where
  atob : Str → Option Bytes
  bigInt : Str → Option Nat
  decode : Bytes → Option JsValue

/-- A number, as it is decoded. -/
def JsValue.asNumber : JsValue → Option Nat
  | .number n => some n
  | _ => none

/-- The seed of a filter as a `BigInt`: a number is rounded down, which leaves the natural numbers as they are. -/
def JsValue.asSeed (browser : Browser) : JsValue → Option Nat
  | .bigint n => some n
  | .text s => browser.bigInt s
  | .number n => some n
  | _ => none

/-- `_deserializeBinaryFuse16`. Nothing is returned when the decoder throws, or for data that is no filter. -/
def deserializeBinaryFuse16 (browser : Browser) (base64Data : Str) : Option Deserialized := do
  let bytes ← browser.atob base64Data
  let .array [seed, segmentLength, segmentLengthMask, segmentCountLength, .array fingerprints] ← browser.decode bytes | none
  return {
    seed := ← seed.asSeed browser
    segmentLength := ← segmentLength.asNumber
    segmentLengthMask := ← segmentLengthMask.asNumber
    segmentCountLength := ← segmentCountLength.asNumber
    fingerprints := ← fingerprints.mapM JsValue.asNumber }

/-- `_validateSha256`. -/
def validateSha256 (hash : Str) : Bool :=
  hash.length = 64 && hash.all Auth.isHexDigit

/-- `parseInt` of hexadecimal digits. -/
def parseHex (digits : Str) : Nat :=
  (digits.filterMap hexValue).foldl (fun n digit => 16 * n + digit) 0

/-- `_sha256ToU64`. -/
def sha256ToU64 (hex : Str) : Nat :=
  let bytes := (List.range 8).map fun i => parseHex ((hex.drop (2 * i)).take 2)
  bytes.foldl (fun result byte => result <<< 8 ||| byte) 0

/-- `testHash`: `none` when there is no filter. It throws on what is no hash. -/
def testHash (filter : Option Deserialized) (hash : Str) : Except String (Option Bool) :=
  match filter with
  | none => .ok none
  | some filter =>
    if validateSha256 hash then .ok (some (testBinaryFuse16 filter (sha256ToU64 hash)))
    else .error "Invalid SHA256 hash format"

end Almond.FilterTest
