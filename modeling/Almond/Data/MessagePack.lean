import Mathlib.Data.List.Basic

/-! # MessagePack

Unsigned integers and arrays of them: the formats that a writer may choose from, and a reader that accepts all of them. -/

namespace Almond.MessagePack

/-- A value. -/
inductive Value where
  | uint (n : Nat)
  | array (elements : List Value)

/-- The number that some bytes stand for, the highest first. -/
def ofBytes (bytes : List UInt8) : Nat :=
  bytes.foldl (fun n byte => 256 * n + byte.toNat) 0

/-- The formats of unsigned integers: the first byte, and how many bytes follow. -/
def uintFormats : List (UInt8 × Nat) :=
  [(0xcc, 1), (0xcd, 2), (0xce, 4), (0xcf, 8)]

/-- The formats of arrays whose length follows: the first byte, and the bytes of the length. -/
def arrayFormats : List (UInt8 × Nat) :=
  [(0xdc, 2), (0xdd, 4)]

/-- Some bytes are a value, in one of its formats. The parts of an array are its elements with their bytes. -/
inductive Encodes : Value → List UInt8 → Prop
  | fixint {b : UInt8} (hb : b < 0x80) : Encodes (.uint b.toNat) [b]
  | uint {tag : UInt8} {bytes : List UInt8} (htag : (tag, bytes.length) ∈ uintFormats) : Encodes (.uint (ofBytes bytes)) (tag :: bytes)
  | fixarray {parts : List (Value × List UInt8)} (hlen : parts.length < 16) (hparts : ∀ p ∈ parts, Encodes p.1 p.2) :
    Encodes (.array (parts.map Prod.fst)) (UInt8.ofNat (0x90 + parts.length) :: (parts.map Prod.snd).flatten)
  | array {tag : UInt8} {len : List UInt8} {parts : List (Value × List UInt8)} (htag : (tag, len.length) ∈ arrayFormats)
    (hlen : ofBytes len = parts.length) (hparts : ∀ p ∈ parts, Encodes p.1 p.2) :
    Encodes (.array (parts.map Prod.fst)) (tag :: len ++ (parts.map Prod.snd).flatten)

/-! ## The reader -/

/-- A number of some bytes, and what follows it. -/
def number (width : Nat) (bytes : List UInt8) : Option (Nat × List UInt8) :=
  if width ≤ bytes.length then some (ofBytes (bytes.take width), bytes.drop width) else none

/-- The length of an array, and what follows it. -/
def arrayLen (tag : UInt8) (bytes : List UInt8) : Option (Nat × List UInt8) :=
  if 0x90 ≤ tag ∧ tag ≤ 0x9f then some (tag.toNat - 0x90, bytes)
  else (arrayFormats.lookup tag).bind fun width => number width bytes

mutual

/-- The first value of some bytes, and what follows it. The number bounds the depth of the recursion. -/
def read : Nat → List UInt8 → Option (Value × List UInt8)
  | 0, _ => none
  | _ + 1, [] => none
  | fuel + 1, tag :: bytes =>
    if tag < 0x80 then some (.uint tag.toNat, bytes)
    else match uintFormats.lookup tag with
      | some width => (number width bytes).map fun (n, rest) => (.uint n, rest)
      | none => do
        let (len, rest) ← arrayLen tag bytes
        let (elements, rest) ← readMany fuel len rest
        return (.array elements, rest)

/-- So many values, and what follows them. -/
def readMany : Nat → Nat → List UInt8 → Option (List Value × List UInt8)
  | 0, _, _ => none
  | _ + 1, 0, bytes => some ([], bytes)
  | fuel + 1, len + 1, bytes => do
    let (first, rest) ← read fuel bytes
    let (elements, rest) ← readMany fuel len rest
    return (first :: elements, rest)

end

/-- The value that some bytes are, with no byte left over. -/
def decode (bytes : List UInt8) : Option Value :=
  match read (2 * bytes.length) bytes with
  | some (v, []) => some v
  | _ => none

/-! ## What is written is read -/

/-- A number is read from its bytes. -/
theorem number_append (bytes rest : List UInt8) : number bytes.length (bytes ++ rest) = some (ofBytes bytes, rest) := by
  simp [number]

/-- A value has a byte. -/
theorem Encodes.length_pos {v : Value} {bytes : List UInt8} (h : Encodes v bytes) : 0 < bytes.length := by
  cases h <;> simp

/-- Values that are read one by one are read one after another. -/
theorem readMany_of_read {parts : List (Value × List UInt8)} (hpos : ∀ p ∈ parts, 0 < p.2.length)
    (hread : ∀ p ∈ parts, ∀ rest fuel, 2 * p.2.length ≤ fuel → read fuel (p.2 ++ rest) = some (p.1, rest)) (rest : List UInt8)
    (fuel : Nat) (hfuel : 2 * (parts.map Prod.snd).flatten.length + 1 ≤ fuel) :
    readMany fuel parts.length ((parts.map Prod.snd).flatten ++ rest) = some (parts.map Prod.fst, rest) := by
  induction parts generalizing fuel with
  | nil =>
    obtain ⟨fuel, rfl⟩ : ∃ k, fuel = k + 1 := ⟨fuel - 1, by omega⟩
    simp [readMany]
  | cons p parts ih =>
    obtain ⟨fuel, rfl⟩ : ∃ k, fuel = k + 1 := ⟨fuel - 1, by omega⟩
    have hp := hpos p (by simp)
    simp at hfuel
    have hfirst := hread p (by simp) ((parts.map Prod.snd).flatten ++ rest) fuel (by omega)
    have hrest := ih (fun q hq => hpos q (by simp [hq])) (fun q hq => hread q (by simp [hq])) fuel (by simp; omega)
    simp [readMany, hfirst, hrest]

/-- The format of an unsigned integer is found by its first byte. -/
theorem uintFormats_lookup {tag : UInt8} {width : Nat} (h : (tag, width) ∈ uintFormats) :
    ¬ tag < 0x80 ∧ uintFormats.lookup tag = some width := by
  simp [uintFormats] at h
  rcases h with ⟨rfl, rfl⟩ | ⟨rfl, rfl⟩ | ⟨rfl, rfl⟩ | ⟨rfl, rfl⟩ <;> decide

/-- The length of a short array is in its first byte. -/
theorem arrayLen_fixarray {len : Nat} (h : len < 16) (rest : List UInt8) :
    ¬ UInt8.ofNat (0x90 + len) < 0x80 ∧ uintFormats.lookup (UInt8.ofNat (0x90 + len)) = none ∧
      arrayLen (UInt8.ofNat (0x90 + len)) rest = some (len, rest) := by
  have hall : ∀ len < 16, ¬ UInt8.ofNat (0x90 + len) < 0x80 ∧ uintFormats.lookup (UInt8.ofNat (0x90 + len)) = none ∧
      (0x90 ≤ UInt8.ofNat (0x90 + len) ∧ UInt8.ofNat (0x90 + len) ≤ 0x9f) ∧ (UInt8.ofNat (0x90 + len)).toNat - 0x90 = len := by
    decide
  obtain ⟨hlarge, hlookup, hrange, hlen⟩ := hall len h
  exact ⟨hlarge, hlookup, by rw [arrayLen, if_pos hrange, hlen]⟩

/-- The length of a long array follows its first byte. -/
theorem arrayLen_array {tag : UInt8} {len : List UInt8} (h : (tag, len.length) ∈ arrayFormats) (rest : List UInt8) :
    ¬ tag < 0x80 ∧ uintFormats.lookup tag = none ∧ arrayLen tag (len ++ rest) = some (ofBytes len, rest) := by
  have hformat : ¬ tag < 0x80 ∧ uintFormats.lookup tag = none ∧ ¬ (0x90 ≤ tag ∧ tag ≤ 0x9f) ∧
      arrayFormats.lookup tag = some len.length := by
    generalize len.length = width at h
    simp [arrayFormats] at h
    rcases h with ⟨rfl, rfl⟩ | ⟨rfl, rfl⟩ <;> decide
  obtain ⟨hlarge, hlookup, hrange, hwidth⟩ := hformat
  refine ⟨hlarge, hlookup, ?_⟩
  rw [arrayLen, if_neg hrange, hwidth]
  exact number_append len rest

/-- What is written is read, whatever follows it. -/
theorem Encodes.read {v : Value} {bytes : List UInt8} (h : Encodes v bytes) (rest : List UInt8) (fuel : Nat)
    (hfuel : 2 * bytes.length ≤ fuel) : MessagePack.read fuel (bytes ++ rest) = some (v, rest) := by
  induction h generalizing rest fuel with
  | fixint hb =>
    obtain ⟨fuel, rfl⟩ : ∃ k, fuel = k + 1 := ⟨fuel - 1, by simp at hfuel; omega⟩
    simp [MessagePack.read, hb]
  | @uint tag bytes htag =>
    obtain ⟨fuel, rfl⟩ : ∃ k, fuel = k + 1 := ⟨fuel - 1, by simp at hfuel; omega⟩
    obtain ⟨hlarge, hlookup⟩ := uintFormats_lookup htag
    simp [MessagePack.read, hlarge, hlookup, number_append]
  | @fixarray parts hlen hparts ih =>
    obtain ⟨fuel, rfl⟩ : ∃ k, fuel = k + 1 := ⟨fuel - 1, by simp at hfuel; omega⟩
    obtain ⟨hlarge, hlookup, harray⟩ := arrayLen_fixarray hlen ((parts.map Prod.snd).flatten ++ rest)
    have hmany := readMany_of_read (fun p hp => (hparts p hp).length_pos) ih rest fuel (by simp at hfuel ⊢; omega)
    generalize UInt8.ofNat (0x90 + parts.length) = tag at hlarge hlookup harray
    simp [MessagePack.read, hlarge, hlookup, harray, hmany]
  | @array tag len parts htag hlen hparts ih =>
    obtain ⟨fuel, rfl⟩ : ∃ k, fuel = k + 1 := ⟨fuel - 1, by simp at hfuel; omega⟩
    obtain ⟨hlarge, hlookup, harray⟩ := arrayLen_array htag ((parts.map Prod.snd).flatten ++ rest)
    have hmany := readMany_of_read (fun p hp => (hparts p hp).length_pos) ih rest fuel (by simp at hfuel ⊢; omega)
    simp [MessagePack.read, hlarge, hlookup, harray, hlen, hmany]

/-- What is written is decoded. -/
theorem Encodes.decode {v : Value} {bytes : List UInt8} (h : Encodes v bytes) : MessagePack.decode bytes = some v := by
  have hread := h.read [] (2 * bytes.length) (Nat.le_refl _)
  rw [List.append_nil] at hread
  simp [MessagePack.decode, hread]

/-- Bytes that are left over are an error. -/
theorem Encodes.decode_append {v : Value} {bytes rest : List UInt8} (h : Encodes v bytes) (hrest : rest ≠ []) :
    MessagePack.decode (bytes ++ rest) = none := by
  have hread := h.read rest (2 * (bytes ++ rest).length) (by rw [List.length_append]; omega)
  rw [MessagePack.decode, hread]
  cases rest with
  | nil => exact absurd rfl hrest
  | cons b rest => rfl

end Almond.MessagePack
