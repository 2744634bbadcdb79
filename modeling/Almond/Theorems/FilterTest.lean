import Almond.FilterTest
import Almond.Theorems.FilterKeys

/-! # The server's filter in the browser -/

namespace Almond.FilterTest

open BlobFilter MessagePack

/-! ## What the server writes -/

/-- Bytes after a number. -/
theorem foldl_bytes (bytes : Bytes) (acc : Nat) :
    bytes.foldl (fun n byte => 256 * n + byte.toNat) acc = acc * 256 ^ bytes.length + ofBytes bytes := by
  induction bytes generalizing acc with
  | nil => simp [ofBytes]
  | cons b bytes ih =>
    have hofBytes : ofBytes (b :: bytes) = bytes.foldl (fun n byte => 256 * n + byte.toNat) (256 * 0 + b.toNat) := rfl
    rw [hofBytes, List.foldl_cons, ih, ih, List.length_cons, Nat.pow_succ]
    ring

/-- A number has as many bytes as it is given. -/
theorem length_bigEndian (len n : Nat) : (bigEndian len n).length = len := by
  induction len with
  | zero => rfl
  | succ len ih => simp [bigEndian, ih]

/-- The bytes of a number stand for it. -/
theorem ofBytes_bigEndian (len n : Nat) : ofBytes (bigEndian len n) = n % 256 ^ len := by
  induction len with
  | zero => simp [bigEndian, ofBytes, Nat.mod_one]
  | succ len ih =>
    have hfirst : ofBytes (bigEndian (len + 1) n) =
        (bigEndian len n).foldl (fun n byte => 256 * n + byte.toNat) (256 * 0 + (UInt8.ofNat (n / 256 ^ len)).toNat) := rfl
    rw [hfirst, foldl_bytes, length_bigEndian, ih, Nat.pow_succ, Nat.mod_mul]
    simp
    ring

/-- A number in one of the formats is written as it is read. -/
theorem encodes_uint {tag : UInt8} {width n : Nat} (htag : (tag, width) ∈ uintFormats) (hn : n < 256 ^ width) :
    Encodes (.uint n) (tag :: bigEndian width n) := by
  have h : Encodes (.uint (ofBytes (bigEndian width n))) (tag :: bigEndian width n) := .uint (by rwa [length_bigEndian])
  rwa [ofBytes_bigEndian, Nat.mod_eq_of_lt hn] at h

/-- A fingerprint is written as it is read. -/
theorem encodes_fingerprint {fp : Nat} (h : fp < 2 ^ 64) : Encodes (.uint fp) (writeFingerprint fp) := by
  unfold writeFingerprint
  split
  · exact encodes_uint (by decide) (by omega)
  · split
    · exact encodes_uint (by decide) (by omega)
    · split
      · exact encodes_uint (by decide) (by omega)
      · exact encodes_uint (by decide) (by omega)

/-- An array is written as it is read. -/
theorem encodes_array {parts : List (Value × Bytes)} (hlen : parts.length < 2 ^ 32) (hparts : ∀ p ∈ parts, Encodes p.1 p.2) :
    Encodes (.array (parts.map Prod.fst)) (writeArrayLen parts.length ++ (parts.map Prod.snd).flatten) := by
  unfold writeArrayLen
  split
  · rename_i hshort
    exact .fixarray hshort hparts
  · split
    · refine .array (by rw [length_bigEndian]; decide) ?_ hparts
      rw [ofBytes_bigEndian, Nat.mod_eq_of_lt (by omega)]
    · refine .array (by rw [length_bigEndian]; decide) ?_ hparts
      rw [ofBytes_bigEndian, Nat.mod_eq_of_lt (by omega)]

/-- Some fingerprints, each with its bytes. -/
def fingerprintParts (fingerprints : List (BitVec 16)) : List (Value × Bytes) :=
  fingerprints.map fun fp => (.uint fp.toNat, writeFingerprint fp.toNat)

/-- The parts of a filter with some of its fingerprints, each with its bytes. -/
def filterParts (filter : BinaryFuse 16) (fingerprints : List (BitVec 16)) : List (Value × Bytes) :=
  [(.uint filter.seed.toNat, 0xcf :: bigEndian 8 filter.seed.toNat),
    (.uint filter.segmentLength.toNat, 0xce :: bigEndian 4 filter.segmentLength.toNat),
    (.uint filter.segmentLengthMask.toNat, 0xce :: bigEndian 4 filter.segmentLengthMask.toNat),
    (.uint filter.segmentCountLength.toNat, 0xce :: bigEndian 4 filter.segmentCountLength.toNat),
    (.array ((fingerprintParts fingerprints).map Prod.fst),
      writeArrayLen fingerprints.length ++ ((fingerprintParts fingerprints).map Prod.snd).flatten)]

/-- The fingerprints of a filter are written as they are read. -/
theorem encodes_fingerprintParts {fingerprints : List (BitVec 16)} (hlen : fingerprints.length < 2 ^ 32) :
    Encodes (.array ((fingerprintParts fingerprints).map Prod.fst))
      (writeArrayLen fingerprints.length ++ ((fingerprintParts fingerprints).map Prod.snd).flatten) := by
  have hparts : (fingerprintParts fingerprints).length = fingerprints.length := by simp [fingerprintParts]
  rw [← hparts] at hlen ⊢
  refine encodes_array hlen fun p hp => ?_
  obtain ⟨fp, _, rfl⟩ := List.mem_map.1 hp
  have hlt := fp.isLt
  exact encodes_fingerprint (by omega)

/-- A filter is written as it is read. -/
theorem encodes_filterParts (filter : BinaryFuse 16) {fingerprints : List (BitVec 16)} (hlen : fingerprints.length < 2 ^ 32) :
    Encodes (.array ((filterParts filter fingerprints).map Prod.fst))
      (writeArrayLen 5 ++ ((filterParts filter fingerprints).map Prod.snd).flatten) := by
  have hcount : (filterParts filter fingerprints).length = 5 := rfl
  rw [← hcount]
  refine encodes_array (by rw [hcount]; decide) ?_
  simp only [filterParts, List.mem_cons, List.not_mem_nil, or_false, forall_eq_or_imp, forall_eq]
  exact ⟨encodes_uint (by decide) filter.seed.isLt, encodes_uint (by decide) filter.segmentLength.isLt,
    encodes_uint (by decide) filter.segmentLengthMask.isLt, encodes_uint (by decide) filter.segmentCountLength.isLt,
    encodes_fingerprintParts hlen⟩

/-- A filter is written with the fingerprints that its length announces, and the others follow. -/
theorem serialize_eq (filter : BinaryFuse 16) {announced : List (BitVec 16)}
    (hannounced : announced = filter.fingerprints.take (filter.fingerprints.length % 2 ^ 32)) :
    serializeBinaryFuseAsArray filter = writeArrayLen 5 ++ ((filterParts filter announced).map Prod.snd).flatten ++
      ((fingerprintParts (filter.fingerprints.drop (filter.fingerprints.length % 2 ^ 32))).map Prod.snd).flatten := by
  have hlen : announced.length = filter.fingerprints.length % 2 ^ 32 := by
    rw [hannounced, List.length_take, Nat.min_eq_left (Nat.mod_le _ _)]
  have hall : (filter.fingerprints.map fun fp => writeFingerprint fp.toNat).flatten =
      ((fingerprintParts announced).map Prod.snd).flatten ++
        ((fingerprintParts (filter.fingerprints.drop (filter.fingerprints.length % 2 ^ 32))).map Prod.snd).flatten := by
    rw [hannounced, ← List.flatten_append, ← List.map_append, fingerprintParts, fingerprintParts, ← List.map_append,
      List.take_append_drop, List.map_map]
    rfl
  unfold serializeBinaryFuseAsArray
  rw [hall, ← hlen]
  simp [filterParts]

/-! ## What the browser decodes -/

/-- The value of JavaScript that a value is decoded to without `BigInt`: a number becomes the nearest double. -/
def toJs : Value → JsValue
  | .uint n => .number (Doubles.nearest n)
  | .array elements => .array (elements.map toJs)

/-- What is relied on of the decoder: it decodes a value, and throws when bytes are left over. -/
structure Decodes (decode : Bytes → Option JsValue) : Prop where
  whole : ∀ {v bytes}, Encodes v bytes → decode bytes = some (toJs v)
  extra : ∀ {v bytes rest}, Encodes v bytes → rest ≠ [] → decode (bytes ++ rest) = none

/-- The filter of the server, as the browser should have it. -/
def ofFilter (filter : BinaryFuse 16) : Deserialized where
  seed := filter.seed.toNat
  segmentLength := filter.segmentLength.toNat
  segmentLengthMask := filter.segmentLengthMask.toNat
  segmentCountLength := filter.segmentCountLength.toNat
  fingerprints := filter.fingerprints.map BitVec.toNat

/-- The fingerprints of a filter are decoded. -/
theorem mapM_asNumber (fingerprints : List (BitVec 16)) :
    (((fingerprintParts fingerprints).map Prod.fst).map toJs).mapM JsValue.asNumber = some (fingerprints.map BitVec.toNat) := by
  induction fingerprints with
  | nil => rfl
  | cons fp fingerprints ih =>
    have hlt := fp.isLt
    have hnearest : Doubles.nearest fp.toNat = fp.toNat := Doubles.nearest_of_lt (by omega)
    simp only [fingerprintParts] at ih
    simp [fingerprintParts, List.mapM_cons, toJs, JsValue.asNumber, hnearest]
    simp at ih
    simp [ih]

/-- The bytes of a filter are decoded, unless it has too many fingerprints. -/
theorem decode_serialize {decode : Bytes → Option JsValue} (hdecode : Decodes decode) (filter : BinaryFuse 16) :
    decode (serializeBinaryFuseAsArray filter) =
      if filter.fingerprints.length < 2 ^ 32 then some (toJs (.array ((filterParts filter filter.fingerprints).map Prod.fst)))
      else none := by
  rw [serialize_eq filter rfl]
  split
  · rename_i hlen
    have hrest : ((fingerprintParts []).map Prod.snd).flatten = [] := rfl
    rw [Nat.mod_eq_of_lt hlen, List.take_length, List.drop_length, hrest, List.append_nil]
    exact hdecode.whole (encodes_filterParts filter hlen)
  · rename_i hlen
    have hlt : filter.fingerprints.length % 2 ^ 32 < 2 ^ 32 := Nat.mod_lt _ (by decide)
    refine hdecode.extra (encodes_filterParts filter (by simp; omega)) ?_
    obtain ⟨fp, fingerprints, hdrop⟩ := List.exists_cons_of_ne_nil
      (l := filter.fingerprints.drop (filter.fingerprints.length % 2 ^ 32)) (by simp; omega)
    have hpos := (encodes_fingerprint (show fp.toNat < 2 ^ 64 by omega)).length_pos
    rw [hdrop]
    simp [fingerprintParts]
    intro hnil
    simp [hnil] at hpos

/-- A filter is decoded with the double that is nearest to its seed, unless it has too many fingerprints. -/
theorem deserialize_eq {browser : Browser} {encodeBase64 : Bytes → Str} {filter : BinaryFuse 16} (hdecode : Decodes browser.decode)
    (hatob : browser.atob (encodeBase64 (serializeBinaryFuseAsArray filter)) = some (serializeBinaryFuseAsArray filter)) :
    deserializeBinaryFuse16 browser (encodeBase64 (serializeBinaryFuseAsArray filter)) =
      if filter.fingerprints.length < 2 ^ 32 then some { ofFilter filter with seed := Doubles.nearest filter.seed.toNat } else none := by
  unfold deserializeBinaryFuse16
  simp only [hatob, decode_serialize hdecode, Option.bind_eq_bind, Option.bind_some]
  split
  · have hlength : Doubles.nearest filter.segmentLength.toNat = filter.segmentLength.toNat := Doubles.nearest_of_lt (by omega)
    have hmask : Doubles.nearest filter.segmentLengthMask.toNat = filter.segmentLengthMask.toNat := Doubles.nearest_of_lt (by omega)
    have hcount : Doubles.nearest filter.segmentCountLength.toNat = filter.segmentCountLength.toNat := Doubles.nearest_of_lt (by omega)
    have hfingerprints := mapM_asNumber filter.fingerprints
    simp only [filterParts, List.map_cons, List.map_nil, toJs, hlength, hmask, hcount, hfingerprints, JsValue.asSeed,
      JsValue.asNumber, Option.bind_some]
    rfl
  · rfl

/-! ## The lookup of the server -/

/-- The high bits of a hash on its low ones. -/
def xorShift (k : BitVec 64) : BitVec 64 :=
  k ^^^ k >>> 33

/-- The mixing of a hash. -/
def mix64 (k : BitVec 64) : BitVec 64 :=
  xorShift (xorShift (xorShift k * 0xff51afd7ed558ccd) * 0xc4ceb9fe1a85ec53)

/-- The three positions of a hash. -/
def positions (filter : BinaryFuse 16) (hash : BitVec 64) : BitVec 32 × BitVec 32 × BitVec 32 :=
  let h0 := ((hash.setWidth 128 * filter.segmentCountLength.setWidth 128) >>> 64).setWidth 32
  let h1 := h0 + filter.segmentLength
  let h2 := h1 + filter.segmentLength
  (h0, h1 ^^^ ((hash >>> 18).setWidth 32 &&& filter.segmentLengthMask), h2 ^^^ (hash.setWidth 32 &&& filter.segmentLengthMask))

/-- The hash of a key. -/
def hashOf (filter : BinaryFuse 16) (key : BitVec 64) : BitVec 64 :=
  mix64 (key + filter.seed)

/-- The fingerprint of a hash. -/
def fingerprintOf (hash : BitVec 64) : BitVec 16 :=
  (hash ^^^ hash >>> 32).setWidth 16

/-- Whether a key is in a filter: the fingerprints at its three positions make up its own. There is no answer when one of them lies
outside of the filter. -/
def lookup (filter : BinaryFuse 16) (key : BitVec 64) : Option Bool := do
  let (h0, h1, h2) := positions filter (hashOf filter key)
  let a ← filter.fingerprints[h0.toNat]?
  let b ← filter.fingerprints[h1.toNat]?
  let c ← filter.fingerprints[h2.toNat]?
  return fingerprintOf (hashOf filter key) ^^^ a ^^^ b ^^^ c = 0

/-! ## The lookup of the browser -/

/-- The high bits on the low ones, as a number. -/
theorem toNat_xorShift (k : BitVec 64) : (xorShift k).toNat = k.toNat ^^^ k.toNat >>> 33 := by
  rw [xorShift, BitVec.toNat_xor, BitVec.toNat_ushiftRight]

/-- The mixing is the same. -/
theorem murmur3Mix64_eq (k : BitVec 64) : murmur3Mix64 k.toNat = (mix64 k).toNat := by
  have hfirst : (0xff51afd7ed558ccd : BitVec 64).toNat = 0xff51afd7ed558ccd := by decide
  have hsecond : (0xc4ceb9fe1a85ec53 : BitVec 64).toNat = 0xc4ceb9fe1a85ec53 := by decide
  rw [mix64, toNat_xorShift, BitVec.toNat_mul, toNat_xorShift, BitVec.toNat_mul, toNat_xorShift, hfirst, hsecond]
  unfold murmur3Mix64
  rw [Nat.mod_eq_of_lt k.isLt]

/-- The hash of a key is the same. -/
theorem mix_eq (filter : BinaryFuse 16) (key : BitVec 64) : mix key.toNat filter.seed.toNat = (hashOf filter key).toNat := by
  rw [hashOf, ← murmur3Mix64_eq, mix, BitVec.toNat_add]

/-- The fingerprint of a hash is the same. -/
theorem fingerprint_eq (hash : BitVec 64) : fingerprint hash.toNat % 2 ^ 16 = (fingerprintOf hash).toNat := by
  rw [fingerprintOf, BitVec.toNat_setWidth, BitVec.toNat_xor, BitVec.toNat_ushiftRight, fingerprint]

/-- The operator `^` on natural numbers. -/
theorem xor32_natCast (a b : Nat) : xor32 a b = toInt32 ((a % 2 ^ 32 ^^^ b % 2 ^ 32 : Nat) : Int) := by
  unfold xor32
  norm_cast

/-- The first position is the same. -/
theorem position_eq (filter : BinaryFuse 16) (hash : BitVec 64) :
    (hash.toNat * filter.segmentCountLength.toNat) >>> 64 % 2 ^ 32 = (positions filter hash).1.toNat := by
  have hhash : hash.toNat % 2 ^ 128 = hash.toNat := Nat.mod_eq_of_lt (by omega)
  have hcount : filter.segmentCountLength.toNat % 2 ^ 128 = filter.segmentCountLength.toNat := Nat.mod_eq_of_lt (by omega)
  have hproduct : hash.toNat * filter.segmentCountLength.toNat < 2 ^ 128 :=
    calc hash.toNat * filter.segmentCountLength.toNat ≤ 2 ^ 64 * 2 ^ 32 :=
          Nat.mul_le_mul hash.isLt.le filter.segmentCountLength.isLt.le
      _ < 2 ^ 128 := by decide
  simp only [positions, BitVec.toNat_setWidth, BitVec.toNat_ushiftRight, BitVec.toNat_mul]
  rw [hhash, hcount, Nat.mod_eq_of_lt hproduct]

/-- The positions are the same, the second and the third as signed numbers. -/
theorem hashOfHash_eq (filter : BinaryFuse 16) (hash : BitVec 64) :
    hashOfHash hash.toNat filter.segmentLength.toNat filter.segmentLengthMask.toNat filter.segmentCountLength.toNat =
      ((positions filter hash).1.toNat, toInt32 (positions filter hash).2.1.toNat, toInt32 (positions filter hash).2.2.toNat) := by
  have hmask : filter.segmentLengthMask.toNat % 2 ^ 32 = filter.segmentLengthMask.toNat :=
    Nat.mod_eq_of_lt filter.segmentLengthMask.isLt
  have hsecond : (positions filter hash).2.1 =
      (positions filter hash).1 + filter.segmentLength ^^^ ((hash >>> 18).setWidth 32 &&& filter.segmentLengthMask) := rfl
  have hthird : (positions filter hash).2.2 =
      (positions filter hash).1 + filter.segmentLength + filter.segmentLength ^^^ (hash.setWidth 32 &&& filter.segmentLengthMask) := rfl
  unfold hashOfHash
  simp only [position_eq, xor32_natCast, hsecond, hthird, BitVec.toNat_xor, BitVec.toNat_and, BitVec.toNat_add,
    BitVec.toNat_setWidth, BitVec.toNat_ushiftRight, Nat.and_mod_two_pow, hmask, Nat.mod_add_mod]

/-- What the browser finds at a signed position: nothing from 2^31 on. -/
theorem elementAt_toInt32 (elements : List Nat) {n : Nat} (h : n < 2 ^ 32) :
    elementAt elements (toInt32 n) = if n < 2 ^ 31 then elements.getD n 0 else 0 := by
  have hmod : (n : Int) % 2 ^ 32 = n := Int.emod_eq_of_lt (by omega) (by omega)
  unfold toInt32
  rw [hmod]
  by_cases hlow : n < 2 ^ 31
  · rw [if_pos hlow, if_pos (by omega), elementAt, if_neg (by omega), Int.toNat_natCast]
  · rw [if_neg hlow, if_neg (by omega), elementAt, if_pos (by omega)]

/-- The operator `^` on small numbers has no sign. -/
theorem xor32_toNat (a b : BitVec 16) : xor32 a.toNat b.toNat = (a ^^^ b).toNat := by
  have ha : a.toNat % 2 ^ 32 = a.toNat := Nat.mod_eq_of_lt (by omega)
  have hb : b.toNat % 2 ^ 32 = b.toNat := Nat.mod_eq_of_lt (by omega)
  have hlt := (a ^^^ b).isLt
  rw [xor32_natCast, ha, hb, ← BitVec.toNat_xor, toInt32]
  have hmod : ((a ^^^ b).toNat : Int) % 2 ^ 32 = (a ^^^ b).toNat := Int.emod_eq_of_lt (by omega) (by omega)
  rw [hmod, if_pos (by omega)]

/-- The fingerprint that the browser finds at a position: none from 2^31 on. -/
def kept (filter : BinaryFuse 16) (h : BitVec 32) : BitVec 16 :=
  if h.toNat < 2 ^ 31 then filter.fingerprints.getD h.toNat 0 else 0

/-- The fingerprint that the browser misses at a position. -/
def missed (filter : BinaryFuse 16) (h : BitVec 32) : BitVec 16 :=
  if h.toNat < 2 ^ 31 then 0 else filter.fingerprints.getD h.toNat 0

/-- The fingerprints of a filter, as the browser has them. -/
theorem getD_map_toNat (fingerprints : List (BitVec 16)) (i : Nat) :
    (fingerprints.map BitVec.toNat).getD i 0 = (fingerprints.getD i 0).toNat := by
  simp [List.getD_eq_getElem?_getD]
  cases fingerprints[i]? <;> simp

/-- The browser tests what it finds at the three positions. -/
theorem testBinaryFuse16_eq (filter : BinaryFuse 16) (key : BitVec 64) :
    testBinaryFuse16 (ofFilter filter) key.toNat = true ↔
      fingerprintOf (hashOf filter key) ^^^ filter.fingerprints.getD (positions filter (hashOf filter key)).1.toNat 0 ^^^
        kept filter (positions filter (hashOf filter key)).2.1 ^^^ kept filter (positions filter (hashOf filter key)).2.2 = 0 := by
  have hfirst : ∀ i : Nat, elementAt (filter.fingerprints.map BitVec.toNat) i = (filter.fingerprints.getD i 0).toNat := by
    intro i
    rw [elementAt, if_neg (by omega), Int.toNat_natCast, getD_map_toNat]
  have hkept : ∀ h : BitVec 32, elementAt (filter.fingerprints.map BitVec.toNat) (toInt32 h.toNat) = (kept filter h).toNat := by
    intro h
    rw [elementAt_toInt32 _ h.isLt, getD_map_toNat, kept]
    split <;> rfl
  unfold testBinaryFuse16
  simp only [ofFilter, mix_eq, fingerprint_eq, hashOfHash_eq, hfirst, hkept, xor32_toNat, decide_eq_true_eq]
  generalize fingerprintOf (hashOf filter key) ^^^ filter.fingerprints.getD (positions filter (hashOf filter key)).1.toNat 0 ^^^
    kept filter (positions filter (hashOf filter key)).2.1 ^^^ kept filter (positions filter (hashOf filter key)).2.2 = f
  have hlt := f.isLt
  constructor
  · intro hzero
    apply BitVec.eq_of_toNat_eq
    simp
    omega
  · intro hzero
    simp [hzero]

/-- A key of the filter passes the test exactly when the fingerprints that the browser misses cancel out. -/
theorem test_of_lookup {filter : BinaryFuse 16} {key : BitVec 64} (h : lookup filter key = some true) :
    testBinaryFuse16 (ofFilter filter) key.toNat = true ↔
      missed filter (positions filter (hashOf filter key)).2.1 = missed filter (positions filter (hashOf filter key)).2.2 := by
  have hsplit : ∀ h, filter.fingerprints.getD h.toNat 0 = kept filter h ^^^ missed filter h := by
    intro h
    unfold kept missed
    split <;> simp
  rw [testBinaryFuse16_eq]
  unfold lookup at h
  generalize positions filter (hashOf filter key) = p at h ⊢
  obtain ⟨h0, h1, h2⟩ := p
  simp only [Option.bind_eq_bind, Option.bind_eq_some_iff, Option.pure_def, Option.some.injEq, decide_eq_true_eq] at h
  obtain ⟨a, ha, b, hb, c, hc, hsum⟩ := h
  have hkeptb := hsplit h1
  have hkeptc := hsplit h2
  rw [List.getD_eq_getElem?_getD, hb, Option.getD_some] at hkeptb
  rw [List.getD_eq_getElem?_getD, hc, Option.getD_some] at hkeptc
  rw [List.getD_eq_getElem?_getD, ha, Option.getD_some]
  rw [hkeptb, hkeptc] at hsum
  have hregroup : fingerprintOf (hashOf filter key) ^^^ a ^^^ (kept filter h1 ^^^ missed filter h1) ^^^
      (kept filter h2 ^^^ missed filter h2) =
      fingerprintOf (hashOf filter key) ^^^ a ^^^ kept filter h1 ^^^ kept filter h2 ^^^ (missed filter h1 ^^^ missed filter h2) := by
    ac_rfl
  rw [hregroup] at hsum
  have hkept := BitVec.xor_eq_zero_iff.1 hsum
  dsimp only
  rw [hkept]
  exact BitVec.xor_eq_zero_iff

/-! ## Hashes -/

/-- The browser reads the same bytes from a hash. -/
theorem bytes_eq (n : Nat) (hex : Str) (hlen : 2 * n ≤ hex.length) (h : ∀ c ∈ hex, Auth.isHexDigit c = true) :
    ((List.range n).map fun i => parseHex ((hex.drop (2 * i)).take 2)) = hexBytes n hex ∧ ∀ byte ∈ hexBytes n hex, byte < 2 ^ 8 := by
  induction n generalizing hex with
  | zero => simp [hexBytes]
  | succ n ih =>
    rcases hex with _ | ⟨high, _ | ⟨low, rest⟩⟩
    · simp at hlen
    · simp at hlen
      omega
    · obtain ⟨x, hx, hhigh, _⟩ := hexValue_of_isHexDigit (h high (by simp))
      obtain ⟨y, hy, hlow, _⟩ := hexValue_of_isHexDigit (h low (by simp))
      obtain ⟨hbytes, hsmall⟩ := ih rest (by simp at hlen; omega) fun c hc => h c (by simp [hc])
      have hfirst : parseHex [high, low] = 16 * x + y := by simp [parseHex, hhigh, hlow]
      have hcons : hexBytes (n + 1) (high :: low :: rest) = (16 * x + y) :: hexBytes n rest := hexBytes_cons n hhigh hlow
        (by rintro rfl; exact absurd (h '+' (by simp)) (by decide)) rest
      rw [hcons, ← hbytes]
      refine ⟨?_, fun byte hbyte => ?_⟩
      · simp [List.range_succ_eq_map, hfirst, Nat.mul_add]
      · rw [hbytes] at hbyte
        rcases List.mem_cons.1 hbyte with rfl | hbyte
        · omega
        · exact hsmall byte hbyte

/-- A shift makes room for a byte. -/
theorem foldl_shift {bytes : List Nat} (h : ∀ byte ∈ bytes, byte < 2 ^ 8) (acc : Nat) :
    bytes.foldl (fun result byte => result <<< 8 ||| byte) acc = bytes.foldl (fun n byte => 256 * n + byte) acc := by
  induction bytes generalizing acc with
  | nil => rfl
  | cons byte bytes ih =>
    rw [List.foldl_cons, List.foldl_cons, ih (fun b hb => h b (by simp [hb])), ← Nat.shiftLeft_add_eq_or_of_lt (h byte (by simp)),
      Nat.shiftLeft_eq, Nat.mul_comm]

/-- A hash that the browser accepts is 64 hexadecimal digits. -/
theorem digits_of_validateSha256 {hash : Str} (h : validateSha256 hash = true) :
    hash.length = 64 ∧ ∀ c ∈ hash, Auth.isHexDigit c = true := by
  simpa [validateSha256] using h

/-- The browser reads the same number from a hash. -/
theorem sha256ToU64_agrees {hash : Str} (h : validateSha256 hash = true) : sha256ToU64 hash = BlobFilter.sha256ToU64 hash := by
  obtain ⟨hlen, hdigits⟩ := digits_of_validateSha256 h
  obtain ⟨hbytes, hsmall⟩ := bytes_eq 8 hash (by omega) hdigits
  have hcount := (hexBytes_foldl 8 0 hash (by omega) hdigits).1
  have hserver : BlobFilter.sha256ToU64 hash =
    if (hexBytes 8 hash).length ≥ 8 then (hexBytes 8 hash).foldl (fun n byte => 256 * n + byte) 0 else 0 := rfl
  rw [hserver, if_pos (by omega), sha256ToU64, hbytes]
  exact foldl_shift hsmall 0

/-- A hash is tested. -/
theorem testHash_eq {filter : Deserialized} {hash : Str} (h : validateSha256 hash = true) :
    testHash (some filter) hash = .ok (some (testBinaryFuse16 filter (BlobFilter.sha256ToU64 hash))) := by
  rw [testHash, if_pos h, sha256ToU64_agrees h]

/-- The key of a hash. -/
def keyOf (hash : Str) : BitVec 64 :=
  BitVec.ofNat 64 (BlobFilter.sha256ToU64 hash)

/-- The key of a hash is its first 64 bits. -/
theorem toNat_keyOf {hash : Str} (h : validateSha256 hash = true) : (keyOf hash).toNat = BlobFilter.sha256ToU64 hash := by
  obtain ⟨hlen, hdigits⟩ := digits_of_validateSha256 h
  have htake : ∀ c ∈ hash.take 16, Auth.isHexDigit c = true := fun c hc => hdigits c (List.mem_of_mem_take hc)
  obtain ⟨hmap, hsmall⟩ := digitChar_hexDigits htake
  have hcount : (hexDigits (hash.take 16)).length = 16 := by
    have := congrArg List.length hmap
    simp at this
    omega
  have hlt := Nat.ofDigits_lt_base_pow_length (b := 16) (l := (hexDigits (hash.take 16)).reverse) (by decide) (by simpa using hsmall)
  rw [List.length_reverse, hcount] at hlt
  rw [keyOf, BitVec.toNat_ofNat, sha256ToU64_eq (by omega) hdigits]
  exact Nat.mod_eq_of_lt hlt

/-- The browser agrees with a filter of the server: it decodes the filter, and finds every hash whose key is in it. -/
def Agrees (browser : Browser) (encodeBase64 : Bytes → Str) (contains : BinaryFuse 16 → BitVec 64 → Bool) (filter : BinaryFuse 16) :
    Prop :=
  deserializeBinaryFuse16 browser (encodeBase64 (serializeBinaryFuseAsArray filter)) = some (ofFilter filter) ∧
    ∀ hash, validateSha256 hash = true → contains filter (keyOf hash) = true →
      testHash (deserializeBinaryFuse16 browser (encodeBase64 (serializeBinaryFuseAsArray filter))) hash = .ok (some true)

/-- The browser misses nothing of a filter with at most 2^31 fingerprints. -/
theorem missed_eq_zero {filter : BinaryFuse 16} (hlen : filter.fingerprints.length ≤ 2 ^ 31) (h : BitVec 32) : missed filter h = 0 := by
  unfold missed
  split
  · rfl
  · rw [List.getD_eq_getElem?_getD, List.getElem?_eq_none (by omega), Option.getD_none]

/-- The browser agrees with a filter exactly when the seed is a double, there are fewer than 2^32 fingerprints, and those that it
misses from the position 2^31 on cancel out for every key in the filter. -/
theorem agrees_iff (browser : Browser) (encodeBase64 : Bytes → Str) (contains : BinaryFuse 16 → BitVec 64 → Bool)
    (filter : BinaryFuse 16) (hdecode : Decodes browser.decode)
    (hatob : browser.atob (encodeBase64 (serializeBinaryFuseAsArray filter)) = some (serializeBinaryFuseAsArray filter))
    (hcontains : ∀ filter key, contains filter key = true ↔ lookup filter key = some true) :
    Agrees browser encodeBase64 contains filter ↔
      Doubles.IsDouble filter.seed.toNat ∧ filter.fingerprints.length < 2 ^ 32 ∧
        ∀ hash, validateSha256 hash = true → contains filter (keyOf hash) = true →
          missed filter (positions filter (hashOf filter (keyOf hash))).2.1 =
            missed filter (positions filter (hashOf filter (keyOf hash))).2.2 := by
  unfold Agrees
  rw [deserialize_eq hdecode hatob, ← Doubles.nearest_eq_self_iff]
  by_cases hlen : filter.fingerprints.length < 2 ^ 32
  · rw [if_pos hlen]
    by_cases hseed : Doubles.nearest filter.seed.toNat = filter.seed.toNat
    · have hfilter : { ofFilter filter with seed := Doubles.nearest filter.seed.toNat } = ofFilter filter := by rw [hseed]; rfl
      rw [hfilter]
      simp only [hseed, hlen, true_and]
      refine forall_congr' fun hash => forall_congr' fun hvalid => forall_congr' fun hmember => ?_
      rw [testHash_eq hvalid, ← toNat_keyOf hvalid, ← test_of_lookup ((hcontains _ _).1 hmember)]
      simp
    · simp [hseed, ofFilter]
  · rw [if_neg hlen]
    simp
    omega

end Almond.FilterTest

namespace Almond.Sample

open BlobFilter FilterTest

/-- The digits of Base64. -/
def base64Digits : Str :=
  "ABCDEFGHIJKLMNOPQRSTUVWXYZabcdefghijklmnopqrstuvwxyz0123456789+/".toList

/-- The digit of a number. -/
def base64Digit (n : Nat) : Char :=
  base64Digits.getD (n % 64) '='

/-- Base64. -/
def toBase64 : Bytes → Str
  | a :: b :: c :: rest =>
    let n := 65536 * a.toNat + 256 * b.toNat + c.toNat
    base64Digit (n / 262144) :: base64Digit (n / 4096) :: base64Digit (n / 64) :: base64Digit n :: toBase64 rest
  | [a, b] =>
    let n := 65536 * a.toNat + 256 * b.toNat
    [base64Digit (n / 262144), base64Digit (n / 4096), base64Digit (n / 64), '=']
  | [a] =>
    let n := 65536 * a.toNat
    [base64Digit (n / 262144), base64Digit (n / 4096), '=', '=']
  | [] => []

/-- `atob` of Base64 that is well formed. -/
def fromBase64 : Str → Option Bytes
  | p :: q :: '=' :: '=' :: _ => do
    let n := 262144 * base64Digits.idxOf p + 4096 * base64Digits.idxOf q
    return [UInt8.ofNat (n / 65536)]
  | p :: q :: r :: '=' :: _ => do
    let n := 262144 * base64Digits.idxOf p + 4096 * base64Digits.idxOf q + 64 * base64Digits.idxOf r
    return [UInt8.ofNat (n / 65536), UInt8.ofNat (n / 256)]
  | p :: q :: r :: s :: rest => do
    let n := 262144 * base64Digits.idxOf p + 4096 * base64Digits.idxOf q + 64 * base64Digits.idxOf r + base64Digits.idxOf s
    return UInt8.ofNat (n / 65536) :: UInt8.ofNat (n / 256) :: UInt8.ofNat n :: (← fromBase64 rest)
  | [] => some []
  | _ => none

/-- A browser. -/
def browser : Browser where
  atob := fromBase64
  bigInt s := if s.all Char.isDigit then some (digitsValue s) else none
  decode bytes := (MessagePack.decode bytes).map toJs

/-- The browser decodes MessagePack. -/
theorem decodes_browser : Decodes browser.decode where
  whole h := by simp [browser, h.decode]
  extra h hrest := by simp [browser, h.decode_append hrest]

/-- A filter with three segments of one fingerprint. -/
def threeFingerprints (seed : BitVec 64) (fp : BitVec 16) : BinaryFuse 16 :=
  ⟨seed, 1, 0, 1, [fp, 0, 0]⟩

end Almond.Sample

namespace Almond.FilterTest

open BlobFilter

/-- A filter with a small seed, in the browser: its key is found. -/
theorem agrees_iff_small :
    testHash (deserializeBinaryFuse16 Sample.browser (Sample.toBase64 (serializeBinaryFuseAsArray (Sample.threeFingerprints 1 64700))))
      (List.replicate 64 'a') = .ok (some true) :=
  ((agrees_iff Sample.browser Sample.toBase64 (fun filter key => decide (lookup filter key = some true)) (Sample.threeFingerprints 1 64700)
    Sample.decodes_browser (by decide) (by simp)).2
      ⟨⟨1, 0, by decide, rfl⟩, by decide, fun _ _ _ => by rw [missed_eq_zero (by decide), missed_eq_zero (by decide)]⟩).2 _
    (by decide) (by decide)

/-- A filter with the seed 2^53 + 1: the browser decodes 2^53, and does not find a key of the filter. -/
theorem agrees_iff_false :
    ¬ ∀ (browser : Browser) (encodeBase64 : Bytes → Str) (contains : BinaryFuse 16 → BitVec 64 → Bool) (filter : BinaryFuse 16),
      Decodes browser.decode → browser.atob (encodeBase64 (serializeBinaryFuseAsArray filter)) = some (serializeBinaryFuseAsArray filter) →
      (∀ filter key, contains filter key = true ↔ lookup filter key = some true) →
      Agrees browser encodeBase64 contains filter := by
  intro h
  have hatob : Sample.browser.atob (Sample.toBase64 (serializeBinaryFuseAsArray (Sample.threeFingerprints 9007199254740993 25319))) =
      some (serializeBinaryFuseAsArray (Sample.threeFingerprints 9007199254740993 25319)) := by decide
  have hfound := (h Sample.browser Sample.toBase64 (fun filter key => decide (lookup filter key = some true))
    (Sample.threeFingerprints 9007199254740993 25319) Sample.decodes_browser hatob (by simp)).2 (List.replicate 64 'a')
    (by decide) (by decide)
  rw [deserialize_eq Sample.decodes_browser hatob, if_pos (by decide)] at hfound
  exact absurd hfound (by decide)

end Almond.FilterTest
