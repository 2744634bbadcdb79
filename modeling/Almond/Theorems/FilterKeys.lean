import Almond.Sample
import Almond.Theorems.BlobName
import Almond.Theorems.FilterCache
import Mathlib.Data.Nat.Digits.Lemmas

/-! # Distinct fingerprints -/

namespace Almond.BlobFilter

open Conc Auth

/-! ## Hexadecimal digits -/

/-- A hexadecimal digit has a value, and in lower case it is the digit of its value. -/
theorem hexValue_of_isHexDigit {c : Char} (h : isHexDigit c = true) :
    ∃ d < 16, hexValue c = some d ∧ d.digitChar = c.toLower := by
  have hall : ∀ n < 103, isHexDigit (Char.ofNat n) = true →
      ∃ d < 16, hexValue (Char.ofNat n) = some d ∧ d.digitChar = (Char.ofNat n).toLower := by decide
  have hlt : c.toNat < 103 := by
    simp [isHexDigit, Char.isDigit, UInt32.le_iff_toNat_le, Char.le_def] at h
    omega
  rw [← Char.ofNat_toNat c] at h ⊢
  exact hall c.toNat hlt h

/-- The value of a hexadecimal digit is that of the digit in lower case. -/
theorem hexValue_toLower {c : Char} (h : isHexDigit c = true) : hexValue c.toLower = hexValue c := by
  obtain ⟨d, hlt, hd, hlower⟩ := hexValue_of_isHexDigit h
  have hall : ∀ d < 16, hexValue d.digitChar = some d := by decide
  rw [← hlower, hall d hlt, hd]

/-- A hexadecimal digit is one byte. -/
theorem utf8Size_of_isHexDigit {c : Char} (h : isHexDigit c = true) : c.utf8Size = 1 := by
  simp [isHexDigit, Char.isDigit, Char.le_def] at h
  have hval : c.val ≤ 0x7f := by
    rw [UInt32.le_iff_toNat_le]
    simp [UInt32.le_iff_toNat_le] at h ⊢
    omega
  simp [Char.utf8Size, hval]

/-- A text of hexadecimal digits has as many bytes as characters. -/
theorem byteLen_of_all_isHexDigit {key : Str} (h : ∀ c ∈ key, isHexDigit c = true) : byteLen key = key.length := by
  induction key with
  | nil => rfl
  | cons c key ih =>
    have hlen : byteLen (c :: key) = c.utf8Size + byteLen key := rfl
    rw [hlen, utf8Size_of_isHexDigit (h c (by simp)), ih fun c hc => h c (by simp [hc]), List.length_cons, Nat.add_comm]

/-- The values of some hexadecimal digits. -/
def hexDigits (digits : Str) : List Nat :=
  digits.filterMap hexValue

/-- The digits of a text in lower case are those of the text. -/
theorem hexDigits_toLower {digits : Str} (h : ∀ c ∈ digits, isHexDigit c = true) :
    hexDigits (digits.map Char.toLower) = hexDigits digits := by
  rw [hexDigits, List.filterMap_map]
  exact List.filterMap_congr fun c hc => hexValue_toLower (h c hc)

/-- A text in lower case is spelled by its digits. -/
theorem digitChar_hexDigits {digits : Str} (h : ∀ c ∈ digits, isHexDigit c = true) :
    (hexDigits digits).map Nat.digitChar = digits.map Char.toLower ∧ (∀ d ∈ hexDigits digits, d < 16) := by
  induction digits with
  | nil => simp [hexDigits]
  | cons c digits ih =>
    obtain ⟨d, hlt, hd, hlower⟩ := hexValue_of_isHexDigit (h c (by simp))
    have hcons : hexDigits (c :: digits) = d :: hexDigits digits := by simp [hexDigits, hd]
    obtain ⟨hmap, hdigits⟩ := ih fun c hc => h c (by simp [hc])
    rw [hcons]
    simp [hlower, hmap, hlt]
    exact hdigits

/-! ## Fingerprints -/

/-- The first bytes of a hash. -/
def hexBytes (n : Nat) (hex : Str) : List Nat :=
  (List.range n).filterMap fun i => hexByte ((hex.drop (2 * i)).take 2)

/-- Two digits are a byte. -/
theorem hexBytes_cons {high low : Char} {x y : Nat} (n : Nat) (hhigh : hexValue high = some x) (hlow : hexValue low = some y)
    (hplus : high ≠ '+') (rest : Str) : hexBytes (n + 1) (high :: low :: rest) = (16 * x + y) :: hexBytes n rest := by
  have hbyte : hexByte [high, low] = some (16 * x + y) := by simp [hexByte, hhigh, hlow]
  simp [hexBytes, List.range_succ_eq_map, hbyte, List.filterMap_map, Nat.mul_add]

/-- Each byte is two digits. -/
theorem hexBytes_foldl (n acc : Nat) (hex : Str) (hlen : 2 * n ≤ hex.length) (h : ∀ c ∈ hex, isHexDigit c = true) :
    (hexBytes n hex).length = n ∧
      (hexBytes n hex).foldl (fun n byte => 256 * n + byte) acc =
        (hexDigits (hex.take (2 * n))).foldl (fun n digit => 16 * n + digit) acc := by
  induction n generalizing hex acc with
  | zero => simp [hexBytes, hexDigits]
  | succ n ih =>
    match hex with
    | [] => simp at hlen
    | [_] => simp at hlen; omega
    | high :: low :: rest =>
      obtain ⟨x, hx, hhigh, _⟩ := hexValue_of_isHexDigit (h high (by simp))
      obtain ⟨y, hy, hlow, _⟩ := hexValue_of_isHexDigit (h low (by simp))
      have hplus : high ≠ '+' := by rintro rfl; exact absurd (h '+' (by simp)) (by decide)
      have hrest := hexBytes_cons n hhigh hlow hplus rest
      obtain ⟨hlength, hfold⟩ := ih (256 * acc + (16 * x + y)) rest (by simp at hlen; omega)
        fun c hc => h c (by simp [hc])
      have hdigits : hexDigits ((high :: low :: rest).take (2 * (n + 1))) = x :: y :: hexDigits (rest.take (2 * n)) := by
        simp [hexDigits, Nat.mul_add, hhigh, hlow]
      have hacc : 16 * (16 * acc + x) + y = 256 * acc + (16 * x + y) := by omega
      rw [hrest, hdigits]
      simp [hlength, hfold, hacc]

/-- A fingerprint is the number that the first 16 digits stand for. -/
theorem sha256ToU64_eq {hex : Str} (hlen : 16 ≤ hex.length) (h : ∀ c ∈ hex, isHexDigit c = true) :
    sha256ToU64 hex = Nat.ofDigits 16 (hexDigits (hex.take 16)).reverse := by
  obtain ⟨hlength, hfold⟩ := hexBytes_foldl 8 0 hex hlen h
  have hbytes : sha256ToU64 hex = if (hexBytes 8 hex).length ≥ 8 then (hexBytes 8 hex).foldl (fun n byte => 256 * n + byte) 0 else 0 :=
    rfl
  rw [hbytes, if_pos (by omega), hfold, Nat.ofDigits_eq_foldr, List.foldr_reverse]
  simp [Nat.add_comm]

/-- The first 16 digits of a hash, in lower case. -/
def hexPrefix (key : Str) : Str :=
  (key.take 16).map Char.toLower

/-- Two hashes have the same fingerprint exactly when they share their first 16 digits. -/
theorem sha256ToU64_eq_iff {key key' : Str} (hlen : 16 ≤ key.length) (hlen' : 16 ≤ key'.length)
    (h : ∀ c ∈ key, isHexDigit c = true) (h' : ∀ c ∈ key', isHexDigit c = true) :
    sha256ToU64 key = sha256ToU64 key' ↔ hexPrefix key = hexPrefix key' := by
  have htake : ∀ c ∈ key.take 16, isHexDigit c = true := fun c hc => h c (List.mem_of_mem_take hc)
  have htake' : ∀ c ∈ key'.take 16, isHexDigit c = true := fun c hc => h' c (List.mem_of_mem_take hc)
  obtain ⟨hmap, hlt⟩ := digitChar_hexDigits htake
  obtain ⟨hmap', hlt'⟩ := digitChar_hexDigits htake'
  rw [sha256ToU64_eq hlen h, sha256ToU64_eq hlen' h']
  constructor
  · intro heq
    have hlength : (hexDigits (key.take 16)).length = (hexDigits (key'.take 16)).length := by
      have := congrArg List.length hmap
      have := congrArg List.length hmap'
      simp at *
      omega
    have hdigits := Nat.ofDigits_inj_of_len_eq (by decide) (by simpa using hlength) (by simpa using hlt) (by simpa using hlt') heq
    rw [hexPrefix, hexPrefix, ← hmap, ← hmap', List.reverse_injective hdigits]
  · intro heq
    rw [← hexDigits_toLower htake, ← hexDigits_toLower htake']
    exact congrArg (fun digits => Nat.ofDigits 16 (hexDigits digits).reverse) heq

/-- The hash that a key starts with is 64 hexadecimal digits. -/
theorem hashKey_eq_some {key hash : Str} (h : hashKey key = some (some hash)) :
    hash.length = 64 ∧ ∀ c ∈ hash, isHexDigit c = true := by
  unfold hashKey at h
  split at h
  · obtain ⟨⟨head, rest⟩, hsplit, hhead⟩ := Option.map_eq_some_iff.1 h
    simp at hhead
    obtain ⟨hdigits, rfl⟩ := hhead
    have hlen := (BlobName.splitAtByte_eq_some hsplit).2
    rw [byteLen_of_all_isHexDigit hdigits] at hlen
    exact ⟨hlen, hdigits⟩
  · simp at h

/-- What a list is mapped to comes from its elements. -/
theorem exists_of_mem_mapM {α β : Type} {f : α → Option β} {l : List α} {l' : List β} {b : β} (h : l.mapM f = some l') (hb : b ∈ l') :
    ∃ a ∈ l, f a = some b := by
  induction l generalizing l' with
  | nil =>
    cases h
    simp at hb
  | cons a l ih =>
    simp [List.mapM_cons, Option.bind_eq_some_iff] at h
    obtain ⟨b', hb', l'', hl, rfl⟩ := h
    rcases List.mem_cons.1 hb with rfl | hb
    · exact ⟨a, by simp, hb'⟩
    · obtain ⟨a', ha', hfa⟩ := ih hl hb
      exact ⟨a', by simp [ha'], hfa⟩

/-- The hashes in the index are 64 hexadecimal digits each. -/
theorem hash_of_mem_hashKeys {i : BlobIndex} {keys : List Str} {generation : Nat} (h : hashKeys i = some (keys, generation)) :
    generation = i.generation ∧ ∀ key ∈ keys, key.length = 64 ∧ ∀ c ∈ key, isHexDigit c = true := by
  simp [hashKeys, Option.bind_eq_some_iff] at h
  obtain ⟨found, hfound, rfl, rfl⟩ := h
  refine ⟨rfl, fun hash hhash => ?_⟩
  obtain ⟨hash', hmem, rfl⟩ := List.mem_filterMap.1 hhash
  obtain ⟨key, _, hkey⟩ := exists_of_mem_mapM hfound hmem
  exact hashKey_eq_some hkey

/-- Fingerprints are distinct exactly when no two hashes share their first 16 digits. -/
theorem nodup_fingerprints_iff {keys : List Str} (h : ∀ key ∈ keys, key.length = 64 ∧ ∀ c ∈ key, isHexDigit c = true) :
    (keys.map sha256ToU64).Nodup ↔ (keys.map hexPrefix).Nodup := by
  simp only [List.Nodup, List.pairwise_map]
  refine List.Pairwise.iff_of_mem fun {key key'} hkey hkey' => ?_
  obtain ⟨hlen, hdigits⟩ := h key hkey
  obtain ⟨hlen', hdigits'⟩ := h key' hkey'
  rw [Ne, Ne, sha256ToU64_eq_iff (by omega) (by omega) hdigits hdigits']

/-- The fingerprints that are handed to the constructor of binary fuse filters, one for each hash in the index, are pairwise distinct. -/
def DistinctFingerprints (i : BlobIndex) : Prop :=
  ∃ keys generation, hashKeys i = some (keys, generation) ∧ (keys.map sha256ToU64).Nodup

/-- No two hashes in the index share their first 16 digits. -/
def DistinctPrefixes (i : BlobIndex) : Prop :=
  ∃ keys generation, hashKeys i = some (keys, generation) ∧ (keys.map hexPrefix).Nodup

/-- The fingerprints of an index are distinct exactly when no two of its hashes share their first 16 digits. -/
theorem distinctFingerprints_iff {i : BlobIndex} : DistinctFingerprints i ↔ DistinctPrefixes i := by
  refine exists_congr fun keys => exists_congr fun generation => and_congr_right fun hkeys => ?_
  exact nodup_fingerprints_iff (hash_of_mem_hashKeys hkeys).2

/-! ## Rendering -/

variable {libs : FilterLibs} {algorithm : String} {rate : F64}

/-- The algorithms of binary fuse filters. -/
def IsFuse (algorithm : String) : Prop :=
  algorithm = "binary-fuse-8" ∨ algorithm = "binary-fuse-16" ∨ algorithm = "binary-fuse-32"

/-- The constructor of an algorithm makes a filter of some fingerprints. -/
def constructs (libs : FilterLibs) (algorithm : String) (fingerprints : List Nat) : Bool :=
  match algorithm with
  | "binary-fuse-8" => (libs.binaryFuse8 fingerprints).isSome
  | "binary-fuse-16" => (libs.binaryFuse16 fingerprints).isSome
  | "binary-fuse-32" => (libs.binaryFuse32 fingerprints).isSome
  | _ => false

/-- A binary fuse filter is built when its constructor makes one. -/
theorem buildFuse_isOk {width : Nat} (construct : List Nat → Option (BinaryFuse width)) {fingerprints : List Nat}
    (hne : fingerprints ≠ []) : (buildFuse construct fingerprints).isOk = (construct fingerprints).isSome := by
  rw [buildFuse, if_neg hne]
  cases construct fingerprints <;> rfl

/-- A filter of an algorithm is built when its constructor makes one. -/
theorem buildFilter_isOk (halgorithm : IsFuse algorithm) (keys : List Str) {fingerprints : List Nat} (hne : fingerprints ≠ [])
    (seed : Nat) : (buildFilter libs algorithm keys fingerprints rate seed).isOk = constructs libs algorithm fingerprints := by
  have hmap : ∀ {α β : Type} (x : Except String α) (f : α → β), (x.map f).isOk = x.isOk := by
    intro α β x f
    cases x <;> rfl
  rcases halgorithm with rfl | rfl | rfl
  · exact (hmap _ _).trans (buildFuse_isOk libs.binaryFuse8 hne)
  · exact (hmap _ _).trans (buildFuse_isOk libs.binaryFuse16 hne)
  · exact (hmap _ _).trans (buildFuse_isOk libs.binaryFuse32 hne)

/-- Rendering succeeds exactly when there is no hash, or the constructor makes a filter of the fingerprints. -/
theorem rendered_isOk (htoVec : ∀ p, (libs.toVec p).isOk = true) (halgorithm : IsFuse algorithm) (keys : List Str) (generation : Nat)
    (timestamp : Int) (seed : Nat) : (rendered libs algorithm keys generation timestamp rate seed).isOk = true ↔
      keys = [] ∨ constructs libs algorithm (keys.map sha256ToU64) = true := by
  have hpayload : (payload libs algorithm keys timestamp rate seed).isOk = true ↔
      keys = [] ∨ constructs libs algorithm (keys.map sha256ToU64) = true := by
    unfold payload
    by_cases hkeys : keys = []
    · have hbloom : ¬ "bloom".toList <+: algorithm.toList := by
        rcases halgorithm with rfl | rfl | rfl <;> decide
      rw [if_pos ⟨hkeys, hbloom⟩]
      exact iff_of_true rfl (.inl hkeys)
    · have hbuild : (buildFilter libs algorithm keys (keys.map sha256ToU64) rate seed).isOk = _ :=
        buildFilter_isOk halgorithm keys (mt List.map_eq_nil_iff.1 hkeys) seed
      rw [if_neg fun hand => hkeys hand.1, or_iff_right hkeys, ← hbuild]
      dsimp only
      cases buildFilter libs algorithm keys (keys.map sha256ToU64) rate seed <;> rfl
  rw [← hpayload]
  unfold rendered
  cases payload libs algorithm keys timestamp rate seed with
  | error e => rfl
  | ok p =>
    have hp := htoVec p
    cases hbody : libs.toVec p with
    | error e => simp [hbody, Except.isOk, Except.toBool] at hp
    | ok body => simp [bind, Except.bind, pure, Except.pure, hbody, Except.isOk, Except.toBool]

/-! ## Requests -/

variable {fp : Option F64} {headers : Headers} {s : FilterState} {env : Nat → FilterEnv} {t : Tid}

/-- A request is answered with a filter. -/
def Succeeds (libs : FilterLibs) (algorithm : String) (fp : Option F64) (headers : Headers) (t : Tid) (env : Nat → FilterEnv)
    (s : FilterState) : Prop :=
  ∃ response, ((getFilter libs algorithm fp headers).alone (exec t) env 0 s).1 = .responded (.ok response)

/-- A request that renders its filter succeeds exactly when rendering does. -/
theorem succeeds_iff_of_miss (hrate : fpRate fp = some rate)
    (hmiss : hit s.index.generation (fpRateBits algorithm rate) s.filterCache = none) :
    Succeeds libs algorithm fp headers t env s ↔ ∃ keys generation, hashKeys s.index = some (keys, generation) ∧
      (rendered libs algorithm keys generation (env 4).timestamp rate (env 5).seed).isOk = true := by
  unfold Succeeds getFilter
  rw [hrate]
  simp [await, Task.withLock, Task.perform, Task.alone, exec, hmiss, renderLocked, renderFilter]
  cases hkeys : hashKeys s.index with
  | none => simp [Task.alone]
  | some read =>
    obtain ⟨keys, generation⟩ := read
    cases hrendered : rendered libs algorithm keys generation (env 4).timestamp rate (env 5).seed with
    | error e => simp [Task.alone, exec, hrendered, Except.isOk, Except.toBool]
    | ok filter => simp [Task.alone, exec, hrendered, Except.isOk, Except.toBool]

/-- A request succeeds exactly when the cache holds its filter, there is no hash, or the constructor makes a filter of the fingerprints. -/
theorem succeeds_iff (htoVec : ∀ p, (libs.toVec p).isOk = true) (halgorithm : IsFuse algorithm) (hrate : fpRate fp = some rate) :
    Succeeds libs algorithm fp headers t env s ↔
      (hit s.index.generation (fpRateBits algorithm rate) s.filterCache).isSome ∨ ∃ keys generation,
        hashKeys s.index = some (keys, generation) ∧ (keys = [] ∨ constructs libs algorithm (keys.map sha256ToU64) = true) := by
  cases hcached : hit s.index.generation (fpRateBits algorithm rate) s.filterCache with
  | some filter => simp [Succeeds, (getFilter_hit _ _ _ _ hrate hcached).1]
  | none =>
    rw [succeeds_iff_of_miss hrate hcached]
    simp only [rendered_isOk htoVec halgorithm, Option.isSome_none, Bool.false_eq_true, false_or]

/-- The fingerprints of the index are distinct exactly when no two hashes share their first 16 digits; if the constructor makes a filter of
distinct fingerprints, it is then and only then that they are distinct and the filter is served. -/
theorem fingerprints_distinct (libs : FilterLibs) (algorithm : String) (fp : Option F64) (rate : F64) (headers : Headers) (t : Tid)
    (env : Nat → FilterEnv) (s : FilterState)
    (hconstructs : ∀ fingerprints, fingerprints ≠ [] → fingerprints.Nodup → constructs libs algorithm fingerprints = true)
    (htoVec : ∀ p, (libs.toVec p).isOk = true) (halgorithm : IsFuse algorithm) (hrate : fpRate fp = some rate) :
    (DistinctFingerprints s.index ↔ DistinctPrefixes s.index) ∧
    (DistinctFingerprints s.index ∧ Succeeds libs algorithm fp headers t env s ↔ DistinctPrefixes s.index) := by
  refine ⟨distinctFingerprints_iff, fun hand => distinctFingerprints_iff.1 hand.1, fun hprefixes => ?_⟩
  have hdistinct := distinctFingerprints_iff.2 hprefixes
  refine ⟨hdistinct, (succeeds_iff htoVec halgorithm hrate).2 (.inr ?_)⟩
  obtain ⟨keys, generation, hkeys, hnodup⟩ := hdistinct
  refine ⟨keys, generation, hkeys, ?_⟩
  by_cases hnil : keys = []
  · exact .inl hnil
  · exact .inr (hconstructs _ (mt List.map_eq_nil_iff.1 hnil) hnodup)

end Almond.BlobFilter

namespace Almond.Sample

open BlobFilter

/-- A constructor of binary fuse filters, each with three segments of four fingerprints. It removes duplicates, and never fails. -/
def binaryFuse {width : Nat} (fingerprints : List Nat) : Option (BinaryFuse width) :=
  some ⟨1, 4, 3, 4, List.replicate 12 (BitVec.ofNat width (fingerprints.dedup.foldl Nat.xor 0))⟩

/-- Libraries that build binary fuse filters. -/
def fuseLibs : FilterLibs :=
  { filterLibs with binaryFuse8 := binaryFuse, binaryFuse16 := binaryFuse, binaryFuse32 := binaryFuse }

/-- A hash of one digit. -/
def hashOf (digit : Char) : Str :=
  List.replicate 64 digit

/-- An index of some hashes. -/
def indexOf (hashes : List Str) : BlobIndex :=
  hashes.foldl (fun i hash => (i.insertEntry hash (metadata hash)).1) .empty

end Almond.Sample

namespace Almond.BlobFilter

open Conc Sample

/-- The fingerprints of two hashes that differ in their first digits are distinct, and their filter is served. -/
theorem fingerprints_distinct_pair : DistinctFingerprints (indexOf [hashOf 'a', hashOf 'b']) ∧
    Succeeds fuseLibs "binary-fuse-16" none [] 0 (fun _ => ⟨1700000000, 0⟩) ⟨indexOf [hashOf 'a', hashOf 'b'], none⟩ :=
  (fingerprints_distinct fuseLibs "binary-fuse-16" none 0x3F847AE147AE147B [] 0 (fun _ => ⟨1700000000, 0⟩)
    ⟨indexOf [hashOf 'a', hashOf 'b'], none⟩ (fun _ _ _ => rfl) (fun _ => rfl) (.inr (.inl rfl)) rfl).2.2
    ⟨[hashOf 'b', hashOf 'a'], 2, by decide, by decide⟩

/-- Two hashes that differ in their last digit only are handed to the constructor as one fingerprint, twice. -/
theorem fingerprints_distinct_false : ¬ ∀ i : BlobIndex, DistinctFingerprints i := by
  intro hall
  obtain ⟨keys, generation, hread, hnodup⟩ := hall (indexOf [hashOf 'a', (hashOf 'a').dropLast ++ ['b']])
  have hkeys : hashKeys (indexOf [hashOf 'a', (hashOf 'a').dropLast ++ ['b']]) =
      some ([(hashOf 'a').dropLast ++ ['b'], hashOf 'a'], 2) := by decide
  rw [hkeys] at hread
  obtain ⟨rfl, rfl⟩ := Prod.mk.inj (Option.some.inj hread)
  exact absurd hnodup (by decide)

end Almond.BlobFilter
