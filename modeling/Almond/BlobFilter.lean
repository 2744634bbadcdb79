import Almond.Auth
import Almond.BlobName
import Almond.Catalogue
import Almond.Conc.Protocol
import Almond.Http

/-! # The filter of all stored hashes

`GET /filter` renders a filter of the hashes in the index, and keeps the last one that it has rendered. -/

namespace Almond.BlobFilter

open Conc

/-- An `f64`, by its bits. -/
abbrev F64 := BitVec 64

/-- `f64::is_finite`. -/
def isFinite (rate : F64) : Bool :=
  rate.extractLsb' 52 11 ≠ BitVec.allOnes 11

/-- The rate of false positives that a request asks for: 0.001, 0.01 or 0.1. -/
def fpRate : Option F64 → Option F64
  | none => some 0x3F847AE147AE147B
  | some rate =>
    if isFinite rate ∧ (rate = 0x3F50624DD2F1A9FC ∨ rate = 0x3F847AE147AE147B ∨ rate = 0x3FB999999999999A) then some rate else none

/-- The rate in the key of the cache: a binary fuse filter has a rate of its own. -/
def fpRateBits (algorithm : String) (rate : F64) : F64 :=
  if algorithm = "bloom" then rate else 0x3F847AE147AE147B

/-! ## Binary fuse filters -/

/-- The value of a hexadecimal digit. -/
def hexValue (c : Char) : Option Nat :=
  if c.isDigit then some (c.toNat - '0'.toNat)
  else if 'a' ≤ c ∧ c ≤ 'f' then some (c.toNat - 'a'.toNat + 10)
  else if 'A' ≤ c ∧ c ≤ 'F' then some (c.toNat - 'A'.toNat + 10)
  else none

/-- `u8::from_str_radix` of two characters, with base 16. -/
def hexByte : Str → Option Nat
  | ['+', low] => hexValue low
  | [high, low] => do return 16 * (← hexValue high) + (← hexValue low)
  | _ => none

/-- The first eight bytes of a hash, as a `u64` with the first byte in front. -/
def sha256ToU64 (hex : Str) : Nat :=
  let bytes := (List.range 8).filterMap fun i => hexByte ((hex.drop (2 * i)).take 2)
  if bytes.length ≥ 8 then bytes.foldl (fun n byte => 256 * n + byte) 0 else 0

/-- A binary fuse filter with fingerprints of so many bits. -/
structure BinaryFuse (width : Nat) where
  seed : BitVec 64
  segmentLength : BitVec 32
  segmentLengthMask : BitVec 32
  segmentCountLength : BitVec 32
  fingerprints : List (BitVec width)
  deriving DecidableEq

/-- The bytes of a number, the highest first. -/
def bigEndian : Nat → Nat → Bytes
  | 0, _ => []
  | len + 1, n => UInt8.ofNat (n / 256 ^ len) :: bigEndian len n

/-- `write_array_len`. -/
def writeArrayLen (len : Nat) : Bytes :=
  if len < 16 then [UInt8.ofNat (0x90 + len)]
  else if len < 2 ^ 16 then 0xdc :: bigEndian 2 len
  else 0xdd :: bigEndian 4 len

/-- One fingerprint, in as few bytes as it needs. -/
def writeFingerprint (fp : Nat) : Bytes :=
  if fp < 2 ^ 8 then 0xcc :: bigEndian 1 fp
  else if fp < 2 ^ 16 then 0xcd :: bigEndian 2 fp
  else if fp < 2 ^ 32 then 0xce :: bigEndian 4 fp
  else 0xcf :: bigEndian 8 fp

/-- The filter as a MessagePack array: the seed, the descriptor and the fingerprints. -/
def serializeBinaryFuseAsArray {width : Nat} (filter : BinaryFuse width) : Bytes :=
  writeArrayLen 5 ++ 0xcf :: bigEndian 8 filter.seed.toNat ++ 0xce :: bigEndian 4 filter.segmentLength.toNat ++
    0xce :: bigEndian 4 filter.segmentLengthMask.toNat ++ 0xce :: bigEndian 4 filter.segmentCountLength.toNat ++
    writeArrayLen (filter.fingerprints.length % 2 ^ 32) ++ (filter.fingerprints.map fun fp => writeFingerprint fp.toNat).flatten

/-! ## Rendering -/

/-- The fields that only a bloom filter has. -/
structure BloomFields where
  fp : F64
  k : Nat
  m : Nat
  deriving DecidableEq

/-- The JSON object that is served. -/
structure Payload where
  type : String
  timestamp : Int
  count : Nat
  filter : Str
  bloom : Option BloomFields
  deriving DecidableEq

/-- The libraries that build and encode filters. -/
structure FilterLibs where
  /-- `Bloom::new_for_fp_rate` from a seed, and `set` for each key: the slice, and the number of hash functions. -/
  bloom : (numItems : Nat) → F64 → (seed : Nat) → List Str → Option (Bytes × Nat)
  binaryFuse8 : List Nat → Option (BinaryFuse 8)
  binaryFuse16 : List Nat → Option (BinaryFuse 16)
  binaryFuse32 : List Nat → Option (BinaryFuse 32)
  encodeBase64 : Bytes → Str
  /-- `serde_json::to_vec`. -/
  toVec : Payload → Except String Bytes
  sha256 : Bytes → Bytes

/-- A filter that was built. -/
inductive FilterType where
  | bloom (slice : Bytes) (numberOfHashFunctions : Nat)
  | fuse8 (filter : BinaryFuse 8)
  | fuse16 (filter : BinaryFuse 16)
  | fuse32 (filter : BinaryFuse 32)

namespace FilterType

/-- The name of the type. -/
def typeName : FilterType → String
  | .bloom _ _ => "bloom"
  | .fuse8 _ => "binary-fuse-8"
  | .fuse16 _ => "binary-fuse-16"
  | .fuse32 _ => "binary-fuse-32"

/-- The bytes of the filter. -/
def serialize : FilterType → Bytes
  | .bloom slice _ => slice
  | .fuse8 filter => serializeBinaryFuseAsArray filter
  | .fuse16 filter => serializeBinaryFuseAsArray filter
  | .fuse32 filter => serializeBinaryFuseAsArray filter

/-- The fields of a bloom filter. -/
def bloomFields (rate : F64) : FilterType → Option BloomFields
  | .bloom slice k => some ⟨rate, k, slice.length * 8⟩
  | _ => none

end FilterType

/-- A binary fuse filter of some fingerprints. -/
def buildFuse {width : Nat} (construct : List Nat → Option (BinaryFuse width)) (fingerprints : List Nat) :
    Except String (BinaryFuse width) :=
  if fingerprints = [] then .error "empty fingerprints"
  else match construct fingerprints with
    | some filter => .ok filter
    | none => .error "failed to construct filter"

/-- Build the filter of an algorithm. -/
def buildFilter (libs : FilterLibs) (algorithm : String) (keys : List Str) (fingerprints : List Nat) (rate : F64) (seed : Nat) :
    Except String FilterType :=
  match algorithm with
  | "bloom" =>
    match libs.bloom (max keys.length 1) rate seed keys with
    | some (slice, k) => .ok (.bloom slice k)
    | none => .error "failed to create bloom filter"
  | "binary-fuse-8" => (buildFuse libs.binaryFuse8 fingerprints).map .fuse8
  | "binary-fuse-16" => (buildFuse libs.binaryFuse16 fingerprints).map .fuse16
  | "binary-fuse-32" => (buildFuse libs.binaryFuse32 fingerprints).map .fuse32
  | _ => .error "unknown algorithm"

/-- The object that describes some keys. -/
def payload (libs : FilterLibs) (algorithm : String) (keys : List Str) (timestamp : Int) (rate : F64) (seed : Nat) :
    Except String Payload :=
  if keys = [] ∧ ¬ "bloom".toList <+: algorithm.toList then .ok ⟨algorithm, timestamp, 0, [], none⟩
  else do
    let fingerprints := keys.map sha256ToU64
    let filter ← buildFilter libs algorithm keys fingerprints rate seed
    return ⟨filter.typeName, timestamp, keys.length, libs.encodeBase64 filter.serialize, filter.bloomFields rate⟩

/-- `hex::encode`. -/
def hexEncode (bytes : Bytes) : Str :=
  bytes.flatMap fun byte => [Nat.digitChar (byte.toNat / 16), Nat.digitChar (byte.toNat % 16)]

/-- The validator of a body, derived from its content. -/
def etagOf (libs : FilterLibs) (body : Bytes) : Str :=
  '"' :: hexEncode ((libs.sha256 body).take 16) ++ ['"']

/-- A filter that was rendered. -/
structure CachedFilter where
  generation : Nat
  fpRateBits : F64
  body : Bytes
  etag : Str
  deriving DecidableEq

/-- What `render_filter` makes of the keys of the index. -/
def rendered (libs : FilterLibs) (algorithm : String) (keys : List Str) (generation : Nat) (timestamp : Int) (rate : F64)
    (seed : Nat) : Except String CachedFilter := do
  let payload ← payload libs algorithm keys timestamp rate seed
  let body ← libs.toVec payload
  return ⟨generation, rate, body, etagOf libs body⟩

/-- The hash that a key starts with. `none` stands for the panic of a slice that cuts a character. -/
def hashKey (key : Str) : Option (Option Str) :=
  if byteLen key ≥ 64 then
    (BlobName.splitAtByte 64 key).map fun (head, _) => if head.all Auth.isHexDigit then some head else none
  else some none

/-- `BlobIndex::hash_keys`: the hashes in the index, and its generation. -/
def hashKeys (i : BlobIndex) : Option (List Str × Nat) := do
  let keys ← i.map.keys.mapM hashKey
  return (keys.filterMap id, i.generation)

/-! ## Requests -/

/-- What the requests share: the index, and the filter that was rendered last. -/
structure FilterState where
  index : BlobIndex
  filterCache : Option CachedFilter

/-- What a task awaits. -/
inductive FilterReq where
  | generation
  | hashKeys
  | timestamp
  /-- The randomness of a bloom filter. -/
  | seed
  | cached
  | setCached (filter : CachedFilter)
  /-- A change of the index. -/
  | mutate (op : BlobIndex.Mutation)

/-- What each of them returns. -/
@[reducible] def FilterResp : FilterReq → Type
  | .generation | .seed => Nat
  | .hashKeys => Option (List Str × Nat)
  | .timestamp => Int
  | .cached => Option CachedFilter
  | .setCached _ | .mutate _ => Unit

/-- What the outside decides: the clock, and randomness. -/
structure FilterEnv where
  timestamp : Int
  seed : Nat

/-- One request of a task. -/
def exec (_ : Tid) : (r : FilterReq) → FilterEnv → FilterState → FilterResp r × FilterState
  | .generation, _, s => (s.index.generation, s)
  | .hashKeys, _, s => (hashKeys s.index, s)
  | .timestamp, env, s => (env.timestamp, s)
  | .seed, env, s => (env.seed, s)
  | .cached, _, s => (s.filterCache, s)
  | .setCached filter, _, s => ((), { s with filterCache := some filter })
  | .mutate op, _, s => ((), { s with index := s.index.apply op })

/-- A program over the index and the cache. The lock is the one of the cache; a reader holds it only for a moment. -/
abbrev Filtering := Task FilterReq FilterResp Unit

/-- Await a request. -/
def await (r : FilterReq) : Filtering (FilterResp r) :=
  .perform r

/-- The response with a filter. -/
structure FilterResponse where
  status : Nat
  contentType : Option String
  etag : Str
  cacheControl : String
  body : Bytes
  deriving DecidableEq

/-- The response to a request, which may hold the filter already. -/
def filterResponse (headers : Headers) (etag : Str) (body : Bytes) : FilterResponse :=
  if Http.notModified headers etag then ⟨304, none, etag, "max-age=60", []⟩
  else ⟨200, some "application/json", etag, "max-age=60", body⟩

/-- What a task ends with. -/
inductive Outcome where
  /-- The response of a request, or the status of its error. -/
  | responded (response : Except Nat FilterResponse)
  | panicked
  | mutated

/-- The cached filter, when it is of this generation and rate. -/
def hit (generation : Nat) (bits : F64) (cached : Option CachedFilter) : Option CachedFilter :=
  cached.filter fun filter => filter.generation = generation ∧ filter.fpRateBits = bits

/-- Render the filter of the index as it is now. `none` stands for a panic. -/
def renderFilter (libs : FilterLibs) (algorithm : String) (rate : F64) : Filtering (Option (Except String CachedFilter)) := do
  match ← await .hashKeys with
  | none => return none
  | some (keys, generation) =>
    let timestamp ← await .timestamp
    let seed ← await .seed
    return some (rendered libs algorithm keys generation timestamp rate seed)

/-- The part of a request that has the cache to itself. -/
def renderLocked (libs : FilterLibs) (algorithm : String) (rate : F64) (generation : Nat) (headers : Headers) :
    Filtering Outcome := do
  match hit generation (fpRateBits algorithm rate) (← await .cached) with
  | some filter => return .responded (.ok (filterResponse headers filter.etag filter.body))
  | none =>
    match ← renderFilter libs algorithm rate with
    | none => return .panicked
    | some (.error _) => return .responded (.error 500)
    | some (.ok filter) =>
      await (.setCached filter)
      return .responded (.ok (filterResponse headers filter.etag filter.body))

/-- `GET /filter`. -/
def getFilter (libs : FilterLibs) (algorithm : String) (fp : Option F64) (headers : Headers) : Filtering Outcome := do
  match fpRate fp with
  | none => return .responded (.error 400)
  | some rate =>
    let generation ← await .generation
    match hit generation (fpRateBits algorithm rate) (← Task.withLock () (await .cached)) with
    | some filter => return .responded (.ok (filterResponse headers filter.etag filter.body))
    | none => Task.withLock () (renderLocked libs algorithm rate generation headers)

/-! ## The machine -/

/-- What can be started. -/
inductive FilterOp where
  | getFilter (fp : Option F64) (headers : Headers)
  | mutate (op : BlobIndex.Mutation)

/-- The requests for the filter, interleaved with changes of the index. A new process begins by building its index. -/
def machine (libs : FilterLibs) (algorithm : String) : Machine FilterReq FilterResp Unit FilterEnv FilterState FilterOp Outcome where
  body
    | .getFilter fp headers => getFilter libs algorithm fp headers
    | .mutate op => do
      await (.mutate op)
      return .mutated
  exec := exec
  discard _ s := s
  enabled _ _ := true
  tick _ s := s
  crash _ := ⟨.empty, none⟩
  boot := .mutate (.replace ∅)

end Almond.BlobFilter
