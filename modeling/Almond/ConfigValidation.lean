import Almond.ConfigDocument
import Almond.Data.Doubles

/-! # The validators of the configuration editor

What the form lets through: the grammar of each kind of variable, and the rules between variables. Whether a text is a URL is for the
browser to say. -/

namespace Almond.ConfigEditor

/-! ## Strings -/

/-- `trim`. -/
def trim (s : JsString) : JsString :=
  trimEnd (skipWs s)

/-- A letter of the alphabet in lower case. -/
def lowerUnit (c : CodeUnit) : CodeUnit :=
  if 0x41 ≤ c && c ≤ 0x5A then c + 0x20 else c

/-- What a pattern with the flag `i` compares. Without the flag `u` nothing else is taken for a letter of the alphabet. -/
def foldCase (s : JsString) : JsString :=
  s.map lowerUnit

/-- `toLowerCase`, of a string that is then compared with ASCII: the Kelvin sign is a `k`, and no other character becomes ASCII only. -/
def toLowerCase (s : JsString) : JsString :=
  s.map fun c => if c = 0x212A then 0x6B else lowerUnit c

/-- `BigInt` of a string of digits. -/
def bigInt (digits : JsString) : Nat :=
  digits.foldl (fun n c => 10 * n + (c.toNat - 0x30)) 0

/-- `Number` of a string of digits. -/
def numberValue (digits : JsString) : Nat :=
  Doubles.nearest (bigInt digits)

/-- `^\d+$`. -/
def isDigits (s : JsString) : Bool :=
  s ≠ [] && s.all isDigit

/-- `^\d{1,n}$`. -/
def isShortNumber (n : Nat) (s : JsString) : Bool :=
  isDigits s && s.length ≤ n

def comma : CodeUnit := 0x2C
def colon : CodeUnit := 0x3A
def fullStop : CodeUnit := 0x2E

/-! ## Words, durations and sizes -/

/-- Whether a value means true. -/
def isTrueWord (value : JsString) : Bool :=
  foldCase (trim value) ∈ [js "true", js "yes", js "on", js "1"]

/-- The seconds of a unit of time. -/
def durationSeconds : List (JsString × Nat) :=
  [(js "s", 1), (js "m", 60), (js "h", 3600), (js "d", 86400)]

/-- A bare `0`, or digits followed by a unit of time. -/
def parseDuration (raw : JsString) : Option Nat :=
  let s := trim raw
  if s = js "0" then some 0
  else if s.takeWhile isDigit = [] then none
  else (durationSeconds.lookup (s.dropWhile isDigit)).map (bigInt (s.takeWhile isDigit) * ·)

/-- The bits by which a unit of size shifts. -/
def sizeShift : List (JsString × Nat) :=
  [(js "b", 0), (js "kib", 10), (js "mib", 20), (js "gib", 30), (js "tib", 40)]

/-- A bare `0`, or digits followed by a unit of size in any case. -/
def parseSize (raw : JsString) : Option Nat :=
  let s := trim raw
  if s = js "0" then some 0
  else if s.takeWhile isDigit = [] then none
  else (sizeShift.lookup (foldCase (s.dropWhile isDigit))).map (bigInt (s.takeWhile isDigit) <<< ·)

/-- `Number.MAX_SAFE_INTEGER`. -/
def maxSafeInteger : Nat := 2 ^ 53 - 1

/-! ## Lists -/

/-- The entries of a list. -/
def splitList (value : JsString) : List JsString :=
  ((value.splitOn comma).map trim).filter (· ≠ [])

/-- `values.join(", ")`. -/
def joined (values : List JsString) : JsString :=
  (values.intersperse (js ", ")).flatten

/-! ## Public keys -/

def bech32Charset : JsString := js "qpzry9x8gf2tvdw0s3jn54khce6mua7l"

/-- One value of a checksum. -/
def bech32PolymodStep (chk v : Nat) : Nat :=
  let b := chk >>> 25
  [0x3b6a57b2, 0x26508e6d, 0x1ea119fa, 0x3d4233dd, 0x2a1462b3].zipIdx.foldl
    (fun chk (gen, i) => if (b >>> i) &&& 1 ≠ 0 then chk ^^^ gen else chk) (((chk &&& 0x1ffffff) <<< 5) ^^^ v)

/-- `bech32Polymod`. -/
def bech32Polymod (values : List Nat) : Nat :=
  values.foldl bech32PolymodStep 1

/-- `bech32HrpExpand`. -/
def bech32HrpExpand (hrp : JsString) : List Nat :=
  hrp.map (fun c => c.toNat >>> 5) ++ 0 :: hrp.map fun c => c.toNat &&& 31

/-- Whether a value is a public key with a right checksum. -/
def isValidNpub (value : JsString) : Bool :=
  let v := toLowerCase (trim value)
  let hrp := (v.reverse.dropWhile (· ≠ 0x31)).tail.reverse
  let data := (v.reverse.takeWhile (· ≠ 0x31)).reverse
  if (0x31 : CodeUnit) ∉ v ∨ hrp.length < 1 ∨ hrp.length + 7 > v.length ∨ v.length > 90 then false
  else if hrp ≠ js "npub" then false
  else match data.mapM fun ch => bech32Charset.idxOf? ch with
    | none => false
    | some values => if bech32Polymod (bech32HrpExpand hrp ++ values) ≠ 1 then false else data.length = 58

/-! ## Socket addresses -/

/-- The octets and the port of an IPv4 address with a port. -/
def matchV4 (v : JsString) : Option (List JsString × JsString) :=
  match v.splitOn colon with
  | [host, port] =>
    let octets := host.splitOn fullStop
    if octets.length = 4 ∧ octets.all (isShortNumber 3) ∧ isShortNumber 5 port then some (octets, port) else none
  | _ => none

/-- `[0-9a-fA-F:]`. -/
def isV6Unit (c : CodeUnit) : Bool :=
  isDigit c || (0x61 ≤ lowerUnit c && lowerUnit c ≤ 0x66) || c = colon

/-- The port of an IPv6 address in brackets with a port. -/
def matchV6 : JsString → Option JsString
  | 0x5B :: rest =>
    match rest.dropWhile isV6Unit with
    | 0x5D :: 0x3A :: port => if rest.takeWhile isV6Unit ≠ [] ∧ isShortNumber 5 port then some port else none
    | _ => none
  | _ => none

/-! ## Fields -/

/-- `validateFieldValue`: what is wrong with a value, if anything. -/
def validateFieldValue (isUrl : JsString → Bool) (f : SchemaField) (value : JsString) : Option JsString :=
  match f.kind with
  | .bool =>
    if foldCase (trim value) ∈ [js "true", js "false", js "yes", js "no", js "on", js "off", js "1", js "0"] then none
    else some (js "must be one of true/false/yes/no/on/off/1/0")
  | .number =>
    if !isDigits (trim value) then some (js "must be a non-negative integer")
    else if numberValue (trim value) > maxSafeInteger then some (js "value is too large")
    else none
  | .duration =>
    match parseDuration value with
    | none => some (js "must be 0 or a number with unit s, m, h or d, e.g. 30s, 5m, 24h, 7d")
    | some secs =>
      if secs > u64Max then some (js "value is too large")
      else if f.nonZero ∧ secs = 0 then some (js "must be greater than zero")
      else none
  | .size =>
    match parseSize value with
    | none => some (js "must be 0 or a number with unit B, KiB, MiB, GiB or TiB, e.g. 100MiB (MB/GB are not accepted)")
    | some bytes => if bytes > u64Max then some (js "value is too large") else none
  | .socketaddr =>
    match matchV4 (trim value), matchV6 (trim value) with
    | some (octets, port), _ =>
      if (octets.all fun octet => numberValue octet ≤ 255) ∧ numberValue port ≤ 65535 then none
      else some (js "not a valid IPv4:port address")
    | none, some port => if numberValue port > 65535 then some (js "not a valid [IPv6]:port address") else none
    | none, none => some (js "must be a literal IP:port address, e.g. 127.0.0.1:3000 or [::]:80 (hostnames are not accepted)")
  | .url => if isUrl value then none else some (js "not a valid URL")
  | .string => none
  | .path => none
  | .secret => none
  | .enum => if value ∈ f.values.getD [] then none else some (js "must be one of: " ++ joined (f.values.getD []))
  | .list =>
    let items := splitList value
    if items = [] then some (js "must contain at least one entry, or be left unset")
    else match f.values with
      | none => none
      | some values => (items.find? (· ∉ values)).map fun bad => js "'" ++ bad ++ js "' is not one of: " ++ joined values
  | .listU16 =>
    let items := splitList value
    if items = [] then some (js "must contain at least one entry, or be left unset")
    else (items.find? fun item => !isDigits item || numberValue item > 65535).map fun item =>
      js "'" ++ item ++ js "' is not a valid event kind (0-65535)"
  | .listNpub =>
    let items := splitList value
    if items = [] then some (js "must contain at least one entry, or be left unset")
    else (items.find? fun item => !isValidNpub item).map fun item => js "'" ++ item ++ js "' is not a valid npub (bad bech32 checksum)"

/-- The default of a variable. -/
def effectiveDefault (states : FieldStates) (f : SchemaField) : Option JsString :=
  if f.conditionalDefault then
    let tls := states (js "ALMOND_TLS_ENABLED")
    if tls.enabled && isTrueWord tls.value then some (js "https://127.0.0.1:3000") else some (js "http://127.0.0.1:3000")
  else f.default

/-- What the form makes of a variable. -/
inductive Effective where
  /-- Its value, or its default, if it has one. -/
  | value (value : Option JsString)
  /-- A reference to other variables. -/
  | opaqueText
  | error (error : JsString)
  deriving DecidableEq, Repr

/-- The value that is in effect, `null` for a reference. -/
def Effective.value? : Effective → Option JsString
  | .value v => v
  | _ => none

/-- Whether the value failed its check. -/
def Effective.failed : Effective → Bool
  | .error _ => true
  | _ => false

/-- `resolveEffective`. A name that the schema does not have has no value. -/
def resolveEffective (isUrl : JsString → Bool) (states : FieldStates) (name : JsString) : Effective :=
  match schemaByName name with
  | none => .value none
  | some f =>
    let st := states name
    if !st.enabled then .value (effectiveDefault states f)
    else if st.hasReference then .opaqueText
    else if st.value = [] then .value (effectiveDefault states f)
    else match validateFieldValue isUrl f st.value with
      | some err => .error err
      | none => .value (some st.value)

/-- What is wrong with each variable. -/
def perFieldErrors (isUrl : JsString → Bool) (states : FieldStates) : List JsString :=
  almondSchema.filterMap fun f =>
    let st := states f.name
    if !st.enabled || st.hasReference then none
    else match resolveEffective isUrl states f.name with
      | .error err => some (f.name ++ js ": " ++ err)
      | _ => none

/-! ## Rules between fields -/

/-- The variables that are set together. -/
def s3Names : List JsString :=
  [js "ALMOND_S3_ENDPOINT", js "ALMOND_S3_BUCKET", js "ALMOND_S3_ACCESS_KEY_ID", js "ALMOND_S3_SECRET_ACCESS_KEY"]

/-- Whether a variable is set to something. -/
def isSet (states : FieldStates) (name : JsString) : Bool :=
  (states name).enabled && ((states name).hasReference || (states name).value ≠ [])

/-- All of the variables of the object store, or none. -/
def s3Errors (states : FieldStates) : List JsString :=
  let s3Set := (s3Names.filter (isSet states)).length
  if s3Set ≠ 0 ∧ s3Set ≠ 4 then
    [js "Incomplete S3 configuration: all of " ++ joined s3Names ++ js " must be set together, or none."]
  else []

/-- The operator `>` of two sizes, where `null` counts as zero. -/
def exceeds (a b : Option Nat) : Bool :=
  a.getD 0 > b.getD 0

/-- A chunk is no larger than a blob. -/
def chunkErrors (chunk blob : Effective) : List JsString :=
  match chunk, blob with
  | .value (some chunk), .value (some blob) =>
    if exceeds (parseSize chunk) (parseSize blob) then [js "ALMOND_CHUNK_MAX_SIZE cannot exceed ALMOND_BLOB_MAX_SIZE."] else []
  | _, _ => []

/-- Paid operations have exactly one mint. -/
def mintErrors (paid mint : Effective) : List JsString :=
  if paid.value?.isSome ∧ !mint.failed ∧ mint ≠ .opaqueText ∧ (mint.value?.all fun mint => comma ∈ mint) then
    [js "Exactly one ALMOND_CASHU_MINT URL is required when ALMOND_CASHU_PAID is set."]
  else []

/-- Access for data vending machines has kinds of them. -/
def dvmErrors (accesses : List Effective) (kinds : Effective) : List JsString :=
  if (accesses.any fun access => access.value? = some (js "dvm")) ∧ kinds ≠ .opaqueText ∧ (kinds.value?.map splitList).getD [] = [] then
    [js "ALMOND_DVM_KINDS must be set when ALMOND_UPLOAD_ACCESS or ALMOND_MIRROR_ACCESS is dvm."]
  else []

/-- What is wrong between the variables. -/
def crossFieldErrors (isUrl : JsString → Bool) (states : FieldStates) : List JsString :=
  let eff := resolveEffective isUrl states
  s3Errors states ++ chunkErrors (eff (js "ALMOND_CHUNK_MAX_SIZE")) (eff (js "ALMOND_BLOB_MAX_SIZE")) ++
    mintErrors (eff (js "ALMOND_CASHU_PAID")) (eff (js "ALMOND_CASHU_MINT")) ++
    dvmErrors [eff (js "ALMOND_UPLOAD_ACCESS"), eff (js "ALMOND_MIRROR_ACCESS")] (eff (js "ALMOND_DVM_KINDS"))

end Almond.ConfigEditor
