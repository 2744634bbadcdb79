import Almond.Models

/-! # The configuration of the server

The values of the environment as the server parses them, each argument with its own parser and default, and the rules between them.
The parser of public keys belongs to a library; a text of it is a `κ`. -/

namespace Almond.ServerConfig

/-! ## Value parsers -/

/-- `str::eq_ignore_ascii_case`. -/
def eqIgnoreAsciiCase (a b : Str) : Bool :=
  a.map Char.toLower = b.map Char.toLower

/-- The digits of a number that is at most `max`, after a number. -/
def parseDigits (max : Nat) : Nat → Str → Except Str Nat
  | n, [] => .ok n
  | n, c :: s =>
    if !c.isDigit then .error "invalid digit found in string".toList
    else if max < 10 * n + digitValue c then .error "number too large to fit in target type".toList
    else parseDigits max (10 * n + digitValue c) s

/-- `str::parse` of an unsigned integer that is at most `max`. -/
def parseUnsigned (max : Nat) (s : Str) : Except Str Nat :=
  if s = [] then .error "cannot parse integer from empty string".toList
  else if unsigned s = [] then .error "invalid digit found in string".toList
  else parseDigits max 0 (unsigned s)

/-- The largest `u16`. -/
def u16Max : Nat := 2 ^ 16 - 1

/-- List element: surrounding white space ignored, empty elements rejected. -/
def trimmed {α : Type} (parse : Str → Except Str α) (s : Str) : Except Str α :=
  if trim s = [] then .error "empty list element".toList else parse (trim s)

/-- `parse_npub`. -/
def parseNpub {κ : Type} (fromBech32 : Str → Except Str κ) (s : Str) : Except Str κ :=
  (fromBech32 (trim s)).mapError ("invalid npub: ".toList ++ ·)

/-- `0` or `<digits><unit>`; returns the number times the unit's factor. -/
def parseWithUnit (s : Str) (units : List (Str × Nat)) (sample : Str) : Except Str Nat :=
  let s := trim s
  if s = ['0'] then .ok 0
  else
    let unitNames := ((units.map Prod.fst).intersperse ", ".toList).flatten
    let number := s.takeWhile Char.isDigit
    let unit := s.dropWhile Char.isDigit
    if unit = [] then .error ("missing unit (".toList ++ unitNames ++ "), e.g. ".toList ++ sample)
    else match parseUnsigned u64Max number with
      | .error _ => .error ("expected <number><unit>, e.g. ".toList ++ sample)
      | .ok number =>
        match units.find? fun (u, _) => eqIgnoreAsciiCase u unit with
        | none => .error ("unknown unit '".toList ++ unit ++ "', use one of ".toList ++ unitNames)
        | some (_, factor) => if number * factor ≤ u64Max then .ok (number * factor) else .error "value too large".toList

/-- The seconds of the units of time. -/
def durationUnits : List (Str × Nat) :=
  [("s".toList, 1), ("m".toList, 60), ("h".toList, 3600), ("d".toList, 86400)]

/-- `parse_duration`, in seconds. Only the lowercase spelling of the units is accepted. -/
def parseDuration (s : Str) : Except Str Nat :=
  if s.any Char.isUpper then .error "duration units are lowercase: s, m, h, d".toList
  else parseWithUnit s durationUnits "30s".toList

/-- The bytes of the units of size. -/
def sizeUnits : List (Str × Nat) :=
  [("B".toList, 1), ("KiB".toList, 2 ^ 10), ("MiB".toList, 2 ^ 20), ("GiB".toList, 2 ^ 30), ("TiB".toList, 2 ^ 40)]

/-- `parse_size`, in bytes. -/
def parseSize (s : Str) : Except Str Nat :=
  parseWithUnit s sizeUnits "100MiB".toList

/-- A value of an enumeration, in any case. -/
def parseEnum {α : Type} (values : List (Str × α)) (s : Str) : Except Str α :=
  match values.find? fun (name, _) => eqIgnoreAsciiCase name s with
  | none => .error "invalid value".toList
  | some (_, value) => .ok value

/-- The values of `FeatureMode`. -/
def featureModes : List (Str × FeatureMode) :=
  [("off".toList, .off), ("wot".toList, .wot), ("dvm".toList, .dvm), ("public".toList, .public)]

/-- `PaidOperation`. -/
inductive PaidOperation where
  | upload
  | mirror
  | download
  deriving DecidableEq, Repr

/-- The values of `PaidOperation`. -/
def paidOperations : List (Str × PaidOperation) :=
  [("upload".toList, .upload), ("mirror".toList, .mirror), ("download".toList, .download)]

/-- The words that `BoolishValueParser` takes, in any case. -/
def boolishWords : List (Str × Bool) :=
  [("y".toList, true), ("yes".toList, true), ("t".toList, true), ("true".toList, true), ("on".toList, true), ("1".toList, true),
    ("n".toList, false), ("no".toList, false), ("f".toList, false), ("false".toList, false), ("off".toList, false), ("0".toList, false)]

/-! ## Arguments -/

/-- The environment: the value of each variable, empty for one that is not set. -/
abbrev Env := String → Str

/-- An argument with a default value. -/
def one {α : Type} (parse : Str → Except Str α) (env : Env) (name default : String) : Except Str α :=
  parse (if env name = [] then default.toList else env name)

/-- An `Option<String>`. -/
def optional (env : Env) (name : String) : Option Str :=
  if env name = [] then none else some (env name)

/-- A `Vec` with the comma as its delimiter. -/
def many {α : Type} (parse : Str → Except Str α) (env : Env) (name : String) : Except Str (List α) :=
  if env name = [] then .ok [] else ((env name).splitOn ',').mapM parse

/-- The settings that are lists, durations, sizes, counts, of the object store or of access, and the mint. -/
structure Config (κ : Type) where
  corsOrigins : List Str
  storageMaxSize : Nat
  storageMaxFiles : Nat
  storageMinFree : Nat
  blobMaxSize : Nat
  cleanupInterval : Nat
  uploadMaxAge : Nat
  upstreamCacheTtl : Nat
  s3Endpoint : Option Str
  s3Bucket : Option Str
  s3AccessKeyId : Option Str
  s3SecretAccessKey : Option Str
  s3Region : Str
  s3ForcePathStyle : Bool
  uploadAccess : FeatureMode
  mirrorAccess : FeatureMode
  customOriginAccess : FeatureMode
  reportAccess : FeatureMode
  allowedNpubs : List κ
  authMaxTtl : Nat
  authClockSkew : Nat
  chunkMaxSize : Nat
  chunkSessionTimeout : Nat
  chunkMaxSessions : Nat
  chunkMaxSessionsPerPubkey : Nat
  hlsMirrorConcurrency : Nat
  upstreamServers : List Str
  upstreamMaxDownloadSize : Nat
  serveFilesRefreshInterval : Nat
  cashuPaid : List PaidOperation
  cashuPricePerMib : Nat
  cashuMint : Option Str
  serverListCacheTtl : Nat
  dvmKinds : List Nat
  dvmRelays : List Str
  dvmRefreshInterval : Nat

section

variable {κ : Type} (fromBech32 : Str → Except Str κ) (env : Env)

/-- Parse the environment. `usize` has 64 bits. -/
def parseArgs : Except Str (Config κ) := do
  let corsOrigins ← many (trimmed .ok) env "ALMOND_CORS_ORIGINS"
  let storageMaxSize ← one parseSize env "ALMOND_STORAGE_MAX_SIZE" "0"
  let storageMaxFiles ← one (parseUnsigned u64Max) env "ALMOND_STORAGE_MAX_FILES" "0"
  let storageMinFree ← one parseSize env "ALMOND_STORAGE_MIN_FREE" "256MiB"
  let blobMaxSize ← one parseSize env "ALMOND_BLOB_MAX_SIZE" "500MiB"
  let cleanupInterval ← one parseDuration env "ALMOND_CLEANUP_INTERVAL" "30s"
  let uploadMaxAge ← one parseDuration env "ALMOND_UPLOAD_MAX_AGE" "0"
  let upstreamCacheTtl ← one parseDuration env "ALMOND_UPSTREAM_CACHE_TTL" "1d"
  let s3Region ← one .ok env "ALMOND_S3_REGION" "auto"
  let s3ForcePathStyle ← one (parseEnum boolishWords) env "ALMOND_S3_FORCE_PATH_STYLE" "false"
  let uploadAccess ← one (parseEnum featureModes) env "ALMOND_UPLOAD_ACCESS" "public"
  let mirrorAccess ← one (parseEnum featureModes) env "ALMOND_MIRROR_ACCESS" "public"
  let customOriginAccess ← one (parseEnum featureModes) env "ALMOND_CUSTOM_ORIGIN_ACCESS" "off"
  let reportAccess ← one (parseEnum featureModes) env "ALMOND_REPORT_ACCESS" "off"
  let allowedNpubs ← many (parseNpub fromBech32) env "ALMOND_ALLOWED_NPUBS"
  let authMaxTtl ← one parseDuration env "ALMOND_AUTH_MAX_TTL" "24h"
  let authClockSkew ← one parseDuration env "ALMOND_AUTH_CLOCK_SKEW" "30s"
  let chunkMaxSize ← one parseSize env "ALMOND_CHUNK_MAX_SIZE" "100MiB"
  let chunkSessionTimeout ← one parseDuration env "ALMOND_CHUNK_SESSION_TIMEOUT" "30m"
  let chunkMaxSessions ← one (parseUnsigned u64Max) env "ALMOND_CHUNK_MAX_SESSIONS" "128"
  let chunkMaxSessionsPerPubkey ← one (parseUnsigned u64Max) env "ALMOND_CHUNK_MAX_SESSIONS_PER_PUBKEY" "8"
  let hlsMirrorConcurrency ← one (parseUnsigned u64Max) env "ALMOND_HLS_MIRROR_CONCURRENCY" "4"
  let upstreamServers ← many (trimmed .ok) env "ALMOND_UPSTREAM_SERVERS"
  let upstreamMaxDownloadSize ← one parseSize env "ALMOND_UPSTREAM_MAX_DOWNLOAD_SIZE" "100MiB"
  let serveFilesRefreshInterval ← one parseDuration env "ALMOND_SERVE_FILES_REFRESH_INTERVAL" "1h"
  let cashuPaid ← many (parseEnum paidOperations) env "ALMOND_CASHU_PAID"
  let cashuPricePerMib ← one (parseUnsigned u64Max) env "ALMOND_CASHU_PRICE_PER_MIB" "1"
  let serverListCacheTtl ← one parseDuration env "ALMOND_SERVER_LIST_CACHE_TTL" "24h"
  let dvmKinds ← many (trimmed (parseUnsigned u16Max)) env "ALMOND_DVM_KINDS"
  let dvmRelays ← many (trimmed .ok) env "ALMOND_DVM_RELAYS"
  let dvmRefreshInterval ← one parseDuration env "ALMOND_DVM_REFRESH_INTERVAL" "5m"
  return {
    s3Endpoint := optional env "ALMOND_S3_ENDPOINT"
    s3Bucket := optional env "ALMOND_S3_BUCKET"
    s3AccessKeyId := optional env "ALMOND_S3_ACCESS_KEY_ID"
    s3SecretAccessKey := optional env "ALMOND_S3_SECRET_ACCESS_KEY"
    cashuMint := optional env "ALMOND_CASHU_MINT"
    corsOrigins, storageMaxSize, storageMaxFiles, storageMinFree, blobMaxSize, cleanupInterval, uploadMaxAge, upstreamCacheTtl
    s3Region, s3ForcePathStyle, uploadAccess, mirrorAccess, customOriginAccess, reportAccess, allowedNpubs, authMaxTtl
    authClockSkew, chunkMaxSize, chunkSessionTimeout, chunkMaxSessions, chunkMaxSessionsPerPubkey, hlsMirrorConcurrency
    upstreamServers, upstreamMaxDownloadSize, serveFilesRefreshInterval, cashuPaid, cashuPricePerMib, serverListCacheTtl
    dvmKinds, dvmRelays, dvmRefreshInterval }

end

/-! ## Rules between arguments -/

/-- `u8::is_ascii_alphanumeric`, or a hyphen. -/
def isRegionChar (c : Char) : Bool :=
  c.isAlphanum || c = '-'

/-- `Config::check`. `cashu` is whether the server is built with that feature. -/
def Config.check {κ : Type} (cashu : Bool) (cfg : Config κ) : Except Str Unit :=
  let s3Set := ([cfg.s3Endpoint, cfg.s3Bucket, cfg.s3AccessKeyId, cfg.s3SecretAccessKey].filter Option.isSome).length
  if s3Set ≠ 0 ∧ s3Set ≠ 4 then
    .error ("Incomplete S3 configuration: ALMOND_S3_ENDPOINT, ALMOND_S3_BUCKET, ".toList ++
      "ALMOND_S3_ACCESS_KEY_ID and ALMOND_S3_SECRET_ACCESS_KEY must be set together".toList)
  else if cfg.s3Region = [] ∨ !cfg.s3Region.all isRegionChar then
    .error "ALMOND_S3_REGION must be a region name such as auto or us-east-1".toList
  else if cfg.cleanupInterval = 0 then .error "ALMOND_CLEANUP_INTERVAL must be greater than zero".toList
  else if cfg.authMaxTtl = 0 then .error "ALMOND_AUTH_MAX_TTL must be greater than zero".toList
  else if cfg.chunkMaxSize > cfg.blobMaxSize then .error "ALMOND_CHUNK_MAX_SIZE must not exceed ALMOND_BLOB_MAX_SIZE".toList
  else if !cashu ∧ cfg.cashuPaid ≠ [] then
    .error "ALMOND_CASHU_PAID is set but almond was built without the cashu feature".toList
  else if cfg.cashuPaid ≠ [] ∧ !cfg.cashuMint.any fun m => ',' ∉ m then
    .error "ALMOND_CASHU_PAID requires exactly one ALMOND_CASHU_MINT".toList
  else if (cfg.uploadAccess = .dvm ∨ cfg.mirrorAccess = .dvm) ∧ cfg.dvmKinds = [] then
    .error "ALMOND_DVM_KINDS must be set when any access mode is 'dvm'".toList
  else .ok ()

end Almond.ServerConfig
