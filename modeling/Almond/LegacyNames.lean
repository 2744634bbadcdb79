import Almond.ServerConfig

/-! # Deprecated names

The variables of older deployments, under the names that the server reads now. -/

namespace Almond.ServerConfig

/-- How the value of a deprecated name is read. -/
inductive Legacy where
  /-- Same value under the new name. -/
  | same
  /-- Old value was a bare number in this unit; append it. -/
  | unit (u : String)
  /-- Old feature switch also accepted true/false. -/
  | mode
  deriving DecidableEq

/-- `LEGACY`: the deprecated names, with their new names. -/
def legacy : List (String × String × Legacy) :=
  [("BIND_ADDR", "BIND_ADDR", .same),
    ("PUBLIC_URL", "PUBLIC_URL", .same),
    ("CORS_ALLOWED_ORIGINS", "CORS_ORIGINS", .same),
    ("ENABLE_HTTPS", "TLS_ENABLED", .same),
    ("TLS_CERT_PATH", "TLS_CERT", .same),
    ("TLS_KEY_PATH", "TLS_KEY", .same),
    ("TLS_AUTO_GENERATE", "TLS_SELF_SIGNED", .same),
    ("STORAGE_PATH", "STORAGE_PATH", .same),
    ("MAX_TOTAL_SIZE", "STORAGE_MAX_SIZE", .unit "MiB"),
    ("MAX_TOTAL_FILES", "STORAGE_MAX_FILES", .same),
    ("MIN_FREE_DISK_MB", "STORAGE_MIN_FREE", .unit "MiB"),
    ("MAX_BLOB_SIZE_MB", "BLOB_MAX_SIZE", .unit "MiB"),
    ("CLEANUP_INTERVAL_SECS", "CLEANUP_INTERVAL", .unit "s"),
    ("MAX_FILE_AGE_DAYS", "UPLOAD_MAX_AGE", .unit "d"),
    ("MAX_UPSTREAM_CACHE_TTL_DAYS", "UPSTREAM_CACHE_TTL", .unit "d"),
    ("FEATURE_UPLOAD_ENABLED", "UPLOAD_ACCESS", .mode),
    ("FEATURE_MIRROR_ENABLED", "MIRROR_ACCESS", .mode),
    ("FEATURE_CUSTOM_UPSTREAM_ORIGIN_ENABLED", "CUSTOM_ORIGIN_ACCESS", .mode),
    ("FEATURE_REPORT_ENABLED", "REPORT_ACCESS", .mode),
    ("REPORT_ACTION", "REPORT_ACTION", .same),
    ("FEATURE_LIST_ENABLED", "LIST_ENABLED", .same),
    ("FEATURE_HOMEPAGE_ENABLED", "HOMEPAGE_ENABLED", .same),
    ("ALLOWED_NPUBS", "ALLOWED_NPUBS", .same),
    ("AUTH_MAX_TTL_SECS", "AUTH_MAX_TTL", .unit "s"),
    ("AUTH_CLOCK_SKEW_SECS", "AUTH_CLOCK_SKEW", .unit "s"),
    ("AUTH_REQUIRE_SERVER_TAG", "AUTH_REQUIRE_SERVER_TAG", .same),
    ("MAX_CHUNK_SIZE_MB", "CHUNK_MAX_SIZE", .unit "MiB"),
    ("CHUNK_CLEANUP_TIMEOUT_MINUTES", "CHUNK_SESSION_TIMEOUT", .unit "m"),
    ("MAX_CHUNK_UPLOAD_SESSIONS", "CHUNK_MAX_SESSIONS", .same),
    ("MAX_CHUNK_UPLOAD_SESSIONS_PER_PUBKEY", "CHUNK_MAX_SESSIONS_PER_PUBKEY", .same),
    ("HLS_MIRROR_CONCURRENCY", "HLS_MIRROR_CONCURRENCY", .same),
    ("UPSTREAM_SERVERS", "UPSTREAM_SERVERS", .same),
    ("UPSTREAM_MODE", "UPSTREAM_MODE", .same),
    ("MAX_UPSTREAM_DOWNLOAD_SIZE_MB", "UPSTREAM_MAX_DOWNLOAD_SIZE", .unit "MiB"),
    ("METRICS_BEARER_TOKEN", "METRICS_TOKEN", .same),
    ("SERVE_FILES_PATH", "SERVE_FILES_PATH", .same),
    ("SERVE_FILES_MANIFEST_DIR", "SERVE_FILES_MANIFEST_DIR", .same),
    ("SERVE_FILES_MANIFEST_NAME", "SERVE_FILES_MANIFEST_NAME", .same),
    ("SERVE_FILES_REFRESH_INTERVAL_SECS", "SERVE_FILES_REFRESH_INTERVAL", .unit "s"),
    ("CASHU_PRICE_PER_MB", "CASHU_PRICE_PER_MIB", .same),
    ("CASHU_ACCEPTED_MINTS", "CASHU_MINT", .same),
    ("CASHU_WALLET_PATH", "CASHU_WALLET_PATH", .same),
    ("BLOSSOM_SERVER_LIST_CACHE_TTL_HOURS", "SERVER_LIST_CACHE_TTL", .unit "h"),
    ("FILTER_ALGORITHM", "FILTER_ALGORITHM", .same),
    ("DVM_ALLOWED_KINDS", "DVM_KINDS", .same),
    ("DVM_RELAYS", "DVM_RELAYS", .same),
    ("DVM_REFRESH_INTERVAL_MINS", "DVM_REFRESH_INTERVAL", .unit "m")]

/-- `LEGACY_PAID`: the deprecated switches of paid operations. -/
def legacyPaid : List (String × String) :=
  [("FEATURE_PAID_UPLOAD", "upload"), ("FEATURE_PAID_MIRROR", "mirror"), ("FEATURE_PAID_DOWNLOAD", "download")]

/-- `ENV_PREFIX`. -/
def envPrefix : String := "ALMOND_"

/-- A value under the new name. -/
def Legacy.translate : Legacy → Str → Str
  | .same, value => value
  | .unit u, value => value ++ u.toList
  | .mode, value =>
    let lower := value.map Char.toLower
    if lower = "true".toList then "public".toList
    else if lower = "false".toList then "off".toList
    else value

/-- The value of a name, unless it is blank. -/
def nonBlank (get : String → Option Str) (name : String) : Option Str :=
  (get name).filter fun v => trim v ≠ []

/-- A deprecated name that is set, its new name, and its value under the new name. -/
structure Found where
  old : String
  new : String
  value : Str

/-- The deprecated names that are set. -/
def foundNames (get : String → Option Str) : List Found :=
  legacy.filterMap fun (old, new, kind) => (nonBlank get old).map fun value => ⟨old, envPrefix ++ new, kind.translate (trim value)⟩

/-- Whether the value of a switch turns a paid operation on. -/
def isOn (v : Str) : Bool :=
  ["true".toList, "1".toList, "on".toList].contains ((trim v).map Char.toLower)

/-- The deprecated switches of paid operations, as one variable. -/
def foundPaid (get : String → Option Str) : List Found :=
  let paid := legacyPaid.filterMap fun (old, op) => (nonBlank get old).map fun v => (op, v)
  if paid = [] then []
  else
    let ops := (paid.filter fun (_, v) => isOn v).map fun (op, _) => op.toList
    [⟨"FEATURE_PAID_*", envPrefix ++ "CASHU_PAID", (ops.intersperse [',']).flatten⟩]

/-- The variable that a deprecated name sets, if it sets one, and its warning. -/
def translateFound (get : String → Option Str) (found : Found) : Option (String × Str) × String :=
  if (nonBlank get found.new).isSome then
    (none, s!"{found.old} is deprecated and ignored because {found.new} is set")
  else if found.value = [] then (none, s!"{found.old} is deprecated, use {found.new}")
  else (some (found.new, found.value), s!"{found.old} is deprecated, use {found.new}={text found.value}")

/-- `translate_legacy`: the new names with their values, for every deprecated name that is set and whose new name is not, and one warning
for each deprecated name seen. -/
def translateLegacy (get : String → Option Str) : List (String × Str) × List String :=
  let translated := (foundNames get ++ foundPaid get).map (translateFound get)
  (translated.filterMap (·.1), translated.map (·.2))

end Almond.ServerConfig
