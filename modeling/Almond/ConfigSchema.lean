import Almond.ConfigEditor

/-! # The variables of the configuration editor

One row per variable that the server reads: its kind, the values it may take, and what the server assumes when it is not set. -/

namespace Almond.ConfigEditor

/-- The kinds of a variable. -/
inductive FieldKind where
  | bool
  | number
  | duration
  | size
  | string
  | path
  | socketaddr
  | url
  | list
  | listU16
  | listNpub
  | enum
  | secret
  deriving DecidableEq, Repr

/-- A variable of the form. -/
structure SchemaField where
  name : JsString
  kind : FieldKind
  /-- What an `enum` may be, or a `list` may contain. -/
  values : Option (List JsString) := none
  default : Option JsString := none
  /-- Whether a duration of zero is rejected. -/
  nonZero : Bool := false
  /-- Whether the default depends on another variable. -/
  conditionalDefault : Bool := false
  deriving DecidableEq, Repr

/-- Network and public identity. -/
def networkFields : List SchemaField := [
  { name := js "ALMOND_BIND_ADDR", kind := .socketaddr, default := some (js "127.0.0.1:3000") },
  { name := js "ALMOND_PUBLIC_URL", kind := .url, conditionalDefault := true },
  { name := js "ALMOND_CORS_ORIGINS", kind := .list }]

/-- HTTPS. -/
def tlsFields : List SchemaField := [
  { name := js "ALMOND_TLS_ENABLED", kind := .bool, default := some (js "false") },
  { name := js "ALMOND_TLS_CERT", kind := .path, default := some (js "./cert.pem") },
  { name := js "ALMOND_TLS_KEY", kind := .path, default := some (js "./key.pem") },
  { name := js "ALMOND_TLS_SELF_SIGNED", kind := .bool, default := some (js "false") }]

/-- Local storage. -/
def storageFields : List SchemaField := [
  { name := js "ALMOND_STORAGE_PATH", kind := .path, default := some (js "./files") }]

/-- S3-compatible storage. -/
def s3Fields : List SchemaField := [
  { name := js "ALMOND_S3_ENDPOINT", kind := .url },
  { name := js "ALMOND_S3_BUCKET", kind := .string },
  { name := js "ALMOND_S3_ACCESS_KEY_ID", kind := .secret },
  { name := js "ALMOND_S3_SECRET_ACCESS_KEY", kind := .secret },
  { name := js "ALMOND_S3_REGION", kind := .string, default := some (js "auto") },
  { name := js "ALMOND_S3_FORCE_PATH_STYLE", kind := .bool, default := some (js "false") }]

/-- Static files. -/
def serveFilesFields : List SchemaField := [
  { name := js "ALMOND_SERVE_FILES_PATH", kind := .path },
  { name := js "ALMOND_SERVE_FILES_MANIFEST_DIR", kind := .path, default := some (js "/tmp") },
  { name := js "ALMOND_SERVE_FILES_MANIFEST_NAME", kind := .string, default := some (js "manifest-sha256.txt") },
  { name := js "ALMOND_SERVE_FILES_REFRESH_INTERVAL", kind := .duration, default := some (js "1h") }]

/-- Limits and retention. -/
def limitsFields : List SchemaField := [
  { name := js "ALMOND_STORAGE_MAX_SIZE", kind := .size, default := some (js "0") },
  { name := js "ALMOND_STORAGE_MAX_FILES", kind := .number, default := some (js "0") },
  { name := js "ALMOND_STORAGE_MIN_FREE", kind := .size, default := some (js "256MiB") },
  { name := js "ALMOND_BLOB_MAX_SIZE", kind := .size, default := some (js "500MiB") },
  { name := js "ALMOND_CLEANUP_INTERVAL", kind := .duration, default := some (js "30s"), nonZero := true },
  { name := js "ALMOND_UPLOAD_MAX_AGE", kind := .duration, default := some (js "0") },
  { name := js "ALMOND_UPSTREAM_CACHE_TTL", kind := .duration, default := some (js "1d") },
  { name := js "ALMOND_UPSTREAM_MAX_DOWNLOAD_SIZE", kind := .size, default := some (js "100MiB") },
  { name := js "ALMOND_CHUNK_MAX_SIZE", kind := .size, default := some (js "100MiB") },
  { name := js "ALMOND_CHUNK_SESSION_TIMEOUT", kind := .duration, default := some (js "30m") },
  { name := js "ALMOND_CHUNK_MAX_SESSIONS", kind := .number, default := some (js "128") },
  { name := js "ALMOND_CHUNK_MAX_SESSIONS_PER_PUBKEY", kind := .number, default := some (js "8") },
  { name := js "ALMOND_HLS_MIRROR_CONCURRENCY", kind := .number, default := some (js "4") }]

/-- Upstream and caching. -/
def upstreamFields : List SchemaField := [
  { name := js "ALMOND_UPSTREAM_SERVERS", kind := .list },
  { name := js "ALMOND_UPSTREAM_MODE", kind := .enum, values := some [js "proxy", js "redirect", js "redirect-and-cache"],
    default := some (js "proxy") }]

/-- Feature flags. -/
def featuresFields : List SchemaField := [
  { name := js "ALMOND_UPLOAD_ACCESS", kind := .enum, values := some [js "off", js "wot", js "dvm", js "public"],
    default := some (js "public") },
  { name := js "ALMOND_MIRROR_ACCESS", kind := .enum, values := some [js "off", js "wot", js "dvm", js "public"],
    default := some (js "public") },
  { name := js "ALMOND_CUSTOM_ORIGIN_ACCESS", kind := .enum, values := some [js "off", js "wot", js "dvm", js "public"],
    default := some (js "off") },
  { name := js "ALMOND_LIST_ENABLED", kind := .bool, default := some (js "true") },
  { name := js "ALMOND_HOMEPAGE_ENABLED", kind := .bool, default := some (js "true") }]

/-- Reports. -/
def reportsFields : List SchemaField := [
  { name := js "ALMOND_REPORT_ACCESS", kind := .enum, values := some [js "off", js "wot", js "dvm", js "public"],
    default := some (js "off") },
  { name := js "ALMOND_REPORT_ACTION", kind := .enum, values := some [js "quarantine", js "delete"],
    default := some (js "quarantine") }]

/-- Paid operations. -/
def paidFields : List SchemaField := [
  { name := js "ALMOND_CASHU_PAID", kind := .list, values := some [js "upload", js "mirror", js "download"] },
  { name := js "ALMOND_CASHU_PRICE_PER_MIB", kind := .number, default := some (js "1") },
  { name := js "ALMOND_CASHU_MINT", kind := .url },
  { name := js "ALMOND_CASHU_WALLET_PATH", kind := .path, default := some (js "./cashu_wallet.db") }]

/-- Filters. -/
def filtersFields : List SchemaField := [
  { name := js "ALMOND_SERVER_LIST_CACHE_TTL", kind := .duration, default := some (js "24h") },
  { name := js "ALMOND_FILTER_ALGORITHM", kind := .enum,
    values := some [js "bloom", js "binary-fuse-8", js "binary-fuse-16", js "binary-fuse-32"], default := some (js "binary-fuse-16") }]

/-- Data vending machines. -/
def dvmFields : List SchemaField := [
  { name := js "ALMOND_DVM_KINDS", kind := .listU16 },
  { name := js "ALMOND_DVM_RELAYS", kind := .list },
  { name := js "ALMOND_DVM_REFRESH_INTERVAL", kind := .duration, default := some (js "5m") }]

/-- Authorization. -/
def authFields : List SchemaField := [
  { name := js "ALMOND_ALLOWED_NPUBS", kind := .listNpub },
  { name := js "ALMOND_AUTH_MAX_TTL", kind := .duration, default := some (js "24h"), nonZero := true },
  { name := js "ALMOND_AUTH_CLOCK_SKEW", kind := .duration, default := some (js "30s") },
  { name := js "ALMOND_AUTH_REQUIRE_SERVER_TAG", kind := .bool, default := some (js "false") },
  { name := js "ALMOND_METRICS_TOKEN", kind := .secret }]

/-- Every variable, in the order of the form. -/
def almondSchema : List SchemaField :=
  networkFields ++ tlsFields ++ storageFields ++ s3Fields ++ serveFilesFields ++ limitsFields ++ upstreamFields ++
    featuresFields ++ reportsFields ++ paidFields ++ filtersFields ++ dvmFields ++ authFields

/-- The variable of a name. -/
def schemaByName (name : JsString) : Option SchemaField :=
  almondSchema.find? fun f => f.name = name

end Almond.ConfigEditor
