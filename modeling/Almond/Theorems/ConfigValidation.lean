import Almond.Lemmas.ConfigFieldsAux

/-! # What the form lets through, the server accepts -/

namespace Almond.ConfigEditor

open ServerConfig

variable {κ : Type}

/-- The durations of the server. -/
def durations (cfg : ServerConfig.Config κ) : List (String × Nat) :=
  [("ALMOND_CLEANUP_INTERVAL", cfg.cleanupInterval),
    ("ALMOND_UPLOAD_MAX_AGE", cfg.uploadMaxAge),
    ("ALMOND_UPSTREAM_CACHE_TTL", cfg.upstreamCacheTtl),
    ("ALMOND_AUTH_MAX_TTL", cfg.authMaxTtl),
    ("ALMOND_AUTH_CLOCK_SKEW", cfg.authClockSkew),
    ("ALMOND_CHUNK_SESSION_TIMEOUT", cfg.chunkSessionTimeout),
    ("ALMOND_SERVE_FILES_REFRESH_INTERVAL", cfg.serveFilesRefreshInterval),
    ("ALMOND_SERVER_LIST_CACHE_TTL", cfg.serverListCacheTtl),
    ("ALMOND_DVM_REFRESH_INTERVAL", cfg.dvmRefreshInterval)]

/-- The sizes of the server. -/
def sizes (cfg : ServerConfig.Config κ) : List (String × Nat) :=
  [("ALMOND_STORAGE_MAX_SIZE", cfg.storageMaxSize),
    ("ALMOND_STORAGE_MIN_FREE", cfg.storageMinFree),
    ("ALMOND_BLOB_MAX_SIZE", cfg.blobMaxSize),
    ("ALMOND_CHUNK_MAX_SIZE", cfg.chunkMaxSize),
    ("ALMOND_UPSTREAM_MAX_DOWNLOAD_SIZE", cfg.upstreamMaxDownloadSize)]

/-- The server starts with a form: it parses the environment, no rule is broken, and each duration and size is the number that the form
takes it for. -/
def Accepted (isUrl : JsString → Bool) (fromBech32 : Str → Except Str κ) (cashu : Bool) (states : FieldStates) : Prop :=
  ∃ cfg, parseArgs fromBech32 (environment states) = .ok cfg ∧ cfg.check cashu = .ok () ∧
    (∀ d ∈ durations cfg, (resolveEffective isUrl states (js d.1)).value?.bind ConfigEditor.parseDuration = some d.2) ∧
    ∀ d ∈ sizes cfg, (resolveEffective isUrl states (js d.1)).value?.bind ConfigEditor.parseSize = some d.2

/-- The names of the durations and sizes. -/
def measureNames : List String :=
  ["ALMOND_CLEANUP_INTERVAL",
    "ALMOND_UPLOAD_MAX_AGE",
    "ALMOND_UPSTREAM_CACHE_TTL",
    "ALMOND_AUTH_MAX_TTL",
    "ALMOND_AUTH_CLOCK_SKEW",
    "ALMOND_CHUNK_SESSION_TIMEOUT",
    "ALMOND_SERVE_FILES_REFRESH_INTERVAL",
    "ALMOND_SERVER_LIST_CACHE_TTL",
    "ALMOND_DVM_REFRESH_INTERVAL",
    "ALMOND_STORAGE_MAX_SIZE",
    "ALMOND_STORAGE_MIN_FREE",
    "ALMOND_BLOB_MAX_SIZE",
    "ALMOND_CHUNK_MAX_SIZE",
    "ALMOND_UPSTREAM_MAX_DOWNLOAD_SIZE"]

/-- The names of the counts, and of the switch of the object store. -/
def wordNames : List String :=
  ["ALMOND_STORAGE_MAX_FILES",
    "ALMOND_CHUNK_MAX_SESSIONS",
    "ALMOND_CHUNK_MAX_SESSIONS_PER_PUBKEY",
    "ALMOND_HLS_MIRROR_CONCURRENCY",
    "ALMOND_CASHU_PRICE_PER_MIB",
    "ALMOND_S3_FORCE_PATH_STYLE"]

/-- The names of the lists of any texts. -/
def listNames : List String :=
  ["ALMOND_CORS_ORIGINS", "ALMOND_UPSTREAM_SERVERS", "ALMOND_DVM_RELAYS"]

/-- A form whose values the parsers of the server read as the page does. -/
structure Readable (fromBech32 : Str → Except Str κ) (cashu : Bool) (states : FieldStates) : Prop where
  /-- No byte order mark around a duration or a size. -/
  measures : ∀ name ∈ measureNames, Markless states (js name)
  /-- No white space around a count or a switch. -/
  words : ∀ name ∈ wordNames, Spaceless states (js name)
  /-- No element of a list is empty. -/
  lists : ∀ name ∈ listNames, Filled states (js name) → ∀ e ∈ elements (states (js name)).value, Inhabited e
  kinds : Filled states (js "ALMOND_DVM_KINDS") → ∀ e ∈ elements (states (js "ALMOND_DVM_KINDS")).value, trim e ≠ [] ∧ byteOrderMark ∉ e
  /-- The operations have no white space around them, and the server is built to be paid. -/
  paid : Filled states (js "ALMOND_CASHU_PAID") →
    cashu = true ∧ ∀ e ∈ elements (states (js "ALMOND_CASHU_PAID")).value, e ≠ [] ∧ NoSpace e
  npubs : Filled states (js "ALMOND_ALLOWED_NPUBS") →
    ∀ e ∈ elements (states (js "ALMOND_ALLOWED_NPUBS")).value, Succeeds (fromBech32 (Almond.trim (saved e)))
  region : Filled states (js "ALMOND_S3_REGION") → (saved (states (js "ALMOND_S3_REGION")).value).all isRegionChar = true

section

variable {isUrl : JsString → Bool} {fromBech32 : Str → Except Str κ} {cashu : Bool} {states : FieldStates} {cfg : ServerConfig.Config κ}

/-- Each duration and size of a form that is let through. -/
theorem LetThrough.measures (h : LetThrough isUrl states) :
    Measured isUrl states ConfigEditor.parseDuration ServerConfig.parseDuration true "ALMOND_CLEANUP_INTERVAL" "30s" ∧
    Measured isUrl states ConfigEditor.parseDuration ServerConfig.parseDuration false "ALMOND_UPLOAD_MAX_AGE" "0" ∧
    Measured isUrl states ConfigEditor.parseDuration ServerConfig.parseDuration false "ALMOND_UPSTREAM_CACHE_TTL" "1d" ∧
    Measured isUrl states ConfigEditor.parseDuration ServerConfig.parseDuration true "ALMOND_AUTH_MAX_TTL" "24h" ∧
    Measured isUrl states ConfigEditor.parseDuration ServerConfig.parseDuration false "ALMOND_AUTH_CLOCK_SKEW" "30s" ∧
    Measured isUrl states ConfigEditor.parseDuration ServerConfig.parseDuration false "ALMOND_CHUNK_SESSION_TIMEOUT" "30m" ∧
    Measured isUrl states ConfigEditor.parseDuration ServerConfig.parseDuration false "ALMOND_SERVE_FILES_REFRESH_INTERVAL" "1h" ∧
    Measured isUrl states ConfigEditor.parseDuration ServerConfig.parseDuration false "ALMOND_SERVER_LIST_CACHE_TTL" "24h" ∧
    Measured isUrl states ConfigEditor.parseDuration ServerConfig.parseDuration false "ALMOND_DVM_REFRESH_INTERVAL" "5m" ∧
    Measured isUrl states ConfigEditor.parseSize ServerConfig.parseSize false "ALMOND_STORAGE_MAX_SIZE" "0" ∧
    Measured isUrl states ConfigEditor.parseSize ServerConfig.parseSize false "ALMOND_STORAGE_MIN_FREE" "256MiB" ∧
    Measured isUrl states ConfigEditor.parseSize ServerConfig.parseSize false "ALMOND_BLOB_MAX_SIZE" "500MiB" ∧
    Measured isUrl states ConfigEditor.parseSize ServerConfig.parseSize false "ALMOND_CHUNK_MAX_SIZE" "100MiB" ∧
    Measured isUrl states ConfigEditor.parseSize ServerConfig.parseSize false "ALMOND_UPSTREAM_MAX_DOWNLOAD_SIZE" "100MiB" :=
  ⟨h.duration "ALMOND_CLEANUP_INTERVAL" "30s" 22 30 rfl (by decide) (by decide) (by decide),
    h.duration "ALMOND_UPLOAD_MAX_AGE" "0" 23 0 rfl (by decide) (by decide) (by decide),
    h.duration "ALMOND_UPSTREAM_CACHE_TTL" "1d" 24 86400 rfl (by decide) (by decide) (by decide),
    h.duration "ALMOND_AUTH_MAX_TTL" "24h" 50 86400 rfl (by decide) (by decide) (by decide),
    h.duration "ALMOND_AUTH_CLOCK_SKEW" "30s" 51 30 rfl (by decide) (by decide) (by decide),
    h.duration "ALMOND_CHUNK_SESSION_TIMEOUT" "30m" 27 1800 rfl (by decide) (by decide) (by decide),
    h.duration "ALMOND_SERVE_FILES_REFRESH_INTERVAL" "1h" 17 3600 rfl (by decide) (by decide) (by decide),
    h.duration "ALMOND_SERVER_LIST_CACHE_TTL" "24h" 44 86400 rfl (by decide) (by decide) (by decide),
    h.duration "ALMOND_DVM_REFRESH_INTERVAL" "5m" 48 300 rfl (by decide) (by decide) (by decide),
    h.size "ALMOND_STORAGE_MAX_SIZE" "0" 18 0 rfl (by decide) (by decide),
    h.size "ALMOND_STORAGE_MIN_FREE" "256MiB" 20 268435456 rfl (by decide) (by decide),
    h.size "ALMOND_BLOB_MAX_SIZE" "500MiB" 21 524288000 rfl (by decide) (by decide),
    h.size "ALMOND_CHUNK_MAX_SIZE" "100MiB" 26 104857600 rfl (by decide) (by decide),
    h.size "ALMOND_UPSTREAM_MAX_DOWNLOAD_SIZE" "100MiB" 25 104857600 rfl (by decide) (by decide)⟩

/-- Each count, and the switch, of a form that is let through. -/
theorem LetThrough.words (h : LetThrough isUrl states) :
    (Succeeds (one (parseUnsigned u64Max) (environment states) "ALMOND_STORAGE_MAX_FILES" "0") ↔ Spaceless states (js "ALMOND_STORAGE_MAX_FILES")) ∧
    (Succeeds (one (parseUnsigned u64Max) (environment states) "ALMOND_CHUNK_MAX_SESSIONS" "128") ↔ Spaceless states (js "ALMOND_CHUNK_MAX_SESSIONS")) ∧
    (Succeeds (one (parseUnsigned u64Max) (environment states) "ALMOND_CHUNK_MAX_SESSIONS_PER_PUBKEY" "8") ↔ Spaceless states (js "ALMOND_CHUNK_MAX_SESSIONS_PER_PUBKEY")) ∧
    (Succeeds (one (parseUnsigned u64Max) (environment states) "ALMOND_HLS_MIRROR_CONCURRENCY" "4") ↔ Spaceless states (js "ALMOND_HLS_MIRROR_CONCURRENCY")) ∧
    (Succeeds (one (parseUnsigned u64Max) (environment states) "ALMOND_CASHU_PRICE_PER_MIB" "1") ↔ Spaceless states (js "ALMOND_CASHU_PRICE_PER_MIB")) ∧
    (Succeeds (one (parseEnum boolishWords) (environment states) "ALMOND_S3_FORCE_PATH_STYLE" "false") ↔
      Spaceless states (js "ALMOND_S3_FORCE_PATH_STYLE")) :=
  ⟨h.count "ALMOND_STORAGE_MAX_FILES" "0" 19 rfl ⟨_, rfl⟩,
    h.count "ALMOND_CHUNK_MAX_SESSIONS" "128" 28 rfl ⟨_, rfl⟩,
    h.count "ALMOND_CHUNK_MAX_SESSIONS_PER_PUBKEY" "8" 29 rfl ⟨_, rfl⟩,
    h.count "ALMOND_HLS_MIRROR_CONCURRENCY" "4" 30 rfl ⟨_, rfl⟩,
    h.count "ALMOND_CASHU_PRICE_PER_MIB" "1" 41 rfl ⟨_, rfl⟩,
    h.switched (List.mem_of_getElem? (i := 13) rfl) rfl rfl ⟨_, rfl⟩⟩

/-- A parsed value is the one that is in effect. -/
theorem Measured.value {read : JsString → Option Nat} {parse : Str → Except Str Nat} {nonZero : Bool} {name default : String} {m : Nat}
    (h : Measured isUrl states read parse nonZero name default) (hparse : one parse (environment states) name default = .ok m) :
    (resolveEffective isUrl states (js name)).value?.bind read = some m ∧ (nonZero = true → m ≠ 0) := by
  obtain ⟨_, n, hn, hzero, hvalue⟩ := h
  rw [hvalue m hparse]
  exact ⟨hn, hzero⟩

/-- The numbers that are parsed are those that are in effect. -/
theorem LetThrough.numbers (h : LetThrough isUrl states) (hp : Parsed fromBech32 (environment states) cfg) :
    (∀ d ∈ durations cfg, (resolveEffective isUrl states (js d.1)).value?.bind ConfigEditor.parseDuration = some d.2) ∧
      ∀ d ∈ sizes cfg, (resolveEffective isUrl states (js d.1)).value?.bind ConfigEditor.parseSize = some d.2 := by
  obtain ⟨m0, m1, m2, m3, m4, m5, m6, m7, m8, m9, m10, m11, m12, m13⟩ := h.measures
  simp only [durations, sizes, List.forall_mem_cons, List.not_mem_nil, false_implies, implies_true, and_true]
  exact ⟨⟨(m0.value hp.cleanupInterval).1, (m1.value hp.uploadMaxAge).1, (m2.value hp.upstreamCacheTtl).1, (m3.value hp.authMaxTtl).1,
    (m4.value hp.authClockSkew).1, (m5.value hp.chunkSessionTimeout).1, (m6.value hp.serveFilesRefreshInterval).1,
    (m7.value hp.serverListCacheTtl).1, (m8.value hp.dvmRefreshInterval).1⟩,
    (m9.value hp.storageMaxSize).1, (m10.value hp.storageMinFree).1, (m11.value hp.blobMaxSize).1, (m12.value hp.chunkMaxSize).1,
    (m13.value hp.upstreamMaxDownloadSize).1⟩

/-- What is parsed is readable. -/
theorem LetThrough.readable (h : LetThrough isUrl states) (hp : Parsed fromBech32 (environment states) cfg) (hs : Sound cashu cfg) :
    Readable fromBech32 cashu states := by
  obtain ⟨m0, m1, m2, m3, m4, m5, m6, m7, m8, m9, m10, m11, m12, m13⟩ := h.measures
  obtain ⟨w0, w1, w2, w3, w4, w5⟩ := h.words
  refine ⟨?_, ?_, ?_, ?_, ?_, ?_, ?_⟩
  · simp only [measureNames, List.forall_mem_cons, List.not_mem_nil, false_implies, implies_true, and_true]
    exact ⟨m0.1.1 ⟨_, hp.cleanupInterval⟩, m1.1.1 ⟨_, hp.uploadMaxAge⟩, m2.1.1 ⟨_, hp.upstreamCacheTtl⟩, m3.1.1 ⟨_, hp.authMaxTtl⟩,
      m4.1.1 ⟨_, hp.authClockSkew⟩, m5.1.1 ⟨_, hp.chunkSessionTimeout⟩, m6.1.1 ⟨_, hp.serveFilesRefreshInterval⟩,
      m7.1.1 ⟨_, hp.serverListCacheTtl⟩, m8.1.1 ⟨_, hp.dvmRefreshInterval⟩, m9.1.1 ⟨_, hp.storageMaxSize⟩,
      m10.1.1 ⟨_, hp.storageMinFree⟩, m11.1.1 ⟨_, hp.blobMaxSize⟩, m12.1.1 ⟨_, hp.chunkMaxSize⟩,
      m13.1.1 ⟨_, hp.upstreamMaxDownloadSize⟩⟩
  · simp only [wordNames, List.forall_mem_cons, List.not_mem_nil, false_implies, implies_true, and_true]
    exact ⟨w0.1 ⟨_, hp.storageMaxFiles⟩, w1.1 ⟨_, hp.chunkMaxSessions⟩, w2.1 ⟨_, hp.chunkMaxSessionsPerPubkey⟩,
      w3.1 ⟨_, hp.hlsMirrorConcurrency⟩, w4.1 ⟨_, hp.cashuPricePerMib⟩, w5.1 ⟨_, hp.s3ForcePathStyle⟩⟩
  · have hlist : ∀ name as, many (trimmed (α := Str) .ok) (environment states) name = .ok as → Filled states (js name) →
        ∀ e ∈ elements (states (js name)).value, Inhabited e := by
      intro name as has hfilled e he
      exact trimmed_saved.1 ((many_iff (trimmed .ok) states name).1.1 ⟨as, has⟩ hfilled e he)
    simp only [listNames, List.forall_mem_cons, List.not_mem_nil, false_implies, implies_true, and_true]
    exact ⟨hlist _ _ hp.corsOrigins, hlist _ _ hp.upstreamServers, hlist _ _ hp.dvmRelays⟩
  · intro hfilled e he
    exact (trimmed_parseUnsigned_saved (h.kind hfilled e he)).1
      ((many_iff (trimmed (parseUnsigned u16Max)) states "ALMOND_DVM_KINDS").1.1 ⟨_, hp.dvmKinds⟩ hfilled e he)
  · intro hfilled
    have hmany := many_iff (parseEnum paidOperations) states "ALMOND_CASHU_PAID"
    refine ⟨hs.feature.resolve_right fun hnil => (hmany.2 _ hp.cashuPaid).1 hnil hfilled, fun e he => ?_⟩
    exact (parseEnum_paid_saved (h.paid hfilled e he)).1 (hmany.1.1 ⟨_, hp.cashuPaid⟩ hfilled e he)
  · intro hfilled e he
    obtain ⟨key, hkey⟩ := (many_iff (parseNpub fromBech32) states "ALMOND_ALLOWED_NPUBS").1.1 ⟨_, hp.allowedNpubs⟩ hfilled e he
    exact ⟨key, mapError_eq_ok.1 hkey⟩
  · intro hfilled
    rcases one_cases (Except.ok : Str → Except Str Str) states "ALMOND_S3_REGION" "auto" with ⟨_, hone⟩ | ⟨hnot, _⟩
    · have hregion := Except.ok.inj (hone.symm.trans hp.s3Region)
      rw [hregion]
      exact hs.region.2
    · exact absurd hfilled hnot

/-- What is readable is parsed. -/
theorem LetThrough.exists_parsed (h : LetThrough isUrl states) (hr : Readable fromBech32 cashu states) :
    ∃ cfg, Parsed fromBech32 (environment states) cfg := by
  have hm : ∀ {read : JsString → Option Nat} {parse : Str → Except Str Nat} {nonZero : Bool} {name default : String},
      Measured isUrl states read parse nonZero name default → name ∈ measureNames → Succeeds (one parse (environment states) name default) :=
    fun hmeasured hname => hmeasured.1.2 (hr.measures _ hname)
  have hlist : ∀ name ∈ listNames, Succeeds (many (trimmed (α := Str) .ok) (environment states) name) := fun name hname =>
    (many_iff (trimmed .ok) states name).1.2 fun hfilled e he => trimmed_saved.2 (hr.lists name hname hfilled e he)
  obtain ⟨m0, m1, m2, m3, m4, m5, m6, m7, m8, m9, m10, m11, m12, m13⟩ := h.measures
  obtain ⟨w0, w1, w2, w3, w4, w5⟩ := h.words
  obtain ⟨cleanupInterval, h0⟩ := hm m0 (by decide)
  obtain ⟨uploadMaxAge, h1⟩ := hm m1 (by decide)
  obtain ⟨upstreamCacheTtl, h2⟩ := hm m2 (by decide)
  obtain ⟨authMaxTtl, h3⟩ := hm m3 (by decide)
  obtain ⟨authClockSkew, h4⟩ := hm m4 (by decide)
  obtain ⟨chunkSessionTimeout, h5⟩ := hm m5 (by decide)
  obtain ⟨serveFilesRefreshInterval, h6⟩ := hm m6 (by decide)
  obtain ⟨serverListCacheTtl, h7⟩ := hm m7 (by decide)
  obtain ⟨dvmRefreshInterval, h8⟩ := hm m8 (by decide)
  obtain ⟨storageMaxSize, h9⟩ := hm m9 (by decide)
  obtain ⟨storageMinFree, h10⟩ := hm m10 (by decide)
  obtain ⟨blobMaxSize, h11⟩ := hm m11 (by decide)
  obtain ⟨chunkMaxSize, h12⟩ := hm m12 (by decide)
  obtain ⟨upstreamMaxDownloadSize, h13⟩ := hm m13 (by decide)
  obtain ⟨storageMaxFiles, h14⟩ := w0.2 (hr.words _ (by decide))
  obtain ⟨chunkMaxSessions, h15⟩ := w1.2 (hr.words _ (by decide))
  obtain ⟨chunkMaxSessionsPerPubkey, h16⟩ := w2.2 (hr.words _ (by decide))
  obtain ⟨hlsMirrorConcurrency, h17⟩ := w3.2 (hr.words _ (by decide))
  obtain ⟨cashuPricePerMib, h18⟩ := w4.2 (hr.words _ (by decide))
  obtain ⟨s3ForcePathStyle, h19⟩ := w5.2 (hr.words _ (by decide))
  obtain ⟨uploadAccess, h20, _⟩ := h.access "ALMOND_UPLOAD_ACCESS" "public" 33 rfl rfl (by decide)
  obtain ⟨mirrorAccess, h21, _⟩ := h.access "ALMOND_MIRROR_ACCESS" "public" 34 rfl rfl (by decide)
  obtain ⟨customOriginAccess, h22, _⟩ := h.access "ALMOND_CUSTOM_ORIGIN_ACCESS" "off" 35 rfl rfl (by decide)
  obtain ⟨reportAccess, h23, _⟩ := h.access "ALMOND_REPORT_ACCESS" "off" 38 rfl rfl (by decide)
  obtain ⟨corsOrigins, h24⟩ := hlist "ALMOND_CORS_ORIGINS" (by decide)
  obtain ⟨upstreamServers, h25⟩ := hlist "ALMOND_UPSTREAM_SERVERS" (by decide)
  obtain ⟨dvmRelays, h26⟩ := hlist "ALMOND_DVM_RELAYS" (by decide)
  obtain ⟨allowedNpubs, h27⟩ : Succeeds (many (parseNpub fromBech32) (environment states) "ALMOND_ALLOWED_NPUBS") := by
    refine (many_iff _ states _).1.2 fun hfilled e he => ?_
    obtain ⟨key, hkey⟩ := hr.npubs hfilled e he
    exact ⟨key, mapError_eq_ok.2 hkey⟩
  obtain ⟨cashuPaid, h28⟩ : Succeeds (many (parseEnum paidOperations) (environment states) "ALMOND_CASHU_PAID") :=
    (many_iff _ states _).1.2 fun hfilled e he => (parseEnum_paid_saved (h.paid hfilled e he)).2 ((hr.paid hfilled).2 e he)
  obtain ⟨dvmKinds, h29⟩ : Succeeds (many (trimmed (parseUnsigned u16Max)) (environment states) "ALMOND_DVM_KINDS") :=
    (many_iff _ states _).1.2 fun hfilled e he => (trimmed_parseUnsigned_saved (h.kind hfilled e he)).2 (hr.kinds hfilled e he)
  exact ⟨{
    s3Endpoint := optional (environment states) "ALMOND_S3_ENDPOINT"
    s3Bucket := optional (environment states) "ALMOND_S3_BUCKET"
    s3AccessKeyId := optional (environment states) "ALMOND_S3_ACCESS_KEY_ID"
    s3SecretAccessKey := optional (environment states) "ALMOND_S3_SECRET_ACCESS_KEY"
    s3Region := if environment states "ALMOND_S3_REGION" = [] then "auto".toList else environment states "ALMOND_S3_REGION"
    cashuMint := optional (environment states) "ALMOND_CASHU_MINT"
    corsOrigins, storageMaxSize, storageMaxFiles, storageMinFree, blobMaxSize, cleanupInterval, uploadMaxAge, upstreamCacheTtl
    s3ForcePathStyle, uploadAccess, mirrorAccess, customOriginAccess, reportAccess, allowedNpubs, authMaxTtl, authClockSkew
    chunkMaxSize, chunkSessionTimeout, chunkMaxSessions, chunkMaxSessionsPerPubkey, hlsMirrorConcurrency, upstreamServers
    upstreamMaxDownloadSize, serveFilesRefreshInterval, cashuPaid, cashuPricePerMib, serverListCacheTtl, dvmKinds, dvmRelays
    dvmRefreshInterval },
    h24, h9, h14, h10, h11, h0, h1, h2, rfl, h19, h20, h21, h22, h23, h27, h3, h4, h12, h5, h15, h16, h17, h25, h13, h6, h28, h18, h7, h29,
    h26, h8, rfl, rfl, rfl, rfl, rfl⟩

/-- No rule between the variables is broken. -/
theorem LetThrough.rules (h : LetThrough isUrl states) :
    s3Errors states = [] ∧
      chunkErrors (resolveEffective isUrl states (js "ALMOND_CHUNK_MAX_SIZE")) (resolveEffective isUrl states (js "ALMOND_BLOB_MAX_SIZE")) = [] ∧
      mintErrors (resolveEffective isUrl states (js "ALMOND_CASHU_PAID")) (resolveEffective isUrl states (js "ALMOND_CASHU_MINT")) = [] ∧
      dvmErrors [resolveEffective isUrl states (js "ALMOND_UPLOAD_ACCESS"), resolveEffective isUrl states (js "ALMOND_MIRROR_ACCESS")]
        (resolveEffective isUrl states (js "ALMOND_DVM_KINDS")) = [] := by
  have hcross := h.cross
  simp only [crossFieldErrors, List.append_eq_nil_iff, and_assoc] at hcross
  exact hcross

/-- A literal variable is set exactly when the argument is. -/
theorem isSet_eq (hliteral : (states (js name)).hasReference = false) :
    isSet states (js name) = (ServerConfig.optional (environment states) name).isSome := by
  by_cases hfilled : Filled states (js name)
  · have hne : environment states name ≠ [] := fun hnil => environment_eq_nil_iff.1 hnil hfilled
    simp [isSet, ServerConfig.optional, hfilled.1, hfilled.2, hne]
  · rw [ServerConfig.optional, if_pos (environment_eq_nil_iff.2 hfilled), Option.isSome_none, isSet, hliteral, Bool.false_or]
    simpa [Filled] using hfilled

/-- All of the object store is set, or nothing. -/
theorem LetThrough.s3 (h : LetThrough isUrl states) (hp : Parsed fromBech32 (environment states) cfg) :
    ([cfg.s3Endpoint, cfg.s3Bucket, cfg.s3AccessKeyId, cfg.s3SecretAccessKey].filter Option.isSome).length = 0 ∨
      ([cfg.s3Endpoint, cfg.s3Bucket, cfg.s3AccessKeyId, cfg.s3SecretAccessKey].filter Option.isSome).length = 4 := by
  have hliteral : ∀ {name : String} (i : Nat) {f : SchemaField}, almondSchema[i]? = some f → f.name = js name →
      (states (js name)).hasReference = false := fun _ _ hf hname => hname ▸ h.literal _ (List.mem_of_getElem? hf)
  have hcount : (s3Names.filter (isSet states)).length =
      ([cfg.s3Endpoint, cfg.s3Bucket, cfg.s3AccessKeyId, cfg.s3SecretAccessKey].filter Option.isSome).length := by
    rw [← hp.s3Endpoint, ← hp.s3Bucket, ← hp.s3AccessKeyId, ← hp.s3SecretAccessKey]
    simp only [s3Names, ← List.countP_eq_length_filter, List.countP_cons, List.countP_nil]
    rw [isSet_eq (hliteral 8 rfl rfl), isSet_eq (hliteral 9 rfl rfl), isSet_eq (hliteral 10 rfl rfl), isSet_eq (hliteral 11 rfl rfl)]
  have hs3 := h.rules.1
  simp only [s3Errors] at hs3
  split at hs3
  · nomatch hs3
  · rename_i hno
    rw [hcount] at hno
    omega

/-- What has a value is a value. -/
theorem Effective.eq_value {e : Effective} {v : JsString} (h : e.value? = some v) : e = .value (some v) := by
  cases e with
  | value value => exact congrArg Effective.value h
  | opaqueText => nomatch h
  | error error => nomatch h

/-- A chunk is no larger than a blob. -/
theorem LetThrough.chunk (h : LetThrough isUrl states) (hp : Parsed fromBech32 (environment states) cfg) :
    cfg.chunkMaxSize ≤ cfg.blobMaxSize := by
  obtain ⟨_, _, _, _, _, _, _, _, _, _, _, mblob, mchunk, _⟩ := h.measures
  obtain ⟨chunk, hchunk, hchunkSize⟩ := Option.bind_eq_some_iff.1 (mchunk.value hp.chunkMaxSize).1
  obtain ⟨blob, hblob, hblobSize⟩ := Option.bind_eq_some_iff.1 (mblob.value hp.blobMaxSize).1
  have hrule := h.rules.2.1
  rw [Effective.eq_value hchunk, Effective.eq_value hblob, chunkErrors] at hrule
  split at hrule
  · nomatch hrule
  · rename_i hno
    rw [hchunkSize, hblobSize] at hno
    simpa [exceeds] using hno

/-- What is paid for has exactly one mint. -/
theorem LetThrough.mint (h : LetThrough isUrl states) (hp : Parsed fromBech32 (environment states) cfg) :
    cfg.cashuPaid = [] ∨ cfg.cashuMint.any (fun m => ',' ∉ m) = true := by
  by_cases hpaid : Filled states (js "ALMOND_CASHU_PAID")
  · right
    have hfpaid : (⟨js "ALMOND_CASHU_PAID", .list, some paidNames, none, false, false⟩ : SchemaField) ∈ almondSchema :=
      List.mem_of_getElem? (i := 40) rfl
    have hfmint : (⟨js "ALMOND_CASHU_MINT", .url, none, none, false, false⟩ : SchemaField) ∈ almondSchema :=
      List.mem_of_getElem? (i := 42) rfl
    have hrule := h.rules.2.2.1
    rw [h.resolve_filled hfpaid hpaid] at hrule
    rw [← hp.cashuMint]
    by_cases hmint : Filled states (js "ALMOND_CASHU_MINT")
    · rw [h.resolve_filled hfmint hmint] at hrule
      have hcomma : comma ∉ (states (js "ALMOND_CASHU_MINT")).value := by
        intro hmem
        simp [mintErrors, Effective.value?, Effective.failed, hmem] at hrule
      have hne : environment states "ALMOND_CASHU_MINT" ≠ [] := fun hnil => environment_eq_nil_iff.1 hnil hmint
      rw [ServerConfig.optional, if_neg hne, environment_of_filled hmint]
      simpa using mt comma_mem_saved_iff.1 hcomma
    · rw [h.resolve_unfilled hfmint rfl hmint] at hrule
      simp [mintErrors, Effective.value?, Effective.failed] at hrule
  · exact .inl (((many_iff (parseEnum paidOperations) states "ALMOND_CASHU_PAID").2 _ hp.cashuPaid).2 hpaid)

/-- Access for data vending machines has kinds of them. -/
theorem LetThrough.dvm (h : LetThrough isUrl states) (hp : Parsed fromBech32 (environment states) cfg) :
    cfg.uploadAccess ≠ .dvm ∧ cfg.mirrorAccess ≠ .dvm ∨ cfg.dvmKinds ≠ [] := by
  by_cases hkinds : Filled states (js "ALMOND_DVM_KINDS")
  · right
    intro hnil
    exact ((many_iff (trimmed (parseUnsigned u16Max)) states "ALMOND_DVM_KINDS").2 _ hp.dvmKinds).1 hnil hkinds
  · left
    have hf : (⟨js "ALMOND_DVM_KINDS", .listU16, none, none, false, false⟩ : SchemaField) ∈ almondSchema :=
      List.mem_of_getElem? (i := 46) rfl
    have hrule := h.rules.2.2.2
    rw [h.resolve_unfilled hf rfl hkinds] at hrule
    obtain ⟨upload, hupload, hiff⟩ := h.access "ALMOND_UPLOAD_ACCESS" "public" 33 rfl rfl (by decide)
    obtain ⟨mirror, hmirror, hiff'⟩ := h.access "ALMOND_MIRROR_ACCESS" "public" 34 rfl rfl (by decide)
    obtain rfl := Except.ok.inj (hupload.symm.trans hp.uploadAccess)
    obtain rfl := Except.ok.inj (hmirror.symm.trans hp.mirrorAccess)
    constructor
    · intro hdvm
      rw [Effective.eq_value (hiff.1 hdvm)] at hrule
      simp [dvmErrors, Effective.value?] at hrule
    · intro hdvm
      rw [Effective.eq_value (hiff'.1 hdvm)] at hrule
      simp [dvmErrors, Effective.value?] at hrule

/-- No rule of the server is broken. -/
theorem LetThrough.sound (h : LetThrough isUrl states) (hr : Readable fromBech32 cashu states)
    (hp : Parsed fromBech32 (environment states) cfg) : Sound cashu cfg := by
  obtain ⟨mcleanup, _, _, mttl, _⟩ := h.measures
  refine ⟨h.s3 hp, ?_, (mcleanup.value hp.cleanupInterval).2 rfl, (mttl.value hp.authMaxTtl).2 rfl, h.chunk hp, ?_, h.mint hp, h.dvm hp⟩
  · rcases one_cases (Except.ok : Str → Except Str Str) states "ALMOND_S3_REGION" "auto" with ⟨hfilled, hone⟩ | ⟨_, hone⟩
    · rw [← Except.ok.inj (hone.symm.trans hp.s3Region)]
      exact ⟨mt saved_eq_nil_iff.1 hfilled.2, hr.region hfilled⟩
    · rw [← Except.ok.inj (hone.symm.trans hp.s3Region)]
      decide
  · by_cases hpaid : Filled states (js "ALMOND_CASHU_PAID")
    · exact .inl (hr.paid hpaid).1
    · exact .inr (((many_iff (parseEnum paidOperations) states "ALMOND_CASHU_PAID").2 _ hp.cashuPaid).2 hpaid)

/-- The server starts with what the form lets through, and reads it as the form does, exactly when it is readable. -/
theorem accepted_iff (isUrl : JsString → Bool) (fromBech32 : Str → Except Str κ) (cashu : Bool) {states : FieldStates}
    (h : LetThrough isUrl states) : Accepted isUrl fromBech32 cashu states ↔ Readable fromBech32 cashu states := by
  constructor
  · rintro ⟨cfg, hparse, hcheck, _⟩
    exact h.readable (parseArgs_eq_ok_iff.1 hparse) (check_eq_ok_iff.1 hcheck)
  · intro hr
    obtain ⟨cfg, hp⟩ := h.exists_parsed hr
    exact ⟨cfg, parseArgs_eq_ok_iff.2 hp, check_eq_ok_iff.2 (h.sound hr hp), h.numbers hp⟩

end

/-! ## A form with one list -/

/-- A form in which only the origins are set. -/
def originsOnly (value : JsString) : FieldStates :=
  resetFieldStates.set (js "ALMOND_CORS_ORIGINS") ⟨true, value, false⟩

/-- No rule looks at the origins. -/
theorem crossFieldErrors_originsOnly (value : JsString) : crossFieldErrors (fun _ => true) (originsOnly value) = [] :=
  of_decide_eq_true (Eq.refl true)

/-- Any origins are let through, if there is one. -/
theorem letThrough_originsOnly {value : JsString} (h : splitList value ≠ []) : LetThrough (fun _ => true) (originsOnly value) := by
  have hcors : (⟨js "ALMOND_CORS_ORIGINS", .list, none, none, false, false⟩ : SchemaField) ∈ almondSchema :=
    List.mem_of_getElem? (i := 2) rfl
  refine ⟨fun f _ => ?_, List.filterMap_eq_nil_iff.2 fun f hf => ?_, crossFieldErrors_originsOnly value⟩
  · by_cases hname : f.name = js "ALMOND_CORS_ORIGINS" <;> simp [originsOnly, FieldStates.set, resetFieldStates, hname]
  · by_cases hname : f.name = js "ALMOND_CORS_ORIGINS"
    · have hschema := schemaByName_of_mem hcors
      by_cases hnil : value = [] <;>
        simp [originsOnly, FieldStates.set, hname, resolveEffective, hschema, validateFieldValue, h, hnil]
    · simp [originsOnly, FieldStates.set, resetFieldStates, hname]

/-- One origin. -/
theorem accepted_iff_origin :
    Accepted (fun _ => true) (fun s => .ok s) false (originsOnly (js "https://a.example")) ↔
      Readable (fun s => .ok s) false (originsOnly (js "https://a.example")) :=
  accepted_iff (fun _ => true) (fun s => .ok s) false (letThrough_originsOnly (by decide))

/-- A comma after the last origin: the form drops the empty element, and the server does not start. -/
theorem accepted_false : ∃ states, LetThrough (fun _ => true) states ∧ ¬ Accepted (fun _ => true) (fun s => .ok s) false states := by
  refine ⟨originsOnly (js "https://a.example,"), letThrough_originsOnly (by decide), ?_⟩
  rintro ⟨cfg, hparse, _⟩
  have hp := (parseArgs_eq_ok_iff.1 hparse).corsOrigins
  have herror : many (trimmed (α := Str) .ok) (environment (originsOnly (js "https://a.example,"))) "ALMOND_CORS_ORIGINS" =
      .error "empty list element".toList := by rfl
  rw [herror] at hp
  nomatch hp

end Almond.ConfigEditor
