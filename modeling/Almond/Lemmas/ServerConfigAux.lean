import Almond.Lemmas.AuthAux
import Almond.Lemmas.NamesAux
import Almond.ServerConfig

/-! # Arguments of the server

The server parses its environment exactly when it parses each argument, and its rules hold exactly when none of them is broken. -/

namespace Almond.ServerConfig

variable {κ : Type} {fromBech32 : Str → Except Str κ} {env : Env} {cfg : Config κ} {cashu : Bool}

/-! ## Numbers -/

section

variable {max n m : Nat} {s digits : Str}

/-- The value of digits after a number. -/
def valueAfter (n : Nat) (s : Str) : Nat :=
  s.foldl (fun n c => 10 * n + digitValue c) n

/-- Digits after a number make it no smaller. -/
theorem le_valueAfter (n : Nat) (s : Str) : n ≤ valueAfter n s := by
  induction s generalizing n with
  | nil => exact le_rfl
  | cons c s ih => exact (show n ≤ 10 * n + digitValue c by omega).trans (ih _)

/-- Only digits are parsed. -/
theorem isDigit_of_parseDigits (h : parseDigits max n s = .ok m) : ∀ c ∈ s, c.isDigit = true := by
  induction s generalizing n with
  | nil => exact fun _ hc => nomatch hc
  | cons c s ih =>
    rw [parseDigits] at h
    split at h
    · nomatch h
    · rename_i hc
      split at h
      · nomatch h
      · exact List.forall_mem_cons.2 ⟨by simpa using hc, ih h⟩

/-- Digits after a number are parsed exactly when their value is not too large. -/
theorem parseDigits_digits (hdigits : ∀ c ∈ digits, c.isDigit = true) (hn : n ≤ max) : parseDigits max n digits =
    if valueAfter n digits ≤ max then .ok (valueAfter n digits) else .error "number too large to fit in target type".toList := by
  induction digits generalizing n with
  | nil => exact (if_pos hn).symm
  | cons c digits ih =>
    obtain ⟨hc, hdigits⟩ := List.forall_mem_cons.1 hdigits
    rw [parseDigits, if_neg (by simp [hc])]
    by_cases hmax : max < 10 * n + digitValue c
    · have hvalue : max < valueAfter n (c :: digits) := hmax.trans_le (le_valueAfter _ _)
      rw [if_pos hmax, if_neg (Nat.not_le.2 hvalue)]
    · rw [if_neg hmax, ih hdigits (Nat.not_lt.1 hmax)]
      rfl

/-- Digits are parsed exactly when their value is not too large. -/
theorem parseUnsigned_digits (hne : digits ≠ []) (hdigits : ∀ c ∈ digits, c.isDigit = true) : parseUnsigned max digits =
    if digitsValue digits ≤ max then .ok (digitsValue digits) else .error "number too large to fit in target type".toList := by
  rw [parseUnsigned, BlobName.unsigned_of_all_isDigit (List.all_eq_true.2 hdigits), if_neg hne, if_neg hne]
  exact parseDigits_digits hdigits (Nat.zero_le max)

/-- A number that is not too large is parsed. -/
theorem parseUnsigned_of_le (hne : digits ≠ []) (hdigits : ∀ c ∈ digits, c.isDigit = true) (h : digitsValue digits ≤ max) :
    parseUnsigned max digits = .ok (digitsValue digits) := by
  rw [parseUnsigned_digits hne hdigits, if_pos h]

/-- A number is only digits, after a sign. -/
theorem of_parseUnsigned (h : parseUnsigned max s = .ok m) {c : Char} (hc : c ∈ s) : c.isDigit = true ∨ c = '+' := by
  unfold parseUnsigned at h
  split at h
  · nomatch h
  · split at h
    · nomatch h
    · have hdigits := isDigit_of_parseDigits h
      cases s with
      | nil => nomatch hc
      | cons x s =>
        by_cases hx : x = '+'
        · subst hx
          exact (List.mem_cons.1 hc).symm.imp_left fun hc => hdigits c hc
        · have hs : unsigned (x :: s) = x :: s := by
            unfold unsigned
            split
            · rename_i heq
              exact absurd (List.cons.inj heq).1 hx
            · rfl
          rw [hs] at hdigits
          exact .inl (hdigits c hc)

end

/-! ## Units -/

section

variable {units : List (Str × Nat)} {s digits written rest sample : Str} {c : Char} {n : Nat}

/-- The letters in upper case. -/
theorem isUpper_iff {c : Char} : c.isUpper = true ↔ 65 ≤ c.toNat ∧ c.toNat ≤ 90 := by
  show decide (c.val ≥ 'A'.val ∧ c.val ≤ 'Z'.val) = true ↔ 65 ≤ c.toNat ∧ c.toNat ≤ 90
  simp only [decide_eq_true_eq, ge_iff_le, UInt32.le_iff_toNat_le]
  rfl

/-- The number of a character in lower case. -/
theorem toNat_toLower (x : Char) : x.toLower.toNat = if 65 ≤ x.toNat ∧ x.toNat ≤ 90 then x.toNat + 32 else x.toNat := by
  have hcond : x.val ≥ 'A'.val ∧ x.val ≤ 'Z'.val ↔ 65 ≤ x.toNat ∧ x.toNat ≤ 90 := by
    simp only [ge_iff_le, UInt32.le_iff_toNat_le]
    rfl
  unfold Char.toLower
  by_cases h : 65 ≤ x.toNat ∧ x.toNat ≤ 90
  · rw [dif_pos (hcond.2 h), if_pos h]
    have hdiff : ('a'.val - 'A'.val).toNat = 32 := rfl
    change (x.val + ('a'.val - 'A'.val)).toNat = x.toNat + 32
    rw [UInt32.toNat_add, hdiff]
    change (x.toNat + 32) % 2 ^ 32 = x.toNat + 32
    omega
  · rw [dif_neg (mt hcond.1 h), if_neg h]

/-- A digit is its own lower case. -/
theorem toLower_of_isDigit (h : c.isDigit = true) : c.toLower = c := by
  have hrange := Char.isDigit_iff_toNat.1 h
  have hlow : '0'.toNat = 48 := rfl
  have hhigh : '9'.toNat = 57 := rfl
  rw [← Char.toNat_inj, toNat_toLower, if_neg (by omega)]

/-- A text stands for a number: it is `0`, or digits and the name of a unit, and the product is a `u64`. -/
inductive Stands (units : List (Str × Nat)) (same : Str → Str → Prop) (s : Str) : Nat → Prop
  | zero : trim s = ['0'] → Stands units same s 0
  | unit (digits written unit : Str) (factor : Nat) : trim s = digits ++ written → digits ≠ [] → (∀ c ∈ digits, c.isDigit = true) →
      (unit, factor) ∈ units → same unit written → digitsValue digits * factor < 2 ^ 64 → Stands units same s (digitsValue digits * factor)

/-- Units with names and factors: no name starts with a digit, and no two are the same in lower case. -/
structure Named (units : List (Str × Nat)) : Prop where
  name : ∀ u ∈ units, ∃ c ∈ (u.1.map Char.toLower).head?, c.isDigit = false
  factor : ∀ u ∈ units, 0 < u.2
  unique : ∀ u ∈ units, ∀ v ∈ units, u.1.map Char.toLower = v.1.map Char.toLower → u = v

/-- A number with what follows it is parsed piece by piece. -/
theorem parseWithUnit_append (htrim : trim s = digits ++ c :: rest) (hdigits : ∀ c ∈ digits, c.isDigit = true) (hc : c.isDigit = false) :
    parseWithUnit s units sample = match parseUnsigned u64Max digits with
      | .error _ => .error ("expected <number><unit>, e.g. ".toList ++ sample)
      | .ok number =>
        match units.find? fun (u, _) => eqIgnoreAsciiCase u (c :: rest) with
        | none => .error ("unknown unit '".toList ++ (c :: rest) ++ "', use one of ".toList ++
            ((units.map Prod.fst).intersperse ", ".toList).flatten)
        | some (_, factor) => if number * factor ≤ u64Max then .ok (number * factor) else .error "value too large".toList := by
  have htake : (trim s).takeWhile Char.isDigit = digits := by
    rw [htrim, List.takeWhile_append_of_pos hdigits, List.takeWhile_cons, hc]
    simp
  have hdrop : (trim s).dropWhile Char.isDigit = c :: rest := by
    rw [htrim, List.dropWhile_append_of_pos hdigits, List.dropWhile_cons, hc]
    simp
  have hzero : trim s ≠ ['0'] := by
    intro heq
    rw [heq] at hdrop
    nomatch hdrop
  unfold parseWithUnit
  dsimp only
  rw [htake, hdrop]
  exact (if_neg hzero).trans (if_neg (List.cons_ne_nil c rest))

/-- The unit of a text is found by its name in lower case. -/
theorem Named.find (h : Named units) {unit : Str} {factor : Nat} (hmem : (unit, factor) ∈ units)
    (hsame : eqIgnoreAsciiCase unit written = true) : units.find? (fun (u, _) => eqIgnoreAsciiCase u written) = some (unit, factor) := by
  cases hfind : units.find? (fun (u, _) => eqIgnoreAsciiCase u written) with
  | none => exact absurd hsame (List.find?_eq_none.1 hfind _ hmem)
  | some u =>
    have heq := List.find?_some hfind
    simp only [eqIgnoreAsciiCase, decide_eq_true_eq] at heq hsame
    exact congrArg some (h.unique u (List.mem_of_find?_eq_some hfind) _ hmem (heq.trans hsame.symm))

/-- What is written for a unit starts with no digit. -/
theorem Named.written_eq_cons (h : Named units) {unit : Str} {factor : Nat} (hmem : (unit, factor) ∈ units)
    (hsame : eqIgnoreAsciiCase unit written = true) : ∃ c rest, written = c :: rest ∧ c.isDigit = false := by
  obtain ⟨l, hl, hdigit⟩ := h.name _ hmem
  simp only [eqIgnoreAsciiCase, decide_eq_true_eq] at hsame
  rw [hsame] at hl
  cases written with
  | nil => nomatch hl
  | cons c rest =>
    obtain rfl : c.toLower = l := Option.some.inj hl
    refine ⟨c, rest, rfl, ?_⟩
    rw [Bool.eq_false_iff] at hdigit ⊢
    exact fun hc => hdigit (by rwa [toLower_of_isDigit hc])

/-- Digits and a unit are parsed exactly when the product is a `u64`. -/
theorem parseWithUnit_unit (h : Named units) {unit : Str} {factor : Nat} (htrim : trim s = digits ++ written) (hne : digits ≠ [])
    (hdigits : ∀ c ∈ digits, c.isDigit = true) (hmem : (unit, factor) ∈ units) (hsame : eqIgnoreAsciiCase unit written = true) :
    parseWithUnit s units sample =
      if u64Max < digitsValue digits then .error ("expected <number><unit>, e.g. ".toList ++ sample)
      else if digitsValue digits * factor ≤ u64Max then .ok (digitsValue digits * factor) else .error "value too large".toList := by
  obtain ⟨c, rest, rfl, hc⟩ := h.written_eq_cons hmem hsame
  rw [parseWithUnit_append htrim hdigits hc, parseUnsigned_digits hne hdigits, h.find hmem hsame]
  by_cases hmax : u64Max < digitsValue digits
  · rw [if_pos hmax, if_neg (Nat.not_le.2 hmax)]
  · rw [if_neg hmax, if_pos (Nat.not_lt.1 hmax)]

/-- A text is parsed exactly when it stands for a number, and to this number. -/
theorem parseWithUnit_ok_iff (h : Named units) :
    parseWithUnit s units sample = .ok n ↔ Stands units (fun unit written => eqIgnoreAsciiCase unit written = true) s n := by
  constructor
  · intro hok
    have htrim := (List.takeWhile_append_dropWhile (p := Char.isDigit) (l := trim s)).symm
    have hdigits : ∀ c ∈ (trim s).takeWhile Char.isDigit, c.isDigit = true := fun c hc => List.mem_takeWhile_imp hc
    simp only [parseWithUnit] at hok
    split at hok
    · rename_i hzero
      cases hok
      exact .zero hzero
    · split at hok
      · nomatch hok
      · split at hok
        · nomatch hok
        · rename_i number hnumber
          split at hok
          · nomatch hok
          · rename_i unit factor hfind
            split at hok
            · rename_i hle
              cases hok
              have hne : (trim s).takeWhile Char.isDigit ≠ [] := by
                intro hnil
                rw [hnil] at hnumber
                nomatch hnumber
              rw [parseUnsigned_digits hne hdigits] at hnumber
              split at hnumber
              · cases hnumber
                exact .unit _ _ unit factor htrim hne hdigits (List.mem_of_find?_eq_some hfind)
                  (by simpa using List.find?_some hfind) (Nat.lt_of_le_of_lt hle (by decide))
              · nomatch hnumber
            · nomatch hok
  · intro hstands
    cases hstands with
    | zero hzero => simp only [parseWithUnit, hzero, if_true]
    | unit digits written unit factor htrim hne hdigits hmem hsame hlt =>
      have hle : digitsValue digits * factor ≤ u64Max := Nat.le_sub_one_of_lt hlt
      have hvalue : digitsValue digits ≤ u64Max := (Nat.le_mul_of_pos_right _ (h.factor _ hmem)).trans hle
      rw [parseWithUnit_unit h htrim hne hdigits hmem hsame, if_neg (Nat.not_lt.2 hvalue), if_pos hle]

end

/-! ## Arguments and rules -/

/-- The settings of an environment, argument by argument. -/
structure Parsed (fromBech32 : Str → Except Str κ) (env : Env) (cfg : Config κ) : Prop where
  corsOrigins : many (trimmed .ok) env "ALMOND_CORS_ORIGINS" = .ok cfg.corsOrigins
  storageMaxSize : one parseSize env "ALMOND_STORAGE_MAX_SIZE" "0" = .ok cfg.storageMaxSize
  storageMaxFiles : one (parseUnsigned u64Max) env "ALMOND_STORAGE_MAX_FILES" "0" = .ok cfg.storageMaxFiles
  storageMinFree : one parseSize env "ALMOND_STORAGE_MIN_FREE" "256MiB" = .ok cfg.storageMinFree
  blobMaxSize : one parseSize env "ALMOND_BLOB_MAX_SIZE" "500MiB" = .ok cfg.blobMaxSize
  cleanupInterval : one parseDuration env "ALMOND_CLEANUP_INTERVAL" "30s" = .ok cfg.cleanupInterval
  uploadMaxAge : one parseDuration env "ALMOND_UPLOAD_MAX_AGE" "0" = .ok cfg.uploadMaxAge
  upstreamCacheTtl : one parseDuration env "ALMOND_UPSTREAM_CACHE_TTL" "1d" = .ok cfg.upstreamCacheTtl
  s3Region : one .ok env "ALMOND_S3_REGION" "auto" = .ok cfg.s3Region
  s3ForcePathStyle : one (parseEnum boolishWords) env "ALMOND_S3_FORCE_PATH_STYLE" "false" = .ok cfg.s3ForcePathStyle
  uploadAccess : one (parseEnum featureModes) env "ALMOND_UPLOAD_ACCESS" "public" = .ok cfg.uploadAccess
  mirrorAccess : one (parseEnum featureModes) env "ALMOND_MIRROR_ACCESS" "public" = .ok cfg.mirrorAccess
  customOriginAccess : one (parseEnum featureModes) env "ALMOND_CUSTOM_ORIGIN_ACCESS" "off" = .ok cfg.customOriginAccess
  reportAccess : one (parseEnum featureModes) env "ALMOND_REPORT_ACCESS" "off" = .ok cfg.reportAccess
  allowedNpubs : many (parseNpub fromBech32) env "ALMOND_ALLOWED_NPUBS" = .ok cfg.allowedNpubs
  authMaxTtl : one parseDuration env "ALMOND_AUTH_MAX_TTL" "24h" = .ok cfg.authMaxTtl
  authClockSkew : one parseDuration env "ALMOND_AUTH_CLOCK_SKEW" "30s" = .ok cfg.authClockSkew
  chunkMaxSize : one parseSize env "ALMOND_CHUNK_MAX_SIZE" "100MiB" = .ok cfg.chunkMaxSize
  chunkSessionTimeout : one parseDuration env "ALMOND_CHUNK_SESSION_TIMEOUT" "30m" = .ok cfg.chunkSessionTimeout
  chunkMaxSessions : one (parseUnsigned u64Max) env "ALMOND_CHUNK_MAX_SESSIONS" "128" = .ok cfg.chunkMaxSessions
  chunkMaxSessionsPerPubkey : one (parseUnsigned u64Max) env "ALMOND_CHUNK_MAX_SESSIONS_PER_PUBKEY" "8" = .ok cfg.chunkMaxSessionsPerPubkey
  hlsMirrorConcurrency : one (parseUnsigned u64Max) env "ALMOND_HLS_MIRROR_CONCURRENCY" "4" = .ok cfg.hlsMirrorConcurrency
  upstreamServers : many (trimmed .ok) env "ALMOND_UPSTREAM_SERVERS" = .ok cfg.upstreamServers
  upstreamMaxDownloadSize : one parseSize env "ALMOND_UPSTREAM_MAX_DOWNLOAD_SIZE" "100MiB" = .ok cfg.upstreamMaxDownloadSize
  serveFilesRefreshInterval : one parseDuration env "ALMOND_SERVE_FILES_REFRESH_INTERVAL" "1h" = .ok cfg.serveFilesRefreshInterval
  cashuPaid : many (parseEnum paidOperations) env "ALMOND_CASHU_PAID" = .ok cfg.cashuPaid
  cashuPricePerMib : one (parseUnsigned u64Max) env "ALMOND_CASHU_PRICE_PER_MIB" "1" = .ok cfg.cashuPricePerMib
  serverListCacheTtl : one parseDuration env "ALMOND_SERVER_LIST_CACHE_TTL" "24h" = .ok cfg.serverListCacheTtl
  dvmKinds : many (trimmed (parseUnsigned u16Max)) env "ALMOND_DVM_KINDS" = .ok cfg.dvmKinds
  dvmRelays : many (trimmed .ok) env "ALMOND_DVM_RELAYS" = .ok cfg.dvmRelays
  dvmRefreshInterval : one parseDuration env "ALMOND_DVM_REFRESH_INTERVAL" "5m" = .ok cfg.dvmRefreshInterval
  s3Endpoint : optional env "ALMOND_S3_ENDPOINT" = cfg.s3Endpoint
  s3Bucket : optional env "ALMOND_S3_BUCKET" = cfg.s3Bucket
  s3AccessKeyId : optional env "ALMOND_S3_ACCESS_KEY_ID" = cfg.s3AccessKeyId
  s3SecretAccessKey : optional env "ALMOND_S3_SECRET_ACCESS_KEY" = cfg.s3SecretAccessKey
  cashuMint : optional env "ALMOND_CASHU_MINT" = cfg.cashuMint

/-- One step after another succeeds when both do. -/
theorem bind_eq_ok {α β : Type} {x : Except Str α} {f : α → Except Str β} {b : β} :
    (x >>= f) = .ok b ↔ ∃ a, x = .ok a ∧ f a = .ok b := by
  cases x with
  | error e => exact ⟨nofun, fun ⟨_, h, _⟩ => nomatch h⟩
  | ok a => exact ⟨fun h => ⟨a, rfl, h⟩, fun ⟨_, h, h'⟩ => by cases h; exact h'⟩

/-- The environment is parsed argument by argument. -/
theorem parseArgs_eq_ok_iff : parseArgs fromBech32 env = .ok cfg ↔ Parsed fromBech32 env cfg := by
  constructor
  · intro h
    obtain ⟨_, h0, h⟩ := bind_eq_ok.1 h
    obtain ⟨_, h1, h⟩ := bind_eq_ok.1 h
    obtain ⟨_, h2, h⟩ := bind_eq_ok.1 h
    obtain ⟨_, h3, h⟩ := bind_eq_ok.1 h
    obtain ⟨_, h4, h⟩ := bind_eq_ok.1 h
    obtain ⟨_, h5, h⟩ := bind_eq_ok.1 h
    obtain ⟨_, h6, h⟩ := bind_eq_ok.1 h
    obtain ⟨_, h7, h⟩ := bind_eq_ok.1 h
    obtain ⟨_, h8, h⟩ := bind_eq_ok.1 h
    obtain ⟨_, h9, h⟩ := bind_eq_ok.1 h
    obtain ⟨_, h10, h⟩ := bind_eq_ok.1 h
    obtain ⟨_, h11, h⟩ := bind_eq_ok.1 h
    obtain ⟨_, h12, h⟩ := bind_eq_ok.1 h
    obtain ⟨_, h13, h⟩ := bind_eq_ok.1 h
    obtain ⟨_, h14, h⟩ := bind_eq_ok.1 h
    obtain ⟨_, h15, h⟩ := bind_eq_ok.1 h
    obtain ⟨_, h16, h⟩ := bind_eq_ok.1 h
    obtain ⟨_, h17, h⟩ := bind_eq_ok.1 h
    obtain ⟨_, h18, h⟩ := bind_eq_ok.1 h
    obtain ⟨_, h19, h⟩ := bind_eq_ok.1 h
    obtain ⟨_, h20, h⟩ := bind_eq_ok.1 h
    obtain ⟨_, h21, h⟩ := bind_eq_ok.1 h
    obtain ⟨_, h22, h⟩ := bind_eq_ok.1 h
    obtain ⟨_, h23, h⟩ := bind_eq_ok.1 h
    obtain ⟨_, h24, h⟩ := bind_eq_ok.1 h
    obtain ⟨_, h25, h⟩ := bind_eq_ok.1 h
    obtain ⟨_, h26, h⟩ := bind_eq_ok.1 h
    obtain ⟨_, h27, h⟩ := bind_eq_ok.1 h
    obtain ⟨_, h28, h⟩ := bind_eq_ok.1 h
    obtain ⟨_, h29, h⟩ := bind_eq_ok.1 h
    obtain ⟨_, h30, h⟩ := bind_eq_ok.1 h
    cases h
    exact ⟨h0, h1, h2, h3, h4, h5, h6, h7, h8, h9, h10, h11, h12, h13, h14, h15, h16, h17, h18, h19, h20, h21, h22, h23, h24, h25, h26, h27, h28, h29, h30, rfl, rfl, rfl, rfl, rfl⟩
  · intro h
    obtain ⟨h0, h1, h2, h3, h4, h5, h6, h7, h8, h9, h10, h11, h12, h13, h14, h15, h16, h17, h18, h19, h20, h21, h22, h23, h24, h25, h26, h27, h28, h29, h30, o0, o1, o2, o3, o4⟩ := h
    cases cfg
    simp only at h0 h1 h2 h3 h4 h5 h6 h7 h8 h9 h10 h11 h12 h13 h14 h15 h16 h17 h18 h19 h20 h21 h22 h23 h24 h25 h26 h27 h28 h29 h30 o0 o1 o2 o3 o4
    unfold parseArgs
    rw [h0, h1, h2, h3, h4, h5, h6, h7, h8, h9, h10, h11, h12, h13, h14, h15, h16, h17, h18, h19, h20, h21, h22, h23, h24, h25, h26, h27, h28, h29, h30]
    subst_vars
    rfl

/-- What the rules ask for. -/
structure Sound (cashu : Bool) (cfg : Config κ) : Prop where
  s3 : ([cfg.s3Endpoint, cfg.s3Bucket, cfg.s3AccessKeyId, cfg.s3SecretAccessKey].filter Option.isSome).length = 0 ∨
    ([cfg.s3Endpoint, cfg.s3Bucket, cfg.s3AccessKeyId, cfg.s3SecretAccessKey].filter Option.isSome).length = 4
  region : cfg.s3Region ≠ [] ∧ cfg.s3Region.all isRegionChar = true
  cleanup : cfg.cleanupInterval ≠ 0
  ttl : cfg.authMaxTtl ≠ 0
  chunk : cfg.chunkMaxSize ≤ cfg.blobMaxSize
  feature : cashu = true ∨ cfg.cashuPaid = []
  mint : cfg.cashuPaid = [] ∨ cfg.cashuMint.any (fun m => ',' ∉ m) = true
  dvm : cfg.uploadAccess ≠ .dvm ∧ cfg.mirrorAccess ≠ .dvm ∨ cfg.dvmKinds ≠ []

/-- A rule that is not broken. -/
theorem error_else_eq_ok {c : Prop} [Decidable c] {e : Str} {x : Except Str Unit} :
    (if c then .error e else x) = .ok () ↔ ¬ c ∧ x = .ok () := by
  by_cases h : c <;> simp [h]

/-- The rules hold exactly when none of them is broken. -/
theorem check_eq_ok_iff : cfg.check cashu = .ok () ↔ Sound cashu cfg := by
  simp only [Config.check, error_else_eq_ok, and_true]
  constructor
  · rintro ⟨hs3, hregion, hcleanup, httl, hchunk, hfeature, hmint, hdvm⟩
    refine ⟨by omega, ?_, hcleanup, httl, Nat.le_of_not_lt hchunk, ?_, ?_, ?_⟩
    · simpa using hregion
    · by_cases hc : cashu = true <;> simp_all
    · by_cases hp : cfg.cashuPaid = [] <;> simp_all
    · by_cases hk : cfg.dvmKinds = [] <;> simp_all
  · rintro ⟨hs3, hregion, hcleanup, httl, hchunk, hfeature, hmint, hdvm⟩
    refine ⟨by omega, ?_, hcleanup, httl, Nat.not_lt.2 hchunk, ?_, ?_, ?_⟩
    · simpa using hregion
    · rcases hfeature with h | h <;> simp [h]
    · intro hc
      rcases hmint with h | h
      · exact hc.1 h
      · rw [h] at hc
        nomatch hc.2
    · rcases hdvm with ⟨h, h'⟩ | h
      · simp [h, h']
      · simp [h]

end Almond.ServerConfig
