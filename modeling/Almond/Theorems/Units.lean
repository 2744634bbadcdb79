import Almond.LegacyNames
import Almond.Lemmas.RangesAux
import Almond.Lemmas.ServerConfigAux

/-! # Durations and sizes

A text is parsed exactly when it stands for a number that is a `u64`, and a deprecated variable of digits is parsed to its number of units
under its new name. -/

namespace Almond.ServerConfig

open Trimming

/-! ## The units -/

/-- The units of time have names. -/
theorem named_durationUnits : Named durationUnits where
  name := by simp [durationUnits]
  factor := by simp [durationUnits]
  unique := by simp [durationUnits]

/-- The units of size have names. -/
theorem named_sizeUnits : Named sizeUnits where
  name := by simp [sizeUnits]
  factor := by simp [sizeUnits]
  unique := by simp [sizeUnits]

/-- A character that is not in upper case is its own lower case. -/
theorem toLower_of_not_isUpper {c : Char} (h : ¬ c.isUpper = true) : c.toLower = c := by
  rw [isUpper_iff] at h
  rw [← Char.toNat_inj, toNat_toLower, if_neg h]

/-- A letter in upper case is not trimmed. -/
theorem not_isWhitespace_of_isUpper {c : Char} (h : c.isUpper = true) : isWhitespace c = false := by
  rw [isUpper_iff] at h
  rw [Bool.eq_false_iff, ne_eq, isWhitespace]
  simp only [Bool.or_eq_true, Bool.and_eq_true, decide_eq_true_eq]
  omega

/-- A digit is in no case. -/
theorem not_isUpper_of_isDigit {c : Char} (h : c.isDigit = true) : ¬ c.isUpper = true := by
  have hrange : 48 ≤ c.toNat ∧ c.toNat ≤ 57 := Char.isDigit_iff_toNat.1 h
  rw [isUpper_iff]
  omega

/-- The units of time are in lower case. -/
theorem durationUnits_lower : ∀ u ∈ durationUnits, ∀ c ∈ u.1, ¬ c.isUpper = true := by
  simp [durationUnits]

/-- What is not in upper case is written as it is in lower case. -/
theorem map_toLower_of_not_isUpper {s : Str} (h : ∀ c ∈ s, ¬ c.isUpper = true) : s.map Char.toLower = s :=
  (List.map_congr_left fun c hc => toLower_of_not_isUpper (h c hc)).trans (List.map_id' s)

/-- A duration is parsed exactly when it stands for a number, with its unit in lower case. -/
theorem parseDuration_ok_iff {s : Str} {n : Nat} : parseDuration s = .ok n ↔ Stands durationUnits Eq s n := by
  obtain ⟨w, w', hw, hw', hs⟩ := padded_trimBy isWhitespace s
  constructor
  · intro hok
    unfold parseDuration at hok
    split at hok
    · cases hok
    · rename_i hupper
      have hlower : ∀ c ∈ trim s, ¬ c.isUpper = true := by
        intro c hc hc'
        have hmem : c ∈ s := by
          rw [hs]
          exact List.mem_append_left _ (List.mem_append_right _ hc)
        exact hupper (List.any_eq_true.2 ⟨c, hmem, hc'⟩)
      cases (parseWithUnit_ok_iff named_durationUnits).1 hok with
      | zero hzero => exact .zero hzero
      | unit digits written unit factor htrim hne hdigits hmem hsame hlt =>
        simp only [eqIgnoreAsciiCase, decide_eq_true_eq] at hsame
        have hwritten : ∀ c ∈ written, ¬ c.isUpper = true := fun c hc => hlower c (by simp [htrim, hc])
        rw [map_toLower_of_not_isUpper (durationUnits_lower _ hmem), map_toLower_of_not_isUpper hwritten] at hsame
        exact .unit digits written unit factor htrim hne hdigits hmem hsame hlt
  · intro hstands
    have hupper : ¬ s.any Char.isUpper = true := by
      intro hany
      obtain ⟨c, hc, hcupper⟩ := List.any_eq_true.1 hany
      have hmem : c ∈ trim s := mem_trimBy (not_isWhitespace_of_isUpper hcupper) hc
      cases hstands with
      | zero hzero =>
        rw [hzero] at hmem
        obtain rfl := List.mem_singleton.1 hmem
        cases hcupper
      | unit digits written unit factor htrim _ hdigits hunit hsame _ =>
        subst hsame
        rw [htrim] at hmem
        rcases List.mem_append.1 hmem with hmem | hmem
        · exact not_isUpper_of_isDigit (hdigits c hmem) hcupper
        · exact durationUnits_lower _ hunit c hmem hcupper
    rw [parseDuration, if_neg hupper, parseWithUnit_ok_iff named_durationUnits]
    cases hstands with
    | zero hzero => exact .zero hzero
    | unit digits written unit factor htrim hne hdigits hmem hsame hlt =>
      exact .unit digits written unit factor htrim hne hdigits hmem (by simp [eqIgnoreAsciiCase, hsame]) hlt

/-- A size is parsed exactly when it stands for a number, with its unit in any case. -/
theorem parseSize_ok_iff {s : Str} {n : Nat} :
    parseSize s = .ok n ↔ Stands sizeUnits (fun unit written => eqIgnoreAsciiCase unit written = true) s n :=
  parseWithUnit_ok_iff named_sizeUnits

/-! ## Deprecated variables -/

/-- The parser of the settings with a unit, by the unit that is appended to their deprecated variables. -/
def unitParser (u : String) : Str → Except Str Nat :=
  if u = "MiB" then parseSize else parseDuration

/-- The settings that deprecated variables with a unit set. -/
def unitSettings {κ : Type} (cfg : Config κ) : List (String × Nat) :=
  [("ALMOND_STORAGE_MAX_SIZE", cfg.storageMaxSize),
    ("ALMOND_STORAGE_MIN_FREE", cfg.storageMinFree),
    ("ALMOND_BLOB_MAX_SIZE", cfg.blobMaxSize),
    ("ALMOND_CLEANUP_INTERVAL", cfg.cleanupInterval),
    ("ALMOND_UPLOAD_MAX_AGE", cfg.uploadMaxAge),
    ("ALMOND_UPSTREAM_CACHE_TTL", cfg.upstreamCacheTtl),
    ("ALMOND_AUTH_MAX_TTL", cfg.authMaxTtl),
    ("ALMOND_AUTH_CLOCK_SKEW", cfg.authClockSkew),
    ("ALMOND_CHUNK_MAX_SIZE", cfg.chunkMaxSize),
    ("ALMOND_CHUNK_SESSION_TIMEOUT", cfg.chunkSessionTimeout),
    ("ALMOND_UPSTREAM_MAX_DOWNLOAD_SIZE", cfg.upstreamMaxDownloadSize),
    ("ALMOND_SERVE_FILES_REFRESH_INTERVAL", cfg.serveFilesRefreshInterval),
    ("ALMOND_SERVER_LIST_CACHE_TTL", cfg.serverListCacheTtl),
    ("ALMOND_DVM_REFRESH_INTERVAL", cfg.dvmRefreshInterval)]

/-- A deprecated variable with a unit that is not blank is translated, unless its new name is set. -/
theorem mem_translateLegacy {get : String → Option Str} {old new u : String} {digits : Str} (h : (old, new, Legacy.unit u) ∈ legacy)
    (hvalue : (get old).map trim = some digits) (hne : digits ≠ []) (hnew : nonBlank get (envPrefix ++ new) = none) :
    (envPrefix ++ new, digits ++ u.toList) ∈ (translateLegacy get).1 := by
  obtain ⟨value, hget, rfl⟩ := Option.map_eq_some_iff.1 hvalue
  have hfound : (⟨old, envPrefix ++ new, trim value ++ u.toList⟩ : Found) ∈ foundNames get := by
    refine List.mem_filterMap.2 ⟨_, h, ?_⟩
    simp [nonBlank, hget, hne, Legacy.translate]
  refine List.mem_filterMap.2 ⟨_, List.mem_map.2 ⟨_, List.mem_append_left _ hfound, rfl⟩, ?_⟩
  simp [translateFound, hnew, hne]

/-- A setting whose variable is set. -/
theorem one_of_set {α : Type} {parse : Str → Except Str α} {env : Env} {name default : String} (h : env name ≠ []) :
    one parse env name default = parse (env name) := by
  rw [one, if_neg h]

/-- The settings of the deprecated variables with a unit are parsed by its parser. -/
theorem parsed_unit {κ : Type} {fromBech32 : Str → Except Str κ} {env : Env} {cfg : Config κ} {old new u : String}
    (h : (old, new, Legacy.unit u) ∈ legacy) (hset : env (envPrefix ++ new) ≠ []) (hparsed : parseArgs fromBech32 env = .ok cfg) :
    ∃ n, unitParser u (env (envPrefix ++ new)) = .ok n ∧ (envPrefix ++ new, n) ∈ unitSettings cfg := by
  have hparsed := parseArgs_eq_ok_iff.1 hparsed
  have hsize : ∀ {name default : String} {n : Nat}, one parseSize env name default = .ok n → (name, n) ∈ unitSettings cfg →
      env name ≠ [] → ∃ n, unitParser "MiB" (env name) = .ok n ∧ (name, n) ∈ unitSettings cfg := by
    intro name default n hone hmem hset
    rw [one_of_set hset] at hone
    exact ⟨n, hone, hmem⟩
  have hduration : ∀ {name default u : String} {n : Nat}, u ≠ "MiB" → one parseDuration env name default = .ok n →
      (name, n) ∈ unitSettings cfg → env name ≠ [] → ∃ n, unitParser u (env name) = .ok n ∧ (name, n) ∈ unitSettings cfg := by
    intro name default u n hu hone hmem hset
    rw [one_of_set hset] at hone
    exact ⟨n, by rw [unitParser, if_neg hu, hone], hmem⟩
  simp only [legacy, List.mem_cons, Prod.mk.injEq, reduceCtorEq, and_false, false_or, or_false, Legacy.unit.injEq, List.not_mem_nil] at h
  rcases h with ⟨-, rfl, rfl⟩ | ⟨-, rfl, rfl⟩ | ⟨-, rfl, rfl⟩ | ⟨-, rfl, rfl⟩ | ⟨-, rfl, rfl⟩ | ⟨-, rfl, rfl⟩ | ⟨-, rfl, rfl⟩ |
    ⟨-, rfl, rfl⟩ | ⟨-, rfl, rfl⟩ | ⟨-, rfl, rfl⟩ | ⟨-, rfl, rfl⟩ | ⟨-, rfl, rfl⟩ | ⟨-, rfl, rfl⟩ | ⟨-, rfl, rfl⟩
  all_goals simp only [envPrefix, String.reduceAppend] at hset ⊢
  · exact hsize hparsed.storageMaxSize (by simp [unitSettings]) hset
  · exact hsize hparsed.storageMinFree (by simp [unitSettings]) hset
  · exact hsize hparsed.blobMaxSize (by simp [unitSettings]) hset
  · exact hduration (by decide) hparsed.cleanupInterval (by simp [unitSettings]) hset
  · exact hduration (by decide) hparsed.uploadMaxAge (by simp [unitSettings]) hset
  · exact hduration (by decide) hparsed.upstreamCacheTtl (by simp [unitSettings]) hset
  · exact hduration (by decide) hparsed.authMaxTtl (by simp [unitSettings]) hset
  · exact hduration (by decide) hparsed.authClockSkew (by simp [unitSettings]) hset
  · exact hsize hparsed.chunkMaxSize (by simp [unitSettings]) hset
  · exact hduration (by decide) hparsed.chunkSessionTimeout (by simp [unitSettings]) hset
  · exact hsize hparsed.upstreamMaxDownloadSize (by simp [unitSettings]) hset
  · exact hduration (by decide) hparsed.serveFilesRefreshInterval (by simp [unitSettings]) hset
  · exact hduration (by decide) hparsed.serverListCacheTtl (by simp [unitSettings]) hset
  · exact hduration (by decide) hparsed.dvmRefreshInterval (by simp [unitSettings]) hset

/-- The units that are appended to deprecated variables, with their factors. -/
def legacyUnits : List (String × Nat) :=
  [("MiB", 2 ^ 20), ("s", 1), ("m", 60), ("h", 3600), ("d", 86400)]

/-- No other units are appended. -/
theorem legacy_unit {old new u : String} (h : (old, new, Legacy.unit u) ∈ legacy) : u ∈ legacyUnits.map Prod.fst := by
  simp only [legacy, List.mem_cons, Prod.mk.injEq, reduceCtorEq, and_false, false_or, or_false, Legacy.unit.injEq, List.not_mem_nil] at h
  simp only [legacyUnits, List.map_cons, List.map_nil, List.mem_cons, List.not_mem_nil, or_false]
  tauto

/-- The text that the parser of a unit expects. -/
def unitSample (u : String) : String :=
  if u = "MiB" then "100MiB" else "30s"

/-- Digits with the unit that is appended to a deprecated variable are parsed exactly when the product is a `u64`. -/
theorem unitParser_eq {u : String} {factor : Nat} (h : (u, factor) ∈ legacyUnits) {digits : Str} (hne : digits ≠ [])
    (hdigits : ∀ c ∈ digits, c.isDigit = true) : unitParser u (digits ++ u.toList) =
      if u64Max < digitsValue digits then .error ("expected <number><unit>, e.g. ".toList ++ (unitSample u).toList)
      else if digitsValue digits * factor ≤ u64Max then .ok (digitsValue digits * factor) else .error "value too large".toList := by
  have hunit : ∀ v ∈ legacyUnits, ∀ c ∈ v.1.toList, isWhitespace c = false := by simp [legacyUnits, isWhitespace]
  have htrim : trim (digits ++ u.toList) = digits ++ u.toList :=
    trimBy_of_forall fun c hc => (List.mem_append.1 hc).elim (fun hc => Http.not_isWhitespace_of_isDigit (hdigits c hc)) (hunit _ h c)
  have hsame : eqIgnoreAsciiCase u.toList u.toList = true := decide_eq_true rfl
  by_cases hu : u = "MiB"
  · subst hu
    have hmem : ("MiB".toList, factor) ∈ sizeUnits := by
      simp only [legacyUnits, List.mem_cons, Prod.mk.injEq, List.not_mem_nil, or_false] at h
      simp at h
      simp [sizeUnits, h]
    exact parseWithUnit_unit named_sizeUnits htrim hne hdigits hmem hsame
  · have hmem : (u.toList, factor) ∈ durationUnits := by
      simp only [legacyUnits, List.mem_cons, Prod.mk.injEq, hu, false_and, false_or, List.not_mem_nil, or_false] at h
      rcases h with ⟨rfl, rfl⟩ | ⟨rfl, rfl⟩ | ⟨rfl, rfl⟩ | ⟨rfl, rfl⟩ <;> simp [durationUnits]
    have hupper : ¬ (digits ++ u.toList).any Char.isUpper = true := by
      intro hany
      obtain ⟨c, hc, hcupper⟩ := List.any_eq_true.1 hany
      rcases List.mem_append.1 hc with hc | hc
      · exact not_isUpper_of_isDigit (hdigits c hc) hcupper
      · exact durationUnits_lower _ hmem c hc hcupper
    rw [unitParser, if_neg hu, unitSample, if_neg hu, parseDuration, if_neg hupper]
    exact parseWithUnit_unit named_durationUnits htrim hne hdigits hmem hsame

/-- Such a number is rejected as soon as the product is no `u64`: for the product, or for the digits. -/
theorem unitParser_exact {u : String} {factor : Nat} (h : (u, factor) ∈ legacyUnits) {digits : Str} (hne : digits ≠ [])
    (hdigits : ∀ c ∈ digits, c.isDigit = true) : unitParser u (digits ++ u.toList) =
      if digitsValue digits * factor < 2 ^ 64 then .ok (digitsValue digits * factor)
      else .error (if digitsValue digits < 2 ^ 64 then "value too large".toList
        else "expected <number><unit>, e.g. ".toList ++ (unitSample u).toList) := by
  have hfactor : ∀ v ∈ legacyUnits, 0 < v.2 := by decide
  have hle : digitsValue digits ≤ digitsValue digits * factor := Nat.le_mul_of_pos_right _ (hfactor _ h)
  have hmax : u64Max + 1 = 2 ^ 64 := by decide
  rw [unitParser_eq h hne hdigits]
  by_cases hproduct : digitsValue digits * factor < 2 ^ 64
  · rw [if_pos hproduct, if_neg (by omega), if_pos (by omega)]
  · rw [if_neg hproduct]
    by_cases hvalue : digitsValue digits < 2 ^ 64
    · rw [if_pos hvalue, if_neg (by omega), if_neg (by omega)]
    · rw [if_neg hvalue, if_pos (by omega)]

/-- Durations and sizes are parsed exactly when they stand for a number, and to this number. A deprecated variable of digits is translated
to the digits with its unit, which the parser of its new name takes for the product if that is a `u64`, and rejects otherwise. -/
theorem units_exact {κ : Type} (fromBech32 : Str → Except Str κ) :
    (∀ s n, parseDuration s = .ok n ↔ Stands durationUnits Eq s n) ∧
    (∀ s n, parseSize s = .ok n ↔ Stands sizeUnits (fun unit written => eqIgnoreAsciiCase unit written = true) s n) ∧
    ∀ old new u digits, (old, new, Legacy.unit u) ∈ legacy → digits ≠ [] → (∀ c ∈ digits, c.isDigit = true) →
      (∀ get, (get old).map trim = some digits → nonBlank get (envPrefix ++ new) = none →
        (envPrefix ++ new, digits ++ u.toList) ∈ (translateLegacy get).1) ∧
      ∃ factor, (u, factor) ∈ legacyUnits ∧
        (unitParser u (digits ++ u.toList) =
          if digitsValue digits * factor < 2 ^ 64 then .ok (digitsValue digits * factor)
          else .error (if digitsValue digits < 2 ^ 64 then "value too large".toList
            else "expected <number><unit>, e.g. ".toList ++ (unitSample u).toList)) ∧
        ∀ env cfg, env (envPrefix ++ new) = digits ++ u.toList → parseArgs fromBech32 env = .ok cfg →
          digitsValue digits * factor < 2 ^ 64 ∧ (envPrefix ++ new, digitsValue digits * factor) ∈ unitSettings cfg := by
  refine ⟨fun s n => parseDuration_ok_iff, fun s n => parseSize_ok_iff, ?_⟩
  intro old new u digits hmem hne hdigits
  refine ⟨fun get hvalue hnew => mem_translateLegacy hmem hvalue hne hnew, ?_⟩
  obtain ⟨⟨v, factor⟩, hunit, heq⟩ := List.mem_map.1 (legacy_unit hmem)
  obtain rfl : v = u := heq
  have hparser := unitParser_exact hunit hne hdigits
  refine ⟨factor, hunit, hparser, ?_⟩
  intro env cfg henv hparsed
  obtain ⟨n, hn, hsetting⟩ := parsed_unit hmem (by rw [henv]; simp [hne]) hparsed
  rw [henv, hparser] at hn
  split at hn
  · rename_i hlt
    cases hn
    exact ⟨hlt, hsetting⟩
  · nomatch hn

end Almond.ServerConfig
