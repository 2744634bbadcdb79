import Almond.Lemmas.AuthAux
import Almond.Moderation
import Almond.Sample

/-! # What an authorization event permits -/

namespace Almond

open Auth Authorization Cashu FileStorage Handlers

/-! ## The clock -/

/-- An event that observes every rule but that of its creation time. -/
structure Observes (cfg : Config) (now expiration : Nat) (event : Event) : Prop where
  signed : cfg.libs.verifyEvent event = .ok ()
  expiration_eq : expirationOf event = some expiration
  unexpired : now < expiration
  lifetime : expiration - event.createdAt ≤ cfg.authMaxTtlSecs
  server : ServerRule cfg event

/-- The `server` tags of an event that observes their rule pass. -/
theorem validateServerTags_of_rule {cfg : Config} {event : Event} (h : ServerRule cfg event) :
    validateServerTags event cfg.publicUrl = .ok () := by
  by_cases hnil : tagsOf event "server" = []
  · simp only [validateServerTags, hnil, if_true]
    rfl
  · obtain ⟨hdomains, tag, htag, hcontent⟩ := h.2 hnil
    have hcheck : ∀ tags : List Tag, (∀ tag ∈ tags, ∃ domain, tag.content = some domain ∧ isLowercaseDomain domain = true) →
        checkServerTags tags = .ok () := by
      intro tags htags
      induction tags with
      | nil => rfl
      | cons tag tags ih =>
        obtain ⟨⟨domain, hcontent, hdomain⟩, htags⟩ := List.forall_mem_cons.1 htags
        simp only [checkServerTags, hcontent, hdomain, if_true]
        exact ih htags
    have hany : ((tagsOf event "server").any fun tag => tag.content = some (extractDomain cfg.publicUrl)) = true :=
      List.any_eq_true.2 ⟨tag, htag, decide_eq_true hcontent⟩
    simp only [validateServerTags, hnil, if_false, hcheck _ hdomains, hany, if_true]
    rfl

/-- An event that observes the other rules is accepted exactly when it is not from the future. -/
theorem verifyEventWithPolicy_iff {cfg : Config} {now expiration : Nat} {event : Event} (h : Observes cfg now expiration event) :
    (∃ e, verifyEventWithPolicy cfg now event = .ok e) ↔ event.createdAt ≤ now := by
  constructor
  · rintro ⟨e, he⟩
    exact (verifyEventWithPolicy_spec he).created
  · intro hcreated
    have hexp : ((firstTag event "expiration").bind Tag.content).bind parseU64 = some expiration := h.expiration_eq
    obtain ⟨tag, htag, hcontent⟩ := Option.bind_eq_some_iff.1 ((Option.bind_assoc ..).symm.trans hexp)
    have hverify : verifyEvent cfg.libs now event = .ok () := by
      simp only [verifyEvent, h.signed, Nat.not_lt.2 hcreated, if_false, htag, hcontent, Nat.not_le.2 h.unexpired]
      rfl
    have hrequired : (cfg.authRequireServerTag && !(event.tags.any fun t => t.kind = "server".toList)) = false := by
      rw [Bool.and_eq_false_iff, Bool.not_eq_false', List.any_eq_true]
      by_cases hreq : cfg.authRequireServerTag = true
      · obtain ⟨t, ht, hkind⟩ := h.server.1 hreq
        exact .inr ⟨t, ht, decide_eq_true hkind⟩
      · exact .inl (Bool.eq_false_iff.2 hreq)
    refine ⟨expiration, ?_⟩
    simp only [verifyEventWithPolicy, hverify, hexp, Nat.not_lt.2 h.lifetime, hrequired, validateServerTags_of_rule h.server]
    rfl

/-- The clock-skew policy: an event that observes the other rules is accepted up to the tolerated time, exactly when it is not from the
future, or too far from it. The time that a report may have at most is the tolerated one. -/
theorem clock_skew_iff (settings : Moderation.Settings) {cfg : Config} {now expiration : Nat} {event : Event}
    (h : Observes cfg now expiration event) :
    (((∃ e, verifyEventWithPolicy cfg now event = .ok e) ↔ event.createdAt ≤ now + settings.authClockSkewSecs) ↔
        event.createdAt ≤ now ∨ now + settings.authClockSkewSecs < event.createdAt) ∧
      ∀ createdAt ≤ u64Max, createdAt > saturatingAdd now settings.authClockSkewSecs ↔ now + settings.authClockSkewSecs < createdAt := by
  refine ⟨?_, fun createdAt hmax => ?_⟩
  · rw [verifyEventWithPolicy_iff h]
    omega
  · unfold saturatingAdd
    omega

namespace Sample

/-- Settings that tolerate a skew of half a minute. -/
def tolerant : Moderation.Settings where
  featureListEnabled := false
  featureReportEnabled := .public
  reportAction := .quarantine
  authClockSkewSecs := 30
  publicKeyFromHex _ := some []
  parseReport _ := .ok event
  recordBody _ := []
  infoEnabled := true

/-- The authorization of an upload observes the rules, also before it was created. -/
theorem observes_event {now : Nat} (h : now < 1700003600) : Observes config now 1700003600 event where
  signed := rfl
  expiration_eq := by decide
  unexpired := h
  lifetime := by decide
  server := ⟨nofun, fun hne => absurd (by decide) hne⟩

end Sample

open Sample in
/-- An event of the present second. -/
theorem clock_skew_iff_present :
    ((∃ e, verifyEventWithPolicy config 1700000000 event = .ok e) ↔ event.createdAt ≤ 1700000000 + tolerant.authClockSkewSecs) ↔
      event.createdAt ≤ 1700000000 ∨ 1700000000 + tolerant.authClockSkewSecs < event.createdAt :=
  (clock_skew_iff tolerant (observes_event (by decide))).1

open Sample in
/-- An event that is one second ahead of the clock is refused. -/
theorem clock_skew_false : ∃ now expiration, Observes config now expiration event ∧
    ¬ ((∃ e, verifyEventWithPolicy config now event = .ok e) ↔ event.createdAt ≤ now + tolerant.authClockSkewSecs) := by
  have hobserves : Observes config 1699999999 1700003600 event := observes_event (by decide)
  refine ⟨1699999999, 1700003600, hobserves, fun hiff => ?_⟩
  exact absurd ((verifyEventWithPolicy_iff hobserves).1 (hiff.2 (by decide))) (by decide)

/-! ## The hash of a mirror -/

/-- The hash that a mirror request is for. -/
def mirrorHash (event : Event) : AppResult Str := do
  validateTTag event "upload"
  let some expectedSha256 := extractSha256FromEvent event
    | throw (.unauthorized "No valid SHA-256 hash found in auth event")
  return expectedSha256

/-- The fetched bytes must have the hash that the request is for. -/
def ensureMirrorHashMatches (expectedSha256 calculatedSha256 : Str) : AppResult Unit :=
  if calculatedSha256 ≠ expectedSha256 then
    .error (.conflict s!"SHA256 hash mismatch: expected {text expectedSha256}, got {text calculatedSha256}")
  else .ok ()

/-- What a mirror does for a hash. -/
def mirrorExpected (cfg : Config) (headers : Headers) (body : Body) (expectedSha256 : Str) : AsyncResult Response := do
  let expiration ← extractExpiration headers
  let bytes ← collectBody maxMirrorJsonBytes body []
  let field ← ofResult ((cfg.libs.parseUrlField bytes).mapError fun e => .badRequest s!"JSON error: {e}")
  let some url := field
    | throw (.badRequest "Missing 'url' field in request body")
  let response ← ExceptT.mk (request (.fetchFromUrl url))
  ofResult (checkSizeLimit response.contentLength (Upload.upstreamFetchLimit cfg))
  ensureTempDir cfg
  let extension := Http.getExtensionFromMime cfg.libs response.contentType
  let temp ← request (.reserveTemp cfg.storage.temp "mirror".toList extension)
  let bodySize ← withTemp temp (receiveMirror cfg headers response expectedSha256 temp)
  let stored ← Upload.finalizeUpload cfg temp expectedSha256 bodySize extension (some response.contentType) expiration
  return storedResponse expectedSha256 stored

/-- A mirror finds out its hash and goes on with it. -/
theorem mirrorBlob_eq (cfg : Config) (headers : Headers) (body : Body) : mirrorBlob cfg headers body = (do
    let authorized ← authorize cfg headers .mirror
    let expectedSha256 ← ofResult (mirrorHash authorized.event)
    mirrorExpected cfg headers body expectedSha256) := by
  unfold mirrorBlob
  congr 1
  funext authorized
  unfold mirrorHash
  cases validateTTag authorized.event "upload" with
  | error e => rfl
  | ok u => cases extractSha256FromEvent authorized.event <;> rfl

/-- A mirror compares the hash of what it fetched. -/
theorem receiveMirror_eq (cfg : Config) (headers : Headers) (response : Fetched) (expectedSha256 : Str) (temp : Path) :
    receiveMirror cfg headers response expectedSha256 temp = (do
      let (calculatedSha256, bodySize) ← streamResponseToTempFile cfg.libs response temp (Upload.upstreamFetchLimit cfg)
      ofResult (ensureMirrorHashMatches expectedSha256 calculatedSha256)
      ensureNotQuarantined cfg.storage expectedSha256
      charge cfg headers .mirror bodySize
      return bodySize) := by
  unfold receiveMirror
  congr 1
  funext ⟨calculatedSha256, bodySize⟩
  simp only [ensureMirrorHashMatches]
  split <;> rfl

/-- The check of the hash of a mirror, from its authorization to the bytes it fetched. -/
def mirrorHashCheck (event : Event) (calculatedSha256 : Str) : AppResult Unit := do
  let expectedSha256 ← mirrorHash event
  ensureMirrorHashMatches expectedSha256 calculatedSha256

/-- Whether a text looks like a hash. -/
def looksLikeHash (content : Str) : Bool :=
  byteLen content = 64 && content.all isHexDigit

/-- What the `x` tags of an event say. -/
def xContents (event : Event) : List Str :=
  (tagsOf event "x").filterMap Tag.content

section

variable {event : Event} {h : Str}

/-- The first `t` tag names an upload. -/
def ForUpload (event : Event) : Prop :=
  (firstTag event "t").bind Tag.content = some "upload".toList

/-- The check of the verb. -/
theorem validateTTag_upload : validateTTag event "upload" = .ok () ↔ ForUpload event := by
  unfold validateTTag ForUpload
  split
  · rename_i ht
    exact ⟨fun _ => ht, fun _ => rfl⟩
  · rename_i ht
    exact ⟨nofun, fun hu => absurd hu ht⟩

/-- A mirror takes what its first `x` tag with a hash names. -/
theorem mirrorHashCheck_iff : mirrorHashCheck event h = .ok () ↔ ForUpload event ∧ (xContents event).find? looksLikeHash = some h := by
  have hextract : extractSha256FromEvent event = (xContents event).find? looksLikeHash := rfl
  rw [← validateTTag_upload, ← hextract]
  unfold mirrorHashCheck mirrorHash
  cases validateTTag event "upload" with
  | error e => exact ⟨nofun, fun hok => nomatch hok.1⟩
  | ok u =>
    cases extractSha256FromEvent event with
    | none => exact ⟨nofun, fun hok => nomatch hok.2⟩
    | some expected =>
      have hcheck : ensureMirrorHashMatches expected h = .ok () ↔ expected = h := by
        unfold ensureMirrorHashMatches
        split
        · rename_i hne
          exact ⟨nofun, fun heq => absurd heq.symm hne⟩
        · rename_i heq
          exact ⟨fun _ => (of_not_not heq).symm, fun _ => rfl⟩
      exact hcheck.trans ⟨fun heq => ⟨rfl, congrArg some heq⟩, fun hok => Option.some.inj hok.2⟩

/-- An upload takes what any of its `x` tags names. -/
theorem validateUploadAuth_iff : validateUploadAuth event h = .ok () ↔ ForUpload event ∧ h ∈ xContents event := by
  constructor
  · intro hok
    obtain ⟨hupload, tag, htag, hcontent⟩ := validateHashAuth_spec hok
    exact ⟨hupload, List.mem_filterMap.2 ⟨tag, htag, hcontent⟩⟩
  · rintro ⟨hupload, hmem⟩
    obtain ⟨tag, htag, hcontent⟩ := List.mem_filterMap.1 hmem
    have hany : ((tagsOf event "x").any fun tag => tag.content = some h) = true := List.any_eq_true.2 ⟨tag, htag, decide_eq_true hcontent⟩
    simp only [validateUploadAuth, validateHashAuth, validateTTag_upload.2 hupload, List.ne_nil_of_mem htag, if_false, hany, if_true]
    rfl

end

/-- A mirror and an upload accept the same hash exactly when the event is for no upload, or no tag names the hash, or no tag before the
first one that names it has something else that looks like a hash. -/
theorem mirror_hash_iff (libs : Libs) (hlibs : ∀ bytes, looksLikeHash (libs.sha256Hex bytes) = true) (event : Event) (bytes : Bytes) :
    (mirrorHashCheck event (libs.sha256Hex bytes) = .ok () ↔ validateUploadAuth event (libs.sha256Hex bytes) = .ok ()) ↔
      ¬ ForUpload event ∨ libs.sha256Hex bytes ∉ xContents event ∨
        ∀ content ∈ (xContents event).takeWhile (· ≠ libs.sha256Hex bytes), looksLikeHash content = false := by
  have hhash := hlibs bytes
  generalize libs.sha256Hex bytes = h at hhash
  rw [mirrorHashCheck_iff, validateUploadAuth_iff]
  have hfind : (xContents event).find? looksLikeHash = some h ↔
      h ∈ xContents event ∧ ∀ content ∈ (xContents event).takeWhile (· ≠ h), looksLikeHash content = false := by
    induction xContents event with
    | nil => simp
    | cons x xs ih =>
      by_cases hx : x = h
      · subst hx
        simp [hhash]
      · cases hlooks : looksLikeHash x with
        | true => simp [hlooks, hx]
        | false => simp [hlooks, hx, ih, Ne.symm hx]
  rw [hfind]
  tauto

namespace Sample

/-- The digests of no bytes and of the byte 1. -/
def digest (bytes : Bytes) : Str :=
  if bytes = [] then "e3b0c44298fc1c149afbf4c8996fb92427ae41e4649b934ca495991b7852b855".toList
  else if bytes = [1] then "4bf5122f344554c53bde2ebb8cd2b7e3d1600ad631c385a5d7cce23c7785459a".toList
  else List.replicate 64 '0'

/-- A library whose hashes look like hashes. -/
def hashLibs : Libs :=
  { libs with sha256Hex := digest }

/-- They do. -/
theorem looksLikeHash_hashLibs (bytes : Bytes) : looksLikeHash (hashLibs.sha256Hex bytes) = true := by
  simp only [hashLibs, digest]
  split
  · decide
  · split <;> decide

/-- An authorization for the hashes of some bytes. -/
def permits (contents : List Bytes) : Event :=
  { event with
    tags := ⟨"t".toList, some "upload".toList⟩ :: contents.map fun bytes => ⟨"x".toList, some (hashLibs.sha256Hex bytes)⟩ }

end Sample

open Sample in
/-- An event with one hash. -/
theorem mirror_hash_iff_single :
    (mirrorHashCheck (permits [[1]]) (hashLibs.sha256Hex [1]) = .ok () ↔
      validateUploadAuth (permits [[1]]) (hashLibs.sha256Hex [1]) = .ok ()) ↔
      ¬ ForUpload (permits [[1]]) ∨ hashLibs.sha256Hex [1] ∉ xContents (permits [[1]]) ∨
        ∀ content ∈ (xContents (permits [[1]])).takeWhile (· ≠ hashLibs.sha256Hex [1]), looksLikeHash content = false :=
  mirror_hash_iff hashLibs looksLikeHash_hashLibs (permits [[1]]) [1]

open Sample in
/-- The second of two hashes can be uploaded, but not mirrored. -/
theorem mirror_hash_false : ¬ ∀ (event : Event) (bytes : Bytes),
    mirrorHashCheck event (hashLibs.sha256Hex bytes) = .ok () ↔ validateUploadAuth event (hashLibs.sha256Hex bytes) = .ok () := by
  intro h
  have hupload : validateUploadAuth (permits [[], [1]]) (hashLibs.sha256Hex [1]) = .ok () := validateUploadAuth_iff.2 ⟨rfl, by decide⟩
  exact absurd (mirrorHashCheck_iff.1 ((h _ _).2 hupload)).2 (by decide)

end Almond
