import Almond.Lemmas.PreflightAux
import Almond.Sample

/-! # The preflight of an upload and the upload -/

namespace Almond

open Conc FileStorage Handlers

/-- What a preflight is answered with when it has the server to itself, and the clock and the outside stand still. -/
def preflight (cfg : Config) (t : Tid) (env : Env) (headers : Headers) (s : AppState) : AppResult Response :=
  ((headUpload cfg headers).run.alone (exec cfg t) (fun _ => env) 0 s).1

/-- What an upload is answered with when it has the server to itself, and the clock and the outside stand still. -/
def uploading (cfg : Config) (t : Tid) (env : Env) (headers : Headers) (body : Body) (s : AppState) : AppResult Response :=
  ((uploadFile cfg headers body).run.alone (exec cfg t) (fun _ => env) 0 s).1

/-- A preflight and an upload of one blob by one client: both name its hash, its size and the same event, and the body has them. -/
structure SameUpload (cfg : Config) (pre headers : Headers) (frames : List Bytes) (sha256 : Str) : Prop where
  event : Http.str pre "authorization" = Http.str headers "authorization"
  preHash : Http.str pre "x-sha-256" = some sha256
  preType : ∃ mime, Http.str pre "x-content-type" = some mime ∧ trim mime ≠ []
  preSize : ∃ value, Http.str pre "x-content-length" = some value ∧ parseU64 value = some frames.flatten.length
  hash : Http.str headers "x-sha-256" = some sha256
  size : ∃ value, Http.str headers "content-length" = some value ∧ parseU64 value = some frames.flatten.length
  body : cfg.libs.sha256Hex frames.flatten = sha256

/-- Of the headers, only the event matters to the admission. -/
theorem admitted_congr {cfg : Config} {s : AppState} {env : Env} {pre headers : Headers} {sha256 : Str} {size : Nat}
    (h : Http.str pre "authorization" = Http.str headers "authorization") :
    Admitted cfg s env pre sha256 size ↔ Admitted cfg s env headers sha256 size := by
  have hpermitted : ∀ event, Authorization.Permitted cfg s env.announced pre .upload event ↔
      Authorization.Permitted cfg s env.announced headers .upload event := fun event =>
    ⟨fun hp => ⟨h ▸ hp.presented, hp.policy, hp.kind, hp.caller⟩, fun hp => ⟨h.symm ▸ hp.presented, hp.policy, hp.kind, hp.caller⟩⟩
  constructor
  · rintro ⟨hv, ⟨event, hp, hauth⟩, hroom⟩
    exact ⟨hv, ⟨event, (hpermitted event).1 hp, hauth⟩, hroom⟩
  · rintro ⟨hv, ⟨event, hp, hauth⟩, hroom⟩
    exact ⟨hv, ⟨event, (hpermitted event).2 hp, hauth⟩, hroom⟩

/-- On a healthy machine, a preflight is answered with 200 exactly when the upload would be accepted, if and only if an upload that is
admitted can also be stored. -/
theorem preflight_agrees {cfg : Config} {root : Path} (hlayout : cfg.storage = .new root) (hfree : cfg.featurePaidUpload = false)
    {env : Env} (henv : Healthy env) {pre headers : Headers} {frames : List Bytes} {sha256 : Str}
    (hsame : SameUpload cfg pre headers frames sha256) (t t' : Tid) (s : AppState) :
    ((∃ r, preflight cfg t env pre s = .ok r ∧ r.status = 200) ↔ ∃ r, uploading cfg t' env headers (frames.map .ok) s = .ok r) ↔
      (Admitted cfg s env headers sha256 frames.flatten.length → Storable cfg s headers sha256) := by
  obtain ⟨mime, hmime, hnonempty⟩ := hsame.preType
  obtain ⟨value, hvalue, hsize⟩ := hsame.preSize
  obtain ⟨value', hvalue', hsize'⟩ := hsame.size
  have hhead := headUpload_decides (t := t) (s := s) henv hfree hsame.preHash hmime hnonempty hvalue hsize
  have hput := uploadFile_decides (t := t') (s := s) henv hlayout hfree hsame.hash hvalue' hsize' hsame.body
  have hanswered : (∃ r, preflight cfg t env pre s = .ok r ∧ r.status = 200) ↔ Admitted cfg s env headers sha256 frames.flatten.length := by
    rw [← admitted_congr hsame.event, ← hhead.alone_ok_iff (fun _ => rfl) 0]
    refine ⟨fun ⟨r, hr, _⟩ => ⟨r, hr⟩, fun ⟨r, hr⟩ => ⟨r, hr, ?_⟩⟩
    have hx := hhead.alone (fun n => (rfl : (fun _ => env) n = env)) 0
    rw [hr] at hx
    exact hx.2
  rw [hanswered, uploading, hput.alone_ok_iff (fun _ => rfl) 0]
  exact ⟨fun hiff hadmitted => (hiff.1 hadmitted).2, fun himp => ⟨fun hadmitted => ⟨hadmitted, himp hadmitted⟩, And.left⟩⟩

namespace Sample

/-- A preflight of the hash. -/
def preflightHeaders : Headers :=
  [("authorization".toList, "Nostr e30=".toList), ("x-sha-256".toList, hash), ("x-content-type".toList, "image/png".toList),
    ("x-content-length".toList, "3".toList)]

/-- An upload of the hash. -/
def uploadHeaders : Headers :=
  [("authorization".toList, "Nostr e30=".toList), ("x-sha-256".toList, hash), ("content-type".toList, "image/png".toList),
    ("content-length".toList, "3".toList)]

/-- The requests are about one blob. -/
theorem sameUpload : SameUpload config preflightHeaders uploadHeaders [[1, 2, 3]] hash where
  event := rfl
  preHash := by decide
  preType := ⟨"image/png".toList, by decide, by decide⟩
  preSize := ⟨"3".toList, by decide, by decide⟩
  hash := by decide
  size := ⟨"3".toList, by decide, by decide⟩
  body := rfl

/-- A server whose quarantine holds the hash. -/
def quarantining : AppState :=
  { started with disk := { disk with names := AList.insert (config.storage.quarantine ++ [hash]) 0 ∅, nextIno := 1 } }

end Sample

open Sample in
/-- An empty server agrees with itself. -/
theorem preflight_agrees_empty :
    (∃ r, preflight config 0 calm preflightHeaders started = .ok r ∧ r.status = 200) ∧
      ∃ r, uploading config 0 calm uploadHeaders [.ok [1, 2, 3]] started = .ok r := by
  have hhead : (preflight config 0 calm preflightHeaders started).toOption.any (·.status = 200) = true := by decide
  have hanswered : ∃ r, preflight config 0 calm preflightHeaders started = .ok r ∧ r.status = 200 := by
    cases hx : preflight config 0 calm preflightHeaders started with
    | error error =>
      rw [hx] at hhead
      nomatch hhead
    | ok r =>
      rw [hx] at hhead
      exact ⟨r, rfl, of_decide_eq_true hhead⟩
  have hstorable : Storable config started uploadHeaders hash := by
    refine ⟨⟨by decide, by decide⟩, ⟨.inr (by decide), ?_⟩, none, config.storage.uploads ++ ["a".toList, "a".toList, hash], by decide, by decide, ?_,
      .inr ?_⟩
    · rintro ⟨_, name, hname, _⟩
      have hempty : started.disk.children config.storage.quarantine = [] := by decide
      rw [hempty] at hname
      nomatch hname
    · rfl
    · rfl
  exact ⟨hanswered, ((preflight_agrees (rfl : config.storage = .new ["srv".toList]) rfl ⟨rfl, rfl⟩ sameUpload 0 0 started).2 fun _ => hstorable).1 hanswered⟩

open Sample in
/-- A preflight of a quarantined hash is answered with 200, and the upload is refused. -/
theorem preflight_agrees_false :
    ¬ ∀ (cfg : Config) (root : Path) (env : Env) (pre headers : Headers) (frames : List Bytes) (sha256 : Str) (t t' : Tid) (s : AppState),
      cfg.storage = .new root → cfg.featurePaidUpload = false → Healthy env → SameUpload cfg pre headers frames sha256 →
      ((∃ r, preflight cfg t env pre s = .ok r ∧ r.status = 200) ↔ ∃ r, uploading cfg t' env headers (frames.map .ok) s = .ok r) := by
  intro hall
  have hhead : (preflight config 0 calm preflightHeaders quarantining).toOption.any (·.status = 200) = true := by decide
  have hput : (uploading config 0 calm uploadHeaders [.ok [1, 2, 3]] quarantining).toOption.isSome = false := by decide
  have hiff := hall config ["srv".toList] calm preflightHeaders uploadHeaders [[1, 2, 3]] hash 0 0 quarantining rfl rfl ⟨rfl, rfl⟩ sameUpload
  cases hx : preflight config 0 calm preflightHeaders quarantining with
  | error error =>
    rw [hx] at hhead
    nomatch hhead
  | ok r =>
    rw [hx] at hhead
    obtain ⟨r', hr'⟩ := hiff.1 ⟨r, hx, of_decide_eq_true hhead⟩
    have hput' : (uploading config 0 calm uploadHeaders ([[1, 2, 3]].map .ok) quarantining).toOption.isSome = false := hput
    rw [hr'] at hput'
    nomatch hput'

end Almond
