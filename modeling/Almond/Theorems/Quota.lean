import Almond.Lemmas.QuotaAux
import Almond.Theorems.Intake

/-! # Quota admission -/

namespace Almond

open Conc Handlers FileStorage

/-- The requests a client sends bytes with. -/
def Op.sends : Op → Prop
  | .upload _ _ | .patch _ _ => True
  | _ => False

/-- Requests that are served one after another, each alone and whatever the outside decides, while time passes between them. -/
inductive Sequential (cfg : Config) (ok : AppState → Op → Prop) : AppState → AppState → Prop
  | refl (s) : Sequential cfg ok s s
  | serve {s s'} (h : Sequential cfg ok s s') (t : Tid) (op : Op) (hok : ok s' op) (env : Nat → Env) :
      Sequential cfg ok s ((program cfg op).alone (exec cfg t) env 0 s').2.2
  | tick {s s'} (h : Sequential cfg ok s s') (e : Env) : Sequential cfg ok s (tick e s')

/-- When the total stays within the quota: a body is no longer than it was declared to be, and there is room for the whole of an upload
when the last of its chunks arrives, unless an upload holds the hash already. -/
def Admissible (cfg : Config) (s : AppState) : Op → Prop
  | .upload headers body => ∀ n, (Http.str headers "content-length").bind parseU64 = some n → (receivedBytes body).length ≤ n
  | .patch headers _ => ∀ header, Completes cfg headers s.sessions header →
      s.index.held header.sha256 = true ∨ s.index.totalAfter header.sha256 header.uploadLength ≤ cfg.maxTotalSize
  | _ => False

/-- A sum that wraps is no larger than one that saturates. -/
theorem wrappingAdd_le_saturatingAdd (a : Nat) {b c : Nat} (h : b ≤ c) : wrappingAdd a b ≤ saturatingAdd a c := by
  have hmod : (a + b) % (u64Max + 1) ≤ a + b := Nat.mod_le ..
  have hlt : (a + b) % (u64Max + 1) < u64Max + 1 := Nat.mod_lt _ (Nat.succ_pos _)
  exact le_min (hmod.trans (Nat.add_le_add_left h a)) (Nat.le_of_lt_succ hlt)

section

variable {cfg : Config} {s s' : AppState}

/-- Where a check found room, the blob fits. -/
theorem totalAfter_le_of_room (hmax : cfg.maxTotalSize ≠ 0) {i : BlobIndex} {declared size : Nat}
    (hroom : overQuota cfg i.stats declared = false) (hsize : size ≤ declared) (sha256 : Str) :
    i.totalAfter sha256 size ≤ cfg.maxTotalSize := by
  have hle : saturatingAdd i.totalBytes declared ≤ cfg.maxTotalSize := by
    unfold overQuota at hroom
    have hand := (Bool.or_eq_false_iff.1 hroom).1
    rcases Bool.and_eq_false_iff.1 hand with h | h
    · exact absurd (decide_eq_false_iff_not.1 h) (not_not.2 hmax)
    · exact Nat.le_of_not_lt (decide_eq_false_iff_not.1 h)
  exact (Nat.sub_le ..).trans ((wrappingAdd_le_saturatingAdd _ hsize).trans hle)

/-- An upload admits at most its body, when there is room for what it declares. -/
theorem uploadFile_serves (h : Orderly cfg s) (t : Tid) (headers : Headers) (body : Body) (env : Nat → Env) :
    Served cfg s (fun _ size => (size = (receivedBytes body).length ∧ (receivedBytes body).length ≤ cfg.maxBlobSizeBytes) ∧
        overQuota cfg s.index.stats (declaredSize cfg headers) = false)
      ((program cfg (.upload headers body)).alone (exec cfg t) env 0 s).2.2 := by
  have hsettles : ∀ past r s, r.Prepares cfg.storage → CommitsReceived cfg body past r s := fun past r s hr =>
    commitsReceived_of_settles body past r s hr.settles
  have hserved := served_of_calls (t := t) h ((uploadFile_calls headers body).mono hsettles fun _ _ _ h => h) (K := fun _ size =>
    (size = (receivedBytes body).length ∧ (receivedBytes body).length ≤ cfg.maxBlobSizeBytes) ∧
      overQuota cfg s.index.stats (declaredSize cfg headers) = false) ?_
  · have hprogram : (program cfg (.upload headers body)).Yields (exec cfg t) Anything (fun _ s' => Served cfg s (fun _ size =>
        (size = (receivedBytes body).length ∧ (receivedBytes body).length ≤ cfg.maxBlobSizeBytes) ∧
          overQuota cfg s.index.stats (declaredSize cfg headers) = false) s') s :=
      hserved.bind fun _ _ hs => hs
    exact hprogram.alone (fun _ => trivial) 0
  · rintro past p s' ⟨⟨temp, publication, rfl, _, _, hsize, hlimit⟩, hroom⟩
    exact ⟨temp, publication, rfl, ⟨hsize, hlimit⟩, hroom⟩

/-- A chunk admits at most the upload that it completes. -/
theorem patchUpload_serves (h : Orderly cfg s) (t : Tid) (headers : Headers) (body : Body) (env : Nat → Env) :
    Served cfg s (fun sha256 size => ∃ header, Completes cfg headers s.sessions header ∧ sha256 = header.sha256 ∧
        size = header.uploadLength) ((program cfg (.patch headers body)).alone (exec cfg t) env 0 s).2.2 := by
  have hserved := served_of_calls (t := t) h (patchUpload_calls headers body h) (K := fun sha256 size =>
    ∃ header, Completes cfg headers s.sessions header ∧ sha256 = header.sha256 ∧ size = header.uploadLength) ?_
  · have hprogram : (program cfg (.patch headers body)).Yields (exec cfg t) Anything (fun _ s' => Served cfg s (fun sha256 size =>
        ∃ header, Completes cfg headers s.sessions header ∧ sha256 = header.sha256 ∧ size = header.uploadLength) s') s :=
      hserved.bind fun _ _ hs => hs
    exact hprogram.alone (fun _ => trivial) 0
  · rintro past p s' ⟨header, hcomplete, _, temp, publication, rfl, hsha, hsize⟩
    exact ⟨temp, publication, rfl, header, hcomplete, hsha, hsize⟩

/-- An admissible request keeps the sum within the quota. -/
theorem totalBytes_of_admissible (hmax : cfg.maxTotalSize ≠ 0) (h : Orderly cfg s) (htotal : s.index.totalBytes ≤ cfg.maxTotalSize)
    (t : Tid) {op : Op} (hok : Admissible cfg s op) (env : Nat → Env) :
    Orderly cfg ((program cfg op).alone (exec cfg t) env 0 s).2.2 ∧
      ((program cfg op).alone (exec cfg t) env 0 s).2.2.index.totalBytes ≤ cfg.maxTotalSize := by
  cases op with
  | upload headers body =>
    have hserved := uploadFile_serves h t headers body env
    refine ⟨hserved.orderly, ?_⟩
    obtain hsame | ⟨sha256, size, ⟨⟨rfl, hlimit⟩, hroom⟩, hadmitted⟩ := hserved.admitted
    · rw [hsame]
      exact htotal
    · obtain hsame | ⟨_, hafter⟩ := hadmitted.totalBytes
      · rw [hsame]
        exact htotal
      · rw [hafter]
        refine totalAfter_le_of_room hmax hroom ?_ sha256
        unfold declaredSize
        cases hdeclared : (Http.str headers "content-length").bind parseU64 with
        | none => exact hlimit
        | some n => exact hok n hdeclared
  | patch headers body =>
    have hserved := patchUpload_serves h t headers body env
    refine ⟨hserved.orderly, ?_⟩
    obtain hsame | ⟨sha256, size, ⟨header, hcomplete, rfl, rfl⟩, hadmitted⟩ := hserved.admitted
    · rw [hsame]
      exact htotal
    · obtain hsame | ⟨hfree, hafter⟩ := hadmitted.totalBytes
      · rw [hsame]
        exact htotal
      · rw [hafter]
        rcases hok header hcomplete with hheld | hroom
        · exact absurd (hfree.symm.trans hheld) Bool.false_ne_true
        · exact hroom
  | _ => exact hok.elim

/-- A request that sends bytes keeps the state orderly. -/
theorem orderly_of_sends (h : Orderly cfg s) (t : Tid) {op : Op} (hok : op.sends) (env : Nat → Env) :
    Orderly cfg ((program cfg op).alone (exec cfg t) env 0 s).2.2 := by
  cases op with
  | upload headers body => exact (uploadFile_serves h t headers body env).orderly
  | patch headers body => exact (patchUpload_serves h t headers body env).orderly
  | _ => exact hok.elim

/-- Requests that send bytes keep the state orderly. -/
theorem orderly_of_sequential (h : Orderly cfg s) (hseq : Sequential cfg (fun _ op => op.sends) s s') : Orderly cfg s' := by
  induction hseq with
  | refl => exact h
  | serve _ t op hok env ih => exact orderly_of_sends ih t hok env
  | tick _ e ih => exact ⟨ih.sane, ih.sessions⟩

/-- Admissible requests keep the sum within the quota. -/
theorem totalBytes_of_sequential (hmax : cfg.maxTotalSize ≠ 0) (h : Orderly cfg s) (htotal : s.index.totalBytes ≤ cfg.maxTotalSize)
    (hseq : Sequential cfg (Admissible cfg) s s') : Orderly cfg s' ∧ s'.index.totalBytes ≤ cfg.maxTotalSize := by
  induction hseq with
  | refl => exact ⟨h, htotal⟩
  | serve _ t op hok env ih => exact totalBytes_of_admissible hmax ih.1 ih.2 t hok env
  | tick _ e ih => exact ⟨⟨ih.1.sane, ih.1.sessions⟩, ih.2⟩

/-- A chunk that stores a blob stays within the quota exactly when it is admissible. -/
theorem totalBytes_le_iff_of_patch (h : Orderly cfg s) (t : Tid) (headers : Headers) (body : Body) (env : Nat → Env)
    (hstores : ((program cfg (.patch headers body)).alone (exec cfg t) env 0 s).2.2.index ≠ s.index) :
    ((program cfg (.patch headers body)).alone (exec cfg t) env 0 s).2.2.index.totalBytes ≤ cfg.maxTotalSize ↔
      Admissible cfg s (.patch headers body) := by
  obtain hsame | ⟨sha256, size, ⟨header, hcomplete, rfl, rfl⟩, hadmitted⟩ := (patchUpload_serves h t headers body env).admitted
  · exact absurd hsame hstores
  obtain hsame | ⟨hfree, hafter⟩ := hadmitted.totalBytes
  · exact absurd hsame hstores
  rw [hafter]
  refine ⟨fun hroom header' hcomplete' => .inr ?_, fun hok => ?_⟩
  · cases hcomplete.read.symm.trans hcomplete'.read
    exact hroom
  · rcases hok header hcomplete with hheld | hroom
    · exact absurd (hfree.symm.trans hheld) Bool.false_ne_true
    · exact hroom

end

/-! ## The quota -/

/-- Requests that are served one after another, and are admissible, keep the sum of the sizes within the quota. Among the chunks that
store a blob, no other one does. -/
theorem quota_admission (cfg : Config) (hmax : cfg.maxTotalSize ≠ 0) {s : AppState} {c : Server} (hsane : s.disk.Sane)
    (hempty : s.sessions = .empty) (hrun : Run (machine cfg) (fun _ _ => True) (Server.idle s) c) :
    (∀ s', c.world.store.index.totalBytes ≤ cfg.maxTotalSize → Sequential cfg (Admissible cfg) c.world.store s' →
      s'.index.totalBytes ≤ cfg.maxTotalSize) ∧
    ∀ s' t headers body env, Sequential cfg (fun _ op => op.sends) c.world.store s' →
      ((program cfg (.patch headers body)).alone (exec cfg t) env 0 s').2.2.index ≠ s'.index →
      (((program cfg (.patch headers body)).alone (exec cfg t) env 0 s').2.2.index.totalBytes ≤ cfg.maxTotalSize ↔
        Admissible cfg s' (.patch headers body)) := by
  have hs : Orderly cfg s := ⟨hsane, hempty ▸ SessionState.each_empty _⟩
  have horderly : Orderly cfg c.world.store := orderly_of_run hs hrun
  refine ⟨fun s' htotal hseq => (totalBytes_of_sequential hmax horderly htotal hseq).2, ?_⟩
  intro s' t headers body env hseq hstores
  exact totalBytes_le_iff_of_patch (orderly_of_sequential horderly hseq) t headers body env hstores

namespace Sample

/-- A server with room for ten bytes. -/
def smallConfig : Config :=
  { config with maxTotalSize := 10 }

/-- The headers of one half of a blob of twelve bytes. -/
def halfHeaders (offset : String) : Headers :=
  [("authorization".toList, "Nostr e30=".toList), ("x-sha-256".toList, hash), ("upload-type".toList, "image/png".toList),
    ("upload-length".toList, "12".toList), ("content-length".toList, "6".toList), ("upload-offset".toList, offset.toList)]

/-- One half of a blob of twelve bytes. -/
def half (offset : String) : Op :=
  .patch (halfHeaders offset) [.ok [1, 2, 3, 4, 5, 6]]

/-- The state after a request that is served alone. -/
def after (op : Op) (s : AppState) : AppState :=
  ((program smallConfig op).alone (exec smallConfig 0) (fun _ => calm) 0 s).2.2

end Sample

open Sample in
/-- A blob of twelve bytes is stored in two halves, where there is room for ten. -/
theorem quota_admission_false :
    ¬∀ (cfg : Config) (s s' : AppState), cfg.maxTotalSize ≠ 0 → s.index.totalBytes ≤ cfg.maxTotalSize →
      Sequential cfg (fun _ op => op.sends) s s' → s'.index.totalBytes ≤ cfg.maxTotalSize := by
  intro h
  have hseq : Sequential smallConfig (fun _ op => op.sends) started (after (half "6") (after (half "0") started)) :=
    .serve (.serve (.refl _) 0 (half "0") trivial fun _ => calm) 0 (half "6") trivial fun _ => calm
  have hover : (after (half "6") (after (half "0") started)).index.totalBytes = 12 := by decide
  have hle := h smallConfig started _ (by decide) (by decide) hseq
  rw [hover] at hle
  exact absurd hle (by decide)

open Sample in
/-- A server that has just started stores three bytes that are sent in one chunk. -/
theorem quota_admission_chunk :
    (after patch started).index.totalBytes = 3 ∧ (after patch started).index.totalBytes ≤ 10 := by
  have hsane : started.disk.Sane := ⟨fun _ _ h => (nomatch h), fun _ _ _ h => (nomatch h)⟩
  have hlength : (Handlers.readChunkHeaders smallConfig chunkHeaders).toOption.map ChunkHeaders.uploadLength = some 3 := by
    decide
  have hadmissible : Admissible smallConfig started patch := by
    intro header hcomplete
    rw [hcomplete.read] at hlength
    have h3 : header.uploadLength = 3 := Option.some.inj hlength
    exact .inr (h3 ▸ (by decide : (3 : Nat) ≤ 10))
  refine ⟨by decide, ?_⟩
  exact (quota_admission smallConfig (by decide) hsane rfl (.refl (Server.idle started))).1 _ (by decide)
    (.serve (.refl _) 0 patch hadmissible fun _ => calm)

end Almond
