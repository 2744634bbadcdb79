import Almond.Lemmas.BindingAux
import Almond.Sample

/-! # Authorization soundness

Whoever takes the mutation guard of a hash to publish or to remove its blob holds an event that permits just that. -/

namespace Almond

open Authorization Conc

/-! ## Uploads -/

/-- The headers and the operation of a request that uploads. -/
def Op.door : Op → Option (Headers × Operation)
  | .upload headers _ => some (headers, .upload)
  | .patch headers _ => some (headers, .chunkUpload)
  | .mirror headers _ => some (headers, .mirror)
  | _ => none

/-- Whether the record of an operation lets it reach a hash. -/
def Opens (cfg : Config) (op : Op) (past : List (Task.Event Req Resp)) (sha256 : Str) : Prop :=
  match op.door with
  | some (headers, operation) => Justified cfg headers operation "upload" past sha256
  | none => True

/-- Every program reaches only what its record lets it reach. -/
theorem program_gated (cfg : Config) (op : Op) :
    ((machine cfg).body op).Obeys (.recording (Req.Foresees cfg.storage) (Opens cfg op) fun past r => ∀ sha256, r.mutates sha256 →
      Opens cfg op past sha256) (fun _ _ => True) [] := by
  cases op with
  | upload headers body =>
    have h : (program cfg (.upload headers body)).Obeys (gate (Req.Foresees cfg.storage) cfg headers .upload "upload")
        (fun _ _ => True) [] := (uploadFile_gated headers body).bind fun _ _ _ => trivial
    exact h.traced
  | patch headers body =>
    have h : (program cfg (.patch headers body)).Obeys (gate (Req.Foresees cfg.storage) cfg headers .chunkUpload "upload")
        (fun _ _ => True) [] := (patchUpload_gated headers body).bind fun _ _ _ => trivial
    exact h.traced
  | mirror headers body =>
    have h : (program cfg (.mirror headers body)).Obeys (gate (Req.Foresees cfg.storage) cfg headers .mirror "upload")
        (fun _ _ => True) [] := (mirrorBlob_gated headers body).bind fun _ _ _ => trivial
    exact h.traced
  | _ => exact Task.obeys_of_admits (fun _ _ _ _ => trivial) (fun _ _ => trivial) (fun _ _ => trivial) (fun _ _ => trivial) _ _

/-- A task that reaches a hash has a record that lets it. -/
theorem exists_opens_of_reaches {cfg : Config} {s : AppState} {past : List (Server × Label Req Resp Str Op Report)} {c : Server}
    {t : Tid} {op : Op} {sha256 : Str} (hs : s.sessions.Each fun _ upload => upload.WellFormed cfg.storage)
    (h : History (machine cfg) (fun _ _ _ => True) (Server.idle s) past c) (hr : Reaches c t op sha256) :
    ∃ es, Task.record t past = es.map (Prod.mk op) ∧ Opens cfg op es sha256 := by
  have hforeseen := (Uploads.foreseen_of_history hs h).2
  obtain ⟨k, ht⟩ | ⟨r, k, ht, hm⟩ := hr
  · obtain ⟨es, hes, hobeys⟩ := h.obeys (program_gated cfg) hforeseen ht
    exact ⟨es, hes, hobeys.1⟩
  · obtain ⟨es, hes, hobeys⟩ := h.obeys (program_gated cfg) hforeseen ht
    exact ⟨es, hes, hobeys.1 sha256 hm⟩

/-! ## Deletions and listings -/

namespace Moderation

/-- Whether the record of an operation lets it reach a hash. -/
def Opens (cfg : Config) (op : Op) (past : List (Task.Event Req Resp)) (sha256 : Str) : Prop :=
  match op with
  | .delete headers _ => Justified cfg headers .delete "delete" past sha256
  | _ => True

/-- Whether the record of an operation lets it return a result. -/
def Answers (cfg : Config) (op : Op) (past : List (Task.Event Req Resp)) (out : Outcome) : Prop :=
  match op, out with
  | .list headers _ _, .listed (.ok _) =>
    ∃ authorized, Cleared cfg headers .list authorized past ∧ HasVerb authorized.event "list"
  | _, _ => True

/-- Every program reaches only what its record lets it reach. -/
theorem program_gated (cfg : Config) (settings : Settings) (op : Op) :
    ((machine cfg settings).body op).Obeys (.recording (fun _ _ => True) (Opens cfg op) fun past r => ∀ sha256, r.mutates sha256 →
      Opens cfg op past sha256) (Answers cfg op) [] := by
  cases op with
  | delete headers filename => exact (deleteBlob_gated headers filename).bind fun _ _ _ => trivial
  | list headers path params =>
    refine (listBlobs_obeys settings headers path params fun _ _ _ _ _ => trivial).bind fun q x hx => ?_
    cases x with
    | error e => exact trivial
    | ok files => exact hx files rfl
  | boot => exact Task.obeys_of_admits (fun _ _ _ _ => trivial) (fun _ _ => trivial) (fun _ _ => trivial) (fun _ _ => trivial) _ _
  | report r =>
    refine Task.obeys_of_admits (fun _ _ _ _ => trivial) (fun _ _ => trivial) (fun _ _ => trivial) (fun _ x => ?_) _ _
    cases x <;> exact trivial

end Moderation

/-- In every run, from every state with well formed sessions: an upload, a chunk or a mirror that reaches a hash, and a deletion that
does, was justified for it, and so was a listing that succeeded. No event justifies both an upload and a deletion. -/
theorem authorization_sound (cfg : Config) (settings : Moderation.Settings) :
    (∀ (s : AppState) past c t op headers operation sha256, (s.sessions.Each fun _ upload => upload.WellFormed cfg.storage) →
      History (machine cfg) (fun _ _ _ => True) (Server.idle s) past c → op.door = some (headers, operation) →
      Reaches c t op sha256 →
      ∃ es, Task.record t past = es.map (Prod.mk op) ∧ Justified cfg headers operation "upload" es sha256) ∧
    (∀ (s : AppState) past c t headers filename sha256,
      History (Moderation.machine cfg settings) (fun _ _ _ => True) (Moderation.Server.idle s) past c →
      Reaches c t (.delete headers filename) sha256 →
      ∃ es, Task.record t past = es.map (Prod.mk (.delete headers filename)) ∧ Justified cfg headers .delete "delete" es sha256) ∧
    (∀ (s : AppState) past c c' t headers path params files,
      History (Moderation.machine cfg settings) (fun _ _ _ => True) (Moderation.Server.idle s) past c →
      Step (Moderation.machine cfg settings) c (.returned t (.list headers path params) (.listed (.ok files))) c' →
      ∃ es authorized, Task.record t past = es.map (Prod.mk (.list headers path params)) ∧
        Cleared cfg headers .list authorized es ∧ HasVerb authorized.event "list") ∧
    ∀ event sha256 sha256', Permits event "upload" sha256 → ¬ Permits event "delete" sha256' := by
  refine ⟨fun s past c t op headers operation sha256 hs h hdoor hr => ?_, fun s past c t headers filename sha256 h hr => ?_,
    fun s past c c' t headers path params files h hstep => ?_, fun event _ _ hu hd => ?_⟩
  · obtain ⟨es, hes, hopens⟩ := exists_opens_of_reaches hs h hr
    rw [Opens, hdoor] at hopens
    exact ⟨es, hes, hopens⟩
  · obtain ⟨k, ht⟩ | ⟨r, k, ht, hm⟩ := hr
    · obtain ⟨es, hes, hobeys⟩ := h.obeys (Moderation.program_gated cfg settings) (fun _ _ _ => trivial) ht
      exact ⟨es, hes, hobeys.1⟩
    · obtain ⟨es, hes, hobeys⟩ := h.obeys (Moderation.program_gated cfg settings) (fun _ _ _ => trivial) ht
      exact ⟨es, hes, hobeys.1 sha256 hm⟩
  · cases hstep with
    | finish ht =>
      obtain ⟨es, hes, authorized, hc⟩ := h.obeys (Moderation.program_gated cfg settings) (fun _ _ _ => trivial) ht
      exact ⟨es, authorized, hes, hc⟩
  · exact absurd (hu.1.unique hd.1) (by decide)

/-- Whether the last step took the guard of a hash for an upload. -/
def guardTaken (sha256 : Str) : List (Server × Label Req Resp Str Op Report) → Bool
  | (_, .acquired _ op l) :: _ => op.door.isSome && l = sha256
  | _ => false

/-- A blob in one chunk is justified when it takes the guard of its hash. -/
theorem authorization_sound_chunk : ∃ past c t op headers operation es,
    History (machine Sample.config) (fun _ _ _ => True) (Server.idle Sample.started) past c ∧ Op.door op = some (headers, operation) ∧
      Reaches c t op Sample.hash ∧ Task.record t past = es.map (Prod.mk op) ∧
        Justified Sample.config headers operation "upload" es Sample.hash := by
  have hsound := (authorization_sound Sample.config
    ⟨false, .off, .quarantine, 0, fun _ => none, fun _ => .error "", fun _ => [], true⟩).1
  obtain ⟨past, c, h, hlast⟩ := exists_history_of_replay (machine Sample.config) (Server.idle Sample.started)
    (.spawn Sample.patch :: Sample.steps 0 27) (fun _ _ _ => true) (guardTaken Sample.hash) (by decide)
  cases h with
  | start => nomatch hlast
  | @step past c₁ l _ h _ hs =>
    cases hs with
    | @acquire t op l k ht _ =>
      obtain ⟨hdoor, hl⟩ := Bool.and_eq_true_iff.1 hlast
      obtain ⟨⟨headers, operation⟩, hdoor⟩ := Option.isSome_iff_exists.1 hdoor
      have hr : Reaches c₁ t op Sample.hash := .inl ⟨k, of_decide_eq_true hl ▸ ht⟩
      have h : History (machine Sample.config) (fun _ _ _ => True) (Server.idle Sample.started) past c₁ := h.mono fun _ _ _ _ => trivial
      obtain ⟨es, hes, hj⟩ := hsound _ past c₁ t op headers operation Sample.hash (SessionState.each_empty _) h hdoor hr
      exact ⟨past, c₁, t, op, headers, operation, es, h, hdoor, hr, hes, hj⟩
    | _ => nomatch hlast

end Almond
