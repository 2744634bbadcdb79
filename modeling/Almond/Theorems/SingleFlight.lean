import Almond.Lemmas.SingleFlightAux
import Almond.Theorems.Coalescing
import Almond.Theorems.UpstreamServers

/-! # One download at a time -/

namespace Almond.SingleFlight

open Conc (Tid HandleId Handles)
open Coalescing Fetch UpstreamServers

/-! ## What the requests hold -/

/-- What holds of the tables, of the guards that requests hold, and of the keys and stages of the requests. -/
structure Held (st : Registries) (negotiation : Tid → Option HandleId) (stages : Tid → Option (Str × Stage)) : Prop where
  sound : Sound st
  holds : ∀ t, negotiation t = (stages t).bind fun x => x.2.guard
  /-- A negotiation has one leader. -/
  alone : ∀ t t' id, negotiation t = some id → negotiation t' = some id → t = t'
  /-- A guard that is held has not begun to be finished. -/
  led : ∀ t key stage id, stages t = some (key, stage) → stage.guard = some id →
    st.upstreamNegotiations.guards.lookup id = some ⟨key, false⟩
  pending : ∀ t key stage id, stages t = some (key, stage) → stage.leads = true → stage.guard = some id →
    st.upstreamNegotiations.phase id = .pending
  /-- A blob whose negotiation has a leader is not being downloaded. -/
  idle : ∀ t key stage, stages t = some (key, stage) → stage.leads = true → ¬ st.Downloading key

section

variable {st : Registries} {negotiation : Tid → Option HandleId} {stages : Tid → Option (Str × Stage)} {t : Tid} {key : Str}
  {stage before : Stage} {id : HandleId} {α : Type}

/-- A value after an update is the new one, or one of another place. -/
theorem update_cases {f : Tid → Option α} {t' : Tid} {x : Option α} {a : α} (h : Function.update f t x t' = some a) :
    t' = t ∧ x = some a ∨ t' ≠ t ∧ f t' = some a := by
  by_cases ht : t' = t
  · subst ht
    rw [Function.update_self] at h
    exact .inl ⟨rfl, h⟩
  · rw [Function.update_of_ne ht] at h
    exact .inr ⟨ht, h⟩

/-- A stage that leads a negotiation holds its guard. -/
theorem guard_of_leads (h : stage.leads = true) : ∃ id, stage.guard = some id := by
  cases stage with
  | walking id => exact ⟨id, rfl⟩
  | answered id => exact ⟨id, rfl⟩
  | _ => nomatch h

/-- The guard of a stage is the one that its request holds. -/
theorem Held.negotiation_eq (h : Held st negotiation stages) (ht : stages t = some (key, stage)) : negotiation t = stage.guard := by
  rw [h.holds t, ht]
  rfl

/-- A request that holds a guard has a stage with it. -/
theorem Held.exists_stage (h : Held st negotiation stages) (hg : negotiation t = some id) :
    ∃ key stage, stages t = some (key, stage) ∧ stage.guard = some id := by
  rw [h.holds t, Option.bind_eq_some_iff] at hg
  obtain ⟨⟨key, stage⟩, ht, hg⟩ := hg
  exact ⟨key, stage, ht, hg⟩

/-- The guards that are held are known. -/
theorem Held.guard_ne_next (h : Held st negotiation stages) (ht : stages t = some (key, stage)) (hg : stage.guard = some id) :
    id ≠ st.upstreamNegotiations.next :=
  Nat.ne_of_lt (h.sound.negotiations.guarded id _ (h.led t key stage id ht hg))

/-- A request comes to another stage with the guard that it has. -/
theorem Held.move (h : Held st negotiation stages) (hguard : negotiation t = stage.guard)
    (hled : ∀ id, stage.guard = some id → st.upstreamNegotiations.guards.lookup id = some ⟨key, false⟩)
    (hleads : stage.leads = true → (∀ id, stage.guard = some id → st.upstreamNegotiations.phase id = .pending) ∧ ¬ st.Downloading key) :
    Held st negotiation (Function.update stages t (some (key, stage))) where
  sound := h.sound
  holds t' := by
    by_cases ht : t' = t
    · subst ht
      rw [Function.update_self]
      exact hguard
    · rw [Function.update_of_ne ht]
      exact h.holds t'
  alone := h.alone
  led t' key' stage' id' ht' hg := by
    rcases update_cases ht' with ⟨rfl, he⟩ | ⟨_, ht'⟩
    · cases he
      exact hled id' hg
    · exact h.led t' key' stage' id' ht' hg
  pending t' key' stage' id' ht' hl hg := by
    rcases update_cases ht' with ⟨rfl, he⟩ | ⟨_, ht'⟩
    · cases he
      exact (hleads hl).1 id' hg
    · exact h.pending t' key' stage' id' ht' hl hg
  idle t' key' stage' ht' hl := by
    rcases update_cases ht' with ⟨rfl, he⟩ | ⟨_, ht'⟩
    · cases he
      exact (hleads hl).2
    · exact h.idle t' key' stage' ht' hl

/-- A request goes on from one stage to another one with the same guard. -/
theorem Held.pass (h : Held st negotiation stages) (ht : stages t = some (key, before)) (hguard : stage.guard = before.guard)
    (hleads : stage.leads = true → before.leads = true) : Held st negotiation (Function.update stages t (some (key, stage))) := by
  refine h.move ((h.negotiation_eq ht).trans hguard.symm) (fun id hg => h.led t key before id ht (hguard ▸ hg))
    fun hl => ⟨fun id hg => ?_, ?_⟩
  · exact h.pending t key before id ht (hleads hl) (hguard ▸ hg)
  · exact h.idle t key before ht (hleads hl)

/-- A request without a guard becomes the leader for a blob that is not being downloaded. -/
theorem Held.lead (h : Held st negotiation stages)
    (hfree : ∀ id, st.upstreamNegotiations.entries.lookup key = some id → st.upstreamNegotiations.phase id = .failed)
    (hidle : ¬ st.Downloading key) :
    Held { st with upstreamNegotiations := st.upstreamNegotiations.register .pending key }
      (Function.update negotiation t (some st.upstreamNegotiations.next))
      (Function.update stages t (some (key, .walking st.upstreamNegotiations.next))) where
  sound := by
    refine ⟨h.sound.negotiations.register key, h.sound.pending.register fun id hl hp => ?_, h.sound.downloads⟩
    nomatch (hfree id hl).symm.trans hp
  holds t' := by
    by_cases ht : t' = t
    · subst ht
      rw [Function.update_self, Function.update_self]
      rfl
    · rw [Function.update_of_ne ht, Function.update_of_ne ht]
      exact h.holds t'
  alone t₁ t₂ id h₁ h₂ := by
    rcases update_cases h₁ with ⟨heq₁, hnew₁⟩ | ⟨_, hold₁⟩
    · rcases update_cases h₂ with ⟨heq₂, _⟩ | ⟨_, hold₂⟩
      · exact heq₁.trans heq₂.symm
      · obtain ⟨_, _, ht, hg⟩ := h.exists_stage hold₂
        exact absurd (Option.some.inj hnew₁).symm (h.guard_ne_next ht hg)
    · rcases update_cases h₂ with ⟨_, hnew₂⟩ | ⟨_, hold₂⟩
      · obtain ⟨_, _, ht, hg⟩ := h.exists_stage hold₁
        exact absurd (Option.some.inj hnew₂).symm (h.guard_ne_next ht hg)
      · exact h.alone t₁ t₂ id hold₁ hold₂
  led t' key' stage' id' ht' hg := by
    rcases update_cases ht' with ⟨rfl, he⟩ | ⟨_, ht'⟩
    · cases he
      cases hg
      exact AList.lookup_insert ..
    · exact (AList.lookup_insert_ne (h.guard_ne_next ht' hg)).trans (h.led t' key' stage' id' ht' hg)
  pending t' key' stage' id' ht' hl hg := by
    rcases update_cases ht' with ⟨rfl, he⟩ | ⟨_, ht'⟩
    · cases he
      cases hg
      exact Function.update_self ..
    · exact (Function.update_of_ne (h.guard_ne_next ht' hg) ..).trans (h.pending t' key' stage' id' ht' hl hg)
  idle t' key' stage' ht' hl := by
    rcases update_cases ht' with ⟨rfl, he⟩ | ⟨_, ht'⟩
    · cases he
      exact hidle
    · exact h.idle t' key' stage' ht' hl

/-- What is done with the guard of a negotiation that no request holds. -/
theorem Held.settle (h : Held st negotiation stages) {negotiations : Handles Str NegotiationPhase}
    (hs : NegotiationStep id st.upstreamNegotiations negotiations) (hfree : ∀ t, negotiation t ≠ some id) :
    Held { st with upstreamNegotiations := negotiations } negotiation stages := by
  have hne : ∀ {t key stage id'}, stages t = some (key, stage) → stage.guard = some id' → id' ≠ id := by
    rintro t key stage _ ht hg rfl
    exact hfree t ((h.negotiation_eq ht).trans hg)
  exact ⟨h.sound.step (.negotiation hs), h.holds, h.alone,
    fun t key stage id' ht hg => (hs.guard_of_ne (hne ht hg)).trans (h.led t key stage id' ht hg),
    fun t key stage id' ht hl hg => (hs.phase_of_ne (hne ht hg)).trans (h.pending t key stage id' ht hl hg), h.idle⟩

/-- A request ends, or comes to a stage where it holds nothing. -/
theorem Held.withdraw (h : Held st negotiation stages) {x : Option (Str × Stage)}
    (hx : ∀ key stage, x = some (key, stage) → stage = .over none) :
    Held st (Function.update negotiation t none) (Function.update stages t x) where
  sound := h.sound
  holds t' := by
    by_cases ht : t' = t
    · subst ht
      rw [Function.update_self, Function.update_self]
      cases x with
      | none => rfl
      | some x => rw [Option.bind_some, hx x.1 x.2 rfl, Stage.guard]
    · rw [Function.update_of_ne ht, Function.update_of_ne ht]
      exact h.holds t'
  alone t₁ t₂ id h₁ h₂ := by
    rcases update_cases h₁ with ⟨_, he⟩ | ⟨_, h₁⟩
    · nomatch he
    · rcases update_cases h₂ with ⟨_, he⟩ | ⟨_, h₂⟩
      · nomatch he
      · exact h.alone t₁ t₂ id h₁ h₂
  led t' key' stage' id' ht' hg := by
    rcases update_cases ht' with ⟨_, he⟩ | ⟨_, ht'⟩
    · rw [hx key' stage' he] at hg
      nomatch hg
    · exact h.led t' key' stage' id' ht' hg
  pending t' key' stage' id' ht' hl hg := by
    rcases update_cases ht' with ⟨_, he⟩ | ⟨_, ht'⟩
    · rw [hx key' stage' he] at hg
      nomatch hg
    · exact h.pending t' key' stage' id' ht' hl hg
  idle t' key' stage' ht' hl := by
    rcases update_cases ht' with ⟨_, he⟩ | ⟨_, ht'⟩
    · rw [hx key' stage' he] at hl
      nomatch hl
    · exact h.idle t' key' stage' ht' hl

/-- A request lets go of its guard: nobody else holds it. -/
theorem Held.letGo (h : Held st negotiation stages) {negotiations : Handles Str NegotiationPhase} {x : Option (Str × Stage)}
    (hx : ∀ key stage, x = some (key, stage) → stage = .over none) (hg : negotiation t = some id)
    (hs : NegotiationStep id st.upstreamNegotiations negotiations) :
    Held { st with upstreamNegotiations := negotiations } (Function.update negotiation t none) (Function.update stages t x) := by
  refine (h.withdraw hx).settle hs fun t' hg' => ?_
  rcases update_cases hg' with ⟨_, he⟩ | ⟨hne, hg'⟩
  · nomatch he
  · exact hne (h.alone t' t id hg' hg)

/-- What is done with the guard of a download starts none. -/
theorem Held.settleDownload (h : Held st negotiation stages) {downloads : Handles Str DownloadPhase}
    (hs : DownloadStep id st.ongoingDownloads downloads) : Held { st with ongoingDownloads := downloads } negotiation stages := by
  refine ⟨h.sound.step (.download hs), h.holds, h.alone, h.led, h.pending, fun t key stage ht hl => ?_⟩
  rintro ⟨id', hlookup, hp⟩
  exact h.idle t key stage ht hl ⟨id', hs.lookup hlookup, hs.phase_eq_initial downloadDropped_ne hp⟩

/-- The leader registers its download: no other request leads a negotiation for the blob. -/
theorem Held.prepare (h : Held st negotiation stages) (ht : stages t = some (key, .answered id)) :
    Held { st with ongoingDownloads := st.ongoingDownloads.register .running key } negotiation
      (Function.update stages t (some (key, .over (some id)))) := by
  have hpass : Held st negotiation (Function.update stages t (some (key, .over (some id)))) := h.pass ht rfl nofun
  refine ⟨⟨h.sound.negotiations, h.sound.pending, h.sound.downloads.register key⟩, hpass.holds, h.alone, hpass.led, hpass.pending,
    fun t' key' stage' ht' hl => ?_⟩
  rcases update_cases ht' with ⟨_, he⟩ | ⟨hne, ht'⟩
  · cases he
    nomatch hl
  · rintro ⟨hid, hlookup, hp⟩
    obtain ⟨id', hg'⟩ := guard_of_leads hl
    rcases Maps.lookup_insert_cases hlookup with ⟨hkey, _⟩ | ⟨_, hlookup⟩
    · -- Another leader of this key would lead the same negotiation.
      have hsame : id = id' := h.sound.pending.unique (h.led t key _ id ht rfl) (h.led t' key' stage' id' ht' hg')
        (h.pending t key _ id ht rfl rfl) (h.pending t' key' stage' id' ht' hl hg') hkey.symm
      subst hsame
      exact hne (h.alone t' t id ((h.negotiation_eq ht').trans hg') (h.negotiation_eq ht))
    · have hold : hid ≠ st.ongoingDownloads.next := Nat.ne_of_lt (h.sound.downloads.known key' hid hlookup)
      exact h.idle t' key' stage' ht' hl ⟨hid, hlookup, (Function.update_of_ne hold ..).symm.trans hp⟩

end

/-! ## The steps of a request -/

section

variable {stages : Tid → Option (Str × Stage)} {s s' : Shared} {t : Tid} {outside : Outside} {request : Request} {length : Nat}
  {stage : Stage} {r : NetReq} {x : NetResp r}

/-- A request to a server leaves the guard that its request holds. -/
theorem next_send {client : Client} {method : Fetch.Method} {url : Url} {headers : Headers} {sent : Sent} (stage : Stage) :
    (stage.next (.send client method url headers) sent).guard = stage.guard ∧
      ((stage.next (.send client method url headers) sent).leads = true → stage.leads = true) := by
  cases stage with
  | walking id =>
    simp only [Stage.next]
    split <;> exact ⟨rfl, fun _ => rfl⟩
  | _ => exact ⟨rfl, id⟩

/-- A download that a request has prepared is dropped. -/
theorem Held.dropPrepared (h : Held s.registries s.negotiation stages) (id : HandleId) :
    Held (s.dropPrepared t id).registries (s.dropPrepared t id).negotiation stages := by
  cases hg : s.registries.ongoingDownloads.guards.lookup id with
  | none =>
    simp only [Shared.dropPrepared, Handles.abandon, hg]
    exact h
  | some g =>
    simp only [Shared.dropPrepared, Handles.abandon, hg]
    exact h.settleDownload (.drop hg)

/-- A request whose stage stays the same. -/
theorem Held.stay (h : Held s.registries s.negotiation stages) (hr : Quiet r) (hx : exec t s outside r = some (x, s')) :
    Held s'.registries s'.negotiation stages := by
  cases r with
  | ongoing | claim | wait | send | prepare | finishNegotiation => exact hr.elim
  | panic | nextRound => nomatch hx
  | dropPrepared id =>
    cases hx
    exact h.dropPrepared id
  | _ =>
    cases hx
    exact h

/-- A request claims the negotiation. -/
theorem Held.claim (h : Held s.registries s.negotiation stages) (ht : stages t = some (request.fileHash, .unseen))
    (hcoordinates : Coordinates s.registries (.claim request.fileHash) (s.claim t request.fileHash).1) :
    Held (s.claim t request.fileHash).2.registries (s.claim t request.fileHash).2.negotiation
      (Function.update stages t (some (request.fileHash, Stage.unseen.next (.claim request.fileHash) (s.claim t request.fileHash).1))) := by
  rcases claim_cases s.registries.upstreamNegotiations request.fileHash with ⟨id, _, hc⟩ | ⟨hfailed, hc⟩
  · simp only [Shared.claim, hc]
    have hpass : Held s.registries s.negotiation (Function.update stages t (some (request.fileHash, .following id))) :=
      h.pass ht rfl nofun
    exact hpass
  · simp only [Shared.claim, hc] at hcoordinates ⊢
    exact h.lead hfailed hcoordinates

/-- A request finishes its negotiation. -/
theorem Held.finish (h : Held s.registries s.negotiation stages) (ht : stages t = some (request.fileHash, stage)) {id : HandleId}
    (hguard : stage.guard = some id) {phase : NegotiationPhase} (hphase : phase ≠ .pending) :
    Held (s.finish t id phase).registries (s.finish t id phase).negotiation
      (Function.update stages t (some (request.fileHash, .over none))) := by
  have hg := h.led t _ stage id ht hguard
  simp only [Shared.finish, Handles.finish, hg]
  refine h.letGo (fun _ _ he => ?_) ((h.negotiation_eq ht).trans hguard) (.beginFinish hg phase hphase)
  cases he
  rfl

/-- A request ends. -/
theorem Held.release (h : Held s.registries s.negotiation stages) (t : Tid) :
    Held (s.release t).registries (s.release t).negotiation (Function.update stages t none) := by
  have hnone : ∀ key stage, (none : Option (Str × Stage)) = some (key, stage) → stage = .over none := nofun
  have hdropped : Held ((s.download t).elim s (s.dropPrepared t)).registries
      ((s.download t).elim s (s.dropPrepared t)).negotiation stages := by
    cases s.download t with
    | none => exact h
    | some id => exact h.dropPrepared id
  unfold Shared.release
  generalize (s.download t).elim s (s.dropPrepared t) = dropped at hdropped
  cases hg : dropped.negotiation t with
  | none =>
    simp only [hg, Option.elim_none]
    exact hdropped.withdraw hnone
  | some id =>
    obtain ⟨key, stage, ht, hguard⟩ := hdropped.exists_stage hg
    have hled := hdropped.led t key stage id ht hguard
    simp only [hg, Option.elim_some, Handles.abandon, hled]
    exact hdropped.letGo hnone hg (.drop hled)

/-- What a request awaits brings it to its next stage. -/
theorem Held.exec (h : Held s.registries s.negotiation stages) (ht : stages t = some (request.fileHash, stage))
    (hmay : stage.may length request r) (hcoordinates : Coordinates s.registries r x) (hx : exec t s outside r = some (x, s')) :
    Held s'.registries s'.negotiation (Function.update stages t (some (request.fileHash, stage.next r x))) := by
  by_cases hr : Quiet r
  · rw [next_of_quiet hr]
    exact (h.stay hr hx).pass ht rfl id
  · cases r with
    | ongoing fileHash =>
      obtain rfl : s = s' := congrArg Prod.snd (Option.some.inj hx)
      rcases hmay.2 with rfl | rfl
      · cases x <;> exact h.pass ht rfl nofun
      · cases x <;> exact h.pass ht rfl nofun
    | claim fileHash =>
      obtain ⟨rfl, rfl⟩ := hmay
      cases hx
      exact h.claim ht hcoordinates
    | wait id =>
      obtain rfl : stage = .following id := hmay
      obtain rfl : s = s' := by
        simp only [SingleFlight.exec] at hx
        split at hx
        · split at hx
          · exact congrArg Prod.snd (Option.some.inj hx)
          · nomatch hx
        · exact congrArg Prod.snd (Option.some.inj hx)
      cases x <;> exact h.pass ht rfl nofun
    | send client method url headers =>
      obtain rfl : s = s' := congrArg Prod.snd (Option.some.inj hx)
      exact h.pass ht (next_send stage).1 (next_send stage).2
    | prepare fileHash contentType totalLen =>
      obtain ⟨rfl, id, rfl⟩ := hmay
      simp only [SingleFlight.exec] at hx
      split at hx
      · cases hx
        exact h.prepare ht
      · cases hx
        exact h.pass ht rfl nofun
    | finishNegotiation id phase =>
      obtain ⟨hphase, hstage⟩ := hmay
      cases hx
      rcases hstage with rfl | rfl
      · exact h.finish ht rfl hphase
      · exact h.finish ht rfl hphase
    | _ => exact absurd trivial hr

end

/-! ## The system -/

/-- What holds of a system: its requests are at stages of the protocol, and hold what these say. -/
structure Flight (cfg : UpstreamConfig) (lengths : Str → Nat) (c : System) (stages : Tid → Option (Str × Stage)) : Prop where
  tasks : ∀ t request p, c.tasks t = some (request, p) → ∃ stage, stages t = some (request.fileHash, stage) ∧
    p.Obeys (protocol cfg (lengths request.fileHash) request) (fun _ _ => True) stage
  ended : ∀ t, c.tasks t = none → stages t = none
  held : Held c.shared.registries c.shared.negotiation stages

section

variable {cfg : UpstreamConfig} {lengths : Str → Nat} {c c' : System} {l : Label} {stages : Tid → Option (Str × Stage)} {t : Tid}
  {request : Request}

/-- One request has moved. -/
theorem Flight.put (h : Flight cfg lengths c stages) {p : Net Answered} {s : Shared} {stage : Stage}
    (hp : p.Obeys (protocol cfg (lengths request.fileHash) request) (fun _ _ => True) stage)
    (hs : Held s.registries s.negotiation (Function.update stages t (some (request.fileHash, stage)))) :
    Flight cfg lengths (c.put t request p s) (Function.update stages t (some (request.fileHash, stage))) where
  tasks t' request' p' ht' := by
    rcases update_cases ht' with ⟨rfl, he⟩ | ⟨hne, ht'⟩
    · cases he
      exact ⟨stage, Function.update_self .., hp⟩
    · rw [Function.update_of_ne hne]
      exact h.tasks t' request' p' ht'
  ended t' ht' := by
    by_cases hne : t' = t
    · simp only [System.put, hne, Function.update_self] at ht'
      nomatch ht'
    · rw [Function.update_of_ne hne]
      exact h.ended t' ((Function.update_of_ne hne ..).symm.trans ht')
  held := hs

/-- A request arrives. -/
theorem Flight.arrive (h : Flight cfg lengths c stages) (request : Request) (ht : c.tasks t = none) :
    Flight cfg lengths (c.put t request (request.body cfg) c.shared)
      (Function.update stages t (some (request.fileHash, .arriving))) := by
  refine h.put (body_obeys cfg _ request) (h.held.move ?_ nofun nofun)
  rw [h.held.holds t, h.ended t ht]
  rfl

/-- A request goes on. -/
theorem Flight.call (h : Flight cfg lengths c stages) {outside : Outside} (hs : c.call t outside = some (l, c'))
    (hok : Coordinated cfg lengths c l) : ∃ stages', Flight cfg lengths c' stages' := by
  unfold System.call at hs
  split at hs
  · next request r k ht =>
    obtain ⟨⟨x, s⟩, hx, he⟩ := Option.map_eq_some_iff.1 hs
    cases he
    obtain ⟨stage, hstage, hmay, hk⟩ := h.tasks t request _ ht
    exact ⟨_, h.put (hk x (hok.2 request _ ht)) (h.held.exec hstage hmay hok.1 hx)⟩
  · nomatch hs

/-- What a request holds when it ends is dropped. -/
theorem Flight.stop (h : Flight cfg lengths c stages) (t : Tid) : Flight cfg lengths (c.erase t) (Function.update stages t none) where
  tasks t' request' p' ht' := by
    rcases update_cases ht' with ⟨_, he⟩ | ⟨hne, ht'⟩
    · nomatch he
    · rw [Function.update_of_ne hne]
      exact h.tasks t' request' p' ht'
  ended t' ht' := by
    by_cases hne : t' = t
    · subst hne
      exact Function.update_self ..
    · rw [Function.update_of_ne hne]
      exact h.ended t' ((Function.update_of_ne hne ..).symm.trans ht')
  held := h.held.release t

/-- Every step that meets the condition keeps what holds of the system. -/
theorem Flight.moves (h : Flight cfg lengths c stages) (hok : Coordinated cfg lengths c l) (hs : Moves cfg c l c') :
    ∃ stages', Flight cfg lengths c' stages' := by
  cases hs with
  | arrive request ht => exact ⟨_, h.arrive request ht⟩
  | call outside hs => exact h.call hs hok
  | stop => exact ⟨_, h.stop _⟩
  | negotiation hs hfree => exact ⟨stages, h.tasks, h.ended, h.held.settle hs hfree⟩
  | download hs => exact ⟨stages, h.tasks, h.ended, h.held.settleDownload hs⟩
  | write => exact ⟨stages, h.tasks, h.ended, h.held⟩

/-- What holds of the system holds in every run whose steps meet the condition. -/
theorem flight_of_runs (h : Runs cfg (Coordinated cfg lengths) c) : ∃ stages, Flight cfg lengths c stages := by
  induction h with
  | init =>
    refine ⟨fun _ => none, fun _ _ _ ht => (nomatch ht), fun _ _ => rfl, sound_empty, fun _ => rfl, fun _ _ _ ht => (nomatch ht),
      fun _ _ _ _ ht => (nomatch ht), fun _ _ _ _ ht => (nomatch ht), fun _ _ _ ht => (nomatch ht)⟩
  | step _ hok hs ih =>
    obtain ⟨stages, h⟩ := ih
    exact h.moves hok hs

end

/-- When every response is agreeable and no request becomes the leader for a blob that is being downloaded, no request asks a server for
all bytes of a blob that is being downloaded, or registers another download of it. -/
theorem single_flight {cfg : UpstreamConfig} {lengths : Str → Nat} {c c' : System} {l : Label} (h : Runs cfg (Coordinated cfg lengths) c)
    (hs : Moves cfg c l c') {t : Tid} {request : Request} {p : Net Answered} (ht : c.tasks t = some (request, p)) :
    (∀ client method url headers sent, l = .called t (.send client method url headers) sent →
      asksForAll (lengths request.fileHash) headers = true → ¬ c.shared.registries.Downloading request.fileHash) ∧
    ∀ fileHash contentType totalLen prepared, l = .called t (.prepare fileHash contentType totalLen) prepared →
      fileHash = request.fileHash ∧ ¬ c.shared.registries.Downloading request.fileHash := by
  obtain ⟨stages, hf⟩ := flight_of_runs h
  obtain ⟨stage, hstage, hp⟩ := hf.tasks t request p ht
  -- A request is called for what it awaits.
  have hcalled : ∀ r x, l = .called t r x → stage.may (lengths request.fileHash) request r := by
    rintro r x rfl
    cases hs with
    | call outside hs =>
      unfold System.call at hs
      split at hs
      · next request' r' k ht' =>
        obtain ⟨⟨x', s⟩, _, he⟩ := Option.map_eq_some_iff.1 hs
        cases he
        cases ht.symm.trans ht'
        exact hp.1
      · nomatch hs
  constructor
  · rintro client method url headers sent hl hall
    rcases hcalled _ _ hl with ⟨id, rfl⟩ | hpart
    · exact hf.held.idle t _ _ hstage rfl
    · nomatch hall.symm.trans hpart
  · rintro fileHash contentType totalLen prepared hl
    obtain ⟨hkey, id, rfl⟩ := hcalled _ _ hl
    exact ⟨hkey, hf.held.idle t _ _ hstage rfl⟩

/-! ## Two requests -/

/-- A proxy for one server. -/
def proxy : UpstreamConfig :=
  { oneServer with maxSizeBytes := 8 }

/-- The server of the proxy has the blob, and may say how long it is. -/
def helpful (contentLength : Option Nat) : Outside where
  lookup := .ok [⟨.v4 (.replicate 4 8), 443⟩]
  built := .ok ()
  sent := ⟨[], [], .ok ⟨200, [], contentLength⟩⟩
  servers := .ok []
  timesOut := false
  succeeds := true

/-- A `GET` without a range. -/
def plainGet : Request :=
  ⟨1, ['x'], [], false, none, none, none, rfl⟩

/-- A `GET` whose range is the whole blob. -/
def rangeGet : Request :=
  ⟨1, ['x'], [("range".toList, "bytes=0-".toList)], false, none, none, none, rfl⟩

section

variable {cfg : UpstreamConfig} {ok : System → Label → Prop} {c c' : System} {l : Label}

/-- A run goes on with a request that arrives. -/
theorem Runs.arrive (h : Runs cfg ok c) (t : Tid) (request : Request) (ht : c.tasks t = none) (hok : ok c (.arrived t request)) :
    Runs cfg ok (c.put t request (request.body cfg) c.shared) :=
  .step h hok (.arrive request ht)

/-- A run goes on with what a request awaits. -/
theorem Runs.call (h : Runs cfg ok c) (t : Tid) (outside : Outside) (hs : c.call t outside = some (l, c'))
    (hok : ok c l) : Runs cfg ok c' :=
  .step h hok (.call outside hs)

/-- A blob whose handle does not say that it runs is not being downloaded. -/
theorem not_downloading {st : Registries} {key : Str} {id : HandleId} (hl : st.ongoingDownloads.entries.lookup key = some id)
    (hp : st.ongoingDownloads.phase id ≠ .running) : ¬ st.Downloading key := by
  rintro ⟨id', hl', hp'⟩
  obtain rfl : id = id' := Option.some.inj (hl.symm.trans hl')
  exact hp hp'

/-- What a `GET` without a range awaits is agreeable when the outside is. -/
theorem coordinated_of_plainGet {t : Tid} {p : Net Answered} (ht : c.tasks t = some (plainGet, p)) {r : NetReq} {x : NetResp r}
    (hclaim : Coordinates c.shared.registries r x) (hagree : Agreeable proxy 3 plainGet r x) :
    Coordinated proxy (fun _ => 3) c (.called t r x) := by
  refine ⟨hclaim, fun request p' ht' => ?_⟩
  cases ht.symm.trans ht'
  exact hagree

end

/-- A leader is dropped after it has registered its download. The next one asks a server for the blob while the download is still in its
table, where it says that it failed. -/
theorem single_flight_failed :
    ∃ c c' client method url headers sent, Runs proxy (Coordinated proxy fun _ => 3) c ∧
      c.shared.registries.ongoingDownloads.entries.lookup ['x'] = some 0 ∧
        Moves proxy c (.called 1 (.send client method url headers) sent) c' ∧
      asksForAll 3 headers = true ∧ ¬ c.shared.registries.Downloading ['x'] := by
  have h₀ : Runs proxy (Coordinated proxy fun _ => 3) _ := .init
  have h₁ := (h₀.arrive 0 plainGet rfl trivial).arrive 1 plainGet rfl trivial
  have h₂ := h₁.call 0 (helpful none) rfl (coordinated_of_plainGet rfl trivial trivial)
  have h₃ := h₂.call 1 (helpful none) rfl (coordinated_of_plainGet rfl trivial trivial)
  -- request 0 claims, validates the server, asks it and registers a download
  have h₄ := h₃.call 0 (helpful none) rfl (coordinated_of_plainGet rfl (fun ⟨_, hl, _⟩ => nomatch hl) trivial)
  have h₅ := h₄.call 0 (helpful none) rfl (coordinated_of_plainGet rfl trivial trivial)
  have h₆ := h₅.call 0 (helpful none) rfl (coordinated_of_plainGet rfl trivial fun hall => nomatch hall.range)
  have h₇ := h₆.call 0 (helpful none) rfl (coordinated_of_plainGet rfl trivial trivial)
  have h₈ := h₇.step (l := .ended 0) trivial (.stop rfl)
  -- request 1 claims and validates the server
  have h₉ := h₈.call 1 (helpful none) rfl (coordinated_of_plainGet rfl (@not_downloading _ _ 0 rfl nofun) trivial)
  have h₁₀ := h₉.call 1 (helpful none) rfl (coordinated_of_plainGet rfl trivial trivial)
  refine ⟨_, _, _, _, _, _, _, h₁₀, rfl, @Moves.call _ _ 1 _ _ (helpful none) rfl, rfl, ?_⟩
  exact (@single_flight _ _ _ _ _ h₁₀ (@Moves.call _ _ 1 _ _ (helpful none) rfl) 1 plainGet _ rfl).1 _ _ _ _ _ rfl rfl

/-- A request that looked before a download was registered, and claims after its negotiation was withdrawn, asks a server for all bytes
while another request downloads them, and registers a second download. -/
theorem leads_late :
    ∃ c c' c'' client method url headers sent contentType totalLen prepared, Runs proxy Patient c ∧
      c.shared.registries.Downloading ['x'] ∧ c.shared.registries.ongoingDownloads.entries.lookup ['x'] = some 0 ∧
      Moves proxy c (.called 1 (.send client method url headers) sent) c' ∧ asksForAll 3 headers = true ∧
      c'.shared.registries.Downloading ['x'] ∧ Moves proxy c' (.called 1 (.prepare ['x'] contentType totalLen) prepared) c'' ∧
      c''.shared.registries.ongoingDownloads.entries.lookup ['x'] = some 1 := by
  have h₀ : Runs proxy Patient _ := .init
  have h₁ := (h₀.arrive 0 plainGet rfl trivial).arrive 1 plainGet rfl trivial
  have h₂ := (h₁.call 0 (helpful (some 3)) rfl trivial).call 1 (helpful (some 3)) rfl trivial
  -- request 0 claims, validates the server and asks it
  have h₃ := ((h₂.call 0 (helpful (some 3)) rfl trivial).call 0 (helpful (some 3)) rfl trivial).call 0 (helpful (some 3)) rfl trivial
  -- it registers a download, opens and follows it, and has its response
  have h₄ := ((h₃.call 0 (helpful (some 3)) rfl trivial).call 0 (helpful (some 3)) rfl trivial).call 0 (helpful (some 3)) rfl trivial
  -- it finishes its negotiation and lets the download go on
  have h₅ := (h₄.call 0 (helpful (some 3)) rfl trivial).call 0 (helpful (some 3)) rfl trivial
  have h₆ := h₅.step (l := .settled) trivial (.negotiation (@Handles.Step.endFinish _ _ _ _ _ 0 _ ['x'] rfl) fun t => by cases t <;> nofun)
  have h₇ := h₆.call 0 (helpful (some 3)) rfl trivial
  -- request 1 claims and validates the server
  have h₈ := (h₇.call 1 (helpful (some 3)) rfl trivial).call 1 (helpful (some 3)) rfl trivial
  exact ⟨_, _, _, _, _, _, _, _, _, _, _, h₈, ⟨0, rfl, rfl⟩, rfl, @Moves.call _ _ 1 _ _ (helpful (some 3)) rfl, rfl, ⟨0, rfl, rfl⟩,
    @Moves.call _ _ 1 _ _ (helpful (some 3)) rfl, rfl⟩

/-- A request whose range is the whole blob finds a download of unknown length, and asks a server for that range while the blob is being
downloaded. -/
theorem proxies_all :
    ∃ c c' client method url headers sent, Runs proxy Patient c ∧ c.shared.registries.Downloading ['x'] ∧
      Moves proxy c (.called 1 (.send client method url headers) sent) c' ∧ asksForAll 3 headers = true := by
  have h₀ : Runs proxy Patient _ := .init
  -- request 0 looks, claims, validates the server, asks it and registers a download
  have h₁ := ((h₀.arrive 0 plainGet rfl trivial).call 0 (helpful none) rfl trivial).call 0 (helpful none) rfl trivial
  have h₂ := ((h₁.call 0 (helpful none) rfl trivial).call 0 (helpful none) rfl trivial).call 0 (helpful none) rfl trivial
  -- request 1 finds it, and validates the server
  have h₃ := ((h₂.arrive 1 rangeGet rfl trivial).call 1 (helpful none) rfl trivial).call 1 (helpful none) rfl trivial
  exact ⟨_, _, _, _, _, _, _, h₃, ⟨0, rfl, rfl⟩, @Moves.call _ _ 1 _ _ (helpful none) rfl, rfl⟩

/-- The claim is wrong: while a blob is being downloaded, a late leader asks for all bytes and registers a second download, and a range of
all bytes that cannot be served from the download is asked for as well. -/
theorem single_flight_false :
    (∃ c c' c'' client method url headers sent contentType totalLen prepared, Runs proxy Patient c ∧
      c.shared.registries.Downloading ['x'] ∧ c.shared.registries.ongoingDownloads.entries.lookup ['x'] = some 0 ∧
      Moves proxy c (.called 1 (.send client method url headers) sent) c' ∧ asksForAll 3 headers = true ∧
      c'.shared.registries.Downloading ['x'] ∧ Moves proxy c' (.called 1 (.prepare ['x'] contentType totalLen) prepared) c'' ∧
      c''.shared.registries.ongoingDownloads.entries.lookup ['x'] = some 1) ∧
    ∃ c c' client method url headers sent, Runs proxy Patient c ∧ c.shared.registries.Downloading ['x'] ∧
      Moves proxy c (.called 1 (.send client method url headers) sent) c' ∧ asksForAll 3 headers = true :=
  ⟨leads_late, proxies_all⟩

end Almond.SingleFlight
