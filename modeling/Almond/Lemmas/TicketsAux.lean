import Almond.Lemmas.HandlersAux
import Almond.Lemmas.MaintenanceAux
import Almond.Registry

/-! # The tickets of the running requests

A request holds at most one ticket, from the reservation that grants it to the release or the commit that takes it back. -/

namespace Almond

open Conc Handlers

namespace Registry

/-- Every operation keeps the tickets counted. -/
theorem counted_exec {limits : SessionLimits} {g : Registry} {t : Tid} (now : Nat) {r : SessionReq}
    (hc : g.state.Counted g.tickets) (ht : g.holdsTicket t r) :
    (g.exec limits t now r).state.Counted (g.exec limits t now r).tickets := by
  cases r with
  | reserve key =>
    simp only [exec, SessionReq.exec]
    rcases hres : g.state.reserve limits key with ⟨outcome, st⟩
    have h := hc.reserve limits t key
    rw [hres] at h
    obtain ⟨ho, h⟩ | ⟨ho, h⟩ := h
    · cases ho
      exact h
    · cases h
      cases outcome with
      | granted => exact absurd rfl ho
      | globalLimit => exact hc
      | perPubkeyLimit => exact hc
  | release key => exact hc.consume ht
  | commit key params chunk =>
    intro k
    have h := hc.consume ht k
    rwa [← SessionState.commit_pending g.state key params chunk now] at h
  | restore key upload =>
    intro k
    have h := hc k
    rcases g.state.restore_cases key upload with hr | ⟨_, _, hr⟩ <;> simpa only [exec, SessionReq.exec, hr] using h
  | evictOlderThan age => exact hc

end Registry

/-- The registry of a running server. -/
def AppState.registry (s : AppState) : Registry :=
  ⟨s.sessions, s.tickets⟩

/-- Whether an operation is a chunk of an upload. -/
def Op.isPatch : Op → Bool
  | .patch _ _ => true
  | _ => false

namespace Tickets

/-! ## The protocol of a request -/

/-- The requests of a task that holds a ticket, or none: only a chunk reserves, while it holds none, and only the ticket that is held
is given back. -/
def May (layout : StorageLayout) (isPatch : Bool) (held : Option ChunkUploadKey) (r : Req) : Prop :=
  r.KeepsWellFormed layout ∧
    match r with
    | .sessions (.reserve _) => isPatch = true ∧ held = none
    | .sessions (.release key) | .sessions (.commit key _ _) => held = some key
    | _ => True

/-- The ticket that is held after a response. -/
def after (held : Option ChunkUploadKey) : (r : Req) → Resp r → Option ChunkUploadKey
  | .sessions (.reserve key), .granted => some key
  | .sessions (.release _), _ => none
  | .sessions (.commit _ _ _), _ => none
  | _, _ => held

/-- The protocol of a task that takes tickets and gives them back. -/
abbrev protocol (layout : StorageLayout) (isPatch : Bool) : Protocol Req Resp Str (Option ChunkUploadKey × Option Str) :=
  .tracking (Req.Foresees layout) (May layout isPatch) after

section

variable {cfg : Config} {isPatch : Bool} {held : Option ChunkUploadKey} {α γ : Type}

/-- A request that settles can always be issued, and changes no ticket. -/
theorem may_of_settles (isPatch : Bool) (held : Option ChunkUploadKey) {layout : StorageLayout} {r : Req} (h : r.Settles layout) :
    May layout isPatch held r ∧ ∀ x, after held r x = held := by
  refine ⟨⟨h.receives.keepsWellFormed, ?_⟩, fun x => ?_⟩
  all_goals
    cases r with
    | sessions r => cases r <;> first | exact h.elim | exact trivial | rfl
    | _ => first | exact trivial | rfl

/-- A request that does not reach the registry can always be issued, and changes no ticket. -/
theorem may_of_not_registers {layout : StorageLayout} {r : Req} (h : ¬ r.registers) :
    May layout isPatch held r ∧ ∀ x, after held r x = held := by
  refine ⟨⟨keepsWellFormed_of_not_registers h, ?_⟩, fun x => ?_⟩
  all_goals
    cases r with
    | sessions r => exact absurd trivial h
    | _ => first | exact trivial | rfl

/-- A task that is put together from what settles, and from parts that do not reach the registry, keeps its ticket. -/
theorem obeys_of_settles {S : Async γ → Prop} {R : α → Prop} {p : Async α}
    (hp : p.Built (Req.Foresees cfg.storage) (Req.Settles cfg.storage) S R)
    (hS : ∀ s, S s → s.Issues fun r => ¬ r.registers) :
    p.Obeys (protocol cfg.storage isPatch) (fun q a => q = (held, none) ∧ R a) (held, none) := by
  refine hp.obeys (fun _ _ => id) (fun r hr => ?_) fun s hs => ?_
  · obtain ⟨hm, ha⟩ := may_of_settles isPatch held hr
    exact ⟨hm, fun x _ => Prod.ext (ha x) rfl⟩
  · exact (hS s hs).obeys fun r hr => may_of_not_registers hr

/-- The publication of a blob does not reach the registry. -/
theorem publishesBlob_issues {target : Str → Prop} {s : Async (AppResult FileStorage.StoredBlob)}
    (hs : PublishesBlob cfg target s) : s.Issues fun r => ¬ r.registers := by
  obtain ⟨temp, publication, _, _, rfl⟩ := hs
  exact (FileStorage.publishBlob_issues cfg temp publication).mono fun _ h => h.2

/-- A part of a handler that leaves the reservations alone keeps its ticket. -/
theorem obeys_settles (target : Str → Prop) {R : α → Prop} {p : Async α} (hp : Task.Settles cfg target R p) :
    p.Obeys (protocol cfg.storage isPatch) (fun q a => q = (held, none) ∧ R a) (held, none) :=
  obeys_of_settles hp fun _ => publishesBlob_issues

/-- A chunk is received under its ticket, which is given back when that fails. -/
theorem receiveChunk_obeys (body : Body) (key : ChunkUploadKey) (chunk : ChunkHeaders) :
    (receiveChunk cfg body key chunk).run.Obeys (protocol cfg.storage isPatch)
      (fun q x => match x with
        | .ok p => q = (some key, none) ∧ ChunkFile cfg.storage p
        | .error _ => q = (none, none)) (some key, none) := by
  refine Task.Obeys.lift_bind (p := (storeChunk cfg body chunk).run)
    (obeys_settles (fun _ => True) (storeChunk_publishes body chunk).settles) fun q x hx => ?_
  obtain ⟨rfl, hp⟩ := hx
  cases x with
  | ok p => exact ⟨rfl, hp p rfl⟩
  | error e => exact ⟨⟨trivial, rfl⟩, fun _ _ => rfl⟩

/-- A chunk gives its ticket back on every path. -/
theorem patchUpload_obeys (headers : Headers) (body : Body) :
    (patchUpload cfg headers body).run.Obeys (protocol cfg.storage true) (fun q _ => q = (none, none)) (none, none) := by
  have hsettles : ∀ {β : Type} {R : AppResult β → Prop} {p : AsyncResult β} {f : β → AsyncResult Response},
      Task.Publishes cfg (fun _ => True) R p.run →
      (∀ b, R (.ok b) → (f b).run.Obeys (protocol cfg.storage true) (fun q _ => q = (none, none)) (none, none)) →
      (p >>= f).run.Obeys (protocol cfg.storage true) (fun q _ => q = (none, none)) (none, none) := by
    intro β R p f hp hf
    refine Task.Obeys.run_bind (obeys_settles _ hp.settles) (fun _ _ h => h.1) fun q b h => ?_
    obtain ⟨rfl, hb⟩ := h
    exact hf b hb
  unfold patchUpload
  refine hsettles (publishes_ofResult_eq _) fun chunk hc => ?_
  obtain ⟨_, hpos, hin, hlen⟩ := readChunkHeaders_spec hc.symm
  refine hsettles (authorize_publishes headers .chunkUpload) fun authorized _ => ?_
  refine hsettles (bind_publishes authorized chunk.sha256) fun _ _ => ?_
  refine hsettles (ensureNotQuarantined_publishes chunk.sha256) fun _ _ => ?_
  refine hsettles (extractExpiration_publishes headers) fun expiration _ => ?_
  refine ⟨⟨trivial, rfl, rfl⟩, fun reservation _ => ?_⟩
  cases reservation with
  | globalLimit => exact rfl
  | perPubkeyLimit => exact rfl
  | granted =>
    refine Task.Obeys.run_bind (receiveChunk_obeys body _ chunk) (fun _ _ => id) fun q chunkPath h => ?_
    obtain ⟨rfl, hp⟩ := h
    refine ⟨⟨⟨⟨hp, hpos, hin⟩, hlen⟩, rfl⟩, fun committed hu => ?_⟩
    -- Every outcome of the commit consumed the ticket.
    have hdiscard : (do
        let _ ← fs (.removeFile chunkPath)
        throw (.conflict "Chunk conflicts with an existing session") : AsyncResult Response).run.Obeys
          (protocol cfg.storage true) (fun q _ => q = (none, none)) (none, none) :=
      ⟨⟨trivial, trivial⟩, fun _ _ => rfl⟩
    cases committed with
    | incomplete => exact rfl
    | overlap => exact hdiscard
    | paramMismatch => exact hdiscard
    | complete upload =>
      exact (obeys_settles (fun _ => True) (finishUpload_settles headers _ chunk hp.scratch hu.1.toWellFormed trivial)).mono
        fun _ _ h => h.1

end

/-- Every program gives its tickets back. -/
theorem program_obeys {cfg : Config} (op : Op) :
    (program cfg op).Obeys (protocol cfg.storage op.isPatch) (fun q _ => q = (none, none)) (none, none) := by
  cases hm : op.maintains with
  | true => exact (program_maintains hm).obeys fun r hr => may_of_not_registers hr.not_registers
  | false =>
    rcases Op.cases_of_not_maintains hm with hg | hu | rfl
    · obtain ⟨headers, head, filename, rfl⟩ := exists_get_of_isGet hg
      refine (obeys_of_settles ((program_discovers headers head filename).widen fun _ => Req.Prepares.settles) ?_).mono
        fun _ _ h => h.1
      rintro _ ⟨sha256, _, m, _, rfl⟩
      exact (FileStorage.publishExistingMetadata_issues cfg sha256 m).mono fun _ h => h.2
    · cases hc : op.isChunked with
      | false => exact (obeys_settles _ (program_publishes hu hc).settles).mono fun _ _ h => h.1
      | true =>
        cases op with
        | patch headers body => exact (patchUpload_obeys headers body).bind fun _ _ h => h
        | cleanupAbandonedChunks => nomatch hu
        | _ => nomatch hc
    · refine (obeys_settles (fun _ => False) (R := fun _ => True) (p := program cfg .cleanupAbandonedChunks) ?_).mono
        fun _ _ h => h.1
      exact cleanupAbandonedChunks_settles.bind fun _ _ => .ret trivial

/-! ## The discipline of the requests -/

/-- Who may issue a request: a request gives back only a ticket that it has, and only a chunk reserves. -/
def Allowed (w : World Str AppState) (t : Tid) (op : Op) : Req → Prop
  | .sessions r => w.store.registry.holdsTicket t r ∧ ∀ key, r = .reserve key → op.isPatch = true
  | _ => True

/-- The discipline of all tasks: the registry counts their tickets, and no task moves the tickets of another one. -/
def discipline (cfg : Config) : Discipline Req Str AppState Op where
  inv w := w.store.sessions.Each (fun _ upload => upload.WellFormed cfg.storage) ∧
    w.store.sessions.Counted w.store.tickets ∧ ∀ x ∈ w.store.tickets, x.1 < w.next
  rely t w w' := ∀ key, w'.store.tickets.count (t, key) = w.store.tickets.count (t, key)
  assume _ _ _ _ := True
  allow w t op r := r.KeepsWellFormed cfg.storage ∧ Allowed w t op r
  ops _ := True
  drops w t _ := ∀ key, (t, key) ∉ w.store.tickets
  crashes := True

/-- The tickets of a task are the one that it holds. -/
def Holds (t : Tid) (held : Option ChunkUploadKey) (s : AppState) : Prop :=
  ∀ key, s.tickets.count (t, key) = if held = some key then 1 else 0

/-- A task that holds no ticket has none. -/
theorem Holds.not_mem {t : Tid} {s : AppState} (h : Holds t none s) (key : ChunkUploadKey) : (t, key) ∉ s.tickets :=
  List.count_eq_zero.1 ((h key).trans (if_neg nofun))

/-- A task that holds a ticket has it. -/
theorem Holds.mem {t : Tid} {s : AppState} {key : ChunkUploadKey} (h : Holds t (some key) s) : (t, key) ∈ s.tickets :=
  List.count_pos_iff.1 (by rw [h key, if_pos rfl]; exact Nat.one_pos)

section

variable {cfg : Config} {t : Tid} {e : Env} {s : AppState}

/-- Where the tickets after a request come from. -/
theorem tickets_exec (cfg : Config) (t : Tid) (e : Env) (s : AppState) (r : Req) :
    (exec cfg t r e s).2.tickets = s.tickets ∨
      (∃ key, r = .sessions (.reserve key) ∧ (exec cfg t r e s).2.tickets = (t, key) :: s.tickets) ∨
      ∃ key, (exec cfg t r e s).2.tickets = s.tickets.erase (t, key) := by
  cases r with
  | sessions r =>
    cases r with
    | reserve key =>
      simp only [exec, SessionReq.exec]
      rcases s.sessions.reserve cfg.sessionLimits key with ⟨_ | _ | _, st⟩
      · exact .inr (.inl ⟨key, rfl, rfl⟩)
      · exact .inl rfl
      · exact .inl rfl
    | release key => exact .inr (.inr ⟨key, rfl⟩)
    | commit key params chunk => exact .inr (.inr ⟨key, rfl⟩)
    | restore key upload => exact .inl rfl
    | evictOlderThan age => exact .inl rfl
  | receiveToken token =>
    refine .inl ?_
    simp only [exec]
    split <;> rfl
  | dropTemp p =>
    refine .inl ?_
    simp only [exec]
    split <;> rfl
  | _ => exact .inl rfl

/-- A request moves no ticket of another task. -/
theorem count_exec {t' : Tid} (ht : t' ≠ t) (r : Req) (key : ChunkUploadKey) :
    (exec cfg t r e s).2.tickets.count (t', key) = s.tickets.count (t', key) := by
  have hne : ∀ k : ChunkUploadKey, (t, k) ≠ (t', key) := fun k h => ht (congrArg Prod.fst h).symm
  obtain h | ⟨k, _, h⟩ | ⟨k, h⟩ := tickets_exec cfg t e s r
  · rw [h]
  · rw [h, List.count_cons_of_ne (hne k)]
  · rw [h, List.count_erase_of_ne (hne k).symm]

/-- What a task holds follows its protocol. -/
theorem Holds.exec {layout : StorageLayout} {isPatch : Bool} {held : Option ChunkUploadKey} {r : Req} (h : Holds t held s)
    (hm : May layout isPatch held r) :
    Holds t (after held r (exec cfg t r e s).1) (exec cfg t r e s).2 := by
  have hback : ∀ key, held = some key → ∀ k, (s.tickets.erase (t, key)).count (t, k) = if none = some k then 1 else 0 := by
    rintro key rfl k
    rw [if_neg nofun]
    by_cases hk : k = key
    · subst hk
      rw [List.count_erase_self, h k, if_pos rfl]
    · rw [List.count_erase_of_ne fun he => hk (congrArg Prod.snd he), h k, if_neg fun he => hk (Option.some.inj he).symm]
  cases r with
  | sessions r =>
    cases r with
    | reserve key =>
      obtain ⟨_, _, rfl⟩ := hm
      simp only [Almond.exec, SessionReq.exec]
      rcases s.sessions.reserve cfg.sessionLimits key with ⟨_ | _ | _, st⟩
      · intro k
        show ((t, key) :: s.tickets).count (t, k) = if some key = some k then 1 else 0
        rw [List.count_cons, h k, if_neg nofun, Nat.zero_add]
        simp only [beq_iff_eq, Prod.mk.injEq, true_and, Option.some.injEq]
      · exact h
      · exact h
    | release key => exact hback key hm.2
    | commit key params chunk => exact hback key hm.2
    | restore key upload => exact h
    | evictOlderThan age => exact h
  | receiveToken token =>
    intro k
    have := h k
    simp only [Almond.exec]
    split <;> exact this
  | dropTemp p =>
    intro k
    have := h k
    simp only [Almond.exec]
    split <;> exact this
  | _ => exact h

end

variable {cfg : Config} {t : Tid} {op : Op} {w : World Str AppState}

/-- A task that follows its protocol may issue its requests. -/
theorem allow_of_may {held : Option ChunkUploadKey} {r : Req} (hm : May cfg.storage op.isPatch held r)
    (h : Holds t held w.store) : (discipline cfg).allow w t op r := by
  refine ⟨hm.1, ?_⟩
  cases r with
  | sessions r =>
    cases r with
    | reserve key => exact ⟨trivial, fun _ _ => hm.2.1⟩
    | release key =>
      have hheld : held = some key := hm.2
      subst hheld
      exact ⟨h.mem, fun _ => nofun⟩
    | commit key params chunk =>
      have hheld : held = some key := hm.2
      subst hheld
      exact ⟨h.mem, fun _ => nofun⟩
    | restore key upload => exact ⟨trivial, fun _ => nofun⟩
    | evictOlderThan age => exact ⟨trivial, fun _ => nofun⟩
  | _ => exact trivial

/-- A request that is allowed keeps the invariant. -/
theorem inv_of_call {r : Req} {e : Env} (hi : (discipline cfg).inv w) (ht : t < w.next) (hal : (discipline cfg).allow w t op r) :
    (discipline cfg).inv (w.setStore (exec cfg t r e w.store).2) := by
  refine ⟨(wellFormed_exec hi.1 hal.1).1, ?_, fun x hx => ?_⟩
  · cases r with
    | sessions r => exact Registry.counted_exec (g := w.store.registry) w.store.clock.instant hi.2.1 hal.2.1
    | receiveToken token =>
      simp only [exec, World.setStore_store]
      split <;> exact hi.2.1
    | dropTemp p =>
      simp only [exec, World.setStore_store]
      split <;> exact hi.2.1
    | _ => exact hi.2.1
  · rw [World.setStore_store] at hx
    obtain h | ⟨key, _, h⟩ | ⟨key, h⟩ := tickets_exec cfg t e w.store r <;> rw [h] at hx
    · exact hi.2.2 x hx
    · rcases List.mem_cons.1 hx with rfl | hx
      · exact ht
      · exact hi.2.2 x hx
    · exact hi.2.2 x (List.mem_of_mem_erase hx)

/-- Every program, from a world in which it has no ticket. -/
theorem wp_program (h : Holds t none w.store) :
    wp (machine cfg) (discipline cfg) t op (program cfg op) (fun _ w => ∀ key, (t, key) ∉ w.store.tickets) w := by
  refine wp_mono ?_ ((program_obeys op).wp_tracking (F := Holds t) ?_ ?_ h nofun)
  · rintro a w' ⟨held, l, h, hq⟩
    cases hq
    exact h.not_mem
  · exact fun held w w' hr _ h key => (hr.2 key).trans (h key)
  · exact fun held w r hm hi h _ => ⟨allow_of_may hm h, fun e _ => ⟨(wellFormed_exec hi.1 hm.1).2, h.exec hm⟩⟩

/-- A task that is new has no ticket. -/
theorem holds_next (hi : (discipline cfg).inv w) : Holds w.next none w.store := by
  intro key
  rw [if_neg nofun]
  exact List.count_eq_zero.2 fun hm => absurd (hi.2.2 _ hm) (Nat.lt_irrefl _)

/-- The server keeps the discipline. -/
theorem fits (cfg : Config) :
    Fits (machine cfg) (discipline cfg) fun t _ _ w => ∀ key, (t, key) ∉ w.store.tickets where
  rely_refl _ _ _ := rfl
  rely_trans _ _ _ _ h h' key := (h' key).trans (h.2 key)
  post_stable t _ _ w w' hr _ h key hm := h key (List.count_pos_iff.1 (hr.2 key ▸ List.count_pos_iff.2 hm))
  call w t op r e hi ht _ hal := ⟨inv_of_call hi ht hal, fun t' ht' => count_exec ht' r⟩
  take _ _ _ hi _ _ := ⟨hi, fun _ _ _ => rfl⟩
  give _ _ _ hi _ _ := ⟨hi, fun _ _ _ => rfl⟩
  drop w t _ hi hd := by
    have hkeep : (discard t w.store).tickets = w.store.tickets :=
      List.filter_eq_self.2 fun x hx => decide_eq_true fun h => hd x.2 (h ▸ hx)
    refine ⟨⟨hi.1, ?_, fun x hx => hi.2.2 x (hkeep ▸ hx)⟩, fun t' _ key => congrArg _ hkeep⟩
    show w.store.sessions.Counted (discard t w.store).tickets
    rw [hkeep]
    exact hi.2.1
  tick _ _ hi := ⟨hi, fun _ _ => rfl⟩
  spawn w op hi _ _ := by
    refine ⟨⟨hi.1, hi.2.1, fun x hx => Nat.lt_succ_of_lt (hi.2.2 x hx)⟩, fun _ _ _ => rfl, ?_⟩
    have hnew : Holds w.next none w.allocate.store := holds_next hi
    exact wp_traced (wp_program hnew)
  crash w _ _ := by
    refine ⟨⟨SessionState.each_empty _, fun _ => rfl, nofun⟩, ?_⟩
    exact wp_traced (wp_program fun key => (if_neg nofun).symm)

end Tickets

end Almond
