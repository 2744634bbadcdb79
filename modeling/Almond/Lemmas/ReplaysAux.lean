import Almond.Lemmas.MaintenanceAux
import Almond.Lemmas.AuthAux
import Almond.Moderation

/-! # The replay guard over whole runs

An event that was consumed is remembered until somebody consumes another one later than the expiration that was recorded with it. -/

namespace Almond.Moderation

open Conc Authorization FileStorage

/-- What an operation consumes: the identifier of its event, and until when it is remembered. -/
def Op.Consumes (cfg : Config) : Op → Str → Nat → Prop
  | .boot, _, _ => False
  | .delete headers _, id, expiresAt =>
    ∃ event, eventOf cfg headers = some event ∧ id = event.id ∧ expirationOf event = some expiresAt
  | .report r, id, _ => id = r.id
  | .list _ _ _, _, _ => False

/-- A request that ends a blob. -/
def Removes : Req → Prop
  | .fs (.removeFile _) | .fs (.rename _ _) | .s3 (.deleteObject _) | .index (.removeIfLocationMatches _ _) => True
  | _ => False

/-- The event of a task was consumed for the first time. -/
def Passed (past : List (Task.Event Req Resp)) : Prop :=
  ∃ id expiresAt now, (⟨.consumeReplay id expiresAt now, false⟩ : Task.Event Req Resp) ∈ past

/-- What a task may request after its record: it consumes the event of its operation, and removes nothing before. -/
def May (cfg : Config) (op : Op) (past : List (Task.Event Req Resp)) : Req → Prop
  | .consumeReplay id expiresAt _ => op.Consumes cfg id expiresAt
  | r => op = .boot ∨ (Removes r → Passed past)

/-! ## What the programs consume -/

/-- A request that neither consumes an event nor removes a blob. -/
def Harmless : Req → Prop
  | .consumeReplay _ _ _ => False
  | r => ¬ Removes r

section

variable {cfg : Config} {op : Op} {α β ε : Type} {past : List (Task.Event Req Resp)}

/-- What was consumed stays consumed. -/
theorem Passed.mono {q : List (Task.Event Req Resp)} (h : Passed past) (hq : past <:+ q) : Passed q := by
  obtain ⟨id, expiresAt, now, hmem⟩ := h
  exact ⟨id, expiresAt, now, hq.subset hmem⟩

/-- A harmless request may always be made. -/
theorem may_of_harmless {r : Req} (h : Harmless r) : May cfg op past r := by
  cases r with
  | consumeReplay id expiresAt now => exact h.elim
  | _ => exact .inr fun hr => absurd hr h

/-- Maintenance may be made by a task whose event was consumed. -/
theorem may_of_maintains {r : Req} (h : r.Maintains cfg.storage) (hp : op = .boot ∨ Passed past) : May cfg op past r := by
  cases r with
  | consumeReplay id expiresAt now => exact h.elim
  | _ => exact hp.imp_right fun hp _ => hp

/-- The protocol of an operation. -/
abbrev Guarded (cfg : Config) (op : Op) : Protocol Req Resp Str (List (Task.Event Req Resp)) :=
  .recording (fun _ _ => True) (fun _ _ => True) (May cfg op)

/-- A task that obeys the protocol of its operation after a record. -/
abbrev Conforms (cfg : Config) (op : Op) (past : List (Task.Event Req Resp)) (p : Async α) : Prop :=
  p.Obeys (Guarded cfg op) (fun q _ => past <:+ q) past

/-- A harmless task conforms. -/
theorem conforms_of_issues {p : Async α} (h : p.Issues Harmless) : Conforms cfg op past p :=
  h.obeys_recording (fun _ _ _ => trivial) fun _ _ _ => may_of_harmless

/-- Maintenance conforms after the event was consumed. -/
theorem conforms_of_maintains {p : Async α} (h : p.Issues (Req.Maintains cfg.storage)) (hp : op = .boot ∨ Passed past) :
    Conforms cfg op past p :=
  h.obeys_recording (fun _ _ _ => trivial) fun _ _ hq hr => may_of_maintains hr (hp.imp_right fun hp => hp.mono hq)

/-- A handler that fails with the status code of an error obeys as it did. -/
theorem orStatus_obeys {A : Protocol Req Resp Str (List (Task.Event Req Resp))}
    {R : List (Task.Event Req Resp) → AppResult α → Prop} {S : List (Task.Event Req Resp) → Except Nat α → Prop} {p : AsyncResult α}
    (hp : p.run.Obeys A R past) (hS : ∀ q x, R q x → S q (x.mapError AppError.status)) : (orStatus p).run.Obeys A S past :=
  hp.bind fun q x h => hS q x h

/-- A handler that fails with one status code obeys as it did. -/
theorem orCode_obeys {A : Protocol Req Resp Str (List (Task.Event Req Resp))} {R : List (Task.Event Req Resp) → Except ε α → Prop}
    {S : List (Task.Event Req Resp) → Except Nat α → Prop} {status : Nat} {p : Async (Except ε α)} (hp : p.Obeys A R past)
    (hS : ∀ q x, R q x → S q (x.mapError fun _ => status)) : (orCode status p).run.Obeys A S past :=
  hp.bind fun q x h => hS q x h

/-- A handler that fails with one status code conforms. -/
theorem orCode_conforms {status : Nat} {p : Async (Except ε α)} (hp : Conforms cfg op past p) :
    Conforms cfg op past (orCode status p).run :=
  orCode_obeys hp fun _ _ h => h

/-- A sequence of handlers. -/
theorem conforms_bind {p : Handler α} {f : α → Handler β} (hp : Conforms cfg op past p.run)
    (hf : ∀ q a, past <:+ q → Conforms cfg op q (f a).run) : Conforms cfg op past (p >>= f).run := by
  refine Task.Obeys.run_bind hp (fun _ _ => id) fun q a hq => ?_
  exact (hf q a hq).mono fun _ _ => hq.trans

/-- A lifted task in a handler. -/
theorem conforms_lift_bind {p : Async α} {f : α → Handler β} (hp : Conforms cfg op past p)
    (hf : ∀ q a, past <:+ q → Conforms cfg op q (f a).run) :
    Conforms cfg op past ((liftM p : Handler α) >>= f).run := by
  refine Task.Obeys.lift_bind hp fun q a hq => ?_
  exact (hf q a hq).mono fun _ _ => hq.trans

/-- A lifted task. -/
theorem conforms_lift {p : Async α} (hp : Conforms cfg op past p) : Conforms cfg op past (liftM p : Handler α).run :=
  hp.bind fun _ _ h => h

/-- A check of a handler. -/
theorem conforms_unless {c : Prop} [Decidable c] {status : Nat} {f : β → Handler α} {p : Handler α}
    (hp : ¬ c → Conforms cfg op past p.run) : Conforms cfg op past (if c then throw status >>= f else p).run := by
  by_cases hc : c
  · rw [if_pos hc]
    exact List.suffix_refl past
  · rw [if_neg hc]
    exact hp hc

/-- Reading the clock conforms. -/
theorem nowSecs_conforms : Conforms cfg op past nowSecs :=
  conforms_of_issues (Task.Within.issues (fun _ => id) (Task.Uses.bind (uses_request id) fun _ => trivial))

/-- Consuming an event. -/
theorem consumeSingleUse_obeys {id : Str} {expiresAt : Nat} (h : op.Consumes cfg id expiresAt) :
    (consumeSingleUse id expiresAt).run.Obeys (Guarded cfg op) (fun q x => past <:+ q ∧ (x = .ok () → Passed q)) past := by
  have htime : May cfg op past .systemTime := .inr nofun
  refine ⟨htime, fun time _ => ⟨h, fun seen _ => ?_⟩⟩
  have hsuffix : past <:+ ⟨.consumeReplay id expiresAt (asSecs time), seen⟩ :: ⟨.systemTime, time⟩ :: past :=
    (List.suffix_cons ..).trans (List.suffix_cons ..)
  cases seen with
  | true => exact ⟨hsuffix, nofun⟩
  | false => exact ⟨hsuffix, fun _ => ⟨id, expiresAt, asSecs time, List.mem_cons_self⟩⟩

/-- An event is consumed, and then the rest of the handler runs. -/
theorem conforms_of_consumed {p : AsyncResult Unit} {f : Unit → Handler β}
    (hp : p.run.Obeys (Guarded cfg op) (fun q x => past <:+ q ∧ (x = .ok () → Passed q)) past)
    (hf : ∀ q a, Passed q → Conforms cfg op q (f a).run) : Conforms cfg op past (orStatus p >>= f).run := by
  refine Task.Obeys.run_bind (R := fun q x => past <:+ q ∧ (x = .ok () → Passed q)) (orStatus_obeys hp ?_) ?_ ?_
  · rintro q (_ | _) ⟨hq, hx⟩
    · exact ⟨hq, nofun⟩
    · exact ⟨hq, fun _ => hx rfl⟩
  · exact fun q _ h => h.1
  · exact fun q a h => (hf q a (h.2 rfl)).mono fun _ _ => h.1.trans

/-- A request to the authorization libraries is harmless. -/
theorem harmless_of_asks {r : Req} (h : r.Asks) : Harmless r := by
  cases r with
  | consumeReplay id expiresAt now => exact h.elim
  | fs r => exact h.elim
  | s3 r => exact h.elim
  | index r => exact h.elim
  | _ => exact id

/-- A deletion consumes its event before it removes the blob. -/
theorem deleteBlob_conforms (headers : Headers) (filename : Str) :
    Conforms cfg (.delete headers filename) past (deleteBlob cfg headers filename).run := by
  unfold deleteBlob
  refine conforms_unless fun _ => ?_
  refine Task.Obeys.run_bind (R := fun q x => past <:+ q ∧ ∀ authorized, x = .ok authorized →
      Cleared cfg headers .delete authorized q)
    (orStatus_obeys (authorize_obeys (fun _ _ h => may_of_harmless (harmless_of_asks h)) headers .delete past) ?_) ?_ ?_
  · rintro q (_ | authorized) ⟨hq, hx⟩
    · exact ⟨hq, nofun⟩
    · refine ⟨hq, ?_⟩
      rintro _ ⟨⟩
      exact hx authorized rfl
  · exact fun q _ h => h.1
  rintro q authorized ⟨hq, hcleared⟩
  have hc := hcleared authorized rfl
  obtain ⟨_, _, hacc⟩ := hc.accepted
  refine Task.Obeys.mono (fun _ _ => hq.trans) (conforms_of_consumed ?_ fun q _ hpassed => ?_)
  · unfold Authorized.bind
    refine Task.Obeys.run_bind (R := fun q' _ => q' = q) (p := ofResult _) rfl (fun _ _ hq => ⟨hq ▸ List.suffix_refl _, nofun⟩) ?_
    rintro _ _ rfl
    rw [hc.operation_eq]
    exact consumeSingleUse_obeys ⟨authorized.event, hc.event, rfl, hacc.expiration_eq⟩
  · refine conforms_bind (orCode_conforms ?_) fun q _ _ => List.suffix_refl q
    exact conforms_of_maintains (removeIndexedBlob_maintains cfg _ .requested none) (.inr hpassed)

/-- Writing a record is harmless. -/
theorem recordReport_conforms (settings : Settings) (event : Event) (status action : String) (requested processed : List Str) :
    Conforms cfg op past (recordReport cfg settings event status action requested processed).run := by
  refine conforms_of_issues (Task.Within.issues (fun _ => id) (R := fun _ => True) ?_)
  refine Task.Uses.lift_bind (Task.Uses.bind (uses_request id) fun _ => trivial) fun now => ?_
  refine Task.Uses.run_bind (Task.Uses.bind (uses_request id) fun _ => trivial) fun ino => ?_
  refine Task.Uses.lift_bind (uses_request id) fun written => ?_
  exact Task.Uses.lift_bind (uses_request id) fun _ => trivial

/-- Removing the reported blobs is maintenance. -/
theorem processBlobs_maintains (action : ReportAction) (hashes : List Str) :
    (processBlobs cfg action hashes).Issues (Req.Maintains cfg.storage) := by
  induction hashes with
  | nil => exact rfl
  | cons sha256 hashes ih =>
    unfold processBlobs
    refine Task.Issues.bind (p := index (.get sha256)) ⟨trivial, fun _ _ => rfl⟩ fun entry => ?_
    cases entry with
    | none => exact ih
    | some _ =>
      refine Task.Issues.bind (p := (removeIndexedBlob cfg sha256 action.removal none).run)
        (removeIndexedBlob_maintains cfg sha256 action.removal none) fun removed => ?_
      refine Task.Issues.bind (p := processBlobs cfg action hashes) ih fun processed => ?_
      rcases removed with _ | (_ | _) <;> exact rfl

/-- The blobs of a report are processed after its event was consumed. -/
theorem processReport_conforms (settings : Settings) (event : Event) (blobHashes : List Str) (hp : Passed past) :
    Conforms cfg op past (processReport cfg settings event blobHashes).run := by
  refine conforms_lift_bind (conforms_of_maintains (processBlobs_maintains _ blobHashes) (.inr hp)) fun q processed _ => ?_
  refine conforms_bind (recordReport_conforms ..) fun q _ _ => ?_
  simp only
  split <;> exact List.suffix_refl q

/-- A report is resolved after its event was consumed. -/
theorem resolveReport_conforms (settings : Settings) (content : Str) (event : Event) (blobHashes : List Str) (hp : Passed past) :
    Conforms cfg op past (resolveReport cfg settings content event blobHashes).run := by
  refine conforms_bind (recordReport_conforms ..) fun q _ hq => ?_
  by_cases hpanic : settings.infoEnabled ∧ loggedContent content = none
  · rw [if_pos hpanic]
    exact List.suffix_refl q
  · rw [if_neg hpanic]
    exact processReport_conforms settings event blobHashes (hp.mono hq)

/-- A report consumes its identifier as it spells it, before it removes a blob. -/
theorem reportBlob_conforms (settings : Settings) (report : ReportEvent) :
    Conforms cfg (.report report) past (reportBlob cfg settings report).run := by
  unfold reportBlob
  refine conforms_unless fun _ => conforms_unless fun _ => ?_
  cases settings.publicKeyFromHex report.pubkey with
  | none => exact List.suffix_refl past
  | some reporterPubkey =>
    refine conforms_bind (orCode_conforms (List.suffix_refl _)) fun q event _ => ?_
    refine conforms_bind (orCode_conforms (List.suffix_refl _)) fun q _ _ => ?_
    refine conforms_lift_bind nowSecs_conforms fun q now _ => ?_
    refine conforms_unless fun _ => conforms_unless fun _ => ?_
    have hconsumes : (Op.report report).Consumes cfg report.id (saturatingAdd now cfg.authMaxTtlSecs) := rfl
    refine conforms_of_consumed (consumeSingleUse_obeys hconsumes) fun q _ hpassed => ?_
    by_cases hmode : settings.featureReportEnabled = .public
    · rw [if_pos hmode]
      exact conforms_bind (recordReport_conforms ..) fun q _ _ => List.suffix_refl q
    · rw [if_neg hmode]
      refine conforms_unless fun _ => conforms_unless fun _ => ?_
      exact resolveReport_conforms settings _ event _ hpassed

/-- A listing is harmless. -/
theorem listBlobs_conforms (settings : Settings) (headers : Headers) (path : Str) (params : ListQuery) :
    Conforms cfg (.list headers path params) past (listBlobs cfg settings headers path params).run := by
  unfold listBlobs
  refine conforms_unless fun _ => ?_
  refine conforms_bind (orStatus_obeys (authorize_obeys (fun _ _ h => may_of_harmless (harmless_of_asks h)) headers .list past) ?_)
    fun q authorized _ => ?_
  · exact fun _ _ h => h.1
  refine conforms_bind (orStatus_obeys (R := fun q' _ => q <:+ q') (List.suffix_refl q) fun _ _ h => h) fun q _ _ => ?_
  refine conforms_bind (orCode_conforms (List.suffix_refl q)) fun q requested _ => ?_
  refine conforms_bind (orCode_conforms (List.suffix_refl q)) fun q cursor _ => ?_
  split
  · exact conforms_lift (conforms_of_issues (Task.Within.issues (fun _ => id) (uses_request id)))
  · exact List.suffix_refl q

/-- Every program conforms to its operation. -/
theorem program_conforms (cfg : Config) (settings : Settings) (op : Op) : Conforms cfg op [] (program cfg settings op) := by
  cases op with
  | boot =>
    refine Task.Obeys.bind (conforms_of_maintains ?_ (.inl rfl)) fun _ _ h => h
    exact (Startup.buildState_maintains cfg).issues fun _ => id
  | delete headers filename => exact (deleteBlob_conforms headers filename).bind fun _ _ h => h
  | report r => exact (reportBlob_conforms settings r).bind fun _ _ h => h
  | list headers path params => exact (listBlobs_conforms settings headers path params).bind fun _ _ h => h

end

/-! ## The guard over a history -/

/-- In a history every request is one that its operation may make. -/
theorem may_of_step {cfg : Config} {settings : Settings} {s : AppState}
    {ok : List (Server × Label Req Resp Str Op Outcome) → Server → Label Req Resp Str Op Outcome → Prop}
    {past : List (Server × Label Req Resp Str Op Outcome)} {c c' : Server} {t : Tid} {op : Op} {r : Req} {x : Resp r}
    (h : History (machine cfg settings) ok (Server.idle s) past c) (hs : Step (machine cfg settings) c (.called t op r x) c') :
    ∃ es, Task.record t past = es.map (Prod.mk op) ∧ May cfg op es r := by
  cases hs with
  | call e ht =>
    obtain ⟨es, hes, hobeys⟩ := h.obeys (fun op => program_conforms cfg settings op) (fun _ _ _ => trivial) ht
    exact ⟨es, hes, hobeys.1⟩

/-- One consumption of an event: who consumed it, as what, until when it was to be remembered, at which time, and whether it was
seen before. -/
structure Consumption where
  task : Tid
  op : Op
  id : Str
  expiresAt : Nat
  now : Nat
  seen : Bool

/-- The steps of a server. -/
abbrev Past := List (Server × Label Req Resp Str Op Outcome)

/-- The consumption that a step is. -/
def consumption : Label Req Resp Str Op Outcome → Option Consumption
  | .called t op (.consumeReplay id expiresAt now) seen => some ⟨t, op, id, expiresAt, now, seen⟩
  | _ => none

/-- The consumptions of a history, the latest first. -/
def consumptions (past : Past) : List Consumption :=
  past.filterMap fun s => consumption s.2

/-- The consumptions by certain operations that passed the guard. -/
def accepted (presents : Op → Bool) (past : List Consumption) : List Consumption :=
  past.filter fun c => presents c.op && !c.seen

/-- Whether an identifier is remembered until a time: it was consumed, and since then no event was consumed later than the
expiration that was recorded with it. -/
def Remembered (past : List Consumption) (id : Str) (now : Nat) : Prop :=
  ∃ last ∈ past.find? (·.id = id), now ≤ last.expiresAt ∧ ∀ c ∈ past.takeWhile (·.id ≠ id), c.now ≤ last.expiresAt

instance (past : List Consumption) (id : Str) (now : Nat) : Decidable (Remembered past id now) :=
  inferInstanceAs (Decidable (∃ last ∈ past.find? (·.id = id), now ≤ last.expiresAt ∧
    ∀ c ∈ past.takeWhile (·.id ≠ id), c.now ≤ last.expiresAt))

/-- The guard is in step with the consumptions of a history: it holds what is remembered. -/
def InStep (past : List Consumption) (s : AppState) : Prop :=
  ∀ id last, past.find? (·.id = id) = some last → (∀ c ∈ past.takeWhile (·.id ≠ id), c.now ≤ last.expiresAt) →
    s.destructiveEventReplays.lookup id = some last.expiresAt

/-- A request that consumes nothing leaves the guard as it is. -/
theorem exec_replays (cfg : Config) (t : Tid) {r : Req} (hr : ∀ id expiresAt now, r ≠ .consumeReplay id expiresAt now) (e : Env)
    (s : AppState) : (exec cfg t r e s).2.destructiveEventReplays = s.destructiveEventReplays := by
  cases r with
  | consumeReplay id expiresAt now => exact absurd rfl (hr id expiresAt now)
  | receiveToken token =>
    simp only [exec]
    split <;> rfl
  | dropTemp p =>
    simp only [exec]
    split <;> rfl
  | _ => rfl

/-- A consumption keeps the guard in step. -/
theorem inStep_consume (cfg : Config) (t : Tid) (op : Op) (id : Str) (expiresAt now : Nat) (e : Env) (seen : Bool) {s : AppState}
    {past : List Consumption} (h : InStep past s) :
    InStep (⟨t, op, id, expiresAt, now, seen⟩ :: past) (exec cfg t (.consumeReplay id expiresAt now) e s).2 := by
  intro id' last hfind hsince
  simp only [exec]
  by_cases hid : id = id'
  · subst hid
    rw [List.find?_cons_of_pos (by simp)] at hfind
    cases hfind
    exact AList.lookup_insert _
  · rw [List.find?_cons_of_neg (by simpa using hid)] at hfind
    rw [List.takeWhile_cons_of_pos (by simpa using hid)] at hsince
    obtain ⟨hnow, hsince⟩ := List.forall_mem_cons.1 hsince
    rw [AList.lookup_insert_ne (Ne.symm hid)]
    exact lookup_retain_eq_some.2 ⟨h id' last hfind hsince, decide_eq_true hnow⟩

/-- What is remembered was seen. -/
theorem seen_of_remembered (cfg : Config) (t : Tid) {id : Str} (expiresAt : Nat) {now : Nat} (e : Env) {s : AppState}
    {past : List Consumption} (h : InStep past s) (hr : Remembered past id now) :
    (exec cfg t (.consumeReplay id expiresAt now) e s).1 = true := by
  obtain ⟨last, hfind, hnow, hsince⟩ := hr
  have hlookup : (retain (fun _ expiry => now ≤ expiry) s.destructiveEventReplays).lookup id = some last.expiresAt :=
    lookup_retain_eq_some.2 ⟨h id last hfind hsince, decide_eq_true hnow⟩
  simp only [exec, hlookup, Option.isSome_some]

/-- Whether the process survives a step. -/
def survives : Label Req Resp Str Op Outcome → Bool
  | .crashed => false
  | _ => true

/-- The steps of runs in which certain operations present their event in time: once one of them presented it, the others present
what is remembered. The process does not end. -/
def InTime (presents : Op → Bool) (past : List Consumption) (l : Label Req Resp Str Op Outcome) : Prop :=
  survives l = true ∧ ∀ c ∈ consumption l, presents c.op = true → (∃ earlier ∈ past, presents earlier.op = true) →
    Remembered past c.id c.now

instance (presents : Op → Bool) (past : List Consumption) (l : Label Req Resp Str Op Outcome) :
    Decidable (InTime presents past l) :=
  inferInstanceAs (Decidable (survives l = true ∧ ∀ c ∈ consumption l, presents c.op = true →
    (∃ earlier ∈ past, presents earlier.op = true) → Remembered past c.id c.now))

/-- A step that consumes nothing keeps the guard in step. -/
theorem inStep_of_consumption_eq_none {cfg : Config} {settings : Settings} {c c' : Server} {l : Label Req Resp Str Op Outcome}
    {past : List Consumption} (hs : Step (machine cfg settings) c l c') (hl : consumption l = none) (hc : survives l = true)
    (h : InStep past c.world.store) : InStep past c'.world.store := by
  cases hs with
  | @call t op r k e _ =>
    have hr : ∀ id expiresAt now, r ≠ .consumeReplay id expiresAt now := by
      rintro id expiresAt now rfl
      nomatch hl
    intro id last hfind hsince
    exact (congrArg (AList.lookup id) (exec_replays cfg t hr e c.world.store)).trans (h id last hfind hsince)
  | crash => nomatch hc
  | _ => exact h

/-- When an event is presented in time, it passes the guard at most once. -/
theorem accepted_of_inTime {cfg : Config} {settings : Settings} {presents : Op → Bool} {c₀ c : Server} {past : Past}
    (h : History (machine cfg settings) (fun past _ l => InTime presents (consumptions past) l) c₀ past c) :
    (accepted presents (consumptions past)).length ≤ 1 := by
  suffices InStep (consumptions past) c.world.store ∧ (accepted presents (consumptions past)).length ≤ 1 from this.2
  refine h.invariant (I := fun past c => InStep (consumptions past) c.world.store ∧
    (accepted presents (consumptions past)).length ≤ 1) ⟨nofun, Nat.zero_le _⟩ ?_
  rintro past c l c' ⟨hstep, hle⟩ hok hs
  cases hl : consumption l with
  | none =>
    have hcons : consumptions ((c, l) :: past) = consumptions past := List.filterMap_cons_none hl
    rw [hcons]
    exact ⟨inStep_of_consumption_eq_none hs hl hok.1 hstep, hle⟩
  | some consumed =>
    have hcons : consumptions ((c, l) :: past) = consumed :: consumptions past := List.filterMap_cons_some hl
    rw [hcons]
    cases hs with
    | @call t op r k e _ =>
      cases r with
      | consumeReplay id expiresAt now =>
        cases hl
        refine ⟨inStep_consume cfg t op id expiresAt now e _ hstep, ?_⟩
        simp only [accepted, List.filter_cons]
        split
        · rename_i hnew
          obtain ⟨hp, hseen⟩ := Bool.and_eq_true_iff.1 hnew
          have hnone : accepted presents (consumptions past) = [] := by
            refine List.filter_eq_nil_iff.2 fun earlier hmem hearlier => ?_
            have hr := hok.2 _ rfl hp ⟨earlier, hmem, (Bool.and_eq_true_iff.1 hearlier).1⟩
            have htrue := seen_of_remembered cfg t expiresAt e hstep hr
            simp only [machine, htrue] at hseen
            nomatch hseen
          exact Nat.le_of_eq (congrArg (List.length · + 1) hnone)
        · exact hle
      | _ => nomatch hl
    | _ => nomatch hl

end Almond.Moderation
