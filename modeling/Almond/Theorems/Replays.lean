import Almond.Lemmas.ReplaysAux
import Almond.Sample

/-! # Single-use events

A delete event and a report event are each meant to act once. The guard that sees to it forgets what has expired, by the clock of
whoever consumes the next event. -/

namespace Almond.Moderation

open Conc

/-! ## Delete events -/

/-- Whether an operation is a deletion that carries an event. -/
def Op.carries (cfg : Config) (event : Event) : Op → Bool
  | .delete headers _ => eventOf cfg headers = some event
  | _ => false

/-- The steps of runs in which only deletions that carry an event consume its identifier, and once one of them did, the others consume
it while nobody has read the clock past the expiration of the event. The process does not end. -/
def CarriedInTime (cfg : Config) (event : Event) (past : List Consumption) (l : Label Req Resp Str Op Outcome) : Prop :=
  survives l = true ∧ ∀ c ∈ consumption l, (c.id = event.id → c.op.carries cfg event = true) ∧
    (c.op.carries cfg event = true → (∃ earlier ∈ past, earlier.op.carries cfg event = true) →
      ∀ expiresAt ∈ expirationOf event, c.now ≤ expiresAt ∧ ∀ c ∈ past.takeWhile (·.id ≠ event.id), c.now ≤ expiresAt)

instance (cfg : Config) (event : Event) (past : List Consumption) (l : Label Req Resp Str Op Outcome) :
    Decidable (CarriedInTime cfg event past l) :=
  inferInstanceAs (Decidable (survives l = true ∧ ∀ c ∈ consumption l, (c.id = event.id → c.op.carries cfg event = true) ∧
    (c.op.carries cfg event = true → (∃ earlier ∈ past, earlier.op.carries cfg event = true) →
      ∀ expiresAt ∈ expirationOf event, c.now ≤ expiresAt ∧ ∀ c ∈ past.takeWhile (·.id ≠ event.id), c.now ≤ expiresAt)))

/-- What a consumption says when it is one of its operation. -/
def Consumption.Sound (cfg : Config) (event : Event) (c : Consumption) : Prop :=
  c.op.Consumes cfg c.id c.expiresAt ∧ (c.id = event.id → c.op.carries cfg event = true)

/-- A deletion consumes the identifier of the event it carries until the expiration of the event. -/
theorem consumes_of_carries {cfg : Config} {event : Event} {op : Op} {id : Str} {expiresAt : Nat}
    (hc : op.carries cfg event = true) (h : op.Consumes cfg id expiresAt) : id = event.id ∧ expirationOf event = some expiresAt := by
  cases op with
  | delete headers filename =>
    obtain ⟨event', hevent, hid, hexp⟩ := h
    cases hevent.symm.trans (of_decide_eq_true hc)
    exact ⟨hid, hexp⟩
  | _ => nomatch hc

/-- An event that is carried in time is remembered. -/
theorem remembered_of_carried {cfg : Config} {event : Event} {past : List Consumption} (hpast : ∀ c ∈ past, c.Sound cfg event)
    (hex : ∃ c ∈ past, c.op.carries cfg event = true) {now : Nat}
    (h : ∀ expiresAt ∈ expirationOf event, now ≤ expiresAt ∧ ∀ c ∈ past.takeWhile (·.id ≠ event.id), c.now ≤ expiresAt) :
    Remembered past event.id now := by
  obtain ⟨c, hmem, hcarries⟩ := hex
  have hid : c.id = event.id := (consumes_of_carries hcarries (hpast c hmem).1).1
  have hfound : (past.find? (·.id = event.id)).isSome = true := List.find?_isSome.2 ⟨c, hmem, decide_eq_true hid⟩
  obtain ⟨last, hlast⟩ := Option.isSome_iff_exists.1 hfound
  have hsound := hpast last (List.mem_of_find?_eq_some hlast)
  have hlastid : last.id = event.id := by simpa using List.find?_some hlast
  have hexp := (consumes_of_carries (hsound.2 hlastid) hsound.1).2
  exact ⟨last, hlast, h last.expiresAt hexp⟩

/-- In a run in which an event is carried in time, it is presented in time. -/
theorem inTime_of_carriedInTime {cfg : Config} {settings : Settings} {event : Event} {s : AppState} {past : Past} {c : Server}
    (h : History (machine cfg settings) (fun past _ l => CarriedInTime cfg event (consumptions past) l) (Server.idle s) past c) :
    History (machine cfg settings) (fun past _ l => InTime (Op.carries cfg event) (consumptions past) l) (Server.idle s) past c ∧
      ∀ c ∈ consumptions past, c.Sound cfg event := by
  induction h with
  | start => exact ⟨.start, nofun⟩
  | @step past c l c' h hok hs ih =>
    obtain ⟨ih, hsound⟩ := ih
    cases hl : consumption l with
    | none =>
      refine ⟨.step ih ⟨hok.1, fun _ hc => nomatch hl.symm.trans hc⟩ hs, ?_⟩
      rw [show consumptions ((c, l) :: past) = consumptions past from List.filterMap_cons_none hl]
      exact hsound
    | some consumed =>
      obtain ⟨hid, htime⟩ := hok.2 consumed hl
      have hconsumes : consumed.op.Consumes cfg consumed.id consumed.expiresAt := by
        cases l with
        | called t op r x =>
          obtain ⟨es, _, hmay⟩ := may_of_step h hs
          cases r with
          | consumeReplay id expiresAt now =>
            cases hl
            exact hmay
          | _ => nomatch hl
        | _ => nomatch hl
      refine ⟨.step ih ⟨hok.1, fun _ hc hcarries hex => ?_⟩ hs, ?_⟩
      · cases hl.symm.trans hc
        rw [(consumes_of_carries hcarries hconsumes).1]
        exact remembered_of_carried hsound hex (htime hcarries hex)
      · rw [show consumptions ((c, l) :: past) = consumed :: consumptions past from List.filterMap_cons_some hl]
        exact List.forall_mem_cons.2 ⟨⟨hconsumes, hid⟩, hsound⟩

/-- In every run in which a delete event is carried in time, at most one deletion that carries it gets past the guard. -/
theorem delete_accepted_once (cfg : Config) (settings : Settings) (event : Event) {s : AppState} {past : Past} {c : Server}
    (h : History (machine cfg settings) (fun past _ l => CarriedInTime cfg event (consumptions past) l) (Server.idle s) past c) :
    (accepted (Op.carries cfg event) (consumptions past)).length ≤ 1 :=
  accepted_of_inTime (inTime_of_carriedInTime h).1

/-- A server that accepts reports. -/
def moderation : Settings where
  featureListEnabled := false
  featureReportEnabled := .public
  reportAction := .quarantine
  authClockSkewSecs := 60
  publicKeyFromHex _ := some []
  parseReport r := .ok ⟨r.id.map Char.toLower, [], r.createdAt.toNat, r.kind, [], r.content, r.sig⟩
  recordBody _ := []
  infoEnabled := true

/-- An authorization to delete the hash. -/
def deletion : Event :=
  { Sample.event with
    tags := [⟨"t".toList, some "delete".toList⟩, ⟨"x".toList, some Sample.hash⟩, ⟨"expiration".toList, some "1700003600".toList⟩] }

/-- A server that knows who may delete. -/
def moderator : Config :=
  { Sample.config with
    allowedPubkeys := [deletion.pubkey]
    libs := { Sample.libs with parseEvent := fun _ => .ok deletion } }

/-- A deletion of the hash. -/
def deleteHash : Op :=
  .delete [("authorization".toList, "Nostr e30=".toList)] Sample.hash

/-- Two deletions that are authorized before one of them gets to the guard; the other gets there later. -/
def twoDeletions (later : Nat) : List (Move Env Op) :=
  .spawn deleteHash :: .spawn deleteHash :: .step 1 Sample.calm :: List.replicate 3 (.step 0 Sample.calm) ++
    .tick { Sample.calm with system := later * 1000000000 } :: List.replicate 2 (.step 1 Sample.calm)

/-- A delete event that is carried again in its last second is accepted once. -/
theorem delete_accepted_once_again : ∃ past c,
    History (machine moderator moderation) (fun past _ l => CarriedInTime moderator deletion (consumptions past) l)
      (Server.idle Sample.started) past c ∧
    (consumptions past).length = 2 ∧ (accepted (Op.carries moderator deletion) (consumptions past)).length ≤ 1 := by
  obtain ⟨past, c, h, hlen⟩ := exists_history_of_replay (machine moderator moderation) (Server.idle Sample.started)
    (twoDeletions 1700003600) (fun past _ l => decide (CarriedInTime moderator deletion (consumptions past) l))
    (fun past => (consumptions past).length = 2) (by decide)
  have h := h.mono fun _ _ _ => of_decide_eq_true
  exact ⟨past, c, h, of_decide_eq_true hlen, delete_accepted_once moderator moderation deletion h⟩

/-- Two deletions that carry one event get past the guard when the clock passes the expiration of the event between them. -/
theorem delete_accepted_once_false : ∃ past c,
    History (machine moderator moderation) (fun _ _ l => survives l = true) (Server.idle Sample.started) past c ∧
      (accepted (Op.carries moderator deletion) (consumptions past)).map (·.task) = [1, 0] := by
  obtain ⟨past, c, h, hp⟩ := exists_history_of_replay (machine moderator moderation) (Server.idle Sample.started)
    (twoDeletions 1700003601) (fun _ _ l => survives l)
    (fun past => (accepted (Op.carries moderator deletion) (consumptions past)).map (·.task) = [1, 0]) (by decide)
  exact ⟨past, c, h, of_decide_eq_true hp⟩

/-! ## Report events -/

/-- Whether an operation is a report whose event has an identifier, however the report spells it. -/
def Op.presents (settings : Settings) (id : Str) : Op → Bool
  | .report r => match settings.parseReport r with
    | .ok event => event.id = id
    | .error _ => false
  | _ => false

/-- Whether a task removed a blob for an operation that presents an event. -/
def RemovesFor (presents : Op → Bool) (past : Past) (t : Tid) : Prop :=
  ∃ c op r x, (c, .called t op r x) ∈ past ∧ presents op = true ∧ Removes r

/-- A task that removed a blob for a report got past the guard. -/
theorem accepted_of_removesFor {cfg : Config} {settings : Settings} {id : Str} {s : AppState} {past : Past} {c : Server} {t : Tid}
    {ok : Past → Server → Label Req Resp Str Op Outcome → Prop} (h : History (machine cfg settings) ok (Server.idle s) past c)
    (hr : RemovesFor (Op.presents settings id) past t) :
    ∃ c ∈ accepted (Op.presents settings id) (consumptions past), c.task = t := by
  have hgrow : ∀ {x : Server × Label Req Resp Str Op Outcome} {past : Past} {c : Consumption},
      c ∈ accepted (Op.presents settings id) (consumptions past) → c ∈ accepted (Op.presents settings id) (consumptions (x :: past)) :=
    fun hmem => (((List.sublist_cons_self ..).filterMap _).filter _).subset hmem
  induction h with
  | start =>
    obtain ⟨_, _, _, _, hmem, _⟩ := hr
    nomatch hmem
  | @step past c l c' h _ hs ih =>
    obtain ⟨c₁, op, r, x, hmem, hp, hremoves⟩ := hr
    rcases List.mem_cons.1 hmem with heq | hmem
    · cases heq
      obtain ⟨es, hes, hmay⟩ := may_of_step h hs
      -- The task removes something, so its own record shows the consumption.
      have hpassed : Passed es := by
        cases r with
        | consumeReplay => exact hremoves.elim
        | _ => exact (hmay.resolve_left fun hboot => by subst hboot; nomatch hp) hremoves
      obtain ⟨eventId, expiresAt, now, hconsumed⟩ := hpassed
      have hrecord : (op, (⟨.consumeReplay eventId expiresAt now, false⟩ : Task.Event Req Resp)) ∈ Task.record t past :=
        hes ▸ List.mem_map_of_mem hconsumed
      obtain ⟨⟨c₂, l⟩, hpast, hl⟩ := List.mem_filterMap.1 hrecord
      refine ⟨⟨t, op, eventId, expiresAt, now, false⟩, hgrow (List.mem_filter.2 ⟨List.mem_filterMap.2 ⟨_, hpast, ?_⟩, ?_⟩), rfl⟩
      · cases l with
        | called t' op' r' x' =>
          simp only at hl
          split at hl
          · rename_i ht
            cases hl
            rw [← ht]
            rfl
          · nomatch hl
        | _ => nomatch hl
      · exact Bool.and_eq_true_iff.2 ⟨hp, rfl⟩
    · obtain ⟨consumed, hacc, ht⟩ := ih ⟨c₁, op, r, x, hmem, hp, hremoves⟩
      exact ⟨consumed, hgrow hacc, ht⟩

/-- In every run in which a report event is presented in time, it gets past the guard at most once, and at most one request removes
blobs for it. -/
theorem report_acts_once (cfg : Config) (settings : Settings) (id : Str) {s : AppState} {past : Past} {c : Server}
    (h : History (machine cfg settings) (fun past _ l => InTime (Op.presents settings id) (consumptions past) l) (Server.idle s) past c) :
    (accepted (Op.presents settings id) (consumptions past)).length ≤ 1 ∧
      ∀ t t', RemovesFor (Op.presents settings id) past t → RemovesFor (Op.presents settings id) past t' → t = t' := by
  have hle := accepted_of_inTime h
  refine ⟨hle, fun t t' ht ht' => ?_⟩
  obtain ⟨consumed, hmem, rfl⟩ := accepted_of_removesFor h ht
  obtain ⟨consumed', hmem', rfl⟩ := accepted_of_removesFor h ht'
  rcases Nat.le_one_iff_eq_zero_or_eq_one.1 hle with hzero | hone
  · rw [List.length_eq_zero_iff.1 hzero] at hmem
    nomatch hmem
  · obtain ⟨only, honly⟩ := List.length_eq_one_iff.1 hone
    rw [honly] at hmem hmem'
    rw [List.mem_singleton.1 hmem, List.mem_singleton.1 hmem']

/-- A report with an identifier of one digit. -/
def reportOf (digit : Char) : Op :=
  .report ⟨List.replicate 64 digit, [], 1700000000, 1984, [], [], []⟩

/-- Whether a report is the one that the reports with the digits `a` and `A` share. -/
def reported : Op → Bool :=
  Op.presents moderation (List.replicate 64 'a')

/-- Two reports, the first up to the guard, the second up to the guard at a later time. -/
def twoReports (first second : Char) (later : Nat) : List (Move Env Op) :=
  .spawn (reportOf first) :: List.replicate 3 (.step 0 Sample.calm) ++
    .tick { Sample.calm with system := later * 1000000000 } :: .spawn (reportOf second) :: List.replicate 3 (.step 1 Sample.calm)

/-- A report that is presented again within the lifetime of an authorization acts once. -/
theorem report_acts_once_again : ∃ past c,
    History (machine Sample.config moderation) (fun past _ l => InTime reported (consumptions past) l) (Server.idle Sample.started)
      past c ∧
    (consumptions past).length = 2 ∧ (accepted reported (consumptions past)).length ≤ 1 := by
  obtain ⟨past, c, h, hlen⟩ := exists_history_of_replay (machine Sample.config moderation) (Server.idle Sample.started)
    (twoReports 'a' 'a' 1700003600) (fun past _ l => decide (InTime reported (consumptions past) l))
    (fun past => (consumptions past).length = 2) (by decide)
  have h := h.mono fun _ _ _ => of_decide_eq_true
  exact ⟨past, c, h, of_decide_eq_true hlen, (report_acts_once Sample.config moderation (List.replicate 64 'a') h).1⟩

/-- A report event gets past the guard again once the clock has passed the lifetime of an authorization, and at any time when its
identifier is spelled in another way. -/
theorem report_acts_once_false :
    (∃ past c, History (machine Sample.config moderation) (fun _ _ l => survives l = true) (Server.idle Sample.started) past c ∧
      (accepted reported (consumptions past)).map (·.id) = [List.replicate 64 'a', List.replicate 64 'a']) ∧
    ∃ past c, History (machine Sample.config moderation) (fun _ _ l => survives l = true) (Server.idle Sample.started) past c ∧
      (accepted reported (consumptions past)).map (·.now) = [1700000000, 1700000000] := by
  constructor
  · obtain ⟨past, c, h, hp⟩ := exists_history_of_replay (machine Sample.config moderation) (Server.idle Sample.started)
      (twoReports 'a' 'a' 1700003601) (fun _ _ l => survives l)
      (fun past => (accepted reported (consumptions past)).map (·.id) = [List.replicate 64 'a', List.replicate 64 'a'])
      (by decide)
    exact ⟨past, c, h, of_decide_eq_true hp⟩
  · obtain ⟨past, c, h, hp⟩ := exists_history_of_replay (machine Sample.config moderation) (Server.idle Sample.started)
      (twoReports 'a' 'A' 1700000000) (fun _ _ l => survives l)
      (fun past => (accepted reported (consumptions past)).map (·.now) = [1700000000, 1700000000]) (by decide)
    exact ⟨past, c, h, of_decide_eq_true hp⟩

end Almond.Moderation
