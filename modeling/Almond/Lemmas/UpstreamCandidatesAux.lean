import Almond.Conc.Returns
import Almond.Data.FirstOccurrences
import Almond.Data.Trimming
import Almond.UpstreamCandidates

/-! # Runs of a walk -/

namespace Almond.UpstreamCandidates

open Conc Fetch UpstreamServers FirstOccurrences

/-- A record of requests and their answers. -/
abbrev Events := List (Task.Event NetReq NetResp)

/-! ## Validation -/

/-- A candidate and whether it was valid when it was validated. -/
structure Check where
  tier : Tier
  text : Str
  valid : Bool
  deriving DecidableEq, Repr

/-- Candidates are validated one after another. -/
inductive Validates (libs : NetLibs) : List (Tier × Str) → Events → List Check → Prop
  | nil : Validates libs [] [] []
  | valid {tier text base pending events events' checks} (h : (validateUpstreamUrl libs text).run.Returns events (.ok base))
      (hrest : Validates libs pending events' checks) :
    Validates libs ((tier, text) :: pending) (events ++ events') (⟨tier, text, true⟩ :: checks)
  | invalid {tier text error pending events events' checks} (h : (validateUpstreamUrl libs text).run.Returns events (.error error))
      (hrest : Validates libs pending events' checks) :
    Validates libs ((tier, text) :: pending) (events ++ events') (⟨tier, text, false⟩ :: checks)

/-- The candidates that were valid, with their bases. -/
def passing (checks : List Check) : List (Tier × Str) :=
  (checks.filter Check.valid).map fun check => (check.tier, normalizeServerUrl check.text)

/-- What is handed out for a valid candidate. -/
def handOut (filename : Str) (e : Tier × Str) : Candidate :=
  ⟨e.1, e.2, blobUrl e.2 filename⟩

variable {libs : NetLibs} {pending : List (Tier × Str)} {events : Events} {checks : List Check}

/-- Every candidate is validated. -/
theorem Validates.map_eq (h : Validates libs pending events checks) : checks.map (fun check => (check.tier, check.text)) = pending := by
  induction h with
  | nil => rfl
  | valid _ _ ih => rw [List.map_cons, ih]
  | invalid _ _ ih => rw [List.map_cons, ih]

/-- A valid candidate has its normalized text for a base. -/
theorem base_of_returns {text base : Str} (h : (validateUpstreamUrl libs text).run.Returns events (.ok base)) :
    base = normalizeServerUrl text := by
  obtain ⟨_, after, x, _, _, h⟩ := Task.returns_run_bind_iff.1 h
  cases x with
  | ok u => exact (Except.ok.inj h.2).symm
  | error e => nomatch h.2

/-! ## The steps of a walk -/

/-- The loop over the pending candidates ends with the first one that is valid and new, or when none is left. -/
inductive Popped (libs : NetLibs) (walk : Walk) : List (Tier × Str) → Events → Option Candidate × Walk → Prop
  | none {pending : List (Tier × Str)} {events : Events} {checks : List Check} (hchecks : Validates libs pending events checks)
      (hseen : ∀ e ∈ passing checks, e.2 ∈ walk.tried) : Popped libs walk pending events (none, { walk with pending := [] })
  | some {before pending : List (Tier × Str)} {tier : Tier} {text base : Str} {events events' : Events} {checks : List Check}
      (hchecks : Validates libs before events checks) (hseen : ∀ e ∈ passing checks, e.2 ∈ walk.tried)
      (hvalid : (validateUpstreamUrl libs text).run.Returns events' (.ok base)) (hnew : base ∉ walk.tried) :
    Popped libs walk (before ++ (tier, text) :: pending) (events ++ events')
      (some (handOut walk.filename (tier, base)), { walk with pending := pending, tried := base :: walk.tried })

/-- A candidate that is passed over comes before those of a pop. -/
theorem Popped.cons {walk : Walk} {tier : Tier} {text : Str} {events events' : Events} {x : Option Candidate × Walk} {check : Check}
    (h : Popped libs walk pending events' x) (hcheck : Validates libs [(tier, text)] events [check])
    (hseen : ∀ e ∈ passing [check], e.2 ∈ walk.tried) : Popped libs walk ((tier, text) :: pending) (events ++ events') x := by
  have happend : ∀ {pending events' checks}, Validates libs pending events' checks →
      Validates libs ((tier, text) :: pending) (events ++ events') (check :: checks) := by
    intro pending events' checks hrest
    cases hcheck with
    | valid h hnil =>
      cases hnil
      rw [List.append_nil]
      exact .valid h hrest
    | invalid h hnil =>
      cases hnil
      rw [List.append_nil]
      exact .invalid h hrest
  have hall : ∀ {checks : List Check}, (∀ e ∈ passing checks, e.2 ∈ walk.tried) → ∀ e ∈ passing (check :: checks), e.2 ∈ walk.tried := by
    intro checks h e he
    have hsplit : passing (check :: checks) = passing [check] ++ passing checks := by
      rw [passing, passing, passing, ← List.map_append, ← List.filter_append, List.singleton_append]
    rw [hsplit, List.mem_append] at he
    exact he.elim (hseen e) (h e)
  cases h with
  | none hchecks hs => exact .none (happend hchecks) (hall hs)
  | some hchecks hs hvalid hnew =>
    rw [← List.append_assoc]
    exact .some (happend hchecks) (hall hs) hvalid hnew

/-- What the loop returns. -/
theorem popped_of_returns {walk : Walk} {x : Option Candidate × Walk} (h : (Walk.popPending libs pending walk).Returns events x) :
    Popped libs walk pending events x := by
  induction pending generalizing events with
  | nil =>
    obtain ⟨rfl, rfl⟩ := h
    exact .none .nil nofun
  | cons e pending ih =>
    obtain ⟨tier, text⟩ := e
    obtain ⟨before, after, result, rfl, hresult, hrest⟩ := Task.returns_bind_iff.1 h
    cases result with
    | error error =>
      have hcheck : Validates libs [(tier, text)] before [⟨tier, text, false⟩] := List.append_nil before ▸ .invalid hresult .nil
      exact (ih hrest).cons hcheck nofun
    | ok base =>
      by_cases hseen : base ∈ walk.tried
      · simp only [hseen, if_true] at hrest
        have hcheck : Validates libs [(tier, text)] before [⟨tier, text, true⟩] := List.append_nil before ▸ .valid hresult .nil
        refine (ih hrest).cons hcheck fun e he => ?_
        have hbase : e.2 = base := by
          rw [base_of_returns hresult, List.mem_singleton.1 he]
        exact hbase ▸ hseen
      · simp only [hseen, if_false] at hrest
        obtain ⟨rfl, rfl⟩ := hrest
        rw [List.append_nil]
        have hnone : ∀ e ∈ passing [], e.2 ∈ walk.tried := nofun
        show Popped libs walk ([] ++ (tier, text) :: pending) ([] ++ before) _
        exact .some .nil hnone hresult hseen

/-- Taking the list of the author. -/
inductive Taken (walk : Walk) : Events → Bool × Walk → Prop
  | settled (hlist : walk.userServersPending = false ∨ walk.authorPubkey = none) (after : Walk) : Taken walk [] (false, after)
  | nothing {pubkey : PublicKey} {answer : Except Unit (List Str)} (hpending : walk.userServersPending = true)
      (hauthor : walk.authorPubkey = some pubkey) (hanswer : answer.toOption.getD [] = []) (after : Walk) :
    Taken walk [⟨.fetchUserServerList pubkey, answer⟩] (false, after)
  | added {pubkey : PublicKey} {servers : List Str} (hpending : walk.userServersPending = true)
      (hauthor : walk.authorPubkey = some pubkey) :
    Taken walk [⟨.fetchUserServerList pubkey, .ok servers⟩]
      (true, { walk with userServersPending := false, pending := walk.pending ++ Walk.userCandidates servers })

/-- What taking the list returns. -/
theorem taken_of_returns {walk : Walk} {x : Bool × Walk} (h : walk.takeUserServers.Returns events x) : Taken walk events x := by
  unfold Walk.takeUserServers at h
  cases hpending : walk.userServersPending with
  | false =>
    simp only [hpending, Bool.not_false, if_true] at h
    obtain ⟨rfl, rfl⟩ := h
    exact .settled (.inl hpending) _
  | true =>
    simp only [hpending, Bool.not_true, Bool.false_eq_true, if_false] at h
    cases hauthor : walk.authorPubkey with
    | none =>
      simp only [hauthor] at h
      obtain ⟨rfl, rfl⟩ := h
      exact .settled (.inr hauthor) _
    | some pubkey =>
      simp only [hauthor] at h
      obtain ⟨answer, rest, rfl, hrest⟩ := h
      cases answer with
      | error u =>
        obtain ⟨rfl, rfl⟩ := hrest
        exact .nothing hpending hauthor rfl _
      | ok servers =>
        cases servers with
        | nil =>
          obtain ⟨rfl, rfl⟩ := hrest
          exact .nothing hpending hauthor rfl _
        | cons server servers =>
          obtain ⟨rfl, rfl⟩ := hrest
          simpa only [hauthor] using Taken.added hpending hauthor

/-! ## A walk to its end -/

/-- A walk to its end: what it hands out, one call of `next` after another. -/
inductive Ends (libs : NetLibs) : Walk → Events → List Candidate → Prop
  | done {walk walk' : Walk} {events : Events} (h : (walk.next libs).Returns events (none, walk')) : Ends libs walk events []
  | more {walk walk' : Walk} {candidate : Candidate} {events events' : Events} {candidates : List Candidate}
      (h : (walk.next libs).Returns events (some candidate, walk')) (hrest : Ends libs walk' events' candidates) :
    Ends libs walk (events ++ events') (candidate :: candidates)

/-- What a walk is told by the outside to its end: the servers of the author, if it fetches them, and which candidates are valid. -/
inductive Hears (libs : NetLibs) (walk : Walk) : Events → List Str → List Check → Prop
  | settled {events : Events} {checks : List Check} (hlist : walk.userServersPending = false ∨ walk.authorPubkey = none)
      (hchecks : Validates libs walk.pending events checks) : Hears libs walk events [] checks
  | fetches {events events' : Events} {checks checks' : List Check} {pubkey : PublicKey} {answer : Except Unit (List Str)}
      (hpending : walk.userServersPending = true) (hauthor : walk.authorPubkey = some pubkey)
      (hchecks : Validates libs walk.pending events checks)
      (hchecks' : Validates libs (Walk.userCandidates (answer.toOption.getD [])) events' checks') :
    Hears libs walk (events ++ ⟨.fetchUserServerList pubkey, answer⟩ :: events') (answer.toOption.getD []) (checks ++ checks')

/-- What a walk hands out, of the candidates that are valid. -/
def handsOut (walk : Walk) (checks : List Check) : List Candidate :=
  (firsts Prod.snd (passing checks) walk.tried).map (handOut walk.filename)

/-- One validation after another. -/
theorem Validates.append {pending' : List (Tier × Str)} {events' : Events} {checks' : List Check}
    (h : Validates libs pending events checks) (h' : Validates libs pending' events' checks') :
    Validates libs (pending ++ pending') (events ++ events') (checks ++ checks') := by
  induction h with
  | nil => exact h'
  | valid hvalid _ ih =>
    rw [List.append_assoc]
    exact .valid hvalid ih
  | invalid hinvalid _ ih =>
    rw [List.append_assoc]
    exact .invalid hinvalid ih

/-- The valid candidates of two lists. -/
theorem passing_append (checks checks' : List Check) : passing (checks ++ checks') = passing checks ++ passing checks' := by
  rw [passing, List.filter_append, List.map_append]
  rfl

/-- Candidates that were all handed out before are not handed out again. -/
theorem handsOut_append_of_seen {walk : Walk} (h : ∀ e ∈ passing checks, e.2 ∈ walk.tried) (checks' : List Check) :
    handsOut walk (checks ++ checks') = handsOut walk checks' := by
  rw [handsOut, passing_append, firsts_append_of_seen h]
  rfl

/-- After a pop that hands a candidate out, a walk is told the rest. -/
theorem hears_of_popped {walk walk' : Walk} {candidate : Candidate} {events' : Events} {servers : List Str}
    (h : Popped libs walk walk.pending events (some candidate, walk')) (hrest : Hears libs walk' events' servers checks) :
    ∃ checks', Hears libs walk (events ++ events') servers checks' ∧ handsOut walk checks' = candidate :: handsOut walk' checks := by
  generalize hpending : walk.pending = pending at h
  cases h with
  | @some before rest tier text base events₁ events₂ checks₁ hchecks hseen hvalid hnew =>
    have hall : ∀ {events'' checks''}, Validates libs rest events'' checks'' →
        Validates libs walk.pending (events₁ ++ events₂ ++ events'') (checks₁ ++ ⟨tier, text, true⟩ :: checks'') := by
      intro events'' checks'' hafter
      rw [hpending, List.append_assoc]
      exact hchecks.append (.valid hvalid hafter)
    have hout : ∀ checks'', handsOut walk (checks₁ ++ ⟨tier, text, true⟩ :: checks'') =
        handOut walk.filename (tier, base) :: handsOut { walk with pending := rest, tried := base :: walk.tried } checks'' := by
      intro checks''
      have hcons : passing (⟨tier, text, true⟩ :: checks'') = (tier, base) :: passing checks'' := by
        rw [base_of_returns hvalid]
        rfl
      rw [handsOut_append_of_seen hseen, handsOut, hcons, firsts, if_neg hnew]
      rfl
    cases hrest with
    | settled hlist hafter => exact ⟨_, .settled hlist (hall hafter), hout _⟩
    | fetches hflag hauthor hafter huser =>
      refine ⟨_, ?_, hout _⟩
      rw [← List.append_assoc, ← List.cons_append, ← List.append_assoc]
      exact .fetches hflag hauthor (hall hafter) huser

/-- A pop that hands nothing out ends what is pending. -/
theorem validates_of_popped {walk walk' : Walk} (h : Popped libs walk walk.pending events (none, walk')) :
    ∃ checks, Validates libs walk.pending events checks ∧ (∀ e ∈ passing checks, e.2 ∈ walk.tried) ∧
      walk' = { walk with pending := [] } := by
  generalize walk.pending = pending at h
  cases h with
  | none hchecks hseen => exact ⟨_, hchecks, hseen, rfl⟩

/-- A walk that goes on with the list of the author is told the list. -/
theorem hears_of_added (walk : Walk) {events' : Events} {pubkey : PublicKey} {servers : List Str} {checks' : List Check} {next : Walk}
    (hpending : walk.userServersPending = true) (hauthor : walk.authorPubkey = some pubkey)
    (hchecks : Validates libs walk.pending events checks) (hseen : ∀ e ∈ passing checks, e.2 ∈ walk.tried)
    (hnext : next = { walk with userServersPending := false, pending := Walk.userCandidates servers })
    {listed : List Str} (h : Hears libs next events' listed checks') :
    Hears libs walk (events ++ ⟨.fetchUserServerList pubkey, .ok servers⟩ :: events') servers (checks ++ checks') ∧
      handsOut walk (checks ++ checks') = handsOut next checks' := by
  subst hnext
  cases h with
  | settled _ huser =>
    have hanswer : Validates libs (Walk.userCandidates (Except.toOption (.ok servers : Except Unit (List Str)) |>.getD []))
        events' checks' :=
      huser
    exact ⟨.fetches hpending hauthor hchecks hanswer, handsOut_append_of_seen hseen _⟩
  | fetches hflag _ _ _ => nomatch hflag

/-- A walk to its end hands out the valid candidates, each base once. -/
theorem Ends.spec {walk : Walk} {candidates : List Candidate} (h : Ends libs walk events candidates) :
    ∃ servers checks, Hears libs walk events servers checks ∧ candidates = handsOut walk checks := by
  have hnothing : ∀ {walk : Walk} {checks : List Check}, (∀ e ∈ passing checks, e.2 ∈ walk.tried) → [] = handsOut walk checks := by
    intro walk checks hseen
    have hout := handsOut_append_of_seen hseen []
    rw [List.append_nil] at hout
    exact hout.symm
  induction h with
  | @done walk walk' events h =>
    obtain ⟨events₁, events₂, x, rfl, hpop, hrest⟩ := Task.returns_bind_iff.1 h
    obtain ⟨_ | candidate, walk₁⟩ := x
    · obtain ⟨checks, hchecks, hseen, rfl⟩ := validates_of_popped (popped_of_returns hpop)
      obtain ⟨events₃, events₄, y, rfl, htake, hrest⟩ := Task.returns_bind_iff.1 hrest
      cases taken_of_returns htake with
      | settled hlist after =>
        obtain ⟨rfl, _⟩ := hrest
        simp only [List.append_nil]
        exact ⟨[], checks, .settled hlist hchecks, hnothing hseen⟩
      | @nothing pubkey answer hpending hauthor hanswer after =>
        obtain ⟨rfl, _⟩ := hrest
        have huser : Validates libs (Walk.userCandidates (answer.toOption.getD [])) [] [] := by
          rw [hanswer]
          exact .nil
        have hhears : Hears libs walk (events₁ ++ [⟨.fetchUserServerList pubkey, answer⟩]) (answer.toOption.getD []) (checks ++ []) :=
          .fetches hpending hauthor hchecks huser
        rw [List.append_nil] at hhears
        exact ⟨_, _, hhears, hnothing hseen⟩
      | @added pubkey servers hpending hauthor =>
        obtain ⟨checks', hchecks', hseen', _⟩ := validates_of_popped (popped_of_returns hrest)
        obtain ⟨hhears, hout⟩ := hears_of_added walk hpending hauthor hchecks hseen rfl (.settled (.inl rfl) hchecks')
        exact ⟨_, _, hhears, hout ▸ hnothing hseen'⟩
    · exact nomatch (congrArg Prod.fst hrest.2 : some candidate = none)
  | @more walk walk' candidate events events' candidates h hrest ih =>
    obtain ⟨servers, checks, hhears, rfl⟩ := ih
    obtain ⟨events₁, events₂, x, rfl, hpop, hnext⟩ := Task.returns_bind_iff.1 h
    obtain ⟨_ | found, walk₁⟩ := x
    · obtain ⟨checks₁, hchecks, hseen, rfl⟩ := validates_of_popped (popped_of_returns hpop)
      obtain ⟨events₃, events₄, y, rfl, htake, hnext⟩ := Task.returns_bind_iff.1 hnext
      cases taken_of_returns htake with
      | settled hlist after => exact nomatch (congrArg Prod.fst hnext.2 : none = some candidate)
      | nothing hpending hauthor hanswer after => exact nomatch (congrArg Prod.fst hnext.2 : none = some candidate)
      | @added pubkey listed hpending hauthor =>
        obtain ⟨checks', hhears', hout'⟩ := hears_of_popped (popped_of_returns hnext) hhears
        obtain ⟨hhears, hout⟩ := hears_of_added walk hpending hauthor hchecks hseen rfl hhears'
        simp only [List.append_assoc, List.cons_append]
        exact ⟨_, _, hhears, (hout.trans hout').symm⟩
    · obtain ⟨rfl, hx⟩ := hnext
      cases hx
      obtain ⟨checks', hhears', hout⟩ := hears_of_popped (popped_of_returns hpop) hhears
      rw [List.append_nil]
      exact ⟨_, _, hhears', hout.symm⟩

end Almond.UpstreamCandidates
