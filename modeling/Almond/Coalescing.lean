import Almond.Tail
import Almond.Conc.Handles
import Almond.Conc.Task

/-! # Coalescing the requests for one blob

Requests for a blob that is not stored share one download. Before there is a download to share, one of them leads and the others follow
its negotiation. Both kinds of handles are in tables of their own. -/

namespace Almond.Coalescing

open Conc (Tid HandleId Handles)

/-- Where a negotiation stands. -/
inductive NegotiationPhase where
  | pending
  | ready
  | failed
  deriving DecidableEq, Repr

/-- The tables of the application state. -/
structure Registries where
  upstreamNegotiations : Handles Str NegotiationPhase
  ongoingDownloads : Handles Str DownloadPhase

/-- The tables of a new process. -/
def Registries.empty : Registries :=
  ⟨.empty .pending, .empty .running⟩

/-- What a request is told about the negotiation for a blob. -/
inductive NegotiationClaim where
  | leader (id : HandleId)
  | follower (id : HandleId)
  deriving DecidableEq, Repr

/-- `claim_upstream_negotiation`, one critical section: a failed negotiation gives way to a new one. -/
def claimUpstreamNegotiation (negotiations : Handles Str NegotiationPhase) (key : Str) : NegotiationClaim × Handles Str NegotiationPhase :=
  match negotiations.entries.lookup key with
  | some existing =>
    if negotiations.phase existing ≠ .failed then (.follower existing, negotiations)
    else (.leader negotiations.next, { negotiations with entries := negotiations.entries.erase key }.register .pending key)
  | none => (.leader negotiations.next, negotiations.register .pending key)

/-- The critical section of `prepare_download_state`: the new handle takes the place of any other one. -/
def prepareDownloadState (downloads : Handles Str DownloadPhase) (key : Str) : HandleId × Handles Str DownloadPhase :=
  (downloads.next, downloads.register .running key)

/-- The phase that `NegotiationGuard::drop` publishes. -/
def negotiationDropped (_ : NegotiationPhase) : NegotiationPhase :=
  .failed

/-- The phase that `DownloadGuard::drop` publishes. -/
def downloadDropped : DownloadPhase → DownloadPhase
  | .running => .failed
  | phase => phase

/-- What is done with the guard of a negotiation. -/
abbrev NegotiationStep : HandleId → Handles Str NegotiationPhase → Handles Str NegotiationPhase → Prop :=
  Handles.Step .pending negotiationDropped

/-- What is done with the guard of a download. -/
abbrev DownloadStep : HandleId → Handles Str DownloadPhase → Handles Str DownloadPhase → Prop :=
  Handles.Step .running downloadDropped

/-- The steps of any number of requests on the tables. -/
inductive Step : Registries → Registries → Prop
  | claim {st} (key : Str) : Step st { st with upstreamNegotiations := (claimUpstreamNegotiation st.upstreamNegotiations key).2 }
  | prepare {st} (key : Str) : Step st { st with ongoingDownloads := (prepareDownloadState st.ongoingDownloads key).2 }
  | negotiation {st id negotiations} (hs : NegotiationStep id st.upstreamNegotiations negotiations) :
      Step st { st with upstreamNegotiations := negotiations }
  | download {st id downloads} (hs : DownloadStep id st.ongoingDownloads downloads) : Step st { st with ongoingDownloads := downloads }

/-- The tables that any interleaving of these steps leads to. -/
inductive Reachable : Registries → Prop
  | empty : Reachable .empty
  | step {st st'} (h : Reachable st) (hs : Step st st') : Reachable st'

/-- A blob is being downloaded: the handle of its key says so. -/
def Registries.Downloading (st : Registries) (key : Str) : Prop :=
  ∃ id, st.ongoingDownloads.entries.lookup key = some id ∧ st.ongoingDownloads.phase id = .running

/-! ## The claim -/

section

variable {negotiations : Handles Str NegotiationPhase} {key : Str}

/-- A claim leaves the negotiations to the one who leads, or makes a new one where there was none, or a failed one. -/
theorem claim_cases (negotiations : Handles Str NegotiationPhase) (key : Str) :
    (∃ id, negotiations.entries.lookup key = some id ∧ claimUpstreamNegotiation negotiations key = (.follower id, negotiations)) ∨
    (∀ id, negotiations.entries.lookup key = some id → negotiations.phase id = .failed) ∧
      claimUpstreamNegotiation negotiations key = (.leader negotiations.next, negotiations.register .pending key) := by
  unfold claimUpstreamNegotiation
  cases hl : negotiations.entries.lookup key with
  | none => exact .inr ⟨fun _ h => (nomatch h), rfl⟩
  | some existing =>
    by_cases hp : negotiations.phase existing = .failed
    · refine .inr ⟨fun id h => Option.some.inj h ▸ hp, ?_⟩
      have herase : (negotiations.entries.erase key).insert key negotiations.next = negotiations.entries.insert key negotiations.next := by
        refine AList.ext ?_
        rw [AList.entries_insert, AList.entries_insert]
        have hgone : key ∉ (negotiations.entries.erase key).entries.keys := fun hm => (AList.mem_erase.1 hm).1 rfl
        exact congrArg _ (List.kerase_of_notMem_keys hgone)
      simp only [hp, ne_eq, not_true_eq_false, if_false, Handles.register, herase]
    · refine .inl ⟨existing, rfl, ?_⟩
      simp only [if_pos hp, ne_eq]

/-- The phase that a dropped negotiation shows. -/
theorem negotiationDropped_ne (phase : NegotiationPhase) : negotiationDropped phase ≠ .pending :=
  nofun

/-- The phase that a dropped download shows. -/
theorem downloadDropped_ne (phase : DownloadPhase) : downloadDropped phase ≠ .running := by
  cases phase <;> nofun

end

end Almond.Coalescing
