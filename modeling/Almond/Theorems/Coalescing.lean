import Almond.Coalescing

/-! # Sharing negotiations and downloads -/

namespace Almond.Coalescing

open Conc (Tid HandleId Handles Guard)

/-! ## The tables -/

/-- What holds of the tables. -/
structure Sound (st : Registries) : Prop where
  negotiations : Handles.Tracked .pending st.upstreamNegotiations
  /-- A negotiation that is pending is in its table. -/
  pending : Handles.Registered .pending st.upstreamNegotiations
  downloads : Handles.Tracked .running st.ongoingDownloads

section

variable {st st' : Registries} {key : Str}

/-- The tables of a new process. -/
theorem sound_empty : Sound .empty :=
  ⟨Handles.tracked_empty _, fun _ _ hg => (nomatch hg), Handles.tracked_empty _⟩

/-- A claim keeps what holds of the tables. -/
theorem Sound.claim (h : Sound st) (key : Str) :
    Sound { st with upstreamNegotiations := (claimUpstreamNegotiation st.upstreamNegotiations key).2 } := by
  rcases claim_cases st.upstreamNegotiations key with ⟨id, _, hc⟩ | ⟨hfailed, hc⟩
  · rw [hc]
    exact h
  · rw [hc]
    refine ⟨h.negotiations.register key, h.pending.register fun id hl hp => ?_, h.downloads⟩
    -- What gives way is a failed negotiation.
    nomatch (hfailed id hl).symm.trans hp

/-- Every step keeps what holds of the tables. -/
theorem Sound.step (h : Sound st) (hs : Step st st') : Sound st' := by
  cases hs with
  | claim key => exact h.claim key
  | prepare key => exact ⟨h.negotiations, h.pending, h.downloads.register key⟩
  | negotiation hs =>
    exact ⟨h.negotiations.step negotiationDropped_ne hs, h.pending.step h.negotiations negotiationDropped_ne hs, h.downloads⟩
  | download hs => exact ⟨h.negotiations, h.pending, h.downloads.step downloadDropped_ne hs⟩

/-- What holds of the tables holds after all steps. -/
theorem sound_of_reachable (h : Reachable st) : Sound st := by
  induction h with
  | empty => exact sound_empty
  | step _ hs ih => exact ih.step hs

end

/-- Whatever requests claim, prepare, finish and drop: what is done with one guard removes no other handle; a key has at most one
leader whose negotiation is pending, and that is the one in the table; and once the guards of a key are gone and the removals have run,
neither table has a handle for it. -/
theorem registries_coalesce {st : Registries} (h : Reachable st) :
    (∀ id negotiations key id', NegotiationStep id st.upstreamNegotiations negotiations → id' ≠ id →
      st.upstreamNegotiations.entries.lookup key = some id' → negotiations.entries.lookup key = some id') ∧
    (∀ id downloads key id', DownloadStep id st.ongoingDownloads downloads → id' ≠ id →
      st.ongoingDownloads.entries.lookup key = some id' → downloads.entries.lookup key = some id') ∧
    (∀ id id' g g', st.upstreamNegotiations.guards.lookup id = some g → st.upstreamNegotiations.guards.lookup id' = some g' →
      st.upstreamNegotiations.phase id = .pending → st.upstreamNegotiations.phase id' = .pending → g.key = g'.key →
      id = id' ∧ st.upstreamNegotiations.entries.lookup g.key = some id) ∧
    (∀ key, (∀ id g, st.upstreamNegotiations.guards.lookup id = some g → g.key ≠ key) →
      (∀ id, (key, id) ∉ st.upstreamNegotiations.removals) → st.upstreamNegotiations.entries.lookup key = none) ∧
    (∀ key, (∀ id g, st.ongoingDownloads.guards.lookup id = some g → g.key ≠ key) →
      (∀ id, (key, id) ∉ st.ongoingDownloads.removals) → st.ongoingDownloads.entries.lookup key = none) := by
  have hs := sound_of_reachable h
  refine ⟨?_, ?_, ?_, ?_, ?_⟩
  · intro id negotiations key id' hstep hne hl
    exact hstep.lookup_of_ne hl hne
  · intro id downloads key id' hstep hne hl
    exact hstep.lookup_of_ne hl hne
  · intro id id' g g' hg hg' hp hp' hkey
    exact ⟨hs.pending.unique hg hg' hp hp' hkey, hs.pending id g hg hp⟩
  · intro key hg hr
    exact hs.negotiations.lookup_eq_none hg hr
  · intro key hg hr
    exact hs.downloads.lookup_eq_none hg hr

/-- A leader fails and is replaced before the task that its guard left has run: that task leaves the negotiation of the new leader. -/
theorem registries_coalesce_replaced :
    ∃ st, Reachable st ∧ (['k'], 0) ∈ st.upstreamNegotiations.removals ∧ st.upstreamNegotiations.entries.lookup ['k'] = some 1 ∧
      (st.upstreamNegotiations.runRemoval 0 ['k']).entries.lookup ['k'] = some 1 := by
  have h₁ : Reachable _ := .step .empty (.claim ['k'])
  have h₂ := h₁.step (.negotiation (@Handles.Step.drop _ _ _ _ _ 0 _ ⟨['k'], false⟩ rfl))
  have h₃ := h₂.step (.claim ['k'])
  refine ⟨_, h₃, List.mem_cons_self, rfl, ?_⟩
  exact (registries_coalesce h₃).1 0 _ ['k'] 1 (.removal List.mem_cons_self) (by decide) rfl

end Almond.Coalescing
