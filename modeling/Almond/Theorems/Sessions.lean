import Almond.Lemmas.TicketsAux

/-! # The capacity of the session registry -/

namespace Almond

open Conc (Tid)

namespace Registry

/-- The number of distinct keys is within the limits, in total and for every owner, and every key has as many reservations as tickets
that are out. -/
def Bounded (limits : SessionLimits) (g : Registry) : Prop :=
  g.state.occupied.card ≤ limits.maxSessions ∧
    (∀ pubkey, (g.state.occupied.filter fun k => k.pubkey = pubkey).card ≤ limits.maxSessionsPerPubkey) ∧
    ∀ key, (g.state.pending.lookup key).getD 0 = SessionState.outstanding g.tickets key

/-- Whether a restore finds its key in use, or room for it. -/
def Roomy (limits : SessionLimits) (g : Registry) : SessionReq → Prop
  | .restore key _ => key ∈ g.state.occupied ∨ g.state.hasRoom limits key = true
  | _ => True

/-- Every operation with room keeps the limits. -/
theorem within_exec {limits : SessionLimits} {g : Registry} {t : Tid} {now : Nat} {r : SessionReq}
    (h : g.state.Within limits) (hr : g.Roomy limits r) : (g.exec limits t now r).state.Within limits := by
  cases r with
  | reserve key =>
    have hw := h.reserve key
    simp only [exec, SessionReq.exec]
    rcases hres : g.state.reserve limits key with ⟨_ | _ | _, st⟩ <;> rw [hres] at hw <;> exact hw
  | release key => exact h.of_subset (g.state.occupied_consume key)
  | commit key params chunk => exact h.of_subset (g.state.occupied_commit key params chunk now)
  | restore key upload =>
    rcases g.state.restore_cases key upload with hrest | ⟨hu, hp, hrest⟩
    · simpa only [exec, SessionReq.exec, hrest] using h
    · simp only [exec, SessionReq.exec, hrest]
      refine h.of_subset_insert key (hr.resolve_left fun hk => ?_) (g.state.occupied_insert key upload)
      rcases SessionState.mem_occupied.1 hk with hk | hk
      · exact absurd (hu.symm.trans hk) (fun h => by cases h)
      · exact absurd (hp.symm.trans hk) (fun h => by cases h)
  | evictOlderThan age => exact h.of_subset (g.state.occupied_evict age now)

/-- The invariant in the words of the registry. -/
theorem bounded_of_within {limits : SessionLimits} {g : Registry} (h : g.state.Within limits)
    (hc : g.state.Counted g.tickets) : g.Bounded limits := by
  refine ⟨g.state.sessions_eq_card ▸ h.1, fun pubkey => g.state.ownerSessions_eq_card pubkey ▸ h.2 pubkey, fun key => ?_⟩
  rw [hc key]
  split
  · rename_i h0
    exact h0.symm
  · rfl

/-- A restore for which there is no room leaves the limits. -/
theorem not_bounded_restore {limits : SessionLimits} {g : Registry} {key : ChunkUploadKey} {upload : ChunkUpload}
    (hr : ¬ g.Roomy limits (.restore key upload)) (t : Tid) (now : Nat) :
    ¬ (g.exec limits t now (.restore key upload)).Bounded limits := by
  obtain ⟨hk, hroom⟩ := not_or.1 hr
  have hfree : g.state.hasUpload key = false ∧ g.state.hasPending key = false := by
    rw [SessionState.mem_occupied, not_or] at hk
    exact ⟨Bool.eq_false_iff.2 hk.1, Bool.eq_false_iff.2 hk.2⟩
  have hins : insert key g.state.occupied ⊆ (g.exec limits t now (.restore key upload)).state.occupied := by
    intro k h
    rcases g.state.restore_cases key upload with hrest | ⟨_, _, hrest⟩
    · simp [SessionState.restore, hfree] at hrest
    · simp only [exec, SessionReq.exec, hrest, SessionState.mem_occupied]
      rcases Finset.mem_insert.1 h with rfl | h
      · exact .inl (AList.lookup_isSome.2 ((AList.mem_insert _).2 (.inl rfl)))
      · exact (SessionState.mem_occupied.1 h).imp
          (fun h => AList.lookup_isSome.2 ((AList.mem_insert _).2 (.inr (AList.lookup_isSome.1 h)))) id
  intro hb
  refine hroom ?_
  have hcard := Finset.card_le_card hins
  have hown := Finset.card_le_card (Finset.filter_subset_filter (fun k : ChunkUploadKey => k.pubkey = key.pubkey) hins)
  rw [Finset.card_insert_of_notMem hk] at hcard
  rw [Finset.filter_insert, if_pos rfl, Finset.card_insert_of_notMem fun h => hk (Finset.mem_filter.1 h).1] at hown
  have hmax := hb.1
  have hmax' := hb.2.1 key.pubkey
  simp only [SessionState.hasRoom, SessionState.sessions_eq_card, SessionState.ownerSessions_eq_card, Bool.and_eq_true,
    decide_eq_true_eq]
  omega

end Registry

open Registry

/-- As long as every restore finds room, the registry keeps its limits and counts its tickets; the first restore that finds none
breaks the limits. -/
theorem session_capacity (limits : SessionLimits) {g : Registry} (h : g.Reachable limits (Roomy limits)) :
    g.Bounded limits ∧ ∀ (key : ChunkUploadKey) (upload : ChunkUpload) (t : Tid) (now : Nat),
      (g.exec limits t now (.restore key upload)).Bounded limits ↔ g.Roomy limits (.restore key upload) := by
  have hinv : g.state.Within limits ∧ g.state.Counted g.tickets := by
    refine h.invariant (I := fun g => g.state.Within limits ∧ g.state.Counted g.tickets) ⟨⟨Nat.zero_le _, fun _ => Nat.zero_le _⟩, fun _ => rfl⟩ ?_
    intro g t now r hi ht hok
    exact ⟨within_exec hi.1 hok, counted_exec now hi.2 ht⟩
  refine ⟨bounded_of_within hinv.1 hinv.2, fun key upload t now => ⟨fun hb => ?_, fun hr => ?_⟩⟩
  · exact Classical.byContradiction fun hr => not_bounded_restore hr t now hb
  · exact bounded_of_within (within_exec hinv.1 hr) (counted_exec now hinv.2 trivial)

namespace Sample

/-- One session in all. -/
def oneSession : SessionLimits := ⟨1, 1⟩

/-- The key of an owner. -/
def sessionKey (owner : String) : ChunkUploadKey := ⟨owner.toList, List.replicate 64 'a'⟩

/-- An upload of one byte. -/
def oneByte (owner : String) : SessionParams := ⟨List.replicate 64 'a', owner.toList, [], 1, none⟩

/-- The only chunk of an upload of one byte. -/
def onlyChunk : ChunkInfo := ⟨0, 1, []⟩

/-- The first owner's upload is complete, and its payment runs. -/
def paying : Registry :=
  (Registry.empty.exec oneSession 0 0 (.reserve (sessionKey "a"))).exec oneSession 0 0
    (.commit (sessionKey "a") (oneByte "a") onlyChunk)

/-- The first owner reserves a session and completes it. -/
theorem reachable_paying {ok : Registry → SessionReq → Prop} (h : ∀ g key, ok g (.reserve key))
    (h' : ∀ g key params chunk, ok g (.commit key params chunk)) : paying.Reachable oneSession ok := by
  refine Reachable.step (Reachable.step .empty 0 0 (.reserve (sessionKey "a")) trivial (h _ _)) 0 0
    (.commit (sessionKey "a") (oneByte "a") onlyChunk) ?_ (h' _ _ _ _)
  exact List.mem_cons_self

/-- The session that the first owner's request restores when its payment is rejected. -/
def rejected : ChunkUpload := SessionState.newUpload (oneByte "a") 0

end Sample

open Sample in
/-- A session that comes back after its payment was rejected can exceed the limits: another one has taken its place. -/
theorem session_capacity_false :
    ¬ ∀ (limits : SessionLimits) (g : Registry), 1 ≤ limits.maxSessions → 1 ≤ limits.maxSessionsPerPubkey →
      g.Reachable limits (fun _ _ => True) → g.Bounded limits := by
  intro h
  have hpaying : paying.Reachable oneSession (fun _ _ => True) :=
    reachable_paying (fun _ _ => trivial) fun _ _ _ _ => trivial
  have hnext := hpaying.step 1 0 (.reserve (sessionKey "b")) trivial trivial
  have hb := h oneSession _ (by decide) (by decide) (hnext.step 0 0 (.restore (sessionKey "a") rejected) trivial trivial)
  exact absurd hb.1 (by decide)

open Sample in
/-- A session that comes back while its place is free stays within the limits. -/
theorem session_capacity_restored :
    (paying.exec oneSession 0 0 (.restore (sessionKey "a") rejected)).Bounded oneSession :=
  (session_capacity oneSession ((reachable_paying (fun _ _ => trivial) fun _ _ _ _ => trivial).step 0 0
    (.restore (sessionKey "a") rejected) trivial (.inr (by decide)))).1

end Almond
