import Almond.Lemmas.TicketsAux
import Almond.Sample

/-! # Which sessions are evicted -/

namespace Almond

open Conc (Tid)

namespace Registry

/-! ## Runs with a log -/

/-- A chunk that was committed, for which key and when. -/
structure Receipt where
  key : ChunkUploadKey
  chunk : ChunkInfo
  time : Nat
  deriving DecidableEq, Repr

/-- The registry, and the chunks that it accepted. -/
structure Logged where
  registry : Registry
  log : List Receipt

/-- An operation: which request makes it, when, and what it is. -/
structure Operation where
  task : Tid
  now : Nat
  request : SessionReq

/-- The chunk that an operation commits, when it is accepted. -/
def accepted (g : Registry) (op : Operation) : List Receipt :=
  match op.request with
  | .commit key params chunk =>
    match (g.state.commit key params chunk op.now).1 with
    | .incomplete | .complete _ => [⟨key, chunk, op.now⟩]
    | .overlap | .paramMismatch => []
  | _ => []

/-- One operation. -/
def Logged.exec (limits : SessionLimits) (g : Logged) (op : Operation) : Logged :=
  ⟨g.registry.exec limits op.task op.now op.request, accepted g.registry op ++ g.log⟩

/-- The registry of a new process. -/
def Logged.empty : Logged := ⟨.empty, []⟩

/-- The operations can be made one after another: each release and each commit has a ticket. -/
def Run (limits : SessionLimits) : Logged → List Operation → Prop
  | _, [] => True
  | g, op :: ops => g.registry.holdsTicket op.task op.request ∧ Run limits (g.exec limits op) ops

/-- Every eviction of a run satisfies `P`, which is about the registry before it, its time and its age. -/
def Evictions (limits : SessionLimits) (P : Logged → Nat → Nat → Prop) : Logged → List Operation → Prop
  | _, [] => True
  | g, op :: ops => (∀ age, op.request = .evictOlderThan age → P g op.now age) ∧ Evictions limits P (g.exec limits op) ops

/-! ## Idle sessions -/

/-- No reservation for a key is outstanding. -/
def Unreserved (g : Logged) (key : ChunkUploadKey) : Prop :=
  ∀ t, (t, key) ∉ g.registry.tickets

/-- No chunk of a session was committed during the last `age`. -/
def Quiet (g : Logged) (now age : Nat) (key : ChunkUploadKey) (upload : ChunkUpload) : Prop :=
  ∀ receipt ∈ g.log, receipt.key = key → receipt.chunk ∈ upload.chunks → age ≤ now - receipt.time

/-- An eviction removes only sessions that are quiet and have no reservation outstanding. -/
def EvictsIdle (g : Logged) (now age : Nat) : Prop :=
  ∀ key upload, g.registry.state.uploads.lookup key = some upload →
    (g.registry.state.evictOlderThan age now).2.uploads.lookup key = none → Unreserved g key ∧ Quiet g now age key upload

/-- No session without a reservation that was created at least `age` ago received a later chunk during the last `age`. -/
def NoneRevived (g : Logged) (now age : Nat) : Prop :=
  ∀ key upload, g.registry.state.uploads.lookup key = some upload → Unreserved g key → age ≤ now - upload.createdAt →
    Quiet g now age key upload

variable {limits : SessionLimits} {g : Logged} {now age : Nat}

/-- A key without outstanding tickets has no pending reservation, and the other way around. -/
theorem unreserved_iff (hc : g.registry.state.Counted g.registry.tickets) (key : ChunkUploadKey) :
    Unreserved g key ↔ g.registry.state.hasPending key = false := by
  have hzero : Unreserved g key ↔ SessionState.outstanding g.registry.tickets key = 0 := by
    simp only [Unreserved, SessionState.outstanding, List.countP_eq_zero, decide_eq_true_eq, Prod.forall]
    exact ⟨fun h t k hmem hk => h t (hk ▸ hmem), fun h t hmem => h t key hmem rfl⟩
  rw [hzero, SessionState.hasPending, hc key]
  split <;> simp_all

/-- An eviction removes the sessions that have no pending reservation and were created at least `age` ago. -/
theorem lookup_evict_eq_none_iff {st : SessionState} {key : ChunkUploadKey} {upload : ChunkUpload}
    (h : st.uploads.lookup key = some upload) :
    (st.evictOlderThan age now).2.uploads.lookup key = none ↔ st.hasPending key = false ∧ age ≤ now - upload.createdAt := by
  have hkept : (∃ kept, (st.evictOlderThan age now).2.uploads.lookup key = some kept) ↔ st.keeps age now key upload = true := by
    constructor
    · rintro ⟨kept, hkept⟩
      obtain ⟨hlookup, hkeeps⟩ := lookup_retain_eq_some.1 hkept
      rw [h] at hlookup
      cases hlookup
      exact hkeeps
    · exact fun hkeeps => ⟨upload, lookup_retain_eq_some.2 ⟨h, hkeeps⟩⟩
  rw [← Option.not_isSome_iff_eq_none, Option.isSome_iff_exists, hkept, SessionState.keeps, Bool.or_eq_true, decide_eq_true_eq, not_or,
    Bool.not_eq_true, Nat.not_lt]

/-- One eviction removes only idle sessions exactly when it finds none that was revived. -/
theorem evictsIdle_iff (hc : g.registry.state.Counted g.registry.tickets) : EvictsIdle g now age ↔ NoneRevived g now age := by
  constructor
  · intro h key upload hlookup hfree hage
    exact (h key upload hlookup ((lookup_evict_eq_none_iff hlookup).2 ⟨(unreserved_iff hc key).1 hfree, hage⟩)).2
  · intro h key upload hlookup hgone
    obtain ⟨hpending, hage⟩ := (lookup_evict_eq_none_iff hlookup).1 hgone
    have hfree := (unreserved_iff hc key).2 hpending
    exact ⟨hfree, h key upload hlookup hfree hage⟩

/-- Only idle sessions are evicted in a run, exactly when no eviction of it finds a session without a reservation that was created at
least `age` ago and received a later chunk during the last `age`. -/
theorem evictions_idle_iff {ops : List Operation} (hrun : Run limits .empty ops) :
    Evictions limits EvictsIdle .empty ops ↔ Evictions limits NoneRevived .empty ops := by
  -- By induction on the operations, from any registry whose tickets are counted.
  have hall : ∀ (g : Logged), g.registry.state.Counted g.registry.tickets → Run limits g ops →
      (Evictions limits EvictsIdle g ops ↔ Evictions limits NoneRevived g ops) := by
    clear hrun
    induction ops with
    | nil => exact fun _ _ _ => Iff.rfl
    | cons op ops ih =>
      intro g hc hrun
      refine and_congr (forall_congr' fun age => imp_congr_right fun _ => evictsIdle_iff hc) (ih _ ?_ hrun.2)
      exact counted_exec op.now hc hrun.1
  exact hall .empty (fun _ => rfl) hrun

end Registry

namespace Sample

/-- An upload of three bytes, one chunk each. -/
def threeBytes : SessionParams := ⟨hash, [], [], 3, none⟩

/-- Its chunk of an offset. -/
def byteChunk (offset : Nat) : ChunkInfo := ⟨offset, 1, config.storage.temp ++ [decimal offset]⟩

/-- A request that sends a chunk at a time, in seconds. -/
def sendsChunk (offset now : Nat) : List Registry.Operation :=
  [⟨offset, now, .reserve ⟨[], hash⟩⟩, ⟨offset, now, .commit ⟨[], hash⟩ threeBytes (byteChunk offset)⟩]

/-- An eviction of the sessions that are older than half an hour. -/
def evictsAt (now : Nat) : Registry.Operation := ⟨9, now, .evictOlderThan 1800⟩

end Sample

namespace Registry

open Sample in
/-- An upload that is given up after its first byte. -/
theorem evictions_idle_iff_abandoned :
    Evictions config.sessionLimits EvictsIdle .empty (sendsChunk 0 0 ++ [evictsAt 1860]) ↔
      Evictions config.sessionLimits NoneRevived .empty (sendsChunk 0 0 ++ [evictsAt 1860]) :=
  evictions_idle_iff ⟨trivial, List.mem_cons_self, trivial, trivial⟩

open Sample in
/-- An upload whose second byte comes after half an hour is evicted right then. -/
theorem evictions_idle_false :
    Run config.sessionLimits .empty (sendsChunk 0 0 ++ sendsChunk 1 1860 ++ [evictsAt 1860]) ∧
      ¬ Evictions config.sessionLimits EvictsIdle .empty (sendsChunk 0 0 ++ sendsChunk 1 1860 ++ [evictsAt 1860]) := by
  refine ⟨⟨trivial, List.mem_cons_self, trivial, List.mem_cons_self, trivial, trivial⟩, fun h => ?_⟩
  have hevicts := h.2.2.2.2.1 1800 rfl
  have hquiet := (hevicts ⟨[], hash⟩ ⟨hash, [], [], 3, [byteChunk 0, byteChunk 1], 0, none⟩ rfl rfl).2
  exact absurd (hquiet ⟨⟨[], hash⟩, byteChunk 1, 1860⟩ List.mem_cons_self rfl (List.mem_cons_of_mem _ List.mem_cons_self)) (by decide)

end Registry

end Almond
