import Almond.Lemmas.TicketsAux
import Almond.Sample

/-! # Reservations over whole runs -/

namespace Almond

open Conc Tickets

/-- Whether a step drops no task that has a ticket. -/
def keepsTickets (c : Server) : Label Req Resp Str Op Report → Bool
  | .dropped t _ => c.world.store.tickets.all fun x => x.1 ≠ t
  | _ => true

/-- Whether no chunk is being received. -/
def noPatch (c : Server) : Bool :=
  (List.range c.world.next).all fun t => (c.tasks t).all fun x => !x.1.isPatch

namespace Tickets

/-- Every ticket belongs to a chunk that is being received. -/
def Owned (c : Server) : Prop :=
  ∀ x ∈ c.world.store.tickets, ∃ op p, c.tasks x.1 = some (op, p) ∧ op.isPatch = true

/-- The steps of a run in which no ticket is dropped keep the promises of the discipline. -/
theorem ok_of_keepsTickets {cfg : Config} {c : Server} {l : Label Req Resp Str Op Report} (h : keepsTickets c l = true) :
    (discipline cfg).ok c l := by
  cases l with
  | dropped t op => exact fun key hm => absurd rfl (of_decide_eq_true (List.all_eq_true.1 h _ hm))
  | _ => exact trivial

/-- Every step leaves the tickets with their owners. -/
theorem Owned.step {cfg : Config} {c c' : Server} {l : Label Req Resp Str Op Report}
    (hs : Sound (machine cfg) (discipline cfg) (fun t _ _ w => ∀ key, (t, key) ∉ w.store.tickets) c) (ho : Owned c)
    (hok : keepsTickets c l = true) (hstep : Step (machine cfg) c l c') : Owned c' := by
  -- A task that moves stays the owner of its tickets, and the others are where they were.
  have hput : ∀ {t : Tid} {op : Op} {p q : Task Req Resp Str Report} {w : World Str AppState}, c.tasks t = some (op, p) →
      (∀ x ∈ w.store.tickets, x ∈ c.world.store.tickets ∨ x.1 = t ∧ op.isPatch = true) → Owned (c.put t op q w) := by
    intro t op p q w ht hw x hx
    by_cases hxt : x.1 = t
    · refine ⟨op, q, by simp only [Sys.put, hxt, Function.update_self], ?_⟩
      rcases hw x hx with hx | ⟨_, h⟩
      · obtain ⟨op', p', ht', hp'⟩ := ho x hx
        rw [hxt, ht] at ht'
        cases ht'
        exact hp'
      · exact h
    · obtain ⟨op', p', ht', hp'⟩ := ho x ((hw x hx).resolve_right fun h => hxt h.1)
      exact ⟨op', p', by simp only [Sys.put, Function.update_of_ne hxt, ht'], hp'⟩
  have herase : ∀ {t : Tid} {w : World Str AppState}, (∀ x ∈ w.store.tickets, x ∈ c.world.store.tickets ∧ x.1 ≠ t) →
      Owned (c.erase t w) := by
    intro t w hw x hx
    obtain ⟨hx, hxt⟩ := hw x hx
    obtain ⟨op', p', ht', hp'⟩ := ho x hx
    exact ⟨op', p', by simp only [Sys.erase, Function.update_of_ne hxt, ht'], hp'⟩
  cases hstep with
  | @spawn op he =>
    intro x hx
    obtain ⟨op', p', ht', hp'⟩ := ho x hx
    have hne : x.1 ≠ c.world.next := Nat.ne_of_lt (hs.1.2.2 x hx)
    exact ⟨op', p', by simp only [Sys.put, Function.update_of_ne hne, ht'], hp'⟩
  | @call t op r k e ht =>
    have hal := hs.allow (fits cfg) (ok_of_keepsTickets hok) (Step.call e ht)
    refine hput ht fun x hx => ?_
    rw [World.setStore_store, machine_exec] at hx
    obtain h | ⟨key, rfl, h⟩ | ⟨key, h⟩ := tickets_exec cfg t e c.world.store r <;> rw [h] at hx
    · exact .inl hx
    · rcases List.mem_cons.1 hx with rfl | hx
      · exact .inr ⟨rfl, hal.2.2 key rfl⟩
      · exact .inl hx
    · exact .inl (List.mem_of_mem_erase hx)
  | acquire ht _ => exact hput ht fun x hx => .inl hx
  | release ht => exact hput ht fun x hx => .inl hx
  | @finish t op a ht =>
    refine herase fun x hx => ⟨hx, ?_⟩
    rintro rfl
    exact (hs.2 _ op _ ht).2 x.2 hx
  | @drop t op p ht =>
    refine herase fun x hx => ⟨(List.mem_filter.1 hx).1, of_decide_eq_true (List.mem_filter.1 hx).2⟩
  | tick e => exact ho
  | crash => exact fun x hx => by cases hx

/-- A registry whose tickets are all back has no reservation. -/
theorem pending_eq_empty {st : SessionState} (h : st.Counted []) : st.pending = ∅ := by
  refine AList.ext ?_
  refine List.eq_nil_iff_forall_not_mem.2 fun x hx => ?_
  have hl := h x.1
  rw [AList.mem_lookup_iff.2 hx] at hl
  nomatch hl

end Tickets

/-- In a run from a server without tasks, only named tasks are looked at. -/
theorem idle_of_noPatch {cfg : Config} {ok : Server → Label Req Resp Str Op Report → Prop} {s : AppState} {c : Server}
    (hrun : Run (machine cfg) ok (Server.idle s) c) (h : noPatch c = true) :
    ∀ t op p, c.tasks t = some (op, p) → op.isPatch = false := by
  intro t op p ht
  have hx := List.all_eq_true.1 h t (List.mem_range.2 (hrun.named t _ ht))
  rw [ht] at hx
  simpa using hx

/-- In every run that drops no request between its reservation and the commit or the release that gives it back, no reservation is left
once no chunk is being received. -/
theorem reservations_returned {cfg : Config} {s : AppState} {c : Server} (hsessions : s.sessions = .empty) (htickets : s.tickets = [])
    (hrun : Run (machine cfg) (fun c l => keepsTickets c l = true) (Server.idle s) c)
    (hidle : ∀ t op p, c.tasks t = some (op, p) → op.isPatch = false) : c.world.store.sessions.pending = ∅ := by
  have hinv : (discipline cfg).inv (Server.idle s).world := by
    refine ⟨?_, ?_, ?_⟩
    · exact hsessions ▸ SessionState.each_empty _
    · show s.sessions.Counted s.tickets
      rw [hsessions, htickets]
      exact fun _ => rfl
    · show ∀ x ∈ s.tickets, _
      rw [htickets]
      exact nofun
  have h₀ : Sound (machine cfg) (discipline cfg) (fun t _ _ w => ∀ key, (t, key) ∉ w.store.tickets) (Server.idle s) :=
    sound_empty hinv
  obtain ⟨hsound, howned⟩ := hrun.invariant (I := fun c => Sound (machine cfg) (discipline cfg)
    (fun t _ _ w => ∀ key, (t, key) ∉ w.store.tickets) c ∧ Owned c)
    (fun c l c' hI hok hstep => ⟨hI.1.step (fits cfg) (ok_of_keepsTickets hok) hstep, hI.2.step hI.1 hok hstep⟩)
    ⟨h₀, fun x hx => absurd (htickets ▸ hx : x ∈ []) List.not_mem_nil⟩
  have hnone : c.world.store.tickets = [] := by
    refine List.eq_nil_iff_forall_not_mem.2 fun x hx => ?_
    obtain ⟨op, p, ht, hp⟩ := howned x hx
    exact absurd (hp.symm.trans (hidle _ op p ht)) nofun
  exact pending_eq_empty (hnone ▸ hsound.1.2.1)

/-- A chunk that is dropped while its body is received. -/
def droppedChunk : List (Move Env Op) :=
  [.spawn Sample.patch] ++ Sample.steps 0 8 ++ [.drop 0]

/-- A request that is dropped while its body is received leaves its reservation behind: a ticket has no destructor. -/
theorem reservations_returned_false :
    ¬ ∀ (cfg : Config) (s : AppState) (c : Server), s.sessions = .empty → s.tickets = [] →
      Run (machine cfg) (fun _ _ => True) (Server.idle s) c →
      (∀ t op p, c.tasks t = some (op, p) → op.isPatch = false) → c.world.store.sessions.pending = ∅ := by
  intro h
  obtain ⟨c, hrun, hP⟩ := exists_run_of_replay (machine Sample.config) (Server.idle Sample.started)
    droppedChunk (fun _ _ => true)
    (fun c => noPatch c && c.world.store.sessions.hasPending ⟨Sample.event.pubkey, Sample.hash⟩) (by decide)
  obtain ⟨hidle, hpending⟩ := Bool.and_eq_true_iff.1 hP
  have hempty := h Sample.config Sample.started c rfl rfl (hrun.mono fun _ _ _ => trivial) (idle_of_noPatch hrun hidle)
  rw [SessionState.hasPending, hempty] at hpending
  exact absurd hpending (fun h => by cases h)

/-- A chunk that is dropped before it was reserved, and one that is received to its end. -/
def receivedChunk : List (Move Env Op) :=
  [.spawn Sample.patch] ++ Sample.steps 0 4 ++ [.drop 0, .spawn Sample.patch] ++ Sample.steps 1 42

/-- A request that is dropped before its reservation, and one that ends, leave no reservation. -/
theorem reservations_returned_received :
    ∃ c : Server, Run (machine Sample.config) (fun c l => keepsTickets c l = true) (Server.idle Sample.started) c ∧
      c.world.next = 2 ∧ c.world.store.sessions.pending = ∅ := by
  obtain ⟨c, hrun, hP⟩ := exists_run_of_replay (machine Sample.config) (Server.idle Sample.started)
    receivedChunk keepsTickets (fun c => noPatch c && c.world.next == 2) (by decide)
  obtain ⟨hidle, hnext⟩ := Bool.and_eq_true_iff.1 hP
  exact ⟨c, hrun, beq_iff_eq.1 hnext, reservations_returned rfl rfl hrun (idle_of_noPatch hrun hidle)⟩

end Almond
