import Almond.Conc.Task

/-! # Systems: tasks interleaved over one store

A machine fixes the programs that can be started and what each request does to the store. A system is a store, the holders of
the locks and the tasks that have not finished; it moves by letting one task take one step, by dropping a task, by something
outside it, or by a crash that loses every task. -/

namespace Conc

/-- The programs of a process and the effects of their requests. `Env` is what the outside decides at a step: faults, times, the
sizes of pages. -/
structure Machine (Req : Type) (Resp : Req → Type) (L Env σ Op Out : Type) where
  /-- The program an operation runs. -/
  body : Op → Task Req Resp L Out
  /-- The response to a request, and the store after it. -/
  exec : Tid → (r : Req) → Env → σ → Resp r × σ
  /-- What the destructors of a dropped task do to the store. -/
  discard : Tid → σ → σ
  /-- Whether an operation can be started now. -/
  enabled : Op → σ → Bool
  /-- A change of the store that no task makes. -/
  tick : Env → σ → σ
  /-- What of the store survives the end of the process. -/
  crash : σ → σ
  /-- The operation a new process starts with. -/
  boot : Op

/-- The part of a system that the tasks share. -/
structure World (L σ : Type) where
  store : σ
  /-- The task that holds a lock, if one does. -/
  owner : L → Option Tid
  /-- The name the next task gets. -/
  next : Tid

/-- What one step did, as an observer sees it. -/
inductive Label (Req : Type) (Resp : Req → Type) (L Op Out : Type) where
  | spawned (t : Tid) (op : Op)
  | called (t : Tid) (op : Op) (r : Req) (x : Resp r)
  | acquired (t : Tid) (op : Op) (l : L)
  | released (t : Tid) (op : Op) (l : L)
  | returned (t : Tid) (op : Op) (a : Out)
  | dropped (t : Tid) (op : Op)
  | ticked
  | crashed

variable {Req : Type} {Resp : Req → Type} {L Env σ Op Out : Type}

namespace World

/-- The world with another store. -/
def setStore (w : World L σ) (s : σ) : World L σ :=
  { w with store := s }

/-- The world in which a task holds a lock. -/
def take [DecidableEq L] (w : World L σ) (l : L) (t : Tid) : World L σ :=
  { w with owner := Function.update w.owner l (some t) }

/-- The world in which nobody holds a lock. -/
def give [DecidableEq L] (w : World L σ) (l : L) : World L σ :=
  { w with owner := Function.update w.owner l none }

/-- The world after a task was dropped: its destructors ran and its locks are free. -/
def forget (w : World L σ) (t : Tid) (s : σ) : World L σ :=
  { w with store := s, owner := fun l => if w.owner l = some t then none else w.owner l }

/-- The world after one more task was named. -/
def allocate (w : World L σ) : World L σ :=
  { w with next := w.next + 1 }

/-- The world of a new process: no lock is held. -/
def restart (w : World L σ) (s : σ) : World L σ :=
  { w with store := s, owner := fun _ => none }

@[simp] theorem setStore_store (w : World L σ) (s : σ) : (w.setStore s).store = s := rfl
@[simp] theorem setStore_owner (w : World L σ) (s : σ) : (w.setStore s).owner = w.owner := rfl
@[simp] theorem setStore_next (w : World L σ) (s : σ) : (w.setStore s).next = w.next := rfl
@[simp] theorem take_store [DecidableEq L] (w : World L σ) (l : L) (t : Tid) : (w.take l t).store = w.store := rfl
@[simp] theorem take_next [DecidableEq L] (w : World L σ) (l : L) (t : Tid) : (w.take l t).next = w.next := rfl
@[simp] theorem give_store [DecidableEq L] (w : World L σ) (l : L) : (w.give l).store = w.store := rfl
@[simp] theorem give_next [DecidableEq L] (w : World L σ) (l : L) : (w.give l).next = w.next := rfl
@[simp] theorem forget_store (w : World L σ) (t : Tid) (s : σ) : (w.forget t s).store = s := rfl
@[simp] theorem forget_next (w : World L σ) (t : Tid) (s : σ) : (w.forget t s).next = w.next := rfl
@[simp] theorem allocate_store (w : World L σ) : w.allocate.store = w.store := rfl
@[simp] theorem allocate_owner (w : World L σ) : w.allocate.owner = w.owner := rfl
@[simp] theorem restart_store (w : World L σ) (s : σ) : (w.restart s).store = s := rfl
@[simp] theorem restart_owner (w : World L σ) (s : σ) (l : L) : (w.restart s).owner l = none := rfl
@[simp] theorem restart_next (w : World L σ) (s : σ) : (w.restart s).next = w.next := rfl

/-- The lock that was taken is held by the task that took it. -/
@[simp] theorem take_owner_self [DecidableEq L] (w : World L σ) (l : L) (t : Tid) : (w.take l t).owner l = some t :=
  Function.update_self ..

/-- Taking a lock moves no other one. -/
theorem take_owner_of_ne [DecidableEq L] {w : World L σ} {l l' : L} {t : Tid} (h : l' ≠ l) :
    (w.take l t).owner l' = w.owner l' :=
  Function.update_of_ne h ..

/-- Giving a lock back leaves another one with its holder. -/
theorem give_owner_of_ne [DecidableEq L] {w : World L σ} {l l' : L} (h : l' ≠ l) : (w.give l).owner l' = w.owner l' :=
  Function.update_of_ne h ..

/-- A task that is not dropped keeps its locks. -/
theorem forget_owner_of_ne {w : World L σ} {t t' : Tid} {s : σ} {l : L} (h : t' ≠ t) (ho : w.owner l = some t') :
    (w.forget t s).owner l = some t' := by
  have hn : some t' ≠ some t := fun h' => h (Option.some.inj h')
  simp only [forget, ho, if_neg hn]

end World

/-- A world together with the tasks that run in it. -/
structure Sys (Req : Type) (Resp : Req → Type) (L σ Op Out : Type) where
  world : World L σ
  /-- The operation each running task was started for, and what is left of it. -/
  tasks : Tid → Option (Op × Task Req Resp L Out)

namespace Sys

/-- The system in which one task has moved. -/
def put (c : Sys Req Resp L σ Op Out) (t : Tid) (op : Op) (p : Task Req Resp L Out) (w : World L σ) :
    Sys Req Resp L σ Op Out :=
  ⟨w, Function.update c.tasks t (some (op, p))⟩

/-- The system in which one task is gone. -/
def erase (c : Sys Req Resp L σ Op Out) (t : Tid) (w : World L σ) : Sys Req Resp L σ Op Out :=
  ⟨w, Function.update c.tasks t none⟩

/-- The system of a new process: its only task is the one it starts with. -/
def reboot (c : Sys Req Resp L σ Op Out) (op : Op) (p : Task Req Resp L Out) (w : World L σ) : Sys Req Resp L σ Op Out :=
  ⟨w, Function.update (fun _ => none) c.world.next (some (op, p))⟩

/-- A task of a system without another one is a task of the system. -/
theorem tasks_of_erase {c : Sys Req Resp L σ Op Out} {t t' : Tid} {w : World L σ} {x : Op × Task Req Resp L Out}
    (h : (c.erase t w).tasks t' = some x) : c.tasks t' = some x := by
  by_cases ht : t' = t
  · subst ht
    exact absurd ((Function.update_self ..).symm.trans h) nofun
  · exact (Function.update_of_ne ht ..).symm.trans h

/-- Every running task satisfies a predicate. -/
def Each (G : World L σ → Tid → Op → Task Req Resp L Out → Prop) (c : Sys Req Resp L σ Op Out) : Prop :=
  ∀ t op p, c.tasks t = some (op, p) → G c.world t op p

section

variable {G : World L σ → Tid → Op → Task Req Resp L Out → Prop} {c : Sys Req Resp L σ Op Out} {t : Tid} {op : Op}
  {p : Task Req Resp L Out} {w : World L σ}

/-- The task that moved satisfies the predicate, and the others still do. -/
theorem Each.put (hc : c.Each G) (hp : G w t op p)
    (hothers : ∀ t' op' p', t' ≠ t → c.tasks t' = some (op', p') → G c.world t' op' p' → G w t' op' p') :
    (c.put t op p w).Each G := by
  intro t' op' p' h
  simp only [Sys.put] at h ⊢
  by_cases ht : t' = t
  · subst ht
    rw [Function.update_self] at h
    cases h
    exact hp
  · rw [Function.update_of_ne ht] at h
    exact hothers t' op' p' ht h (hc t' op' p' h)

/-- The tasks that remain still satisfy the predicate. -/
theorem Each.erase (hc : c.Each G)
    (hothers : ∀ t' op' p', t' ≠ t → c.tasks t' = some (op', p') → G c.world t' op' p' → G w t' op' p') :
    (c.erase t w).Each G := by
  intro t' op' p' h
  simp only [Sys.erase] at h ⊢
  by_cases ht : t' = t
  · subst ht
    rw [Function.update_self] at h
    nomatch h
  · rw [Function.update_of_ne ht] at h
    exact hothers t' op' p' ht h (hc t' op' p' h)

/-- The only task of a new process satisfies the predicate. -/
theorem each_reboot (hp : G w c.world.next op p) : (c.reboot op p w).Each G := by
  intro t' op' p' h
  simp only [reboot] at h ⊢
  by_cases ht : t' = c.world.next
  · subst ht
    rw [Function.update_self] at h
    cases h
    exact hp
  · rw [Function.update_of_ne ht] at h
    nomatch h

end

end Sys

/-- One step of a system, with its label. -/
inductive Step [DecidableEq L] (M : Machine Req Resp L Env σ Op Out) :
    Sys Req Resp L σ Op Out → Label Req Resp L Op Out → Sys Req Resp L σ Op Out → Prop
  | spawn {c} {op : Op} (he : M.enabled op c.world.store = true) :
      Step M c (.spawned c.world.next op) (c.put c.world.next op (M.body op) c.world.allocate)
  | call {c t op} {r : Req} {k : Resp r → Task Req Resp L Out} (e : Env) (ht : c.tasks t = some (op, .call r k)) :
      Step M c (.called t op r (M.exec t r e c.world.store).1)
        (c.put t op (k (M.exec t r e c.world.store).1) (c.world.setStore (M.exec t r e c.world.store).2))
  | acquire {c t op} {l : L} {k : Task Req Resp L Out} (ht : c.tasks t = some (op, .acquire l k))
      (hf : c.world.owner l = none) :
      Step M c (.acquired t op l) (c.put t op k (c.world.take l t))
  | release {c t op} {l : L} {k : Task Req Resp L Out} (ht : c.tasks t = some (op, .release l k)) :
      Step M c (.released t op l) (c.put t op k (c.world.give l))
  | finish {c t op} {a : Out} (ht : c.tasks t = some (op, .ret a)) :
      Step M c (.returned t op a) (c.erase t c.world)
  | drop {c t op} {p : Task Req Resp L Out} (ht : c.tasks t = some (op, p)) :
      Step M c (.dropped t op) (c.erase t (c.world.forget t (M.discard t c.world.store)))
  | tick {c} (e : Env) : Step M c .ticked { c with world := c.world.setStore (M.tick e c.world.store) }
  | crash {c} :
      Step M c .crashed (c.reboot M.boot (M.body M.boot) (c.world.restart (M.crash c.world.store)).allocate)

/-- A run of a system: every step of it satisfies `ok` in the configuration it starts from. -/
inductive Run [DecidableEq L] (M : Machine Req Resp L Env σ Op Out)
    (ok : Sys Req Resp L σ Op Out → Label Req Resp L Op Out → Prop) :
    Sys Req Resp L σ Op Out → Sys Req Resp L σ Op Out → Prop
  | refl (c) : Run M ok c c
  | tail {c c₁ c₂ l} (h : Run M ok c c₁) (hok : ok c₁ l) (hs : Step M c₁ l c₂) : Run M ok c c₂

namespace Run

variable [DecidableEq L] {M : Machine Req Resp L Env σ Op Out}
  {ok ok' : Sys Req Resp L σ Op Out → Label Req Resp L Op Out → Prop} {c c₁ c₂ : Sys Req Resp L σ Op Out}

/-- Runs compose. -/
theorem trans (h : Run M ok c c₁) (h' : Run M ok c₁ c₂) : Run M ok c c₂ := by
  induction h' with
  | refl => exact h
  | tail _ hok hs ih => exact .tail ih hok hs

/-- A run that meets a condition meets every weaker one. -/
theorem mono (himp : ∀ c l, ok c l → ok' c l) (h : Run M ok c c₁) : Run M ok' c c₁ := by
  induction h with
  | refl => exact .refl _
  | tail _ hok hs ih => exact .tail ih (himp _ _ hok) hs

/-- What every step preserves holds after a run. -/
theorem invariant {I : Sys Req Resp L σ Op Out → Prop} (hstep : ∀ c l c', I c → ok c l → Step M c l c' → I c')
    (hI : I c) (h : Run M ok c c₁) : I c₁ := by
  induction h with
  | refl => exact hI
  | tail _ hok hs ih => exact hstep _ _ _ ih hok hs

/-- A fact about the store that no request, no drop, no tick and no crash breaks holds in every run. -/
theorem store_invariant {I : σ → Prop} (hexec : ∀ t r e s, I s → I (M.exec t r e s).2) (hdiscard : ∀ t s, I s → I (M.discard t s))
    (htick : ∀ e s, I s → I (M.tick e s)) (hcrash : ∀ s, I s → I (M.crash s)) (h : Run M ok c c₁) (hI : I c.world.store) :
    I c₁.world.store := by
  refine h.invariant (I := fun c => I c.world.store) (fun c l c' hc _ hs => ?_) hI
  cases hs with
  | spawn he => exact hc
  | call e ht => exact hexec _ _ e _ hc
  | acquire ht hf => exact hc
  | release ht => exact hc
  | finish ht => exact hc
  | drop ht => exact hdiscard _ _ hc
  | tick e => exact htick e _ hc
  | crash => exact hcrash _ hc

end Run

/-- Only tasks that were named are running. -/
theorem Step.named [DecidableEq L] {M : Machine Req Resp L Env σ Op Out} {c c' : Sys Req Resp L σ Op Out}
    {l : Label Req Resp L Op Out} (hs : Step M c l c') (hc : ∀ t x, c.tasks t = some x → t < c.world.next) :
    ∀ t x, c'.tasks t = some x → t < c'.world.next := by
  have hput : ∀ {t : Tid} {op : Op} {p : Task Req Resp L Out} {w : World L σ} {x₀}, c.tasks t = some x₀ →
      w.next = c.world.next → ∀ t' x, (c.put t op p w).tasks t' = some x → t' < w.next := by
    intro t op p w x₀ ht hw t' x h
    by_cases htt : t' = t
    · exact hw ▸ htt ▸ hc t _ ht
    · exact hw ▸ hc t' x ((Function.update_of_ne htt ..).symm.trans h)
  have herase : ∀ {t : Tid} {w : World L σ}, w.next = c.world.next → ∀ t' x, (c.erase t w).tasks t' = some x → t' < w.next := by
    intro t w hw t' x h
    by_cases htt : t' = t
    · subst htt
      exact absurd ((Function.update_self ..).symm.trans h) nofun
    · exact hw ▸ hc t' x ((Function.update_of_ne htt ..).symm.trans h)
  cases hs with
  | spawn he =>
    intro t x h
    by_cases htt : t = c.world.next
    · subst htt
      exact Nat.lt_succ_self _
    · exact Nat.lt_succ_of_lt (hc t x ((Function.update_of_ne htt ..).symm.trans h))
  | call e ht => exact hput ht rfl
  | acquire ht _ => exact hput ht rfl
  | release ht => exact hput ht rfl
  | finish ht => exact herase rfl
  | drop ht => exact herase rfl
  | tick e => exact hc
  | crash =>
    intro t x h
    by_cases htt : t = c.world.next
    · subst htt
      exact Nat.lt_succ_self _
    · simp only [Sys.reboot, Function.update_of_ne htt] at h
      nomatch h

/-- In every run from a system without tasks, only tasks that were named are running. -/
theorem Run.named [DecidableEq L] {M : Machine Req Resp L Env σ Op Out}
    {ok : Sys Req Resp L σ Op Out → Label Req Resp L Op Out → Prop} {w : World L σ} {c : Sys Req Resp L σ Op Out}
    (h : Run M ok ⟨w, fun _ => none⟩ c) : ∀ t x, c.tasks t = some x → t < c.world.next := by
  refine h.invariant (I := fun c => ∀ t x, c.tasks t = some x → t < c.world.next) (fun _ _ _ hc _ hs => hs.named hc) ?_
  intro t x hx
  nomatch hx

/-! ## Runs with their history -/

/-- A run together with the steps it consists of, the latest first. The condition of a step can look back at the steps before it. -/
inductive History [DecidableEq L] (M : Machine Req Resp L Env σ Op Out)
    (ok : List (Sys Req Resp L σ Op Out × Label Req Resp L Op Out) → Sys Req Resp L σ Op Out → Label Req Resp L Op Out → Prop)
    (c₀ : Sys Req Resp L σ Op Out) :
    List (Sys Req Resp L σ Op Out × Label Req Resp L Op Out) → Sys Req Resp L σ Op Out → Prop
  | start : History M ok c₀ [] c₀
  | step {past c l c'} (h : History M ok c₀ past c) (hok : ok past c l) (hs : Step M c l c') :
      History M ok c₀ ((c, l) :: past) c'

/-- What holds at the start and is preserved by every step holds of every history. -/
theorem History.invariant [DecidableEq L] {M : Machine Req Resp L Env σ Op Out}
    {ok : List (Sys Req Resp L σ Op Out × Label Req Resp L Op Out) → Sys Req Resp L σ Op Out → Label Req Resp L Op Out → Prop}
    {c₀ c : Sys Req Resp L σ Op Out} {past : List (Sys Req Resp L σ Op Out × Label Req Resp L Op Out)}
    {I : List (Sys Req Resp L σ Op Out × Label Req Resp L Op Out) → Sys Req Resp L σ Op Out → Prop} (h : History M ok c₀ past c)
    (hstart : I [] c₀) (hstep : ∀ past c l c', I past c → ok past c l → Step M c l c' → I ((c, l) :: past) c') : I past c := by
  induction h with
  | start => exact hstart
  | step _ hok hs ih => exact hstep _ _ _ _ ih hok hs

/-- A history that meets a condition meets every weaker one. -/
theorem History.mono [DecidableEq L] {M : Machine Req Resp L Env σ Op Out}
    {ok ok' : List (Sys Req Resp L σ Op Out × Label Req Resp L Op Out) → Sys Req Resp L σ Op Out → Label Req Resp L Op Out → Prop}
    {c₀ c : Sys Req Resp L σ Op Out} {past : List (Sys Req Resp L σ Op Out × Label Req Resp L Op Out)}
    (himp : ∀ past c l, ok past c l → ok' past c l) (h : History M ok c₀ past c) : History M ok' c₀ past c := by
  induction h with
  | start => exact .start
  | step _ hok hs ih => exact .step ih (himp _ _ _ hok) hs

/-- A run has a history. -/
theorem Run.exists_history [DecidableEq L] {M : Machine Req Resp L Env σ Op Out}
    {ok : Sys Req Resp L σ Op Out → Label Req Resp L Op Out → Prop} {c₀ c : Sys Req Resp L σ Op Out} (h : Run M ok c₀ c) :
    ∃ past, History M (fun _ c l => ok c l) c₀ past c := by
  induction h with
  | refl => exact ⟨[], .start⟩
  | tail _ hok hs ih =>
    obtain ⟨past, hpast⟩ := ih
    exact ⟨_, hpast.step hok hs⟩

/-! ## Replaying a schedule -/

/-- One decision of a scheduler. -/
inductive Move (Env Op : Type) where
  | spawn (op : Op)
  | step (t : Tid) (e : Env)
  | drop (t : Tid)
  | tick (e : Env)
  | crash

/-- The step a decision leads to, when it leads to one. -/
def Machine.move [DecidableEq L] (M : Machine Req Resp L Env σ Op Out) (c : Sys Req Resp L σ Op Out) :
    Move Env Op → Option (Label Req Resp L Op Out × Sys Req Resp L σ Op Out)
  | .spawn op =>
    if M.enabled op c.world.store then
      some (.spawned c.world.next op, c.put c.world.next op (M.body op) c.world.allocate)
    else none
  | .step t e =>
    match c.tasks t with
    | none => none
    | some (op, .ret a) => some (.returned t op a, c.erase t c.world)
    | some (op, .call r k) =>
      some (.called t op r (M.exec t r e c.world.store).1,
        c.put t op (k (M.exec t r e c.world.store).1) (c.world.setStore (M.exec t r e c.world.store).2))
    | some (op, .acquire l k) =>
      if c.world.owner l = none then some (.acquired t op l, c.put t op k (c.world.take l t)) else none
    | some (op, .release l k) => some (.released t op l, c.put t op k (c.world.give l))
  | .drop t =>
    match c.tasks t with
    | none => none
    | some (op, _) => some (.dropped t op, c.erase t (c.world.forget t (M.discard t c.world.store)))
  | .tick e => some (.ticked, { c with world := c.world.setStore (M.tick e c.world.store) })
  | .crash =>
    some (.crashed, c.reboot M.boot (M.body M.boot) (c.world.restart (M.crash c.world.store)).allocate)

/-- A decision leads to a step of the system. -/
theorem step_of_move [DecidableEq L] {M : Machine Req Resp L Env σ Op Out} {c c' : Sys Req Resp L σ Op Out}
    {m : Move Env Op} {l : Label Req Resp L Op Out} (h : M.move c m = some (l, c')) : Step M c l c' := by
  cases m with
  | spawn op =>
    simp only [Machine.move] at h
    split at h
    · rename_i he
      cases h
      exact .spawn he
    · cases h
  | step t e =>
    simp only [Machine.move] at h
    split at h
    · cases h
    · rename_i ht
      cases h
      exact .finish ht
    · rename_i ht
      cases h
      exact .call e ht
    · rename_i ht
      split at h
      · rename_i hf
        cases h
        exact .acquire ht hf
      · cases h
    · rename_i ht
      cases h
      exact .release ht
  | drop t =>
    simp only [Machine.move] at h
    split at h
    · cases h
    · rename_i ht
      cases h
      exact .drop ht
  | tick e =>
    cases h
    exact .tick e
  | crash =>
    cases h
    exact .crash

/-- Follow a schedule to its end, when every decision leads to a step; the steps with the configurations they start from, and the
last configuration. -/
def Machine.replay [DecidableEq L] (M : Machine Req Resp L Env σ Op Out) (c : Sys Req Resp L σ Op Out) :
    List (Move Env Op) → Option (List (Sys Req Resp L σ Op Out × Label Req Resp L Op Out) × Sys Req Resp L σ Op Out)
  | [] => some ([], c)
  | m :: ms => (M.move c m).bind fun p => (M.replay p.2 ms).map fun q => ((c, p.1) :: q.1, q.2)

/-- A schedule that can be followed is a run, and so is each of its beginnings. -/
theorem run_of_replay [DecidableEq L] {M : Machine Req Resp L Env σ Op Out}
    (ok : Sys Req Resp L σ Op Out → Label Req Resp L Op Out → Prop) {c c' : Sys Req Resp L σ Op Out}
    {ms : List (Move Env Op)} {steps : List (Sys Req Resp L σ Op Out × Label Req Resp L Op Out)} (h : M.replay c ms = some (steps, c'))
    (hok : ∀ x ∈ steps, ok x.1 x.2) :
    Run M ok c c' ∧ ∀ x ∈ steps, Run M ok c x.1 ∧ ok x.1 x.2 ∧ ∃ c'', Step M x.1 x.2 c'' := by
  induction ms generalizing c steps with
  | nil =>
    cases h
    exact ⟨.refl _, nofun⟩
  | cons m ms ih =>
    simp only [Machine.replay, Option.bind_eq_some_iff, Option.map_eq_some_iff] at h
    obtain ⟨⟨l, c₁⟩, hm, ⟨rest, c₂⟩, hr, he⟩ := h
    cases he
    obtain ⟨h₀, hrest⟩ := List.forall_mem_cons.1 hok
    have hs : Run M ok c c₁ := .tail (.refl _) h₀ (step_of_move hm)
    obtain ⟨hrun, hall⟩ := ih hr hrest
    refine ⟨hs.trans hrun, List.forall_mem_cons.2 ⟨⟨.refl _, h₀, c₁, step_of_move hm⟩, fun x hx => ?_⟩⟩
    obtain ⟨h₁, h₂, h₃⟩ := hall x hx
    exact ⟨hs.trans h₁, h₂, h₃⟩

/-- A schedule whose steps all satisfy one condition, and one of whose steps fails another, shows a run with such a step. -/
theorem exists_step_of_replay [DecidableEq L] (M : Machine Req Resp L Env σ Op Out) (c : Sys Req Resp L σ Op Out)
    (ms : List (Move Env Op)) (ok P : Sys Req Resp L σ Op Out → Label Req Resp L Op Out → Bool)
    (h : ((M.replay c ms).any fun p => p.1.all (fun x => ok x.1 x.2) && p.1.any fun x => !P x.1 x.2) = true) :
    ∃ c₁ l c₂, Run M (fun c l => ok c l = true) c c₁ ∧ ok c₁ l = true ∧ Step M c₁ l c₂ ∧ P c₁ l = false := by
  obtain ⟨⟨steps, c'⟩, hr, hc⟩ := (Option.any_eq_true ..).1 h
  simp only [Bool.and_eq_true, List.all_eq_true, List.any_eq_true, Bool.not_eq_true'] at hc
  obtain ⟨hok, x, hx, hP⟩ := hc
  obtain ⟨hrun, h₁, c'', hs⟩ := (run_of_replay (fun c l => ok c l = true) hr hok).2 x hx
  exact ⟨x.1, x.2, c'', hrun, h₁, hs, hP⟩

/-- A schedule whose steps all satisfy a condition shows a run to where it ends. -/
theorem exists_run_of_replay [DecidableEq L] (M : Machine Req Resp L Env σ Op Out) (c : Sys Req Resp L σ Op Out)
    (ms : List (Move Env Op)) (ok : Sys Req Resp L σ Op Out → Label Req Resp L Op Out → Bool)
    (P : Sys Req Resp L σ Op Out → Bool)
    (h : ((M.replay c ms).any fun p => p.1.all (fun x => ok x.1 x.2) && P p.2) = true) :
    ∃ c', Run M (fun c l => ok c l = true) c c' ∧ P c' = true := by
  obtain ⟨⟨steps, c'⟩, hr, hc⟩ := (Option.any_eq_true ..).1 h
  simp only [Bool.and_eq_true, List.all_eq_true] at hc
  exact ⟨c', (run_of_replay (fun c l => ok c l = true) hr hc.1).1, hc.2⟩

/-- Whether each of some steps satisfies a condition that looks back at the steps before it. -/
def okAlong (ok : List (Sys Req Resp L σ Op Out × Label Req Resp L Op Out) → Sys Req Resp L σ Op Out → Label Req Resp L Op Out → Bool) :
    List (Sys Req Resp L σ Op Out × Label Req Resp L Op Out) → List (Sys Req Resp L σ Op Out × Label Req Resp L Op Out) → Bool
  | _, [] => true
  | past, x :: steps => ok past x.1 x.2 && okAlong ok (x :: past) steps

/-- A schedule that can be followed continues a history. -/
theorem history_of_replay [DecidableEq L] {M : Machine Req Resp L Env σ Op Out}
    {ok : List (Sys Req Resp L σ Op Out × Label Req Resp L Op Out) → Sys Req Resp L σ Op Out → Label Req Resp L Op Out → Bool}
    {c₀ c c' : Sys Req Resp L σ Op Out} {past steps : List (Sys Req Resp L σ Op Out × Label Req Resp L Op Out)} {ms : List (Move Env Op)}
    (hpast : History M (fun past c l => ok past c l = true) c₀ past c) (h : M.replay c ms = some (steps, c'))
    (hok : okAlong ok past steps = true) : History M (fun past c l => ok past c l = true) c₀ (steps.reverse ++ past) c' := by
  induction ms generalizing c past steps with
  | nil =>
    cases h
    exact hpast
  | cons m ms ih =>
    simp only [Machine.replay, Option.bind_eq_some_iff, Option.map_eq_some_iff] at h
    obtain ⟨⟨l, c₁⟩, hm, ⟨rest, c₂⟩, hr, he⟩ := h
    cases he
    obtain ⟨h₀, hrest⟩ := Bool.and_eq_true_iff.1 hok
    rw [List.reverse_cons, List.append_assoc]
    exact ih (hpast.step h₀ (step_of_move hm)) hr hrest

/-- A schedule whose steps all satisfy a condition that looks back shows a history with its steps. -/
theorem exists_history_of_replay [DecidableEq L] (M : Machine Req Resp L Env σ Op Out) (c : Sys Req Resp L σ Op Out)
    (ms : List (Move Env Op))
    (ok : List (Sys Req Resp L σ Op Out × Label Req Resp L Op Out) → Sys Req Resp L σ Op Out → Label Req Resp L Op Out → Bool)
    (P : List (Sys Req Resp L σ Op Out × Label Req Resp L Op Out) → Bool)
    (h : ((M.replay c ms).any fun p => okAlong ok [] p.1 && P p.1.reverse) = true) :
    ∃ past c', History M (fun past c l => ok past c l = true) c past c' ∧ P past = true := by
  obtain ⟨⟨steps, c'⟩, hr, hc⟩ := (Option.any_eq_true ..).1 h
  obtain ⟨hok, hP⟩ := Bool.and_eq_true_iff.1 hc
  have hstart : History M (fun past c l => ok past c l = true) c [] c := .start
  have hh := history_of_replay hstart hr hok
  rw [List.append_nil] at hh
  exact ⟨_, c', hh, hP⟩

end Conc
