import Almond.Conc.Protocol
import Mathlib.Logic.Relation

/-! # Tasks that run alone

A task with the store to itself: each request is answered by the store it finds, with the next decision of the outside, and every
lock is free. -/

namespace Conc.Task

variable {Req : Type} {Resp : Req → Type} {L Env σ α β ε : Type}

/-- What a task does alone, from the `n`-th decision of the outside on: its result, the number of decisions made, and the store. -/
def alone (exec : (r : Req) → Env → σ → Resp r × σ) (env : Nat → Env) : Task Req Resp L α → Nat → σ → α × Nat × σ
  | .ret a, n, s => (a, n, s)
  | .call r k, n, s => (k (exec r (env n) s).1).alone exec env (n + 1) (exec r (env n) s).2
  | .acquire _ k, n, s => k.alone exec env n s
  | .release _ k, n, s => k.alone exec env n s

/-- The requests that a task makes alone. -/
def requests (exec : (r : Req) → Env → σ → Resp r × σ) (env : Nat → Env) : Task Req Resp L α → Nat → σ → List Req
  | .ret _, _, _ => []
  | .call r k, n, s => r :: (k (exec r (env n) s).1).requests exec env (n + 1) (exec r (env n) s).2
  | .acquire _ k, n, s => k.requests exec env n s
  | .release _ k, n, s => k.requests exec env n s

/-- The requests that a task makes alone, with the responses it receives. -/
def events (exec : (r : Req) → Env → σ → Resp r × σ) (env : Nat → Env) : Task Req Resp L α → Nat → σ → List (Event Req Resp)
  | .ret _, _, _ => []
  | .call r k, n, s => ⟨r, (exec r (env n) s).1⟩ :: (k (exec r (env n) s).1).events exec env (n + 1) (exec r (env n) s).2
  | .acquire _ k, n, s => k.events exec env n s
  | .release _ k, n, s => k.events exec env n s

/-- Whatever the outside decides within `E`, the task ends in `Q`. -/
def Yields (exec : (r : Req) → Env → σ → Resp r × σ) (E : Env → Prop) : Task Req Resp L α → (α → σ → Prop) → σ → Prop
  | .ret a, Q, s => Q a s
  | .call r k, Q, s => ∀ e, E e → (k (exec r e s).1).Yields exec E Q (exec r e s).2
  | .acquire _ k, Q, s => k.Yields exec E Q s
  | .release _ k, Q, s => k.Yields exec E Q s

variable {exec : (r : Req) → Env → σ → Resp r × σ} {E : Env → Prop} {env : Nat → Env} {s : σ}

/-- A sequence alone. -/
theorem alone_bind (p : Task Req Resp L α) (f : α → Task Req Resp L β) (n : Nat) :
    (p.bind f).alone exec env n s =
      (f (p.alone exec env n s).1).alone exec env (p.alone exec env n s).2.1 (p.alone exec env n s).2.2 := by
  induction p generalizing n s with
  | ret a => rfl
  | call r k ih => exact ih _ _
  | acquire l k ih => exact ih n
  | release l k ih => exact ih n

/-- The requests of a sequence. -/
theorem requests_bind (p : Task Req Resp L α) (f : α → Task Req Resp L β) (n : Nat) :
    (p.bind f).requests exec env n s = p.requests exec env n s ++
      (f (p.alone exec env n s).1).requests exec env (p.alone exec env n s).2.1 (p.alone exec env n s).2.2 := by
  induction p generalizing n s with
  | ret a => rfl
  | call r k ih => exact congrArg (r :: ·) (ih _ _)
  | acquire l k ih => exact ih n
  | release l k ih => exact ih n

/-- A sequence of tasks that may fail, alone: an error skips the rest. -/
theorem alone_run_bind (p : ExceptT ε (Task Req Resp L) α) (f : α → ExceptT ε (Task Req Resp L) β) (n : Nat) :
    alone exec env (p >>= f).run n s = match alone exec env p.run n s with
      | (.ok a, n', s') => alone exec env (f a).run n' s'
      | (.error e, n', s') => (.error e, n', s') := by
  rw [ExceptT.run_bind, bind_eq, alone_bind]
  rcases alone exec env p.run n s with ⟨_ | a, n', s'⟩ <;> rfl

/-- A sequence alone, when its first task succeeds. -/
theorem alone_run_bind_ok {p : ExceptT ε (Task Req Resp L) α} {f : α → ExceptT ε (Task Req Resp L) β} {n : Nat} {a : α}
    (hp : (alone exec env p.run n s).1 = .ok a) :
    alone exec env (p >>= f).run n s =
      alone exec env (f a).run (alone exec env p.run n s).2.1 (alone exec env p.run n s).2.2 := by
  rw [alone_run_bind]
  generalize alone exec env p.run n s = done at hp
  obtain ⟨x, n', s'⟩ := done
  cases hp
  rfl

/-- A sequence alone, when its first task fails. -/
theorem alone_run_bind_error {p : ExceptT ε (Task Req Resp L) α} {f : α → ExceptT ε (Task Req Resp L) β} {n : Nat} {e : ε}
    (hp : (alone exec env p.run n s).1 = .error e) :
    alone exec env (p >>= f).run n s = (.error e, (alone exec env p.run n s).2) := by
  rw [alone_run_bind]
  generalize alone exec env p.run n s = done at hp
  obtain ⟨x, n', s'⟩ := done
  cases hp
  rfl

/-- The requests of a sequence of tasks that may fail. -/
theorem requests_run_bind (p : ExceptT ε (Task Req Resp L) α) (f : α → ExceptT ε (Task Req Resp L) β) (n : Nat) :
    requests exec env (p >>= f).run n s = requests exec env p.run n s ++ match alone exec env p.run n s with
      | (.ok a, n', s') => requests exec env (f a).run n' s'
      | (.error _, _, _) => [] := by
  rw [ExceptT.run_bind, bind_eq, requests_bind]
  rcases alone exec env p.run n s with ⟨_ | a, n', s'⟩ <;> rfl

/-- A lifted task followed by more is a sequence. -/
theorem run_lift_bind (p : Task Req Resp L α) (f : α → ExceptT ε (Task Req Resp L) β) :
    ((liftM p : ExceptT ε (Task Req Resp L) α) >>= f).run = p.bind fun a => (f a).run :=
  bind_assoc p _ _

/-- What a task yields is what it does alone. -/
theorem Yields.alone {p : Task Req Resp L α} {Q : α → σ → Prop} (hp : p.Yields exec E Q s) (henv : ∀ n, E (env n)) (n : Nat) :
    Q (p.alone exec env n s).1 (p.alone exec env n s).2.2 := by
  induction p generalizing n s with
  | ret a => exact hp
  | call r k ih => exact ih _ (hp (env n) (henv n)) (n + 1)
  | acquire l k ih => exact ih hp n
  | release l k ih => exact ih hp n

/-- A task uses the decisions one after another. -/
theorem alone_le (p : Task Req Resp L α) (n : Nat) : n ≤ (p.alone exec env n s).2.1 := by
  induction p generalizing n s with
  | ret a => exact Nat.le_refl n
  | call r k ih => exact Nat.le_trans (Nat.le_succ n) (ih _ (n + 1))
  | acquire l k ih => exact ih n
  | release l k ih => exact ih n

/-- The decisions that a task uses alone, from the `n`-th on. -/
def Used (exec : (r : Req) → Env → σ → Resp r × σ) (env : Nat → Env) (p : Task Req Resp L α) (n : Nat) (s : σ) (e : Env) : Prop :=
  ∃ i, n ≤ i ∧ i < (p.alone exec env n s).2.1 ∧ env i = e

/-- Fewer decisions of the outside. -/
theorem Yields.restrict {E' : Env → Prop} {p : Task Req Resp L α} {Q : α → σ → Prop} (hp : p.Yields exec E Q s)
    (hE : ∀ e, E' e → E e) : p.Yields exec E' Q s := by
  induction p generalizing s with
  | ret a => exact hp
  | call r k ih => exact fun e he => ih _ (hp e (hE e he))
  | acquire l k ih => exact ih hp
  | release l k ih => exact ih hp

/-- What a task does alone depends on the decisions that it uses. -/
theorem alone_used (p : Task Req Resp L α) (env : Nat → Env) (n : Nat) {Q : α → σ → Prop}
    (hp : p.Yields exec (p.Used exec env n s) Q s) : Q (p.alone exec env n s).1 (p.alone exec env n s).2.2 := by
  induction p generalizing n s with
  | ret a => exact hp
  | call r k ih =>
    have hfirst : (Task.call r k).Used exec env n s (env n) := ⟨n, Nat.le_refl n, alone_le (k (exec r (env n) s).1) (n + 1), rfl⟩
    refine ih _ (n + 1) ((hp (env n) hfirst).restrict ?_)
    rintro e ⟨i, hi, hlt, he⟩
    exact ⟨i, Nat.le_trans (Nat.le_succ n) hi, hlt, he⟩
  | acquire l k ih => exact ih n hp
  | release l k ih => exact ih n hp

/-- The rule of consequence. -/
theorem Yields.mono {p : Task Req Resp L α} {Q Q' : α → σ → Prop} (hQ : ∀ a s, Q a s → Q' a s) (hp : p.Yields exec E Q s) :
    p.Yields exec E Q' s := by
  induction p generalizing s with
  | ret a => exact hQ a s hp
  | call r k ih => exact fun e he => ih _ (hp e he)
  | acquire l k ih => exact ih hp
  | release l k ih => exact ih hp

/-- Every task yields something. -/
theorem yields_trivial (p : Task Req Resp L α) : p.Yields exec E (fun _ _ => True) s := by
  induction p generalizing s with
  | ret a => exact trivial
  | call r k ih => exact fun _ _ => ih _
  | acquire l k ih => exact ih
  | release l k ih => exact ih

/-- The rule of sequencing. -/
theorem Yields.bind {p : Task Req Resp L α} {f : α → Task Req Resp L β} {Q : α → σ → Prop} {Q' : β → σ → Prop}
    (hp : p.Yields exec E Q s) (hf : ∀ a s, Q a s → (f a).Yields exec E Q' s) : (p.bind f).Yields exec E Q' s := by
  induction p generalizing s with
  | ret a => exact hf a s hp
  | call r k ih => exact fun e he => ih _ (hp e he)
  | acquire l k ih => exact ih hp
  | release l k ih => exact ih hp

/-- The rule of sequencing for tasks that may fail: an error skips the rest. -/
theorem Yields.run_bind {p : ExceptT ε (Task Req Resp L) α} {f : α → ExceptT ε (Task Req Resp L) β}
    {Q : Except ε α → σ → Prop} {Q' : Except ε β → σ → Prop} (hp : Yields exec E p.run Q s)
    (he : ∀ e s, Q (.error e) s → Q' (.error e) s) (hf : ∀ a s, Q (.ok a) s → Yields exec E (f a).run Q' s) :
    Yields exec E (p >>= f).run Q' s := by
  rw [ExceptT.run_bind, bind_eq]
  refine hp.bind fun x s hx => ?_
  cases x with
  | ok a => exact hf a s hx
  | error e => exact he e s hx

/-- The rule of a lifted task followed by more. -/
theorem Yields.lift_bind {p : Task Req Resp L α} {f : α → ExceptT ε (Task Req Resp L) β} {Q : α → σ → Prop}
    {Q' : Except ε β → σ → Prop} (hp : p.Yields exec E Q s) (hf : ∀ a s, Q a s → Yields exec E (f a).run Q' s) :
    Yields exec E ((liftM p : ExceptT ε (Task Req Resp L) α) >>= f).run Q' s := by
  rw [run_lift_bind]
  exact hp.bind hf

/-- A task keeps what no request changes. -/
theorem Yields.keep {I : σ → Prop} {p : Task Req Resp L α} {Q : α → σ → Prop} (hp : p.Yields exec E Q s)
    (hstep : ∀ r e s, I s → I (exec r e s).2) (hI : I s) : p.Yields exec E (fun a s => Q a s ∧ I s) s := by
  induction p generalizing s with
  | ret a => exact ⟨hp, hI⟩
  | call r k ih => exact fun e he => ih _ (hp e he) (hstep r e s hI)
  | acquire l k ih => exact ih hp hI
  | release l k ih => exact ih hp hI

/-- A task keeps what none of its requests touches. -/
theorem Within.yields {P : Req → Prop} {R : α → Prop} {I : σ → Prop} {p : Task Req Resp L α} (hp : p.Within P R)
    (hstep : ∀ r e s, P r → I s → I (exec r e s).2) (hI : I s) : p.Yields exec E (fun a s => R a ∧ I s) s := by
  induction p generalizing s with
  | ret a => exact ⟨hp, hI⟩
  | call r k ih => exact fun e _ => ih _ (hp.2 _ trivial) (hstep r e s hp.1 hI)
  | acquire l k => exact hp.1.elim
  | release l k => exact hp.1.elim

/-- What a task yields in two ways, it yields in one. -/
theorem Yields.and {p : Task Req Resp L α} {Q Q' : α → σ → Prop} (hp : p.Yields exec E Q s) (hp' : p.Yields exec E Q' s) :
    p.Yields exec E (fun a s => Q a s ∧ Q' a s) s := by
  induction p generalizing s with
  | ret a => exact ⟨hp, hp'⟩
  | call r k ih => exact fun e he => ih _ (hp e he) (hp' e he)
  | acquire l k ih => exact ih hp hp'
  | release l k ih => exact ih hp hp'

/-- A task keeps what none of the requests it issues touches, whatever locks it takes. -/
theorem Issues.yields {P : Req → Prop} {I : σ → Prop} {p : Task Req Resp L α} (hp : p.Issues P)
    (hstep : ∀ r e s, P r → I s → I (exec r e s).2) (hI : I s) : p.Yields exec E (fun _ s => I s) s := by
  have hobeys : ∀ {q : Option L}, p.Obeys (.issues P) (fun q _ => q = none) q → p.Yields exec E (fun _ s => I s) s := by
    intro q hq
    clear hp
    induction p generalizing q s with
    | ret a => exact hI
    | call r k ih => exact fun e _ => ih _ (hstep r e s hq.1 hI) (hq.2 _ trivial)
    | acquire l k ih => exact ih hI hq.2
    | release l k ih => exact ih hI hq.2
  exact hobeys hp

/-- What a task does alone is its record. -/
theorem after_events (p : Task Req Resp L α) (n : Nat) (s : σ) :
    p.After (p.events exec env n s).reverse (.ret (p.alone exec env n s).1) := by
  have hall : ∀ {q : Task Req Resp L α} {past : List (Event Req Resp)}, p.After past q → ∀ n s,
      p.After ((q.events exec env n s).reverse ++ past) (.ret (q.alone exec env n s).1) := by
    intro q
    induction q with
    | ret a => exact fun h _ _ => h
    | call r k ih =>
      intro past h n s
      have hrest := ih _ (h.call (exec r (env n) s).1) (n + 1) (exec r (env n) s).2
      rwa [events, List.reverse_cons, List.append_assoc, List.singleton_append]
    | acquire l k ih => exact fun h => ih h.acquire
    | release l k ih => exact fun h => ih h.release
  have h := hall .refl n s
  rwa [List.append_nil] at h

/-- A task does alone the same under another answering of requests, when its own requests are answered in the same way. -/
theorem alone_congr {exec' : (r : Req) → Env → σ → Resp r × σ} {p : Task Req Resp L α} {n : Nat}
    (h : ∀ i r, (p.requests exec env n s)[i]? = some r → ∀ s, exec' r (env (n + i)) s = exec r (env (n + i)) s) :
    p.alone exec' env n s = p.alone exec env n s := by
  induction p generalizing n s with
  | ret a => rfl
  | call r k ih =>
    have hfirst : exec' r (env n) s = exec r (env n) s := h 0 r rfl s
    simp only [alone, hfirst]
    refine ih _ fun i r' hr s' => ?_
    have hrest := h (i + 1) r' hr s'
    rwa [show n + (i + 1) = n + 1 + i by omega] at hrest
  | acquire l k ih => exact ih h
  | release l k ih => exact ih h

/-- A task does alone the same under another answering of requests that agrees on the events of its run. -/
theorem alone_congr_events {exec' : (r : Req) → Env → σ → Resp r × σ} {good : Event Req Resp → Prop} {p : Task Req Resp L α} {n : Nat}
    (hexec : ∀ r e s, good ⟨r, (exec r e s).1⟩ → exec' r e s = exec r e s) (hgood : ∀ event ∈ p.events exec env n s, good event) :
    p.alone exec' env n s = p.alone exec env n s := by
  induction p generalizing n s with
  | ret a => rfl
  | call r k ih =>
    obtain ⟨hfirst, hrest⟩ := List.forall_mem_cons.1 hgood
    simp only [alone, hexec r (env n) s hfirst]
    exact ih _ hrest
  | acquire l k ih => exact ih hgood
  | release l k ih => exact ih hgood

/-- What a task yields does not depend on who makes the decisions. -/
theorem Yields.decided {E' : Env → Prop} {exec' : (r : Req) → Env → σ → Resp r × σ} {decide' : Req → Env → Env}
    {p : Task Req Resp L α} {Q : α → σ → Prop} (hp : p.Yields exec E Q s) (hexec : ∀ r e s, exec' r e s = exec r (decide' r e) s)
    (hE : ∀ r e, E' e → E (decide' r e)) : p.Yields exec' E' Q s := by
  induction p generalizing s with
  | ret a => exact hp
  | call r k ih =>
    intro e he
    have hk := ih _ (hp (decide' r e) (hE r e he))
    rwa [← hexec] at hk
  | acquire l k ih => exact ih hp
  | release l k ih => exact ih hp

/-! ## Tasks that give up -/

/-- A task that stops with a failed result as soon as the outside decides badly. -/
def GivesUp (exec : (r : Req) → Env → σ → Resp r × σ) (bad : Env → Prop) (failed : α → Prop) : Task Req Resp L α → Prop
  | .ret _ => True
  | .call r k => ∀ e s, (k (exec r e s).1).GivesUp exec bad failed ∧ (bad e → ∃ a, k (exec r e s).1 = .ret a ∧ failed a)
  | .acquire _ k => k.GivesUp exec bad failed
  | .release _ k => k.GivesUp exec bad failed

/-- A result that is an error. -/
def IsError (x : Except ε α) : Prop :=
  ∃ e, x = .error e

variable {bad : Env → Prop}

/-- The rule of sequencing for tasks that may fail: an error skips the rest. -/
theorem GivesUp.run_bind {p : ExceptT ε (Task Req Resp L) α} {f : α → ExceptT ε (Task Req Resp L) β}
    (hp : GivesUp exec bad IsError p.run) (hf : ∀ a, GivesUp exec bad IsError (f a).run) : GivesUp exec bad IsError (p >>= f).run := by
  rw [ExceptT.run_bind, bind_eq]
  generalize p.run = q at hp
  induction q with
  | ret x =>
    cases x with
    | ok a => exact hf a
    | error e => exact trivial
  | call r k ih =>
    refine fun e s => ⟨ih _ (hp e s).1, fun he => ?_⟩
    obtain ⟨x, hx, e', rfl⟩ := (hp e s).2 he
    exact ⟨.error e', by simp only [hx]; rfl, e', rfl⟩
  | acquire l k ih => exact ih hp
  | release l k ih => exact ih hp

/-- A task that uses a bad decision has failed. -/
theorem GivesUp.alone {failed : α → Prop} {p : Task Req Resp L α} {n : Nat} (hp : p.GivesUp exec bad failed)
    (hbad : ∃ e, p.Used exec env n s e ∧ bad e) : failed (p.alone exec env n s).1 := by
  obtain ⟨_, ⟨i, hi, hlt, rfl⟩, hbad⟩ := hbad
  induction p generalizing n s with
  | ret a => exact absurd hlt (Nat.not_lt.2 hi)
  | call r k ih =>
    rcases Nat.eq_or_lt_of_le hi with rfl | hi
    · obtain ⟨a, ha, hfailed⟩ := (hp (env n) s).2 hbad
      simp only [Task.alone, ha]
      exact hfailed
    · exact ih _ (hp (env n) s).1 hi hlt
  | acquire l k ih => exact ih hp hi hlt
  | release l k ih => exact ih hp hi hlt

/-! ## Interrupted tasks -/

/-- One step of a task that runs alone. -/
inductive Advances (exec : (r : Req) → Env → σ → Resp r × σ) (E : Env → Prop) : Task Req Resp L α × σ → Task Req Resp L α × σ → Prop
  | call {r : Req} {k : Resp r → Task Req Resp L α} {s : σ} {e : Env} (he : E e) :
    Advances exec E (.call r k, s) (k (exec r e s).1, (exec r e s).2)
  | acquire {l : L} {k : Task Req Resp L α} {s : σ} : Advances exec E (.acquire l k, s) (k, s)
  | release {l : L} {k : Task Req Resp L α} {s : σ} : Advances exec E (.release l k, s) (k, s)

/-- The beginning of a run of a task. -/
def Begins (exec : (r : Req) → Env → σ → Resp r × σ) (E : Env → Prop) : Task Req Resp L α × σ → Task Req Resp L α × σ → Prop :=
  Relation.ReflTransGen (Advances exec E)

/-- Runs of one task, one after another, each interrupted after any step. -/
def Restarts (exec : (r : Req) → Env → σ → Resp r × σ) (E : Env → Prop) (p : Task Req Resp L α) : σ → σ → Prop :=
  Relation.ReflTransGen fun s s' => ∃ q, Begins exec E (p, s) (q, s')

/-- What a task does alone is a run of it. -/
theorem begins_alone (henv : ∀ n, E (env n)) (p : Task Req Resp L α) (n : Nat) (s : σ) :
    Begins exec E (p, s) (.ret (p.alone exec env n s).1, (p.alone exec env n s).2.2) := by
  induction p generalizing n s with
  | ret a => exact .refl
  | call r k ih => exact .head (.call (henv n)) (ih _ (n + 1) _)
  | acquire l k ih => exact .head .acquire (ih n s)
  | release l k ih => exact .head .release (ih n s)

/-- Whatever the outside decides within `E`, the store is in `I` before and after each step, and the task ends in `Q`. -/
def Upholds (exec : (r : Req) → Env → σ → Resp r × σ) (E : Env → Prop) (I : σ → Prop) : Task Req Resp L α → (α → σ → Prop) → σ → Prop
  | .ret a, Q, s => I s ∧ Q a s
  | .call r k, Q, s => I s ∧ ∀ e, E e → (k (exec r e s).1).Upholds exec E I Q (exec r e s).2
  | .acquire _ k, Q, s => k.Upholds exec E I Q s
  | .release _ k, Q, s => k.Upholds exec E I Q s

namespace Upholds

variable {I : σ → Prop} {Q Q' : α → σ → Prop} {p q : Task Req Resp L α} {s' : σ}

/-- The store is in the invariant at the start. -/
theorem holds (hp : p.Upholds exec E I Q s) : I s := by
  induction p with
  | ret a => exact hp.1
  | call r k _ => exact hp.1
  | acquire l k ih => exact ih hp
  | release l k ih => exact ih hp

/-- What a task ends in. -/
theorem yields (hp : p.Upholds exec E I Q s) : p.Yields exec E Q s := by
  induction p generalizing s with
  | ret a => exact hp.2
  | call r k ih => exact fun e he => ih _ (hp.2 e he)
  | acquire l k ih => exact ih hp
  | release l k ih => exact ih hp

/-- The rule of consequence. -/
theorem mono (hQ : ∀ a s, I s → Q a s → Q' a s) (hp : p.Upholds exec E I Q s) : p.Upholds exec E I Q' s := by
  induction p generalizing s with
  | ret a => exact ⟨hp.1, hQ a s hp.1 hp.2⟩
  | call r k ih => exact ⟨hp.1, fun e he => ih _ (hp.2 e he)⟩
  | acquire l k ih => exact ih hp
  | release l k ih => exact ih hp

/-- The rule of sequencing. -/
theorem bind {f : α → Task Req Resp L β} {Q' : β → σ → Prop} (hp : p.Upholds exec E I Q s)
    (hf : ∀ a s, I s → Q a s → (f a).Upholds exec E I Q' s) : (p.bind f).Upholds exec E I Q' s := by
  induction p generalizing s with
  | ret a => exact hf a s hp.1 hp.2
  | call r k ih => exact ⟨hp.1, fun e he => ih _ (hp.2 e he)⟩
  | acquire l k ih => exact ih hp
  | release l k ih => exact ih hp

/-- The rule of sequencing for tasks that may fail: an error skips the rest. -/
theorem run_bind {p : ExceptT ε (Task Req Resp L) α} {f : α → ExceptT ε (Task Req Resp L) β} {Q : Except ε α → σ → Prop}
    {Q' : Except ε β → σ → Prop} (hp : Upholds exec E I p.run Q s) (he : ∀ e s, I s → Q (.error e) s → Q' (.error e) s)
    (hf : ∀ a s, I s → Q (.ok a) s → Upholds exec E I (f a).run Q' s) : Upholds exec E I (p >>= f).run Q' s := by
  rw [ExceptT.run_bind, bind_eq]
  refine hp.bind fun x s hI hx => ?_
  cases x with
  | ok a => exact hf a s hI hx
  | error e => exact ⟨hI, he e s hI hx⟩

/-- The rule of a lifted task followed by more. -/
theorem lift_bind {f : α → ExceptT ε (Task Req Resp L) β} {Q' : Except ε β → σ → Prop} (hp : p.Upholds exec E I Q s)
    (hf : ∀ a s, I s → Q a s → Upholds exec E I (f a).run Q' s) :
    Upholds exec E I ((liftM p : ExceptT ε (Task Req Resp L) α) >>= f).run Q' s := by
  rw [run_lift_bind]
  exact hp.bind hf

/-- A step goes on with what is upheld. -/
theorem advances (hp : p.Upholds exec E I Q s) (h : Advances exec E (p, s) (q, s')) : q.Upholds exec E I Q s' := by
  cases h with
  | call he => exact hp.2 _ he
  | acquire => exact hp
  | release => exact hp

/-- The beginning of a run goes on with what is upheld. -/
theorem begins (hp : p.Upholds exec E I Q s) (h : Begins exec E (p, s) (q, s')) : q.Upholds exec E I Q s' := by
  have hall : ∀ c, Begins exec E (p, s) c → c.1.Upholds exec E I Q c.2 := by
    intro c hc
    induction hc with
    | refl => exact hp
    | tail _ hstep ih => exact ih.advances hstep
  exact hall _ h

/-- Restarts stay in an invariant that the task upholds from anywhere in it. -/
theorem restarts (hp : ∀ s, I s → p.Upholds exec E I Q s) (hI : I s) (h : Restarts exec E p s s') : I s' := by
  induction h with
  | refl => exact hI
  | tail _ hrun ih =>
    obtain ⟨q, hq⟩ := hrun
    exact ((hp _ ih).begins hq).holds

end Upholds

end Conc.Task
