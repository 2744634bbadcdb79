import Almond.Conc.Solo

/-! # What a task can do alone

`Yields` is about every decision of the outside. Here some decisions bring a task to an end. -/

namespace Conc.Task

variable {Req : Type} {Resp : Req → Type} {L Env σ α β ε : Type} {exec : (r : Req) → Env → σ → Resp r × σ} {s : σ}

/-- For some decisions of the outside the task ends in `Q`. -/
def Can (exec : (r : Req) → Env → σ → Resp r × σ) : Task Req Resp L α → (α → σ → Prop) → σ → Prop
  | .ret a, Q, s => Q a s
  | .call r k, Q, s => ∃ e, (k (exec r e s).1).Can exec Q (exec r e s).2
  | .acquire _ k, Q, s => k.Can exec Q s
  | .release _ k, Q, s => k.Can exec Q s

/-- The rule of consequence. -/
theorem Can.mono {p : Task Req Resp L α} {Q Q' : α → σ → Prop} (hQ : ∀ a s, Q a s → Q' a s) (hp : p.Can exec Q s) :
    p.Can exec Q' s := by
  induction p generalizing s with
  | ret a => exact hQ a s hp
  | call r k ih =>
    obtain ⟨e, hk⟩ := hp
    exact ⟨e, ih _ hk⟩
  | acquire l k ih => exact ih hp
  | release l k ih => exact ih hp

/-- The rule of sequencing. -/
theorem Can.bind {p : Task Req Resp L α} {f : α → Task Req Resp L β} {Q : α → σ → Prop} {Q' : β → σ → Prop} (hp : p.Can exec Q s)
    (hf : ∀ a s, Q a s → (f a).Can exec Q' s) : (p.bind f).Can exec Q' s := by
  induction p generalizing s with
  | ret a => exact hf a s hp
  | call r k ih =>
    obtain ⟨e, hk⟩ := hp
    exact ⟨e, ih _ hk⟩
  | acquire l k ih => exact ih hp
  | release l k ih => exact ih hp

/-- The rule of sequencing for tasks that may fail: an error skips the rest. -/
theorem Can.run_bind {p : ExceptT ε (Task Req Resp L) α} {f : α → ExceptT ε (Task Req Resp L) β} {Q : Except ε α → σ → Prop}
    {Q' : Except ε β → σ → Prop} (hp : Can exec p.run Q s) (he : ∀ e s, Q (.error e) s → Q' (.error e) s)
    (hf : ∀ a s, Q (.ok a) s → Can exec (f a).run Q' s) : Can exec (p >>= f).run Q' s := by
  rw [ExceptT.run_bind, bind_eq]
  refine hp.bind fun x s hx => ?_
  cases x with
  | ok a => exact hf a s hx
  | error e => exact he e s hx

/-- The rule of a lifted task followed by more. -/
theorem Can.lift_bind {p : Task Req Resp L α} {f : α → ExceptT ε (Task Req Resp L) β} {Q : α → σ → Prop} {Q' : Except ε β → σ → Prop}
    (hp : p.Can exec Q s) (hf : ∀ a s, Q a s → Can exec (f a).run Q' s) :
    Can exec ((liftM p : ExceptT ε (Task Req Resp L) α) >>= f).run Q' s := by
  rw [run_lift_bind]
  exact hp.bind hf

/-- Earlier decisions of the outside are none of the rest of a task. -/
theorem alone_update {env : Nat → Env} {i n : Nat} (e : Env) (h : i < n) (p : Task Req Resp L α) (s : σ) :
    p.alone exec (Function.update env i e) n s = p.alone exec env n s := by
  induction p generalizing n s with
  | ret a => rfl
  | call r k ih =>
    have hlater : Function.update env i e n = env n := Function.update_of_ne (Nat.ne_of_gt h) _ _
    simp only [alone, hlater]
    exact ih _ (Nat.lt_succ_of_lt h) _
  | acquire l k ih => exact ih h s
  | release l k ih => exact ih h s

/-- What a task can do it does alone, for some decisions of the outside. -/
theorem Can.alone [Nonempty Env] {p : Task Req Resp L α} {Q : α → σ → Prop} (hp : p.Can exec Q s) (n : Nat) :
    ∃ env : Nat → Env, Q (p.alone exec env n s).1 (p.alone exec env n s).2.2 := by
  induction p generalizing n s with
  | ret a =>
    obtain ⟨e⟩ := ‹Nonempty Env›
    exact ⟨fun _ => e, hp⟩
  | call r k ih =>
    obtain ⟨e, hk⟩ := hp
    obtain ⟨env, henv⟩ := ih _ hk (n + 1)
    refine ⟨Function.update env n e, ?_⟩
    simp only [Task.alone, Function.update_self, alone_update e n.lt_succ_self]
    exact henv
  | acquire l k ih => exact ih hp n
  | release l k ih => exact ih hp n

end Conc.Task
