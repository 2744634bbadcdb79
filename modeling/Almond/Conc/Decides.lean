import Almond.Conc.Solo

/-! # Tasks that succeed exactly under a condition

A task that may fail, alone with its store: whatever the outside decides, it succeeds if a condition holds and fails if it does not. -/

namespace Conc.Task

variable {Req : Type} {Resp : Req → Type} {L Env σ α β ε : Type}

/-- Whatever the outside decides within `E`, the task succeeds in `Q` if `C` holds, and fails if it does not. -/
def Decides (exec : (r : Req) → Env → σ → Resp r × σ) (E : Env → Prop) (p : ExceptT ε (Task Req Resp L) α) (C : Prop)
    (Q : α → σ → Prop) (s : σ) : Prop :=
  p.run.Yields exec E (fun x s' => match x with
    | .ok a => C ∧ Q a s'
    | .error _ => ¬ C) s

section

variable {exec : (r : Req) → Env → σ → Resp r × σ} {E : Env → Prop} {env : Nat → Env} {s : σ} {C D : Prop}
  {p : ExceptT ε (Task Req Resp L) α} {Q : α → σ → Prop}

/-- What a task alone ends with. -/
theorem Decides.alone_ok_iff (hp : Decides exec E p C Q s) (henv : ∀ n, E (env n)) (n : Nat) :
    (∃ a, (p.run.alone exec env n s).1 = .ok a) ↔ C := by
  have hx := Yields.alone hp henv n
  cases hresult : (p.run.alone exec env n s).1 with
  | ok a =>
    rw [hresult] at hx
    exact ⟨fun _ => hx.1, fun _ => ⟨a, rfl⟩⟩
  | error e =>
    rw [hresult] at hx
    exact ⟨nofun, fun hC => absurd hC hx⟩

/-- The rule of consequence. -/
theorem Decides.mono {Q' : α → σ → Prop} (hp : Decides exec E p D Q s) (hC : D ↔ C) (hQ : ∀ a s, C → Q a s → Q' a s) :
    Decides exec E p C Q' s := by
  refine Yields.mono (fun x s' hx => ?_) hp
  cases x with
  | ok a => exact ⟨hC.1 hx.1, hQ a s' (hC.1 hx.1) hx.2⟩
  | error e => exact fun hc => hx (hC.2 hc)

/-- Success. -/
theorem decides_pure {a : α} (hC : C) (hQ : Q a s) : Decides exec E (pure a : ExceptT ε (Task Req Resp L) α) C Q s :=
  ⟨hC, hQ⟩

/-- Failure. -/
theorem decides_throw {e : ε} (hC : ¬ C) : Decides exec E (throw e : ExceptT ε (Task Req Resp L) α) C Q s :=
  hC

/-- The rule of sequencing: the whole fails where its first part does. -/
theorem Decides.bind {f : α → ExceptT ε (Task Req Resp L) β} {Q' : β → σ → Prop} (hp : Decides exec E p D Q s) (hD : C → D)
    (hf : ∀ a s, D → Q a s → Decides exec E (f a) C Q' s) : Decides exec E (p >>= f) C Q' s := by
  refine Yields.run_bind hp (fun e s' hx hC => hx (hD hC)) fun a s' hx => ?_
  exact hf a s' hx.1 hx.2

/-- The rule of a result that is computed from another. -/
theorem Decides.map {f : α → β} {Q' : β → σ → Prop} (hp : Decides exec E p C Q s)
    (hQ : ∀ a s, Q a s → Q' (f a) s) : Decides exec E (f <$> p) C Q' s := by
  rw [map_eq_pure_bind]
  exact hp.bind id fun a s hC ha => decides_pure hC (hQ a s ha)

/-- The rule of a lifted task followed by more. -/
theorem Decides.lift_bind {p : Task Req Resp L α} {f : α → ExceptT ε (Task Req Resp L) β} {Q' : β → σ → Prop}
    (hp : p.Yields exec E Q s) (hf : ∀ a s, Q a s → Decides exec E (f a) C Q' s) :
    Decides exec E ((liftM p : ExceptT ε (Task Req Resp L) α) >>= f) C Q' s :=
  Yields.lift_bind hp hf

/-- What a task ends with, it ends with. -/
theorem Decides.and {Q' : Except ε α → σ → Prop} (hp : Decides exec E p C Q s) (hp' : p.run.Yields exec E Q' s) :
    Decides exec E p C (fun a s' => Q a s' ∧ Q' (.ok a) s') s := by
  refine Yields.mono (fun x s' hx => ?_) (Yields.and hp hp')
  cases x with
  | ok a => exact ⟨hx.1.1, hx.1.2, hx.2⟩
  | error e => exact hx.1

end

/-- What a task yields whatever the outside decides, it yields when the outside decides less. -/
theorem Yields.within {exec : (r : Req) → Env → σ → Resp r × σ} {E E' : Env → Prop} (hE : ∀ e, E e → E' e) {p : Task Req Resp L α}
    {Q : α → σ → Prop} {s : σ} (hp : p.Yields exec E' Q s) : p.Yields exec E Q s := by
  induction p generalizing s with
  | ret a => exact hp
  | call r k ih => exact fun e he => ih _ (hp e (hE e he))
  | acquire l k ih => exact ih hp
  | release l k ih => exact ih hp

end Conc.Task
