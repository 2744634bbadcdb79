import Almond.Conc.Protocol
import Almond.System

/-! # Rules for the program's own combinators -/

namespace Almond

open Conc

section

variable {α β ε Env' σ Op' Out : Type} {M : Machine Req Resp Str Env' σ Op' Out} {D : Discipline Req Str σ Op'}
  {t : Tid} {op : Op'} {w : World Str σ}

/-- The rule of one awaited request. -/
theorem wp_request {r : Req} {Q : Resp r → World Str σ → Prop}
    (h : ∀ w', D.Expects t w w' → D.inv w' → D.assume w' t op r → D.allow w' t op r ∧
      ∀ e, D.inv (w'.setStore (M.exec t r e w'.store).2) →
        Q (M.exec t r e w'.store).1 (w'.setStore (M.exec t r e w'.store).2)) :
    wp M D t op (request r) Q w :=
  h

/-- The rule of a fallible task whose result is inspected. -/
theorem wp_attempt_bind (p : AsyncResult α) (f : AppResult α → AsyncResult β) (Q : AppResult β → World Str σ → Prop) :
    wp M D t op (attempt p >>= f).run Q w ↔ wp M D t op p.run (fun x => wp M D t op (f x).run Q) w := by
  rw [wp_run_bind]
  exact wp_bind p.run _ _

/-- The rule of an operation whose error is mapped. -/
theorem wp_orErr_bind (message : ε → AppError) (p : Async (Except ε α)) (f : α → AsyncResult β)
    (Q : AppResult β → World Str σ → Prop) :
    wp M D t op (orErr message p >>= f).run Q w ↔
      wp M D t op p (fun x => match x with
        | .ok a => wp M D t op (f a).run Q
        | .error e => Q (.error (message e))) w := by
  rw [wp_run_bind]
  refine (wp_bind p _ _).trans ⟨wp_mono ?_, wp_mono ?_⟩
  all_goals
    intro x w'
    cases x <;> exact id

/-- The rule of a fallible value followed by more. -/
theorem wp_ofResult_bind (x : AppResult α) (f : α → AsyncResult β) (Q : AppResult β → World Str σ → Prop) :
    wp M D t op (ofResult x >>= f).run Q w ↔
      match x with
      | .ok a => wp M D t op (f a).run Q w
      | .error e => Q (.error e) w := by
  rw [wp_run_bind]
  cases x <;> exact Iff.rfl

end

/-! ## Footprints of the combinators -/

section

variable {α β ε : Type} {P : Req → Prop}

/-- The footprint of an awaited request. -/
theorem within_request {r : Req} {R : Resp r → Prop} (hP : P r) (hR : ∀ x, R x) : (request r).Within P R :=
  ⟨hP, fun x _ => hR x⟩

/-- The footprint of an operation whose error is mapped. -/
theorem within_orErr {R : Except ε α → Prop} {S : AppResult α → Prop} {message : ε → AppError} {p : Async (Except ε α)}
    (hp : p.Within P R) (hS : ∀ x, R x → S (x.mapError message)) : (orErr message p).run.Within P S :=
  hp.bind fun x h => hS x h

/-- The requests of a request. -/
theorem uses_request {r : Req} (hP : P r) : (request r).Uses P :=
  ⟨hP, fun _ _ => trivial⟩

/-- The requests of a task whose result is inspected. -/
theorem uses_attempt {p : AsyncResult α} (hp : p.run.Uses P) : (attempt p).run.Uses P :=
  hp.bind fun _ => trivial

/-- The requests of an operation whose error is mapped. -/
theorem uses_orErr {message : ε → AppError} {p : Async (Except ε α)} (hp : p.Uses P) : (orErr message p).run.Uses P :=
  hp.bind fun _ => trivial

end

end Almond
