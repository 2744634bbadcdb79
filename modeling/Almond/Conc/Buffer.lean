import Mathlib.Data.List.Perm.Basic

/-! # A buffer of futures

A stream of futures of which a bounded number runs at a time. The results come in the order in which the futures finish. -/

namespace Conc

variable {α β : Type} {n : Nat} {waiting running : List α} {results : List (α × β)}

/-- A run of a buffer for `n` futures, from the futures that wait and those that run to the results. The first one that waits is
started while there is room for it; any one that runs can be the next to finish, with any result. -/
inductive Buffered (n : Nat) : List α → List α → List (α × β) → Prop
  | done : Buffered n [] [] []
  | start {a : α} {waiting running : List α} {results : List (α × β)} (h : running.length < n)
      (next : Buffered n waiting (running ++ [a]) results) : Buffered n (a :: waiting) running results
  | finish {a : α} (b : β) {waiting before after : List α} {results : List (α × β)}
      (next : Buffered n waiting (before ++ after) results) : Buffered n waiting (before ++ a :: after) ((a, b) :: results)

namespace Buffered

/-- Every future has one result. -/
theorem perm (h : Buffered n waiting running results) : (results.map Prod.fst).Perm (running ++ waiting) := by
  induction h with
  | done => exact .nil
  | start _ _ ih => rwa [List.append_assoc] at ih
  | finish b _ ih =>
    rw [List.map_cons, List.append_assoc, List.cons_append]
    refine (ih.cons _).trans ?_
    rw [List.append_assoc]
    exact List.perm_middle.symm

/-- Futures that run one after another. -/
theorem in_order (hn : 0 < n) (f : α → β) (as : List α) : Buffered n as [] (as.map fun a => (a, f a)) := by
  induction as with
  | nil => exact .done
  | cons a as ih => exact .start hn (Buffered.finish (f a) (List.nil_append _ ▸ ih))

end Buffered

end Conc
