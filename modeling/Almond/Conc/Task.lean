import Mathlib.Logic.Function.Basic

/-! # Tasks: asynchronous programs as trees of requests

A task is what an `async` function denotes: it either has its result, or it stands at a suspension point and waits for the
response to a request, for a lock, or for the scheduler to hand a lock back. Nothing here says what a request does; a machine
does that. -/

namespace Conc

/-- The name of a running task. Names are never reused. -/
abbrev Tid := Nat

/-- A program that issues requests `Req`, receives responses `Resp`, and takes and returns locks named by `L`. -/
inductive Task (Req : Type) (Resp : Req → Type) (L : Type) (α : Type) : Type where
  /-- The task is finished. -/
  | ret (a : α)
  /-- The task waits for the response to a request. -/
  | call (r : Req) (k : Resp r → Task Req Resp L α)
  /-- The task waits for a lock. -/
  | acquire (l : L) (k : Task Req Resp L α)
  /-- The task is about to give a lock back. -/
  | release (l : L) (k : Task Req Resp L α)

namespace Task

variable {Req : Type} {Resp : Req → Type} {L : Type} {α β γ : Type}

/-- Run one task, then the task its result selects. -/
def bind : Task Req Resp L α → (α → Task Req Resp L β) → Task Req Resp L β
  | .ret a, f => f a
  | .call r k, f => .call r fun x => (k x).bind f
  | .acquire l k, f => .acquire l (k.bind f)
  | .release l k, f => .release l (k.bind f)

instance : Monad (Task Req Resp L) where
  pure := .ret
  bind := .bind

/-- Issue one request. -/
def perform (r : Req) : Task Req Resp L (Resp r) :=
  .call r .ret

/-- Run a task between taking a lock and giving it back. -/
def withLock (l : L) (p : Task Req Resp L α) : Task Req Resp L α :=
  .acquire l (p.bind fun a => .release l (.ret a))

/-! ## The monad laws -/

@[simp] theorem pure_eq (a : α) : (pure a : Task Req Resp L α) = .ret a :=
  rfl

@[simp] theorem bind_eq (p : Task Req Resp L α) (f : α → Task Req Resp L β) : p >>= f = p.bind f :=
  rfl

@[simp] theorem ret_bind (a : α) (f : α → Task Req Resp L β) : (Task.ret a).bind f = f a :=
  rfl

@[simp] theorem call_bind (r : Req) (k : Resp r → Task Req Resp L α) (f : α → Task Req Resp L β) :
    (Task.call r k).bind f = .call r fun x => (k x).bind f :=
  rfl

@[simp] theorem acquire_bind (l : L) (k : Task Req Resp L α) (f : α → Task Req Resp L β) :
    (Task.acquire l k).bind f = .acquire l (k.bind f) :=
  rfl

@[simp] theorem release_bind (l : L) (k : Task Req Resp L α) (f : α → Task Req Resp L β) :
    (Task.release l k).bind f = .release l (k.bind f) :=
  rfl

@[simp] theorem perform_bind (r : Req) (f : Resp r → Task Req Resp L β) : (perform r).bind f = .call r f :=
  rfl

@[simp] theorem bind_ret (p : Task Req Resp L α) : p.bind .ret = p := by
  induction p with
  | ret a => rfl
  | call r k ih => exact congrArg (Task.call r) (funext ih)
  | acquire l k ih => exact congrArg (Task.acquire l) ih
  | release l k ih => exact congrArg (Task.release l) ih

theorem bind_assoc (p : Task Req Resp L α) (f : α → Task Req Resp L β) (g : β → Task Req Resp L γ) :
    (p.bind f).bind g = p.bind fun a => (f a).bind g := by
  induction p with
  | ret a => rfl
  | call r k ih => exact congrArg (Task.call r) (funext ih)
  | acquire l k ih => exact congrArg (Task.acquire l) ih
  | release l k ih => exact congrArg (Task.release l) ih

instance : LawfulMonad (Task Req Resp L) :=
  LawfulMonad.mk' (Task Req Resp L) bind_ret (fun _ _ => rfl) bind_assoc

@[simp] theorem map_eq (f : α → β) (p : Task Req Resp L α) : f <$> p = p.bind fun a => .ret (f a) :=
  rfl

/-! ## The record of a task -/

/-- One request together with the response it received. -/
abbrev Event (Req : Type) (Resp : Req → Type) := (r : Req) × Resp r

/-- The task that also returns the requests it issued and the responses it received, in order. -/
def traced : Task Req Resp L α → Task Req Resp L (List (Event Req Resp) × α)
  | .ret a => .ret ([], a)
  | .call r k => .call r fun x => (k x).traced.bind fun (es, a) => .ret (⟨r, x⟩ :: es, a)
  | .acquire l k => .acquire l k.traced
  | .release l k => .release l k.traced

/-- The record of a task whose result is mapped. -/
theorem traced_bind_ret (p : Task Req Resp L α) (f : α → β) :
    (p.bind fun a => .ret (f a)).traced = p.traced.bind fun e => .ret (e.1, f e.2) := by
  induction p with
  | ret a => rfl
  | call r k ih =>
    refine congrArg (Task.call r) (funext fun x => ?_)
    show ((k x).bind fun a => .ret (f a)).traced.bind _ = ((k x).traced.bind _).bind _
    rw [ih, bind_assoc, bind_assoc]
    rfl
  | acquire l k ih => exact congrArg (Task.acquire l) ih
  | release l k ih => exact congrArg (Task.release l) ih

end Task

end Conc
