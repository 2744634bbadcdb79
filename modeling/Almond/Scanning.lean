import Almond.Conc.Solo
import Almond.Startup

/-! # Startup on any file system

A file system lists the entries of a directory in an order of its own. -/

namespace Almond

open Conc (Tid Task)

/-- The order in which the entries of each directory are enumerated. -/
structure Enumeration where
  order : Path → List Str → List Str
  perm : ∀ dir names, (order dir names).Perm names

namespace Enumeration

/-- Directories as the disk lists them. -/
def asListed : Enumeration where
  order _ names := names
  perm _ _ := .refl _

/-- Directories from their last entry to their first. -/
def backwards : Enumeration where
  order _ names := names.reverse
  perm _ names := names.reverse_perm

/-- What a request returns, with the entries of a directory in this order. -/
def answer (o : Enumeration) : (r : Req) → Resp r → Resp r
  | .fs (.readDir dir), x => x.map (o.order dir)
  | _, x => x

/-- One request of a task, over directories in this order. -/
def exec (o : Enumeration) (cfg : Config) (t : Tid) (r : Req) (e : Env) (s : AppState) : Resp r × AppState :=
  let x := Almond.exec cfg t r e s
  (o.answer r x.1, x.2)

/-- A program that runs alone, over directories in this order. -/
def run {α : Type} (o : Enumeration) (cfg : Config) (env : Nat → Env) (program : AsyncResult α) (s : AppState) :
    AppResult α × AppState :=
  let x := program.run.alone (o.exec cfg 0) env 0 s
  (x.1, x.2.2)

/-- A disk lists its directories in one of the orders. -/
theorem exec_asListed (cfg : Config) (t : Tid) : asListed.exec cfg t = Almond.exec cfg t := by
  funext r e s
  have hid : ∀ (r : Req) (x : Resp r), asListed.answer r x = x := by
    intro r x
    cases r with
    | fs r =>
      cases r with
      | readDir dir => cases x <;> rfl
      | _ => rfl
    | _ => rfl
  exact Prod.ext (hid r _) rfl

end Enumeration

end Almond
