import Almond.Conc.Solo
import Almond.Lemmas.ChunksAux

/-! # Reconstruction from chunk files

What a reconstruction does when it has the disk to itself, no operation fails and the chunk files read back as they were written. -/

namespace Almond

open Conc Tiling Handlers

/-- No file operation fails. -/
def Calm (e : Env) : Prop :=
  e.fs.fault = none

/-- A file with its contents, apart from the file that is written. -/
def Stored (target : Ino) (d : Disk) (p : Path) (bytes : Bytes) : Prop :=
  ∃ ino, ino ≠ target ∧ d.names.lookup p = some ino ∧ (d.nodes ino).data = bytes

/-- Only the contents of one file have changed. -/
structure OnlyFile (target : Ino) (d d' : Disk) : Prop where
  names : d'.names = d.names
  nodes : ∀ ino, ino ≠ target → d'.nodes ino = d.nodes ino

namespace OnlyFile

variable {target : Ino} {d d' d'' : Disk}

/-- Nothing has changed. -/
theorem refl (target : Ino) (d : Disk) : OnlyFile target d d :=
  ⟨rfl, fun _ _ => rfl⟩

/-- One change after another. -/
theorem trans (h : OnlyFile target d d') (h' : OnlyFile target d' d'') : OnlyFile target d d'' :=
  ⟨h'.names.trans h.names, fun ino hi => (h'.nodes ino hi).trans (h.nodes ino hi)⟩

/-- Writing to the file changes only the file. -/
theorem setNode (d : Disk) (target : Ino) (node : Node) : OnlyFile target d (d.setNode target node) :=
  ⟨rfl, fun _ hi => Function.update_of_ne hi ..⟩

/-- Another file stays as it is. -/
theorem stored {p : Path} {bytes : Bytes} (h : OnlyFile target d d') (hs : Stored target d p bytes) : Stored target d' p bytes := by
  obtain ⟨ino, hne, hl, hd⟩ := hs
  exact ⟨ino, hne, h.names ▸ hl, h.nodes ino hne ▸ hd⟩

end OnlyFile

section

variable {cfg : Config} {t : Tid} {s : AppState} {α β ε : Type}

/-- A checked operation followed by more. -/
theorem yields_orErr_bind {step : (r : Req) → Env → AppState → Resp r × AppState} {message : ε → AppError} {p : Async (Except ε α)}
    {f : α → AsyncResult β} {E : Env → Prop} {Q : AppResult β → AppState → Prop}
    (hp : p.Yields step E (fun x s => match x with
      | .ok a => (f a).run.Yields step E Q s
      | .error e => Q (.error (message e)) s) s) : (orErr message p >>= f).run.Yields step E Q s := by
  refine Task.Yields.run_bind (Q := fun x s => match x with
    | .ok a => (f a).run.Yields step E Q s
    | .error e => Q (.error e) s) (hp.bind fun x s hx => ?_) (fun _ _ => id) fun _ _ => id
  cases x <;> exact hx

/-- A task whose result is inspected, followed by more. -/
theorem yields_attempt_bind {step : (r : Req) → Env → AppState → Resp r × AppState} {p : AsyncResult α}
    {f : AppResult α → AsyncResult β} {E : Env → Prop} {Q : AppResult α → AppState → Prop} {Q' : AppResult β → AppState → Prop}
    (hp : p.run.Yields step E Q s) (hf : ∀ x s, Q x s → (f x).run.Yields step E Q' s) : (attempt p >>= f).run.Yields step E Q' s :=
  Task.Yields.lift_bind (p := p.run) hp hf

end

namespace Handlers

variable {cfg : Config} {t : Tid} {s : AppState} {target : Ino}

/-- A path at which a file can be created, whose inode is none of those in use. -/
structure Free (d : Disk) (temp : Path) : Prop where
  missing : d.names.lookup temp = none
  no_dir : d.dirs.contains temp = false
  parent : d.parentExists temp = true

end Handlers

end Almond
