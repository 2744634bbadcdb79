import Almond.Conc.Solo
import Almond.Scanning

/-! # Migrations that are interrupted

A migration runs over a volume: a directory is listed in some order and has a length of its own. -/

namespace Almond

open Conc (Tid Task)
open Startup

/-- What the outside decides of one request over a volume. -/
structure VolumeEnv where
  env : Env
  /-- The order in which the entries of a directory are listed. -/
  enumeration : Enumeration
  /-- The length and the modification time that are reported of a directory. -/
  dirMetadata : Path → Nat × Nat

namespace Volume

/-- One request over a volume. -/
def exec (cfg : Config) (t : Tid) (r : Req) (e : VolumeEnv) (s : AppState) : Resp r × AppState :=
  match r with
  | .fs (.metadata p) =>
    if e.env.fs.fault = none ∧ s.disk.dirs.contains p then (.ok (e.dirMetadata p), s)
    else Almond.exec cfg t (.fs (.metadata p)) e.env s
  | r => e.enumeration.exec cfg t r e.env s

end Volume

namespace Migration

/-- A migration. -/
abbrev program (layout : StorageLayout) : Async (AppResult Unit) :=
  (migrateLegacyBlobs layout).run

/-- A directory of a legacy tree, by its path. -/
def Legacy (layout : StorageLayout) (dir : Path) : Prop :=
  ∃ name rest, isLegacyName name = true ∧ dir = layout.root ++ name :: rest

/-- Where a path of a legacy tree belongs among the uploads. -/
def destination (layout : StorageLayout) (p : Path) : Path :=
  layout.uploads ++ p.drop layout.root.length

/-- Files of the same relative path and the same size have the same contents. -/
def Addressed (layout : StorageLayout) (d : Disk) : Prop :=
  ∀ dir name file file', Legacy layout dir → d.file? (dir ++ [name]) = some file →
    d.file? (destination layout dir ++ [name]) = some file' → file.data.length = file'.data.length → file.data = file'.data

/-- The volume does not report the size of a legacy file as the length of a directory that is in its place among the uploads. -/
def Apart (layout : StorageLayout) (d : Disk) (e : VolumeEnv) : Prop :=
  ∀ dir name file, Legacy layout dir → d.file? (dir ++ [name]) = some file → destination layout dir ++ [name] ∈ d.dirs →
    (e.dirMetadata (destination layout dir ++ [name])).1 ≠ file.data.length

/-- Two paths are one relative path in a legacy tree and among the uploads. -/
def Counterparts (layout : StorageLayout) (p q : Path) : Prop :=
  ∃ dir name, Legacy layout dir ∧
    (p = dir ++ [name] ∧ q = destination layout dir ++ [name] ∨ p = destination layout dir ++ [name] ∧ q = dir ++ [name])

/-- Some file of a relative path has these contents. -/
def Copied (layout : StorageLayout) (d : Disk) (p : Path) (data : Bytes) : Prop :=
  ∃ q file, (q = p ∨ Counterparts layout p q) ∧ d.file? q = some file ∧ file.data = data

/-- The uploads of two disks are the same tree. -/
def SameUploads (layout : StorageLayout) (d d' : Disk) : Prop :=
  ∀ p, layout.uploads <+: p → d.file? p = d'.file? p ∧ (p ∈ d.dirs ↔ p ∈ d'.dirs)

/-- The uploads of a disk contain the files of both trees of an earlier one, each at its relative path. -/
structure Contains (layout : StorageLayout) (d₀ d : Disk) : Prop where
  legacy : ∀ dir name file, Legacy layout dir → d₀.file? (dir ++ [name]) = some file →
    ∃ file', d.file? (destination layout dir ++ [name]) = some file' ∧ file'.data = file.data
  uploads : ∀ p file, layout.uploads <+: p → d₀.file? p = some file → d.file? p = some file

/-- Migrations of one disk resume without loss, whatever the outside decides within `E`. -/
structure Resumes (cfg : Config) (layout : StorageLayout) (E : VolumeEnv → Prop) (s₀ : AppState) : Prop where
  /-- No step removes the last copy of a file. -/
  copies : ∀ s q q' s₁ s₂, Task.Restarts (Volume.exec cfg 0) E (program layout) s₀ s →
    Task.Begins (Volume.exec cfg 0) E (program layout, s) (q, s₁) → Task.Advances (Volume.exec cfg 0) E (q, s₁) (q', s₂) →
    ∀ p file, s₁.disk.file? p = some file → Copied layout s₂.disk p file.data
  /-- A migration that succeeds after interrupted ones leaves every file of both trees at its relative path. -/
  contains : ∀ s s', Task.Restarts (Volume.exec cfg 0) E (program layout) s₀ s →
    Task.Begins (Volume.exec cfg 0) E (program layout, s) (.ret (.ok ()), s') → Contains layout s₀.disk s'.disk
  /-- It ends with the uploads of any uninterrupted migration that succeeds. -/
  agrees : ∀ s s' s'', Task.Restarts (Volume.exec cfg 0) E (program layout) s₀ s →
    Task.Begins (Volume.exec cfg 0) E (program layout, s) (.ret (.ok ()), s') →
    Task.Begins (Volume.exec cfg 0) E (program layout, s₀) (.ret (.ok ()), s'') → SameUploads layout s'.disk s''.disk
  /-- Then an uninterrupted migration succeeds too, unless some operation fails. -/
  succeeds : ∀ s s' env, Task.Restarts (Volume.exec cfg 0) E (program layout) s₀ s →
    Task.Begins (Volume.exec cfg 0) E (program layout, s) (.ret (.ok ()), s') →
    (∀ n, E (env n) ∧ (env n).env.fs.fault = none) → ((program layout).alone (Volume.exec cfg 0) env 0 s₀).1 = .ok ()

end Migration

end Almond
