import Almond.System
import Almond.Conc.Solo

/-! # Storage upkeep on local disks

The disk and the index of a server without a bucket: publications, removals, the retention sweep and the retry of superseded copies,
interleaved in any way, while no file operation fails. The index is only in memory; a new process reads it off the names of the
files. -/

namespace Almond

open Conc FileStorage

/-! ## Blob files -/

/-- A path below the root of an origin, under a blob name. -/
def BlobPath (layout : StorageLayout) (origin : BlobOrigin) (p : Path) (parsed : BlobName.ParsedName) : Prop :=
  ∃ dirs name, p = originRoot layout origin ++ dirs ++ [name] ∧ BlobName.parse name = some parsed

namespace Disk

/-- A directory tree: every directory is listed once and is not a file, and what has a name is in a directory. -/
structure Tree (d : Disk) : Prop where
  nodup : d.dirs.Nodup
  apart : ∀ p ∈ d.dirs, d.hasFile p = false
  parent : ∀ p, p ≠ [] → d.hasFile p = true ∨ p ∈ d.dirs → p.dropLast ∈ d.dirs

/-- The blob roots can be scanned, and below them a hash has at most one file. -/
structure Scannable (layout : StorageLayout) (d : Disk) : Prop where
  tree : d.Tree
  roots : ∀ origin, originRoot layout origin ∈ d.dirs
  unique : ∀ origin origin' p p' parsed parsed', BlobPath layout origin p parsed → BlobPath layout origin' p' parsed' →
    d.hasFile p = true → d.hasFile p' = true → parsed.hash = parsed'.hash → p = p'

end Disk

/-! ## Operations -/

/-- The operations that change the stored blobs. -/
inductive Upkeep where
  /-- The publication of a received file, by its name in the temporary directory. -/
  | publish (temp : Str) (publication : BlobPublication)
  | remove (sha256 : Str) (removal : Removal) (expected : Option FileMetadata)
  | enforceStorageLimits
  | reconcileSuperseded

/-- A received file, by its name. -/
def tempPath (cfg : Config) (temp : Str) : Path :=
  cfg.storage.temp ++ [temp]

/-- The program of an operation. -/
def Upkeep.program (cfg : Config) : Upkeep → Async Outcome
  | .publish temp publication => .stored <$> (do
      request (.adoptTemp (tempPath cfg temp))
      publishBlob cfg (tempPath cfg temp) publication : AsyncResult StoredBlob).run
  | .remove sha256 removal expected => .removed <$> (removeIndexedBlob cfg sha256 removal expected).run
  | .enforceStorageLimits => .done <$> (Startup.enforceStorageLimits cfg).run
  | .reconcileSuperseded => .done <$> (reconcileSupersededBlobs cfg).run

/-- The stored blobs as a machine whose file operations do not fail from outside. -/
def upkeep (cfg : Config) : Machine Req Resp Str {e : Env // e.fs.fault = none} AppState Upkeep Outcome where
  body := Upkeep.program cfg
  exec t r e := exec cfg t r e.1
  discard := discard
  enabled _ _ := true
  tick e := tick e.1
  crash := crash
  boot := .reconcileSuperseded

/-- Stored blobs with the operations at work. -/
abbrev Upkept := Sys Req Resp Str AppState Upkeep Outcome

/-- What a publication asks of a blob: an extension without dots and slashes, and an expiration that is a `u64`. -/
def proper (publication : BlobPublication) : Bool :=
  (publication.extension.all fun x => !x.contains '.' && !x.contains '/') && publication.expiration.all (· ≤ u64Max)

/-- What is promised of a request: a file that is handed over has no other owner and as many bytes as its publication says. -/
def promised (s : AppState) : Upkeep → Req → Bool
  | .publish _ publication, .adoptTemp p =>
    (s.temps.all fun x => x.2 ≠ p) && (s.disk.file? p).any fun node => node.data.length = publication.size
  | _, _ => true

/-- The steps of runs in which nothing fails and nothing is interrupted. -/
def unfailing (c : Upkept) : Label Req Resp Str Upkeep Outcome → Bool
  | .spawned _ (.publish _ publication) => proper publication
  | .called _ op r _ => promised c.world.store op r
  | .dropped _ _ | .crashed => false
  | _ => true

/-! ## Restart -/

/-- A new process builds its index: the result, and the state after it. -/
def rebuild (cfg : Config) (env : Nat → Env) (s : AppState) : AppResult Unit × AppState :=
  let x := (Startup.buildFileIndex cfg.libs cfg.storage).run.alone (exec cfg 0) env 0 (crash s)
  (x.1, x.2.2)

/-- What a restart keeps of an entry. -/
def lasting (m : FileMetadata) : FileLocation × Nat × Option Str × Option Nat × BlobOrigin :=
  (m.location, m.size, m.extension, m.expiration, m.origin)

/-- The stored blobs of a new process. -/
def Upkept.idle (s : AppState) : Upkept :=
  ⟨⟨s, fun _ => none, 0⟩, fun _ => none⟩

end Almond
