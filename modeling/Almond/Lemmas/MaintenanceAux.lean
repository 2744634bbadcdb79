import Almond.Lemmas.GuardedAux
import Almond.Migration

/-! # What the other operations issue

Booting, removing, listing and evicting work on the disk, the bucket and the index. They neither receive anything nor know of
sessions. -/

namespace Almond

open Conc

/-- A request to the storage services: it writes no file, and moves files only to the uploads and to the quarantine. -/
def Req.Maintains (layout : StorageLayout) : Req → Prop
  | .fs (.createFile _) | .fs (.writeAll _ _) => False
  | .fs (.rename _ p) => layout.uploads <+: p ∨ layout.quarantine <+: p
  | .fs _ | .s3 _ | .index _ | .s3Status | .setS3Status _ | .takeSuperseded | .queueSuperseded _ _ | .extendSuperseded _
  | .systemTime | .ready => True
  | _ => False

/-- A request of a removal: it works on files and objects, and ends at most the entry of its hash. -/
def Req.Ends (layout : StorageLayout) (sha256 : Str) : Req → Prop
  | .fs (.createFile _) | .fs (.writeAll _ _) => False
  | .fs (.rename _ p) => layout.quarantine <+: p
  | .fs _ | .s3 _ | .index (.get _) => True
  | .index (.removeIfLocationMatches key _) => key = sha256
  | _ => False

/-- A request of an eviction: it works on files and objects, reads the index and ends entries. -/
def Req.Evicts : Req → Prop
  | .fs (.createFile _) | .fs (.writeAll _ _) | .fs (.rename _ _) => False
  | .fs _ | .s3 _ | .index (.get _) | .index (.removeIfLocationMatches _ _) | .index .snapshot | .systemTime => True
  | _ => False

/-- A request that works on files and objects, but neither writes nor moves a file. -/
def Req.Physical : Req → Prop
  | .fs (.createFile _) | .fs (.writeAll _ _) | .fs (.rename _ _) => False
  | .fs _ | .s3 _ => True
  | _ => False

/-- A request that works on files and objects leaves the index. -/
theorem Req.Physical.never {r : Req} (h : r.Physical) : r.Never := by
  intro sha256
  cases r with
  | fs r => exact id
  | s3 r => exact id
  | _ => exact h.elim

/-- Work on files and objects leaves the index. -/
theorem index_yields_of_physical {cfg : Config} {t : Tid} {E : Env → Prop} {s : AppState} {α : Type} {p : Async α}
    (hp : p.Uses Req.Physical) : p.Yields (exec cfg t) E (fun _ s' => s'.index = s.index) s :=
  yields_of_never (hp.mono (fun _ h => h.never) fun _ _ => trivial)

/-- A disposal works on files and objects. -/
theorem Req.Disposes.physical {r : Req} {location : FileLocation} (h : r.Disposes location) : r.Physical := by
  cases r with
  | fs r => cases r <;> first | exact trivial | exact h.elim
  | s3 r => exact trivial
  | _ => exact h.elim

/-- Reading files works on files. -/
theorem physical_of_inspects {r : FsReq} (h : (Req.fs r).inspects) : (Req.fs r).Physical := by
  cases r <;> first | exact trivial | exact h.elim

/-- Working on files and objects is a part of a removal. -/
theorem Req.Physical.ends {layout : StorageLayout} {sha256 : Str} {r : Req} (h : r.Physical) : r.Ends layout sha256 := by
  cases r with
  | fs r => cases r <;> first | exact trivial | exact h.elim
  | s3 r => exact trivial
  | _ => exact h.elim

/-- Working on files and objects is a part of an eviction. -/
theorem Req.Physical.evicts {r : Req} (h : r.Physical) : r.Evicts := by
  cases r with
  | fs r => cases r <;> first | exact trivial | exact h.elim
  | s3 r => exact trivial
  | _ => exact h.elim

/-- An eviction is maintenance. -/
theorem Req.Evicts.maintains {layout : StorageLayout} {r : Req} (h : r.Evicts) : r.Maintains layout := by
  cases r with
  | fs r => cases r <;> first | exact trivial | exact h.elim
  | s3 r => exact trivial
  | index r => exact trivial
  | systemTime => exact trivial
  | _ => exact h.elim

/-- A removal is maintenance. -/
theorem Req.Ends.maintains {layout : StorageLayout} {sha256 : Str} {r : Req} (h : r.Ends layout sha256) : r.Maintains layout := by
  cases r with
  | fs r => cases r <;> first | exact trivial | exact .inr h | exact h.elim
  | s3 r => exact trivial
  | index r => exact trivial
  | _ => exact h.elim

/-- A removal changes no entry but that of its hash. -/
theorem Req.Ends.only {layout : StorageLayout} {sha256 : Str} {r : Req} (h : r.Ends layout sha256) : r.Only sha256 := by
  cases r with
  | index r =>
    cases r with
    | get key => exact ⟨fun _ => False.elim, id⟩
    | removeIfLocationMatches key location => exact ⟨fun other hm => hm.symm.trans h, id⟩
    | _ => exact h.elim
  | fs r => exact ⟨fun _ => False.elim, id⟩
  | s3 r => exact ⟨fun _ => False.elim, id⟩
  | _ => exact h.elim

/-- Maintenance does not reach the registry. -/
theorem Req.Maintains.not_registers {layout : StorageLayout} {r : Req} (h : r.Maintains layout) : ¬ r.registers := by
  cases r with
  | sessions r => exact h.elim
  | reserveTemp dir namePrefix extension => exact h.elim
  | _ => exact id

section

variable {α β ε : Type}

/-- A checked operation, followed by more. -/
theorem uses_orErr_bind {P : Req → Prop} {message : ε → AppError} {p : Async (Except ε α)} {f : α → AsyncResult β} (hp : p.Uses P)
    (hf : ∀ a, (f a).run.Uses P) : (orErr message p >>= f).run.Uses P :=
  Task.Uses.run_bind (uses_orErr hp) hf

/-- Work on files and objects is maintenance. -/
theorem maintains_of_physical {layout : StorageLayout} {p : Async α} (hp : p.Uses Req.Physical) : p.Uses (Req.Maintains layout) :=
  hp.mono (fun _ h => h.evicts.maintains) fun _ _ => trivial

end

namespace NativeStorage

variable {layout : StorageLayout}

/-- Reading the pages of a listing only works on objects. -/
theorem listPages_physical (libs : Libs) (pages : List PageToken) : (listPages libs pages).run.Uses Req.Physical := by
  induction pages with
  | nil => exact trivial
  | cons page pages ih => exact uses_orErr_bind (uses_request trivial) fun _ => Task.Uses.run_bind ih fun _ => trivial

/-- Merging a listing is maintenance. -/
theorem mergeListing_maintains (entries : List (Str × FileMetadata)) : (mergeListing entries).Uses (Req.Maintains layout) := by
  induction entries with
  | nil => exact trivial
  | cons e entries ih =>
    refine Task.Uses.bind (uses_request (r := .index (.contains e.1)) trivial) fun known => ?_
    cases known with
    | true => exact ih
    | false => exact Task.Uses.bind (uses_request (r := .index (.insert e.1 e.2)) trivial) fun _ => ih

/-- Synchronizing the index is maintenance. -/
theorem syncIndex_maintains (libs : Libs) : (syncIndex libs).run.Uses (Req.Maintains layout) := by
  refine Task.Uses.run_bind (uses_attempt ?_) fun listed => ?_
  · exact maintains_of_physical (Task.Uses.lift_bind (uses_request trivial) fun pages => listPages_physical libs pages)
  · cases listed with
    | ok entries =>
      exact Task.Uses.lift_bind (mergeListing_maintains entries) fun _ => Task.Within.lift (uses_request trivial)
    | error error =>
      refine Task.Uses.lift_bind (Task.Uses.bind (uses_request trivial) fun _ => trivial) fun now => ?_
      exact Task.Uses.lift_bind (uses_request trivial) fun _ => trivial

/-- Deleting the objects of a hash only works on objects. -/
theorem deleteMatching_physical (sha256 : Str) : (deleteMatching sha256).run.Uses Req.Physical := by
  have hkeys : ∀ keys, (deleteKeys keys).run.Uses Req.Physical := by
    intro keys
    induction keys with
    | nil => exact trivial
    | cons key keys ih => exact Task.Uses.run_bind (uses_orErr (uses_request trivial)) fun _ => ih
  have hpages : ∀ keyPrefix pages, (deleteInPages sha256 keyPrefix pages).run.Uses Req.Physical := by
    intro keyPrefix pages
    induction pages with
    | nil => exact trivial
    | cons page pages ih =>
      exact Task.Uses.run_bind (uses_orErr (uses_request trivial)) fun _ => Task.Uses.run_bind (hkeys _) fun _ => ih
  refine Task.Uses.run_bind (p := ofResult _) trivial fun keyPrefix => ?_
  exact Task.Uses.lift_bind (uses_request trivial) fun pages => hpages keyPrefix pages

end NativeStorage

namespace FileStorage

/-- Sweeping the bucket works on objects. -/
theorem sweepBackendCopies_physical (cfg : Config) (sha256 : Str) : (sweepBackendCopies cfg sha256).run.Uses Req.Physical := by
  unfold sweepBackendCopies
  split
  · exact NativeStorage.deleteMatching_physical sha256
  · exact trivial

/-- Disposing of an entry works on files and objects, or moves a file to the quarantine. -/
theorem dispose_uses {P : Req → Prop} (cfg : Config) (sha256 : Str) (removal : Removal) (current : FileMetadata)
    (hP : ∀ r, r.Physical → P r) (hquarantine : removal = .quarantined → ∀ p name, P (.fs (.rename p (cfg.storage.quarantine ++ [name])))) :
    (dispose cfg sha256 removal current).run.Uses P := by
  unfold dispose
  split
  · rename_i hremoval
    unfold quarantineCurrent
    split
    · exact (sweepBackendCopies_physical cfg sha256).mono hP fun _ => id
    · refine Task.Uses.run_bind (uses_orErr (uses_request (hP _ trivial))) fun _ => ?_
      exact uses_orErr (uses_request (hquarantine hremoval _ _))
  · exact (removePhysicalFile_uses cfg current).mono (fun _ h => hP _ h.physical) fun _ _ => trivial

/-- Disposing of an entry leaves the index. -/
theorem index_yields_dispose {cfg : Config} {t : Tid} {E : Env → Prop} {s : AppState} (sha256 : Str) (removal : Removal)
    (current : FileMetadata) : (dispose cfg sha256 removal current).run.Yields (exec cfg t) E (fun _ s' => s'.index = s.index) s :=
  yields_of_never (dispose_uses cfg sha256 removal current (fun _ => Req.Physical.never) fun _ _ _ _ => id)

/-- The guarded part of a removal works on files and objects, and on the entry of its hash. -/
theorem removeLocked_uses {P : Req → Prop} (cfg : Config) (sha256 : Str) (removal : Removal) (expected : Option FileMetadata)
    (hP : ∀ r, r.Physical → P r) (hquarantine : removal = .quarantined → ∀ p name, P (.fs (.rename p (cfg.storage.quarantine ++ [name]))))
    (hget : P (.index (.get sha256))) (hremove : ∀ location, P (.index (.removeIfLocationMatches sha256 location))) :
    (removeLocked cfg sha256 removal expected).run.Uses P := by
  have hsweep : (sweepBackendCopies cfg sha256).run.Uses P := (sweepBackendCopies_physical cfg sha256).mono hP fun _ => id
  refine Task.Uses.lift_bind (uses_request hget) fun current => ?_
  cases current with
  | none =>
    simp only
    split
    · exact Task.Uses.run_bind hsweep fun _ => trivial
    · exact trivial
  | some current =>
    simp only
    split
    · exact trivial
    · refine Task.Uses.run_bind (dispose_uses cfg sha256 removal current hP hquarantine) fun _ => ?_
      split
      · exact Task.Uses.run_bind hsweep fun _ => Task.Within.lift (uses_request (hremove _))
      · exact Task.Within.lift (uses_request (hremove _))

/-- The guarded part of a removal ends at most the blob of its hash. -/
theorem removeLocked_ends (cfg : Config) (sha256 : Str) (removal : Removal) (expected : Option FileMetadata) :
    (removeLocked cfg sha256 removal expected).run.Uses (Req.Ends cfg.storage sha256) :=
  removeLocked_uses cfg sha256 removal expected (fun _ h => h.ends) (fun _ _ _ => List.prefix_append ..) trivial fun _ => rfl

/-- A removal is maintenance. -/
theorem removeIndexedBlob_maintains (cfg : Config) (sha256 : Str) (removal : Removal) (expected : Option FileMetadata) :
    (removeIndexedBlob cfg sha256 removal expected).run.Issues (Req.Maintains cfg.storage) :=
  Task.Issues.mono (fun _ => Req.Ends.maintains) (removeLocked_ends cfg sha256 removal expected).issues_withLock

/-- Retrying the removal of superseded copies works on files and objects. -/
theorem retrySuperseded_physical (cfg : Config) (pending : List (Str × FileMetadata)) :
    (retrySuperseded cfg pending).run.Issues Req.Physical := by
  induction pending with
  | nil => exact rfl
  | cons e pending ih =>
    refine Task.Issues.run_bind ?_ fun removed => ?_
    · have hremove := (removePhysicalFile_uses cfg e.2).issues_withLock (l := e.1)
      exact Task.Issues.bind (hremove.mono fun _ => Req.Disposes.physical) fun _ => rfl
    · refine Task.Issues.run_bind ih fun retry => ?_
      cases removed <;> exact rfl

/-- Reconciling superseded copies works on files, objects and the queue. -/
theorem reconcileSupersededBlobs_issues {P : Req → Prop} (cfg : Config) (hP : ∀ r, r.Physical → P r) (htake : P .takeSuperseded)
    (hextend : ∀ copies, P (.extendSuperseded copies)) : (reconcileSupersededBlobs cfg).run.Issues P := by
  refine ⟨htake, fun pending _ => ?_⟩
  exact Task.Issues.run_bind ((retrySuperseded_physical cfg pending).mono hP) fun _ => ⟨hextend _, fun _ _ => rfl⟩

end FileStorage

namespace Startup

/-- The requests of creating directories. -/
theorem createDirs_uses {P : Req → Prop} (hcreate : ∀ p, P (.fs (.createDirAll p))) (directories : List Path) :
    (createDirs directories).run.Uses P := by
  induction directories with
  | nil => exact trivial
  | cons directory directories ih => exact uses_orErr_bind (uses_request (hcreate _)) fun _ => ih

/-- Creating directories works on files. -/
theorem createDirs_physical (directories : List Path) : (createDirs directories).run.Uses Req.Physical :=
  createDirs_uses (fun _ => trivial) directories

/-- The requests of clearing the temporary directory: what is removed is directly below it. -/
theorem clearTempDirectory_uses {P : Req → Prop} {tempDir : Path} (hreads : ∀ r, (Req.fs r).inspects → P (.fs r))
    (hclears : ∀ name, P (.fs (.removeDirAll (tempDir ++ [name]))) ∧ P (.fs (.removeFile (tempDir ++ [name])))) :
    (clearTempDirectory tempDir).run.Uses P := by
  have hread : ∀ r, (Req.fs r).inspects → (fs r).Uses P := fun r hr => uses_request (hreads r hr)
  have hentries : ∀ names, (clearEntries tempDir names).run.Uses P := by
    intro names
    induction names with
    | nil => exact uses_orErr (hread _ trivial)
    | cons name names ih =>
      refine uses_orErr_bind (hread _ trivial) fun _ => Task.Uses.lift_bind (hread _ trivial) fun fileType => ?_
      rcases fileType with _ | _ | _ | _
      · exact ih
      · exact uses_orErr_bind (uses_request (hclears name).2) fun _ => ih
      · exact uses_orErr_bind (uses_request (hclears name).1) fun _ => ih
      · exact ih
  refine Task.Uses.lift_bind (hread _ trivial) fun present => ?_
  rcases present with _ | _ | _
  · exact trivial
  · exact trivial
  · exact uses_orErr_bind (hread _ trivial) fun names => hentries names

/-- Clearing the temporary directory works on files. -/
theorem clearTempDirectory_physical (tempDir : Path) : (clearTempDirectory tempDir).run.Uses Req.Physical :=
  clearTempDirectory_uses (fun _ => physical_of_inspects) fun _ => ⟨trivial, trivial⟩

/-- The requests of migrating legacy trees: what is moved or removed is in one, and goes to the uploads. -/
theorem migrateLegacyBlobs_uses {P : Req → Prop} {layout : StorageLayout} (hreads : ∀ r, (Req.fs r).inspects → P (.fs r))
    (hcreate : ∀ p, P (.fs (.createDirAll p)))
    (hmoves : ∀ p q, Migration.Legacy layout p → layout.uploads <+: q → P (.fs (.removeFile p)) ∧ P (.fs (.rename p q))) :
    (migrateLegacyBlobs layout).run.Uses P := by
  have hread : ∀ r, (Req.fs r).inspects → (fs r).Uses P := fun r hr => uses_request (hreads r hr)
  have hbelow : ∀ {dir : Path} name, Migration.Legacy layout dir → Migration.Legacy layout (dir ++ [name]) := by
    rintro _ name ⟨top, rest, htop, rfl⟩
    exact ⟨top, rest ++ [name], htop, by simp⟩
  have hfile : ∀ source destination, Migration.Legacy layout source → layout.uploads <+: destination →
      (migrateFile source destination).run.Uses P := by
    intro source destination hs hd
    refine uses_orErr_bind (hread _ trivial) fun present => ?_
    cases present with
    | true =>
      refine uses_orErr_bind (hread _ trivial) fun x => uses_orErr_bind (hread _ trivial) fun y => ?_
      simp only
      split
      · exact trivial
      · exact uses_orErr (uses_request (hmoves _ _ hs hd).1)
    | false => exact uses_orErr (uses_request (hmoves _ _ hs hd).2)
  have hmerge : ∀ source destination names, Migration.Legacy layout source → layout.uploads <+: destination →
      (mergeEntries source destination names).run.Within P fun found =>
        ∀ directories, found = .ok directories → ∀ d ∈ directories, Migration.Legacy layout d.1 ∧ layout.uploads <+: d.2 := by
    intro source destination names hs hd
    induction names with
    | nil =>
      refine Task.Within.run_bind (uses_orErr (hread _ trivial)) (fun _ _ _ => nofun) fun _ _ directories h d hmem => ?_
      cases h
      nomatch hmem
    | cons name names ih =>
      refine Task.Within.run_bind (uses_orErr (hread _ trivial)) (fun _ _ _ => nofun) fun _ _ => ?_
      refine Task.Within.run_bind (uses_orErr (hread _ trivial)) (fun _ _ _ => nofun) fun fileType _ => ?_
      cases fileType with
      | dir =>
        refine Task.Within.run_bind ih (fun _ _ _ => nofun) fun directories hdirectories all h d hmem => ?_
        cases h
        rcases List.mem_cons.1 hmem with rfl | hmem
        · exact ⟨hbelow name hs, hd.trans (List.prefix_append ..)⟩
        · exact hdirectories directories rfl d hmem
      | file =>
        exact Task.Within.run_bind (hfile _ _ (hbelow name hs) (hd.trans (List.prefix_append ..))) (fun _ _ _ => nofun) fun _ _ => ih
      | other => exact ih
  have hdirs : ∀ fuel directories, (∀ d ∈ directories, Migration.Legacy layout d.1 ∧ layout.uploads <+: d.2) →
      (mergeDirs fuel directories).run.Uses P := by
    intro fuel
    induction fuel with
    | zero => intro directories _; cases directories <;> exact trivial
    | succ fuel ih =>
      intro directories hall
      cases directories with
      | nil => exact trivial
      | cons d directories =>
        obtain ⟨⟨hs, hd⟩, hrest⟩ := List.forall_mem_cons.1 hall
        refine uses_orErr_bind (uses_request (hcreate _)) fun _ => uses_orErr_bind (hread _ trivial) fun names => ?_
        refine Task.Within.run_bind (hmerge _ _ names hs hd) (fun _ _ => trivial) fun found hfound => ?_
        refine ih _ fun d hmem => ?_
        rcases List.mem_append.1 hmem with hmem | hmem
        · exact hfound found rfl d (List.mem_reverse.1 hmem)
        · exact hrest d hmem
  refine uses_orErr_bind (hread _ trivial) fun names => ?_
  induction names with
  | nil => exact uses_orErr (hread _ trivial)
  | cons name names ih =>
    refine uses_orErr_bind (hread _ trivial) fun _ => ?_
    simp only
    split
    · rename_i hname
      refine uses_orErr_bind (hread _ trivial) fun fileType => ?_
      split
      · have hone : ∀ d ∈ [(layout.root ++ [name], layout.uploads ++ [name])], Migration.Legacy layout d.1 ∧ layout.uploads <+: d.2 := by
          intro d hd
          cases List.mem_singleton.1 hd
          exact ⟨⟨name, [], hname, rfl⟩, List.prefix_append ..⟩
        exact Task.Uses.run_bind (Task.Uses.lift_bind (hread _ trivial) fun fuel => hdirs fuel _ hone) fun _ => ih
      · exact ih
    · exact ih

/-- A scan of a blob root reads, and keeps what recording a file below the root keeps. -/
theorem scanBlobRoot_within {P : Req → Prop} {I : Scan → Prop} (libs : Libs) {root : Path} {origin : BlobOrigin} {scan : Scan}
    (hreads : ∀ r, (Req.fs r).inspects → P (.fs r))
    (hrecord : ∀ scan dirs name parsed size modified, I scan → BlobName.parse name = some parsed →
      I (scan.record origin parsed.hash (scannedMetadata libs origin (root ++ dirs ++ [name]) name parsed size modified))) (hI : I scan) :
    (scanBlobRoot libs root origin scan).run.Within P fun x => ∀ scan, x = .ok scan → I scan := by
  have hread : ∀ r, (Req.fs r).inspects → (fs r).Uses P := fun r hr => uses_request (hreads r hr)
  have hentries : ∀ dirs names directories scan, (∀ d ∈ directories, root <+: d) → I scan →
      (scanEntries libs origin (root ++ dirs) names directories scan).run.Within P fun x =>
        ∀ y, x = .ok y → (∀ d ∈ y.1, root <+: d) ∧ I y.2 := by
    intro dirs names
    induction names with
    | nil =>
      intro directories scan hd hI
      refine Task.Within.run_bind (uses_orErr (hread _ trivial)) (fun _ _ _ => nofun) fun _ _ y h => ?_
      cases h
      exact ⟨hd, hI⟩
    | cons name names ih =>
      intro directories scan hd hI
      refine Task.Within.run_bind (uses_orErr (hread _ trivial)) (fun _ _ _ => nofun) fun _ _ => ?_
      refine Task.Within.run_bind (uses_orErr (hread _ trivial)) (fun _ _ _ => nofun) fun fileType _ => ?_
      cases fileType with
      | dir =>
        refine ih _ _ (List.forall_mem_cons.2 ⟨?_, hd⟩) hI
        rw [List.append_assoc]
        exact List.prefix_append ..
      | other => exact ih _ _ hd hI
      | file =>
        simp only
        split
        · exact ih _ _ hd hI
        · rename_i parsed hparsed
          refine Task.Within.run_bind (uses_orErr (hread _ trivial)) (fun _ _ _ => nofun) fun x _ => ?_
          exact ih _ _ hd (hrecord _ _ _ _ _ _ hI hparsed)
  have hdirs : ∀ fuel directories scan, (∀ d ∈ directories, root <+: d) → I scan →
      (scanDirs libs origin fuel directories scan).run.Within P fun x => ∀ scan, x = .ok scan → I scan := by
    intro fuel
    induction fuel with
    | zero =>
      intro directories scan _ hI
      cases directories with
      | nil =>
        intro scan h
        cases h
        exact hI
      | cons d directories => exact fun _ => nofun
    | succ fuel ih =>
      intro directories scan hd hI
      cases directories with
      | nil =>
        intro scan h
        cases h
        exact hI
      | cons d directories =>
        obtain ⟨⟨dirs, rfl⟩, hrest⟩ := List.forall_mem_cons.1 hd
        refine Task.Within.run_bind (uses_orErr (hread _ trivial)) (fun _ _ _ => nofun) fun names _ => ?_
        refine Task.Within.run_bind (hentries dirs names directories scan hrest hI) (fun _ _ _ => nofun) fun y hy => ?_
        exact ih _ _ (hy y rfl).1 (hy y rfl).2
  refine Task.Within.run_bind (R := fun _ => True) (Task.Within.lift (hread _ trivial)) (fun _ _ _ => nofun) fun fuel _ => ?_
  refine hdirs fuel _ _ (fun d hd => ?_) hI
  exact (List.mem_singleton.1 hd).symm ▸ List.prefix_refl root

/-- Scanning a blob root works on files. -/
theorem scanBlobRoot_physical (libs : Libs) (root : Path) (origin : BlobOrigin) (scan : Scan) :
    (scanBlobRoot libs root origin scan).run.Uses Req.Physical :=
  (scanBlobRoot_within (P := Req.Physical) (I := fun _ => True) libs (fun _ => physical_of_inspects)
    (fun _ _ _ _ _ _ _ _ => trivial) trivial).uses

/-- The requests of removing duplicates. -/
theorem removeDuplicates_uses {P : Req → Prop} {duplicates : List FileMetadata}
    (hremoves : ∀ m ∈ duplicates, ∀ p, m.location = .localFile p → P (.fs (.removeFile p))) : (removeDuplicates duplicates).Uses P := by
  induction duplicates with
  | nil => exact trivial
  | cons duplicate duplicates ih =>
    obtain ⟨hfirst, hrest⟩ := List.forall_mem_cons.1 hremoves
    unfold removeDuplicates
    cases hl : duplicate.location with
    | localFile path => exact Task.Uses.bind (uses_request (hfirst path hl)) fun _ => ih hrest
    | s3 key => exact ih hrest

/-- Removing duplicates works on files. -/
theorem removeDuplicates_physical (duplicates : List FileMetadata) : (removeDuplicates duplicates).Uses Req.Physical :=
  removeDuplicates_uses fun _ _ _ _ => trivial

/-- Rebuilding the index is maintenance. -/
theorem buildFileIndex_maintains (libs : Libs) (layout : StorageLayout) : (buildFileIndex libs layout).run.Uses (Req.Maintains layout) := by
  refine Task.Uses.run_bind (maintains_of_physical (scanBlobRoot_physical ..)) fun cached => ?_
  refine Task.Uses.run_bind (maintains_of_physical (scanBlobRoot_physical ..)) fun scan => ?_
  exact Task.Uses.lift_bind (uses_request trivial) fun _ => Task.Within.lift (maintains_of_physical (removeDuplicates_physical _))

/-- Booting is maintenance. -/
theorem buildState_maintains (cfg : Config) : (buildState cfg).run.Uses (Req.Maintains cfg.storage) := by
  refine Task.Uses.run_bind (maintains_of_physical (createDirs_physical _)) fun _ => ?_
  refine Task.Uses.run_bind (uses_attempt (maintains_of_physical (clearTempDirectory_physical _))) fun _ => ?_
  refine Task.Uses.run_bind (migrateLegacyBlobs_uses (fun _ h => (physical_of_inspects h).evicts.maintains) (fun _ => trivial)
    fun _ _ _ hq => ⟨trivial, .inl hq⟩) fun _ => ?_
  refine Task.Uses.run_bind (buildFileIndex_maintains _ _) fun _ => ?_
  simp only
  split
  · exact Task.Uses.run_bind (uses_attempt (NativeStorage.syncIndex_maintains _)) fun _ => Task.Within.lift (uses_request trivial)
  · exact Task.Within.lift (uses_request trivial)

/-- The requests of removing empty directories. -/
theorem cleanupEmptyDirs_uses {P : Req → Prop} (hreads : ∀ r, (Req.fs r).inspects → P (.fs r)) (hremoves : ∀ p, P (.fs (.removeDir p)))
    (root : Path) : (cleanupEmptyDirs root).Uses P := by
  have hread : ∀ r, (Req.fs r).inspects → (fs r).Uses P := fun r hr => uses_request (hreads r hr)
  have hentries : ∀ directory names directories, (emptyDirEntries directory names directories).Uses P := by
    intro directory names
    induction names with
    | nil => exact fun _ => Task.Uses.bind (hread _ trivial) fun _ => trivial
    | cons name names ih =>
      intro directories
      refine Task.Uses.bind (hread _ trivial) fun entry => ?_
      cases entry with
      | error error => exact trivial
      | ok _ =>
        refine Task.Uses.bind (hread _ trivial) fun fileType => ?_
        rcases fileType with _ | _ | _ | _ <;> exact ih _
  have hdirs : ∀ fuel directories found, (emptyDirs root fuel directories found).Uses P := by
    intro fuel
    induction fuel with
    | zero => intro directories found; cases directories <;> exact trivial
    | succ fuel ih =>
      intro directories found
      cases directories with
      | nil => exact trivial
      | cons d directories =>
        refine Task.Uses.bind (hread _ trivial) fun names => ?_
        cases names with
        | error error => exact ih _ _
        | ok names => exact Task.Uses.bind (hentries _ names _) fun _ => ih _ _
  have hremove : ∀ directories, (removeDirs directories).Uses P := by
    intro directories
    induction directories with
    | nil => exact trivial
    | cons d directories ih => exact Task.Uses.bind (uses_request (hremoves _)) fun _ => ih
  exact Task.Uses.bind (hread _ trivial) fun fuel => Task.Uses.bind (hdirs _ _ _) fun found => hremove _

/-- Removing empty directories works on files. -/
theorem cleanupEmptyDirs_physical (root : Path) : (cleanupEmptyDirs root).Uses Req.Physical :=
  cleanupEmptyDirs_uses (fun _ => physical_of_inspects) (fun _ => trivial) root

/-- Removing empty directories is a part of an eviction. -/
theorem cleanupEmptyDirs_evicts (root : Path) : (cleanupEmptyDirs root).Uses Req.Evicts :=
  (cleanupEmptyDirs_physical root).mono (fun _ => Req.Physical.evicts) fun _ => id

/-- The requests of the eviction of a candidate. -/
theorem deleteCleanupCandidate_issues {P : Req → Prop} (cfg : Config) (sha256 : Str) (m : FileMetadata)
    (hP : ∀ r, r.Physical → P r) (hget : P (.index (.get sha256)))
    (hremove : ∀ location, P (.index (.removeIfLocationMatches sha256 location))) :
    (deleteCleanupCandidate cfg sha256 m).run.Issues P := by
  refine Task.Issues.run_bind ?_ fun removed => ?_
  · have hlocked := (FileStorage.removeLocked_uses cfg sha256 .evicted (some m) hP nofun hget hremove).issues_withLock (l := sha256)
    exact Task.Issues.bind hlocked fun _ => rfl
  · cases removed <;> exact rfl

/-- The requests of the eviction of what has expired. -/
theorem evictExpired_issues {P : Req → Prop} (cfg : Config) (now : Nat) (entries : List (Str × FileMetadata))
    (hP : ∀ r, r.Physical → P r) (hget : ∀ sha256, P (.index (.get sha256)))
    (hremove : ∀ sha256 location, P (.index (.removeIfLocationMatches sha256 location))) :
    (evictExpired cfg now entries).run.Issues P := by
  induction entries with
  | nil => exact rfl
  | cons e entries ih =>
    unfold evictExpired
    split
    · exact Task.Issues.run_bind (deleteCleanupCandidate_issues cfg e.1 e.2 hP (hget e.1) (hremove e.1)) fun _ => ih
    · exact ih

/-- The requests of the eviction under capacity pressure. -/
theorem evictCapacity_evicts (cfg : Config) (entries : List (Str × FileMetadata)) (totalSize totalFiles : Nat) :
    (evictCapacity cfg entries totalSize totalFiles).run.Issues Req.Evicts := by
  have hP : ∀ r : Req, r.Physical → r.Evicts := fun _ => Req.Physical.evicts
  induction entries generalizing totalSize totalFiles with
  | nil => exact rfl
  | cons e entries ih =>
    simp only [evictCapacity]
    split
    · exact rfl
    · refine Task.Issues.run_bind (deleteCleanupCandidate_issues cfg e.1 e.2 hP trivial fun _ => trivial) fun removed => ?_
      cases removed <;> exact ih _ _

/-- The requests of the eviction of what has expired evict. -/
theorem evictExpired_evicts (cfg : Config) (now : Nat) (entries : List (Str × FileMetadata)) :
    (evictExpired cfg now entries).run.Issues Req.Evicts :=
  evictExpired_issues cfg now entries (fun _ => Req.Physical.evicts) (fun _ => trivial) fun _ _ => trivial

/-- Enforcing the limits works on the queue of superseded copies, and evicts. -/
theorem enforceStorageLimits_issues {P : Req → Prop} (cfg : Config) (hevicts : ∀ r, r.Evicts → P r) (htake : P .takeSuperseded)
    (hextend : ∀ copies, P (.extendSuperseded copies)) : (enforceStorageLimits cfg).run.Issues P := by
  have hphysical : ∀ r : Req, r.Physical → P r := fun r h => hevicts r h.evicts
  refine ⟨hevicts .systemTime trivial, fun now _ => ?_⟩
  refine Task.Issues.run_bind (FileStorage.reconcileSupersededBlobs_issues cfg hphysical htake hextend) fun _ => ?_
  refine ⟨hevicts (.index .snapshot) trivial, fun entries _ => ?_⟩
  refine Task.Issues.run_bind ((evictExpired_evicts cfg _ entries).mono hevicts) fun _ => ?_
  refine ⟨hevicts (.index .snapshot) trivial, fun remaining _ => ?_⟩
  refine Task.Issues.run_bind ((evictCapacity_evicts cfg ..).mono hevicts) fun _ => ?_
  refine Task.Issues.lift_bind ((cleanupEmptyDirs_evicts _).issues hevicts) fun _ => ?_
  exact Task.Obeys.lift ((cleanupEmptyDirs_evicts _).issues hevicts)

/-- Enforcing the limits is maintenance. -/
theorem enforceStorageLimits_maintains (cfg : Config) : (enforceStorageLimits cfg).run.Issues (Req.Maintains cfg.storage) :=
  enforceStorageLimits_issues cfg (fun _ => Req.Evicts.maintains) trivial fun _ => trivial

end Startup

/-- Whether an operation maintains the store. -/
def Op.maintains : Op → Bool
  | .boot | .remove _ _ _ | .syncIndex | .enforceStorageLimits => true
  | _ => false

/-- Every other operation receives something, serves it, or cleans up chunks. -/
theorem Op.cases_of_not_maintains {op : Op} (h : op.maintains = false) :
    op.isGet = true ∨ op.isUpload = true ∨ op = .cleanupAbandonedChunks := by
  cases op <;> simp_all [Op.maintains, Op.isGet, Op.isUpload]

/-- The programs that maintain the store. -/
theorem program_maintains {cfg : Config} {op : Op} (h : op.maintains = true) : (program cfg op).Issues (Req.Maintains cfg.storage) := by
  cases op with
  | boot => exact Task.Issues.bind ((Startup.buildState_maintains cfg).issues fun _ => id) fun _ => rfl
  | remove sha256 removal expected =>
    exact Task.Issues.bind (FileStorage.removeIndexedBlob_maintains cfg sha256 removal expected) fun _ => rfl
  | syncIndex => exact Task.Issues.bind ((NativeStorage.syncIndex_maintains cfg.libs).issues fun _ => id) fun _ => rfl
  | enforceStorageLimits => exact Task.Issues.bind (Startup.enforceStorageLimits_maintains cfg) fun _ => rfl
  | _ => nomatch h

end Almond
