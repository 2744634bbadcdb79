import Almond.Lemmas.MigrationAux
import Almond.Theorems.Startup

/-! # Migrations resume without loss -/

namespace Almond

open Conc Startup

namespace Migration

variable {cfg : Config} {layout : StorageLayout} {root dir p : Path} {name : Str} {d₀ d d' : Disk} {E : VolumeEnv → Prop}
  {s₀ : AppState}

/-! ## What two moments of a migration have in common -/

/-- A file that is there at one moment has a copy at any other. -/
theorem Migrated.copied (h : Migrated layout d₀ d) (h' : Migrated layout d₀ d') (hlayout : layout = .new root) {file : Node}
    (hf : d.file? p = some file) : Copied layout d' p file.data := by
  obtain ⟨ino, hl, rfl⟩ := Disk.file?_eq_some.1 hf
  have hcopy : ∀ {q ino'}, (q = p ∨ Counterparts layout p q) → d'.names.lookup q = some ino' →
      (d₀.nodes ino').data = (d₀.nodes ino).data → Copied layout d' p (d.nodes ino).data := by
    intro q ino' hq hl' hdata
    rw [h.nodes, ← hdata, ← h'.nodes]
    exact ⟨q, _, hq, Disk.file?_eq_some.2 ⟨ino', hl', rfl⟩, rfl⟩
  by_cases hsource : ∃ dir name, Legacy layout dir ∧ p = dir ++ [name]
  · obtain ⟨dir, name, hdir, rfl⟩ := hsource
    have hl₀ := (h.lookup_source hdir hl).1.symm.trans hl
    rcases h'.files dir name hdir with ⟨hs, _⟩ | ⟨_, i, i', hi, ht, hdata, _⟩
    · exact hcopy (.inl rfl) (hs.trans hl₀) rfl
    · obtain rfl := Option.some.inj (hl₀.symm.trans hi)
      exact hcopy (.inr ⟨dir, name, hdir, .inl ⟨rfl, hdir.destination_append [name]⟩⟩) ht hdata
  by_cases htarget : ∃ dir name, Legacy layout dir ∧ p = destination layout (dir ++ [name])
  · obtain ⟨dir, name, hdir, rfl⟩ := htarget
    rcases h.files dir name hdir with ⟨_, ht⟩ | ⟨_, i, i', hi, ht, hdata, heq⟩
    · exact hcopy (.inl rfl) (h'.lookup_upload hlayout (prefix_destination ..) (ht.symm.trans hl)) rfl
    · obtain rfl := Option.some.inj (ht.symm.trans hl)
      rcases h'.files dir name hdir with ⟨hs', _⟩ | ⟨_, j, j', hj, ht', hdata', heq'⟩
      · refine hcopy (.inr ⟨dir, name, hdir, .inr ⟨?_, rfl⟩⟩) (hs'.trans hi) hdata.symm
        exact hdir.destination_append [name]
      · obtain rfl := Option.some.inj (hi.symm.trans hj)
        exact hcopy (.inl rfl) ht' (hdata'.trans hdata.symm)
  · have hother := fun dir name hdir => (⟨fun he => hsource ⟨dir, name, hdir, he⟩, fun he => htarget ⟨dir, name, hdir, he⟩⟩ :
      p ≠ dir ++ [name] ∧ p ≠ destination layout (dir ++ [name]))
    exact hcopy (.inl rfl) ((h'.other p hother).trans ((h.other p hother).symm.trans hl)) rfl

/-- What is at the destination of a legacy file in the end. -/
theorem Migrated.lookup_of_finished (h : Migrated layout d₀ d) (htree : d₀.Tree) (hf : Finished layout d₀ d)
    (hdir : Legacy layout dir) : d.names.lookup (destination layout (dir ++ [name])) =
      (d₀.names.lookup (destination layout (dir ++ [name]))).or (d₀.names.lookup (dir ++ [name])) := by
  cases hl : d₀.names.lookup (dir ++ [name]) with
  | none =>
    rcases h.files dir name hdir with ⟨_, ht⟩ | ⟨_, ino, _, hl', _⟩
    · rw [ht, Option.or_none]
    · nomatch hl.symm.trans hl'
  | some ino =>
    obtain ⟨_, i, i', hi, ht, _, rfl⟩ := h.moved_of_finished htree hf hdir hl
    obtain rfl := Option.some.inj (hl.symm.trans hi)
    rw [ht]
    cases d₀.names.lookup (destination layout (dir ++ [name])) <;> rfl

/-- The directories in the end. -/
theorem Migrated.mem_dirs_of_finished (h : Migrated layout d₀ d) (hf : Finished layout d₀ d) :
    p ∈ d.dirs ↔ p ∈ d₀.dirs ∨ ∃ q ∈ d₀.dirs, Legacy layout q ∧ p = destination layout q := by
  refine ⟨h.made p, ?_⟩
  rintro (hp | ⟨q, hq, hlegacy, rfl⟩)
  · exact h.kept p hp
  · exact (hf q hq hlegacy).made

/-- Finished migrations of one disk agree on the uploads. -/
theorem Migrated.sameUploads (h : Migrated layout d₀ d) (h' : Migrated layout d₀ d') (hlayout : layout = .new root)
    (htree : d₀.Tree) (hf : Finished layout d₀ d) (hf' : Finished layout d₀ d') : SameUploads layout d d' := by
  intro p hp
  refine ⟨?_, (h.mem_dirs_of_finished hf).trans (h'.mem_dirs_of_finished hf').symm⟩
  have hlookup : d.names.lookup p = d'.names.lookup p := by
    by_cases hd : ∃ dir name, Legacy layout dir ∧ p = destination layout (dir ++ [name])
    · obtain ⟨dir, name, hdir, rfl⟩ := hd
      rw [h.lookup_of_finished htree hf hdir, h'.lookup_of_finished htree hf' hdir]
    · have hother : ∀ dir name, Legacy layout dir → p ≠ dir ++ [name] ∧ p ≠ destination layout (dir ++ [name]) := by
        refine fun dir name hdir => ⟨?_, fun he => hd ⟨dir, name, hdir, he⟩⟩
        rintro rfl
        exact (hdir.append [name]).not_among_uploads hlayout hp
      rw [h.other p hother, h'.other p hother]
  rw [Disk.file?, Disk.file?, hlookup, h.nodes, h'.nodes]

/-- A finished migration has every file of both trees. -/
theorem Migrated.contains (h : Migrated layout d₀ d) (hlayout : layout = .new root) (htree : d₀.Tree) (hf : Finished layout d₀ d) :
    Contains layout d₀ d where
  legacy dir name file hdir hfile := by
    obtain ⟨ino, hl, rfl⟩ := Disk.file?_eq_some.1 hfile
    rw [← hdir.destination_append]
    obtain ⟨_, i, i', hi, ht, hdata, _⟩ := h.moved_of_finished htree hf hdir hl
    obtain rfl := Option.some.inj (hl.symm.trans hi)
    exact ⟨_, Disk.file?_eq_some.2 ⟨i', ht, by rw [h.nodes]⟩, hdata⟩
  uploads p file hp hfile := by
    obtain ⟨ino, hl, rfl⟩ := Disk.file?_eq_some.1 hfile
    exact Disk.file?_eq_some.2 ⟨ino, h.lookup_upload hlayout hp hl, by rw [h.nodes]⟩

/-! ## Any number of interrupted migrations -/

/-- Migrations resume without loss when no directory among the uploads passes for a legacy file of its relative path. -/
theorem migration_resumes (hlayout : layout = .new root) (htree : s₀.disk.Tree) (huploads : layout.uploads ∈ s₀.disk.dirs)
    (haddressed : Addressed layout s₀.disk) (hapart : ∀ e, E e → Apart layout s₀.disk e) : Resumes cfg layout E s₀ := by
  have hup : ∀ s : AppState, Migrated layout s₀.disk s.disk → (program layout).Upholds (Volume.exec cfg 0) E
      (fun s' => Migrated layout s₀.disk s'.disk)
      (fun x s' => Merges layout s₀.disk E (fun _ => Finished layout s₀.disk s'.disk) x) s :=
    fun s hI => migrateLegacyBlobs_upholds cfg 0 hlayout htree huploads haddressed hapart hI
  have hstart := Migrated.refl layout htree
  have hrestarts : ∀ {s}, Task.Restarts (Volume.exec cfg 0) E (program layout) s₀ s → Migrated layout s₀.disk s.disk :=
    fun h => Task.Upholds.restarts (I := fun s' => Migrated layout s₀.disk s'.disk) hup hstart h
  have hends : ∀ {s s' : AppState}, Migrated layout s₀.disk s.disk →
      Task.Begins (Volume.exec cfg 0) E (program layout, s) (.ret (.ok ()), s') →
      Migrated layout s₀.disk s'.disk ∧ Finished layout s₀.disk s'.disk := by
    intro s s' hI hrun
    obtain ⟨hI', ⟨_, _, hf⟩ | ⟨⟨_, he⟩, _⟩⟩ := (hup s hI).begins hrun
    · exact ⟨hI', hf⟩
    · nomatch he
  refine ⟨fun s q q' s₁ s₂ hs hq hstep p file hfile => ?_, fun s s' hs hrun => ?_, fun s s' s'' hs hrun hrun' => ?_,
    fun s s' env hs hrun henv => ?_⟩
  · have h₁ := (hup s (hrestarts hs)).begins hq
    exact h₁.holds.copied (h₁.advances hstep).holds hlayout hfile
  · obtain ⟨hI', hf⟩ := hends (hrestarts hs) hrun
    exact hI'.contains hlayout htree hf
  · obtain ⟨hI', hf⟩ := hends (hrestarts hs) hrun
    obtain ⟨hI'', hf'⟩ := hends hstart hrun'
    exact hI'.sameUploads hI'' hlayout htree hf hf'
  · obtain ⟨hI', hf⟩ := hends (hrestarts hs) hrun
    have hcalm := migrateLegacyBlobs_upholds (E := fun e => ∃ n, e = env n) cfg 0 hlayout htree huploads haddressed
      (fun e ⟨n, he⟩ => he ▸ hapart _ (henv n).1) hstart
    rcases hcalm.yields.alone (fun n => ⟨n, rfl⟩) 0 with ⟨_, hok, _⟩ | ⟨_, ⟨_, ⟨n, rfl⟩, hfault⟩ | hconflict⟩
    · exact hok
    · exact absurd (henv n).2 hfault
    · exact absurd hconflict (hI'.not_conflict hlayout htree hf)

end Migration

namespace Sample

open Migration

/-- A file in a legacy tree. -/
def legacyFile : Path := config.storage.root ++ ["a".toList, hash]

/-- Its place among the uploads. -/
def legacyPlace : Path := config.storage.uploads ++ ["a".toList, hash]

/-- A server that starts with the file in a legacy tree, and some directories among the uploads. -/
def legacyWith (dirs : List Path) : AppState :=
  { started with disk :=
    { holding [legacyFile] (List.replicate 60 0) with dirs := disk.dirs ++ (config.storage.root ++ ["a".toList]) :: dirs } }

/-- A volume that reports 60 bytes of every directory. -/
def tmpfs : VolumeEnv where
  env := calm
  enumeration := .asListed
  dirMetadata _ := (60, 0)

section

variable {p : Path} {dirs : List Path}

/-- The only file of the disk. -/
theorem hasFile_legacyWith : (legacyWith dirs).disk.hasFile p = true ↔ p = legacyFile := by
  show (holding [legacyFile] (List.replicate 60 0)).hasFile p = true ↔ p = legacyFile
  rw [hasFile_holding, List.mem_singleton]

/-- The disk is a tree. -/
theorem tree_legacyWith (hnodup : (legacyWith dirs).disk.dirs.Nodup) (hfile : legacyFile ∉ (legacyWith dirs).disk.dirs)
    (hparent : ∀ p ∈ (legacyWith dirs).disk.dirs, p.dropLast ∈ (legacyWith dirs).disk.dirs) : (legacyWith dirs).disk.Tree where
  nodup := hnodup
  apart p hp := Bool.eq_false_iff.2 fun hf => hfile (hasFile_legacyWith.1 hf ▸ hp)
  parent p _ hp := by
    rcases hp with hf | hd
    · rw [hasFile_legacyWith.1 hf]
      exact List.mem_append_right _ List.mem_cons_self
    · exact hparent p hd

/-- All files of the disk have the same contents. -/
theorem addressed_legacyWith : Addressed config.storage (legacyWith dirs).disk := by
  intro dir name file file' _ hf hf' _
  exact (file?_holding hf).trans (file?_holding hf').symm

end

end Sample

namespace Migration

open Sample in
/-- A migration resumes when nothing is in the place of the file. -/
theorem migration_resumes_legacy : Resumes config config.storage (fun _ => True) (legacyWith []) := by
  have htree : (legacyWith []).disk.Tree := tree_legacyWith (by decide) (by decide) (by decide)
  have hlayout : config.storage = .new config.storage.root := rfl
  refine migration_resumes hlayout htree (by decide) addressed_legacyWith ?_
  intro e _ dir name file hdir hf hd
  have hplace : legacyPlace ∉ (legacyWith []).disk.dirs := by decide
  rw [← hdir.destination_append, hasFile_legacyWith.1 (Disk.hasFile_of_file? hf)] at hd
  exact absurd hd hplace

open Sample in
/-- A directory that is reported to be as long as the file passes for its duplicate: the migration removes the last copy, and
succeeds. -/
theorem migration_resumes_false :
    (legacyWith [config.storage.uploads ++ ["a".toList], legacyPlace]).disk.Tree ∧
      config.storage.uploads ∈ (legacyWith [config.storage.uploads ++ ["a".toList], legacyPlace]).disk.dirs ∧
      Addressed config.storage (legacyWith [config.storage.uploads ++ ["a".toList], legacyPlace]).disk ∧
      ¬ Resumes config config.storage (fun _ => True) (legacyWith [config.storage.uploads ++ ["a".toList], legacyPlace]) := by
  refine ⟨tree_legacyWith (by decide) (by decide) (by decide), by decide, addressed_legacyWith,
    fun h => ?_⟩
  generalize hmigrated : (program config.storage).alone (Volume.exec config 0) (fun _ => tmpfs) 0
    (legacyWith [config.storage.uploads ++ ["a".toList], legacyPlace]) = migrated
  have hok : migrated.1 = .ok () := by
    rw [← hmigrated]
    decide
  have hgone : migrated.2.2.disk.hasFile legacyPlace = false := by
    rw [← hmigrated]
    decide
  have hrun : Task.Begins (Volume.exec config 0) (fun _ => True)
      (program config.storage, legacyWith [config.storage.uploads ++ ["a".toList], legacyPlace]) (.ret (.ok ()), migrated.2.2) := by
    rw [← hok, ← hmigrated]
    exact Task.begins_alone (fun _ => trivial) (program config.storage) 0 _
  obtain ⟨file, hfile, _⟩ := (h.contains _ _ .refl hrun).legacy (config.storage.root ++ ["a".toList]) hash ⟨List.replicate 60 0, 0⟩
    ⟨_, [], by decide, rfl⟩ (by decide)
  exact nomatch hgone.symm.trans (Disk.hasFile_of_file? hfile)

end Migration

end Almond
