import Almond.Lemmas.ScanAux
import Almond.Lemmas.TreesAux
import Almond.Migration

/-! # What a migration has done so far

At any moment each file of a legacy tree is where it was, or its destination has its contents; nothing else has changed but for new
directories. A migration that ends without an error has emptied the legacy trees. -/

namespace Almond

open Conc Startup Walks

namespace Disk

variable {d : Disk} {p q : Path}

/-- A directory has no file's name. -/
theorem Tree.lookup_eq_none (h : d.Tree) (hp : p ∈ d.dirs) : d.names.lookup p = none := by
  simpa [hasFile] using h.apart p hp

/-- A file and its inode. -/
theorem file?_eq_some {file : Node} : d.file? p = some file ↔ ∃ ino, d.names.lookup p = some ino ∧ d.nodes ino = file :=
  Option.map_eq_some_iff

/-- What has contents is a file. -/
theorem hasFile_of_file? {file : Node} (h : d.file? p = some file) : d.hasFile p = true := by
  obtain ⟨ino, hl, _⟩ := file?_eq_some.1 h
  rw [hasFile, hl]
  rfl

end Disk

namespace Migration

variable {layout : StorageLayout} {root dir p q : Path} {name : Str} {d₀ d d' d'' : Disk} {ino : Ino}

/-! ## Paths -/

/-- What is below a directory of a legacy tree. -/
theorem Legacy.append (h : Legacy layout dir) (rest : Path) : Legacy layout (dir ++ rest) := by
  obtain ⟨name, inner, hname, rfl⟩ := h
  exact ⟨name, inner ++ rest, hname, by simp⟩

/-- The directory at the top of a legacy tree. -/
theorem Legacy.top (layout : StorageLayout) (h : isLegacyName name = true) : Legacy layout (layout.root ++ [name]) :=
  ⟨name, [], h, rfl⟩

/-- The destination of what is below a directory. -/
theorem Legacy.destination_append (h : Legacy layout dir) (rest : Path) :
    destination layout (dir ++ rest) = destination layout dir ++ rest := by
  obtain ⟨name, inner, _, rfl⟩ := h
  simp [destination, List.append_assoc]

/-- The destination of a legacy path. -/
theorem destination_root_append (rest : Path) : destination layout (layout.root ++ rest) = layout.uploads ++ rest := by
  simp [destination]

/-- Different legacy paths have different destinations. -/
theorem Legacy.eq_of_destination (h : Legacy layout p) (h' : Legacy layout q)
    (heq : destination layout p = destination layout q) : p = q := by
  obtain ⟨name, rest, _, rfl⟩ := h
  obtain ⟨name', rest', _, rfl⟩ := h'
  rw [destination_root_append, destination_root_append] at heq
  rw [List.append_cancel_left heq]

/-- A destination is among the uploads. -/
theorem prefix_destination (layout : StorageLayout) (p : Path) : layout.uploads <+: destination layout p :=
  List.prefix_append ..

/-- A legacy path is not among the uploads. -/
theorem Legacy.not_among_uploads (hlayout : layout = .new root) (h : Legacy layout p) : ¬ layout.uploads <+: p := by
  obtain ⟨name, rest, hname, rfl⟩ := h
  subst hlayout
  intro hp
  have hp' : ["uploads".toList] <+: name :: rest := (List.prefix_append_right_inj root).1 hp
  obtain ⟨heq, _⟩ := List.cons_prefix_cons.1 hp'
  subst heq
  revert hname
  decide

/-- A legacy path is nobody's destination. -/
theorem Legacy.ne_destination (hlayout : layout = .new root) (h : Legacy layout p) (q : Path) : p ≠ destination layout q := by
  rintro rfl
  exact h.not_among_uploads hlayout (prefix_destination layout q)

/-! ## The invariant -/

/-- A file of a legacy tree is where it was, and so is what is at its destination. -/
def Stays (layout : StorageLayout) (d₀ d : Disk) (p : Path) : Prop :=
  d.names.lookup p = d₀.names.lookup p ∧ d.names.lookup (destination layout p) = d₀.names.lookup (destination layout p)

/-- A file of a legacy tree has gone to its destination, unless the same contents were there. -/
def Moved (layout : StorageLayout) (d₀ d : Disk) (p : Path) : Prop :=
  d.names.lookup p = none ∧ ∃ ino ino', d₀.names.lookup p = some ino ∧ d.names.lookup (destination layout p) = some ino' ∧
    (d₀.nodes ino').data = (d₀.nodes ino).data ∧ ino' = (d₀.names.lookup (destination layout p)).getD ino

/-- What a migration has done to a disk so far. -/
structure Migrated (layout : StorageLayout) (d₀ d : Disk) : Prop where
  tree : d.Tree
  nodes : d.nodes = d₀.nodes
  files : ∀ dir name, Legacy layout dir → Stays layout d₀ d (dir ++ [name]) ∨ Moved layout d₀ d (dir ++ [name])
  other : ∀ p, (∀ dir name, Legacy layout dir → p ≠ dir ++ [name] ∧ p ≠ destination layout (dir ++ [name])) →
    d.names.lookup p = d₀.names.lookup p
  kept : ∀ p ∈ d₀.dirs, p ∈ d.dirs
  /-- A new directory stands for one of a legacy tree. -/
  made : ∀ p ∈ d.dirs, p ∈ d₀.dirs ∨ ∃ q ∈ d₀.dirs, Legacy layout q ∧ p = destination layout q

/-- What is gone stays gone, and a directory stays. -/
structure Forward (layout : StorageLayout) (d d' : Disk) : Prop where
  gone : ∀ p, Legacy layout p → d.names.lookup p = none → d'.names.lookup p = none
  dirs : ∀ p ∈ d.dirs, p ∈ d'.dirs

/-- The legacy tree cannot be merged with the uploads. -/
inductive Conflict (layout : StorageLayout) (d₀ : Disk) : Prop
  /-- A directory has the place of a file. -/
  | dir {dir : Path} {name : Str} (hdir : Legacy layout dir) (hsource : d₀.hasFile (dir ++ [name]) = true)
    (htarget : destination layout (dir ++ [name]) ∈ d₀.dirs)
  /-- A file has the place of a directory. -/
  | file {dir : Path} (hdir : Legacy layout dir) (hsource : dir ∈ d₀.dirs) (htarget : d₀.hasFile (destination layout dir) = true)
  /-- Two files differ in their size. -/
  | size {dir : Path} {name : Str} {file file' : Node} (hdir : Legacy layout dir) (hsource : d₀.file? (dir ++ [name]) = some file)
    (htarget : d₀.file? (destination layout (dir ++ [name])) = some file') (hsize : file.data.length ≠ file'.data.length)

/-- A directory of a legacy tree has no more files, and its destination is a directory. -/
structure Emptied (layout : StorageLayout) (d : Disk) (dir : Path) : Prop where
  gone : ∀ name, d.names.lookup (dir ++ [name]) = none
  made : destination layout dir ∈ d.dirs

/-- Nothing is left to migrate. -/
def Finished (layout : StorageLayout) (d₀ d : Disk) : Prop :=
  ∀ dir ∈ d₀.dirs, Legacy layout dir → Emptied layout d dir

namespace Forward

/-- Nothing happens. -/
theorem refl (layout : StorageLayout) (d : Disk) : Forward layout d d :=
  ⟨fun _ _ h => h, fun _ h => h⟩

/-- One thing after another. -/
theorem trans (h : Forward layout d d') (h' : Forward layout d' d'') : Forward layout d d'' :=
  ⟨fun p hp hl => h'.gone p hp (h.gone p hp hl), fun p hp => h'.dirs p (h.dirs p hp)⟩

/-- A directory stays empty. -/
theorem emptied (h : Forward layout d d') (hdir : Legacy layout dir) (he : Emptied layout d dir) : Emptied layout d' dir :=
  ⟨fun name => h.gone _ (hdir.append [name]) (he.gone name), h.dirs _ he.made⟩

end Forward

namespace Migrated

/-- Nothing has been done. -/
theorem refl (layout : StorageLayout) (h : d.Tree) : Migrated layout d d :=
  ⟨h, rfl, fun _ _ _ => .inl ⟨rfl, rfl⟩, fun _ _ => rfl, fun _ hp => hp, fun _ hp => .inl hp⟩

/-- The directories of the legacy trees are those that were there. -/
theorem mem_dirs_iff (h : Migrated layout d₀ d) (hlayout : layout = .new root) (hp : Legacy layout p) : p ∈ d.dirs ↔ p ∈ d₀.dirs := by
  refine ⟨fun hd => (h.made p hd).resolve_right ?_, h.kept p⟩
  rintro ⟨q, _, _, rfl⟩
  exact hp.ne_destination hlayout q rfl

/-- A file of a legacy tree was there. -/
theorem lookup_source (h : Migrated layout d₀ d) (hdir : Legacy layout dir) (hl : d.names.lookup (dir ++ [name]) = some ino) :
    Stays layout d₀ d (dir ++ [name]) := by
  refine (h.files dir name hdir).resolve_right ?_
  rintro ⟨hnone, _⟩
  nomatch hnone.symm.trans hl

/-- A file that was among the uploads is there. -/
theorem lookup_upload (h : Migrated layout d₀ d) (hlayout : layout = .new root) (hp : layout.uploads <+: p)
    (hl : d₀.names.lookup p = some ino) : d.names.lookup p = some ino := by
  by_cases hd : ∃ dir name, Legacy layout dir ∧ p = destination layout (dir ++ [name])
  · obtain ⟨dir, name, hdir, rfl⟩ := hd
    rcases h.files dir name hdir with ⟨_, hs⟩ | ⟨_, _, _, _, ht, _, rfl⟩
    · exact hs.trans hl
    · rw [ht, hl, Option.getD_some]
  · refine (h.other p fun dir name hdir => ⟨?_, fun he => hd ⟨dir, name, hdir, he⟩⟩).trans hl
    rintro rfl
    exact (hdir.append [name]).not_among_uploads hlayout hp

/-- In the end every file of a legacy tree has moved. -/
theorem moved_of_finished (h : Migrated layout d₀ d) (htree : d₀.Tree) (hf : Finished layout d₀ d) (hdir : Legacy layout dir)
    (hl : d₀.names.lookup (dir ++ [name]) = some ino) : Moved layout d₀ d (dir ++ [name]) := by
  have hfile : d₀.hasFile (dir ++ [name]) = true := by rw [Disk.hasFile, hl]; rfl
  have hd : dir ∈ d₀.dirs := by
    have hparent := htree.parent (dir ++ [name]) (by simp) (.inl hfile)
    rwa [List.dropLast_concat] at hparent
  refine (h.files dir name hdir).resolve_left ?_
  rintro ⟨hs, _⟩
  rw [(hf dir hd hdir).gone name, hl] at hs
  cases hs

/-- A migration that is finished had no conflict. -/
theorem not_conflict (h : Migrated layout d₀ d) (hlayout : layout = .new root) (htree : d₀.Tree) (hf : Finished layout d₀ d) :
    ¬ Conflict layout d₀ := by
  intro hc
  cases hc with
  | @dir dir name hdir hsource htarget =>
    obtain ⟨ino, hl⟩ := Option.isSome_iff_exists.1 hsource
    obtain ⟨_, _, _, _, ht, _⟩ := h.moved_of_finished htree hf hdir hl
    rw [h.tree.lookup_eq_none (h.kept _ htarget)] at ht
    nomatch ht
  | @file dir hdir hsource htarget =>
    obtain ⟨ino, hl⟩ := Option.isSome_iff_exists.1 htarget
    have hd := h.lookup_upload hlayout (prefix_destination layout dir) hl
    rw [h.tree.lookup_eq_none (hf dir hsource hdir).made] at hd
    nomatch hd
  | @size dir name file file' hdir hsource htarget hsize =>
    obtain ⟨i, hl, rfl⟩ := Disk.file?_eq_some.1 hsource
    obtain ⟨i', hl', rfl⟩ := Disk.file?_eq_some.1 htarget
    obtain ⟨_, j, j', hj, _, hdata, rfl⟩ := h.moved_of_finished htree hf hdir hl
    obtain rfl := Option.some.inj (hl.symm.trans hj)
    rw [hl', Option.getD_some] at hdata
    exact hsize (congrArg List.length hdata.symm)

/-! ## What one operation does -/

/-- A file leaves its place in a legacy tree, and nothing else changes but for its destination. -/
theorem of_gone (h : Migrated layout d₀ d) (hlayout : layout = .new root) (hdir : Legacy layout dir) (htree : d'.Tree)
    (hnodes : d'.nodes = d.nodes) (hdirs : d'.dirs = d.dirs) (hmoved : Moved layout d₀ d' (dir ++ [name]))
    (hrest : ∀ q, q ≠ dir ++ [name] → q ≠ destination layout (dir ++ [name]) → d'.names.lookup q = d.names.lookup q) :
    Migrated layout d₀ d' where
  tree := htree
  nodes := hnodes.trans h.nodes
  files dir' name' hdir' := by
    by_cases heq : dir' ++ [name'] = dir ++ [name]
    · exact .inr (heq ▸ hmoved)
    · have hp := hdir.append [name]
      have hp' := hdir'.append [name']
      have hsource := hrest _ heq (hp'.ne_destination hlayout _)
      have htarget := hrest (destination layout (dir' ++ [name'])) (hp.ne_destination hlayout _).symm
        fun he => heq (hp'.eq_of_destination hp he)
      rcases h.files dir' name' hdir' with ⟨hs, ht⟩ | ⟨hs, i, i', hi, ht, hdata⟩
      · exact .inl ⟨hsource.trans hs, htarget.trans ht⟩
      · exact .inr ⟨hsource.trans hs, i, i', hi, htarget.trans ht, hdata⟩
  other p hp := (hrest p (hp dir name hdir).1 (hp dir name hdir).2).trans (h.other p hp)
  kept := hdirs ▸ h.kept
  made := hdirs ▸ h.made

/-- A file is moved to its destination. -/
theorem move (h : Migrated layout d₀ d) (hlayout : layout = .new root) (hdir : Legacy layout dir)
    (hl : d.names.lookup (dir ++ [name]) = some ino) (hnot : destination layout (dir ++ [name]) ∉ d.dirs)
    (hnone : d.names.lookup (destination layout (dir ++ [name])) = none)
    (hparent : d.parentExists (destination layout (dir ++ [name])) = true) :
    Migrated layout d₀ (d.move (dir ++ [name]) (destination layout (dir ++ [name])) ino) := by
  obtain ⟨hs, ht⟩ := h.lookup_source hdir hl
  have hne := (hdir.append [name]).ne_destination hlayout (dir ++ [name])
  refine h.of_gone hlayout hdir (h.tree.move hnot hparent ino) rfl rfl ⟨?_, ino, ino, hs.symm.trans hl, ?_, rfl, ?_⟩ ?_
  · rw [Disk.lookup_move, if_neg hne, if_pos rfl]
  · rw [Disk.lookup_move, if_pos rfl]
  · rw [← ht, hnone, Option.getD_none]
  · intro q hq hq'
    rw [Disk.lookup_move, if_neg hq', if_neg hq]

/-- A file whose contents are at its destination is removed. -/
theorem unlink (h : Migrated layout d₀ d) (hlayout : layout = .new root) (hdir : Legacy layout dir) {ino' : Ino}
    (hl : d.names.lookup (dir ++ [name]) = some ino) (hl' : d.names.lookup (destination layout (dir ++ [name])) = some ino')
    (hdata : (d₀.nodes ino').data = (d₀.nodes ino).data) : Migrated layout d₀ (d.unlink (dir ++ [name])) := by
  obtain ⟨hs, ht⟩ := h.lookup_source hdir hl
  have hne := (hdir.append [name]).ne_destination hlayout (dir ++ [name])
  refine h.of_gone hlayout hdir (h.tree.unlink _) rfl rfl ⟨?_, ino, ino', hs.symm.trans hl, ?_, hdata, ?_⟩ ?_
  · rw [Disk.lookup_unlink, if_pos rfl]
  · rw [Disk.lookup_unlink, if_neg hne.symm, hl']
  · rw [← ht, hl', Option.getD_some]
  · intro q hq _
    rw [Disk.lookup_unlink, if_neg hq]

/-- The directories above the destination of a legacy directory stand for directories of the legacy tree. -/
theorem made_ancestor (htree : d₀.Tree) (huploads : layout.uploads ∈ d₀.dirs) (hdir : Legacy layout dir) (hd : dir ∈ d₀.dirs)
    (hq : q <+: destination layout dir) : q ∈ d₀.dirs ∨ ∃ p ∈ d₀.dirs, Legacy layout p ∧ q = destination layout p := by
  obtain ⟨name, rest, hname, rfl⟩ := hdir
  rw [destination_root_append] at hq
  rcases List.prefix_or_prefix_of_prefix hq (List.prefix_append ..) with hq | ⟨inner, rfl⟩
  · exact .inl (htree.mem_ancestor huploads hq)
  · have hinner := (List.prefix_append_right_inj _).1 hq
    cases inner with
    | nil => exact .inl (by simpa using huploads)
    | cons name' inner =>
      obtain ⟨rfl, hinner'⟩ := List.cons_prefix_cons.1 hinner
      refine .inr ⟨layout.root ++ name' :: inner, ?_, ⟨name', inner, hname, rfl⟩, (destination_root_append _).symm⟩
      exact htree.mem_ancestor hd ((List.prefix_append_right_inj _).2 hinner)

/-- The destination of a directory is made. -/
theorem createDirAll (h : Migrated layout d₀ d) (htree : d₀.Tree) (huploads : layout.uploads ∈ d₀.dirs) (hdir : Legacy layout dir)
    (hd : dir ∈ d₀.dirs) (hfree : ∀ q, q <+: destination layout dir → d.hasFile q = false) :
    Migrated layout d₀ { d with dirs := d.dirs ++ (Disk.prefixes (destination layout dir)).filter fun q => !d.dirs.contains q } where
  tree := h.tree.createDirAll hfree
  nodes := h.nodes
  files := h.files
  other := h.other
  kept p hp := List.mem_append_left _ (h.kept p hp)
  made p hp := by
    rcases List.mem_append.1 hp with hp | hp
    · exact h.made p hp
    · exact made_ancestor htree huploads hdir hd (Disk.mem_prefixes.1 (List.mem_filter.1 hp).1)

/-- A file in the way of a directory was there. -/
theorem conflict_of_hasFile (h : Migrated layout d₀ d) (hlayout : layout = .new root) (htree : d₀.Tree)
    (huploads : layout.uploads ∈ d₀.dirs) (hdir : Legacy layout dir) (hd : dir ∈ d₀.dirs) (hq : q <+: destination layout dir)
    (hf : d.hasFile q = true) : Conflict layout d₀ := by
  rcases made_ancestor htree huploads hdir hd hq with hm | ⟨p, hp, hlegacy, rfl⟩
  · rw [h.tree.apart q (h.kept q hm)] at hf
    cases hf
  · refine .file hlegacy hp ?_
    by_cases hin : ∃ dir name, Legacy layout dir ∧ p = dir ++ [name]
    · obtain ⟨dir', name', hdir', rfl⟩ := hin
      rcases h.files dir' name' hdir' with ⟨_, ht⟩ | ⟨_, _, _, hl, _⟩
      · rw [Disk.hasFile, ← ht]
        exact hf
      · rw [htree.lookup_eq_none hp] at hl
        cases hl
    · rw [Disk.hasFile, ← h.other]
      · exact hf
      · refine fun dir' name' hdir' => ⟨fun he => ?_, fun he => hin ⟨dir', name', hdir', ?_⟩⟩
        · exact (hdir'.append [name']).ne_destination hlayout p he.symm
        · exact hlegacy.eq_of_destination (hdir'.append [name']) he

end Migrated

/-! ## Operations over a volume -/

section

variable {cfg : Config} {t : Tid} {s : AppState} {E : VolumeEnv → Prop} {I : AppState → Prop} {α β ε : Type}

/-- Some operation fails. -/
def Fails (E : VolumeEnv → Prop) : Prop :=
  ∃ e, E e ∧ e.env.fs.fault ≠ none

/-- An operation that a volume does as the disk does. -/
def Plain : FsReq → Prop
  | .metadata _ | .createFile _ => False
  | _ => True

/-- A plain operation over a volume: it fails, or it is done to the disk. -/
theorem upholds_fs {r : FsReq} {Q : r.Resp → AppState → Prop} (hr : Plain r) (hI : I s)
    (hfault : ∀ (e : VolumeEnv) message, Fails E → Q (e.enumeration.answer (.fs r) (s.disk.faulted message r)) s)
    (hQ : ∀ e : VolumeEnv, I { s with disk := (s.disk.perform e.env.fs s.clock.system r).2 } ∧
      Q (e.enumeration.answer (.fs r) (s.disk.perform e.env.fs s.clock.system r).1)
        { s with disk := (s.disk.perform e.env.fs s.clock.system r).2 }) :
    (fs r).Upholds (Volume.exec cfg t) E I Q s := by
  refine ⟨hI, fun e he => ?_⟩
  have hexec : Volume.exec cfg t (.fs r) e s = (e.enumeration.answer (.fs r) (s.disk.exec e.env.fs s.clock.system r).1,
      { s with disk := (s.disk.exec e.env.fs s.clock.system r).2 }) := by
    cases r <;> first | exact hr.elim | rfl
  rw [hexec]
  cases hf : e.env.fs.fault with
  | none =>
    rw [Disk.exec, hf]
    exact ⟨(hQ e).1, (hQ e).2⟩
  | some message =>
    rw [Disk.exec, hf]
    exact ⟨hI, hfault e message ⟨e, he, by rw [hf]; rintro ⟨⟩⟩⟩

/-- The metadata of a path: it fails, or it tells the length of a directory or of a file. -/
theorem upholds_metadata {p : Path} {Q : Except IoError (Nat × Nat) → AppState → Prop} (hI : I s)
    (hfault : ∀ message, Fails E → Q (.error ⟨.other, message⟩) s)
    (hdir : ∀ e, E e → p ∈ s.disk.dirs → Q (.ok (e.dirMetadata p)) s)
    (hfile : p ∉ s.disk.dirs → ∃ file, s.disk.file? p = some file ∧ Q (.ok (file.data.length, file.modified)) s) :
    (fs (.metadata p)).Upholds (Volume.exec cfg t) E I Q s := by
  refine ⟨hI, fun e he => ?_⟩
  simp only [Volume.exec, Almond.exec, Disk.exec]
  cases hf : e.env.fs.fault with
  | none =>
    by_cases hd : p ∈ s.disk.dirs
    · simp only [List.contains_iff_mem, hd, and_self, if_true]
      exact ⟨hI, hdir e he hd⟩
    · obtain ⟨file, hl, hq⟩ := hfile hd
      simp only [List.contains_iff_mem, hd, and_false, if_false, Disk.perform, hl]
      exact ⟨hI, hq⟩
  | some message =>
    simp only [reduceCtorEq, false_and, if_false]
    exact ⟨hI, hfault message ⟨e, he, by rw [hf]; rintro ⟨⟩⟩⟩

/-- Directories are made: it fails, or a file is in the way, or they are there. -/
theorem upholds_createDirAll {p : Path} {Q : Except IoError Unit → AppState → Prop} (hI : I s)
    (hfault : ∀ error, Fails E → Q (.error error) s)
    (hfile : ∀ q, q <+: p → s.disk.hasFile q = true → ∀ error, Q (.error error) s)
    (hmake : (∀ q, q <+: p → s.disk.hasFile q = false) → ∀ d : Disk,
      d = { s.disk with dirs := s.disk.dirs ++ (Disk.prefixes p).filter fun q => !s.disk.dirs.contains q } →
      I { s with disk := d } ∧ Q (.ok ()) { s with disk := d }) :
    (fs (.createDirAll p)).Upholds (Volume.exec cfg t) E I Q s := by
  refine upholds_fs (by trivial) hI (fun _ _ hf => hfault _ hf) fun e => ?_
  simp only [Enumeration.answer, Disk.perform]
  by_cases hobstructed : s.disk.obstructed p = true
  · obtain ⟨q, hq, hfq⟩ := Disk.obstructed_iff.1 hobstructed
    rw [if_pos hobstructed]
    exact ⟨hI, hfile q hq hfq _⟩
  · rw [if_neg hobstructed]
    exact hmake (fun q hq => Bool.eq_false_iff.2 fun hfq => hobstructed (Disk.obstructed_iff.2 ⟨q, hq, hfq⟩)) _ rfl

/-- A checked operation followed by more. -/
theorem upholds_orErr_bind {message : ε → AppError} {p : Async (Except ε α)} {f : α → AsyncResult β}
    {Q : AppResult β → AppState → Prop}
    (hp : p.Upholds (Volume.exec cfg t) E I (fun x s => match x with
      | .ok a => (f a).run.Upholds (Volume.exec cfg t) E I Q s
      | .error e => Q (.error (message e)) s) s) :
    (orErr message p >>= f).run.Upholds (Volume.exec cfg t) E I Q s := by
  refine Task.Upholds.run_bind (Q := fun x s => (∀ a, x = .ok a → (f a).run.Upholds (Volume.exec cfg t) E I Q s) ∧
    ∀ e, x = .error e → Q (.error e) s) (hp.bind fun x s hI hx => ?_) (fun _ _ _ h => h.2 _ rfl) fun _ _ _ h => h.1 _ rfl
  cases x with
  | ok a =>
    refine ⟨hI, ?_, ?_⟩
    · rintro _ ⟨⟩
      exact hx
    · rintro _ ⟨⟩
  | error e =>
    refine ⟨hI, ?_, ?_⟩
    · rintro _ ⟨⟩
    · rintro _ ⟨⟩
      exact hx

/-- A checked operation at the end. -/
theorem upholds_orErr {message : ε → AppError} {p : Async (Except ε α)} {Q : AppResult α → AppState → Prop}
    (hp : p.Upholds (Volume.exec cfg t) E I (fun x s => match x with
      | .ok a => Q (.ok a) s
      | .error e => Q (.error (message e)) s) s) :
    (orErr message p).run.Upholds (Volume.exec cfg t) E I Q s := by
  refine hp.bind fun x s hI hx => ?_
  cases x <;> exact ⟨hI, hx⟩

end

/-! ## The migration -/

/-- A result, unless some operation fails or the trees conflict. -/
def Merges {α : Type} (layout : StorageLayout) (d₀ : Disk) (E : VolumeEnv → Prop) (Q : α → Prop) (x : AppResult α) : Prop :=
  (∃ a, x = .ok a ∧ Q a) ∨ (∃ e, x = .error e) ∧ (Fails E ∨ Conflict layout d₀)

section

variable {cfg : Config} {t : Tid} {s : AppState} {E : VolumeEnv → Prop}

/-- A file of a legacy tree is migrated. -/
theorem migrateFile_upholds (hlayout : layout = .new root) (htree : d₀.Tree) (haddressed : Addressed layout d₀)
    (hapart : ∀ e, E e → Apart layout d₀ e) (hdir : Legacy layout dir) (hI : Migrated layout d₀ s.disk)
    (hl : s.disk.names.lookup (dir ++ [name]) = some ino) (hmade : destination layout dir ∈ s.disk.dirs) :
    (migrateFile (dir ++ [name]) (destination layout dir ++ [name])).run.Upholds (Volume.exec cfg t) E
      (fun s' => Migrated layout d₀ s'.disk) (fun x s' => Forward layout s.disk s'.disk ∧
        (∀ q, Legacy layout q → q ≠ dir ++ [name] → s'.disk.names.lookup q = s.disk.names.lookup q) ∧
        Merges layout d₀ E (fun _ => s'.disk.names.lookup (dir ++ [name]) = none) x) s := by
  have hp := hdir.append [name]
  have htarget : destination layout dir ++ [name] = destination layout (dir ++ [name]) := (hdir.destination_append [name]).symm
  obtain ⟨hs, ht⟩ := hI.lookup_source hdir hl
  have hl₀ := hs.symm.trans hl
  have hfile : s.disk.hasFile (dir ++ [name]) = true := by rw [Disk.hasFile, hl]; rfl
  have hfile₀ : d₀.file? (dir ++ [name]) = some (d₀.nodes ino) := Disk.file?_eq_some.2 ⟨ino, hl₀, rfl⟩
  have hnotdir : dir ++ [name] ∉ s.disk.dirs := by
    intro hd
    rw [hI.tree.lookup_eq_none hd] at hl
    cases hl
  have hfail : ∀ {x : AppResult Unit}, (∃ e, x = .error e) ∧ (Fails E ∨ Conflict layout d₀) → Forward layout s.disk s.disk ∧
      (∀ q, Legacy layout q → q ≠ dir ++ [name] → s.disk.names.lookup q = s.disk.names.lookup q) ∧
      Merges layout d₀ E (fun _ => s.disk.names.lookup (dir ++ [name]) = none) x :=
    fun hx => ⟨.refl .., fun _ _ _ => rfl, .inr hx⟩
  rw [htarget]
  refine upholds_orErr_bind (upholds_fs (by trivial) hI (fun _ _ hf => hfail ⟨⟨_, rfl⟩, .inl hf⟩) fun _ => ⟨hI, ?_⟩)
  have hclear : s.disk.obstructed (destination layout (dir ++ [name])).dropLast = false := by
    rw [← htarget, List.dropLast_concat]
    exact hI.tree.not_obstructed hmade
  simp only [Enumeration.answer, Disk.perform, hclear, Bool.false_eq_true, if_false]
  by_cases hpresent : (s.disk.dirs.contains (destination layout (dir ++ [name])) ||
      s.disk.hasFile (destination layout (dir ++ [name]))) = true
  · -- Something is at the destination.
    rw [if_pos hpresent]
    refine upholds_orErr_bind (upholds_metadata hI (fun _ hf => hfail ⟨⟨_, rfl⟩, .inl hf⟩) (fun _ _ hd => absurd hd hnotdir)
      fun _ => ⟨d₀.nodes ino, Disk.file?_eq_some.2 ⟨ino, hl, by rw [hI.nodes]⟩, ?_⟩)
    refine upholds_orErr_bind (upholds_metadata hI (fun _ hf => hfail ⟨⟨_, rfl⟩, .inl hf⟩) (fun e he hd => ?_) fun hd => ?_)
    · -- A directory: its length is not the size of the file.
      have hd₀ : destination layout (dir ++ [name]) ∈ d₀.dirs := by
        refine (hI.made _ hd).resolve_right ?_
        rintro ⟨q, hq, hlegacy, heq⟩
        rw [hp.eq_of_destination hlegacy heq, htree.lookup_eq_none hq] at hl₀
        cases hl₀
      have hne := hapart e he dir name _ hdir hfile₀ (htarget ▸ hd₀)
      rw [htarget] at hne
      simp only [ne_eq, hne.symm, not_false_eq_true, if_true]
      exact ⟨hI, hfail ⟨⟨_, rfl⟩, .inr (.dir hdir (by rw [Disk.hasFile, hl₀]; rfl) hd₀)⟩⟩
    · simp only [Bool.or_eq_true, List.contains_iff_mem, hd, false_or] at hpresent
      obtain ⟨ino', hl'⟩ := Option.isSome_iff_exists.1 hpresent
      have hfile₀' : d₀.file? (destination layout (dir ++ [name])) = some (d₀.nodes ino') :=
        Disk.file?_eq_some.2 ⟨ino', ht.symm.trans hl', rfl⟩
      refine ⟨d₀.nodes ino', Disk.file?_eq_some.2 ⟨ino', hl', by rw [hI.nodes]⟩, ?_⟩
      by_cases hsize : (d₀.nodes ino).data.length = (d₀.nodes ino').data.length
      · -- The same contents are there.
        simp only [ne_eq, hsize, not_true_eq_false, if_false]
        have hdata := haddressed dir name _ _ hdir hfile₀ (htarget ▸ hfile₀') hsize
        refine upholds_orErr (upholds_fs (by trivial) hI (fun _ _ hf => hfail ⟨⟨_, rfl⟩, .inl hf⟩) fun _ => ?_)
        simp only [Enumeration.answer, Disk.perform, hfile, if_true]
        refine ⟨hI.unlink hlayout hdir hl hl' hdata.symm, ⟨fun q _ hq => ?_, fun _ hq => hq⟩, fun q _ hne => ?_, .inl ⟨_, rfl, ?_⟩⟩
        · rw [Disk.lookup_unlink]
          split
          · rfl
          · exact hq
        · rw [Disk.lookup_unlink, if_neg hne]
        · rw [Disk.lookup_unlink, if_pos rfl]
      · simp only [ne_eq, hsize, not_false_eq_true, if_true]
        exact ⟨hI, hfail ⟨⟨_, rfl⟩, .inr (.size hdir hfile₀ hfile₀' hsize)⟩⟩
  · -- Nothing is at the destination.
    rw [if_neg hpresent]
    simp only [Bool.or_eq_true, List.contains_iff_mem, not_or, Bool.not_eq_true] at hpresent
    obtain ⟨hnot, hno⟩ := hpresent
    have hnone : s.disk.names.lookup (destination layout (dir ++ [name])) = none := by simpa [Disk.hasFile] using hno
    have hparent : s.disk.parentExists (destination layout (dir ++ [name])) = true := by
      simp [Disk.parentExists, ← htarget, hmade]
    refine upholds_orErr (upholds_fs (by trivial) hI (fun _ _ hf => hfail ⟨⟨_, rfl⟩, .inl hf⟩) fun _ => ?_)
    simp only [Enumeration.answer, Disk.perform, hl, List.contains_iff_mem, hnot, if_false, hparent, if_true]
    have hgone : ∀ q, Legacy layout q → (s.disk.move (dir ++ [name]) (destination layout (dir ++ [name])) ino).names.lookup q =
        if q = dir ++ [name] then none else s.disk.names.lookup q := fun q hq => by
      rw [Disk.lookup_move, if_neg (hq.ne_destination hlayout _)]
    refine ⟨hI.move hlayout hdir hl hnot hnone hparent, ⟨fun q hlegacy hq => ?_, fun _ hq => hq⟩, fun q hlegacy hne => ?_,
      .inl ⟨_, rfl, ?_⟩⟩
    · rw [hgone q hlegacy]
      split
      · rfl
      · exact hq
    · rw [hgone q hlegacy, if_neg hne]
    · rw [hgone _ hp, if_pos rfl]

/-- The entries of a directory of a legacy tree are migrated. -/
theorem mergeEntries_upholds (hlayout : layout = .new root) (htree : d₀.Tree) (haddressed : Addressed layout d₀)
    (hapart : ∀ e, E e → Apart layout d₀ e) (hdir : Legacy layout dir) {names : List Str} (hnodup : names.Nodup)
    (hI : Migrated layout d₀ s.disk) (hmade : destination layout dir ∈ s.disk.dirs)
    (hnames : ∀ name ∈ names, s.disk.hasFile (dir ++ [name]) = true ∨ dir ++ [name] ∈ s.disk.dirs) :
    (mergeEntries dir (destination layout dir) names).run.Upholds (Volume.exec cfg t) E
      (fun s' => Migrated layout d₀ s'.disk) (fun x s' => Forward layout s.disk s'.disk ∧
        Merges layout d₀ E (fun found =>
          found = ((names.map (dir ++ [·])).filter (· ∈ d₀.dirs)).map (fun p => (p, destination layout p)) ∧
          ∀ name ∈ names, s'.disk.names.lookup (dir ++ [name]) = none) x) s := by
  induction names generalizing s with
  | nil =>
    refine upholds_orErr_bind (upholds_fs (by trivial) hI (fun _ _ hf => ⟨.refl .., .inr ⟨⟨_, rfl⟩, .inl hf⟩⟩) fun _ => ⟨hI, ?_⟩)
    exact ⟨hI, .refl .., .inl ⟨[], rfl, rfl, fun _ hn => by cases hn⟩⟩
  | cons name names ih =>
    obtain ⟨hnew, hnodup⟩ := List.nodup_cons.1 hnodup
    have hp := hdir.append [name]
    have hname := hnames name List.mem_cons_self
    have hrest : ∀ n ∈ names, s.disk.hasFile (dir ++ [n]) = true ∨ dir ++ [n] ∈ s.disk.dirs :=
      fun n hn => hnames n (List.mem_cons_of_mem _ hn)
    refine upholds_orErr_bind (upholds_fs (by trivial) hI (fun _ _ hf => ⟨.refl .., .inr ⟨⟨_, rfl⟩, .inl hf⟩⟩) fun _ => ⟨hI, ?_⟩)
    refine upholds_orErr_bind (upholds_fs (by trivial) hI (fun _ _ hf => ⟨.refl .., .inr ⟨⟨_, rfl⟩, .inl hf⟩⟩) fun _ => ⟨hI, ?_⟩)
    by_cases hd : dir ++ [name] ∈ s.disk.dirs
    · -- A directory is pushed.
      have hd₀ := (hI.mem_dirs_iff hlayout hp).1 hd
      simp only [Enumeration.answer, Disk.perform, List.contains_iff_mem, hd, if_true]
      refine Task.Upholds.run_bind (ih hnodup hI hmade hrest) ?_ ?_
      · rintro e s' _ ⟨hforward, ⟨_, he, _⟩ | ⟨_, hbad⟩⟩
        · cases he
        · exact ⟨hforward, .inr ⟨⟨e, rfl⟩, hbad⟩⟩
      · rintro found s' hI' ⟨hforward, ⟨_, he, hfound, hgone⟩ | ⟨⟨_, he⟩, _⟩⟩
        · cases he
          refine ⟨hI', hforward, .inl ⟨_, rfl, ?_, fun n hn => ?_⟩⟩
          · rw [List.map_cons, List.filter_cons_of_pos (by simpa using hd₀), List.map_cons, hdir.destination_append, hfound]
          · rcases List.mem_cons.1 hn with rfl | hn
            · exact hforward.gone _ hp (hI.tree.lookup_eq_none hd)
            · exact hgone n hn
        · cases he
    · -- A file is migrated.
      have hfile := hname.resolve_right hd
      have hd₀ := mt (hI.mem_dirs_iff hlayout hp).2 hd
      obtain ⟨ino, hl⟩ := Option.isSome_iff_exists.1 hfile
      simp only [Enumeration.answer, Disk.perform, List.contains_iff_mem, hd, if_false, hfile, if_true]
      refine Task.Upholds.run_bind (migrateFile_upholds hlayout htree haddressed hapart hdir hI hl hmade) ?_ ?_
      · rintro e s' _ ⟨hforward, _, ⟨_, he, _⟩ | ⟨_, hbad⟩⟩
        · cases he
        · exact ⟨hforward, .inr ⟨⟨e, rfl⟩, hbad⟩⟩
      · rintro _ s' hI' ⟨hforward, hsame, ⟨_, he, hgone⟩ | ⟨⟨_, he⟩, _⟩⟩
        · have hrest' : ∀ n ∈ names, s'.disk.hasFile (dir ++ [n]) = true ∨ dir ++ [n] ∈ s'.disk.dirs := by
            intro n hn
            refine (hrest n hn).imp (fun hf => ?_) (hforward.dirs _)
            have hne : dir ++ [n] ≠ dir ++ [name] := by
              intro heq
              obtain rfl : n = name := by simpa using heq
              exact hnew hn
            rw [Disk.hasFile, hsame _ (hdir.append [n]) hne]
            exact hf
          refine (ih hnodup hI' (hforward.dirs _ hmade) hrest').mono ?_
          rintro x s'' _ ⟨hforward', hx⟩
          refine ⟨hforward.trans hforward', hx.imp_left ?_⟩
          rintro ⟨found, hok, hfound, hgone'⟩
          refine ⟨found, hok, ?_, fun n hn => ?_⟩
          · rw [List.map_cons, List.filter_cons_of_neg (by simpa using hd₀), hfound]
          · rcases List.mem_cons.1 hn with rfl | hn
            · exact hforward'.gone _ hp hgone
            · exact hgone' n hn
        · cases he

/-- The directories that are found in a directory of a legacy tree, in some order. -/
theorem Migrated.subdirs_perm (h : Migrated layout d₀ d) (hlayout : layout = .new root) (htree : d₀.Tree) (hdir : Legacy layout dir)
    (o : Enumeration) :
    (((o.order dir (d.children dir)).map (dir ++ [·])).filter (· ∈ d₀.dirs)).Perm (d₀.subdirs dir) := by
  have hlisted : ((d.children dir).map (dir ++ [·])).filter (· ∈ d₀.dirs) = d.subdirs dir := by
    refine List.filter_congr fun p hp => ?_
    obtain ⟨name, _, rfl⟩ := List.mem_map.1 hp
    exact decide_eq_decide.2 (h.mem_dirs_iff hlayout (hdir.append [name])).symm
  have hsame : (d.subdirs dir).Perm (d₀.subdirs dir) := by
    refine (List.perm_ext_iff_of_nodup (h.tree.nodup_subdirs dir) (htree.nodup_subdirs dir)).2 fun p => ?_
    rw [Disk.mem_subdirs, Disk.mem_subdirs]
    refine and_congr_left fun ⟨hne, hp⟩ => h.mem_dirs_iff hlayout ?_
    rw [← List.dropLast_append_getLast hne, hp]
    exact hdir.append _
  exact (((o.perm dir (d.children dir)).map _).filter _).trans (hlisted ▸ hsame)

/-- A legacy tree is walked. -/
theorem mergeDirs_upholds (cfg : Config) (t : Tid) (hlayout : layout = .new root) (htree : d₀.Tree) (huploads : layout.uploads ∈ d₀.dirs)
    (haddressed : Addressed layout d₀) (hapart : ∀ e, E e → Apart layout d₀ e) {top : Path} (htop : Legacy layout top)
    (hmem : top ∈ d₀.dirs) {fuel : Nat} {visited stack : List Path} (hI : Migrated layout d₀ s.disk)
    (hwalk : Walk d₀.subdirs top visited stack) (hfuel : d₀.dirs.length ≤ fuel + visited.length)
    (hdone : ∀ dir ∈ visited, Emptied layout s.disk dir) :
    (mergeDirs fuel (stack.map fun p => (p, destination layout p))).run.Upholds (Volume.exec cfg t) E
      (fun s' => Migrated layout d₀ s'.disk) (fun x s' => Forward layout s.disk s'.disk ∧
        Merges layout d₀ E (fun _ => ∀ dir, top <+: dir → dir ∈ d₀.dirs → Emptied layout s'.disk dir) x) s := by
  have hrooted : Rooted d₀.subdirs top := htree.rooted hmem
  have hreach : ∀ {p}, Walks.Reaches d₀.subdirs top p ↔ top <+: p ∧ p ∈ d₀.dirs := htree.reaches_iff hmem
  have hend : ∀ {s' : AppState} {visited}, Walk d₀.subdirs top visited [] → (∀ dir ∈ visited, Emptied layout s'.disk dir) →
      Merges layout d₀ E (fun _ => ∀ dir, top <+: dir → dir ∈ d₀.dirs → Emptied layout s'.disk dir) (.ok ()) :=
    fun hw hd => .inl ⟨(), rfl, fun dir hp hm => hd dir (hw.mem_iff.2 (hreach.2 ⟨hp, hm⟩))⟩
  induction fuel generalizing visited stack s with
  | zero =>
    cases stack with
    | nil => exact ⟨hI, .refl .., hend hwalk hdone⟩
    | cons dir stack =>
      have := hwalk.length_le fun _ hx => (hreach.1 hx).2
      rw [List.length_cons] at this
      omega
  | succ fuel ih =>
    cases stack with
    | nil => exact ⟨hI, .refl .., hend hwalk hdone⟩
    | cons dir stack =>
      obtain ⟨⟨rest, hrest⟩, hd⟩ := hreach.1 (hwalk.reaches dir (List.mem_append_right _ List.mem_cons_self))
      have hdir : Legacy layout dir := hrest ▸ htop.append rest
      refine upholds_orErr_bind (upholds_createDirAll hI (fun _ hf => ⟨.refl .., .inr ⟨⟨_, rfl⟩, .inl hf⟩⟩)
        (fun q hq hf _ => ⟨.refl .., .inr ⟨⟨_, rfl⟩, .inr ?_⟩⟩) fun hfree d hd' => ?_)
      · exact hI.conflict_of_hasFile hlayout htree huploads hdir hd hq hf
      -- The directory is made.
      have hI₁ : Migrated layout d₀ d := hd' ▸ hI.createDirAll htree huploads hdir hd hfree
      have hforward₁ : Forward layout s.disk d := by
        rw [hd']
        exact ⟨fun _ _ h => h, fun _ h => List.mem_append_left _ h⟩
      have hmade : destination layout dir ∈ d.dirs := by
        rw [hd']
        by_cases hm : destination layout dir ∈ s.disk.dirs
        · exact List.mem_append_left _ hm
        · exact List.mem_append_right _ (List.mem_filter.2 ⟨Disk.mem_prefixes.2 (List.prefix_refl _), by simpa using hm⟩)
      refine ⟨hI₁, ?_⟩
      refine upholds_orErr_bind (upholds_fs (by trivial) hI₁ (fun _ _ hf => ⟨hforward₁, .inr ⟨⟨_, rfl⟩, .inl hf⟩⟩) fun e => ⟨hI₁, ?_⟩)
      simp only [Enumeration.answer, Disk.perform, List.contains_iff_mem, hI₁.kept dir hd, if_true, Except.map]
      have hperm := e.enumeration.perm dir (d.children dir)
      refine Task.Upholds.run_bind (mergeEntries_upholds (s := { s with disk := d }) hlayout htree haddressed hapart hdir
        (hperm.nodup_iff.2 (hI₁.tree.nodup_children dir)) hI₁ hmade fun name hn => Disk.mem_children.1 (hperm.mem_iff.1 hn)) ?_ ?_
      · rintro error s' _ ⟨hforward, ⟨_, he, _⟩ | ⟨_, hbad⟩⟩
        · cases he
        · exact ⟨hforward₁.trans hforward, .inr ⟨⟨error, rfl⟩, hbad⟩⟩
      · rintro found s' hI' ⟨hforward, ⟨_, he, hfound, hgone⟩ | ⟨⟨_, he⟩, _⟩⟩
        · cases he
          have hsub := hI₁.subdirs_perm hlayout htree hdir e.enumeration
          have hstack := ((List.reverse_perm _).trans (hsub.trans (List.reverse_perm _).symm)).append_right stack
          have hdone' : ∀ p ∈ dir :: visited, Emptied layout s'.disk p := by
            intro p hp
            rcases List.mem_cons.1 hp with rfl | hp
            · refine ⟨fun name => ?_, hforward.dirs _ hmade⟩
              by_cases hn : name ∈ d.children p
              · exact hgone name (hperm.mem_iff.2 hn)
              · -- No file has this name.
                refine hforward.gone _ (hdir.append [name]) ?_
                simpa [Disk.hasFile] using (not_or.1 (mt Disk.mem_children.2 hn)).1
            · obtain ⟨⟨inner, hinner⟩, _⟩ := hreach.1 (hwalk.reaches p (List.mem_append_left _ hp))
              exact (hforward₁.trans hforward).emptied (hinner ▸ htop.append inner) (hdone p hp)
          have hnext := ih hI' ((hwalk.step hrooted).of_perm hstack) (by rw [List.length_cons]; omega) hdone'
          rw [List.map_append, List.map_reverse, ← hfound] at hnext
          exact hnext.mono fun x s'' _ h => ⟨(hforward₁.trans hforward).trans h.1, h.2⟩
        · cases he

/-- A legacy tree is merged with the uploads. -/
theorem mergeLegacyTree_upholds (hlayout : layout = .new root) (htree : d₀.Tree) (huploads : layout.uploads ∈ d₀.dirs)
    (haddressed : Addressed layout d₀) (hapart : ∀ e, E e → Apart layout d₀ e) (hname : isLegacyName name = true)
    (hmem : layout.root ++ [name] ∈ d₀.dirs) (hI : Migrated layout d₀ s.disk) :
    (mergeLegacyTree (layout.root ++ [name]) (layout.uploads ++ [name])).run.Upholds (Volume.exec cfg t) E
      (fun s' => Migrated layout d₀ s'.disk) (fun x s' => Forward layout s.disk s'.disk ∧
        Merges layout d₀ E (fun _ => ∀ dir, layout.root ++ [name] <+: dir → dir ∈ d₀.dirs → Emptied layout s'.disk dir) x) s := by
  have hcount : (fs .dirCount).Upholds (Volume.exec cfg t) E (fun s' => Migrated layout d₀ s'.disk)
      (fun n s' => n = s.disk.dirs.length ∧ s' = s) s := upholds_fs (by trivial) hI (fun _ _ _ => ⟨rfl, rfl⟩) fun _ => ⟨hI, rfl, rfl⟩
  have hle : d₀.dirs.length ≤ s.disk.dirs.length := (List.subperm_of_subset htree.nodup hI.kept).length_le
  refine Task.Upholds.lift_bind hcount ?_
  rintro _ s' hI' ⟨rfl, rfl⟩
  have hwalk := mergeDirs_upholds cfg t hlayout htree huploads haddressed hapart (Legacy.top layout hname) hmem hI'
    .start (Nat.le_add_right_of_le hle) fun _ hd => nomatch hd
  simpa [destination] using hwalk

/-- What has a legacy name in the storage root is as it was. -/
theorem Migrated.hasFile_top (h : Migrated layout d₀ d) (hlayout : layout = .new root) (hname : isLegacyName name = true) :
    d.hasFile (layout.root ++ [name]) = d₀.hasFile (layout.root ++ [name]) := by
  rw [Disk.hasFile, Disk.hasFile, h.other]
  rintro dir name' ⟨inner, rest, hinner, rfl⟩
  refine ⟨fun heq => ?_, (Legacy.top layout hname).ne_destination hlayout _⟩
  have hlength := congrArg List.length heq
  simp at hlength

/-- The entries of the storage root are migrated. -/
theorem migrateEntries_upholds (hlayout : layout = .new root) (htree : d₀.Tree) (huploads : layout.uploads ∈ d₀.dirs)
    (haddressed : Addressed layout d₀) (hapart : ∀ e, E e → Apart layout d₀ e) {names : List Str} (hI : Migrated layout d₀ s.disk)
    (hnames : ∀ name ∈ names, isLegacyName name = true →
      d₀.hasFile (layout.root ++ [name]) = true ∨ layout.root ++ [name] ∈ d₀.dirs) :
    (migrateEntries layout names).run.Upholds (Volume.exec cfg t) E
      (fun s' => Migrated layout d₀ s'.disk) (fun x s' => Forward layout s.disk s'.disk ∧
        Merges layout d₀ E (fun _ => ∀ name ∈ names, isLegacyName name = true →
          ∀ dir, layout.root ++ [name] <+: dir → dir ∈ d₀.dirs → Emptied layout s'.disk dir) x) s := by
  induction names generalizing s with
  | nil =>
    exact upholds_orErr (upholds_fs (by trivial) hI (fun _ _ hf => ⟨.refl .., .inr ⟨⟨_, rfl⟩, .inl hf⟩⟩)
      fun _ => ⟨hI, .refl .., .inl ⟨(), rfl, fun _ hn => by cases hn⟩⟩)
  | cons name names ih =>
    -- The rest, after what the first entry needs.
    have hgo : ∀ {s' : AppState}, Migrated layout d₀ s'.disk → Forward layout s.disk s'.disk →
        (isLegacyName name = true → ∀ dir, layout.root ++ [name] <+: dir → dir ∈ d₀.dirs → Emptied layout s'.disk dir) →
        (migrateEntries layout names).run.Upholds (Volume.exec cfg t) E (fun s'' => Migrated layout d₀ s''.disk)
          (fun x s'' => Forward layout s.disk s''.disk ∧ Merges layout d₀ E (fun _ => ∀ n ∈ name :: names, isLegacyName n = true →
            ∀ dir, layout.root ++ [n] <+: dir → dir ∈ d₀.dirs → Emptied layout s''.disk dir) x) s' := by
      intro s' hI' hforward hfirst
      refine (ih hI' fun n hn => hnames n (List.mem_cons_of_mem _ hn)).mono ?_
      rintro x s'' _ ⟨hforward', hx⟩
      refine ⟨hforward.trans hforward', hx.imp_left ?_⟩
      rintro ⟨_, hok, hall⟩
      refine ⟨(), hok, fun n hn hlegacy dir hp hd => ?_⟩
      rcases List.mem_cons.1 hn with rfl | hn
      · obtain ⟨rest, rfl⟩ := hp
        exact hforward'.emptied ((Legacy.top layout hlegacy).append rest) (hfirst hlegacy _ (List.prefix_append ..) hd)
      · exact hall n hn hlegacy dir hp hd
    refine upholds_orErr_bind (upholds_fs (by trivial) hI (fun _ _ hf => ⟨.refl .., .inr ⟨⟨_, rfl⟩, .inl hf⟩⟩) fun _ => ⟨hI, ?_⟩)
    simp only [Enumeration.answer, Disk.perform]
    by_cases hlegacy : isLegacyName name = true
    · simp only [hlegacy, if_true]
      refine upholds_orErr_bind (upholds_fs (by trivial) hI (fun _ _ hf => ⟨.refl .., .inr ⟨⟨_, rfl⟩, .inl hf⟩⟩) fun _ => ⟨hI, ?_⟩)
      have hdirs := hI.mem_dirs_iff hlayout (Legacy.top layout hlegacy)
      by_cases hd : layout.root ++ [name] ∈ s.disk.dirs
      · -- A legacy tree.
        simp only [Enumeration.answer, Disk.perform, List.contains_iff_mem, hd, if_true]
        refine Task.Upholds.run_bind (mergeLegacyTree_upholds hlayout htree huploads haddressed hapart hlegacy (hdirs.1 hd) hI) ?_ ?_
        · rintro e s' _ ⟨hforward, ⟨_, he, _⟩ | ⟨_, hbad⟩⟩
          · cases he
          · exact ⟨hforward, .inr ⟨⟨e, rfl⟩, hbad⟩⟩
        · rintro _ s' hI' ⟨hforward, ⟨_, he, hall⟩ | ⟨⟨_, he⟩, _⟩⟩
          · exact hgo hI' hforward fun _ => hall
          · cases he
      · -- A file.
        have hd₀ := mt hdirs.2 hd
        have hfile := (hnames name List.mem_cons_self hlegacy).resolve_right hd₀
        rw [← hI.hasFile_top hlayout hlegacy] at hfile
        simp only [Enumeration.answer, Disk.perform, List.contains_iff_mem, hd, if_false, hfile, if_true, reduceCtorEq]
        refine hgo hI (.refl ..) fun _ dir hp hm => absurd (htree.mem_ancestor hm hp) hd₀
    · simp only [hlegacy, Bool.false_eq_true, if_false]
      exact hgo hI (.refl ..) fun h => absurd h hlegacy

/-- A migration keeps the invariant, and finishes unless some operation fails or the trees conflict. -/
theorem migrateLegacyBlobs_upholds (cfg : Config) (t : Tid) (hlayout : layout = .new root) (htree : d₀.Tree)
    (huploads : layout.uploads ∈ d₀.dirs) (haddressed : Addressed layout d₀) (hapart : ∀ e, E e → Apart layout d₀ e)
    (hI : Migrated layout d₀ s.disk) :
    (program layout).Upholds (Volume.exec cfg t) E (fun s' => Migrated layout d₀ s'.disk)
      (fun x s' => Merges layout d₀ E (fun _ => Finished layout d₀ s'.disk) x) s := by
  have hroot : layout.root ∈ d₀.dirs := by
    refine htree.mem_ancestor huploads ?_
    rw [hlayout]
    exact List.prefix_append ..
  refine upholds_orErr_bind (upholds_fs (by trivial) hI (fun _ _ hf => .inr ⟨⟨_, rfl⟩, .inl hf⟩) fun e => ⟨hI, ?_⟩)
  simp only [Enumeration.answer, Disk.perform, List.contains_iff_mem, hI.kept _ hroot, if_true, Except.map]
  have hperm := e.enumeration.perm layout.root (s.disk.children layout.root)
  refine (migrateEntries_upholds hlayout htree huploads haddressed hapart hI fun name hn hlegacy => ?_).mono ?_
  · refine (Disk.mem_children.1 (hperm.mem_iff.1 hn)).imp (fun hf => ?_) (hI.mem_dirs_iff hlayout (Legacy.top layout hlegacy)).1
    rwa [← hI.hasFile_top hlayout hlegacy]
  · rintro x s' _ ⟨_, hx⟩
    refine hx.imp_left ?_
    rintro ⟨_, hok, hall⟩
    refine ⟨(), hok, ?_⟩
    rintro dir hd ⟨name, rest, hlegacy, rfl⟩
    have hp : layout.root ++ [name] <+: layout.root ++ name :: rest := (List.prefix_append_right_inj _).2 ⟨rest, rfl⟩
    have hlisted : name ∈ s.disk.children layout.root := Disk.mem_children.2 (.inr (hI.kept _ (htree.mem_ancestor hd hp)))
    exact hall name (hperm.mem_iff.2 hlisted) hlegacy _ hp hd

end

end Migration

end Almond
