import Almond.Lemmas.ScanAux
import Almond.Lemmas.DisksAux
import Almond.ServeFiles

/-! # A refresh alone

A refresh reads until it writes the manifest. Whatever fails, it fails as a whole or has met every served file once. -/

namespace Almond.ServeFiles

open Conc Walks

/-- A result, unless some operation fails. -/
def Obtains {α : Type} (E : Env → Prop) (Q : α → Prop) (x : Except IoError α) : Prop :=
  (∃ a, x = .ok a ∧ Q a) ∨ (∃ e, x = .error e) ∧ Faulty E

/-- A file that is served: a file below the root, outside `.git` directories, that is not named like the manifest. -/
def Served (d : Disk) (root : Path) (manifestName : Str) (p : Path) : Prop :=
  ∃ dirs name, p = root ++ dirs ++ [name] ∧ ".git".toList ∉ dirs ∧ name ≠ manifestName ∧ d.hasFile p = true

/-- Whether a walk goes into a directory. -/
def isOpen (p : Path) : Bool :=
  p.getLast? ≠ some ".git".toList

/-- The directories that a walk goes into from a directory. -/
def openDirs (o : Enumeration) (d : Disk) (dir : Path) : List Path :=
  (o.subdirs d dir).filter isOpen

/-- The files that a walk collects among some paths. -/
def kept (manifestName : Str) (d : Disk) (paths : List Path) : List Path :=
  paths.filter fun p => d.hasFile p && p.getLast? ≠ some manifestName

section

variable {cfg : Config} {t : Tid} {s : AppState} {libs : Libs} {o : Enumeration} {E : Env → Prop} {d : Disk} {root p : Path}
  {manifestName : Str} {α β : Type}

/-! ## The walk -/

/-- The rule of sequencing for what only reads. -/
theorem obtains_bind {x : AsyncIo α} {f : α → AsyncIo β} {Q : α → Prop} {Q' : β → Prop}
    (hx : x.run.Yields (o.exec cfg t) E (fun y s' => s' = s ∧ Obtains E Q y) s)
    (hf : ∀ a, Q a → (f a).run.Yields (o.exec cfg t) E (fun y s' => s' = s ∧ Obtains E Q' y) s) :
    (x >>= f).run.Yields (o.exec cfg t) E (fun y s' => s' = s ∧ Obtains E Q' y) s := by
  refine Task.Yields.run_bind hx ?_ ?_
  · rintro e s' ⟨rfl, ⟨_, he, _⟩ | ⟨_, hfault⟩⟩
    · nomatch he
    · exact ⟨rfl, .inr ⟨⟨e, rfl⟩, hfault⟩⟩
  · rintro a s' ⟨rfl, ⟨_, ha, hQ⟩ | ⟨⟨_, he⟩, _⟩⟩
    · cases ha
      exact hf a hQ
    · nomatch he

/-- The outside makes a file operation fail. -/
def Faults (e : Env) : Prop :=
  e.fs.fault ≠ none

/-- A file operation that fails when the outside says so. -/
theorem givesUp_fs (r : FsReq) {failed : r.Resp → Prop} (hr : ∀ (d : Disk) message, failed (o.answer (.fs r) (d.faulted message r))) :
    (fs r).GivesUp (o.exec cfg t) Faults failed := by
  refine fun e s => ⟨trivial, fun he => ⟨_, rfl, ?_⟩⟩
  obtain ⟨message, hmessage⟩ := Option.ne_none_iff_exists'.1 he
  simp only [Enumeration.exec, exec, Disk.exec, hmessage]
  exact hr s.disk message

/-- The directories that can be reached have no `.git` on the way. -/
theorem reaches_openDirs (htree : d.Tree) (hroot : root ∈ d.dirs) :
    Walks.Reaches (openDirs o d) root p ↔ ∃ dirs, p = root ++ dirs ∧ ".git".toList ∉ dirs ∧ p ∈ d.dirs := by
  have hmem : ∀ {dir q : Path}, q ∈ openDirs o d dir ↔ (q ∈ d.dirs ∧ q ≠ [] ∧ q.dropLast = dir) ∧ isOpen q = true := by
    intro dir q
    rw [openDirs, List.mem_filter, (o.subdirs_perm d dir).mem_iff, Disk.mem_subdirs]
  constructor
  · intro hp
    induction hp with
    | refl => exact ⟨[], (List.append_nil _).symm, List.not_mem_nil, hroot⟩
    | @tail dir q _ hc ih =>
      obtain ⟨⟨hd, hne, hdir⟩, hopen⟩ := hmem.1 hc
      obtain ⟨dirs, hp, hgit, _⟩ := ih
      have hsplit : q.dropLast ++ [q.getLast hne] = q := List.dropLast_append_getLast hne
      refine ⟨dirs ++ [q.getLast hne], ?_, ?_, hd⟩
      · rw [← List.append_assoc, ← hp, ← hdir, hsplit]
      · intro hm
        rcases List.mem_append.1 hm with hm | hm
        · exact hgit hm
        · rw [isOpen, decide_eq_true_eq, List.getLast?_eq_getLast_of_ne_nil hne, ← List.mem_singleton.1 hm] at hopen
          exact hopen rfl
  · rintro ⟨dirs, rfl, hgit, hd⟩
    induction dirs using List.reverseRecOn with
    | nil =>
      rw [List.append_nil]
      exact .refl
    | append_singleton dirs name ih =>
      rw [← List.append_assoc] at hd ⊢
      have hparent : root ++ dirs ∈ d.dirs := by simpa using htree.parent _ (by simp) (.inr hd)
      refine (ih (fun h => hgit (List.mem_append_left _ h)) hparent).tail (hmem.2 ⟨⟨hd, by simp, List.dropLast_concat⟩, ?_⟩)
      rw [isOpen, decide_eq_true_eq, List.getLast?_concat]
      rintro ⟨⟩
      exact hgit (List.mem_append_right _ (List.mem_singleton_self _))

/-- The entries of one directory. -/
theorem collectEntries_yields (htree : s.disk.Tree) {dir : Path} {names : List Str} (hnames : ∀ name ∈ names, name ∈ s.disk.children dir)
    (directories files : List Path) :
    (collectEntries manifestName dir names directories files).run.Yields (o.exec cfg t) E (fun x s' => s' = s ∧
      Obtains E (fun y => y = ((((names.map (dir ++ [·])).filter (· ∈ s.disk.dirs)).filter isOpen).reverse ++ directories,
        files ++ kept manifestName s.disk (names.map (dir ++ [·])))) x) s := by
  induction names generalizing directories files with
  | nil =>
    refine obtains_bind (Q := fun _ => True) (yields_inspect trivial (fun _ h => ⟨rfl, .inr ⟨⟨_, rfl⟩, h⟩⟩) fun _ =>
      ⟨rfl, .inl ⟨_, rfl, trivial⟩⟩) fun _ _ => ⟨rfl, .inl ⟨_, rfl, ?_⟩⟩
    simp [kept]
  | cons name names ih =>
    have hrest : ∀ n ∈ names, n ∈ s.disk.children dir := fun n hn => hnames n (List.mem_cons_of_mem _ hn)
    have hmem := Disk.mem_children.1 (hnames name List.mem_cons_self)
    refine obtains_bind (Q := fun _ => True) (yields_inspect trivial (fun _ h => ⟨rfl, .inr ⟨⟨_, rfl⟩, h⟩⟩) fun _ =>
      ⟨rfl, .inl ⟨_, rfl, trivial⟩⟩) fun _ _ => ?_
    have htype : (fs (.fileType (dir ++ [name]))).Yields (o.exec cfg t) E (fun x s' => s' = s ∧
        Obtains E (fun y => y = if dir ++ [name] ∈ s.disk.dirs then .dir else .file) x) s := by
      refine yields_inspect trivial (fun _ h => ⟨rfl, .inr ⟨⟨_, rfl⟩, h⟩⟩) fun _ => ⟨rfl, .inl ⟨_, ?_, rfl⟩⟩
      simp only [Enumeration.answer, Disk.perform, List.contains_iff_mem]
      split
      · rfl
      · rw [if_pos (hmem.resolve_right ‹_›)]
    refine obtains_bind htype fun fileType hfile => ?_
    subst hfile
    by_cases hd : dir ++ [name] ∈ s.disk.dirs
    · have hno : s.disk.hasFile (dir ++ [name]) = false := htree.apart _ hd
      have hskip : kept manifestName s.disk ((name :: names).map (dir ++ [·])) = kept manifestName s.disk (names.map (dir ++ [·])) := by
        rw [kept, List.map_cons, List.filter_cons, hno]
        rfl
      rw [if_pos hd, hskip, List.map_cons, List.filter_cons, if_pos (decide_eq_true hd), List.filter_cons]
      by_cases hgit : name = ".git".toList
      · have hclosed : isOpen (dir ++ [name]) = false := by rw [isOpen, List.getLast?_concat, hgit]; rfl
        rw [hclosed]
        simp only [if_pos hgit, Bool.false_eq_true, if_false]
        exact ih hrest _ _
      · have hopen : isOpen (dir ++ [name]) = true := by
          rw [isOpen, List.getLast?_concat, decide_eq_true_eq]
          exact fun h => hgit (Option.some.inj h)
        rw [if_pos hopen, List.reverse_cons, List.append_assoc, List.singleton_append]
        simp only [if_neg hgit]
        exact ih hrest _ _
    · have hfile : s.disk.hasFile (dir ++ [name]) = true := hmem.resolve_right hd
      rw [if_neg hd, List.map_cons, List.filter_cons, decide_eq_false hd, if_neg Bool.false_ne_true]
      by_cases hm : name = manifestName
      · have hskip : kept manifestName s.disk ((dir ++ [name]) :: names.map (dir ++ [·])) =
            kept manifestName s.disk (names.map (dir ++ [·])) := by
          rw [kept, List.filter_cons, List.getLast?_concat, hm]
          simp [kept]
        rw [hskip]
        simp only [if_pos hm]
        exact ih hrest _ _
      · have hkeep : kept manifestName s.disk ((dir ++ [name]) :: names.map (dir ++ [·])) =
            (dir ++ [name]) :: kept manifestName s.disk (names.map (dir ++ [·])) := by
          rw [kept, List.filter_cons, List.getLast?_concat, hfile]
          simp [kept, hm]
        rw [hkeep, List.append_cons files (dir ++ [name]) (kept ..)]
        simp only [if_neg hm]
        exact ih hrest _ _

/-- A walk that goes on from here visits some more directories, and collects their files. -/
def Collects (o : Enumeration) (manifestName : Str) (d : Disk) (root : Path) (visited files files' : List Path) : Prop :=
  ∃ later : List Path, Walk (openDirs o d) root (later.reverse ++ visited) [] ∧
    files' = files ++ later.flatMap fun dir => kept manifestName d (o.entries d dir)

/-- The walk below a root. -/
theorem collectDirs_yields (htree : s.disk.Tree) (hroot : root ∈ s.disk.dirs) {fuel : Nat} {visited stack files : List Path}
    (hwalk : Walk (openDirs o s.disk) root visited stack) (hfuel : s.disk.dirs.length ≤ fuel + visited.length) :
    (collectDirs manifestName fuel stack files).run.Yields (o.exec cfg t) E (fun x s' => s' = s ∧
      Obtains E (Collects o manifestName s.disk root visited files) x) s := by
  have hrooted : Rooted (openDirs o s.disk) root :=
    ((htree.rooted hroot).of_perm (o.subdirs_perm s.disk)).of_sublist fun _ => List.filter_sublist
  have hbound : ∀ {visited stack}, Walk (openDirs o s.disk) root visited stack → visited.length + stack.length ≤ s.disk.dirs.length := by
    refine fun h => h.length_le fun x hx => ?_
    obtain ⟨_, _, _, hd⟩ := (reaches_openDirs htree hroot).1 hx
    exact hd
  have hdone : ∀ {visited files}, Walk (openDirs o s.disk) root visited [] →
      s = s ∧ Obtains E (Collects o manifestName s.disk root visited files) (.ok files) := fun h =>
    ⟨rfl, .inl ⟨_, rfl, [], h, (List.append_nil _).symm⟩⟩
  induction fuel generalizing visited stack files with
  | zero =>
    cases stack with
    | nil => exact hdone hwalk
    | cons dir stack =>
      have := hbound hwalk
      rw [List.length_cons] at this
      omega
  | succ fuel ih =>
    cases stack with
    | nil => exact hdone hwalk
    | cons dir stack =>
      obtain ⟨_, _, _, hmem⟩ := (reaches_openDirs htree hroot).1 (hwalk.reaches dir (List.mem_append_right _ List.mem_cons_self))
      have hread : (fs (.readDir dir)).Yields (o.exec cfg t) E (fun x s' => s' = s ∧
          Obtains E (fun names => names = o.order dir (s.disk.children dir)) x) s := by
        refine yields_inspect trivial (fun _ h => ⟨rfl, .inr ⟨⟨_, rfl⟩, h⟩⟩) fun _ => ⟨rfl, .inl ⟨_, ?_, rfl⟩⟩
        simp only [Enumeration.answer, Disk.perform, List.contains_iff_mem, hmem, if_true, Except.map]
      refine obtains_bind hread fun names hnames => ?_
      subst hnames
      refine obtains_bind (collectEntries_yields htree (fun _ hn => (o.perm dir _).mem_iff.1 hn) stack files) fun y hy => ?_
      subst hy
      refine (ih (hwalk.step hrooted) (by rw [List.length_cons]; omega)).mono ?_
      rintro x s'' ⟨hs, ⟨files', hx, later, hw, rfl⟩ | hx⟩
      · refine ⟨hs, .inl ⟨_, hx, dir :: later, ?_, ?_⟩⟩
        · rw [List.reverse_cons, List.append_assoc]
          exact hw
        · rw [List.flatMap_cons, ← List.append_assoc]
          rfl
      · exact ⟨hs, .inr hx⟩

/-- Looking at the entries of a directory gives up at the first failure. -/
theorem collectEntries_givesUp {dir : Path} {names : List Str} {directories files : List Path} :
    (collectEntries manifestName dir names directories files).run.GivesUp (o.exec cfg t) Faults Task.IsError := by
  have hnext : (fs (.nextEntry dir)).GivesUp (o.exec cfg t) Faults Task.IsError := givesUp_fs (.nextEntry dir) fun _ _ => ⟨_, rfl⟩
  induction names generalizing directories files with
  | nil => exact .run_bind (p := ExceptT.mk _) hnext fun _ => trivial
  | cons name names ih =>
    have htype : (fs (.fileType (dir ++ [name]))).GivesUp (o.exec cfg t) Faults Task.IsError :=
      givesUp_fs (.fileType _) fun _ _ => ⟨_, rfl⟩
    refine .run_bind (p := ExceptT.mk _) hnext fun _ => .run_bind (p := ExceptT.mk _) htype fun fileType => ?_
    cases fileType <;> exact ih

/-- A walk gives up at the first failure. -/
theorem collectDirs_givesUp {fuel : Nat} {stack files : List Path} :
    (collectDirs manifestName fuel stack files).run.GivesUp (o.exec cfg t) Faults Task.IsError := by
  induction fuel generalizing stack files with
  | zero => cases stack <;> exact trivial
  | succ fuel ih =>
    cases stack with
    | nil => exact trivial
    | cons dir stack =>
      have hread : (fs (.readDir dir)).GivesUp (o.exec cfg t) Faults Task.IsError := givesUp_fs (.readDir dir) fun _ _ => ⟨_, rfl⟩
      exact .run_bind (p := ExceptT.mk _) hread fun _ => .run_bind collectEntries_givesUp fun _ => ih

/-- A walk below a root that is no directory fails. -/
theorem collectDirs_fails (hroot : root ∉ s.disk.dirs) {fuel : Nat} :
    (collectDirs manifestName fuel [root] []).run.Yields (o.exec cfg t) E (fun x s' => s' = s ∧ Task.IsError x) s := by
  cases fuel with
  | zero => exact ⟨rfl, _, rfl⟩
  | succ fuel =>
    have hread : (fs (.readDir root)).Yields (o.exec cfg t) E (fun x s' => s' = s ∧ Task.IsError x) s := by
      refine yields_inspect trivial (fun _ _ => ⟨rfl, _, rfl⟩) fun _ => ⟨rfl, s.disk.noDirectory root, ?_⟩
      simp only [Enumeration.answer, Disk.perform, List.contains_iff_mem, hroot, if_false, Except.map]
    refine Task.Yields.run_bind (p := ExceptT.mk _) hread ?_ ?_
    · rintro e s' ⟨rfl, _⟩
      exact ⟨rfl, e, rfl⟩
    · rintro names s' ⟨_, _, hx⟩
      cases hx

/-- A walk collects the served files, each once. -/
theorem collectDirs_served (htree : s.disk.Tree) (hroot : root ∈ s.disk.dirs) :
    (collectDirs manifestName s.disk.dirs.length [root] []).run.Yields (o.exec cfg t) E (fun x s' => s' = s ∧
      Obtains E (fun files => files.Nodup ∧ ∀ p, p ∈ files ↔ Served s.disk root manifestName p) x) s := by
  refine (collectDirs_yields htree hroot .start (Nat.le_add_right ..)).mono ?_
  rintro x s'' ⟨hs, ⟨files, hx, later, hw, hfiles⟩ | hx⟩
  · rw [List.append_nil] at hw
    have hdir : ∀ dir, dir ∈ later ↔ ∃ dirs, dir = root ++ dirs ∧ ".git".toList ∉ dirs ∧ dir ∈ s.disk.dirs := fun dir => by
      rw [← List.mem_reverse, hw.mem_iff]
      exact reaches_openDirs htree hroot
    have hnodup : later.Nodup := by simpa using hw.nodup
    have hsub : (later.flatMap fun dir => kept manifestName s.disk (o.entries s.disk dir)).Sublist
        (later.flatMap (o.entries s.disk)) := by
      simp only [kept]
      rw [← List.filter_flatMap]
      exact List.filter_sublist
    refine ⟨hs, .inl ⟨files, hx, ?_, fun p => ?_⟩⟩
    · rw [hfiles, List.nil_append]
      exact (o.nodup_entries htree hnodup).sublist hsub
    · rw [hfiles, List.nil_append, List.mem_flatMap]
      constructor
      · rintro ⟨dir, hd, hp⟩
        obtain ⟨hentry, hkept⟩ := List.mem_filter.1 hp
        obtain ⟨name, _, rfl⟩ := List.mem_map.1 hentry
        obtain ⟨dirs, rfl, hgit, _⟩ := (hdir dir).1 hd
        rw [List.getLast?_concat, Bool.and_eq_true, decide_eq_true_eq] at hkept
        exact ⟨dirs, name, rfl, hgit, fun h => hkept.2 (h ▸ rfl), hkept.1⟩
      · rintro ⟨dirs, name, rfl, hgit, hm, hf⟩
        have hparent : root ++ dirs ∈ s.disk.dirs := by simpa using htree.parent _ (by simp) (.inl hf)
        refine ⟨root ++ dirs, (hdir _).2 ⟨dirs, rfl, hgit, hparent⟩, List.mem_filter.2 ⟨List.mem_map.2 ⟨name, ?_, rfl⟩, ?_⟩⟩
        · exact (o.perm _ _).mem_iff.2 (Disk.mem_children.2 (.inl hf))
        · rw [List.getLast?_concat, hf, Bool.true_and, decide_eq_true_eq]
          exact fun h => hm (Option.some.inj h)
  · exact ⟨hs, .inr hx⟩

/-! ## Hashing -/

/-- Reading on from some offset gets the rest of the file. -/
theorem readFile_yields {file : Ino} {fuel : Nat} {bytes : Bytes} (hbytes : bytes <+: (s.disk.nodes file).data)
    (hfuel : (s.disk.nodes file).data.length < fuel + bytes.length) :
    (readFile file fuel bytes).run.Yields (o.exec cfg t) E (fun x s' => s' = s ∧
      Obtains E (fun y => y = (s.disk.nodes file).data) x) s := by
  induction fuel generalizing bytes with
  | zero =>
    have := hbytes.length_le
    omega
  | succ fuel ih =>
    obtain ⟨rest, hrest⟩ := hbytes
    have hread : (fs (.read file bytes.length hashReadBufferSize)).Yields (o.exec cfg t) E (fun x s' => s' = s ∧
        Obtains E (fun read => read <+: rest ∧ (read = [] → rest = [])) x) s := by
      refine yields_inspect trivial (fun _ h => ⟨rfl, .inr ⟨⟨_, rfl⟩, h⟩⟩) fun e => ⟨rfl, .inl ⟨_, rfl, ?_, fun hnil => ?_⟩⟩
      · rw [← hrest, List.drop_left]
        exact List.take_prefix ..
      · rw [← hrest, List.drop_left, List.take_eq_nil_iff] at hnil
        refine hnil.resolve_left fun hzero => ?_
        have hpos : 0 < min hashReadBufferSize (max 1 e.fs.chunk) := by
          simp only [hashReadBufferSize]
          omega
        omega
    refine obtains_bind hread fun read ⟨hpre, hend⟩ => ?_
    by_cases hnil : read = []
    · simp only [if_pos hnil]
      refine ⟨rfl, .inl ⟨_, rfl, ?_⟩⟩
      rw [← hrest, hend hnil, List.append_nil]
    · simp only [if_neg hnil]
      refine ih ?_ ?_
      · rw [← hrest]
        exact (List.prefix_append_right_inj bytes).2 hpre
      · have := List.length_pos_iff.2 hnil
        rw [List.length_append]
        omega

/-- Reading a file gives up at the first failure. -/
theorem readFile_givesUp {file : Ino} {fuel : Nat} {bytes : Bytes} :
    (readFile file fuel bytes).run.GivesUp (o.exec cfg t) Faults Task.IsError := by
  induction fuel generalizing bytes with
  | zero => exact trivial
  | succ fuel ih =>
    have hread : (fs (.read file bytes.length hashReadBufferSize)).GivesUp (o.exec cfg t) Faults Task.IsError :=
      givesUp_fs (.read file _ _) fun _ _ => ⟨_, rfl⟩
    refine .run_bind (p := ExceptT.mk _) hread fun read => ?_
    by_cases hnil : read = []
    · simp only [if_pos hnil]
      exact trivial
    · simp only [if_neg hnil]
      exact ih

/-- The contents of a file. -/
def contents (d : Disk) (p : Path) : Bytes :=
  ((d.file? p).map Node.data).getD []

/-- The line of a file in the manifest. -/
def lineOf (libs : Libs) (d : Disk) (root p : Path) : Str × Str :=
  (libs.sha256Hex (contents d p), manifestRelativePath root p)

/-- What the index records of a file. -/
def metadataOf (libs : Libs) (d : Disk) (p : Path) : ServeFileMetadata where
  path := p
  size := (contents d p).length
  mimeType := libs.mimeFromPath p
  extension := p.getLast?.bind Startup.pathExtension

/-- A file is described as it is. -/
theorem describe_yields {fuel : Nat} (hp : s.disk.hasFile p = true) (hfuel : (contents s.disk p).length < fuel) :
    (describe libs fuel root p).run.Yields (o.exec cfg t) E (fun x s' => s' = s ∧
      Obtains E (fun y => y = (lineOf libs s.disk root p, metadataOf libs s.disk p)) x) s := by
  obtain ⟨ino, hl⟩ := Option.isSome_iff_exists.1 hp
  have hnode : s.disk.file? p = some (s.disk.nodes ino) := by rw [Disk.file?, hl, Option.map_some]
  have hcontents : contents s.disk p = (s.disk.nodes ino).data := by
    rw [contents, hnode]
    rfl
  have hopen : (fs (.openFile p)).Yields (o.exec cfg t) E (fun x s' => s' = s ∧ Obtains E (fun file => file = ino) x) s := by
    refine yields_inspect trivial (fun _ h => ⟨rfl, .inr ⟨⟨_, rfl⟩, h⟩⟩) fun _ => ⟨rfl, .inl ⟨_, ?_, rfl⟩⟩
    simp only [Enumeration.answer, Disk.perform, hl]
  have hmetadata : (fs (.metadata p)).Yields (o.exec cfg t) E (fun x s' => s' = s ∧
      Obtains E (fun y => y = ((s.disk.nodes ino).data.length, (s.disk.nodes ino).modified)) x) s := by
    refine yields_inspect trivial (fun _ h => ⟨rfl, .inr ⟨⟨_, rfl⟩, h⟩⟩) fun _ => ⟨rfl, .inl ⟨_, ?_, rfl⟩⟩
    simp only [Enumeration.answer, Disk.perform, hnode]
  have hhash : (sha256File libs fuel p).run.Yields (o.exec cfg t) E (fun x s' => s' = s ∧
      Obtains E (fun y => y = libs.sha256Hex (contents s.disk p)) x) s := by
    refine obtains_bind hopen fun file hfile => ?_
    subst hfile
    refine obtains_bind (readFile_yields (List.nil_prefix) (hcontents ▸ hfuel)) fun bytes hbytes => ?_
    subst hbytes
    exact ⟨rfl, .inl ⟨_, rfl, congrArg libs.sha256Hex hcontents.symm⟩⟩
  refine obtains_bind hhash fun sha256 hsha => obtains_bind hmetadata fun y hy => ?_
  subst hsha hy
  refine ⟨rfl, .inl ⟨_, rfl, ?_⟩⟩
  rw [lineOf, metadataOf, hcontents]

/-- What the index records of some files, one after another. -/
def indexAll (libs : Libs) (d : Disk) (root : Path) (index : Index) (files : List Path) : Index :=
  files.foldl (fun index p => index.insert (lineOf libs d root p).1 (metadataOf libs d p)) index

/-- The files are described one after another. -/
theorem describeFiles_yields {fuel : Nat} {files : List Path} {entries : List (Str × Str)} {index : Index}
    (hfiles : ∀ p ∈ files, s.disk.hasFile p = true ∧ (contents s.disk p).length < fuel) :
    (describeFiles libs fuel root files entries index).run.Yields (o.exec cfg t) E (fun x s' => s' = s ∧
      Obtains E (fun y => y = (entries ++ files.map (lineOf libs s.disk root), indexAll libs s.disk root index files)) x) s := by
  induction files generalizing entries index with
  | nil => exact ⟨rfl, .inl ⟨_, rfl, by rw [List.map_nil, List.append_nil]; rfl⟩⟩
  | cons p files ih =>
    obtain ⟨hfirst, hrest⟩ := List.forall_mem_cons.1 hfiles
    refine obtains_bind (describe_yields hfirst.1 hfirst.2) fun y hy => ?_
    subst hy
    refine (ih hrest).mono fun x s' h => ?_
    rwa [List.append_assoc] at h

/-- Describing files gives up at the first failure. -/
theorem describeFiles_givesUp {fuel : Nat} {files : List Path} {entries : List (Str × Str)} {index : Index} :
    (describeFiles libs fuel root files entries index).run.GivesUp (o.exec cfg t) Faults Task.IsError := by
  induction files generalizing entries index with
  | nil => exact trivial
  | cons p files ih =>
    have hopen : (fs (.openFile p)).GivesUp (o.exec cfg t) Faults Task.IsError := givesUp_fs (.openFile p) fun _ _ => ⟨_, rfl⟩
    have hmetadata : (fs (.metadata p)).GivesUp (o.exec cfg t) Faults Task.IsError := givesUp_fs (.metadata p) fun _ _ => ⟨_, rfl⟩
    have hhash : (sha256File libs fuel p).run.GivesUp (o.exec cfg t) Faults Task.IsError :=
      .run_bind (p := ExceptT.mk _) hopen fun _ => .run_bind readFile_givesUp fun _ => trivial
    exact .run_bind (.run_bind hhash fun _ => .run_bind (p := ExceptT.mk _) hmetadata fun _ => trivial) fun _ => ih

/-- What the index has for a hash is of the last file that has the hash. -/
theorem lookup_indexAll (files : List Path) (index : Index) (sha256 : Str) :
    (indexAll libs d root index files).lookup sha256 =
      ((files.reverse.find? fun p => libs.sha256Hex (contents d p) = sha256).map (metadataOf libs d)).or (index.lookup sha256) := by
  induction files generalizing index with
  | nil => rfl
  | cons p files ih =>
    have hindex : indexAll libs d root index (p :: files) =
        indexAll libs d root (index.insert (libs.sha256Hex (contents d p)) (metadataOf libs d p)) files := rfl
    rw [hindex, ih, List.reverse_cons, List.find?_append, Option.map_or, Option.or_assoc]
    by_cases hsha : libs.sha256Hex (contents d p) = sha256
    · subst hsha
      simp
    · rw [AList.lookup_insert_ne (Ne.symm hsha)]
      simp [hsha]

/-! ## The walk and the reads -/

/-- The walk and the reads of a refresh. -/
def gather (libs : Libs) (fuel : Nat) (root : Path) (manifestName : Str) : AsyncIo (List (Str × Str) × Index) := do
  let files ← collectFiles root manifestName
  describeFiles libs fuel root files [] ∅

/-- Some decision from the `m`-th to the one before the `n`-th makes a file operation fail. -/
def Failed (env : Nat → Env) (m n : Nat) : Prop :=
  ∃ i, m ≤ i ∧ i < n ∧ Faults (env i)

/-- The decisions that a task uses are faulty. -/
theorem faulty_used {p : Async α} {env : Nat → Env} {n : Nat} :
    Faulty (p.Used (o.exec cfg t) env n s) ↔ Failed env n (p.alone (o.exec cfg t) env n s).2.1 := by
  constructor
  · rintro ⟨_, ⟨i, hi, hlt, rfl⟩, hfault⟩
    exact ⟨i, hi, hlt, hfault⟩
  · rintro ⟨i, hi, hlt, hfault⟩
    exact ⟨env i, ⟨i, hi, hlt, rfl⟩, hfault⟩

/-- The walk is bounded by the number of the directories, whatever the outside says. -/
theorem collectFiles_alone (env : Nat → Env) :
    (collectFiles root manifestName).run.alone (o.exec cfg t) env 0 s =
      (collectDirs manifestName s.disk.dirs.length [root] []).run.alone (o.exec cfg t) env 1 s := by
  have hcount : (fs .dirCount).Yields (o.exec cfg t) (fun _ => True) (fun n s' => s' = s ∧ n = s.disk.dirs.length) s :=
    yields_inspect trivial (fun _ _ => ⟨rfl, rfl⟩) fun _ => ⟨rfl, rfl⟩
  have halone : ((fs .dirCount).alone (o.exec cfg t) env 0 s).2.2 = s ∧
      ((fs .dirCount).alone (o.exec cfg t) env 0 s).1 = s.disk.dirs.length := hcount.alone (fun _ => trivial) 0
  rw [collectFiles, Task.run_lift_bind, Task.alone_bind, halone.1, halone.2]
  rfl

/-- What the walk collects. -/
theorem collectFiles_collects (htree : s.disk.Tree) (hroot : root ∈ s.disk.dirs) (env : Nat → Env) :
    ((collectFiles root manifestName).run.alone (o.exec cfg t) env 0 s).2.2 = s ∧
      Obtains (fun _ => True) (fun files => files.Nodup ∧ ∀ p, p ∈ files ↔ Served s.disk root manifestName p)
        ((collectFiles root manifestName).run.alone (o.exec cfg t) env 0 s).1 := by
  rw [collectFiles_alone]
  exact (collectDirs_served htree hroot).alone (fun _ => trivial) 1

/-- What the reads describe. -/
theorem describeFiles_describes {fuel n : Nat} {env : Nat → Env} {files : List Path} {y : List (Str × Str) × Index}
    (hfiles : ∀ p ∈ files, s.disk.hasFile p = true ∧ (contents s.disk p).length < fuel)
    (hy : ((describeFiles libs fuel root files [] ∅).run.alone (o.exec cfg t) env n s).1 = .ok y) :
    y = (files.map (lineOf libs s.disk root), indexAll libs s.disk root ∅ files) := by
  obtain ⟨_, ⟨y', hy', rfl⟩ | ⟨⟨e, he⟩, _⟩⟩ := Task.alone_used _ env n (describeFiles_yields hfiles)
  · exact Except.ok.inj (hy.symm.trans hy')
  · nomatch he.symm.trans hy

/-- The walk and the reads, from the bound of the walk on. -/
def survey (libs : Libs) (fuel : Nat) (root : Path) (manifestName : Str) (bound : Nat) : AsyncIo (List (Str × Str) × Index) := do
  let files ← collectDirs manifestName bound [root] []
  describeFiles libs fuel root files [] ∅

/-- The walk and the reads are the bound and what follows it. -/
theorem gather_alone (env : Nat → Env) {fuel : Nat} :
    (gather libs fuel root manifestName).run.alone (o.exec cfg t) env 0 s =
      (survey libs fuel root manifestName s.disk.dirs.length).run.alone (o.exec cfg t) env 1 s := by
  rw [gather, Task.alone_run_bind, collectFiles_alone, survey, Task.alone_run_bind]

/-- The walk and the reads give up at the first failure. -/
theorem survey_givesUp {fuel bound : Nat} :
    (survey libs fuel root manifestName bound).run.GivesUp (o.exec cfg t) Faults Task.IsError :=
  .run_bind collectDirs_givesUp fun _ => describeFiles_givesUp

/-- The walk and the reads change nothing, and fail only when an operation fails or the root is no directory. -/
theorem survey_yields (htree : s.disk.Tree) {fuel : Nat}
    (hfuel : ∀ p, Served s.disk root manifestName p → (contents s.disk p).length < fuel) :
    (survey libs fuel root manifestName s.disk.dirs.length).run.Yields (o.exec cfg t) E (fun x s' => s' = s ∧
      (root ∉ s.disk.dirs → Task.IsError x) ∧ (Task.IsError x → root ∉ s.disk.dirs ∨ Faulty E)) s := by
  by_cases hroot : root ∈ s.disk.dirs
  · have hsurvey : (survey libs fuel root manifestName s.disk.dirs.length).run.Yields (o.exec cfg t) E (fun x s' => s' = s ∧
        Obtains E (fun _ => True) x) s := by
      refine obtains_bind (collectDirs_served htree hroot) fun files ⟨_, hfiles⟩ => ?_
      refine (describeFiles_yields fun p hp => ?_).mono fun x s' ⟨hs, hx⟩ => ⟨hs, hx.imp_left fun ⟨y, hy, _⟩ => ⟨y, hy, trivial⟩⟩
      have hserved := (hfiles p).1 hp
      obtain ⟨_, _, _, _, _, hf⟩ := id hserved
      exact ⟨hf, hfuel p hserved⟩
    refine hsurvey.mono fun x s' ⟨hs, hx⟩ => ⟨hs, fun hno => absurd hroot hno, fun ⟨e, he⟩ => .inr ?_⟩
    rcases hx with ⟨y, hy, _⟩ | ⟨_, hfault⟩
    · nomatch he.symm.trans hy
    · exact hfault
  · refine Task.Yields.run_bind (collectDirs_fails hroot) ?_ ?_
    · rintro e s' ⟨rfl, _⟩
      exact ⟨rfl, fun _ => ⟨e, rfl⟩, fun _ => .inl hroot⟩
    · rintro files s' ⟨_, _, he⟩
      nomatch he

/-- The walk and the reads change nothing. -/
theorem gather_reads (htree : s.disk.Tree) {fuel : Nat} (env : Nat → Env)
    (hfuel : ∀ p, Served s.disk root manifestName p → (contents s.disk p).length < fuel) :
    ((gather libs fuel root manifestName).run.alone (o.exec cfg t) env 0 s).2.2 = s := by
  rw [gather_alone]
  exact (Task.alone_used _ env 1 (survey_yields htree hfuel)).1

/-- The walk and the reads fail exactly when one of their operations does or the root is no directory. -/
theorem gather_fails_iff (htree : s.disk.Tree) {fuel : Nat} (env : Nat → Env)
    (hfuel : ∀ p, Served s.disk root manifestName p → (contents s.disk p).length < fuel) :
    Task.IsError ((gather libs fuel root manifestName).run.alone (o.exec cfg t) env 0 s).1 ↔
      root ∉ s.disk.dirs ∨ Failed env 1 ((gather libs fuel root manifestName).run.alone (o.exec cfg t) env 0 s).2.1 := by
  rw [gather_alone]
  obtain ⟨_, hroot, hwhy⟩ := Task.alone_used (survey libs fuel root manifestName s.disk.dirs.length).run env 1 (survey_yields htree hfuel)
  constructor
  · exact fun he => (hwhy he).imp_right faulty_used.1
  · rintro (hno | hfailed)
    · exact hroot hno
    · obtain ⟨e, he, hfault⟩ := faulty_used.2 hfailed
      exact survey_givesUp.alone ⟨e, he, hfault⟩

/-- What the walk and the reads get: a line and an entry of each file that the walk has collected. -/
theorem gather_gets (htree : s.disk.Tree) {fuel : Nat} (env : Nat → Env)
    (hfuel : ∀ p, Served s.disk root manifestName p → (contents s.disk p).length < fuel) {y : List (Str × Str) × Index}
    (hy : ((gather libs fuel root manifestName).run.alone (o.exec cfg t) env 0 s).1 = .ok y) :
    ∃ files, ((collectFiles root manifestName).run.alone (o.exec cfg t) env 0 s).1 = .ok files ∧ files.Nodup ∧
      (∀ p, p ∈ files ↔ Served s.disk root manifestName p) ∧
      y = (files.map (lineOf libs s.disk root), indexAll libs s.disk root ∅ files) := by
  have hroot : root ∈ s.disk.dirs := by
    by_contra hno
    obtain ⟨e, he⟩ := (gather_fails_iff htree env hfuel).2 (.inl hno)
    nomatch he.symm.trans hy
  rw [gather, Task.alone_run_bind] at hy
  have hread : _ ∧ Obtains _ _ ((collectFiles root manifestName).run.alone (o.exec cfg t) env 0 s).1 :=
    collectFiles_collects htree hroot env
  generalize (collectFiles root manifestName).run.alone (o.exec cfg t) env 0 s = collected at hy hread
  obtain ⟨x, n, s'⟩ := collected
  obtain ⟨rfl, ⟨files, rfl, hnodup, hserved⟩ | ⟨⟨e, rfl⟩, _⟩⟩ := hread
  swap
  · nomatch hy
  refine ⟨files, rfl, hnodup, hserved, ?_⟩
  refine describeFiles_describes (fun p hp => ?_) hy
  have hp' := (hserved p).1 hp
  obtain ⟨_, _, _, _, _, hf⟩ := id hp'
  exact ⟨hf, hfuel p hp'⟩

/-! ## The manifest -/

/-- The bytes of a manifest. -/
def manifestBytes (entries : List (Str × Str)) : Bytes :=
  entries.flatMap fun entry => Errors.utf8 (manifestLine entry)

/-- Whether a file can be created, or written anew. -/
def Creatable (d : Disk) (p : Path) : Prop :=
  p ∉ d.dirs ∧ d.parentExists p = true

/-- A disk on which only one file may have changed. -/
structure Spares (p : Path) (d d' : Disk) : Prop where
  sane : d'.Sane
  dirs : d'.dirs = d.dirs
  files : ∀ q, q ≠ p → d'.file? q = d.file? q

/-- A file that was written. -/
def Holds (d : Disk) (p : Path) (bytes : Bytes) : Prop :=
  (d.file? p).map Node.data = some bytes

/-- Changes of one file, one after another. -/
theorem Spares.trans {d' d'' : Disk} (h : Spares p d d') (h' : Spares p d' d'') : Spares p d d'' where
  sane := h'.sane
  dirs := h'.dirs.trans h.dirs
  files q hq := (h'.files q hq).trans (h.files q hq)

/-- The contents of a file change. -/
theorem spares_setNode (h : d.Sane) {ino : Ino} (hl : d.names.lookup p = some ino) (node : Node) : Spares p d (d.setNode ino node) where
  sane := h.of_names rfl rfl
  dirs := rfl
  files q hq := by
    cases hlq : d.names.lookup q with
    | none => simp only [Disk.file?, Disk.setNode, hlq, Option.map_none]
    | some i =>
      have hne : i ≠ ino := by
        rintro rfl
        exact hq (h.distinct q p i hlq hl)
      simp only [Disk.file?, Disk.setNode, hlq, Option.map_some, Function.update_of_ne hne]

/-- A file is created. -/
theorem spares_create (h : d.Sane) (now : Nat) : Spares p d (d.create p now) where
  sane := h.create p now
  dirs := rfl
  files q hq := by
    have hlookup : (d.create p now).names.lookup q = d.names.lookup q := AList.lookup_insert_ne hq
    rw [Disk.file?, Disk.file?, hlookup]
    cases hlq : d.names.lookup q with
    | none => rfl
    | some i =>
      have hne : i ≠ d.nextIno := (h.fresh q i hlq).ne
      simp only [Option.map_some, Disk.create, Function.update_of_ne hne]

/-- Writing the lines appends them to the file, unless some operation fails. -/
theorem writeLines_yields {ino : Ino} {entries : List (Str × Str)} :
    (writeLines ino entries).run.Yields (o.exec cfg t) E (fun x s' => ∃ node, s'.disk = s.disk.setNode ino node ∧
      (x = .ok () ∧ node.data = (s.disk.nodes ino).data ++ manifestBytes entries ∨ (∃ e, x = .error e) ∧ Faulty E)) s := by
  have hsame : ∀ d : Disk, d = d.setNode ino (d.nodes ino) := fun d => by rw [Disk.setNode, Function.update_eq_self]
  induction entries generalizing s with
  | nil => exact ⟨s.disk.nodes ino, hsame s.disk, .inl ⟨rfl, (List.append_nil _).symm⟩⟩
  | cons entry entries ih =>
    have hwrite : (fs (.writeAll ino (Errors.utf8 (manifestLine entry)))).Yields (o.exec cfg t) E (fun x s' => ∃ node,
        s'.disk = s.disk.setNode ino node ∧ (x = .ok () ∧ node.data = (s.disk.nodes ino).data ++ Errors.utf8 (manifestLine entry) ∨
          (∃ e, x = .error e) ∧ Faulty E)) s := by
      intro e he
      simp only [Enumeration.exec, exec, Enumeration.answer, Disk.exec]
      cases hf : e.fs.fault with
      | none => exact ⟨_, rfl, .inl ⟨rfl, rfl⟩⟩
      | some message => exact ⟨_, hsame s.disk, .inr ⟨⟨_, rfl⟩, e, he, fun h => by cases hf.symm.trans h⟩⟩
    refine Task.Yields.run_bind (p := ExceptT.mk _) hwrite ?_ ?_
    · rintro error s' ⟨node, hd, ⟨hx, _⟩ | ⟨_, hfault⟩⟩
      · cases hx
      · exact ⟨node, hd, .inr ⟨⟨error, rfl⟩, hfault⟩⟩
    · rintro _ s' ⟨node, hd, hx⟩
      refine ih.mono ?_
      rintro x s'' ⟨node', hd', hx'⟩
      refine ⟨node', ?_, ?_⟩
      · rw [hd', hd]
        simp only [Disk.setNode, Function.update_idem]
      · rcases hx' with ⟨rfl, hdata⟩ | hx'
        · refine .inl ⟨rfl, ?_⟩
          rcases hx with ⟨_, hfirst⟩ | ⟨⟨_, hno⟩, _⟩
          · rw [hdata, hd]
            simp only [Disk.setNode, Function.update_self, hfirst, manifestBytes, List.flatMap_cons, List.append_assoc]
          · cases hno
        · exact .inr hx'

/-- Writing a manifest changes at most its file. Where the file can be created it holds the lines, unless some operation fails; where
it cannot, nothing changes. -/
theorem writeManifest_yields (hsane : s.disk.Sane) {entries : List (Str × Str)} :
    (writeManifest p entries).run.Yields (o.exec cfg t) E (fun x s' => Spares p s.disk s'.disk ∧
      (x = .ok () ∧ Creatable s.disk p ∧ Holds s'.disk p (manifestBytes entries) ∨
        (∃ e, x = .error e) ∧ (Faulty E ∨ ¬ Creatable s.disk p ∧ s'.disk = s.disk))) s := by
  have hrefl : Spares p s.disk s.disk := ⟨hsane, rfl, fun _ _ => rfl⟩
  -- What creating the file leads to: an empty file under some inode, or an error that changes nothing.
  have hcreate : (fs (.createFile p)).Yields (o.exec cfg t) E (fun x s' =>
      (∃ ino, x = .ok ino ∧ Creatable s.disk p ∧ Spares p s.disk s'.disk ∧ s'.disk.names.lookup p = some ino ∧
        (s'.disk.nodes ino).data = []) ∨
      (∃ e, x = .error e) ∧ s'.disk = s.disk ∧ (Faulty E ∨ ¬ Creatable s.disk p)) s := by
    intro e he
    simp only [Enumeration.exec, exec, Enumeration.answer, Disk.exec]
    cases hf : e.fs.fault with
    | some message => exact .inr ⟨⟨_, rfl⟩, rfl, .inl ⟨e, he, fun h => by cases hf.symm.trans h⟩⟩
    | none =>
      simp only [Disk.perform]
      split
      · rename_i hd
        exact .inr ⟨⟨_, rfl⟩, rfl, .inr fun h => h.1 (List.contains_iff_mem.1 hd)⟩
      · rename_i hd
        split
        · rename_i hparent
          have hcreatable : Creatable s.disk p := ⟨fun h => hd (List.contains_iff_mem.2 h), hparent⟩
          cases hl : s.disk.names.lookup p with
          | some ino =>
            refine .inl ⟨ino, rfl, hcreatable, spares_setNode hsane hl _, hl, ?_⟩
            simp only [Disk.setNode, Function.update_self]
          | none =>
            refine .inl ⟨s.disk.nextIno, rfl, hcreatable, spares_create hsane _, AList.lookup_insert _, ?_⟩
            simp only [Disk.create, Function.update_self]
        · rename_i hparent
          exact .inr ⟨⟨_, rfl⟩, rfl, .inr fun h => hparent h.2⟩
  refine Task.Yields.run_bind (p := ExceptT.mk _) hcreate ?_ ?_
  · rintro error s' (⟨_, hx, _⟩ | ⟨_, hd, hwhy⟩)
    · cases hx
    · refine ⟨hd ▸ hrefl, .inr ⟨⟨error, rfl⟩, ?_⟩⟩
      exact hwhy.imp_right fun hno => ⟨hno, hd⟩
  · rintro ino s' (⟨_, hx, hcreatable, hspares, hl, hempty⟩ | ⟨⟨_, hx⟩, _⟩)
    · cases hx
      have hbody : (do
          writeLines ino entries
          ExceptT.mk (fs (.syncAll ino)) : AsyncIo Unit).run.Yields (o.exec cfg t) E (fun x s'' => ∃ node,
            s''.disk = s'.disk.setNode ino node ∧
              (x = .ok () ∧ node.data = manifestBytes entries ∨ (∃ e, x = .error e) ∧ Faulty E)) s' := by
        refine Task.Yields.run_bind writeLines_yields ?_ ?_
        · rintro error s'' ⟨node, hd, ⟨hx, _⟩ | hx⟩
          · cases hx
          · exact ⟨node, hd, .inr ⟨⟨error, rfl⟩, hx.2⟩⟩
        · rintro _ s'' ⟨node, hd, ⟨_, hdata⟩ | ⟨⟨_, hx⟩, _⟩⟩
          · intro e he
            have hdisk : (o.exec cfg t (.fs (.syncAll ino)) e s'').2.disk = s''.disk := by
              simp only [Enumeration.exec, exec, Disk.exec]
              split <;> rfl
            refine ⟨node, hdisk.trans hd, ?_⟩
            simp only [Enumeration.exec, exec, Enumeration.answer, Disk.exec]
            cases hf : e.fs.fault with
            | none => exact .inl ⟨rfl, by rw [hdata, hempty, List.nil_append]⟩
            | some message => exact .inr ⟨⟨_, rfl⟩, e, he, fun h => by cases hf.symm.trans h⟩
          · cases hx
      refine Task.Yields.lift_bind (p := ExceptT.run _) hbody ?_
      rintro written s'' ⟨node, hd, hwritten⟩ e he
      have hlast : Spares p s.disk s''.disk := hd ▸ hspares.trans (spares_setNode hspares.sane hl node)
      refine ⟨hlast, ?_⟩
      rcases hwritten with ⟨rfl, hdata⟩ | ⟨⟨error, rfl⟩, hfault⟩
      · refine .inl ⟨rfl, hcreatable, ?_⟩
        show (s''.disk.file? p).map Node.data = _
        rw [hd]
        simp only [Disk.file?, Disk.setNode, hl, Option.map_some, Function.update_self, hdata]
      · exact .inr ⟨⟨error, rfl⟩, .inl hfault⟩
    · cases hx

/-- A fallible task whose result is inspected. -/
theorem yields_attemptIo_bind {p : AsyncIo α} {f : Except IoError α → AsyncIo β} {Q : Except IoError α → AppState → Prop}
    {Q' : Except IoError β → AppState → Prop} (hp : p.run.Yields (o.exec cfg t) E Q s)
    (hf : ∀ x s, Q x s → (f x).run.Yields (o.exec cfg t) E Q' s) : (attemptIo p >>= f).run.Yields (o.exec cfg t) E Q' s :=
  Task.Yields.lift_bind (p := p.run) hp hf

end

end Almond.ServeFiles
