import Almond.Data.Walks
import Almond.Lemmas.DisksAux
import Almond.Lemmas.Footprints
import Almond.Lemmas.ReconstructionAux
import Almond.Scanning
import Almond.Upkeep

/-! # The startup scan finds every blob file

A walk below a root visits every directory there once, whatever the order of the entries. What it builds is what its files give, one
after another. -/

namespace Almond

open Conc FileStorage Startup Walks

namespace Disk

variable {d : Disk} {layout : StorageLayout} {dir root : Path}

/-- The directories directly below a directory. -/
def subdirs (d : Disk) (dir : Path) : List Path :=
  ((d.children dir).map (dir ++ [·])).filter (· ∈ d.dirs)

/-- What is directly below a directory. -/
theorem mem_subdirs {p : Path} : p ∈ d.subdirs dir ↔ p ∈ d.dirs ∧ p ≠ [] ∧ p.dropLast = dir := by
  simp only [subdirs, List.mem_filter, List.mem_map, decide_eq_true_eq, mem_children]
  constructor
  · rintro ⟨⟨name, _, rfl⟩, hd⟩
    exact ⟨hd, by simp, List.dropLast_concat⟩
  · rintro ⟨hd, hne, rfl⟩
    have hp : p.dropLast ++ [p.getLast hne] = p := List.dropLast_append_getLast hne
    exact ⟨⟨p.getLast hne, .inr (hp.symm ▸ hd), hp⟩, hd⟩

namespace Tree

/-- A directory lists a name once. -/
theorem nodup_children (h : d.Tree) (dir : Path) : (d.children dir).Nodup := by
  have hall : (d.names.keys ++ d.dirs).Nodup := by
    refine List.nodup_append'.2 ⟨d.names.keys_nodup, h.nodup, fun p hp hd => ?_⟩
    have hfile : d.hasFile p = true := AList.lookup_isSome.2 (AList.mem_keys.1 hp)
    rw [h.apart p hd] at hfile
    nomatch hfile
  refine List.pairwise_filterMap.2 ((hall.filter _).imp_of_mem fun {p q} hp hq hne name hpn name' hqn => ?_)
  rintro rfl
  simp only [List.mem_filter, childOf, Bool.and_eq_true, decide_eq_true_eq] at hp hq
  refine hne ?_
  rw [← List.dropLast_append_getLast? name hpn, ← List.dropLast_append_getLast? name hqn, hp.2.2, hq.2.2]

/-- A directory and what it can reach. -/
theorem reaches_iff (h : d.Tree) (hroot : root ∈ d.dirs) {p : Path} :
    Walks.Reaches d.subdirs root p ↔ root <+: p ∧ p ∈ d.dirs := by
  constructor
  · intro hp
    induction hp with
    | refl => exact ⟨List.prefix_rfl, hroot⟩
    | tail _ hc ih =>
      obtain ⟨hd, _, hdir⟩ := mem_subdirs.1 hc
      exact ⟨ih.1.trans (hdir ▸ List.dropLast_prefix _), hd⟩
  · rintro ⟨⟨rest, rfl⟩, hd⟩
    induction rest using List.reverseRecOn with
    | nil =>
      rw [List.append_nil]
      exact .refl
    | append_singleton rest name ih =>
      rw [← List.append_assoc] at hd ⊢
      have hparent : root ++ rest ∈ d.dirs := by simpa using h.parent _ (by simp) (.inr hd)
      exact (ih hparent).tail (mem_subdirs.2 ⟨hd, by simp, List.dropLast_concat⟩)

/-- A directory has a subdirectory once. -/
theorem nodup_subdirs (h : d.Tree) (dir : Path) : (d.subdirs dir).Nodup :=
  ((h.nodup_children dir).map fun a b hab => by simpa using hab).filter _

/-- The directories below a directory form a tree. -/
theorem rooted (h : d.Tree) (hroot : root ∈ d.dirs) : Rooted d.subdirs root where
  nodup := h.nodup_subdirs
  parent v w x hv hw := (mem_subdirs.1 hv).2.2.symm.trans (mem_subdirs.1 hw).2.2
  root v hv hc := by
    obtain ⟨_, hne, rfl⟩ := mem_subdirs.1 hc
    have hle := ((h.reaches_iff hroot).1 hv).1.length_le
    have hpos : 0 < root.length := List.length_pos_iff.2 hne
    rw [List.length_dropLast] at hle
    omega

end Tree

end Disk

/-! ## What a scan has found -/

/-- What the index records of a blob file. -/
def Catalogues (libs : Libs) (d : Disk) (origin : BlobOrigin) (p : Path) (sha256 : Str) (m : FileMetadata) : Prop :=
  ∃ name parsed node, p.getLast? = some name ∧ BlobName.parse name = some parsed ∧ parsed.hash = sha256 ∧ d.file? p = some node ∧
    m = scannedMetadata libs origin p name parsed node.data.length node.modified

/-- What a scan records of a path. -/
def catalogued (libs : Libs) (d : Disk) (origin : BlobOrigin) (p : Path) : Option (Str × FileMetadata) := do
  let name ← p.getLast?
  let node ← d.file? p
  let parsed ← BlobName.parse name
  return (parsed.hash, scannedMetadata libs origin p name parsed node.data.length node.modified)

/-- A scan records the blob files. -/
theorem catalogued_eq_some {libs : Libs} {d : Disk} {origin : BlobOrigin} {p : Path} {sha256 : Str} {m : FileMetadata} :
    catalogued libs d origin p = some (sha256, m) ↔ Catalogues libs d origin p sha256 m := by
  simp only [catalogued, Option.bind_eq_bind, Option.bind_eq_some_iff, Option.pure_def, Option.some.injEq, Prod.mk.injEq]
  constructor
  · rintro ⟨name, hname, node, hnode, parsed, hparse, rfl, rfl⟩
    exact ⟨name, parsed, node, hname, hparse, rfl, hnode, rfl⟩
  · rintro ⟨name, parsed, node, hname, hparse, rfl, hnode, rfl⟩
    exact ⟨name, hname, node, hnode, parsed, hparse, rfl, rfl⟩

namespace Startup.Scan

variable {scan : Scan} {origin : BlobOrigin} {found : List (Str × FileMetadata)} {sha256 : Str} {m : FileMetadata}

/-- A scan with more files recorded, one after another. -/
def recordAll (scan : Scan) (origin : BlobOrigin) (found : List (Str × FileMetadata)) : Scan :=
  found.foldl (fun scan e => scan.record origin e.1 e.2) scan

/-- Some files after others. -/
theorem recordAll_append {found' : List (Str × FileMetadata)} :
    scan.recordAll origin (found ++ found') = (scan.recordAll origin found).recordAll origin found' :=
  List.foldl_append

/-- A hash that is not found keeps its entry. -/
theorem lookup_recordAll_of_not_mem (scan : Scan) (origin : BlobOrigin) (h : ∀ m, (sha256, m) ∉ found) :
    (scan.recordAll origin found).map.lookup sha256 = scan.map.lookup sha256 := by
  induction found generalizing scan with
  | nil => rfl
  | cons e found ih =>
    have hne : sha256 ≠ e.1 := fun he => h e.2 (he ▸ List.mem_cons_self)
    have hrest := ih (scan.record origin e.1 e.2) fun m hm => h m (List.mem_cons_of_mem e hm)
    exact hrest.trans (AList.lookup_insert_ne hne)

/-- A hash that is found has the entry of one of its files. -/
theorem lookup_recordAll_of_mem (scan : Scan) (origin : BlobOrigin) (h : (sha256, m) ∈ found) :
    ∃ m', (sha256, m') ∈ found ∧ (scan.recordAll origin found).map.lookup sha256 = some m' := by
  induction found generalizing scan m with
  | nil => nomatch h
  | cons e found ih =>
    by_cases hrest : ∃ m', (sha256, m') ∈ found
    · obtain ⟨m', hm'⟩ := hrest
      obtain ⟨m'', hmem, hl⟩ := ih (scan.record origin e.1 e.2) hm'
      exact ⟨m'', List.mem_cons_of_mem e hmem, hl⟩
    · rcases List.mem_cons.1 h with rfl | hm
      · refine ⟨m, List.mem_cons_self, ?_⟩
        have hl : (scan.record origin sha256 m).map.lookup sha256 = some m := AList.lookup_insert ..
        exact (lookup_recordAll_of_not_mem (scan.record origin sha256 m) origin fun m' hm' => hrest ⟨m', hm'⟩).trans hl
      · exact absurd ⟨m, hm⟩ hrest

/-- A cache copy displaces nothing. -/
theorem displaced_recordAll_cache (scan : Scan) : (scan.recordAll .upstreamCache found).displaced = scan.displaced := by
  induction found generalizing scan with
  | nil => rfl
  | cons e found ih =>
    refine (ih (scan.record .upstreamCache e.1 e.2)).trans ?_
    unfold record
    cases scan.map.lookup e.1 with
    | none => rfl
    | some previous => exact if_neg fun h => nomatch h.2

/-- Uploads displace the cache copies of their hashes. -/
theorem mem_displaced_recordAll (scan : Scan) (hfound : ∀ e ∈ found, e.2.origin = .upload) :
    m ∈ (scan.recordAll .upload found).displaced ↔
      m ∈ scan.displaced ∨ m.origin = .upstreamCache ∧ ∃ sha256 m', (sha256, m') ∈ found ∧ scan.map.lookup sha256 = some m := by
  induction found generalizing scan with
  | nil => exact ⟨.inl, fun h => h.resolve_right fun ⟨_, _, _, h, _⟩ => nomatch h⟩
  | cons e found ih =>
    obtain ⟨h₀, m₀⟩ := e
    have horigin : m₀.origin = .upload := hfound (h₀, m₀) List.mem_cons_self
    have hone : m ∈ (scan.record .upload h₀ m₀).displaced ↔
        m ∈ scan.displaced ∨ m.origin = .upstreamCache ∧ scan.map.lookup h₀ = some m := by
      unfold record
      cases hl : scan.map.lookup h₀ with
      | none => exact ⟨.inl, fun h => h.resolve_right fun h => nomatch h.2⟩
      | some previous =>
        by_cases hp : previous.origin = .upstreamCache
        · simp only [hp, and_self, if_true, List.mem_append, List.mem_singleton, Option.some.injEq]
          refine or_congr_right ⟨?_, fun h => h.2.symm⟩
          rintro rfl
          exact ⟨hp, rfl⟩
        · simp only [hp, false_and, if_false, Option.some.injEq]
          refine ⟨.inl, fun h => h.resolve_right ?_⟩
          rintro ⟨ho, rfl⟩
          exact hp ho
    have hlater : m.origin = .upstreamCache → ∀ sha256, (scan.record .upload h₀ m₀).map.lookup sha256 = some m ↔
        sha256 ≠ h₀ ∧ scan.map.lookup sha256 = some m := by
      intro ho sha256
      show (scan.map.insert h₀ m₀).lookup sha256 = some m ↔ _
      by_cases hs : sha256 = h₀
      · rw [hs, AList.lookup_insert]
        refine ⟨?_, fun h => absurd rfl h.1⟩
        rintro ⟨⟩
        exact nomatch ho.symm.trans horigin
      · rw [AList.lookup_insert_ne hs]
        exact ⟨fun h => ⟨hs, h⟩, And.right⟩
    refine (ih (scan.record .upload h₀ m₀) fun e he => hfound e (List.mem_cons_of_mem _ he)).trans ?_
    rw [hone]
    constructor
    · rintro ((h | ⟨ho, h⟩) | ⟨ho, sha256, m', hm', h⟩)
      · exact .inl h
      · exact .inr ⟨ho, h₀, m₀, List.mem_cons_self, h⟩
      · exact .inr ⟨ho, sha256, m', List.mem_cons_of_mem _ hm', ((hlater ho sha256).1 h).2⟩
    · rintro (h | ⟨ho, sha256, m', hm', h⟩)
      · exact .inl (.inl h)
      · by_cases hs : sha256 = h₀
        · exact .inl (.inr ⟨ho, hs ▸ h⟩)
        · refine .inr ⟨ho, sha256, m', (List.mem_cons.1 hm').resolve_left ?_, (hlater ho sha256).2 ⟨hs, h⟩⟩
          rintro ⟨⟩
          exact hs rfl

end Startup.Scan

/-- A path below the root of an origin. -/
def Below (layout : StorageLayout) (origin : BlobOrigin) (p : Path) : Prop :=
  p ≠ [] ∧ originRoot layout origin <+: p.dropLast

/-- The blob files below the root of an origin, in some order. -/
def Inventory (libs : Libs) (layout : StorageLayout) (d : Disk) (origin : BlobOrigin) (found : List (Str × FileMetadata)) : Prop :=
  ∃ files : List Path, files.Nodup ∧ (∀ p, p ∈ files → Below layout origin p) ∧
    (∀ p, Below layout origin p → d.hasFile p = true → p ∈ files) ∧ found = files.filterMap (catalogued libs d origin)

/-- A blob file is a file, and its directory is one. -/
theorem Catalogues.dropLast_mem {libs : Libs} {d : Disk} {origin : BlobOrigin} (h : d.Tree) {p : Path} {sha256 : Str}
    {m : FileMetadata} (hc : Catalogues libs d origin p sha256 m) : p ≠ [] ∧ d.hasFile p = true ∧ p.dropLast ∈ d.dirs := by
  obtain ⟨name, _, node, hname, _, _, hfile, _⟩ := hc
  have hne : p ≠ [] := by
    rintro rfl
    nomatch hname
  obtain ⟨ino, hl, _⟩ := Option.map_eq_some_iff.1 hfile
  have hf : d.hasFile p = true := by rw [Disk.hasFile, hl]; rfl
  exact ⟨hne, hf, h.parent p hne (.inl hf)⟩

/-- What an inventory lists. -/
theorem Inventory.mem_iff {libs : Libs} {layout : StorageLayout} {d : Disk} {origin : BlobOrigin}
    {found : List (Str × FileMetadata)} (htree : d.Tree) (h : Inventory libs layout d origin found) {sha256 : Str} {m : FileMetadata} :
    (sha256, m) ∈ found ↔ ∃ p, Below layout origin p ∧ Catalogues libs d origin p sha256 m := by
  obtain ⟨files, _, hbelow, hall, rfl⟩ := h
  rw [List.mem_filterMap]
  constructor
  · rintro ⟨p, hp, hc⟩
    exact ⟨p, hbelow p hp, catalogued_eq_some.1 hc⟩
  · rintro ⟨p, hp, hc⟩
    exact ⟨p, hall p hp (hc.dropLast_mem htree).2.1, catalogued_eq_some.2 hc⟩

/-! ## The scan -/

section

variable {cfg : Config} {t : Tid} {s : AppState} {libs : Libs} {layout : StorageLayout} {origin : BlobOrigin} {scan : Scan}
  {o : Enumeration} {E : Env → Prop}

/-- Some operation fails. -/
def Faulty (E : Env → Prop) : Prop :=
  ∃ e, E e ∧ e.fs.fault ≠ none

/-- Nothing that is calm fails. -/
theorem not_faulty_calm : ¬ Faulty Calm :=
  fun ⟨_, he, hf⟩ => hf he

/-- A result, unless some operation fails. -/
def Gives {α : Type} (E : Env → Prop) (Q : α → Prop) (x : AppResult α) : Prop :=
  (∃ a, x = .ok a ∧ Q a) ∨ (∃ e, x = .error e) ∧ Faulty E

/-- A file operation that reads, alone: it fails, or it reads the disk. -/
theorem yields_inspect {r : FsReq} {Q : r.Resp → AppState → Prop} (hr : (Req.fs r).inspects)
    (hfault : ∀ message, Faulty E → Q (o.answer (.fs r) (s.disk.faulted message r)) s)
    (hQ : ∀ e : Env, Q (o.answer (.fs r) (s.disk.perform e.fs s.clock.system r).1) s) : (fs r).Yields (o.exec cfg t) E Q s := by
  intro e he
  have hs : (o.exec cfg t (.fs r) e s).2 = s := @exec_of_inspects cfg t _ e s hr
  rw [hs]
  cases hf : e.fs.fault with
  | none =>
    have hx : s.disk.exec e.fs s.clock.system r = s.disk.perform e.fs s.clock.system r := by
      rw [Disk.exec, hf]
    simp only [Enumeration.exec, exec, hx]
    exact hQ e
  | some message =>
    have hx : s.disk.exec e.fs s.clock.system r = (s.disk.faulted message r, s.disk) := by
      rw [Disk.exec, hf]
    simp only [Enumeration.exec, exec, hx]
    exact hfault message ⟨e, he, fun h => by cases hf.symm.trans h⟩

/-- The entries of a directory, in order. -/
def Enumeration.entries (o : Enumeration) (d : Disk) (dir : Path) : List Path :=
  (o.order dir (d.children dir)).map (dir ++ [·])

/-- The directories directly below a directory, in order. -/
def Enumeration.subdirs (o : Enumeration) (d : Disk) (dir : Path) : List Path :=
  (o.entries d dir).filter (· ∈ d.dirs)

/-- The order of the entries does not change which directories there are. -/
theorem Enumeration.subdirs_perm (o : Enumeration) (d : Disk) (dir : Path) : (o.subdirs d dir).Perm (d.subdirs dir) :=
  ((o.perm dir (d.children dir)).map _).filter _

/-- The scan of one directory records its blob files, one after another. -/
theorem scanEntries_yields (htree : s.disk.Tree) {dir : Path} {names : List Str} (hnames : ∀ name ∈ names, name ∈ s.disk.children dir)
    (directories : List Path) :
    (scanEntries libs origin dir names directories scan).run.Yields (o.exec cfg t) E (fun x s' => s' = s ∧
      Gives E (fun y => y = (((names.map (dir ++ [·])).filter (· ∈ s.disk.dirs)).reverse ++ directories,
        scan.recordAll origin ((names.map (dir ++ [·])).filterMap (catalogued libs s.disk origin)))) x) s := by
  have hfail : ∀ {α : Type} {Q : α → Prop} (e : AppError), Faulty E → s = s ∧ Gives E Q (.error e : AppResult α) :=
    fun e h => ⟨rfl, .inr ⟨⟨e, rfl⟩, h⟩⟩
  induction names generalizing directories scan with
  | nil =>
    refine yields_orErr_bind (yields_inspect trivial (fun _ h => hfail _ h) fun _ => ?_)
    exact ⟨rfl, .inl ⟨_, rfl, rfl⟩⟩
  | cons name names ih =>
    have hrest : ∀ n ∈ names, n ∈ s.disk.children dir := fun n hn => hnames n (List.mem_cons_of_mem _ hn)
    have hmem := Disk.mem_children.1 (hnames name List.mem_cons_self)
    refine yields_orErr_bind (yields_inspect trivial (fun _ h => hfail _ h) fun _ => ?_)
    refine yields_orErr_bind (yields_inspect trivial (fun _ h => hfail _ h) fun _ => ?_)
    by_cases hd : dir ++ [name] ∈ s.disk.dirs
    · -- A directory is pushed.
      have hnone : catalogued libs s.disk origin (dir ++ [name]) = none := by
        have hno := htree.apart _ hd
        have hfile : s.disk.file? (dir ++ [name]) = none := by
          simpa [Disk.file?, Disk.hasFile] using hno
        simp only [catalogued, hfile, Option.bind_eq_bind, Option.bind_none, Option.bind_fun_none]
      simp only [Enumeration.answer, Disk.perform, List.contains_iff_mem, hd, if_true, List.map_cons, List.filter_cons, decide_true,
        List.reverse_cons, List.append_assoc, List.singleton_append, List.filterMap_cons, hnone]
      exact ih hrest _
    · have hfile : s.disk.hasFile (dir ++ [name]) = true := hmem.resolve_right hd
      obtain ⟨ino, hl⟩ := Option.isSome_iff_exists.1 hfile
      have hnode : s.disk.file? (dir ++ [name]) = some (s.disk.nodes ino) := by rw [Disk.file?, hl, Option.map_some]
      simp only [Enumeration.answer, Disk.perform, List.contains_iff_mem, hd, if_false, hfile, if_true, List.map_cons,
        List.filter_cons, decide_false, Bool.false_eq_true, List.filterMap_cons]
      cases hp : BlobName.parse name with
      | none =>
        have hnone : catalogued libs s.disk origin (dir ++ [name]) = none := by
          simp only [catalogued, List.getLast?_concat, hnode, hp, Option.bind_eq_bind, Option.bind_some, Option.bind_none]
        simp only [hnone]
        exact ih hrest _
      | some parsed =>
        have hsome : catalogued libs s.disk origin (dir ++ [name]) = some (parsed.hash, scannedMetadata libs origin (dir ++ [name])
            name parsed (s.disk.nodes ino).data.length (s.disk.nodes ino).modified) := by
          simp only [catalogued, List.getLast?_concat, hnode, hp, Option.bind_eq_bind, Option.bind_some]
          rfl
        refine yields_orErr_bind (yields_inspect trivial (fun _ h => hfail _ h) fun _ => ?_)
        simp only [Enumeration.answer, Disk.perform, hnode, hsome]
        exact ih hrest _

/-- A walk that goes on from here visits some more directories, and records the blob files in them, one after another. -/
def Finds (o : Enumeration) (libs : Libs) (d : Disk) (origin : BlobOrigin) (root : Path) (visited : List Path)
    (scan scan' : Scan) : Prop :=
  ∃ later : List Path, Walk (o.subdirs d) root (later.reverse ++ visited) [] ∧
    scan' = scan.recordAll origin ((later.flatMap (o.entries d)).filterMap (catalogued libs d origin))

/-- The walk below a root records the blob files there, one after another. -/
theorem scanDirs_yields (htree : s.disk.Tree) {root : Path} (hroot : root ∈ s.disk.dirs) {fuel : Nat} {visited stack : List Path}
    (hwalk : Walk (o.subdirs s.disk) root visited stack) (hfuel : s.disk.dirs.length ≤ fuel + visited.length) :
    (scanDirs libs origin fuel stack scan).run.Yields (o.exec cfg t) E (fun x s' => s' = s ∧
      Gives E (Finds o libs s.disk origin root visited scan) x) s := by
  have hrooted : Rooted (o.subdirs s.disk) root := (htree.rooted hroot).of_perm (o.subdirs_perm s.disk)
  have hreach : ∀ {p}, Walks.Reaches (o.subdirs s.disk) root p ↔ root <+: p ∧ p ∈ s.disk.dirs :=
    (reaches_congr (o.subdirs_perm s.disk)).trans (htree.reaches_iff hroot)
  have hbound : ∀ {visited stack}, Walk (o.subdirs s.disk) root visited stack →
      visited.length + stack.length ≤ s.disk.dirs.length := fun h => h.length_le fun _ hx => (hreach.1 hx).2
  have hdone : ∀ {visited scan}, Walk (o.subdirs s.disk) root visited [] →
      s = s ∧ Gives E (Finds o libs s.disk origin root visited scan) (.ok scan) := fun h => ⟨rfl, .inl ⟨_, rfl, [], h, rfl⟩⟩
  induction fuel generalizing visited stack scan with
  | zero =>
    cases stack with
    | nil => exact hdone hwalk
    | cons dir stack =>
      have := hbound hwalk
      rw [List.length_cons] at this
      omega
  | succ fuel ih =>
    cases stack with
    | nil => exact hdone hwalk
    | cons dir stack =>
      obtain ⟨_, hmem⟩ := hreach.1 (hwalk.reaches dir (List.mem_append_right _ List.mem_cons_self))
      refine yields_orErr_bind (yields_inspect trivial (fun _ h => ⟨rfl, .inr ⟨⟨_, rfl⟩, h⟩⟩) fun _ => ?_)
      simp only [Enumeration.answer, Disk.perform, List.contains_iff_mem, hmem, if_true, Except.map]
      refine Task.Yields.run_bind (scanEntries_yields htree (fun _ hn => (o.perm dir _).mem_iff.1 hn) stack) ?_ ?_
      · rintro e s' ⟨rfl, ⟨_, he, _⟩ | ⟨_, hf⟩⟩
        · cases he
        · exact ⟨rfl, .inr ⟨⟨e, rfl⟩, hf⟩⟩
      · rintro ⟨directories, scan₁⟩ s' ⟨rfl, ⟨_, he, rfl⟩ | ⟨⟨_, he⟩, _⟩⟩
        · cases he
          refine (ih (hwalk.step hrooted) (by rw [List.length_cons]; omega)).mono ?_
          rintro x s'' ⟨hs, ⟨scan', hx, later, hw, rfl⟩ | hx⟩
          · refine ⟨hs, .inl ⟨_, hx, dir :: later, ?_, ?_⟩⟩
            · rw [List.reverse_cons, List.append_assoc]
              exact hw
            · rw [List.flatMap_cons, List.filterMap_append, Scan.recordAll_append]
              rfl
          · exact ⟨hs, .inr hx⟩
        · cases he

/-- The entries of different directories are different. -/
theorem Enumeration.nodup_entries (o : Enumeration) {d : Disk} (htree : d.Tree) {dirs : List Path} (hdirs : dirs.Nodup) :
    (dirs.flatMap (o.entries d)).Nodup := by
  refine List.nodup_flatMap.2 ⟨fun dir _ => ?_, hdirs.imp fun {dir dir'} hne p hp hp' => ?_⟩
  · exact ((o.perm dir _).nodup_iff.2 (htree.nodup_children dir)).map fun a b hab => by simpa using hab
  · obtain ⟨name, _, rfl⟩ := List.mem_map.1 hp
    obtain ⟨name', _, he⟩ := List.mem_map.1 hp'
    refine hne ?_
    have := congrArg List.dropLast he
    rw [List.dropLast_concat, List.dropLast_concat] at this
    exact this.symm

/-- The scan of a root records the blob files below it, each once. -/
theorem scanBlobRoot_yields (htree : s.disk.Tree) (hroot : originRoot layout origin ∈ s.disk.dirs) :
    (scanBlobRoot libs (originRoot layout origin) origin scan).run.Yields (o.exec cfg t) E (fun x s' => s' = s ∧
      Gives E (fun scan' => ∃ found, Inventory libs layout s.disk origin found ∧ scan' = scan.recordAll origin found) x) s := by
  have hcount : (fs .dirCount).Yields (o.exec cfg t) E (fun n s' => s' = s ∧ n = s.disk.dirs.length) s :=
    yields_inspect trivial (fun _ _ => ⟨rfl, rfl⟩) fun _ => ⟨rfl, rfl⟩
  refine Task.Yields.lift_bind hcount ?_
  rintro _ s' ⟨rfl, rfl⟩
  refine (scanDirs_yields htree hroot .start (Nat.le_add_right ..)).mono ?_
  rintro x s'' ⟨hs, ⟨scan', hx, later, hw, rfl⟩ | hx⟩
  · rw [List.append_nil] at hw
    have hdir : ∀ dir, dir ∈ later ↔ originRoot layout origin <+: dir ∧ dir ∈ s'.disk.dirs := fun dir => by
      rw [← List.mem_reverse, hw.mem_iff]
      exact (reaches_congr (o.subdirs_perm s'.disk)).trans (htree.reaches_iff hroot)
    have hnodup : later.Nodup := by simpa using hw.nodup
    refine ⟨hs, .inl ⟨_, hx, _, ⟨_, o.nodup_entries htree hnodup, fun p hp => ?_, fun p hp hf => ?_, rfl⟩, rfl⟩⟩
    · obtain ⟨dir, hd, hp⟩ := List.mem_flatMap.1 hp
      obtain ⟨name, _, rfl⟩ := List.mem_map.1 hp
      exact ⟨by simp, by rw [List.dropLast_concat]; exact ((hdir dir).1 hd).1⟩
    · obtain ⟨hne, hb⟩ := hp
      have hsplit : p.dropLast ++ [p.getLast hne] = p := List.dropLast_append_getLast hne
      refine List.mem_flatMap.2 ⟨p.dropLast, (hdir _).2 ⟨hb, htree.parent p hne (.inl hf)⟩, List.mem_map.2 ⟨p.getLast hne, ?_, hsplit⟩⟩
      exact (o.perm _ _).mem_iff.2 (Disk.mem_children.2 (.inl (hsplit.symm ▸ hf)))
  · exact ⟨hs, .inr hx⟩

/-- The disk without the files of some entries. -/
def Disk.without (d : Disk) (copies : List FileMetadata) : Disk :=
  copies.foldl (fun d m => match m.location with
    | .localFile p => if d.hasFile p then d.unlink p else d
    | .s3 _ => d) d

/-- The files that are left. -/
theorem Disk.hasFile_without {d : Disk} {copies : List FileMetadata} {q : Path} :
    (d.without copies).hasFile q = true ↔ d.hasFile q = true ∧ ∀ m ∈ copies, m.location ≠ .localFile q := by
  induction copies generalizing d with
  | nil => exact ⟨fun h => ⟨h, fun _ hm => by cases hm⟩, And.left⟩
  | cons copy copies ih =>
    rw [List.forall_mem_cons]
    cases hl : copy.location with
    | s3 key =>
      have hd : d.without (copy :: copies) = d.without copies := by simp only [Disk.without, List.foldl_cons, hl]
      rw [hd, ih]
      exact and_congr_right fun _ => (and_iff_right (fun h => by cases h)).symm
    | localFile p =>
      have hd : d.without (copy :: copies) = (if d.hasFile p then d.unlink p else d).without copies := by
        simp only [Disk.without, List.foldl_cons, hl]
      have hone : (if d.hasFile p then d.unlink p else d).hasFile q = true ↔ d.hasFile q = true ∧ p ≠ q := by
        by_cases hq : p = q
        · subst hq
          refine iff_of_false ?_ fun h => h.2 rfl
          split
          · rw [hasFile, unlink, AList.lookup_erase]
            rintro ⟨⟩
          · assumption
        · rw [and_iff_left hq]
          split
          · rw [hasFile, hasFile, unlink, AList.lookup_erase_ne (Ne.symm hq)]
          · exact Iff.rfl
      rw [hd, ih, hone, and_assoc]
      exact and_congr_right fun _ => and_congr_left fun _ => not_congr ⟨fun h => h ▸ rfl, FileLocation.localFile.inj⟩

/-- The removal of cache duplicates touches only their files. -/
theorem removeDuplicates_yields (copies : List FileMetadata) :
    (removeDuplicates copies).Yields (o.exec cfg t) E (fun _ s' => s'.index = s.index ∧
      (¬ Faulty E → s' = { s with disk := s.disk.without copies })) s := by
  induction copies generalizing s with
  | nil => exact ⟨rfl, fun _ => rfl⟩
  | cons copy copies ih =>
    cases hl : copy.location with
    | s3 key =>
      have hd : s.disk.without (copy :: copies) = s.disk.without copies := by
        simp only [Disk.without, List.foldl_cons, hl]
      rw [hd, removeDuplicates, hl]
      exact ih
    | localFile p =>
      have hd : s.disk.without (copy :: copies) = (if s.disk.hasFile p then s.disk.unlink p else s.disk).without copies := by
        simp only [Disk.without, List.foldl_cons, hl]
      rw [hd, removeDuplicates, hl]
      refine Task.Yields.bind (Q := fun _ s' => s'.index = s.index ∧ (¬ Faulty E →
        s' = { s with disk := if s.disk.hasFile p then s.disk.unlink p else s.disk })) ?_ ?_
      · intro e he
        cases hf : e.fs.fault with
        | none =>
          refine ⟨rfl, fun _ => ?_⟩
          simp only [Enumeration.exec, exec, Disk.exec, hf, Disk.perform, writers]
          split <;> rfl
        | some message => exact ⟨rfl, fun h => absurd ⟨e, he, fun hn => by cases hf.symm.trans hn⟩ h⟩
      · rintro _ s' ⟨hi, hs⟩
        refine (ih (s := s')).mono fun _ s'' h => ⟨h.1.trans hi, fun hc => ?_⟩
        have hs' := hs hc
        have := h.2 hc
        rw [hs'] at this
        exact this

/-- What a new process has found. -/
def startupScan (cached uploads : List (Str × FileMetadata)) : Scan :=
  (Scan.empty.recordAll .upstreamCache cached).recordAll .upload uploads

/-- A new process records the blob files below the roots, the uploads last, and removes the cache copies that these displace. -/
theorem buildFileIndex_builds (cfg : Config) (t : Tid) (libs : Libs) (o : Enumeration) (E : Env → Prop) (htree : s.disk.Tree)
    (hroots : ∀ origin, originRoot layout origin ∈ s.disk.dirs) :
    (buildFileIndex libs layout).run.Yields (o.exec cfg t) E (fun x s' => (∃ e, x = .error e) ∧ Faulty E ∨
      x = .ok () ∧ ∃ cached uploads, Inventory libs layout s.disk .upstreamCache cached ∧
        Inventory libs layout s.disk .upload uploads ∧ s'.index = s.index.replace (startupScan cached uploads).map ∧
        (¬ Faulty E → s' = { s with
          index := s.index.replace (startupScan cached uploads).map, disk := s.disk.without (startupScan cached uploads).displaced })) s := by
  refine Task.Yields.run_bind (scanBlobRoot_yields htree (hroots .upstreamCache)) ?_ ?_
  · rintro e s' ⟨_, ⟨_, he, _⟩ | ⟨_, hf⟩⟩
    · nomatch he
    · exact .inl ⟨⟨e, rfl⟩, hf⟩
  rintro scan₁ s' ⟨rfl, ⟨_, he, cached, hcached, rfl⟩ | ⟨⟨_, he⟩, _⟩⟩
  · cases he
    have hclean : ({ Scan.empty.recordAll .upstreamCache cached with displaced := [] } : Scan) =
        Scan.empty.recordAll .upstreamCache cached := by
      have hd : (Scan.empty.recordAll .upstreamCache cached).displaced = [] := Scan.displaced_recordAll_cache _
      rw [← hd]
    rw [hclean]
    refine Task.Yields.run_bind (scanBlobRoot_yields htree (hroots .upload)) ?_ ?_
    · rintro e s' ⟨_, ⟨_, he, _⟩ | ⟨_, hf⟩⟩
      · nomatch he
      · exact .inl ⟨⟨e, rfl⟩, hf⟩
    rintro scan₂ s'' ⟨rfl, ⟨_, he, uploads, huploads, rfl⟩ | ⟨⟨_, he⟩, _⟩⟩
    · cases he
      have hreplace : (index (.replace (startupScan cached uploads).map)).Yields (o.exec cfg t) E
          (fun _ s₁ => s₁ = { s'' with index := s''.index.replace (startupScan cached uploads).map }) s'' := fun _ _ => rfl
      refine Task.Yields.lift_bind hreplace ?_
      rintro _ s₁ rfl
      have hlift : (liftM (removeDuplicates (startupScan cached uploads).displaced) : AsyncResult Unit).run =
          (removeDuplicates (startupScan cached uploads).displaced).bind fun _ => .ret (.ok ()) := rfl
      refine hlift ▸ Task.Yields.bind (removeDuplicates_yields _) fun _ _ h => ?_
      exact .inr ⟨rfl, cached, uploads, hcached, huploads, h.1, h.2⟩
    · nomatch he
  · nomatch he

end

/-! ## What a new process has found -/

section

variable {libs : Libs} {layout : StorageLayout} {d : Disk} {cached uploads : List (Str × FileMetadata)} {sha256 : Str}
  {m : FileMetadata}

/-- Some file below the root of an origin has a hash. -/
def HasBlob (libs : Libs) (layout : StorageLayout) (d : Disk) (origin : BlobOrigin) (sha256 : Str) : Prop :=
  ∃ p m, Below layout origin p ∧ Catalogues libs d origin p sha256 m

/-- What is recorded of a file has the origin of its root. -/
theorem Catalogues.origin_eq {origin : BlobOrigin} {p : Path} (h : Catalogues libs d origin p sha256 m) : m.origin = origin := by
  obtain ⟨_, _, _, _, _, _, _, rfl⟩ := h
  rfl

/-- What is recorded of a file leads to it. -/
theorem Catalogues.location_eq {origin : BlobOrigin} {p : Path} (h : Catalogues libs d origin p sha256 m) :
    m.location = .localFile p := by
  obtain ⟨_, _, _, _, _, _, _, rfl⟩ := h
  rfl

/-- The cache copies that were found. -/
theorem lookup_cached (htree : d.Tree) (hc : Inventory libs layout d .upstreamCache cached) (sha256 : Str) :
    (∃ p m, Below layout .upstreamCache p ∧ Catalogues libs d .upstreamCache p sha256 m ∧
      (Scan.empty.recordAll .upstreamCache cached).map.lookup sha256 = some m) ∨
    ¬ HasBlob libs layout d .upstreamCache sha256 ∧ (Scan.empty.recordAll .upstreamCache cached).map.lookup sha256 = none := by
  by_cases h : ∃ m, (sha256, m) ∈ cached
  · obtain ⟨m, hm⟩ := h
    obtain ⟨m', hm', hl⟩ := Scan.lookup_recordAll_of_mem .empty .upstreamCache hm
    obtain ⟨p, hp, hcat⟩ := (hc.mem_iff htree).1 hm'
    exact .inl ⟨p, m', hp, hcat, hl⟩
  · refine .inr ⟨fun ⟨p, m, hp, hcat⟩ => h ⟨m, (hc.mem_iff htree).2 ⟨p, hp, hcat⟩⟩, ?_⟩
    exact Scan.lookup_recordAll_of_not_mem _ _ fun m hm => h ⟨m, hm⟩

/-- An entry comes from an upload when there is one, and otherwise from a cache copy. -/
theorem lookup_startupScan (htree : d.Tree) (cached : List (Str × FileMetadata)) (hu : Inventory libs layout d .upload uploads)
    (sha256 : Str) :
    (∃ p m, Below layout .upload p ∧ Catalogues libs d .upload p sha256 m ∧
      (startupScan cached uploads).map.lookup sha256 = some m) ∨
    ¬ HasBlob libs layout d .upload sha256 ∧
      (startupScan cached uploads).map.lookup sha256 = (Scan.empty.recordAll .upstreamCache cached).map.lookup sha256 := by
  by_cases h : ∃ m, (sha256, m) ∈ uploads
  · obtain ⟨m, hm⟩ := h
    obtain ⟨m', hm', hl⟩ := Scan.lookup_recordAll_of_mem (Scan.empty.recordAll .upstreamCache cached) .upload hm
    obtain ⟨p, hp, hcat⟩ := (hu.mem_iff htree).1 hm'
    exact .inl ⟨p, m', hp, hcat, hl⟩
  · refine .inr ⟨fun ⟨p, m, hp, hcat⟩ => h ⟨m, (hu.mem_iff htree).2 ⟨p, hp, hcat⟩⟩, ?_⟩
    exact Scan.lookup_recordAll_of_not_mem _ _ fun m hm => h ⟨m, hm⟩

/-- An entry is what is recorded of some file. -/
theorem exists_of_lookup_startupScan (htree : d.Tree) (hc : Inventory libs layout d .upstreamCache cached)
    (hu : Inventory libs layout d .upload uploads) (h : (startupScan cached uploads).map.lookup sha256 = some m) :
    ∃ origin p, Below layout origin p ∧ Catalogues libs d origin p sha256 m := by
  rcases lookup_startupScan htree cached hu sha256 with ⟨p, m', hp, hcat, hl⟩ | ⟨_, hl⟩
  · obtain rfl := Option.some.inj (hl.symm.trans h)
    exact ⟨.upload, p, hp, hcat⟩
  · rcases lookup_cached htree hc sha256 with ⟨p, m', hp, hcat, hl'⟩ | ⟨_, hl'⟩
    · obtain rfl := Option.some.inj ((hl'.symm.trans hl.symm).trans h)
      exact ⟨.upstreamCache, p, hp, hcat⟩
    · nomatch (hl.trans hl').symm.trans h

/-- Every hash of a file has an entry. -/
theorem lookup_startupScan_isSome (htree : d.Tree) (hc : Inventory libs layout d .upstreamCache cached)
    (hu : Inventory libs layout d .upload uploads) {origin : BlobOrigin} (h : HasBlob libs layout d origin sha256) :
    ∃ m, (startupScan cached uploads).map.lookup sha256 = some m := by
  rcases lookup_startupScan htree cached hu sha256 with ⟨_, m, _, _, hl⟩ | ⟨hno, hl⟩
  · exact ⟨m, hl⟩
  · rcases lookup_cached htree hc sha256 with ⟨_, m, _, _, hl'⟩ | ⟨hno', _⟩
    · exact ⟨m, hl.trans hl'⟩
    · cases origin with
      | upload => exact absurd h hno
      | upstreamCache => exact absurd h hno'

/-- The cache copies that are removed: those that a later upload has displaced. -/
theorem mem_displaced_startupScan (htree : d.Tree) (hu : Inventory libs layout d .upload uploads) :
    m ∈ (startupScan cached uploads).displaced ↔ m.origin = .upstreamCache ∧
      ∃ sha256, HasBlob libs layout d .upload sha256 ∧
        (Scan.empty.recordAll .upstreamCache cached).map.lookup sha256 = some m := by
  have horigin : ∀ e ∈ uploads, e.2.origin = .upload := by
    rintro ⟨sha256, m'⟩ hm
    obtain ⟨_, _, hcat⟩ := (hu.mem_iff htree).1 hm
    exact hcat.origin_eq
  have hnil : (Scan.empty.recordAll .upstreamCache cached).displaced = [] := Scan.displaced_recordAll_cache _
  rw [startupScan, Scan.mem_displaced_recordAll _ horigin, hnil]
  constructor
  · rintro (h | ⟨ho, sha256, m', hm', hl⟩)
    · nomatch h
    · obtain ⟨p, hp, hcat⟩ := (hu.mem_iff htree).1 hm'
      exact ⟨ho, sha256, ⟨p, m', hp, hcat⟩, hl⟩
  · rintro ⟨ho, sha256, ⟨p, m', hp, hcat⟩, hl⟩
    exact .inr ⟨ho, sha256, m', (hu.mem_iff htree).2 ⟨p, hp, hcat⟩, hl⟩

end

/-! ## One file for each hash -/

/-- A scan has found the blob files among some paths, and no duplicate. -/
structure Covers (libs : Libs) (d : Disk) (among : BlobOrigin → Path → Prop) (scan : Scan) : Prop where
  found : ∀ sha256 m, scan.map.lookup sha256 = some m ↔ ∃ origin p, among origin p ∧ Catalogues libs d origin p sha256 m
  clean : scan.displaced = []

/-- Below the roots, a hash has at most one file. -/
def Single (libs : Libs) (layout : StorageLayout) (d : Disk) : Prop :=
  ∀ origin origin' p p' sha256 m m', Below layout origin p → Below layout origin' p' → Catalogues libs d origin p sha256 m →
    Catalogues libs d origin' p' sha256 m' → origin = origin' ∧ p = p'

/-- A file is recorded in one way. -/
theorem Catalogues.unique {libs : Libs} {d : Disk} {origin : BlobOrigin} {p : Path} {sha256 sha256' : Str} {m m' : FileMetadata}
    (h : Catalogues libs d origin p sha256 m) (h' : Catalogues libs d origin p sha256' m') : sha256 = sha256' ∧ m = m' :=
  Prod.mk.inj (Option.some.inj ((catalogued_eq_some.2 h).symm.trans (catalogued_eq_some.2 h')))

/-- A new process finds each blob file below the roots. -/
theorem buildFileIndex_yields {cfg : Config} {t : Tid} {s : AppState} {libs : Libs} {layout : StorageLayout} (htree : s.disk.Tree)
    (hsingle : Single libs layout s.disk) (hroots : ∀ origin, originRoot layout origin ∈ s.disk.dirs) :
    (buildFileIndex libs layout).run.Yields (exec cfg t) Calm (fun x s' => x = .ok () ∧ ∃ map,
      s' = { s with index := s.index.replace map } ∧ Covers libs s.disk (Below layout) ⟨map, []⟩) s := by
  have hbuilds := buildFileIndex_builds cfg t libs .asListed Calm htree hroots
  rw [Enumeration.exec_asListed] at hbuilds
  refine hbuilds.mono ?_
  rintro x s' (⟨_, hf⟩ | ⟨hx, cached, uploads, hc, hu, _, hs⟩)
  · exact absurd hf not_faulty_calm
  -- No upload displaces a cache copy.
  have hclean : (startupScan cached uploads).displaced = [] := by
    refine List.eq_nil_iff_forall_not_mem.2 fun m hm => ?_
    obtain ⟨_, sha256, ⟨p, m', hp, hcat⟩, hl⟩ := (mem_displaced_startupScan htree hu).1 hm
    rcases lookup_cached htree hc sha256 with ⟨p', _, hp', hcat', _⟩ | ⟨_, hl'⟩
    · nomatch (hsingle _ _ _ _ _ _ _ hp hp' hcat hcat').1
    · nomatch hl'.symm.trans hl
  refine ⟨hx, _, (hs not_faulty_calm).trans (by rw [hclean]; rfl), fun sha256 m => ⟨exists_of_lookup_startupScan htree hc hu, ?_⟩, rfl⟩
  rintro ⟨origin, p, hp, hcat⟩
  obtain ⟨m', hl⟩ := lookup_startupScan_isSome htree hc hu ⟨p, m, hp, hcat⟩
  obtain ⟨origin', p', hp', hcat'⟩ := exists_of_lookup_startupScan htree hc hu hl
  obtain ⟨rfl, rfl⟩ := hsingle _ _ _ _ _ _ _ hp hp' hcat hcat'
  rw [hl, (hcat.unique hcat').2]

end Almond
