import Almond.Lemmas.ServeFilesAux
import Almond.Sample

/-! # The index of the served files

A refresh fails as a whole and leaves the old index, or its index has exactly the served files. -/

namespace Almond.ServeFiles

open Conc

/-- An index of exactly the served files: of the files with one hash it has the last that the walk collected. -/
structure Indexes (libs : Libs) (d : Disk) (root : Path) (manifestName : Str) (files : List Path) (index : Index) : Prop where
  nodup : files.Nodup
  served : ∀ p, p ∈ files ↔ Served d root manifestName p
  lookup : ∀ sha256, getServeFile index sha256 =
    (files.reverse.find? fun p => libs.sha256Hex (contents d p) = sha256).map (metadataOf libs d)

/-- The lines of a manifest: each file once, in the order of their names. -/
structure Lists (libs : Libs) (d : Disk) (root : Path) (files : List Path) (entries : List (Str × Str)) : Prop where
  lines : entries.Perm (files.map (lineOf libs d root))
  sorted : entries.Pairwise fun a b => a.2 ≤ b.2

/-- The manifest of some lines is next to the files, or in the fallback directory where a directory has its name there. -/
def Written (root fallbackDir : Path) (manifestName : Str) (d d' : Disk) (entries : List (Str × Str)) : Prop :=
  if root ++ [manifestName] ∉ d.dirs then Holds d' (root ++ [manifestName]) (manifestBytes entries)
  else Creatable d (fallbackDir ++ [manifestName]) → Holds d' (fallbackDir ++ [manifestName]) (manifestBytes entries)

section

variable {cfg : Config} {t : Tid} {s : AppState} {libs : Libs} {o : Enumeration} {E : Env → Prop} {d : Disk} {root fallbackDir : Path}
  {manifestName : Str} {files : List Path} {fuel : Nat}

/-- The end of a refresh: the manifest is written. -/
def writeGathered (root : Path) (manifestName : Str) (fallbackDir : Path) (y : List (Str × Str) × Index) : AsyncIo Index := do
  let sorted := y.1.insertionSort fun a b => a.2 ≤ b.2
  if let .error _ ← attemptIo (writeManifest (root ++ [manifestName]) sorted) then
    let _ ← attemptIo (writeManifest (fallbackDir ++ [manifestName]) sorted)
  return y.2

/-- A refresh gathers, and then writes. -/
theorem refresh_eq : refreshServeFileIndex libs fuel root manifestName fallbackDir =
    gather libs fuel root manifestName >>= writeGathered root manifestName fallbackDir := by
  rw [gather, bind_assoc]
  rfl

/-- The end of a refresh returns the index. Unless some operation fails, the manifest is written. -/
theorem writeGathered_yields (hsane : s.disk.Sane) (hroot : root ∈ s.disk.dirs) {entries : List (Str × Str)} {nextIndex : Index} :
    (writeGathered root manifestName fallbackDir (entries, nextIndex)).run.Yields (o.exec cfg t) E (fun x s' => x = .ok nextIndex ∧
      (∀ q, q ≠ root ++ [manifestName] → q ≠ fallbackDir ++ [manifestName] → s'.disk.file? q = s.disk.file? q) ∧
      (¬ Faulty E → Written root fallbackDir manifestName s.disk s'.disk (entries.insertionSort fun a b => a.2 ≤ b.2))) s := by
  have hparent : s.disk.parentExists (root ++ [manifestName]) = true := by
    simpa [Disk.parentExists] using hroot
  refine yields_attemptIo_bind (writeManifest_yields hsane) fun x s₁ ⟨hspares, hx⟩ => ?_
  rcases hx with ⟨rfl, hcreatable, hholds⟩ | ⟨⟨error, rfl⟩, hwhy⟩
  · refine ⟨rfl, fun q hq _ => hspares.files q hq, fun _ => ?_⟩
    rw [Written, if_pos hcreatable.1]
    exact hholds
  · refine yields_attemptIo_bind (writeManifest_yields hspares.sane) fun x s₂ ⟨hspares₂, hx⟩ => ?_
    refine ⟨rfl, fun q hq hq' => (hspares₂.files q hq').trans (hspares.files q hq), fun hcalm => ?_⟩
    obtain ⟨hnot, hdisk⟩ := hwhy.resolve_left hcalm
    have hdir : root ++ [manifestName] ∈ s.disk.dirs := by
      by_contra h
      exact hnot ⟨h, hparent⟩
    rw [Written, if_neg (not_not.2 hdir)]
    intro hcreatable
    rcases hx with ⟨_, _, hholds⟩ | ⟨_, hfault | ⟨hno, _⟩⟩
    · exact hholds
    · exact absurd hfault hcalm
    · exact absurd (hdisk ▸ hcreatable) hno

/-- A refresh, alone and on any file system. Its walk and its reads fail exactly when the root is no directory or one of their
operations fails; then the index stays as it was and nothing is written. Otherwise, whether the manifest can be written or not, the
index has exactly the served files, and no other file changes; when no operation of the writes fails, the manifest lists each of the
files once, in the order of their names. The decision before the walk is for its bound and fails nothing. -/
theorem refresh_indexes_served (cfg : Config) (t : Tid) (libs : Libs) (o : Enumeration) (root fallbackDir : Path) (manifestName : Str)
    (htree : s.disk.Tree) (hsane : s.disk.Sane)
    (hfuel : ∀ p, Served s.disk root manifestName p → (contents s.disk p).length < fuel) (env : Nat → Env) (index : Index) :
    let collected := (collectFiles root manifestName).run.alone (o.exec cfg t) env 0 s
    let gathered := (gather libs fuel root manifestName).run.alone (o.exec cfg t) env 0 s
    let refresh := (refreshServeFileIndex libs fuel root manifestName fallbackDir).run.alone (o.exec cfg t) env 0 s
    (Task.IsError gathered.1 ↔ root ∉ s.disk.dirs ∨ Failed env 1 gathered.2.1) ∧
    (Task.IsError gathered.1 → refreshed index refresh.1 = index ∧ refresh.2.2 = s) ∧
    (¬ Task.IsError gathered.1 → ∃ files, collected.1 = .ok files ∧
      Indexes libs s.disk root manifestName files (refreshed index refresh.1) ∧
      (∀ q, q ≠ root ++ [manifestName] → q ≠ fallbackDir ++ [manifestName] → refresh.2.2.disk.file? q = s.disk.file? q) ∧
      (¬ Failed env gathered.2.1 refresh.2.1 → ∃ entries, Lists libs s.disk root files entries ∧
        Written root fallbackDir manifestName s.disk refresh.2.2.disk entries)) := by
  intro collected gathered refresh
  have hfails : Task.IsError gathered.1 ↔ root ∉ s.disk.dirs ∨ Failed env 1 gathered.2.1 := gather_fails_iff htree env hfuel
  have hreads : gathered.2.2 = s := gather_reads htree env hfuel
  refine ⟨hfails, ?_, fun hok => ?_⟩
  · rintro ⟨e, he⟩
    have hrefresh : refresh = (.error e, gathered.2) := by
      simp only [refresh, refresh_eq]
      exact Task.alone_run_bind_error he
    rw [hrefresh]
    exact ⟨rfl, hreads⟩
  · rcases hy : gathered.1 with e | y
    · exact absurd ⟨e, hy⟩ hok
    obtain ⟨files, hcollected, hnodup, hserved, rfl⟩ := gather_gets htree env hfuel hy
    have hroot : root ∈ s.disk.dirs := by
      by_contra hno
      exact hok (hfails.2 (.inl hno))
    have hrefresh : refresh =
        (writeGathered root manifestName fallbackDir (files.map (lineOf libs s.disk root), indexAll libs s.disk root ∅ files)).run.alone
          (o.exec cfg t) env gathered.2.1 s := by
      simp only [refresh, refresh_eq]
      rw [Task.alone_run_bind_ok hy, show (Task.alone _ _ _ _ _).2.2 = s from hreads]
    obtain ⟨hresult, hfiles, hwritten⟩ := Task.alone_used _ env gathered.2.1 (writeGathered_yields hsane hroot)
    rw [← hrefresh] at hresult hfiles hwritten
    refine ⟨files, hcollected, ⟨hnodup, hserved, fun sha256 => ?_⟩, hfiles, fun hcalm => ⟨_, ⟨?_, ?_⟩, hwritten ?_⟩⟩
    · rw [hresult]
      exact (lookup_indexAll files ∅ sha256).trans (Option.or_none ..)
    · exact List.perm_insertionSort ..
    · exact List.pairwise_insertionSort ..
    · rw [faulty_used, ← hrefresh]
      exact hcalm

end

/-! ## A small site -/

/-- A page and its copy, and a file of a repository. -/
def site : Disk where
  names := (((∅ : AList fun _ : Path => Ino).insert ["www".toList, "page".toList] 0).insert ["www".toList, "copy".toList] 1).insert
    ["www".toList, ".git".toList, "head".toList] 2
  nodes _ := ⟨[1, 2, 3], 0⟩
  nextIno := 3
  dirs := [[], ["www".toList], ["www".toList, ".git".toList]]

/-- A disk that is full when the manifest is written. -/
def full (n : Nat) : Env :=
  if n < 17 then Sample.calm else { Sample.calm with fs := { Sample.calm.fs with fault := some "No space left on device (os error 28)" } }

/-- The server of the site. -/
def served : AppState :=
  { Sample.started with disk := site }

/-- A refresh of the site. -/
def refreshSite : Except IoError Index × Nat × AppState :=
  (refreshServeFileIndex Sample.libs 4 ["www".toList] "manifest".toList ["tmp".toList]).run.alone
    (Enumeration.backwards.exec Sample.config 0) full 0 served

/-- The files of the site. -/
theorem mem_site {p : Path} (h : site.hasFile p = true) :
    p = ["www".toList, "page".toList] ∨ p = ["www".toList, "copy".toList] ∨ p = ["www".toList, ".git".toList, "head".toList] := by
  have hmem : p ∈ site.names.keys := AList.mem_keys.1 (AList.lookup_isSome.1 h)
  have hkeys : site.names.keys =
      [["www".toList, ".git".toList, "head".toList], ["www".toList, "copy".toList], ["www".toList, "page".toList]] := by decide
  rw [hkeys] at hmem
  simp only [List.mem_cons, List.not_mem_nil, or_false] at hmem
  tauto

/-- The site is a tree. -/
theorem site_tree : site.Tree where
  nodup := by decide
  apart p hp := by
    refine Bool.eq_false_iff.2 fun h => ?_
    rcases mem_site h with rfl | rfl | rfl <;> exact absurd hp (by decide)
  parent p hne h := by
    rcases h with h | h
    · rcases mem_site h with rfl | rfl | rfl <;> decide
    · revert hne
      have hall : ∀ p ∈ site.dirs, p ≠ [] → p.dropLast ∈ site.dirs := by decide
      exact hall p h

/-- The files of the site are no links. -/
theorem site_sane : site.Sane where
  fresh p ino h := by
    rcases mem_site (Option.isSome_iff_exists.2 ⟨ino, h⟩) with rfl | rfl | rfl <;> cases h <;> decide
  distinct p q ino hp hq := by
    rcases mem_site (Option.isSome_iff_exists.2 ⟨ino, hp⟩) with rfl | rfl | rfl <;>
      rcases mem_site (Option.isSome_iff_exists.2 ⟨ino, hq⟩) with rfl | rfl | rfl <;> cases hp <;> first | rfl | nomatch hq

/-- The refreshed index of the site has the copy, which the walk collects last, though no manifest can be written. -/
theorem refresh_indexes_served_site : getServeFile (refreshed ∅ refreshSite.1) Sample.hash =
    some (metadataOf Sample.libs site ["www".toList, "copy".toList]) := by
  have hfuel (p : Path) (hp : Served served.disk ["www".toList] "manifest".toList p) : (contents served.disk p).length < 4 := by
    obtain ⟨_, _, _, _, _, hf⟩ := hp
    rcases mem_site hf with rfl | rfl | rfl <;> decide
  obtain ⟨hfails, _, hgets⟩ := refresh_indexes_served Sample.config 0 Sample.libs .backwards ["www".toList] ["tmp".toList]
    "manifest".toList site_tree site_sane hfuel full ∅
  have hused : ((gather Sample.libs 4 ["www".toList] "manifest".toList).run.alone
      (Enumeration.backwards.exec Sample.config 0) full 0 served).2.1 = 17 := by decide
  have hok : ¬ Task.IsError ((gather Sample.libs 4 ["www".toList] "manifest".toList).run.alone
      (Enumeration.backwards.exec Sample.config 0) full 0 served).1 := by
    rw [hfails, hused]
    rintro (hno | ⟨i, _, hlt, hfault⟩)
    · exact hno (by decide)
    · rw [Faults, full, if_pos hlt] at hfault
      exact hfault rfl
  obtain ⟨files, hfiles, hindexes, _⟩ := hgets hok
  have hcollected : ((collectFiles ["www".toList] "manifest".toList).run.alone
      (Enumeration.backwards.exec Sample.config 0) full 0 served).1 =
        .ok [["www".toList, "page".toList], ["www".toList, "copy".toList]] := by decide
  obtain rfl := Except.ok.inj (hfiles.symm.trans hcollected)
  exact hindexes.lookup Sample.hash

end Almond.ServeFiles
