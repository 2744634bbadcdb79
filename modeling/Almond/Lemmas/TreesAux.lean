import Almond.Lemmas.DisksAux
import Almond.Upkeep
import Mathlib.Data.List.Infix

/-! # Directory trees

The file operations keep the directories a tree. What they do to the names of the files. -/

namespace Almond.Disk

variable {d d' : Disk} {p q : Path}

/-- The prefixes of a path are all different. -/
theorem nodup_prefixes (p : Path) : (prefixes p).Nodup := by
  unfold prefixes
  induction p with
  | nil => simp
  | cons name p ih =>
    rw [List.inits_cons, List.nodup_cons, List.mem_map]
    refine ⟨?_, ih.map fun a b hab => (List.cons.inj hab).2⟩
    rintro ⟨_, _, h⟩
    nomatch h

/-- The prefixes of a path. -/
theorem mem_prefixes : q ∈ prefixes p ↔ q <+: p :=
  List.mem_inits q p

/-- A path is obstructed by a file on it or above it. -/
theorem obstructed_iff : d.obstructed p = true ↔ ∃ q, q <+: p ∧ d.hasFile q = true := by
  simp only [obstructed, List.any_eq_true, mem_prefixes]

/-- Only the files on a path and above it obstruct it. -/
theorem obstructed_congr {d' : Disk} (h : ∀ q, q <+: p → d'.hasFile q = d.hasFile q) : d'.obstructed p = d.obstructed p := by
  rw [Bool.eq_iff_iff, obstructed_iff, obstructed_iff]
  exact exists_congr fun q => and_congr_right fun hq => by rw [h q hq]

/-- The file at a path after a move. -/
theorem lookup_move {source destination : Path} {ino : Ino} (q : Path) :
    (d.move source destination ino).names.lookup q =
      if q = destination then some ino else if q = source then none else d.names.lookup q := by
  show ((d.names.erase source).insert destination ino).lookup q = _
  by_cases hd : q = destination
  · rw [if_pos hd, hd, AList.lookup_insert]
  · rw [if_neg hd, AList.lookup_insert_ne hd]
    by_cases hs : q = source
    · rw [if_pos hs, hs, AList.lookup_erase]
    · rw [if_neg hs, AList.lookup_erase_ne hs]

/-- The file at a path after another one is gone. -/
theorem lookup_unlink (q : Path) : (d.unlink p).names.lookup q = if q = p then none else d.names.lookup q := by
  show (d.names.erase p).lookup q = _
  by_cases hq : q = p
  · rw [if_pos hq, hq, AList.lookup_erase]
  · rw [if_neg hq, AList.lookup_erase_ne hq]

/-- Unlinking files takes at most their names away. -/
theorem lookup_unlinks {α : Type} (d : Disk) (temps : List (α × Path)) (q : Path) :
    (temps.foldl (fun d x => d.unlink x.2) d).names.lookup q = d.names.lookup q ∨ ∃ x ∈ temps, x.2 = q := by
  induction temps generalizing d with
  | nil => exact .inl rfl
  | cons x temps ih =>
    rcases ih (d.unlink x.2) with hsame | ⟨y, hy, hq⟩
    · by_cases hq : q = x.2
      · exact .inr ⟨x, List.mem_cons_self, hq.symm⟩
      · exact .inl (hsame.trans ((lookup_unlink q).trans (if_neg hq)))
    · exact .inr ⟨y, List.mem_cons_of_mem _ hy, hq⟩

namespace Tree

/-- The directories above a directory. -/
theorem mem_ancestor (h : d.Tree) (hp : p ∈ d.dirs) (hq : q <+: p) : q ∈ d.dirs := by
  obtain ⟨rest, rfl⟩ := hq
  induction rest using List.reverseRecOn with
  | nil => simpa using hp
  | append_singleton rest name ih =>
    rw [← List.append_assoc] at hp
    have hparent := h.parent _ (by simp) (.inr hp)
    rw [List.dropLast_concat] at hparent
    exact ih hparent

/-- No file is above a directory. -/
theorem not_obstructed (h : d.Tree) (hp : p ∈ d.dirs) : d.obstructed p = false := by
  refine Bool.eq_false_iff.2 fun hobstructed => ?_
  obtain ⟨q, hq, hf⟩ := obstructed_iff.1 hobstructed
  rw [h.apart q (h.mem_ancestor hp hq)] at hf
  cases hf

/-- New files are in directories. -/
theorem of_files (h : d.Tree) (hdirs : d'.dirs = d.dirs)
    (hfiles : ∀ p, d'.hasFile p = true → d.hasFile p = true ∨ p ∉ d.dirs ∧ p.dropLast ∈ d.dirs) : d'.Tree where
  nodup := hdirs ▸ h.nodup
  apart p hp := by
    rw [hdirs] at hp
    refine Bool.eq_false_iff.2 fun hf => ?_
    rcases hfiles p hf with hf | ⟨hn, _⟩
    · rw [h.apart p hp] at hf
      nomatch hf
    · exact hn hp
  parent p hne hp := by
    rw [hdirs] at hp ⊢
    rcases hp with hf | hd
    · rcases hfiles p hf with hf | ⟨_, hparent⟩
      · exact h.parent p hne (.inl hf)
      · exact hparent
    · exact h.parent p hne (.inr hd)

/-- A name goes away. -/
theorem unlink (h : d.Tree) (p : Path) : (d.unlink p).Tree := by
  refine h.of_files rfl fun q hq => .inl ?_
  rw [hasFile, lookup_unlink] at hq
  split at hq
  · cases hq
  · exact hq

/-- A file moves into a directory. -/
theorem move (h : d.Tree) {source destination : Path} (hnot : destination ∉ d.dirs) (hparent : d.parentExists destination = true)
    (ino : Ino) : (d.move source destination ino).Tree := by
  refine h.of_files rfl fun q hq => ?_
  rw [hasFile, lookup_move] at hq
  split at hq
  · rename_i he
    simp only [parentExists, Bool.and_eq_true, List.contains_iff_mem] at hparent
    exact .inr (he ▸ ⟨hnot, hparent.2⟩)
  · split at hq
    · cases hq
    · exact .inl hq

/-- Directories are created where there is no file. -/
theorem createDirAll (h : d.Tree) (hfree : ∀ q, q <+: p → d.hasFile q = false) :
    Tree { d with dirs := d.dirs ++ (prefixes p).filter fun q => !d.dirs.contains q } where
  nodup := by
    refine List.nodup_append'.2 ⟨h.nodup, (nodup_prefixes p).filter _, fun q hd hq => ?_⟩
    have := (List.mem_filter.1 hq).2
    simp only [List.contains_iff_mem.2 hd] at this
    nomatch this
  apart q hq := by
    rcases List.mem_append.1 hq with hq | hq
    · exact h.apart q hq
    · exact hfree q (mem_prefixes.1 (List.mem_filter.1 hq).1)
  parent q hne hq := by
    have hold : ∀ q, q ∈ d.dirs ∨ q <+: p → q ∈ d.dirs ++ (prefixes p).filter fun q => !d.dirs.contains q := by
      intro q hq
      by_cases hd : q ∈ d.dirs
      · exact List.mem_append_left _ hd
      · refine List.mem_append_right _ (List.mem_filter.2 ⟨mem_prefixes.2 (hq.resolve_left hd), ?_⟩)
        simpa using hd
    rcases hq with hf | hq
    · exact hold _ (.inl (h.parent q hne (.inl hf)))
    · rcases List.mem_append.1 hq with hq | hq
      · exact hold _ (.inl (h.parent q hne (.inr hq)))
      · exact hold _ (.inr ((List.dropLast_prefix q).trans (mem_prefixes.1 (List.mem_filter.1 hq).1)))

/-- An empty directory goes away. -/
theorem removeDir (h : d.Tree) (hempty : d.children p = []) : Tree { d with dirs := d.dirs.filter (· ≠ p) } where
  nodup := h.nodup.filter _
  apart q hq := h.apart q (List.mem_filter.1 hq).1
  parent q hne hq := by
    have hold : d.hasFile q = true ∨ q ∈ d.dirs := hq.imp_right fun hq => (List.mem_filter.1 hq).1
    refine List.mem_filter.2 ⟨h.parent q hne hold, decide_eq_true ?_⟩
    rintro rfl
    -- The directory would have an entry.
    have hsplit : q.dropLast ++ [q.getLast hne] = q := List.dropLast_append_getLast hne
    have hmem : q.getLast hne ∈ d.children q.dropLast := by
      rw [mem_children, hsplit]
      exact hold
    rw [hempty] at hmem
    nomatch hmem

end Tree

end Almond.Disk
