import Almond.System

/-! # The names of the files

The program makes no links: each file has one name, under an inode that was handed out once. -/

namespace Almond

open Conc

namespace Disk

/-- The names in a directory. -/
theorem mem_children {d : Disk} {dir : Path} {name : Str} :
    name ∈ d.children dir ↔ d.hasFile (dir ++ [name]) = true ∨ dir ++ [name] ∈ d.dirs := by
  have hkeys : ∀ p, p ∈ d.names.keys ++ d.dirs ↔ d.hasFile p = true ∨ p ∈ d.dirs := fun p => by
    rw [List.mem_append, hasFile, AList.lookup_isSome, AList.mem_keys]
  unfold children
  simp only [List.mem_filterMap, List.mem_filter, childOf, Bool.and_eq_true, decide_eq_true_eq, hkeys]
  constructor
  · rintro ⟨p, ⟨hp, _, hdir⟩, hname⟩
    rwa [← hdir, List.dropLast_append_getLast? name hname]
  · intro h
    exact ⟨dir ++ [name], ⟨h, by simp, List.dropLast_concat⟩, List.getLast?_concat⟩

/-- Each name has an inode of its own, which was handed out. -/
structure Sane (d : Disk) : Prop where
  fresh : ∀ p ino, d.names.lookup p = some ino → ino < d.nextIno
  distinct : ∀ p q ino, d.names.lookup p = some ino → d.names.lookup q = some ino → p = q

namespace Sane

variable {d d' : Disk}

/-- Names may go away. -/
theorem of_lookup (h : d.Sane) (hn : ∀ p ino, d'.names.lookup p = some ino → d.names.lookup p = some ino)
    (hi : d'.nextIno = d.nextIno) : d'.Sane :=
  ⟨fun p ino hp => hi ▸ h.fresh p ino (hn p ino hp), fun p q ino hp hq => h.distinct p q ino (hn p ino hp) (hn q ino hq)⟩

/-- A disk with the same names. -/
theorem of_names (h : d.Sane) (hn : d'.names = d.names) (hi : d'.nextIno = d.nextIno) : d'.Sane :=
  h.of_lookup (fun _ _ hp => hn ▸ hp) hi

/-- A name goes away. -/
theorem unlink (h : d.Sane) (p : Path) : (d.unlink p).Sane := by
  refine h.of_lookup (fun q ino hq => ?_) rfl
  by_cases he : q = p
  · rw [he] at hq
    exact absurd ((AList.lookup_erase ..).symm.trans hq) nofun
  · exact (AList.lookup_erase_ne he).symm.trans hq

/-- A directory goes away, with the names below it. -/
theorem removeTree (h : d.Sane) (p : Path) : (d.removeTree p).Sane :=
  h.of_lookup (fun _ _ hq => (lookup_retain_eq_some.1 hq).1) rfl

/-- A file moves to another name. -/
theorem move (h : d.Sane) {source : Path} {ino : Ino} (hs : d.names.lookup source = some ino) (destination : Path) :
    (d.move source destination ino).Sane := by
  -- The moved file is at the destination only, and every other name is as it was.
  have hmoved : ∀ p i, (d.move source destination ino).names.lookup p = some i →
      (p = destination ∧ i = ino) ∨ (p ≠ destination ∧ p ≠ source ∧ d.names.lookup p = some i) := by
    intro p i hp
    by_cases hd : p = destination
    · rw [hd] at hp
      exact .inl ⟨hd, Option.some.inj (hp.symm.trans (AList.lookup_insert ..))⟩
    · have he := (AList.lookup_insert_ne hd).symm.trans hp
      by_cases hsrc : p = source
      · rw [hsrc] at he
        exact absurd ((AList.lookup_erase ..).symm.trans he) nofun
      · exact .inr ⟨hd, hsrc, (AList.lookup_erase_ne hsrc).symm.trans he⟩
  refine ⟨fun p i hp => ?_, fun p q i hp hq => ?_⟩
  · obtain ⟨_, rfl⟩ | ⟨_, _, hp⟩ := hmoved p i hp
    · exact h.fresh source i hs
    · exact h.fresh p i hp
  · obtain ⟨hpd, hpi⟩ | ⟨_, hps, hp⟩ := hmoved p i hp
    · obtain ⟨hqd, _⟩ | ⟨_, hqs, hq⟩ := hmoved q i hq
      · rw [hpd, hqd]
      · exact absurd (h.distinct q source i hq (hpi ▸ hs)) hqs
    · obtain ⟨_, hqi⟩ | ⟨_, _, hq⟩ := hmoved q i hq
      · exact absurd (h.distinct p source i hp (hqi ▸ hs)) hps
      · exact h.distinct p q i hp hq

/-- A new file has an inode of its own. -/
theorem create (h : d.Sane) (p : Path) (now : Nat) : (d.create p now).Sane := by
  have hnew : ∀ q i, (d.create p now).names.lookup q = some i → (q = p ∧ i = d.nextIno) ∨ d.names.lookup q = some i := by
    intro q i hq
    by_cases he : q = p
    · rw [he] at hq
      exact .inl ⟨he, Option.some.inj (hq.symm.trans (AList.lookup_insert ..))⟩
    · exact .inr ((AList.lookup_insert_ne he).symm.trans hq)
  refine ⟨fun q i hq => ?_, fun q r i hq hr => ?_⟩
  · obtain ⟨_, rfl⟩ | hq := hnew q i hq
    · exact Nat.lt_succ_self _
    · exact Nat.lt_succ_of_lt (h.fresh q i hq)
  · obtain ⟨hqp, hqi⟩ | hq := hnew q i hq
    · obtain ⟨hrp, _⟩ | hr := hnew r i hr
      · rw [hqp, hrp]
      · exact absurd (h.fresh r i hr) (hqi ▸ Nat.lt_irrefl _)
    · obtain ⟨_, hri⟩ | hr := hnew r i hr
      · exact absurd (h.fresh q i hq) (hri ▸ Nat.lt_irrefl _)
      · exact h.distinct q r i hq hr

/-- A file operation keeps the names in order. -/
theorem exec (h : d.Sane) (env : FsEnv) (now : Nat) (r : FsReq) : (d.exec env now r).2.Sane := by
  unfold Disk.exec
  cases env.fault with
  | some message => exact h
  | none =>
    cases r with
    | createDirAll p =>
      simp only [perform]
      split
      · exact h
      · exact h.of_names rfl rfl
    | removeFile p =>
      simp only [perform]
      split
      · exact h.unlink p
      · exact h
    | removeDir p =>
      simp only [perform]
      split
      · split
        · exact h.of_names rfl rfl
        · exact h
      · exact h
    | removeDirAll p =>
      simp only [perform]
      split
      · exact h.removeTree p
      · exact h
    | rename source destination =>
      simp only [perform]
      cases hs : d.names.lookup source with
      | none => exact h
      | some ino =>
        simp only
        split
        · exact h
        · split
          · exact h.move hs destination
          · exact h
    | createFile p =>
      simp only [perform]
      split
      · exact h
      · split
        · cases d.names.lookup p with
          | some ino => exact h.of_names rfl rfl
          | none => exact h.create p now
        · exact h
    | openFile p =>
      simp only [perform]
      split <;> exact h
    | metadata p =>
      simp only [perform]
      split <;> exact h
    | _ => exact h.of_names rfl rfl

/-- Several names go away. -/
theorem unlinks (h : d.Sane) (temps : List (Tid × Path)) : (temps.foldl (fun d p => d.unlink p.2) d).Sane := by
  induction temps generalizing d with
  | nil => exact h
  | cons p temps ih => exact ih (h.unlink p.2)

end Sane

end Disk

/-- Every request keeps the names in order. -/
theorem sane_exec (cfg : Config) (t : Tid) (r : Req) (e : Env) {s : AppState} (h : s.disk.Sane) : (exec cfg t r e s).2.disk.Sane := by
  cases r with
  | fs r => exact h.exec e.fs s.clock.system r
  | dropTemp p =>
    simp only [exec]
    split
    · exact h.unlink p
    · exact h
  | receiveToken token =>
    simp only [exec]
    split <;> exact h
  | _ => exact h

/-- In every run of the server, each file keeps a name of its own. -/
theorem sane_of_run {cfg : Config} {ok : Server → Label Req Resp Str Op Report → Prop} {c c' : Server}
    (h : Run (machine cfg) ok c c') (hs : c.world.store.disk.Sane) : c'.world.store.disk.Sane :=
  h.store_invariant (I := fun s => s.disk.Sane) (fun t r e _ hs => sane_exec cfg t r e hs)
    (fun t s hs => hs.unlinks (s.temps.filter (·.1 = t))) (fun _ _ hs => hs) (fun _ hs => hs) hs

end Almond
