import Almond.Lemmas.SupersededAux
import Almond.Lemmas.TreesAux
import Almond.Lemmas.DisksAux
import Almond.Theorems.Candidates

/-! # The quarantine over whole runs

A file in the quarantine bans the hash that its name starts with. The guard of the hash is held whenever such a file appears, and
nothing takes one away. -/

namespace Almond.Quarantine

open Conc FileStorage Startup Candidates

/-- A file of the quarantine bans a hash. -/
def Bans (layout : StorageLayout) (d : Disk) (sha256 : Str) : Prop :=
  ∃ name, quarantineNameMatches sha256 name = true ∧ d.hasFile (layout.quarantine ++ [name]) = true

/-- An entry of a local file in the root of its origin, under a name of its hash. -/
def Kept (layout : StorageLayout) (sha256 : Str) (m : FileMetadata) : Prop :=
  BlobName.isValidHash sha256 = true ∧ ∃ dirs name, m.location = .localFile (originRoot layout m.origin ++ dirs ++ [name]) ∧
    quarantineNameMatches sha256 name = true

/-- A state whose entries and superseded copies are local files of their hashes. -/
structure Clean (layout : StorageLayout) (s : AppState) : Prop where
  sessions : s.sessions.Each fun _ upload => upload.WellFormed layout
  temps : ∀ x ∈ s.temps, Scratch layout x.2
  entries : ∀ sha256 m, s.index.get sha256 = some m → Kept layout sha256 m
  superseded : ∀ e ∈ s.superseded, Kept layout e.1 e.2
  directory : ∀ name, s.disk.hasFile (layout.quarantine ++ [name]) = true → layout.quarantine ∈ s.disk.dirs

/-- A request that a task may always make. -/
def Req.Harmless (layout : StorageLayout) : Req → Prop
  | .fs (.rename p q) => ¬ layout.quarantine <+: p ∧ ¬ layout.quarantine <+: q
  | .fs (.removeFile p) | .fs (.createFile p) => ¬ layout.quarantine <+: p
  | .fs (.removeDirAll p) => ¬ layout.quarantine <+: p ∧ ¬ p <+: layout.quarantine
  | .adoptTemp p => Scratch layout p
  | .index (.publish _ _) | .index (.insert _ _) | .index (.replace _) | .queueSuperseded _ _ | .extendSuperseded _ | .ready => False
  | .reserveTemp dir _ _ => dir = layout.temp
  | .sessions r => (Almond.Req.sessions r).KeepsWellFormed layout
  | _ => True

/-- What a task owes at a request: a file enters the quarantine under the guard of the hash that it bans, none leaves it, and no banned
hash is published. -/
def Allowed (layout : StorageLayout) (w : World Str AppState) (t : Tid) : Req → Prop
  | .fs (.rename p q) => ¬ layout.quarantine <+: p ∧ ∀ name, q = layout.quarantine ++ [name] →
      ∀ sha256, BlobName.isValidHash sha256 = true → quarantineNameMatches sha256 name = true → w.owner sha256 = some t
  | .index (.publish sha256 m) => Kept layout sha256 m ∧ ¬ Bans layout w.store.disk sha256
  | .index (.replace map) => w.store.up = false ∧ ∀ sha256 m, map.lookup sha256 = some m → Kept layout sha256 m
  | .queueSuperseded sha256 m => Kept layout sha256 m
  | .extendSuperseded retry => ∀ e ∈ retry, Kept layout e.1 e.2
  | .ready => w.next = t + 1
  | r => Req.Harmless layout r

/-- What happens to the quarantine and to the index while a task waits. -/
structure Rely (layout : StorageLayout) (t : Tid) (w w' : World Str AppState) : Prop where
  banned : ∀ sha256, Bans layout w.store.disk sha256 → Bans layout w'.store.disk sha256
  guarded : ∀ sha256, BlobName.isValidHash sha256 = true → w.owner sha256 = some t → Bans layout w'.store.disk sha256 →
    Bans layout w.store.disk sha256
  running : w.store.up = true → w'.store.up = true ∧
    ∀ sha256, Bans layout w.store.disk sha256 → w.store.index.get sha256 = none → w'.store.index.get sha256 = none
  starting : w.next = t + 1 → w.store.up = false → w'.next = t + 1 ∧ w'.store.up = false

/-- The discipline of the quarantine. -/
def discipline (cfg : Config) : Discipline Req Str AppState Op where
  inv w := Clean cfg.storage w.store
  rely := Rely cfg.storage
  assume _ _ _ _ := True
  allow w t _ r := Allowed cfg.storage w t r
  ops _ := True
  drops _ _ _ := True
  crashes := True

section

variable {cfg : Config} {t : Tid} {op : Op} {s : AppState} {w : World Str AppState} {root : Path} {sha256 : Str}

/-- A harmless request is allowed. -/
theorem allowed_of_harmless {r : Req} (h : Req.Harmless cfg.storage r) : Allowed cfg.storage w t r := by
  cases r with
  | fs r =>
    cases r with
    | rename p q =>
      refine ⟨h.1, fun name hq => ?_⟩
      exact absurd (hq ▸ List.prefix_append ..) h.2
    | _ => exact h
  | index r => cases r <;> first | exact h | exact h.elim
  | queueSuperseded sha256 m => exact h.elim
  | extendSuperseded retry => exact h.elim
  | ready => exact h.elim
  | _ => exact h

/-- Reading is harmless. -/
theorem harmless_of_inspects {r : Req} (h : r.inspects) : Req.Harmless cfg.storage r := by
  cases r with
  | fs r => cases r <;> first | exact trivial | exact h.elim
  | index r => cases r <;> first | exact trivial | exact h.elim
  | _ => first | exact trivial | exact h.elim

/-- A scratch file is not in the quarantine. -/
theorem not_quarantined_of_scratch (hlayout : cfg.storage = .new root) {p : Path} (hp : Scratch cfg.storage p) :
    ¬ cfg.storage.quarantine <+: p := by
  obtain ⟨name, rest, rfl⟩ := hp
  rw [hlayout]
  rintro ⟨x, hx⟩
  simp [StorageLayout.new] at hx

/-- A path below a blob root is not in the quarantine. -/
theorem not_quarantined_of_root (hlayout : cfg.storage = .new root) {origin : BlobOrigin} {p : Path}
    (hp : originRoot cfg.storage origin <+: p) : ¬ cfg.storage.quarantine <+: p := by
  obtain ⟨rest, rfl⟩ := hp
  rw [hlayout]
  rintro ⟨x, hx⟩
  cases origin <;> simp [originRoot, StorageLayout.new] at hx

/-- Receiving is harmless. -/
theorem harmless_of_receives (hlayout : cfg.storage = .new root) {r : Req} (h : r.Receives cfg.storage) :
    Req.Harmless cfg.storage r := by
  cases r with
  | fs r =>
    cases r with
    | createFile p => exact not_quarantined_of_scratch hlayout h
    | removeFile p => exact not_quarantined_of_scratch hlayout h
    | writeAll ino bytes => exact trivial
    | createDirAll p => exact trivial
    | _ => exact harmless_of_inspects h
  | sessions r => exact h.keepsWellFormed
  | reserveTemp dir namePrefix extension => exact h
  | index r => exact harmless_of_inspects h
  | adoptTemp p => exact h.elim
  | queueSuperseded sha256 m => exact h.elim
  | extendSuperseded retry => exact h.elim
  | ready => exact h.elim
  | _ => exact trivial

/-- The bytes of an entry are not in the quarantine. -/
theorem Kept.not_quarantined (hlayout : cfg.storage = .new root) {m : FileMetadata} (h : Kept cfg.storage sha256 m) {p : Path}
    (hp : m.location = .localFile p) : ¬ cfg.storage.quarantine <+: p := by
  obtain ⟨_, dirs, name, hl, _⟩ := h
  cases hp.symm.trans hl
  rw [List.append_assoc]
  exact not_quarantined_of_root hlayout (List.prefix_append ..)

/-- A disposal of an entry is harmless. -/
theorem harmless_of_disposes (hlayout : cfg.storage = .new root) {m : FileMetadata} (h : Kept cfg.storage sha256 m) {r : Req}
    (hr : r.Disposes m.location) : Req.Harmless cfg.storage r := by
  cases r with
  | fs r =>
    cases r with
    | removeFile p => exact h.not_quarantined hlayout hr
    | _ => exact hr.elim
  | s3 r => exact trivial
  | _ => exact hr.elim

/-- A name matches at most one hash. -/
theorem matches_unique {sha256' name : Str} (hv : BlobName.isValidHash sha256 = true) (hv' : BlobName.isValidHash sha256' = true)
    (h : quarantineNameMatches sha256 name = true) (h' : quarantineNameMatches sha256' name = true) : sha256 = sha256' := by
  have hp := List.isPrefixOf_iff_prefix.1 (Bool.and_eq_true_iff.1 h).1
  have hp' := List.isPrefixOf_iff_prefix.1 (Bool.and_eq_true_iff.1 h').1
  have hlen := (BlobName.length_of_isValidHash hv).trans (BlobName.length_of_isValidHash hv').symm
  exact (List.prefix_of_prefix_length_le hp hp' hlen.le).eq_of_length hlen

/-- A hash with nothing, `_` or `.` behind it is a name of the hash. -/
theorem matches_append {rest : Str} (h : rest = [] ∨ rest.head? = some '_' ∨ rest.head? = some '.') :
    quarantineNameMatches sha256 (sha256 ++ rest) = true := by
  simp only [quarantineNameMatches, List.drop_left, Bool.and_eq_true, Bool.or_eq_true, decide_eq_true_eq, or_assoc]
  exact ⟨List.isPrefixOf_iff_prefix.2 (List.prefix_append ..), h⟩

/-- The entry of a publication is kept. -/
theorem kept_of_completedPath {publication : BlobPublication} {p : Path} {m : FileMetadata}
    (hp : completedPath cfg.storage publication.origin publication.sha256 publication.extension publication.expiration = .ok p)
    (ho : m.origin = publication.origin) (hl : m.location = .localFile p) : Kept cfg.storage publication.sha256 m := by
  have hv : BlobName.isValidHash publication.sha256 = true := (housed_of_completedPath hp).valid
  unfold completedPath at hp
  rw [BlobName.fanOut_eq hv, BlobName.name_eq hv] at hp
  cases hp
  refine ⟨hv, [publication.sha256.take 1, (publication.sha256.drop 1).take 1],
    publication.sha256 ++ BlobName.suffix publication.expiration publication.extension, ?_, matches_append (BlobName.head_of_suffix ..)⟩
  rw [hl, ho, List.append_assoc]
  rfl

/-- The entry of a scanned file is kept. -/
theorem kept_of_scanned {libs : Libs} {origin : BlobOrigin} {dirs : Path} {name : Str} {parsed : BlobName.ParsedName} {size modified : Nat}
    (h : BlobName.parse name = some parsed) :
    Kept cfg.storage parsed.hash (scannedMetadata libs origin (originRoot cfg.storage origin ++ dirs ++ [name]) name parsed size modified) := by
  obtain ⟨hv, hname, hrest⟩ := BlobName.parse_eq_some h
  refine ⟨hv, dirs, name, rfl, ?_⟩
  rw [hname]
  exact matches_append (BlobName.head_of_parseRest hrest)

end

/-! ## The effect of a request -/

section

variable {cfg : Config} {t : Tid} {s : AppState} {w : World Str AppState} {root : Path} {sha256 name : Str} {r : Req} {e : Env}

/-- No request takes a file out of the quarantine, and one enters it only by being moved there. -/
theorem hasFile_exec (hlayout : cfg.storage = .new root) (hc : Clean cfg.storage w.store) (h : Allowed cfg.storage w t r) (name : Str) :
    (exec cfg t r e w.store).2.disk.hasFile (cfg.storage.quarantine ++ [name]) = w.store.disk.hasFile (cfg.storage.quarantine ++ [name]) ∨
      (∃ p, r = .fs (.rename p (cfg.storage.quarantine ++ [name]))) ∧ cfg.storage.quarantine ∈ w.store.disk.dirs ∧
        (exec cfg t r e w.store).2.disk.hasFile (cfg.storage.quarantine ++ [name]) = true := by
  have hne : ∀ {p : Path}, ¬ cfg.storage.quarantine <+: p → cfg.storage.quarantine ++ [name] ≠ p := by
    rintro _ hp rfl
    exact hp (List.prefix_append ..)
  have hunlink : ∀ {p : Path}, ¬ cfg.storage.quarantine <+: p →
      (w.store.disk.unlink p).hasFile (cfg.storage.quarantine ++ [name]) = w.store.disk.hasFile (cfg.storage.quarantine ++ [name]) := by
    intro p hp
    rw [Disk.hasFile, Disk.lookup_unlink, if_neg (hne hp)]
    rfl
  cases r with
  | fs r =>
    simp only [exec, Disk.exec]
    cases e.fs.fault with
    | some message => exact .inl rfl
    | none =>
      cases r with
      | createDirAll p =>
        simp only [Disk.perform]
        split <;> exact .inl rfl
      | removeFile p =>
        simp only [Disk.perform]
        split
        · exact .inl (hunlink h)
        · exact .inl rfl
      | removeDir p =>
        simp only [Disk.perform]
        split
        · split <;> exact .inl rfl
        · exact .inl rfl
      | removeDirAll p =>
        simp only [Disk.perform]
        split
        · have hkept : p.isPrefixOf (cfg.storage.quarantine ++ [name]) = false := by
            refine Bool.eq_false_iff.2 fun hp => ?_
            rcases List.prefix_concat_iff.1 (List.isPrefixOf_iff_prefix.1 hp) with heq | hpre
            · exact h.1 (heq ▸ List.prefix_append ..)
            · exact h.2 hpre
          refine .inl (Bool.eq_iff_iff.2 ?_)
          simp only [Disk.hasFile, Disk.removeTree, Option.isSome_iff_exists, lookup_retain_eq_some, hkept, Bool.not_false, and_true]
        · exact .inl rfl
      | rename p q =>
        simp only [Disk.perform]
        split
        · exact .inl rfl
        · split
          · exact .inl rfl
          · split
            · rename_i hparent
              by_cases hq : cfg.storage.quarantine ++ [name] = q
              · subst hq
                simp only [Disk.parentExists, Bool.and_eq_true, List.contains_iff_mem, List.dropLast_concat] at hparent
                exact .inr ⟨⟨p, rfl⟩, hparent.2, by simp [Disk.hasFile, Disk.lookup_move]⟩
              · rw [Disk.hasFile, Disk.lookup_move, if_neg hq, if_neg (hne h.1)]
                exact .inl rfl
            · exact .inl rfl
      | createFile p =>
        simp only [Disk.perform]
        split
        · exact .inl rfl
        · split
          · split
            · exact .inl rfl
            · rw [Disk.hasFile, Disk.create, AList.lookup_insert_ne (hne h)]
              exact .inl rfl
          · exact .inl rfl
      | openFile p =>
        simp only [Disk.perform]
        split <;> exact .inl rfl
      | metadata p =>
        simp only [Disk.perform]
        split <;> exact .inl rfl
      | _ => exact .inl rfl
  | dropTemp p =>
    simp only [exec]
    split
    · rename_i hmem
      exact .inl (hunlink (not_quarantined_of_scratch hlayout (hc.temps _ (List.contains_iff_mem.1 hmem))))
    · exact .inl rfl
  | receiveToken token =>
    simp only [exec]
    split <;> exact .inl rfl
  | _ => exact .inl rfl

/-- A hash that is banned stays banned. -/
theorem bans_exec (hlayout : cfg.storage = .new root) (hc : Clean cfg.storage w.store) (h : Allowed cfg.storage w t r)
    (hbans : Bans cfg.storage w.store.disk sha256) : Bans cfg.storage (exec cfg t r e w.store).2.disk sha256 := by
  obtain ⟨name, hm, hf⟩ := hbans
  refine ⟨name, hm, ?_⟩
  rcases hasFile_exec hlayout hc h name with heq | ⟨_, _, hf'⟩
  · exact heq.trans hf
  · exact hf'

/-- Who bans a hash holds its guard. -/
theorem bans_of_exec (hlayout : cfg.storage = .new root) (hc : Clean cfg.storage w.store) (h : Allowed cfg.storage w t r)
    (hv : BlobName.isValidHash sha256 = true) (hbans : Bans cfg.storage (exec cfg t r e w.store).2.disk sha256) :
    Bans cfg.storage w.store.disk sha256 ∨ w.owner sha256 = some t := by
  obtain ⟨name, hm, hf⟩ := hbans
  rcases hasFile_exec (e := e) hlayout hc h name with heq | ⟨⟨p, rfl⟩, _, _⟩
  · exact .inl ⟨name, hm, heq.symm.trans hf⟩
  · exact .inr (h.2 name rfl sha256 hv hm)

/-- A harmless request bans no hash. -/
theorem bans_of_harmless (hlayout : cfg.storage = .new root) (hc : Clean cfg.storage w.store) (h : Req.Harmless cfg.storage r)
    (hbans : Bans cfg.storage (exec cfg t r e w.store).2.disk sha256) : Bans cfg.storage w.store.disk sha256 := by
  obtain ⟨name, hm, hf⟩ := hbans
  rcases hasFile_exec (e := e) hlayout hc (allowed_of_harmless (t := t) h) name with heq | ⟨⟨p, rfl⟩, _, _⟩
  · exact ⟨name, hm, heq.symm.trans hf⟩
  · exact absurd (List.prefix_append ..) h.2

/-- The directory of the quarantine stays as long as it has a file. -/
theorem directory_exec (hlayout : cfg.storage = .new root) (hc : Clean cfg.storage w.store) (h : Allowed cfg.storage w t r) (name : Str)
    (hf : (exec cfg t r e w.store).2.disk.hasFile (cfg.storage.quarantine ++ [name]) = true) :
    cfg.storage.quarantine ∈ (exec cfg t r e w.store).2.disk.dirs := by
  have hmem : cfg.storage.quarantine ∈ w.store.disk.dirs := by
    rcases hasFile_exec (e := e) hlayout hc h name with heq | ⟨_, hd, _⟩
    · exact hc.directory name (heq.symm.trans hf)
    · exact hd
  cases r with
  | fs r =>
    simp only [exec, Disk.exec] at hf ⊢
    cases hfault : e.fs.fault with
    | some message => exact hmem
    | none =>
      rw [hfault] at hf
      cases r with
      | createDirAll p =>
        simp only [Disk.perform]
        split
        · exact hmem
        · exact List.mem_append_left _ hmem
      | removeDir p =>
        simp only [Disk.perform] at hf ⊢
        split
        · rename_i hdir
          split
          · rename_i hempty
            rw [if_pos hdir, if_pos hempty] at hf
            refine List.mem_filter.2 ⟨hmem, decide_eq_true fun hq => ?_⟩
            have hchild : name ∈ w.store.disk.children p := Disk.mem_children.2 (.inl (hq ▸ hf))
            rw [hempty] at hchild
            cases hchild
          · exact hmem
        · exact hmem
      | removeDirAll p =>
        simp only [Disk.perform]
        split
        · refine List.mem_filter.2 ⟨hmem, ?_⟩
          rw [Bool.not_eq_true', Bool.eq_false_iff]
          exact fun hp => h.2 (List.isPrefixOf_iff_prefix.1 hp)
        · exact hmem
      | rename p q =>
        simp only [Disk.perform]
        split
        · exact hmem
        · split
          · exact hmem
          · split <;> exact hmem
      | createFile p =>
        simp only [Disk.perform]
        split
        · exact hmem
        · split
          · split <;> exact hmem
          · exact hmem
      | removeFile p | openFile p | metadata p =>
        simp only [Disk.perform]
        split <;> exact hmem
      | _ => exact hmem
  | dropTemp p | receiveToken token =>
    simp only [exec]
    split <;> exact hmem
  | _ => exact hmem

/-- An allowed request keeps the sessions well formed. -/
theorem keepsWellFormed_of_allowed (h : Allowed cfg.storage w t r) : r.KeepsWellFormed cfg.storage := by
  cases r with
  | sessions r => exact h
  | reserveTemp dir namePrefix extension => exact h
  | _ => exact trivial

/-- A temporary blob was there, or is new. -/
theorem mem_temps_exec {x : Tid × Path} (h : x ∈ (exec cfg t r e s).2.temps) :
    x ∈ s.temps ∨ r = .adoptTemp x.2 ∨ ∃ dir namePrefix extension name, r = .reserveTemp dir namePrefix extension ∧ x.2 = dir ++ [name] := by
  cases r with
  | reserveTemp dir namePrefix extension =>
    rcases List.mem_cons.1 h with rfl | h
    · exact .inr (.inr ⟨dir, namePrefix, extension, _, rfl, rfl⟩)
    · exact .inl h
  | adoptTemp p =>
    rcases List.mem_cons.1 h with rfl | h
    · exact .inr (.inl rfl)
    · exact .inl h
  | intoPublished p => exact .inl (List.mem_of_mem_erase h)
  | dropTemp p =>
    simp only [exec] at h
    split at h
    · exact .inl (List.mem_of_mem_erase h)
    · exact .inl h
  | receiveToken token =>
    simp only [exec] at h
    split at h <;> exact .inl h
  | _ => exact .inl h

/-- Only the end of the initialization makes the server accept requests. -/
theorem up_exec (h : r ≠ .ready) : (exec cfg t r e s).2.up = s.up := by
  cases r with
  | ready => exact absurd rfl h
  | dropTemp p | receiveToken token =>
    simp only [exec]
    split <;> rfl
  | _ => rfl

/-- The entry of a hash that an allowed request installs. -/
theorem of_installs {op : Op} {m : FileMetadata} (h : Allowed cfg.storage w t r)
    (hm : installs sha256 (.called t op r (exec cfg t r e w.store).1) = some m) :
    Kept cfg.storage sha256 m ∧ (¬ Bans cfg.storage w.store.disk sha256 ∨ w.store.up = false) := by
  cases r with
  | index r =>
    cases r with
    | publish key m' =>
      generalize (exec cfg t (.index (.publish key m')) e w.store).1 = x at hm
      cases x with
      | retained existing => nomatch hm
      | published displaced =>
        obtain ⟨rfl, heq⟩ := Option.ite_none_right_eq_some.1 hm
        cases heq
        exact ⟨h.1, .inl h.2⟩
    | insert key m' => exact h.elim
    | replace map => exact ⟨h.2 sha256 m hm, .inr h.1⟩
    | _ => nomatch hm
  | _ => nomatch hm

/-- An allowed request keeps the entries and the superseded copies local. -/
theorem clean_exec (hlayout : cfg.storage = .new root) (hc : Clean cfg.storage w.store) (h : Allowed cfg.storage w t r) :
    Clean cfg.storage (exec cfg t r e w.store).2 where
  sessions := (wellFormed_exec hc.sessions (keepsWellFormed_of_allowed h)).1
  temps x hx := by
    rcases mem_temps_exec hx with hx | rfl | ⟨dir, namePrefix, extension, name, rfl, hp⟩
    · exact hc.temps x hx
    · exact h
    · obtain rfl : dir = cfg.storage.temp := h
      exact ⟨name, [], hp⟩
  entries sha256 m hm := by
    have hcases : _ ∨ installs sha256 (.called t .boot r (exec cfg t r e w.store).1) = some m := get_exec_cases hm
    rcases hcases with hm | hm
    · exact hc.entries sha256 m hm
    · exact (of_installs h hm).1
  superseded x hx := by
    rcases Superseded.mem_superseded_exec hx with hmem | rfl | ⟨retry, rfl, hmem⟩
    · exact hc.superseded x hmem
    · exact h
    · exact h x hmem
  directory name hf := directory_exec hlayout hc h name hf

/-- An allowed request is within the rely of the other tasks. -/
theorem rely_of_allowed (hlayout : cfg.storage = .new root) (hc : Clean cfg.storage w.store) (h : Allowed cfg.storage w t r) {t' : Tid}
    (hne : t' ≠ t) : Rely cfg.storage t' w (w.setStore (exec cfg t r e w.store).2) where
  banned _ hbans := bans_exec hlayout hc h hbans
  guarded sha256 hv ho hbans := by
    rcases bans_of_exec hlayout hc h hv hbans with hbans | hself
    · exact hbans
    · exact absurd (Option.some.inj (ho.symm.trans hself)) hne
  running hup := by
    refine ⟨?_, fun sha256 hbans hnone => ?_⟩
    · by_cases hr : r = .ready
      · subst hr
        rfl
      · exact (up_exec hr).trans hup
    · refine Option.eq_none_iff_forall_ne_some.2 fun m hm => ?_
      have hcases : _ ∨ installs sha256 (.called t .boot r (exec cfg t r e w.store).1) = some m := get_exec_cases hm
      rcases hcases with hm | hm
      · nomatch hnone.symm.trans hm
      · rcases (of_installs h hm).2 with hnot | hdown
        · exact hnot hbans
        · nomatch hup.symm.trans hdown
  starting hnext hup := by
    refine ⟨hnext, (up_exec fun hr => ?_).trans hup⟩
    subst hr
    exact hne (Nat.succ.inj (hnext.symm.trans h))

end

/-! ## Publications -/

/-- A task holds the guard of a hash, which is banned only if something holds. -/
def Watches (layout : StorageLayout) (t : Tid) (sha256 : Str) (P : Prop) (w : World Str AppState) : Prop :=
  w.owner sha256 = some t ∧ (Bans layout w.store.disk sha256 → P)

section

variable {cfg : Config} {t : Tid} {op : Op} {w w' : World Str AppState} {root : Path} {sha256 : Str} {P : Prop} {α : Type}

/-- What a task knows of its hash stays true while it waits. -/
theorem Watches.stable (hv : BlobName.isValidHash sha256 = true) (h : Watches cfg.storage t sha256 P w)
    (hr : (discipline cfg).Expects t w w') : Watches cfg.storage t sha256 P w' :=
  ⟨hr.1 sha256 h.1, fun hbans => h.2 (hr.2.guarded sha256 hv h.1 hbans)⟩

/-- A harmless request bans nothing. -/
theorem Watches.exec (hlayout : cfg.storage = .new root) (hc : Clean cfg.storage w.store) {r : Req} (hr : Req.Harmless cfg.storage r)
    (h : Watches cfg.storage t sha256 P w) (e : Env) :
    Watches cfg.storage t sha256 P (w.setStore (Almond.exec cfg t r e w.store).2) :=
  ⟨h.1, fun hbans => h.2 (bans_of_harmless hlayout hc hr hbans)⟩

/-- Harmless requests leave a task what it knows of its hash. -/
theorem Watches.wp_within {I : Req → Prop} {R : α → Prop} {p : Async α} (hlayout : cfg.storage = .new root)
    (hv : BlobName.isValidHash sha256 = true) (h : Watches cfg.storage t sha256 P w) (hp : p.Within I R)
    (hI : ∀ r, I r → Req.Harmless cfg.storage r) :
    wp (machine cfg) (discipline cfg) t op p (fun a w => R a ∧ Watches cfg.storage t sha256 P w) w :=
  hp.wp (fun _ _ hr _ h => h.stable hv hr) (fun _ _ hr _ _ => allowed_of_harmless (hI _ hr))
    (fun _ _ e hr hi h => h.exec hlayout hi (hI _ hr) e) h

/-- A task of harmless requests. -/
theorem wp_of_harmless {p : Async α} (hp : p.Issues (Req.Harmless cfg.storage)) :
    wp (machine cfg) (discipline cfg) t op p (fun _ _ => True) w :=
  Task.Issues.wp (F := fun _ => True) hp (fun _ _ _ _ => id) (fun _ _ hr _ _ _ => allowed_of_harmless hr) (fun _ _ _ _ _ => trivial)
    trivial

/-- A check of names passes only when none of them is of the hash. -/
theorem inspectEntries_within (quarantine : Path) (sha256 : Str) (names : List Str) :
    (inspectEntries quarantine sha256 names).run.Within Req.inspects fun x => x = .ok () →
      ∀ name ∈ names, quarantineNameMatches sha256 name = false := by
  induction names with
  | nil => exact (uses_orErr (uses_request trivial)).mono (fun _ => id) fun _ _ _ _ hm => nomatch hm
  | cons name names ih =>
    refine Task.Within.run_bind (R := fun _ => True) (uses_orErr (uses_request trivial)) (fun _ _ he => nomatch he) fun _ _ => ?_
    cases hm : quarantineNameMatches sha256 name with
    | true => exact fun he => nomatch he
    | false =>
      refine ih.mono (fun _ => id) fun _ h hx name' hmem => ?_
      rcases List.mem_cons.1 hmem with rfl | hmem
      · exact hm
      · exact h hx name' hmem

/-- Under its guard, a hash that passes the check is not banned. -/
theorem ensureNotQuarantined_wp (hlayout : cfg.storage = .new root) (ho : w.owner sha256 = some t) :
    wp (machine cfg) (discipline cfg) t op (ensureNotQuarantined cfg.storage sha256).run (fun x w => x = .ok () →
      BlobName.isValidHash sha256 = true ∧ Watches cfg.storage t sha256 False w) w := by
  refine (wp_ofResult_bind ..).2 ?_
  unfold validateSha256Format
  cases hv : BlobName.isValidHash sha256 with
  | false => exact fun he => by cases he
  | true =>
    refine (wp_lift_bind ..).2 (wp_request fun w₁ hr hi _ =>
      ⟨trivial, fun e _ => ?_⟩)
    have ho₁ : w₁.owner sha256 = some t := hr.1 sha256 ho
    -- What the directory lists when it is read is all that bans the hash, until the guard is given back.
    generalize hx : ((machine cfg).exec t (.fs (.readDir cfg.storage.quarantine)) e w₁.store).1 = x
    have hread : x = (w₁.store.disk.exec e.fs w₁.store.clock.system (.readDir cfg.storage.quarantine)).1 := hx.symm
    rw [Disk.exec] at hread
    cases hfault : e.fs.fault with
    | some message =>
      rw [hfault] at hread
      subst hread
      exact fun he => by cases he
    | none =>
      rw [hfault] at hread
      by_cases hd : cfg.storage.quarantine ∈ w₁.store.disk.dirs
      · have hok : x = .ok (w₁.store.disk.children cfg.storage.quarantine) :=
          hread.trans (if_pos (List.contains_iff_mem.2 hd))
        subst hok
        have hwatch : Watches cfg.storage t sha256
            (∃ name ∈ w₁.store.disk.children cfg.storage.quarantine, quarantineNameMatches sha256 name = true) w₁ := by
          refine ⟨ho₁, ?_⟩
          rintro ⟨name, hm, hf⟩
          exact ⟨name, Disk.mem_children.2 (.inl hf), hm⟩
        refine wp_mono ?_ ((hwatch.exec hlayout hi (r := .fs (.readDir cfg.storage.quarantine)) trivial e).wp_within hlayout hv
          (inspectEntries_within ..) fun _ => harmless_of_inspects)
        rintro x w₂ ⟨hno, howner, hbans⟩ hx
        refine ⟨rfl, howner, fun h => ?_⟩
        obtain ⟨name, hm, hmatches⟩ := hbans h
        cases hmatches.symm.trans (hno hx name hm)
      · have hmissing : x = .error (w₁.store.disk.noDirectory cfg.storage.quarantine) :=
          hread.trans (if_neg fun h => hd (List.contains_iff_mem.1 h))
        subst hmissing
        dsimp only
        split
        on_goal 2 => exact fun he => by cases he
        refine fun _ => ⟨rfl, ho₁, fun hbans => ?_⟩
        obtain ⟨name, _, hf⟩ := bans_of_harmless (r := .fs (.readDir cfg.storage.quarantine)) hlayout hi trivial hbans
        exact hd (hi.directory name hf)

/-- A publication of an entry whose hash is not banned. -/
theorem publishMetadata_wp (hlayout : cfg.storage = .new root) (hv : BlobName.isValidHash sha256 = true) {m : FileMetadata}
    (hm : Kept cfg.storage sha256 m) (h : Watches cfg.storage t sha256 False w) :
    wp (machine cfg) (discipline cfg) t op (publishMetadata cfg sha256 m).run (fun _ _ => True) w := by
  refine (wp_lift_bind ..).2 (wp_request fun w₁ hr hi _ => ⟨⟨hm, (h.stable hv hr).2⟩, fun e _ => ?_⟩)
  obtain ⟨existing, _, _, hp⟩ | ⟨_, hp⟩ := BlobIndex.publish_cases w₁.store.index sha256 m
  · simp only [machine_exec, Almond.exec, IndexReq.exec, hp]
    exact trivial
  simp only [machine_exec, Almond.exec, IndexReq.exec, hp]
  refine (wp_lift_bind ..).2 (wp_request fun w₂ _ _ _ =>
    ⟨trivial, fun e₂ _ => ?_⟩)
  generalize ((machine cfg).exec t (.index (.get sha256)) e₂ w₂.store).1 = x
  cases x with
  | none => exact trivial
  | some published =>
    cases hd : w₁.store.index.get sha256 with
    | none => exact trivial
    | some displaced =>
      have hkept : Kept cfg.storage sha256 displaced := hi.entries sha256 displaced hd
      refine (wp_attempt_bind ..).2 (wp_mono ?_ (wp_of_harmless (p := (removePhysicalFile cfg displaced).run)
        (((removePhysicalFile_uses cfg displaced).issues fun _ => id).mono fun _ => harmless_of_disposes hlayout hkept)))
      intro removed w₃ _
      cases removed with
      | ok _ => exact trivial
      | error _ => exact (wp_lift_bind ..).2 (wp_request fun _ _ _ _ => ⟨hkept, fun _ _ => trivial⟩)

/-- Moving the bytes of a hash that is not banned to their completed path. -/
theorem publishToDisk_wp (hlayout : cfg.storage = .new root) {publication : BlobPublication} {temp : Path}
    (ht : Scratch cfg.storage temp) (hv : BlobName.isValidHash publication.sha256 = true)
    (h : Watches cfg.storage t publication.sha256 False w) :
    wp (machine cfg) (discipline cfg) t op (publishToDisk cfg temp publication).run (fun _ _ => True) w := by
  refine (wp_ofResult_bind ..).2 ?_
  cases hp : completedPath cfg.storage publication.origin publication.sha256 publication.extension publication.expiration with
  | error _ => exact trivial
  | ok finalPath =>
    have hfinal : ¬ cfg.storage.quarantine <+: finalPath := by
      obtain ⟨_, _, heq⟩ := (housed_of_completedPath hp).place
      rw [heq, List.append_assoc]
      exact not_quarantined_of_root hlayout (List.prefix_append ..)
    have hstep : ∀ {β : Type} {x : AsyncResult β} {f : β → AsyncResult StoredBlob} {w₁ : World Str AppState},
        Watches cfg.storage t publication.sha256 False w₁ → x.run.Uses (Req.Harmless cfg.storage) →
        (∀ b w₂, Watches cfg.storage t publication.sha256 False w₂ →
          wp (machine cfg) (discipline cfg) t op (f b).run (fun _ _ => True) w₂) →
        wp (machine cfg) (discipline cfg) t op (x >>= f).run (fun _ _ => True) w₁ := by
      intro β x f w₁ h₁ hx hf
      refine (wp_run_bind ..).2 (wp_mono ?_ (h₁.wp_within hlayout hv hx fun _ => id))
      rintro (_ | b) w₂ ⟨_, h₂⟩
      · exact trivial
      · exact hf b w₂ h₂
    refine hstep h (uses_orErr (uses_request trivial)) fun _ w₁ h₁ => ?_
    refine hstep h₁ (uses_orErr (uses_request trivial)) fun present w₂ h₂ => ?_
    have hrest : ∀ w₃, Watches cfg.storage t publication.sha256 False w₃ → wp (machine cfg) (discipline cfg) t op (do
        orIoErr (fun error => s!"Failed to publish {display temp} to {display finalPath}: {error.message}")
          (fs (.rename temp finalPath))
        request (.intoPublished temp)
        let metadata ← publication.metadata (.localFile finalPath)
        publishMetadata cfg publication.sha256 metadata : AsyncResult StoredBlob).run (fun _ _ => True) w₃ := by
      intro w₃ h₃
      refine hstep h₃ (uses_orErr (uses_request (P := Req.Harmless cfg.storage) ⟨not_quarantined_of_scratch hlayout ht, hfinal⟩))
        fun _ w₄ h₄ => ?_
      refine (wp_lift_bind ..).2 (wp_mono ?_ (h₄.wp_within hlayout hv (uses_request (P := Req.Harmless cfg.storage) trivial) fun _ => id))
      rintro _ w₅ ⟨_, h₅⟩
      refine (wp_lift_bind ..).2 (wp_mono ?_ (h₅.wp_within (R := fun m => m.origin = publication.origin ∧ m.location = .localFile finalPath)
        (I := Req.inspects) hlayout hv ⟨trivial, fun _ _ => ⟨rfl, rfl⟩⟩ fun _ => harmless_of_inspects))
      rintro m w₆ ⟨⟨hmo, hml⟩, h₆⟩
      exact publishMetadata_wp hlayout hv (kept_of_completedPath hp hmo hml) h₆
    cases present with
    | false => exact hrest w₂ h₂
    | true =>
      refine hstep h₂ ((removeLocalFile_uses finalPath).mono (fun r hr => ?_) fun _ => id) fun _ w₃ h₃ => hrest w₃ h₃
      cases r with
      | fs r =>
        cases r with
        | removeFile p =>
          cases hr
          exact hfinal
        | _ => exact hr.elim
      | s3 r => exact trivial
      | _ => exact hr.elim

/-- The guarded part of a publication. -/
theorem publishLocked_wp (hlayout : cfg.storage = .new root) (hlocal : cfg.nativeS3 = false) {publication : BlobPublication} {temp : Path}
    (ht : Scratch cfg.storage temp) (ho : w.owner publication.sha256 = some t) :
    wp (machine cfg) (discipline cfg) t op (publishLocked cfg temp publication).run (fun _ _ => True) w := by
  refine (wp_run_bind ..).2 (wp_mono ?_ (ensureNotQuarantined_wp hlayout ho))
  intro x w₁ hx
  cases x with
  | error _ => exact trivial
  | ok _ =>
    obtain ⟨hv, h₁⟩ := hx rfl
    have hdisk : ¬ (publication.origin = .upload ∧ cfg.nativeS3 = true) := fun h => nomatch hlocal.symm.trans h.2
    simp only [if_neg hdisk]
    refine (wp_lift_bind ..).2 (wp_request fun w₂ hr hi _ =>
      ⟨trivial, fun e _ => ?_⟩)
    have hstore : wp (machine cfg) (discipline cfg) t op (publishToDisk cfg temp publication).run (fun _ _ => True) _ :=
      publishToDisk_wp hlayout ht hv ((h₁.stable hv hr).exec hlayout hi (r := .index (.get publication.sha256)) trivial e)
    generalize ((machine cfg).exec t (.index (.get publication.sha256)) e w₂.store).1 = entry
    cases entry with
    | none => exact hstore
    | some existing =>
      cases hk : keepsIncumbent publication existing with
      | true =>
        simp only [hk, if_true]
        exact trivial
      | false =>
        simp only [hk, Bool.false_eq_true, if_false]
        exact hstore

/-- A publication. -/
theorem publishBlob_wp (hlayout : cfg.storage = .new root) (hlocal : cfg.nativeS3 = false) {publication : BlobPublication} {temp : Path}
    (ht : Scratch cfg.storage temp) :
    wp (machine cfg) (discipline cfg) t op (publishBlob cfg temp publication).run (fun _ _ => True) w := by
  refine (wp_attempt_bind ..).2 (wp_mono (Q := fun _ _ => True) (fun x w _ => ?_) ?_)
  · exact (wp_lift_bind ..).2 (wp_request fun _ _ _ _ => ⟨trivial, fun _ _ => trivial⟩)
  · refine (wp_ofResult_bind ..).2 ?_
    cases validateSha256Format publication.sha256 with
    | error _ => exact trivial
    | ok _ =>
      exact wp_withLock_true (publishLocked_uses cfg temp publication) fun w₁ _ =>
        publishLocked_wp hlayout hlocal ht (w₁.take_owner_self publication.sha256 t)

end

/-! ## Removals -/

/-- A hash that is banned and has no entry, on a server that is up. -/
structure Removed (layout : StorageLayout) (sha256 : Str) (s : AppState) : Prop where
  banned : Bans layout s.disk sha256
  up : s.up = true
  gone : s.index.get sha256 = none

section

variable {cfg : Config} {t : Tid} {op : Op} {w w' : World Str AppState} {root : Path} {sha256 : Str} {removal : Removal}
  {expected : Option FileMetadata} {α : Type}

/-- A hash that was quarantined stays without an entry. -/
theorem Removed.stable (h : Removed cfg.storage sha256 w.store) (hr : Rely cfg.storage t w w') : Removed cfg.storage sha256 w'.store where
  banned := hr.banned sha256 h.banned
  up := (hr.running h.up).1
  gone := (hr.running h.up).2 sha256 h.banned h.gone

/-- An entry that was removed is gone. -/
theorem gone_of_removeIf (cfg : Config) (t : Tid) (e : Env) {location : FileLocation} {s : AppState}
    (h : (exec cfg t (.index (.removeIfLocationMatches sha256 location)) e s).1 = true) :
    (exec cfg t (.index (.removeIfLocationMatches sha256 location)) e s).2.index.get sha256 = none := by
  obtain ⟨_, _, _, hp⟩ | ⟨_, hp⟩ := BlobIndex.removeIf_cases s.index sha256 location
  · simp only [exec, IndexReq.exec, hp, BlobIndex.get_remove_self]
  · simp only [exec, IndexReq.exec, hp] at h
    cases h

/-- A file that was moved into the quarantine bans its hash. -/
theorem bans_of_rename {p : Path} {name : Str} {e : Env} {s : AppState} (hm : quarantineNameMatches sha256 name = true)
    (h : (exec cfg t (.fs (.rename p (cfg.storage.quarantine ++ [name]))) e s).1 = .ok ()) :
    Bans cfg.storage (exec cfg t (.fs (.rename p (cfg.storage.quarantine ++ [name]))) e s).2.disk sha256 := by
  refine ⟨name, hm, ?_⟩
  simp only [exec, Disk.exec] at h ⊢
  cases hfault : e.fs.fault with
  | some message =>
    rw [hfault] at h
    cases h
  | none =>
    rw [hfault] at h
    simp only [Disk.perform] at h ⊢
    cases hlookup : s.disk.names.lookup p with
    | none =>
      rw [hlookup] at h
      cases h
    | some ino =>
      rw [hlookup] at h
      dsimp only at h ⊢
      split at h
      · cases h
      · rename_i hnot
        split at h
        · rename_i hparent
          simp only [if_neg hnot, if_pos hparent, Disk.hasFile, Disk.lookup_move, if_true, Option.isSome_some]
        · cases h

/-- A server without a bucket has no objects to sweep. -/
theorem sweepBackendCopies_local (hlocal : cfg.nativeS3 = false) : sweepBackendCopies cfg sha256 = pure () := by
  rw [sweepBackendCopies, hlocal]
  rfl

/-- The guarded part of a removal leaves a hash that was quarantined banned and without an entry. -/
theorem removeLocked_wp (hlayout : cfg.storage = .new root) (hlocal : cfg.nativeS3 = false) (ho : w.owner sha256 = some t)
    (hup : removal = .quarantined → w.store.up = true) :
    wp (machine cfg) (discipline cfg) t op (removeLocked cfg sha256 removal expected).run
      (fun x w => removal = .quarantined → x = .ok true → Removed cfg.storage sha256 w.store) w := by
  refine (wp_lift_bind ..).2 (wp_request fun w₁ hr₁ hi₁ _ => ⟨trivial, fun e₁ _ => ?_⟩)
  rw [sweepBackendCopies_local hlocal]
  have hget : ((machine cfg).exec t (.index (.get sha256)) e₁ w₁.store).1 = w₁.store.index.get sha256 := rfl
  rw [hget]
  cases hcurrent : w₁.store.index.get sha256 with
  | none =>
    simp only
    split <;> exact fun _ he => by cases he
  | some current =>
    have hkept : Kept cfg.storage sha256 current := hi₁.entries sha256 current hcurrent
    simp only
    split
    · exact fun _ he => by cases he
    by_cases hq : removal = .quarantined
    · subst hq
      obtain ⟨hv, dirs, name, hlocation, hmatches⟩ := id hkept
      simp only [dispose, quarantineCurrent, hlocation, if_true, Removal.sweepsBackend, Bool.false_eq_true, if_false]
      refine (wp_run_bind ..).2 ((wp_orErr_bind ..).2 (wp_request fun w₂ hr₂ hi₂ _ => ⟨trivial, fun e₂ _ => ?_⟩))
      generalize ((machine cfg).exec t (.fs (.createDirAll cfg.storage.quarantine)) e₂ w₂.store).1 = created
      cases created with
      | error _ => exact fun _ he => by cases he
      | ok _ =>
        rw [List.getLast?_concat, Option.getD_some]
        refine (wp_bind ..).2 (wp_request fun w₃ hr₃ hi₃ _ => ⟨⟨?_, ?_⟩, fun e₃ _ => ?_⟩)
        · exact hkept.not_quarantined hlayout hlocation
        · intro name' heq sha256' hv' hmatches'
          obtain rfl : name = name' := by simpa using heq
          obtain rfl := matches_unique hv hv' hmatches hmatches'
          exact hr₃.1 sha256 (hr₂.1 sha256 (hr₁.1 sha256 ho))
        · generalize hmoved : ((machine cfg).exec t (.fs (.rename (originRoot cfg.storage current.origin ++ dirs ++ [name])
            (cfg.storage.quarantine ++ [name]))) e₃ w₃.store).1 = moved
          cases moved with
          | error _ => exact fun _ he => by cases he
          | ok _ =>
            have hbans := bans_of_rename hmatches hmoved
            refine (wp_bind ..).2 (wp_request fun w₄ hr₄ hi₄ _ => ⟨trivial, fun e₄ _ _ he => ?_⟩)
            refine ⟨hr₄.2.banned sha256 hbans, ?_, gone_of_removeIf cfg t e₄ (Except.ok.inj he)⟩
            have hup₁ := (hr₁.2.running (hup rfl)).1
            have hup₂ := (hr₂.2.running hup₁).1
            have hup₃ := (hr₃.2.running hup₂).1
            exact (hr₄.2.running hup₃).1
    · simp only [dispose, if_neg hq]
      refine wp_mono (fun _ _ _ h => absurd h hq) (wp_of_harmless (p := ExceptT.run _) ?_)
      refine Task.Issues.run_bind (((removePhysicalFile_uses cfg current).issues fun _ => id).mono fun _ => harmless_of_disposes hlayout hkept)
        fun _ => ?_
      split <;> exact ⟨trivial, fun _ _ => rfl⟩

/-- A removal leaves a hash that was quarantined banned and without an entry. -/
theorem removeIndexedBlob_wp (hlayout : cfg.storage = .new root) (hlocal : cfg.nativeS3 = false)
    (hup : removal = .quarantined → w.store.up = true) :
    wp (machine cfg) (discipline cfg) t op (removeIndexedBlob cfg sha256 removal expected).run
      (fun x w => removal = .quarantined → x = .ok true → Removed cfg.storage sha256 w.store) w := by
  refine wp_withLock (removeLocked_ends cfg sha256 removal expected) fun w₁ hr₁ _ _ _ => ?_
  refine wp_mono (fun x w₂ h w₃ hr₃ _ _ _ hq hx => ?_)
    (removeLocked_wp hlayout hlocal (w₁.take_owner_self sha256 t) fun hq => (hr₁.2.running (hup hq)).1)
  have h₃ := (h hq hx).stable hr₃.2
  exact ⟨h₃.banned, h₃.up, h₃.gone⟩

/-! ## The background jobs -/

/-- A pass over superseded copies keeps what it could not remove. -/
theorem retrySuperseded_wp (hlayout : cfg.storage = .new root) {pending : List (Str × FileMetadata)}
    (hpending : ∀ e ∈ pending, Kept cfg.storage e.1 e.2) :
    wp (machine cfg) (discipline cfg) t op (retrySuperseded cfg pending).run
      (fun x _ => ∀ retry, x = .ok retry → ∀ e ∈ retry, Kept cfg.storage e.1 e.2) w := by
  induction pending generalizing w with
  | nil =>
    intro retry h
    cases h
    exact nofun
  | cons e pending ih =>
    obtain ⟨hfirst, hrest⟩ := List.forall_mem_cons.1 hpending
    have hremove : (guarded e.1 (removePhysicalFile cfg e.2)).run.Issues (Req.Harmless cfg.storage) :=
      ((removePhysicalFile_uses cfg e.2).issues_withLock).mono fun _ => harmless_of_disposes hlayout hfirst
    refine (wp_attempt_bind ..).2 (wp_mono (fun removed w₁ _ => ?_) (wp_of_harmless hremove))
    refine (wp_run_bind ..).2 (wp_mono (fun x w₂ hx => ?_) (ih hrest))
    cases x with
    | error _ => exact fun _ h => nomatch h
    | ok retry =>
      cases removed with
      | ok _ => exact hx
      | error _ =>
        intro retry' h
        cases h
        exact List.forall_mem_cons.2 ⟨hfirst, hx retry rfl⟩

/-- A pass over the queue of superseded copies. -/
theorem reconcileSupersededBlobs_wp (hlayout : cfg.storage = .new root) :
    wp (machine cfg) (discipline cfg) t op (reconcileSupersededBlobs cfg).run (fun _ _ => True) w := by
  refine (wp_lift_bind ..).2 (wp_request fun w₁ _ hi _ => ⟨trivial, fun e _ => ?_⟩)
  refine (wp_run_bind ..).2 (wp_mono (fun x w₂ hx => ?_) (retrySuperseded_wp hlayout hi.superseded))
  cases x with
  | error _ => exact trivial
  | ok retry => exact (wp_bind ..).2 (wp_request fun _ _ _ _ => ⟨hx retry rfl, fun _ _ => trivial⟩)

/-- The eviction of a candidate. -/
theorem deleteCleanupCandidate_wp (hlayout : cfg.storage = .new root) (hlocal : cfg.nativeS3 = false) {m : FileMetadata} :
    wp (machine cfg) (discipline cfg) t op (deleteCleanupCandidate cfg sha256 m).run (fun _ _ => True) w := by
  refine (wp_attempt_bind ..).2 (wp_mono (fun x _ _ => ?_) (removeIndexedBlob_wp hlayout hlocal nofun))
  cases x <;> exact trivial

/-- The eviction of expired blobs. -/
theorem evictExpired_wp (hlayout : cfg.storage = .new root) (hlocal : cfg.nativeS3 = false) (now : Nat)
    (entries : List (Str × FileMetadata)) :
    wp (machine cfg) (discipline cfg) t op (evictExpired cfg now entries).run (fun _ _ => True) w := by
  induction entries generalizing w with
  | nil => exact trivial
  | cons e entries ih =>
    unfold evictExpired
    simp only
    split
    · refine (wp_run_bind ..).2 (wp_mono (fun x _ _ => ?_) (deleteCleanupCandidate_wp hlayout hlocal))
      cases x with
      | error _ => exact trivial
      | ok _ => exact ih
    · exact ih

/-- The eviction under capacity pressure. -/
theorem evictCapacity_wp (hlayout : cfg.storage = .new root) (hlocal : cfg.nativeS3 = false) (entries : List (Str × FileMetadata))
    (totalSize totalFiles : Nat) :
    wp (machine cfg) (discipline cfg) t op (evictCapacity cfg entries totalSize totalFiles).run (fun _ _ => True) w := by
  induction entries generalizing w totalSize totalFiles with
  | nil => exact trivial
  | cons e entries ih =>
    unfold evictCapacity
    simp only
    split
    · exact trivial
    · refine (wp_run_bind ..).2 (wp_mono (fun x _ _ => ?_) (deleteCleanupCandidate_wp hlayout hlocal))
      cases x with
      | error _ => exact trivial
      | ok removed => cases removed <;> exact ih _ _

/-- A pass of the cleanup job. -/
theorem enforceStorageLimits_wp (hlayout : cfg.storage = .new root) (hlocal : cfg.nativeS3 = false) :
    wp (machine cfg) (discipline cfg) t op (Startup.enforceStorageLimits cfg).run (fun _ _ => True) w := by
  have hreads : ∀ {r : Req} {Q : Resp r → World Str AppState → Prop} {w : World Str AppState}, r.inspects → (∀ x w, Q x w) →
      wp (machine cfg) (discipline cfg) t op (request r) Q w :=
    fun hr hQ => wp_request fun _ _ _ _ => ⟨allowed_of_harmless (harmless_of_inspects hr), fun _ _ => hQ _ _⟩
  have hdirs : ∀ {root : Path} {w : World Str AppState},
      wp (machine cfg) (discipline cfg) t op (cleanupEmptyDirs root) (fun _ _ => True) w := fun {root w} =>
    wp_of_harmless ((cleanupEmptyDirs_uses (P := Req.Harmless cfg.storage) (fun _ => harmless_of_inspects) (fun _ => trivial) root).issues
      fun _ => id)
  refine (wp_lift_bind ..).2 ((wp_bind (request .systemTime) _ _).2 (hreads trivial fun ns w => ?_))
  refine (wp_run_bind ..).2 (wp_mono (fun x w _ => ?_) (reconcileSupersededBlobs_wp hlayout))
  cases x with
  | error _ => exact trivial
  | ok _ =>
  refine (wp_lift_bind ..).2 (hreads trivial fun entries w => ?_)
  refine (wp_run_bind ..).2 (wp_mono (fun x w _ => ?_) (evictExpired_wp hlayout hlocal _ entries))
  cases x with
  | error _ => exact trivial
  | ok _ =>
  refine (wp_lift_bind ..).2 (hreads trivial fun remaining w => ?_)
  refine (wp_run_bind ..).2 (wp_mono (fun x w _ => ?_) (evictCapacity_wp hlayout hlocal _ _ _))
  cases x with
  | error _ => exact trivial
  | ok _ =>
  refine (wp_lift_bind ..).2 (wp_mono (fun _ w _ => ?_) hdirs)
  exact (wp_bind ..).2 (wp_mono (fun _ _ _ => trivial) hdirs)

end

/-! ## Initialization -/

/-- A scan that found local files of their hashes. -/
def Finds (layout : StorageLayout) (scan : Scan) : Prop :=
  (∀ sha256 m, scan.map.lookup sha256 = some m → Kept layout sha256 m) ∧ ∀ m ∈ scan.displaced, ∃ sha256, Kept layout sha256 m

/-- The first task of a process, while the server is not up. -/
def Starts (t : Tid) (w : World Str AppState) : Prop :=
  w.next = t + 1 ∧ w.store.up = false

section

variable {cfg : Config} {t : Tid} {op : Op} {w w' : World Str AppState} {root : Path} {sha256 : Str} {α β : Type}

/-- Recording a file of a blob root. -/
theorem finds_record {libs : Libs} {origin : BlobOrigin} {scan : Scan} {dirs : Path} {name : Str} {parsed : BlobName.ParsedName}
    {size modified : Nat} (h : Finds cfg.storage scan) (hparse : BlobName.parse name = some parsed) :
    Finds cfg.storage (scan.record origin parsed.hash
      (scannedMetadata libs origin (originRoot cfg.storage origin ++ dirs ++ [name]) name parsed size modified)) := by
  refine ⟨fun sha256 m hm => ?_, fun m hm => ?_⟩
  · by_cases hsha : sha256 = parsed.hash
    · subst hsha
      obtain rfl := Option.some.inj ((AList.lookup_insert _).symm.trans hm)
      exact kept_of_scanned hparse
    · exact h.1 sha256 m ((AList.lookup_insert_ne hsha).symm.trans hm)
  · simp only [Scan.record] at hm
    split at hm
    · rename_i previous hprevious
      split at hm
      · rcases List.mem_append.1 hm with hm | hm
        · exact h.2 m hm
        · cases List.mem_singleton.1 hm
          exact ⟨parsed.hash, h.1 _ _ hprevious⟩
      · exact h.2 m hm
    · exact h.2 m hm

/-- The requests of the initialization before the server is up. -/
theorem Starts.wp_within {I : Req → Prop} {R : α → Prop} {p : Async α} (h : Starts t w) (hp : p.Within I R)
    (hI : ∀ r, I r → Req.Harmless cfg.storage r) :
    wp (machine cfg) (discipline cfg) t op p (fun a w => R a ∧ Starts t w) w := by
  refine hp.wp (fun _ _ hr _ h => hr.2.starting h.1 h.2) (fun _ _ hr _ _ => allowed_of_harmless (hI _ hr)) (fun w r e hr _ h => ?_) h
  refine ⟨h.1, (up_exec ?_).trans h.2⟩
  rintro rfl
  exact hI _ hr

/-- A step of the initialization, and what follows it. -/
theorem Starts.wp_bind {R : AppResult α → Prop} {x : AsyncResult α} {f : α → AsyncResult β} (h : Starts t w)
    (hx : x.run.Within (Req.Harmless cfg.storage) R)
    (hf : ∀ a w, R (.ok a) → Starts t w → wp (machine cfg) (discipline cfg) t op (f a).run (fun _ _ => True) w) :
    wp (machine cfg) (discipline cfg) t op (x >>= f).run (fun _ _ => True) w := by
  refine (wp_run_bind ..).2 (wp_mono ?_ (h.wp_within hx fun _ => id))
  rintro (_ | a) w₁ ⟨ha, h₁⟩
  · exact trivial
  · exact hf a w₁ ha h₁

/-- The initialization. -/
theorem buildState_wp (hlayout : cfg.storage = .new root) (hlocal : cfg.nativeS3 = false) (h : Starts t w) :
    wp (machine cfg) (discipline cfg) t op (buildState cfg).run (fun _ _ => True) w := by
  have hscan : ∀ origin scan, Finds cfg.storage scan →
      (scanBlobRoot cfg.libs (originRoot cfg.storage origin) origin scan).run.Within (Req.Harmless cfg.storage)
        fun x => ∀ scan, x = .ok scan → Finds cfg.storage scan := fun origin scan hscan =>
    scanBlobRoot_within cfg.libs (fun _ => harmless_of_inspects) (fun _ _ _ _ _ _ h hparse => finds_record h hparse) hscan
  have htemp : (clearTempDirectory cfg.storage.temp).run.Uses (Req.Harmless cfg.storage) := by
    refine clearTempDirectory_uses (fun _ => harmless_of_inspects) fun name => ?_
    have hscratch := not_quarantined_of_scratch hlayout ⟨name, [], rfl⟩
    refine ⟨⟨hscratch, fun hp => ?_⟩, hscratch⟩
    obtain ⟨rest, hrest⟩ := hp
    rw [hlayout] at hrest
    simp [StorageLayout.new] at hrest
  have hmigrate : (migrateLegacyBlobs cfg.storage).run.Uses (Req.Harmless cfg.storage) := by
    refine migrateLegacyBlobs_uses (fun _ => harmless_of_inspects) (fun _ => trivial) fun p q hp hq => ?_
    have hlegacy : ¬ cfg.storage.quarantine <+: p := by
      obtain ⟨name, rest, hname, rfl⟩ := hp
      rintro ⟨rest', hrest⟩
      rw [hlayout] at hrest
      have hquarantine : name = "quarantine".toList := by
        simp [StorageLayout.new] at hrest
        exact hrest.1.symm
      subst hquarantine
      simp [isLegacyName] at hname
    have hroot : originRoot cfg.storage .upload <+: q := hq
    exact ⟨hlegacy, hlegacy, not_quarantined_of_root hlayout hroot⟩
  refine h.wp_bind (createDirs_uses (fun _ => trivial) _) fun _ w₁ _ h₁ => ?_
  refine h₁.wp_bind (uses_attempt htemp) fun _ w₂ _ h₂ => ?_
  refine h₂.wp_bind hmigrate fun _ w₃ _ h₃ => ?_
  refine (wp_run_bind ..).2 (wp_mono (Q := fun _ w => Starts t w) (fun x w₄ h₄ => ?_) ?_)
  · cases x with
    | error _ => exact trivial
    | ok _ =>
      simp only [hlocal, Bool.false_eq_true, if_false]
      exact (wp_bind ..).2 (wp_request fun w₅ hr _ _ => ⟨(hr.2.starting h₄.1 h₄.2).1, fun _ _ => trivial⟩)
  · unfold buildFileIndex
    refine (wp_run_bind ..).2 (wp_mono (fun x w₄ hx => ?_) (h₃.wp_within (hscan .upstreamCache .empty ⟨fun _ _ h => (by cases h), fun _ h => by cases h⟩) fun _ => id))
    cases x with
    | error _ => exact hx.2
    | ok cached =>
      refine (wp_run_bind ..).2 (wp_mono (fun x w₅ hx => ?_)
        (hx.2.wp_within (hscan .upload { cached with displaced := [] } ⟨(hx.1 cached rfl).1, fun _ h => by cases h⟩) fun _ => id))
      cases x with
      | error _ => exact hx.2
      | ok scan =>
        obtain ⟨hfinds, h₅⟩ := hx
        refine (wp_lift_bind ..).2 (wp_request fun w₆ hr _ _ => ?_)
        have h₆ : Starts t w₆ := hr.2.starting h₅.1 h₅.2
        refine ⟨⟨h₆.2, (hfinds scan rfl).1⟩, fun e _ => ?_⟩
        have hremoves : (removeDuplicates scan.displaced).Uses (Req.Harmless cfg.storage) := by
          refine removeDuplicates_uses fun m hm p hp => ?_
          obtain ⟨sha256, hkept⟩ := (hfinds scan rfl).2 m hm
          exact hkept.not_quarantined hlayout hp
        exact (Conc.wp_bind ..).2 (wp_mono (fun _ _ h => h.2) (Starts.wp_within (R := fun _ => True) h₆ hremoves fun _ => id))

/-! ## All programs -/

/-- What an operation finishes with: a hash that was quarantined is banned and has no entry. -/
def Finishes (layout : StorageLayout) (_t : Tid) (op : Op) (a : Report) (w : World Str AppState) : Prop :=
  ∀ sha256 expected, op = .remove sha256 .quarantined expected → a.2 = .removed (.ok true) → Removed layout sha256 w.store

/-- Whether an operation can be running. -/
def Runs (t : Tid) (op : Op) (w : World Str AppState) : Prop :=
  match op with
  | .boot => Starts t w
  | .syncIndex => False
  | _ => w.store.up = true

/-- A task that is put together from harmless requests and publications. -/
theorem wp_built {γ : Type} {I : Req → Prop} {S : Async γ → Prop} {R : α → Prop} {p : Async α}
    (hp : p.Built (Req.Foresees cfg.storage) I S R) (hI : ∀ r, I r → Req.Harmless cfg.storage r)
    (hS : ∀ s w, S s → wp (machine cfg) (discipline cfg) t op s (fun _ _ => True) w) :
    wp (machine cfg) (discipline cfg) t op p (fun _ _ => True) w := by
  refine wp_mono (fun _ _ _ => trivial) (hp.wp (F := fun _ => True) (fun _ _ _ _ => id) (fun _ _ hr _ _ => allowed_of_harmless (hI _ hr))
    (fun w r e hr hi _ => ?_) (fun _ _ _ _ _ _ => trivial) (fun w s hs _ => hS s w hs) trivial)
  exact (wellFormed_exec hi.sessions (keepsWellFormed_of_allowed (w := w) (t := t) (allowed_of_harmless (hI r hr)))).2

/-- Every program of a server without a bucket. -/
theorem wp_program (hlayout : cfg.storage = .new root) (hlocal : cfg.nativeS3 = false) (hruns : Runs t op w) :
    wp (machine cfg) (discipline cfg) t op (program cfg op).traced (Finishes cfg.storage t op) w := by
  have hplain : (∀ sha256 expected, op ≠ .remove sha256 .quarantined expected) →
      wp (machine cfg) (discipline cfg) t op (program cfg op) (fun _ _ => True) w →
      wp (machine cfg) (discipline cfg) t op (program cfg op).traced (Finishes cfg.storage t op) w := fun hop h =>
    wp_mono (fun _ _ _ sha256 expected heq => absurd heq (hop sha256 expected)) (wp_traced h)
  have hpublish : ∀ {target : Str → Prop} s w, PublishesBlob cfg target s →
      wp (machine cfg) (discipline cfg) t op s (fun _ _ => True) w := by
    rintro target _ w ⟨temp, publication, ht, _, rfl⟩
    exact publishBlob_wp hlayout hlocal ht
  have hreceives : op.isUpload = true → wp (machine cfg) (discipline cfg) t op (program cfg op) (fun _ _ => True) w := fun hop =>
    wp_built (program_receives hop) (fun _ => harmless_of_receives hlayout) hpublish
  cases op with
  | boot => exact hplain nofun ((Conc.wp_bind ..).2 (wp_mono (fun _ _ _ => trivial) (buildState_wp hlayout hlocal hruns)))
  | syncIndex => exact hruns.elim
  | get headers head filename =>
    refine hplain nofun (wp_built (program_searches headers head filename) (fun _ h => harmless_of_receives hlayout h.prepares.receives) ?_)
    rintro _ _ ⟨hnative, _⟩
    nomatch hlocal.symm.trans hnative
  | remove sha256 removal expected =>
    refine wp_mono (fun a w h => ?_) (wp_traced (Q := fun a w => removal = .quarantined → a = .removed (.ok true) →
      Removed cfg.storage sha256 w.store) ((Conc.wp_bind ..).2 (wp_mono (fun x w h => ?_)
        (removeIndexedBlob_wp hlayout hlocal fun _ => hruns))))
    · intro sha256' expected' heq ha
      cases heq
      exact h rfl ha
    · intro hq ha
      cases ha
      exact h hq rfl
  | enforceStorageLimits =>
    exact hplain nofun ((Conc.wp_bind ..).2 (wp_mono (fun _ _ _ => trivial) (enforceStorageLimits_wp hlayout hlocal)))
  | cleanupAbandonedChunks =>
    exact hplain nofun (wp_built (program_sweeps cfg) (fun _ h => harmless_of_receives hlayout h.settles.receives) hpublish)
  | upload headers body => exact hplain nofun (hreceives rfl)
  | mirror headers body => exact hplain nofun (hreceives rfl)
  | patch headers body => exact hplain nofun (hreceives rfl)
  | publish publication body => exact hplain nofun (hreceives rfl)

/-- A step that leaves the quarantine, the index and the number of tasks is within every rely. -/
theorem rely_of_same (hfiles : ∀ name, w'.store.disk.hasFile (cfg.storage.quarantine ++ [name]) =
    w.store.disk.hasFile (cfg.storage.quarantine ++ [name])) (hindex : w'.store.index = w.store.index)
    (hup : w'.store.up = w.store.up) (hnext : w'.next = w.next) : Rely cfg.storage t w w' where
  banned _ := fun ⟨name, hm, hf⟩ => ⟨name, hm, (hfiles name).trans hf⟩
  guarded _ _ _ := fun ⟨name, hm, hf⟩ => ⟨name, hm, (hfiles name).symm.trans hf⟩
  running h := ⟨hup.trans h, fun _ _ hnone => hindex ▸ hnone⟩
  starting h h' := ⟨hnext.trans h, hup.trans h'⟩

/-- A dropped task takes nothing from the quarantine. -/
theorem hasFile_discard (hlayout : cfg.storage = .new root) (hc : Clean cfg.storage w.store) (name : Str) :
    (discard t w.store).disk.hasFile (cfg.storage.quarantine ++ [name]) = w.store.disk.hasFile (cfg.storage.quarantine ++ [name]) := by
  rcases Disk.lookup_unlinks w.store.disk (w.store.temps.filter (·.1 = t)) (cfg.storage.quarantine ++ [name]) with hsame | ⟨x, hx, hp⟩
  · exact congrArg Option.isSome hsame
  · exact absurd (hp ▸ List.prefix_append ..) (not_quarantined_of_scratch hlayout (hc.temps x (List.mem_filter.1 hx).1))

/-- A server without a bucket keeps the discipline of the quarantine. -/
theorem fits (hlayout : cfg.storage = .new root) (hlocal : cfg.nativeS3 = false) :
    Fits (machine cfg) (discipline cfg) (Finishes cfg.storage) where
  rely_refl _ _ := rely_of_same (fun _ => rfl) rfl rfl rfl
  rely_trans t w₁ w₂ w₃ h h' := by
    refine ⟨fun sha256 hb => h'.banned sha256 (h.2.banned sha256 hb), fun sha256 hv ho hb => ?_, fun hup => ?_, fun hnext hup => ?_⟩
    · exact h.2.guarded sha256 hv ho (h'.guarded sha256 hv (h.1 sha256 ho) hb)
    · obtain ⟨hup₂, hgone⟩ := h.2.running hup
      obtain ⟨hup₃, hgone'⟩ := h'.running hup₂
      exact ⟨hup₃, fun sha256 hb hnone => hgone' sha256 (h.2.banned sha256 hb) (hgone sha256 hb hnone)⟩
    · obtain ⟨hnext₂, hup₂⟩ := h.2.starting hnext hup
      exact h'.starting hnext₂ hup₂
  post_stable _ _ _ _ _ hr _ h sha256 expected hop ha := (h sha256 expected hop ha).stable hr.2
  call _ _ _ _ _ hi _ _ hallow := ⟨clean_exec hlayout hi hallow, fun _ hne => rely_of_allowed hlayout hi hallow hne⟩
  take _ _ _ hi _ _ := ⟨hi, fun _ _ => rely_of_same (fun _ => rfl) rfl rfl rfl⟩
  give _ _ _ hi _ _ := ⟨hi, fun _ _ => rely_of_same (fun _ => rfl) rfl rfl rfl⟩
  drop w t op hi _ := by
    refine ⟨⟨hi.sessions, fun x hx => hi.temps x (List.mem_filter.1 hx).1, hi.entries, hi.superseded, fun name hf => ?_⟩, fun _ _ =>
      rely_of_same (hasFile_discard hlayout hi) rfl rfl rfl⟩
    have hdirs : ∀ (temps : List (Tid × Path)) (d : Disk), (temps.foldl (fun d p => d.unlink p.2) d).dirs = d.dirs := by
      intro temps
      induction temps with
      | nil => exact fun _ => rfl
      | cons x temps ih => exact fun d => ih _
    refine (hdirs (w.store.temps.filter (·.1 = t)) w.store.disk).symm ▸ ?_
    exact hi.directory name ((hasFile_discard hlayout hi name).symm.trans hf)
  tick _ _ hi := ⟨⟨hi.sessions, hi.temps, hi.entries, hi.superseded, hi.directory⟩, fun _ => rely_of_same (fun _ => rfl) rfl rfl rfl⟩
  spawn w op hi _ he := by
    have hup : w.store.up = true := by
      cases op with
      | boot => nomatch he
      | syncIndex => exact (Bool.and_eq_true_iff.1 he).1
      | _ => exact he
    refine ⟨hi, fun t _ => ⟨fun _ => id, fun _ _ _ => id, fun h => ⟨h, fun _ _ => id⟩, fun _ hdown => nomatch hup.symm.trans hdown⟩,
      wp_program hlayout hlocal ?_⟩
    cases op with
    | boot => nomatch he
    | syncIndex => nomatch hlocal.symm.trans (Bool.and_eq_true_iff.1 he).2
    | _ => exact hup
  crash w hi _ := by
    refine ⟨⟨SessionState.each_empty _, nofun, fun sha256 m hm => ?_, nofun, hi.directory⟩, wp_program hlayout hlocal ⟨rfl, rfl⟩⟩
    nomatch hm

end

end Almond.Quarantine
