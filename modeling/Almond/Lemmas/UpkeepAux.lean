import Almond.Lemmas.ChunksAux
import Almond.Lemmas.GuardedAux
import Almond.Lemmas.NamesAux
import Almond.Lemmas.TreesAux
import Almond.Store

/-! # Disk and index in step

The files of a hash change only under its mutation guard, and a task that gives the guard back leaves one file at the place of the
entry, or no file and no entry. -/

namespace Almond

open Conc FileStorage

namespace Upkeep

/-! ## The files of a hash -/

section

variable {root : Path} {layout : StorageLayout} {sha256 sha256' : Str} {p q : Path}

/-- A path below a root, under a name of the hash. -/
def Belongs (layout : StorageLayout) (sha256 : Str) (p : Path) : Prop :=
  ∃ origin parsed, BlobPath layout origin p parsed ∧ parsed.hash = sha256

/-- A path is named for one hash. -/
theorem Belongs.unique (h : Belongs layout sha256 p) (h' : Belongs layout sha256' p) : sha256 = sha256' := by
  obtain ⟨origin, parsed, ⟨dirs, name, rfl, hparse⟩, rfl⟩ := h
  obtain ⟨origin', parsed', ⟨dirs', name', hp, hparse'⟩, rfl⟩ := h'
  obtain rfl : name = name' := by simpa using congrArg List.getLast? hp
  rw [Option.some.inj (hparse.symm.trans hparse')]

/-- A scratch file belongs to no hash. -/
theorem Belongs.ne_scratch (hlayout : layout = .new root) (h : Belongs layout sha256 p) (hq : Scratch layout q) : p ≠ q := by
  subst hlayout
  obtain ⟨origin, _, ⟨dirs, name, rfl, _⟩, _⟩ := h
  obtain ⟨first, rest, rfl⟩ := hq
  cases origin <;> simp [originRoot, StorageLayout.new]

/-- A quarantined file belongs to no hash. -/
theorem Belongs.ne_quarantined (hlayout : layout = .new root) (h : Belongs layout sha256 p) (name : Str) :
    p ≠ layout.quarantine ++ [name] := by
  subst hlayout
  obtain ⟨origin, _, ⟨dirs, name', rfl, _⟩, _⟩ := h
  cases origin <;> simp [originRoot, StorageLayout.new]

end

/-- An entry that the name and the length of its file spell out. -/
structure Spelled (layout : StorageLayout) (sha256 : Str) (m : FileMetadata) (p : Path) (size : Nat) : Prop where
  location : m.location = .localFile p
  size : m.size = size
  named : ∃ dirs name parsed, p = originRoot layout m.origin ++ dirs ++ [name] ∧ BlobName.parse name = some parsed ∧
    parsed.hash = sha256 ∧ m.expiration = parsed.expiration ∧ m.extension = Startup.pathExtension name

/-- The file of an entry belongs to its hash. -/
theorem Spelled.belongs {layout : StorageLayout} {sha256 : Str} {m : FileMetadata} {p : Path} {size : Nat}
    (h : Spelled layout sha256 m p size) : Belongs layout sha256 p := by
  obtain ⟨dirs, name, parsed, hp, hparse, hsha, _⟩ := h.named
  exact ⟨m.origin, parsed, ⟨dirs, name, hp, hparse⟩, hsha⟩

/-- What the index and the disk have of one hash is in step: one file where the entry says, or no file and no entry. -/
def InStep (layout : StorageLayout) (nodes : Ino → Node) (sha256 : Str) (entry : Option FileMetadata) (files : Path → Option Ino) :
    Prop :=
  match entry with
  | none => ∀ p, Belongs layout sha256 p → files p = none
  | some m => ∃ p ino, Spelled layout sha256 m p (nodes ino).data.length ∧
      ∀ q, Belongs layout sha256 q → files q = if q = p then some ino else none

/-- Only the files of the hash matter. -/
theorem InStep.congr {layout : StorageLayout} {nodes : Ino → Node} {sha256 : Str} {entry : Option FileMetadata}
    {files files' : Path → Option Ino} (h : InStep layout nodes sha256 entry files)
    (hfiles : ∀ p, Belongs layout sha256 p → files' p = files p) : InStep layout nodes sha256 entry files' := by
  cases entry with
  | none => exact fun p hp => (hfiles p hp).trans (h p hp)
  | some m =>
    obtain ⟨p, ino, hs, hall⟩ := h
    exact ⟨p, ino, hs, fun q hq => (hfiles q hq).trans (hall q hq)⟩

/-- What a state has of one hash is in step. -/
def Matches (cfg : Config) (s : AppState) (sha256 : Str) : Prop :=
  InStep cfg.storage s.disk.nodes sha256 (s.index.get sha256) fun p => s.disk.names.lookup p

/-! ## The discipline -/

/-- What a task may request. -/
def May (cfg : Config) (w : World Str AppState) (t : Tid) (op : Upkeep) : Req → Prop
  | .fs (.createDirAll _) => True
  | .fs (.removeFile p) => ∃ sha256, w.owner sha256 = some t ∧ Belongs cfg.storage sha256 p
  | .fs (.removeDir p) => ∀ origin, p ≠ originRoot cfg.storage origin
  | .fs (.rename p q) => ∃ sha256, w.owner sha256 = some t ∧
      ((t, p) ∈ w.store.temps ∧ Belongs cfg.storage sha256 q ∨
        Belongs cfg.storage sha256 p ∧ ∃ name, q = cfg.storage.quarantine ++ [name])
  | .index (.publish sha256 _) | .index (.removeIfLocationMatches sha256 _) => w.owner sha256 = some t
  | .extendSuperseded retry => retry = []
  | .adoptTemp p => Scratch cfg.storage p ∧ ∃ temp publication, op = .publish temp publication
  | .takeSuperseded | .intoPublished _ | .dropTemp _ => True
  | r => r.inspects

/-- A request that reads is allowed. -/
theorem may_of_inspects {cfg : Config} {w : World Str AppState} {t : Tid} {op : Upkeep} {r : Req} (h : r.inspects) :
    May cfg w t op r := by
  cases r with
  | fs r => cases r <;> first | exact h | exact h.elim
  | index r => cases r <;> first | exact h | exact h.elim
  | _ => first | exact h | exact h.elim

/-- What holds between any two steps: what the index and the disk have of a hash is in step unless its guard is held. -/
structure Orderly (cfg : Config) (nodes : Ino → Node) (w : World Str AppState) : Prop where
  matches_of_free : ∀ sha256, w.owner sha256 = none → Matches cfg w.store sha256
  nodes : w.store.disk.nodes = nodes
  tree : w.store.disk.Tree
  roots : ∀ origin, originRoot cfg.storage origin ∈ w.store.disk.dirs
  superseded : w.store.superseded = []
  /-- A temporary file has one owner. -/
  owned : (w.store.temps.map Prod.snd).Nodup
  scratch : ∀ x ∈ w.store.temps, Scratch cfg.storage x.2

/-- The rules of the operations: the entry and the files of a hash are the holder's of its guard, a temporary file is its owner's, and
a guard is given back when its hash is in step. -/
def discipline (cfg : Config) (nodes : Ino → Node) : Discipline Req Str AppState Upkeep where
  inv := Orderly cfg nodes
  rely t w w' :=
    (∀ sha256, w.owner sha256 = some t → w'.store.index.get sha256 = w.store.index.get sha256 ∧
      ∀ p, Belongs cfg.storage sha256 p → w'.store.disk.names.lookup p = w.store.disk.names.lookup p) ∧
    ∀ p, (t, p) ∈ w.store.temps → (t, p) ∈ w'.store.temps ∧ w'.store.disk.names.lookup p = w.store.disk.names.lookup p
  assume w _ op r := promised w.store op r = true
  allow w t op r := May cfg w t op r
  gives w _ sha256 := Matches cfg w.store sha256
  ops
    | .publish _ publication => proper publication = true
    | _ => True
  drops _ _ _ := False
  crashes := False

/-- What a request of one task leaves to the others. -/
structure Spares (cfg : Config) (t : Tid) (w : World Str AppState) (s' : AppState) : Prop where
  entries : ∀ sha256, w.owner sha256 ≠ some t → s'.index.get sha256 = w.store.index.get sha256
  files : ∀ sha256 p, w.owner sha256 ≠ some t → Belongs cfg.storage sha256 p →
    s'.disk.names.lookup p = w.store.disk.names.lookup p
  temps : ∀ t' p, t' ≠ t → (t', p) ∈ w.store.temps →
    (t', p) ∈ s'.temps ∧ s'.disk.names.lookup p = w.store.disk.names.lookup p
  nodes : s'.disk.nodes = w.store.disk.nodes
  tree : s'.disk.Tree
  roots : ∀ origin, originRoot cfg.storage origin ∈ s'.disk.dirs
  superseded : s'.superseded = []
  owned : (s'.temps.map Prod.snd).Nodup
  scratch : ∀ x ∈ s'.temps, Scratch cfg.storage x.2

section

variable {cfg : Config} {nodes : Ino → Node} {root : Path} {t : Tid} {op : Upkeep} {w : World Str AppState} {s' : AppState}

/-- A change of the files only. -/
theorem Spares.of_disk (hi : Orderly cfg nodes w) {d : Disk} {writing : List (Tid × Path)} (htree : d.Tree)
    (hdirs : ∀ origin, originRoot cfg.storage origin ∈ d.dirs) (hnodes : d.nodes = w.store.disk.nodes)
    (hfiles : ∀ sha256 p, w.owner sha256 ≠ some t → Belongs cfg.storage sha256 p → d.names.lookup p = w.store.disk.names.lookup p)
    (htemps : ∀ t' p, t' ≠ t → (t', p) ∈ w.store.temps → d.names.lookup p = w.store.disk.names.lookup p) :
    Spares cfg t w { w.store with disk := d, writing := writing } where
  entries _ _ := rfl
  files := hfiles
  temps t' p ht hp := ⟨hp, htemps t' p ht hp⟩
  nodes := hnodes
  tree := htree
  roots := hdirs
  superseded := hi.superseded
  owned := hi.owned
  scratch := hi.scratch

/-- A state with the same disk, entries, queue and owners. -/
theorem Spares.of_eq (hi : Orderly cfg nodes w) (hd : s'.disk = w.store.disk)
    (hindex : ∀ sha256, w.owner sha256 ≠ some t → s'.index.get sha256 = w.store.index.get sha256)
    (hs : s'.superseded = []) (ht : s'.temps = w.store.temps) : Spares cfg t w s' where
  entries := hindex
  files _ _ _ _ := by rw [hd]
  temps _ _ _ hp := ⟨ht ▸ hp, by rw [hd]⟩
  nodes := by rw [hd]
  tree := hd ▸ hi.tree
  roots := hd ▸ hi.roots
  superseded := hs
  owned := ht ▸ hi.owned
  scratch := ht ▸ hi.scratch

/-- Two tasks own different temporary files. -/
theorem Orderly.temp_ne (hi : Orderly cfg nodes w) {t' : Tid} {p q : Path} (ht : t' ≠ t) (hp : (t, p) ∈ w.store.temps)
    (hq : (t', q) ∈ w.store.temps) : q ≠ p := by
  rintro rfl
  have := List.inj_on_of_nodup_map hi.owned hp hq rfl
  exact ht (congrArg Prod.fst this).symm

/-- An allowed request leaves the others what is theirs. -/
theorem spares_of_may (hlayout : cfg.storage = .new root) (hi : Orderly cfg nodes w) {r : Req} {e : Env} (he : e.fs.fault = none)
    (hpromised : promised w.store op r = true) (hm : May cfg w t op r) : Spares cfg t w (exec cfg t r e w.store).2 := by
  by_cases hr : r.inspects
  · rw [exec_of_inspects hr]
    exact .of_eq hi rfl (fun _ _ => rfl) hi.superseded rfl
  have hexec : ∀ q, w.store.disk.exec e.fs w.store.clock.system q = w.store.disk.perform e.fs w.store.clock.system q := by
    intro q
    rw [Disk.exec, he]
  have hsame : Spares cfg t w w.store := .of_eq hi rfl (fun _ _ => rfl) hi.superseded rfl
  have hscratch : ∀ {t' p}, (t', p) ∈ w.store.temps → Scratch cfg.storage p := fun hp => hi.scratch _ hp
  cases r with
  | fs r =>
    simp only [exec, hexec]
    cases r with
    | createDirAll p =>
      simp only [Disk.perform]
      split
      · exact hsame
      · rename_i hclear
        have hfree : ∀ q, q <+: p → w.store.disk.hasFile q = false :=
          fun q hq => Bool.eq_false_iff.2 fun hf => hclear (Disk.obstructed_iff.2 ⟨q, hq, hf⟩)
        exact .of_disk hi (hi.tree.createDirAll hfree) (fun origin => List.mem_append_left _ (hi.roots origin)) rfl
          (fun _ _ _ _ => rfl) fun _ _ _ _ => rfl
    | removeDir p =>
      simp only [Disk.perform]
      split
      · split
        · rename_i hempty
          refine .of_disk hi (hi.tree.removeDir hempty) (fun origin => ?_) rfl (fun _ _ _ _ => rfl) fun _ _ _ _ => rfl
          exact List.mem_filter.2 ⟨hi.roots origin, decide_eq_true (hm origin).symm⟩
        · exact hsame
      · exact hsame
    | removeFile p =>
      obtain ⟨sha256, howner, hbelongs⟩ := hm
      simp only [Disk.perform]
      split
      · refine .of_disk hi (hi.tree.unlink p) hi.roots rfl (fun sha256' q hne hq => ?_) fun t' q _ hq => ?_
        · rw [Disk.lookup_unlink, if_neg]
          rintro rfl
          exact hne (hbelongs.unique hq ▸ howner)
        · rw [Disk.lookup_unlink, if_neg (hbelongs.ne_scratch hlayout (hscratch hq)).symm]
      · exact hsame
    | rename p q =>
      obtain ⟨sha256, howner, hpq⟩ := hm
      -- Neither name is another task's.
      have hfile : ∀ sha256' x, w.owner sha256' ≠ some t → Belongs cfg.storage sha256' x → x ≠ q ∧ x ≠ p := by
        intro sha256' x hne hx
        have hother : ∀ y, Belongs cfg.storage sha256 y → x ≠ y := by
          rintro y hy rfl
          exact hne (hy.unique hx ▸ howner)
        rcases hpq with ⟨hp, hq⟩ | ⟨hp, name, rfl⟩
        · exact ⟨hother q hq, hx.ne_scratch hlayout (hscratch hp)⟩
        · exact ⟨hx.ne_quarantined hlayout name, hother p hp⟩
      have htemp : ∀ t' x, t' ≠ t → (t', x) ∈ w.store.temps → x ≠ q ∧ x ≠ p := by
        intro t' x ht hx
        rcases hpq with ⟨hp, hq⟩ | ⟨hp, name, rfl⟩
        · exact ⟨(hq.ne_scratch hlayout (hscratch hx)).symm, hi.temp_ne ht hp hx⟩
        · refine ⟨?_, (hp.ne_scratch hlayout (hscratch hx)).symm⟩
          rintro rfl
          obtain ⟨first, rest, hs⟩ := hscratch hx
          simp [hlayout, StorageLayout.new] at hs
      simp only [Disk.perform]
      split
      · exact hsame
      · split
        · exact hsame
        · rename_i hnot
          split
          · rename_i hparent
            refine .of_disk hi (hi.tree.move (by simpa using hnot) hparent _) hi.roots rfl (fun sha256' x hne hx => ?_)
              fun t' x ht hx => ?_
            · rw [Disk.lookup_move, if_neg (hfile _ x hne hx).1, if_neg (hfile _ x hne hx).2]
            · rw [Disk.lookup_move, if_neg (htemp t' x ht hx).1, if_neg (htemp t' x ht hx).2]
          · exact hsame
    | _ => first | exact absurd trivial hr | exact absurd hm hr
  | index r =>
    cases r with
    | publish sha256 m =>
      exact .of_eq hi rfl (fun sha256' hne => BlobIndex.get_publish_of_ne _ m fun h => hne (h ▸ hm)) hi.superseded rfl
    | removeIfLocationMatches sha256 loc =>
      exact .of_eq hi rfl (fun sha256' hne => BlobIndex.get_removeIf_of_ne _ loc fun h => hne (h ▸ hm)) hi.superseded rfl
    | _ => first | exact absurd trivial hr | exact absurd hm hr
  | takeSuperseded => exact .of_eq hi rfl (fun _ _ => rfl) rfl rfl
  | extendSuperseded retry =>
    obtain rfl : retry = [] := hm
    exact .of_eq hi rfl (fun _ _ => rfl) ((List.append_nil _).trans hi.superseded) rfl
  | adoptTemp p =>
    obtain ⟨hs, temp, publication, rfl⟩ := hm
    have hnew : ∀ x ∈ w.store.temps, x.2 ≠ p := by
      intro x hx
      simpa using List.all_eq_true.1 (Bool.and_eq_true_iff.1 hpromised).1 x hx
    refine ⟨fun _ _ => rfl, fun _ _ _ _ => rfl, fun t' q _ hq => ⟨List.mem_cons_of_mem _ hq, rfl⟩, rfl, hi.tree, hi.roots,
      hi.superseded, List.nodup_cons.2 ⟨fun h => ?_, hi.owned⟩, List.forall_mem_cons.2 ⟨hs, hi.scratch⟩⟩
    obtain ⟨x, hx, he⟩ := List.mem_map.1 h
    exact hnew x hx he
  | intoPublished p =>
    have hsub : (w.store.temps.erase (t, p)).Sublist w.store.temps := List.erase_sublist
    refine ⟨fun _ _ => rfl, fun _ _ _ _ => rfl, fun t' q ht hq => ⟨?_, rfl⟩, rfl, hi.tree, hi.roots, hi.superseded,
      hi.owned.sublist (hsub.map _), fun x hx => hi.scratch x (hsub.subset hx)⟩
    exact (List.mem_erase_of_ne fun h => ht (congrArg Prod.fst h)).2 hq
  | dropTemp p =>
    simp only [exec]
    split
    · rename_i hc
      have hp : (t, p) ∈ w.store.temps := by simpa using hc
      have hsub : (w.store.temps.erase (t, p)).Sublist w.store.temps := List.erase_sublist
      refine ⟨fun _ _ => rfl, fun sha256 q _ hq => ?_, fun t' q ht hq => ⟨?_, ?_⟩, rfl, hi.tree.unlink p, hi.roots, hi.superseded,
        hi.owned.sublist (hsub.map _), fun x hx => hi.scratch x (hsub.subset hx)⟩
      · rw [Disk.lookup_unlink, if_neg (hq.ne_scratch hlayout (hscratch hp))]
      · exact (List.mem_erase_of_ne fun h => ht (congrArg Prod.fst h)).2 hq
      · rw [Disk.lookup_unlink, if_neg (hi.temp_ne ht hp hq)]
    · exact hsame
  | _ => first | exact absurd trivial hr | exact absurd hm hr

/-- An allowed request keeps the rules, and stays within what the others expect. -/
theorem orderly_of_may (hlayout : cfg.storage = .new root) (hi : Orderly cfg nodes w) {r : Req}
    {e : {e : Env // e.fs.fault = none}} (hp : promised w.store op r = true) (hm : May cfg w t op r) :
    Orderly cfg nodes (w.setStore ((upkeep cfg).exec t r e w.store).2) ∧
      ∀ t', t' ≠ t → (discipline cfg nodes).rely t' w (w.setStore ((upkeep cfg).exec t r e w.store).2) := by
  have hs : Spares cfg t w ((upkeep cfg).exec t r e w.store).2 := spares_of_may hlayout hi e.2 hp hm
  refine ⟨⟨fun sha256 hfree => ?_, hs.nodes.trans hi.nodes, hs.tree, hs.roots, hs.superseded, hs.owned, hs.scratch⟩,
    fun t' ht => ⟨fun sha256 ho => ?_, fun p hp => hs.temps t' p ht hp⟩⟩
  · have hne : w.owner sha256 ≠ some t := by
      rw [show w.owner sha256 = none from hfree]
      nofun
    have hold := hi.matches_of_free sha256 hfree
    unfold Matches at hold ⊢
    rw [World.setStore_store, hs.entries sha256 hne, hs.nodes]
    exact hold.congr fun p hp => hs.files sha256 p hne hp
  · have hne : w.owner sha256 ≠ some t := by
      rw [ho]
      exact fun h => ht (Option.some.inj h)
    exact ⟨hs.entries sha256 hne, fun p hp => hs.files sha256 p hne hp⟩

end

/-! ## Under the guard -/

/-- A task owns a temporary file. -/
structure Carries (t : Tid) (temp : Path) (ino : Ino) (w : World Str AppState) : Prop where
  owned : (t, temp) ∈ w.store.temps
  file : w.store.disk.names.lookup temp = some ino

/-- A task holds the guard of a hash with its entry and its files, and maybe a temporary file. -/
structure Holding (cfg : Config) (t : Tid) (sha256 : Str) (entry : Option FileMetadata) (files : Path → Option Ino)
    (carried : Option (Path × Ino)) (w : World Str AppState) : Prop where
  owner : w.owner sha256 = some t
  entry : w.store.index.get sha256 = entry
  files : ∀ p, Belongs cfg.storage sha256 p → w.store.disk.names.lookup p = files p
  carries : ∀ x, carried = some x → Carries t x.1 x.2 w

/-- A task holds the guard of a hash, and what is there of the hash is in step. -/
structure Settled (cfg : Config) (t : Tid) (sha256 : Str) (w : World Str AppState) : Prop where
  owner : w.owner sha256 = some t
  inStep : Matches cfg w.store sha256

section

variable {cfg : Config} {nodes : Ino → Node} {root : Path} {t : Tid} {op : Upkeep} {w w' : World Str AppState} {sha256 : Str}
  {entry : Option FileMetadata} {files : Path → Option Ino} {carried : Option (Path × Ino)} {α : Type}

/-- The owner of a temporary file keeps it. -/
theorem Carries.stable {temp : Path} {ino : Ino} (hr : (discipline cfg nodes).Expects t w w') (h : Carries t temp ino w) :
    Carries t temp ino w' := by
  obtain ⟨hm, hl⟩ := hr.2.2 temp h.owned
  exact ⟨hm, hl.trans h.file⟩

/-- A file that was not there is no loss. -/
theorem Holding.of_missing {p : Path} (h : Holding cfg t sha256 entry (fun q => if q = p then none else files q) carried w)
    (hp : files p = none) : Holding cfg t sha256 entry files carried w := by
  refine ⟨h.owner, h.entry, fun q hq => (h.files q hq).trans ?_, h.carries⟩
  by_cases hqp : q = p
  · rw [if_pos hqp, hqp, hp]
  · rw [if_neg hqp]

/-- What a task holds stays as it is while the others move. -/
theorem Holding.stable (hr : (discipline cfg nodes).Expects t w w') (h : Holding cfg t sha256 entry files carried w) :
    Holding cfg t sha256 entry files carried w' := by
  obtain ⟨he, hf⟩ := hr.2.1 sha256 h.owner
  exact ⟨hr.1 sha256 h.owner, he.trans h.entry, fun p hp => (hf p hp).trans (h.files p hp), fun x hx => (h.carries x hx).stable hr⟩

/-- What a task holds, when it is in step. -/
theorem Holding.settled (hi : Orderly cfg nodes w) (h : Holding cfg t sha256 entry files carried w)
    (hs : InStep cfg.storage nodes sha256 entry files) : Settled cfg t sha256 w := by
  refine ⟨h.owner, ?_⟩
  unfold Matches
  rw [h.entry, hi.nodes]
  exact hs.congr h.files

/-- A task that holds a guard keeps its hash in step while the others move. -/
theorem Settled.stable (hi : Orderly cfg nodes w) (hi' : Orderly cfg nodes w') (hr : (discipline cfg nodes).Expects t w w')
    (h : Settled cfg t sha256 w) : Settled cfg t sha256 w' := by
  obtain ⟨he, hf⟩ := hr.2.1 sha256 h.owner
  have hold := h.inStep
  refine ⟨hr.1 sha256 h.owner, ?_⟩
  unfold Matches at hold ⊢
  rw [he, hi'.nodes, ← hi.nodes]
  exact hold.congr hf

/-- The rule of one request under the guard. -/
theorem wp_holding {r : Req} {Q : Resp r → World Str AppState → Prop} (h : Holding cfg t sha256 entry files carried w)
    (hm : ∀ w, Orderly cfg nodes w → Holding cfg t sha256 entry files carried w → May cfg w t op r)
    (hQ : ∀ w e, Orderly cfg nodes w → Holding cfg t sha256 entry files carried w → e.fs.fault = none →
      Orderly cfg nodes (w.setStore (exec cfg t r e w.store).2) → Q (exec cfg t r e w.store).1 (w.setStore (exec cfg t r e w.store).2)) :
    wp (upkeep cfg) (discipline cfg nodes) t op (request r) Q w :=
  wp_request fun w' hr hi _ => ⟨hm w' hi (h.stable hr), fun e hi' => hQ w' e.1 hi (h.stable hr) e.2 hi'⟩

/-- A request that reads. -/
theorem wp_reads {r : Req} {Q : Resp r → World Str AppState → Prop} (hr : r.inspects)
    (h : Holding cfg t sha256 entry files carried w)
    (hQ : ∀ w e, Orderly cfg nodes w → Holding cfg t sha256 entry files carried w → Q (exec cfg t r e w.store).1 w) :
    wp (upkeep cfg) (discipline cfg nodes) t op (request r) Q w := by
  refine wp_holding h (fun w _ _ => may_of_inspects hr) fun w e hi hh _ _ => ?_
  rw [exec_of_inspects hr]
  exact hQ w e hi hh

/-- The quarantine check only reads. -/
theorem ensureNotQuarantined_wp (h : Holding cfg t sha256 entry files carried w) :
    wp (upkeep cfg) (discipline cfg nodes) t op (ensureNotQuarantined cfg.storage sha256).run
      (fun _ w => Holding cfg t sha256 entry files carried w) w := by
  refine wp_mono (fun _ _ h => h.2) ((ensureNotQuarantined_uses cfg.storage sha256).wp (fun _ _ hr _ h => h.stable hr)
    (fun _ _ hr _ _ => may_of_inspects hr) (fun w r e hr _ h => ?_) h)
  have hs : ((upkeep cfg).exec t r e w.store).2 = w.store := exec_of_inspects hr
  rw [hs]
  exact h

/-- A file of the hash is removed, if it is there. -/
theorem removeLocalFile_wp (hlayout : cfg.storage = .new root) {p : Path} (hp : Belongs cfg.storage sha256 p)
    (h : Holding cfg t sha256 entry files carried w) :
    wp (upkeep cfg) (discipline cfg nodes) t op (removeLocalFile p).run
      (fun x w => (∀ error, x = .error error → files p = none) ∧
        Holding cfg t sha256 entry (fun q => if q = p then none else files q) carried w) w := by
  refine (wp_lift_bind ..).2 (wp_holding h (fun _ _ hh => ⟨sha256, hh.owner, hp⟩) fun w e hi hh he _ => ?_)
  simp only [exec, Disk.exec, he, Disk.perform]
  by_cases hf : w.store.disk.hasFile p = true
  · simp only [hf, if_true]
    refine ⟨fun _ herror => ?_, hh.owner, hh.entry, fun q hq => ?_, fun x hx => ⟨(hh.carries x hx).owned, ?_⟩⟩
    · cases herror
    · rw [← hh.files q hq]
      exact Disk.lookup_unlink q
    · have hne : x.1 ≠ p := (hp.ne_scratch hlayout (hi.scratch _ (hh.carries x hx).owned)).symm
      exact (Disk.lookup_unlink x.1).trans ((if_neg hne).trans (hh.carries x hx).file)
  · have hnone : w.store.disk.names.lookup p = none := by simpa [Disk.hasFile] using hf
    have hkept : Holding cfg t sha256 entry (fun q => if q = p then none else files q) carried w := by
      refine ⟨hh.owner, hh.entry, fun q hq => ?_, fun x hx => ⟨(hh.carries x hx).owned, (hh.carries x hx).file⟩⟩
      by_cases hqp : q = p
      · rw [if_pos hqp, hqp]
        exact hnone
      · rw [if_neg hqp]
        exact hh.files q hq
    have hgone : files p = none := (hh.files p hp).symm.trans hnone
    simp only [hf]
    -- A directory of this name stays, and so does a file above it.
    show wp _ _ _ _ (if (w.store.disk.noFile p).kind = .notFound then pure () else throw _ : AsyncResult Unit).run _ _
    split
    · refine ⟨fun _ herror => ?_, hkept⟩
      cases herror
    · exact ⟨fun _ _ => hgone, hkept⟩

/-- The directories above a file are created. -/
theorem createDirAll_wp {message : IoError → String} {p : Path} (h : Holding cfg t sha256 entry files carried w) :
    wp (upkeep cfg) (discipline cfg nodes) t op (orIoErr message (fs (.createDirAll p))).run
      (fun _ w => Holding cfg t sha256 entry files carried w) w := by
  refine (wp_bind ..).2 (wp_holding h (fun _ _ _ => trivial) fun w e hi hh he _ => ?_)
  simp only [exec, Disk.exec, he, Disk.perform]
  split <;> exact ⟨hh.owner, hh.entry, hh.files, fun x hx => ⟨(hh.carries x hx).owned, (hh.carries x hx).file⟩⟩

/-- The file of an entry is moved to the quarantine, or it stays. -/
theorem quarantineCurrent_wp (hlayout : cfg.storage = .new root) {m : FileMetadata} {p : Path} (hl : m.location = .localFile p)
    (hp : Belongs cfg.storage sha256 p) (h : Holding cfg t sha256 entry files none w) :
    wp (upkeep cfg) (discipline cfg nodes) t op (quarantineCurrent cfg sha256 m).run
      (fun x w => match x with
        | .ok _ => Holding cfg t sha256 entry (fun q => if q = p then none else files q) none w
        | .error _ => Holding cfg t sha256 entry files none w) w := by
  simp only [quarantineCurrent, hl]
  refine (wp_run_bind ..).2 (wp_mono (fun x w hh => ?_) (createDirAll_wp h))
  cases x with
  | error _ => exact hh
  | ok _ =>
    refine (wp_bind ..).2 (wp_holding hh (fun _ _ hh => ⟨sha256, hh.owner, .inr ⟨hp, _, rfl⟩⟩) fun w e hi hh he _ => ?_)
    simp only [exec, Disk.exec, he, Disk.perform]
    have hsame : Holding cfg t sha256 entry files none w := hh
    cases hlook : w.store.disk.names.lookup p with
    | none => exact hsame
    | some ino =>
      simp only
      split
      · exact hsame
      · split
        · refine ⟨hh.owner, hh.entry, fun q hq => ?_, fun _ h => by cases h⟩
          refine (Disk.lookup_move q).trans ((if_neg (hq.ne_quarantined hlayout _)).trans ?_)
          rw [hh.files q hq]
        · exact hsame

/-- Removing the bytes of an entry. -/
theorem removePhysicalFile_wp (hlayout : cfg.storage = .new root) {m : FileMetadata} {p : Path} (hl : m.location = .localFile p)
    (hp : Belongs cfg.storage sha256 p) (h : Holding cfg t sha256 entry files carried w) :
    wp (upkeep cfg) (discipline cfg nodes) t op (removePhysicalFile cfg m).run
      (fun x w => (∀ error, x = .error error → files p = none) ∧ Holding cfg t sha256 entry (fun q => if q = p then none else files q) carried w) w := by
  simp only [removePhysicalFile, hl]
  exact removeLocalFile_wp hlayout hp h

/-- What a removal does to the bytes of the entry: they go away, or the entry keeps them. -/
theorem dispose_wp (hlayout : cfg.storage = .new root) {removal : Removal} {m : FileMetadata} {p : Path}
    (hl : m.location = .localFile p) (hp : Belongs cfg.storage sha256 p) (h : Holding cfg t sha256 entry files none w) :
    wp (upkeep cfg) (discipline cfg nodes) t op (dispose cfg sha256 removal m).run
      (fun x w => match x with
        | .ok _ => Holding cfg t sha256 entry (fun q => if q = p then none else files q) none w
        | .error _ => Holding cfg t sha256 entry files none w) w := by
  unfold dispose
  split
  · exact quarantineCurrent_wp hlayout hl hp h
  · refine wp_mono ?_ (removePhysicalFile_wp hlayout hl hp h)
    rintro x w ⟨hnone, hh⟩
    cases x with
    | ok _ => exact hh
    | error error => exact hh.of_missing (hnone error rfl)

/-- A removal leaves its hash in step. -/
theorem removeLocked_wp (hlayout : cfg.storage = .new root) (hlocal : cfg.nativeS3 = false) (removal : Removal)
    (expected : Option FileMetadata) (h : Holding cfg t sha256 entry files none w)
    (hs : InStep cfg.storage nodes sha256 entry files) :
    wp (upkeep cfg) (discipline cfg nodes) t op (removeLocked cfg sha256 removal expected).run
      (fun _ w => Orderly cfg nodes w → Settled cfg t sha256 w) w := by
  have hsweep : sweepBackendCopies cfg sha256 = return () := by simp only [sweepBackendCopies, hlocal, Bool.false_eq_true, if_false]
  have hdone : ∀ {w}, Holding cfg t sha256 entry files none w → Orderly cfg nodes w → Settled cfg t sha256 w :=
    fun hh hi => hh.settled hi hs
  refine (wp_lift_bind ..).2 (wp_reads trivial h fun w e hi hh => ?_)
  have hx : (exec cfg t (.index (.get sha256)) e w.store).1 = entry := hh.entry
  rw [hx, hsweep]
  cases entry with
  | none =>
    cases removal.sweepsBackend <;> exact hdone hh
  | some m =>
    obtain ⟨p, ino, hspell, hfiles⟩ := id hs
    cases hmoved : movedOn m expected with
    | true =>
      simp only [hmoved, if_true]
      exact hdone hh
    | false =>
      simp only [hmoved, Bool.false_eq_true, if_false]
      refine (wp_run_bind ..).2 (wp_mono (fun x w hh => ?_) (dispose_wp hlayout hspell.location hspell.belongs hh))
      cases x with
      | error _ => exact hdone hh
      | ok _ =>
        -- The file is gone, and so is the entry once it is removed.
        have hrest : wp (upkeep cfg) (discipline cfg nodes) t op
            (liftM (index (.removeIfLocationMatches sha256 m.location)) : AsyncResult Bool).run
            (fun _ w => Orderly cfg nodes w → Settled cfg t sha256 w) w := by
          refine (wp_bind ..).2 (wp_holding hh (fun _ _ hh => hh.owner) fun w e _ hh _ _ hi => ?_)
          have hentry : (exec cfg t (.index (.removeIfLocationMatches sha256 m.location)) e w.store).2.index.get sha256 = none := by
            have hget := hh.entry
            rcases BlobIndex.removeIf_cases w.store.index sha256 m.location with ⟨m', _, _, hr⟩ | ⟨hno, _⟩
            · simp only [exec, IndexReq.exec, hr, BlobIndex.get_remove_self]
            · exact absurd rfl (hno m hget)
          have hafter : Holding cfg t sha256 none (fun q => if q = p then none else files q) none
              (w.setStore (exec cfg t (.index (.removeIfLocationMatches sha256 m.location)) e w.store).2) :=
            ⟨hh.owner, hentry, hh.files, fun _ h => by cases h⟩
          refine hafter.settled hi fun q hq => ?_
          by_cases hqp : q = p
          · exact if_pos hqp
          · exact (if_neg hqp).trans ((hfiles q hq).trans (if_neg hqp))
        cases removal.sweepsBackend <;> exact hrest

/-- An entry that is published with its file in place displaces another one together with its file. -/
theorem publishMetadata_wp (hlayout : cfg.storage = .new root) {m : FileMetadata} {p : Path} {ino : Ino} {old : Path → Option Ino}
    (hspell : Spelled cfg.storage sha256 m p (nodes ino).data.length) (hm : m.origin = .upstreamCache → entry = none)
    (hs : InStep cfg.storage nodes sha256 entry old) (hfree : old p = none)
    (h : Holding cfg t sha256 entry (fun q => if q = p then some ino else old q) none w) :
    wp (upkeep cfg) (discipline cfg nodes) t op (publishMetadata cfg sha256 m).run
      (fun _ w => Orderly cfg nodes w → Settled cfg t sha256 w) w := by
  have hdone : ∀ {files w}, (∀ q, Belongs cfg.storage sha256 q → files q = if q = p then some ino else none) →
      Holding cfg t sha256 (some m) files none w → Orderly cfg nodes w → Settled cfg t sha256 w :=
    fun hf hh hi => hh.settled hi ⟨p, ino, hspell, hf⟩
  refine (wp_lift_bind ..).2 (wp_holding h (fun _ _ hh => hh.owner) fun w e _ hh _ _ => ?_)
  have hget := hh.entry
  rcases BlobIndex.publish_cases w.store.index sha256 m with ⟨existing, ho, hex, _⟩ | ⟨_, hpub⟩
  · rw [hget, hm ho] at hex
    cases hex
  rw [hget] at hpub
  simp only [exec, IndexReq.exec, hpub]
  have hinsert : Holding cfg t sha256 (some m) (fun q => if q = p then some ino else old q) none
      (w.setStore { w.store with index := w.store.index.insert sha256 m }) :=
    ⟨hh.owner, BlobIndex.get_insert_self .., hh.files, fun _ h => by cases h⟩
  refine (wp_lift_bind ..).2 (wp_reads trivial hinsert fun w e _ hvisible => ?_)
  have hx : (exec cfg t (.index (.get sha256)) e w.store).1 = some m := hvisible.entry
  rw [hx]
  cases entry with
  | none =>
    refine hdone (fun q hq => ?_) hvisible
    rw [hs q hq]
  | some displaced =>
    obtain ⟨p', ino', hspell', hold⟩ := hs
    have hne : p ≠ p' := by
      rintro rfl
      rw [hold p hspell.belongs, if_pos rfl] at hfree
      cases hfree
    refine (wp_attempt_bind ..).2 (wp_mono ?_ (removePhysicalFile_wp hlayout hspell'.location hspell'.belongs hvisible))
    rintro x w ⟨hnone, hremoved⟩
    cases x with
    | error error =>
      -- The displaced file is there, so its removal does not fail.
      have hmissing := hnone error rfl
      rw [if_neg hne.symm, hold p' hspell'.belongs, if_pos rfl] at hmissing
      cases hmissing
    | ok _ =>
    refine hdone (fun q hq => ?_) hremoved
    by_cases hqp' : q = p'
    · rw [if_pos hqp', if_neg (hqp' ▸ hne.symm)]
    · rw [if_neg hqp', hold q hq, if_neg hqp']

/-- What a publication asks of its blob, as statements. -/
theorem proper_iff {publication : BlobPublication} : proper publication = true ↔
    (∀ x, publication.extension = some x → '.' ∉ x ∧ '/' ∉ x) ∧ ∀ n, publication.expiration = some n → n ≤ u64Max := by
  unfold proper
  cases publication.extension <;> cases publication.expiration <;> simp

/-- The path of a completed blob spells its entry out. -/
theorem spelled_of_completedPath {publication : BlobPublication} (hp : proper publication = true)
    (hv : BlobName.isValidHash publication.sha256 = true) {finalPath : Path}
    (hc : completedPath cfg.storage publication.origin publication.sha256 publication.extension publication.expiration =
      .ok finalPath) (createdAt : Nat) :
    Spelled cfg.storage publication.sha256 ⟨.localFile finalPath, publication.extension, publication.mimeType, publication.size,
      createdAt, none, publication.expiration, publication.origin⟩ finalPath publication.size := by
  obtain ⟨hext, hexp⟩ := proper_iff.1 hp
  simp only [completedPath, BlobName.fanOut_eq hv, BlobName.name_eq hv] at hc
  cases hc
  refine ⟨rfl, rfl, [publication.sha256.take 1, (publication.sha256.drop 1).take 1],
    publication.sha256 ++ BlobName.suffix publication.expiration publication.extension,
    ⟨publication.sha256, publication.expiration, publication.extension⟩, ?_, BlobName.parse_append_suffix hv hexp _, rfl, rfl, ?_⟩
  · rw [List.append_assoc]
    rfl
  · exact (Startup.pathExtension_append_suffix hv _ fun x hx => (hext x hx).1).symm

/-- The metadata of a publication only needs the clock. -/
theorem metadata_wp (publication : BlobPublication) (finalPath : Path) (h : Holding cfg t sha256 entry files carried w) :
    wp (upkeep cfg) (discipline cfg nodes) t op (publication.metadata (.localFile finalPath))
      (fun m w => (∃ createdAt, m = ⟨.localFile finalPath, publication.extension, publication.mimeType, publication.size, createdAt,
        none, publication.expiration, publication.origin⟩) ∧ Holding cfg t sha256 entry files carried w) w := by
  refine (wp_bind (request .systemTime) _ _).2 (wp_reads trivial h fun w e _ hh => ?_)
  exact ⟨⟨_, rfl⟩, hh⟩

/-- A publication to the disk leaves its hash in step. -/
theorem publishToDisk_wp (hlayout : cfg.storage = .new root) {publication : BlobPublication} (hp : proper publication = true)
    (hv : BlobName.isValidHash publication.sha256 = true) {temp : Path} {ino : Ino}
    (hsize : (nodes ino).data.length = publication.size)
    (hold : ∀ old, entry = some old → publication.origin = .upload ∧ old.origin = .upstreamCache)
    (hs : InStep cfg.storage nodes publication.sha256 entry files)
    (h : Holding cfg t publication.sha256 entry files (some (temp, ino)) w) :
    wp (upkeep cfg) (discipline cfg nodes) t op (publishToDisk cfg temp publication).run
      (fun _ w => Orderly cfg nodes w → Settled cfg t publication.sha256 w) w := by
  have hdone : ∀ {carried w}, Holding cfg t publication.sha256 entry files carried w → Orderly cfg nodes w →
      Settled cfg t publication.sha256 w := fun hh hi => hh.settled hi hs
  unfold publishToDisk
  refine (wp_ofResult_bind ..).2 ?_
  cases hc : completedPath cfg.storage publication.origin publication.sha256 publication.extension publication.expiration with
  | error _ => exact hdone h
  | ok finalPath =>
  have hspell := @spelled_of_completedPath cfg publication hp hv finalPath hc
  have hbelongs := (hspell 0).belongs
  -- An entry that is displaced has its file below the other root.
  have hfree : files finalPath = none := by
    cases hentry : entry with
    | none =>
      rw [hentry] at hs
      exact hs finalPath hbelongs
    | some old =>
      obtain ⟨ho, hcache⟩ := hold old hentry
      rw [hentry] at hs
      obtain ⟨p', _, hspell', hall⟩ := hs
      rw [hall finalPath hbelongs, if_neg]
      rintro rfl
      obtain ⟨dirs, name, _, hd, _⟩ := (hspell 0).named
      obtain ⟨dirs', name', _, hd', _⟩ := hspell'.named
      rw [hlayout, List.append_assoc] at hd hd'
      have := originRoot_append_inj (hd.symm.trans hd')
      rw [show publication.origin = old.origin from this, hcache] at ho
      cases ho
  have hrest : ∀ {w}, Holding cfg t publication.sha256 entry files (some (temp, ino)) w →
      wp (upkeep cfg) (discipline cfg nodes) t op (do
        orIoErr (fun error => s!"Failed to publish {display temp} to {display finalPath}: {error.message}")
          (fs (.rename temp finalPath))
        request (.intoPublished temp)
        let metadata ← publication.metadata (.localFile finalPath)
        publishMetadata cfg publication.sha256 metadata : AsyncResult StoredBlob).run
        (fun _ w => Orderly cfg nodes w → Settled cfg t publication.sha256 w) w := by
    intro w hh
    have hmay : ∀ w, Orderly cfg nodes w → Holding cfg t publication.sha256 entry files (some (temp, ino)) w →
        May cfg w t op (.fs (.rename temp finalPath)) :=
      fun _ _ hh => ⟨publication.sha256, hh.owner, .inl ⟨(hh.carries _ rfl).owned, hbelongs⟩⟩
    refine (wp_orErr_bind ..).2 (wp_holding hh hmay fun w e hi hh he _ => ?_)
    have htemp := (hh.carries _ rfl).file
    simp only at htemp
    simp only [exec, Disk.exec, he, Disk.perform, htemp]
    split
    · exact hdone hh
    · split
      · have hmoved : Holding cfg t publication.sha256 entry (fun q => if q = finalPath then some ino else files q) none
            (w.setStore { w.store with disk := w.store.disk.move temp finalPath ino }) := by
          refine ⟨hh.owner, hh.entry, fun q hq => (Disk.lookup_move q).trans ?_, fun _ h => by cases h⟩
          rw [if_neg (hq.ne_scratch hlayout (hi.scratch _ (hh.carries _ rfl).owned)), hh.files q hq]
        refine (wp_lift_bind ..).2 (wp_holding hmoved (fun _ _ _ => trivial) fun w e _ hh _ _ => ?_)
        have hpublished : Holding cfg t publication.sha256 entry (fun q => if q = finalPath then some ino else files q) none
            (w.setStore (exec cfg t (.intoPublished temp) e w.store).2) := ⟨hh.owner, hh.entry, hh.files, fun _ h => by cases h⟩
        refine (wp_lift_bind ..).2 (wp_mono ?_ (metadata_wp publication finalPath hpublished))
        rintro m w ⟨⟨createdAt, rfl⟩, hh⟩
        refine publishMetadata_wp hlayout (hsize ▸ hspell _) (fun ho => ?_) hs hfree hh
        cases hentry : entry with
        | none => rfl
        | some old => cases ho.symm.trans (hold old hentry).1
      · exact hdone hh
  refine (wp_run_bind ..).2 (wp_mono (fun x w hh => ?_) (createDirAll_wp h))
  cases x with
  | error _ => exact hdone hh
  | ok _ =>
    refine (wp_orErr_bind ..).2 (wp_reads trivial hh fun w e hi hh => ?_)
    cases (exec cfg t (.fs (.tryExists finalPath)) e w.store).1 with
    | error _ => exact hdone hh
    | ok present =>
      cases present with
      | false => exact hrest hh
      | true =>
        refine (wp_run_bind ..).2 (wp_mono ?_ (removeLocalFile_wp hlayout hbelongs hh))
        rintro x w ⟨_, hh⟩
        have hsame := hh.of_missing hfree
        cases x with
        | error _ => exact hdone hsame
        | ok _ => exact hrest hsame

/-- A publication under the guard leaves its hash in step. -/
theorem publishLocked_wp (hlayout : cfg.storage = .new root) (hlocal : cfg.nativeS3 = false) {publication : BlobPublication}
    (hp : proper publication = true) (hv : BlobName.isValidHash publication.sha256 = true) {temp : Path} {ino : Ino}
    (hsize : (nodes ino).data.length = publication.size) (hs : InStep cfg.storage nodes publication.sha256 entry files)
    (h : Holding cfg t publication.sha256 entry files (some (temp, ino)) w) :
    wp (upkeep cfg) (discipline cfg nodes) t op (publishLocked cfg temp publication).run
      (fun _ w => Orderly cfg nodes w → Settled cfg t publication.sha256 w) w := by
  have hdone : ∀ {w}, Holding cfg t publication.sha256 entry files (some (temp, ino)) w → Orderly cfg nodes w →
      Settled cfg t publication.sha256 w := fun hh hi => hh.settled hi hs
  unfold publishLocked
  refine (wp_run_bind ..).2 (wp_mono (fun x w hh => ?_) (ensureNotQuarantined_wp h))
  cases x with
  | error _ => exact hdone hh
  | ok _ =>
    have hdisk : ¬ (publication.origin = .upload ∧ cfg.nativeS3 = true) := fun h => nomatch hlocal.symm.trans h.2
    simp only [if_neg hdisk]
    refine (wp_lift_bind ..).2 (wp_reads trivial hh fun w e _ hh => ?_)
    have hx : (exec cfg t (.index (.get publication.sha256)) e w.store).1 = entry := hh.entry
    rw [hx]
    cases entry with
    | none =>
      refine publishToDisk_wp hlayout hp hv hsize (fun _ ho => ?_) hs hh
      nomatch ho
    | some existing =>
      cases hk : keepsIncumbent publication existing with
      | true =>
        simp only [hk, if_true]
        exact hdone hh
      | false =>
        simp only [hk, Bool.false_eq_true, if_false]
        refine publishToDisk_wp hlayout hp hv hsize (fun old ho => ?_) hs hh
        cases ho
        simp only [keepsIncumbent, Bool.or_eq_false_iff, decide_eq_false_iff_not] at hk
        refine ⟨?_, ?_⟩
        · cases ho : publication.origin with
          | upload => rfl
          | upstreamCache => exact absurd ho hk.1
        · cases ho : existing.origin with
          | upload => exact absurd ho hk.2
          | upstreamCache => rfl

end

/-! ## The operations -/

section

variable {cfg : Config} {nodes : Ino → Node} {root : Path} {t : Tid} {op : Upkeep} {w : World Str AppState} {α : Type}

/-- A guarded task that leaves its hash in step. -/
theorem wp_guarded {sha256 : Str} {p : AsyncResult α}
    (h : ∀ w', (discipline cfg nodes).Expects t w w' → Orderly cfg nodes w' → Matches cfg w'.store sha256 →
      wp (upkeep cfg) (discipline cfg nodes) t op p.run (fun _ w => Orderly cfg nodes w → Settled cfg t sha256 w)
        (w'.take sha256 t)) :
    wp (upkeep cfg) (discipline cfg nodes) t op (guarded sha256 p).run (fun _ _ => True) w := by
  intro w' hr hi hfree hi'
  refine (wp_bind ..).2 (wp_mono ?_ (wp_inv hi' (h w' hr hi (hi.matches_of_free sha256 hfree))))
  rintro x w₁ ⟨hi₁, hs⟩ w₂ hr₂ hi₂
  have hsettled := (hs hi₁).stable hi₁ hi₂ hr₂
  exact ⟨hsettled.owner, hsettled.inStep, fun _ => trivial⟩

/-- A removal. -/
theorem removeIndexedBlob_wp (hlayout : cfg.storage = .new root) (hlocal : cfg.nativeS3 = false) (sha256 : Str) (removal : Removal)
    (expected : Option FileMetadata) :
    wp (upkeep cfg) (discipline cfg nodes) t op (removeIndexedBlob cfg sha256 removal expected).run (fun _ _ => True) w := by
  refine wp_guarded fun w' _ hi hm => ?_
  unfold Matches at hm
  rw [hi.nodes] at hm
  exact removeLocked_wp hlayout hlocal removal expected ⟨World.take_owner_self .., rfl, fun _ _ => rfl, nofun⟩ hm

/-- A publication of a file that its owner has received whole. -/
theorem publishBlob_wp (hlayout : cfg.storage = .new root) (hlocal : cfg.nativeS3 = false) {publication : BlobPublication}
    (hp : proper publication = true) {temp : Path} {ino : Ino} (hsize : (nodes ino).data.length = publication.size)
    (h : Carries t temp ino w) :
    wp (upkeep cfg) (discipline cfg nodes) t op (publishBlob cfg temp publication).run (fun _ _ => True) w := by
  unfold publishBlob
  refine (wp_attempt_bind ..).2 (wp_mono (Q := fun _ _ => True) (fun x w _ => ?_) ?_)
  · refine (wp_lift_bind ..).2 (wp_request fun _ _ _ _ => ⟨trivial, fun _ _ => ?_⟩)
    exact trivial
  · refine (wp_ofResult_bind ..).2 ?_
    unfold validateSha256Format
    by_cases hv : BlobName.isValidHash publication.sha256 = true
    · simp only [hv, if_true]
      refine wp_guarded fun w' hr hi hm => ?_
      unfold Matches at hm
      rw [hi.nodes] at hm
      refine publishLocked_wp hlayout hlocal hp hv hsize hm ⟨World.take_owner_self .., rfl, fun _ _ => rfl, ?_⟩
      rintro _ ⟨⟩
      have hc := h.stable hr
      exact ⟨hc.owned, hc.file⟩
    · simp only [hv]
      exact trivial

/-- Nothing is superseded, so there is nothing to retry. -/
theorem reconcileSupersededBlobs_wp :
    wp (upkeep cfg) (discipline cfg nodes) t op (reconcileSupersededBlobs cfg).run (fun _ _ => True) w := by
  refine (wp_lift_bind ..).2 (wp_request fun w' _ hi _ => ⟨trivial, fun e _ => ?_⟩)
  have hnone : ((upkeep cfg).exec t .takeSuperseded e w'.store).1 = [] := hi.superseded
  rw [hnone]
  refine (wp_run_bind (retrySuperseded cfg []) _ _).2 ?_
  show wp _ _ _ _ (liftM (request (.extendSuperseded [])) : AsyncResult Unit).run _ _
  exact (wp_bind ..).2 (wp_request fun _ _ _ _ => ⟨rfl, fun _ _ => trivial⟩)

/-- The eviction of one candidate. -/
theorem deleteCleanupCandidate_wp (hlayout : cfg.storage = .new root) (hlocal : cfg.nativeS3 = false) (sha256 : Str)
    (m : FileMetadata) :
    wp (upkeep cfg) (discipline cfg nodes) t op (Startup.deleteCleanupCandidate cfg sha256 m).run (fun _ _ => True) w := by
  refine (wp_attempt_bind ..).2 (wp_mono (fun x w _ => ?_) (removeIndexedBlob_wp hlayout hlocal sha256 .evicted (some m)))
  cases x <;> exact trivial

/-- The eviction of expired blobs. -/
theorem evictExpired_wp (hlayout : cfg.storage = .new root) (hlocal : cfg.nativeS3 = false) (now : Nat)
    (entries : List (Str × FileMetadata)) :
    wp (upkeep cfg) (discipline cfg nodes) t op (Startup.evictExpired cfg now entries).run (fun _ _ => True) w := by
  induction entries generalizing w with
  | nil => exact trivial
  | cons e entries ih =>
    obtain ⟨sha256, m⟩ := e
    unfold Startup.evictExpired
    cases he : Startup.expired cfg m now with
    | true =>
      simp only [if_true]
      refine (wp_run_bind ..).2 (wp_mono (fun x w _ => ?_) (deleteCleanupCandidate_wp hlayout hlocal sha256 m))
      cases x with
      | error _ => exact trivial
      | ok _ => exact ih
    | false =>
      simp only [Bool.false_eq_true, if_false]
      exact ih

/-- The eviction under capacity pressure. -/
theorem evictCapacity_wp (hlayout : cfg.storage = .new root) (hlocal : cfg.nativeS3 = false) (entries : List (Str × FileMetadata))
    (totalSize totalFiles : Nat) :
    wp (upkeep cfg) (discipline cfg nodes) t op (Startup.evictCapacity cfg entries totalSize totalFiles).run (fun _ _ => True) w := by
  induction entries generalizing w totalSize totalFiles with
  | nil => exact trivial
  | cons e entries ih =>
    obtain ⟨sha256, m⟩ := e
    unfold Startup.evictCapacity
    simp only
    split
    · exact trivial
    · refine (wp_run_bind ..).2 (wp_mono (fun x w _ => ?_) (deleteCleanupCandidate_wp hlayout hlocal sha256 m))
      cases x with
      | error _ => exact trivial
      | ok removed => cases removed <;> exact ih _ _

/-! ## Empty directories -/

/-- The entries of a directory below a root are below it. -/
theorem emptyDirEntries_within (root dir : Path) (hdir : root <+: dir) (names : List Str) (directories : List Path)
    (hdirs : ∀ d ∈ directories, root <+: d) :
    (Startup.emptyDirEntries dir names directories).Within Req.inspects fun found => ∀ d ∈ found, root <+: d := by
  induction names generalizing directories with
  | nil => exact ⟨trivial, fun _ _ => hdirs⟩
  | cons name names ih =>
    refine ⟨trivial, fun x _ => ?_⟩
    cases x with
    | error _ => exact hdirs
    | ok _ =>
      refine ⟨trivial, fun x _ => ?_⟩
      rcases x with _ | _ | _ | _
      · exact ih directories hdirs
      · exact ih directories hdirs
      · exact ih _ (List.forall_mem_cons.2 ⟨hdir.trans (List.prefix_append ..), hdirs⟩)
      · exact ih directories hdirs

/-- The empty directories that a walk finds are below its root. -/
theorem emptyDirs_within (root : Path) (fuel : Nat) (directories found : List Path) (hdirs : ∀ d ∈ directories, root <+: d)
    (hfound : ∀ d ∈ found, root <+: d ∧ d ≠ root) :
    (Startup.emptyDirs root fuel directories found).Within Req.inspects fun found => ∀ d ∈ found, root <+: d ∧ d ≠ root := by
  induction fuel generalizing directories found with
  | zero => cases directories <;> exact hfound
  | succ fuel ih =>
    cases directories with
    | nil => exact hfound
    | cons dir directories =>
      obtain ⟨hdir, hdirs⟩ := List.forall_mem_cons.1 hdirs
      refine ⟨trivial, fun x _ => ?_⟩
      cases x with
      | error _ => exact ih directories found hdirs hfound
      | ok names =>
        refine (emptyDirEntries_within root dir hdir names directories hdirs).bind fun directories' hdirs' => ?_
        refine ih directories' _ hdirs' ?_
        split
        · rename_i h
          exact List.forall_mem_cons.2 ⟨⟨hdir, h.2⟩, hfound⟩
        · exact hfound

/-- The removal of directories below a root. -/
theorem cleanupEmptyDirs_wp (hlayout : cfg.storage = .new root) (origin : BlobOrigin) :
    wp (upkeep cfg) (discipline cfg nodes) t op (Startup.cleanupEmptyDirs (originRoot cfg.storage origin)) (fun _ _ => True) w := by
  -- Neither root is strictly below a root.
  have hnot : ∀ d, originRoot cfg.storage origin <+: d ∧ d ≠ originRoot cfg.storage origin →
      ∀ origin', d ≠ originRoot cfg.storage origin' := by
    rintro d ⟨⟨rest, hp⟩, hne⟩ origin' rfl
    have hsame : origin = origin' := by
      rw [hlayout] at hp
      exact originRoot_append_inj (hp.trans (List.append_nil _).symm)
    exact hne (hsame ▸ rfl)
  have hremove : ∀ (ds : List Path), (∀ d ∈ ds, originRoot cfg.storage origin <+: d ∧ d ≠ originRoot cfg.storage origin) → ∀ w,
      wp (upkeep cfg) (discipline cfg nodes) t op (Startup.removeDirs ds) (fun _ _ => True) w := by
    intro ds hds
    induction ds with
    | nil => exact fun _ => trivial
    | cons d ds ih =>
      obtain ⟨hd, hds⟩ := List.forall_mem_cons.1 hds
      exact fun _ => wp_call fun _ _ _ _ => ⟨hnot d hd, fun _ _ => ih hds _⟩
  refine wp_call fun w' _ _ _ => ⟨trivial, fun e _ => ?_⟩
  have hfound := emptyDirs_within (originRoot cfg.storage origin) ((upkeep cfg).exec t (.fs .dirCount) e w'.store).1
    [originRoot cfg.storage origin] [] (fun d hd => List.mem_singleton.1 hd ▸ List.prefix_rfl) nofun
  refine (wp_bind (Startup.emptyDirs _ _ _ _) _ _).2 (wp_mono ?_ (hfound.wp (F := fun _ => True) (fun _ _ _ _ => id) (fun _ _ hr _ _ => may_of_inspects hr)
    (fun _ _ _ _ _ => id) trivial))
  exact fun found w h => hremove found h.1 w

/-- The retention sweep. -/
theorem enforceStorageLimits_wp (hlayout : cfg.storage = .new root) (hlocal : cfg.nativeS3 = false) :
    wp (upkeep cfg) (discipline cfg nodes) t op (Startup.enforceStorageLimits cfg).run (fun _ _ => True) w := by
  have hreads : ∀ {r : Req} {Q : Resp r → World Str AppState → Prop} {w : World Str AppState}, r.inspects → (∀ x w, Q x w) →
      wp (upkeep cfg) (discipline cfg nodes) t op (request r) Q w :=
    fun hr hQ => wp_request fun _ _ _ _ => ⟨may_of_inspects hr, fun _ _ => hQ _ _⟩
  refine (wp_lift_bind ..).2 ((wp_bind (request .systemTime) _ _).2 (hreads trivial fun ns w => ?_))
  refine (wp_run_bind ..).2 (wp_mono (fun x w _ => ?_) reconcileSupersededBlobs_wp)
  cases x with
  | error _ => exact trivial
  | ok _ =>
  refine (wp_lift_bind ..).2 (hreads trivial fun entries w => ?_)
  refine (wp_run_bind ..).2 (wp_mono (fun x w _ => ?_) (evictExpired_wp hlayout hlocal _ entries))
  cases x with
  | error _ => exact trivial
  | ok _ =>
  refine (wp_lift_bind ..).2 (hreads trivial fun remaining w => ?_)
  refine (wp_run_bind ..).2 (wp_mono (fun x w _ => ?_) (evictCapacity_wp hlayout hlocal _ _ _))
  cases x with
  | error _ => exact trivial
  | ok _ =>
  refine (wp_lift_bind ..).2 (wp_mono (fun _ w _ => ?_) (cleanupEmptyDirs_wp hlayout .upload))
  exact (wp_bind ..).2 (wp_mono (fun _ _ _ => trivial) (cleanupEmptyDirs_wp hlayout .upstreamCache))

/-- Every operation. -/
theorem wp_program (hlayout : cfg.storage = .new root) (hlocal : cfg.nativeS3 = false) (hop : (discipline cfg nodes).ops op) :
    wp (upkeep cfg) (discipline cfg nodes) t op (Upkeep.program cfg op) (fun _ _ => True) w := by
  cases op with
  | publish temp publication =>
    refine (wp_bind ..).2 (wp_mono (Q := fun _ _ => True) (fun _ _ _ => trivial) ?_)
    have hscratch : Scratch cfg.storage (tempPath cfg temp) := ⟨temp, [], rfl⟩
    refine (wp_lift_bind ..).2 (wp_request fun w' _ hi hp => ⟨⟨hscratch, temp, publication, rfl⟩, fun e _ => ?_⟩)
    -- The file that is handed over has the promised length, and nobody else changes it.
    have hwhole := (Bool.and_eq_true_iff.1 (show (_ && _) = true from hp)).2
    obtain ⟨node, hnode, hlen⟩ := (Option.any_eq_true ..).1 hwhole
    obtain ⟨ino, hl, rfl⟩ := Option.map_eq_some_iff.1 hnode
    have hsize : (nodes ino).data.length = publication.size := by
      rw [← hi.nodes]
      exact of_decide_eq_true hlen
    exact publishBlob_wp hlayout hlocal hop hsize ⟨List.mem_cons_self, hl⟩
  | remove sha256 removal expected =>
    exact (wp_bind ..).2 (wp_mono (fun _ _ _ => trivial) (removeIndexedBlob_wp hlayout hlocal sha256 removal expected))
  | enforceStorageLimits => exact (wp_bind ..).2 (wp_mono (fun _ _ _ => trivial) (enforceStorageLimits_wp hlayout hlocal))
  | reconcileSuperseded => exact (wp_bind ..).2 (wp_mono (fun _ _ _ => trivial) reconcileSupersededBlobs_wp)

/-- The operations keep the rules. -/
theorem fits (hlayout : cfg.storage = .new root) (hlocal : cfg.nativeS3 = false) (nodes : Ino → Node) :
    Fits (upkeep cfg) (discipline cfg nodes) fun _ _ _ _ => True where
  rely_refl _ _ := ⟨fun _ _ => ⟨rfl, fun _ _ => rfl⟩, fun _ hp => ⟨hp, rfl⟩⟩
  rely_trans t w₁ w₂ w₃ h h' := by
    refine ⟨fun sha256 ho => ?_, fun p hp => ?_⟩
    · obtain ⟨he, hf⟩ := h.2.1 sha256 ho
      obtain ⟨he', hf'⟩ := h'.1 sha256 (h.1 sha256 ho)
      exact ⟨he'.trans he, fun p hp => (hf' p hp).trans (hf p hp)⟩
    · obtain ⟨hm, hl⟩ := h.2.2 p hp
      obtain ⟨hm', hl'⟩ := h'.2 p hm
      exact ⟨hm', hl'.trans hl⟩
  post_stable _ _ _ _ _ _ _ _ := trivial
  call _ _ _ _ _ hi _ hp hm := orderly_of_may hlayout hi hp hm
  take w t l hi _ _ := by
    refine ⟨⟨fun sha256 hfree => ?_, hi.nodes, hi.tree, hi.roots, hi.superseded, hi.owned, hi.scratch⟩,
      fun _ _ => ⟨fun _ _ => ⟨rfl, fun _ _ => rfl⟩, fun _ hp => ⟨hp, rfl⟩⟩⟩
    have hne : sha256 ≠ l := by
      rintro rfl
      rw [World.take_owner_self] at hfree
      nomatch hfree
    exact hi.matches_of_free sha256 ((World.take_owner_of_ne hne).symm.trans hfree)
  give w t l hi _ hm := by
    refine ⟨⟨fun sha256 hfree => ?_, hi.nodes, hi.tree, hi.roots, hi.superseded, hi.owned, hi.scratch⟩,
      fun _ _ => ⟨fun _ _ => ⟨rfl, fun _ _ => rfl⟩, fun _ hp => ⟨hp, rfl⟩⟩⟩
    by_cases hl : sha256 = l
    · exact hl ▸ hm
    · exact hi.matches_of_free sha256 ((World.give_owner_of_ne hl).symm.trans hfree)
  drop _ _ _ _ h := h.elim
  tick _ _ hi := ⟨⟨hi.matches_of_free, hi.nodes, hi.tree, hi.roots, hi.superseded, hi.owned, hi.scratch⟩,
    fun _ => ⟨fun _ _ => ⟨rfl, fun _ _ => rfl⟩, fun _ hp => ⟨hp, rfl⟩⟩⟩
  spawn _ _ hi hop _ := ⟨⟨hi.matches_of_free, hi.nodes, hi.tree, hi.roots, hi.superseded, hi.owned, hi.scratch⟩,
    fun _ _ => ⟨fun _ _ => ⟨rfl, fun _ _ => rfl⟩, fun _ hp => ⟨hp, rfl⟩⟩, wp_program hlayout hlocal hop⟩
  crash _ _ h := h.elim

end

end Upkeep

end Almond
