import Almond.Lemmas.ContentsAux
import Almond.Lemmas.HoldersAux
import Almond.Lemmas.UploadsAux

/-! # What the files of chunks hold

In every history the file of a chunk holds the body of the request that committed it, for as long as it is there: every file that a
request created has an inode of its own, nobody else writes to it, and a name is handed out once. -/

namespace Almond

open Conc FileStorage Handlers

/-- Whether a commit took its chunk. -/
def Commit.accepts : Commit → Bool
  | .incomplete | .complete _ => true
  | .overlap | .paramMismatch => false

namespace Contents

/-! ## Files -/

/-- What a request that creates no file, writes to none and moves none to a chunk file does to a disk: it takes at most names of chunk
files away. -/
structure Keeps (layout : StorageLayout) (d d' : Disk) : Prop where
  names : ∀ p ino, ChunkFile layout p → d'.names.lookup p = some ino → d.names.lookup p = some ino
  nodes : d'.nodes = d.nodes
  nextIno : d'.nextIno = d.nextIno

/-- What the creation of a file does to a disk. -/
structure Creates (d d' : Disk) (p : Path) (ino : Ino) : Prop where
  name : d'.names.lookup p = some ino
  others : ∀ q, q ≠ p → d'.names.lookup q = d.names.lookup q
  nodes : ∀ i, i ≠ ino → d'.nodes i = d.nodes i
  data : (d'.nodes ino).data = []
  nextIno : d.nextIno ≤ d'.nextIno
  origin : d.names.lookup p = some ino ∨ ino = d.nextIno

section

variable {layout : StorageLayout} {d : Disk} {env : FsEnv} {now : Nat} {p : Path} {ino : Ino}

theorem Keeps.refl (layout : StorageLayout) (d : Disk) : Keeps layout d d :=
  ⟨fun _ _ _ => id, rfl, rfl⟩

/-- A name that goes away is kept by nobody. -/
theorem keeps_unlink (layout : StorageLayout) (d : Disk) (p : Path) : Keeps layout d (d.unlink p) := by
  refine ⟨fun q ino _ hq => ?_, rfl, rfl⟩
  rw [Disk.lookup_unlink] at hq
  split at hq
  · cases hq
  · exact hq

/-- Several names that go away. -/
theorem keeps_unlinks {α : Type} (layout : StorageLayout) (d : Disk) (temps : List (α × Path)) :
    Keeps layout d (temps.foldl (fun d x => d.unlink x.2) d) := by
  induction temps generalizing d with
  | nil => exact .refl layout d
  | cons x temps ih =>
    have hrest := ih (d.unlink x.2)
    have hfirst := keeps_unlink layout d x.2
    exact ⟨fun p ino hp hl => hfirst.names p ino hp (hrest.names p ino hp hl), hrest.nodes, hrest.nextIno⟩

/-- A free file operation takes at most names of chunk files away. -/
theorem keeps_perform {r : FsReq} (hr : Free layout (.fs r)) : Keeps layout d (d.perform env now r).2 := by
  cases r with
  | createDirAll q =>
    simp only [Disk.perform]
    split <;> exact ⟨fun _ _ _ => id, rfl, rfl⟩
  | removeFile q =>
    simp only [Disk.perform]
    split
    · exact keeps_unlink layout d q
    · exact .refl layout d
  | removeDir q =>
    simp only [Disk.perform]
    split
    · split <;> exact ⟨fun _ _ _ => id, rfl, rfl⟩
    · exact .refl layout d
  | removeDirAll q =>
    simp only [Disk.perform]
    split
    · exact ⟨fun _ _ _ hl => (lookup_retain_eq_some.1 hl).1, rfl, rfl⟩
    · exact .refl layout d
  | rename source destination =>
    simp only [Disk.perform]
    cases d.names.lookup source with
    | none => exact .refl layout d
    | some ino =>
      simp only
      split
      · exact .refl layout d
      · split
        · refine ⟨fun q i hq hl => ?_, rfl, rfl⟩
          rw [Disk.lookup_move, if_neg fun he : q = destination => hr (he ▸ hq)] at hl
          split at hl
          · cases hl
          · exact hl
        · exact .refl layout d
  | createFile q => exact hr.elim
  | writeAll ino bytes => exact hr.elim
  | openFile q =>
    simp only [Disk.perform]
    split <;> exact .refl layout d
  | metadata q =>
    simp only [Disk.perform]
    split <;> exact .refl layout d
  | _ => exact .refl layout d

/-- A free file operation, and one that fails, takes at most names of chunk files away. -/
theorem keeps_fs {r : FsReq} (hr : Free layout (.fs r)) : Keeps layout d (d.exec env now r).2 := by
  unfold Disk.exec
  split
  · exact .refl layout d
  · exact keeps_perform hr

/-- A file is created, or the disk stays. -/
theorem creates_or_fails (d : Disk) (env : FsEnv) (now : Nat) (p : Path) :
    (∃ ino, (d.exec env now (.createFile p)).1 = .ok ino ∧ Creates d (d.exec env now (.createFile p)).2 p ino) ∨
      ∃ error, d.exec env now (.createFile p) = (.error error, d) := by
  unfold Disk.exec
  cases env.fault with
  | some message => exact .inr ⟨_, rfl⟩
  | none =>
    simp only [Disk.perform]
    split
    · exact .inr ⟨_, rfl⟩
    · split
      · cases hl : d.names.lookup p with
        | some ino =>
          refine .inl ⟨ino, rfl, hl, fun _ _ => rfl, fun i hi => ?_, ?_, Nat.le_refl _, .inl hl⟩
          · exact Function.update_of_ne hi ..
          · simp only [Disk.setNode, Function.update_self]
        | none =>
          refine .inl ⟨d.nextIno, rfl, AList.lookup_insert .., fun q hq => AList.lookup_insert_ne hq, fun i hi => ?_,
            ?_, Nat.le_succ _, .inr rfl⟩
          · exact Function.update_of_ne hi ..
          · simp only [Disk.create, Function.update_self]
      · exact .inr ⟨_, rfl⟩

/-- Bytes are appended, or the disk stays. -/
theorem writes_or_fails (d : Disk) (env : FsEnv) (now : Nat) (ino : Ino) (bytes : Bytes) :
    d.exec env now (.writeAll ino bytes) = (.ok (), d.setNode ino ⟨(d.nodes ino).data ++ bytes, now⟩) ∨
      ∃ error, d.exec env now (.writeAll ino bytes) = (.error error, d) := by
  unfold Disk.exec
  cases env.fault with
  | some message => exact .inr ⟨_, rfl⟩
  | none => exact .inl rfl

/-- A free request takes at most names of chunk files away. -/
theorem keeps_exec {cfg : Config} {t : Tid} {r : Req} {e : Env} {s : AppState} (hr : Free layout r) :
    Keeps layout s.disk (exec cfg t r e s).2.disk := by
  cases r with
  | fs r => exact keeps_fs hr
  | dropTemp p =>
    simp only [exec]
    split
    · exact keeps_unlink layout s.disk p
    · exact .refl layout s.disk
  | receiveToken token =>
    simp only [exec]
    split <;> exact .refl layout s.disk
  | _ => exact .refl layout s.disk

end

/-! ## Records -/

/-- What the tasks requested, with the operations and the responses, the latest first. -/
abbrev Records := Tid → List (Op × Task.Event Req Resp)

namespace Records

/-- What a task requested. -/
def events (ev : Records) (t : Tid) : List (Task.Event Req Resp) :=
  (ev t).map (·.2)

/-- The records after one more request of a task. -/
def cons (ev : Records) (t : Tid) (op : Op) (r : Req) (x : Resp r) : Records :=
  Function.update ev t ((op, ⟨r, x⟩) :: ev t)

variable {ev : Records} {t t' : Tid} {op : Op} {r : Req} {x : Resp r}

theorem events_cons_self : (ev.cons t op r x).events t = ⟨r, x⟩ :: ev.events t := by
  rw [events, cons, Function.update_self]
  rfl

theorem events_cons_of_ne (h : t' ≠ t) : (ev.cons t op r x).events t' = ev.events t' := by
  rw [events, cons, Function.update_of_ne h, events]

/-- What is on record after one more request. -/
theorem mem_cons {e : Op × Task.Event Req Resp} :
    e ∈ ev.cons t op r x t' ↔ (t' = t ∧ e = (op, ⟨r, x⟩)) ∨ e ∈ ev t' := by
  by_cases h : t' = t
  · subst h
    rw [cons, Function.update_self, List.mem_cons, eq_self, true_and]
  · rw [cons, Function.update_of_ne h]
    exact ⟨.inr, fun hmem => hmem.resolve_left fun he => h he.1⟩

/-- What was on record stays on record. -/
theorem mem_cons_of_mem {e : Op × Task.Event Req Resp} (h : e ∈ ev t') : e ∈ ev.cons t op r x t' :=
  mem_cons.2 (.inr h)

/-- A chunk file that was named stays named. -/
theorem named_cons {layout : StorageLayout} {p : Path} (h : Named layout (ev.events t') p) :
    Named layout ((ev.cons t op r x).events t') p := by
  obtain ⟨uuid, hmem, hname⟩ := h
  obtain ⟨e, he, heq⟩ := List.mem_map.1 hmem
  exact ⟨uuid, List.mem_map.2 ⟨e, mem_cons_of_mem he, heq⟩, hname⟩

/-- What the tasks have written after one more request. -/
theorem written_cons (p : Path) :
    written p ((ev.cons t op r x).events t') = if t' = t then next p (written p (ev.events t')) r x else written p (ev.events t') := by
  split
  · rename_i h
    rw [h, events_cons_self]
    rfl
  · rename_i h
    rw [events_cons_of_ne h]

end Records

/-! ## Names -/

/-- The identifiers are handed out once. -/
structure Known (ev : Records) (uuids : Nat) : Prop where
  counted : ∀ t op uuid, (op, ⟨.uuid, uuid⟩) ∈ ev t → uuid < uuids
  distinct : ∀ t t' op op' uuid, (op, ⟨.uuid, uuid⟩) ∈ ev t → (op', ⟨.uuid, uuid⟩) ∈ ev t' → t = t'

section

variable {cfg : Config} {layout : StorageLayout} {ev : Records} {t t' : Tid} {op : Op} {r : Req} {e : Env} {s : AppState} {p : Path}

/-- At most one task named a chunk file. -/
theorem Known.owner {uuids : Nat} (h : Known ev uuids) (hn : Named layout (ev.events t) p) (hn' : Named layout (ev.events t') p) :
    t = t' := by
  obtain ⟨uuid, hmem, hname⟩ := hn
  obtain ⟨uuid', hmem', hname'⟩ := hn'
  obtain ⟨⟨op, _⟩, he, rfl⟩ := List.mem_map.1 hmem
  obtain ⟨⟨op', _⟩, he', rfl⟩ := List.mem_map.1 hmem'
  cases Custody.names_unique hname hname'
  exact h.distinct t t' op op' uuid he he'

/-- A request is handed out a new identifier. -/
theorem Known.call (h : Known ev s.uuids) (t : Tid) (op : Op) (r : Req) (e : Env) :
    Known (ev.cons t op r (exec cfg t r e s).1) (exec cfg t r e s).2.uuids := by
  have hnew : ∀ {t' op' uuid}, (op', ⟨.uuid, uuid⟩) ∈ ev.cons t op r (exec cfg t r e s).1 t' →
      (t' = t ∧ uuid = s.uuids ∧ (exec cfg t r e s).2.uuids = s.uuids + 1) ∨ (op', ⟨.uuid, uuid⟩) ∈ ev t' := by
    intro t' op' uuid hmem
    rcases Records.mem_cons.1 hmem with ⟨rfl, he⟩ | hmem
    · cases he
      exact .inl ⟨rfl, rfl, rfl⟩
    · exact .inr hmem
  refine ⟨fun t' op' uuid hmem => ?_, fun t₁ t₂ op₁ op₂ uuid h₁ h₂ => ?_⟩
  · rcases hnew hmem with ⟨-, rfl, hs⟩ | hold
    · rw [hs]
      exact Nat.lt_succ_self _
    · exact Nat.lt_of_lt_of_le (h.counted t' op' uuid hold) Custody.uuids_exec
  · rcases hnew h₁ with ⟨ht₁, hu₁, -⟩ | h₁ <;> rcases hnew h₂ with ⟨ht₂, hu₂, -⟩ | h₂
    · rw [ht₁, ht₂]
    · exact absurd (h.counted _ _ _ h₂) (hu₁ ▸ Nat.lt_irrefl _)
    · exact absurd (h.counted _ _ _ h₁) (hu₂ ▸ Nat.lt_irrefl _)
    · exact h.distinct t₁ t₂ op₁ op₂ uuid h₁ h₂

end

/-! ## Contents -/

/-- A chunk of an operation that received a body, whose file holds the body as long as it is there. -/
def HoldsBody (op : Op) (d : Disk) (chunk : ChunkInfo) : Prop :=
  ∃ headers body, op = .patch headers body ∧ chunk.length = (receivedBytes body).length ∧
    ∀ node, d.file? chunk.chunkPath = some node → node.data = receivedBytes body

/-- A chunk keeps the body when its file is as it was. -/
theorem HoldsBody.of_file {op : Op} {d d' : Disk} {chunk : ChunkInfo} (h : HoldsBody op d chunk)
    (hfile : ∀ node, d'.file? chunk.chunkPath = some node → ∃ node', d.file? chunk.chunkPath = some node' ∧ node'.data = node.data) :
    HoldsBody op d' chunk := by
  obtain ⟨headers, body, hop, hlength, hdata⟩ := h
  refine ⟨headers, body, hop, hlength, fun node hnode => ?_⟩
  obtain ⟨node', hnode', he⟩ := hfile node hnode
  exact he.symm.trans (hdata node' hnode')

/-- Every file that was written to has an inode of its own, a chunk file that was written to holds what was written, and one that was
committed holds the body. -/
structure Filed (layout : StorageLayout) (ev : Records) (d : Disk) : Prop where
  sane : d.Sane
  handed : ∀ t p ino bytes, written p (ev.events t) = some (ino, bytes) → ino < d.nextIno
  apart : ∀ t p ino bytes q, written p (ev.events t) = some (ino, bytes) → ChunkFile layout q → d.names.lookup q = some ino → q = p
  named : ∀ t p file, written p (ev.events t) = some file → ChunkFile layout p → Named layout (ev.events t) p
  content : ∀ t p ino bytes ino', written p (ev.events t) = some (ino, bytes) → ChunkFile layout p → d.names.lookup p = some ino' →
    ino' = ino ∧ (d.nodes ino).data = bytes
  committed : ∀ t op key params chunk x, (op, ⟨.sessions (.commit key params chunk), x⟩) ∈ ev t →
    HoldsBody op d chunk ∧ ChunkFile layout chunk.chunkPath ∧ Named layout (ev.events t) chunk.chunkPath

namespace Filed

variable {layout : StorageLayout} {ev ev' : Records} {d d' : Disk} {t : Tid} {op : Op} {p : Path} {ino : Ino} {bytes : Bytes}

/-- A step that writes nothing takes at most names away. -/
theorem of_keeps (h : Filed layout ev d) (hk : Keeps layout d d') (hsane : d'.Sane)
    (hwritten : ∀ t p, written p (ev'.events t) = written p (ev.events t))
    (hnamed : ∀ t p, Named layout (ev.events t) p → Named layout (ev'.events t) p)
    (hcommitted : ∀ t op key params chunk x, (op, ⟨.sessions (.commit key params chunk), x⟩) ∈ ev' t →
      (op, ⟨.sessions (.commit key params chunk), x⟩) ∈ ev t ∨
        HoldsBody op d' chunk ∧ ChunkFile layout chunk.chunkPath ∧ Named layout (ev'.events t) chunk.chunkPath) :
    Filed layout ev' d' := by
  refine ⟨hsane, fun t p ino bytes hw => ?_, fun t p ino bytes q hw hq hl => ?_, fun t p file hw hp => ?_,
    fun t p ino bytes ino' hw hp hl => ?_, fun t op key params chunk x hmem => ?_⟩
  · rw [hwritten] at hw
    exact hk.nextIno ▸ h.handed t p ino bytes hw
  · rw [hwritten] at hw
    exact h.apart t p ino bytes q hw hq (hk.names q ino hq hl)
  · rw [hwritten] at hw
    exact hnamed t p (h.named t p file hw hp)
  · rw [hwritten] at hw
    rw [hk.nodes]
    exact h.content t p ino bytes ino' hw hp (hk.names p ino' hp hl)
  · rcases hcommitted t op key params chunk x hmem with hold | hnew
    · obtain ⟨hbody, hfile, hname⟩ := h.committed t op key params chunk x hold
      refine ⟨hbody.of_file fun node hnode => ?_, hfile, hnamed t _ hname⟩
      obtain ⟨ino, hl, rfl⟩ := Option.map_eq_some_iff.1 hnode
      exact ⟨_, Option.map_eq_some_iff.2 ⟨ino, hk.names _ ino hfile hl, rfl⟩, by rw [hk.nodes]⟩
    · exact hnew

/-- No other name leads to a file that is created. -/
theorem ne_of_creates (h : Filed layout ev d) (hc : Creates d d' p ino) {q : Path} (hq : q ≠ p) : d.names.lookup q ≠ some ino := by
  intro hl
  rcases hc.origin with ho | rfl
  · exact hq (h.sane.distinct q p ino hl ho)
  · exact absurd (h.sane.fresh q _ hl) (Nat.lt_irrefl _)

/-- A request creates a file: it is empty, and no other file changes. -/
theorem createFile {uuids : Nat} (h : Filed layout ev d) (hk : Known ev uuids) (hc : Creates d d' p ino) (hsane : d'.Sane)
    (hmay : ChunkFile layout p → Named layout (ev.events t) p ∧ ¬ Committed (ev.events t) p) :
    Filed layout (ev.cons t op (.fs (.createFile p)) (.ok ino)) d' := by
  -- Either this is the new file, or it was written to before.
  have hwritten : ∀ {t' q i b}, written q ((ev.cons t op (.fs (.createFile p)) (.ok ino)).events t') = some (i, b) →
      (t' = t ∧ q = p ∧ i = ino ∧ b = []) ∨ (¬ (t' = t ∧ q = p) ∧ written q (ev.events t') = some (i, b)) := by
    intro t' q i b hw
    rw [Records.written_cons] at hw
    by_cases ht : t' = t
    · rw [if_pos ht] at hw
      by_cases hq : p = q
      · have he : some (ino, []) = some (i, b) := (if_pos hq).symm.trans hw
        cases he
        exact .inl ⟨ht, hq.symm, rfl, rfl⟩
      · exact .inr ⟨fun he => hq he.2.symm, (if_neg hq).symm.trans hw⟩
    · rw [if_neg ht] at hw
      exact .inr ⟨fun he => ht he.1, hw⟩
  refine ⟨hsane, fun t' q i b hw => ?_, fun t' q i b q' hw hq' hl => ?_, fun t' q file hw hq => ?_,
    fun t' q i b i' hw hq hl => ?_, fun t' op' key params chunk x hmem => ?_⟩
  · rcases hwritten hw with ⟨-, -, rfl, -⟩ | ⟨-, hold⟩
    · exact hsane.fresh p _ hc.name
    · exact Nat.lt_of_lt_of_le (h.handed t' q i b hold) hc.nextIno
  · rcases hwritten hw with ⟨-, rfl, rfl, -⟩ | ⟨-, hold⟩
    · exact hsane.distinct q' _ _ hl hc.name
    · by_cases hp : q' = p
      · subst hp
        cases hl.symm.trans hc.name
        rcases hc.origin with ho | rfl
        · exact h.apart t' q _ b q' hold hq' ho
        · exact absurd (h.handed t' q _ b hold) (Nat.lt_irrefl _)
      · exact h.apart t' q i b q' hold hq' ((hc.others q' hp).symm.trans hl)
  · obtain ⟨i, b⟩ := file
    rcases hwritten hw with ⟨rfl, rfl, -, -⟩ | ⟨-, hold⟩
    · exact Records.named_cons (hmay hq).1
    · exact Records.named_cons (h.named t' q _ hold hq)
  · rcases hwritten hw with ⟨rfl, rfl, rfl, rfl⟩ | ⟨hne, hold⟩
    · exact ⟨Option.some.inj (hl.symm.trans hc.name), hc.data⟩
    · have hp : q ≠ p := by
        rintro rfl
        exact hne ⟨hk.owner (h.named t' q _ hold hq) (hmay hq).1, rfl⟩
      rw [hc.others q hp] at hl
      obtain ⟨rfl, hdata⟩ := h.content t' q i b i' hold hq hl
      refine ⟨rfl, (congrArg Node.data (hc.nodes _ fun he => ?_)).trans hdata⟩
      exact h.ne_of_creates hc hp (he ▸ hl)
  · rcases Records.mem_cons.1 hmem with ⟨-, he⟩ | hold
    · cases he
    · obtain ⟨hbody, hfile, hname⟩ := h.committed t' op' key params chunk x hold
      refine ⟨hbody.of_file fun node hnode => ?_, hfile, Records.named_cons hname⟩
      have hp : chunk.chunkPath ≠ p := by
        intro he
        have hnamed := hmay (he ▸ hfile)
        cases hk.owner hname (he ▸ hnamed.1)
        exact hnamed.2 ⟨key, params, chunk, x, List.mem_map.2 ⟨_, hold, rfl⟩, he⟩
      obtain ⟨i, hl, rfl⟩ := Option.map_eq_some_iff.1 hnode
      rw [hc.others _ hp] at hl
      refine ⟨_, Option.map_eq_some_iff.2 ⟨i, hl, rfl⟩, ?_⟩
      rw [hc.nodes i fun he => h.ne_of_creates hc hp (he ▸ hl)]

/-- A request writes to a file that it created: the file grows, and no other one changes. -/
theorem writeAll {uuids now : Nat} (h : Filed layout ev d) (hk : Known ev uuids) (hw₀ : written p (ev.events t) = some (ino, bytes))
    (hmay : ChunkFile layout p → ¬ Committed (ev.events t) p) (piece : Bytes) :
    Filed layout (ev.cons t op (.fs (.writeAll ino piece)) (.ok ())) (d.setNode ino ⟨(d.nodes ino).data ++ piece, now⟩) := by
  -- Whatever was written to keeps its inode, and only files at this inode grow.
  have hwritten : ∀ {t' q i b}, written q ((ev.cons t op (.fs (.writeAll ino piece)) (.ok ())).events t') = some (i, b) →
      ∃ b₀, written q (ev.events t') = some (i, b₀) ∧ b = if t' = t ∧ i = ino then b₀ ++ piece else b₀ := by
    intro t' q i b hw
    rw [Records.written_cons] at hw
    by_cases ht : t' = t
    · rw [if_pos ht] at hw
      obtain ⟨⟨i₀, b₀⟩, hold, he⟩ := Option.map_eq_some_iff.1 (show (written q (ev.events t')).map _ = some (i, b) from hw)
      simp only at he
      by_cases hi : i₀ = ino
      · rw [if_pos hi] at he
        cases he
        exact ⟨b₀, hi ▸ hold, (if_pos ⟨ht, rfl⟩).symm⟩
      · rw [if_neg hi] at he
        cases he
        exact ⟨_, hold, (if_neg fun he => hi he.2).symm⟩
    · rw [if_neg ht] at hw
      exact ⟨b, hw, (if_neg fun he => ht he.1).symm⟩
  have hnode : ∀ {i}, i ≠ ino → (d.setNode ino ⟨(d.nodes ino).data ++ piece, now⟩).nodes i = d.nodes i := fun hi =>
    Function.update_of_ne hi ..
  refine ⟨h.sane.of_names rfl rfl, fun t' q i b hw => ?_, fun t' q i b q' hw hq' hl => ?_, fun t' q file hw hq => ?_,
    fun t' q i b i' hw hq hl => ?_, fun t' op' key params chunk x hmem => ?_⟩
  · obtain ⟨b₀, hold, -⟩ := hwritten hw
    exact h.handed t' q i b₀ hold
  · obtain ⟨b₀, hold, -⟩ := hwritten hw
    exact h.apart t' q i b₀ q' hold hq' hl
  · obtain ⟨i, b⟩ := file
    obtain ⟨b₀, hold, -⟩ := hwritten hw
    exact Records.named_cons (h.named t' q _ hold hq)
  · obtain ⟨b₀, hold, rfl⟩ := hwritten hw
    obtain ⟨rfl, hdata⟩ := h.content t' q i b₀ i' hold hq hl
    refine ⟨rfl, ?_⟩
    by_cases hi : i' = ino
    · subst hi
      -- A chunk file at this inode is the one that is written to, so this task has it.
      have hqp := h.apart t p i' bytes q hw₀ hq hl
      subst hqp
      have ht := hk.owner (h.named t' q _ hold hq) (h.named t q _ hw₀ hq)
      rw [if_pos ⟨ht, rfl⟩, ← hdata]
      simp only [Disk.setNode, Function.update_self]
    · rw [if_neg fun he => hi he.2, hnode hi]
      exact hdata
  · rcases Records.mem_cons.1 hmem with ⟨-, he⟩ | hold
    · cases he
    · obtain ⟨hbody, hfile, hname⟩ := h.committed t' op' key params chunk x hold
      refine ⟨hbody.of_file fun node hnode' => ?_, hfile, Records.named_cons hname⟩
      obtain ⟨i, hl, rfl⟩ := Option.map_eq_some_iff.1 hnode'
      refine ⟨_, Option.map_eq_some_iff.2 ⟨i, hl, rfl⟩, ?_⟩
      rw [hnode fun hi => ?_]
      -- A file that was committed is not written to.
      have hqp := h.apart t p ino bytes chunk.chunkPath hw₀ hfile (hi ▸ hl)
      have ht := hk.owner hname (hqp ▸ h.named t p _ hw₀ (hqp ▸ hfile))
      subst ht
      exact hmay (hqp ▸ hfile) ⟨key, params, chunk, x, List.mem_map.2 ⟨_, hold, rfl⟩, hqp⟩

section

variable {cfg : Config} {e : Env} {s : AppState} {r : Req}

/-- A request that writes nothing, and commits at most a chunk that holds its body. -/
theorem other (h : Filed cfg.storage ev s.disk) (hkeeps : Keeps cfg.storage s.disk (exec cfg t r e s).2.disk)
    (hnext : ∀ p w, next p w r (exec cfg t r e s).1 = w)
    (hcommit : ∀ key params chunk, r = .sessions (.commit key params chunk) →
      HoldsBody op s.disk chunk ∧ ChunkFile cfg.storage chunk.chunkPath ∧ Named cfg.storage (ev.events t) chunk.chunkPath) :
    Filed cfg.storage (ev.cons t op r (exec cfg t r e s).1) (exec cfg t r e s).2.disk := by
  refine h.of_keeps hkeeps (sane_exec cfg t r e h.sane) (fun t' p => ?_) (fun _ _ => Records.named_cons)
    fun t' op' key params chunk x hmem => ?_
  · rw [Records.written_cons, hnext]
    split <;> rfl
  · rcases Records.mem_cons.1 hmem with ⟨rfl, he⟩ | hold
    · cases he
      obtain ⟨hbody, hfile, hname⟩ := hcommit key params chunk rfl
      exact .inr ⟨hbody, hfile, Records.named_cons hname⟩
    · exact .inl hold

/-- A request that may be made keeps the files. -/
theorem call (h : Filed cfg.storage ev s.disk) (hk : Known ev s.uuids) (hmay : May cfg.storage op (ev.events t) r) (e : Env) :
    Filed cfg.storage (ev.cons t op r (exec cfg t r e s).1) (exec cfg t r e s).2.disk := by
  have hfree : Free cfg.storage r → Filed cfg.storage (ev.cons t op r (exec cfg t r e s).1) (exec cfg t r e s).2.disk := fun hr =>
    h.other (keeps_exec hr) (next_of_free hr) fun key params chunk he => absurd he (ne_commit_of_free hr key params chunk)
  cases r with
  | fs r =>
    cases r with
    | createFile p =>
      rcases creates_or_fails s.disk e.fs s.clock.system p with ⟨ino, hx, hc⟩ | ⟨error, hx⟩
      · have hsane : (s.disk.exec e.fs s.clock.system (.createFile p)).2.Sane := h.sane.exec ..
        show Filed cfg.storage (ev.cons t op (.fs (.createFile p)) (s.disk.exec e.fs s.clock.system (.createFile p)).1)
          (s.disk.exec e.fs s.clock.system (.createFile p)).2
        rw [hx]
        exact h.createFile hk hc hsane hmay
      · refine h.other ?_ (fun q w => ?_) nofun
        · show Keeps cfg.storage s.disk (s.disk.exec e.fs s.clock.system (.createFile p)).2
          rw [hx]
          exact .refl ..
        · show next q w (.fs (.createFile p)) (s.disk.exec e.fs s.clock.system (.createFile p)).1 = w
          rw [hx]
          rfl
    | writeAll ino piece =>
      obtain ⟨p, bytes, hw, hp⟩ := hmay
      rcases writes_or_fails s.disk e.fs s.clock.system ino piece with hx | ⟨error, hx⟩
      · show Filed cfg.storage (ev.cons t op (.fs (.writeAll ino piece)) (s.disk.exec e.fs s.clock.system (.writeAll ino piece)).1)
          (s.disk.exec e.fs s.clock.system (.writeAll ino piece)).2
        rw [hx]
        exact h.writeAll hk hw hp piece
      · refine h.other ?_ (fun q w => ?_) nofun
        · show Keeps cfg.storage s.disk (s.disk.exec e.fs s.clock.system (.writeAll ino piece)).2
          rw [hx]
          exact .refl ..
        · show next q w (.fs (.writeAll ino piece)) (s.disk.exec e.fs s.clock.system (.writeAll ino piece)).1 = w
          rw [hx]
          rfl
    | rename source destination => exact hfree hmay
    | _ => exact hfree trivial
  | sessions r =>
    cases r with
    | commit key params chunk =>
      refine h.other (.refl ..) (fun _ _ => rfl) ?_
      rintro _ _ _ ⟨⟩
      obtain ⟨hfile, headers, body, ino, hop, hw, hlength⟩ := hmay
      refine ⟨⟨headers, body, hop, hlength, fun node hnode => ?_⟩, hfile, h.named t _ _ hw hfile⟩
      obtain ⟨ino', hl, rfl⟩ := Option.map_eq_some_iff.1 hnode
      obtain ⟨rfl, hdata⟩ := h.content t _ ino _ ino' hw hfile hl
      exact hdata
    | restore key upload => exact h.other (.refl ..) (fun _ _ => rfl) nofun
    | _ => exact hfree trivial
  | _ => exact hfree trivial

/-- A step at which no task requests anything takes at most names away. -/
theorem still (h : Filed layout ev d) (hk : Keeps layout d d') (hsane : d'.Sane) : Filed layout ev d' :=
  h.of_keeps hk hsane (fun _ _ => rfl) (fun _ _ => id) fun _ _ _ _ _ _ => .inl

end

end Filed

/-! ## Sessions -/

/-- A task committed a chunk, and a session took it. -/
def Accepted (ev : Records) (chunk : ChunkInfo) : Prop :=
  ∃ t op key params x, (op, ⟨.sessions (.commit key params chunk), x⟩) ∈ ev t ∧ Commit.accepts x = true

/-- Every chunk of a session, and of an upload that was completed, was committed. -/
structure Sourced (ev : Records) (st : SessionState) : Prop where
  registered : st.Each fun _ upload => ∀ chunk ∈ upload.chunks, Accepted ev chunk
  completed : ∀ t op key params chunk upload, (op, ⟨.sessions (.commit key params chunk), .complete upload⟩) ∈ ev t →
    ∀ c ∈ upload.chunks, Accepted ev c

section

variable {cfg : Config} {ev : Records} {t : Tid} {op : Op} {r : Req} {x : Resp r} {e : Env} {s : AppState}

/-- A chunk that was committed stays so. -/
theorem Accepted.cons {chunk : ChunkInfo} (h : Accepted ev chunk) : Accepted (ev.cons t op r x) chunk := by
  obtain ⟨t', op', key, params, y, hmem, hy⟩ := h
  exact ⟨t', op', key, params, y, Records.mem_cons_of_mem hmem, hy⟩

/-- The chunks of the session that a chunk is for were committed. -/
theorem Sourced.target {st : SessionState} (h : Sourced ev st) (key : ChunkUploadKey) (params : SessionParams) (now : Nat) :
    ∀ c ∈ (st.target key params now).chunks, Accepted ev c := by
  unfold SessionState.target
  cases hu : st.uploads.lookup key with
  | none => exact nofun
  | some upload => exact h.registered key upload hu

/-- A commit registers and completes only chunks that were committed. -/
theorem Sourced.commit (h : Sourced ev s.sessions) (key : ChunkUploadKey) (params : SessionParams) (chunk : ChunkInfo) :
    Sourced (ev.cons t op (.sessions (.commit key params chunk)) (exec cfg t (.sessions (.commit key params chunk)) e s).1)
      (exec cfg t (.sessions (.commit key params chunk)) e s).2.sessions := by
  show Sourced (ev.cons t op (.sessions (.commit key params chunk)) (s.sessions.commit key params chunk s.clock.instant).1)
    (s.sessions.commit key params chunk s.clock.instant).2
  have hreceived : (s.sessions.commit key params chunk s.clock.instant).1.accepts = true →
      ∀ c ∈ (SessionState.received (s.sessions.target key params s.clock.instant) chunk).chunks,
        Accepted (ev.cons t op (.sessions (.commit key params chunk)) (s.sessions.commit key params chunk s.clock.instant).1) c := by
    intro hx c hc
    rcases List.mem_append.1 hc with hc | hc
    · exact (h.target key params _ c hc).cons
    · cases List.mem_singleton.1 hc
      exact ⟨t, op, key, params, _, Records.mem_cons.2 (.inl ⟨rfl, rfl⟩), hx⟩
  have hregistered : s.sessions.Each fun _ upload => ∀ c ∈ upload.chunks,
      Accepted (ev.cons t op (.sessions (.commit key params chunk)) (s.sessions.commit key params chunk s.clock.instant).1) c :=
    fun k upload hu c hc => (h.registered k upload hu c hc).cons
  refine ⟨?_, fun t' op' key' params' chunk' upload hmem c hc => ?_⟩
  · obtain ⟨_, hs⟩ | ⟨_, ⟨_, _, hs⟩ | ⟨_, _, _, _, hs⟩ | ⟨_, _, _, ho, hs⟩⟩ := s.sessions.commit_cases key params chunk s.clock.instant
    · have hstate : (s.sessions.commit key params chunk s.clock.instant).2 = s.sessions := congrArg Prod.snd hs
      rw [hstate]
      exact hregistered
    · refine hregistered.of_update _ hs ?_
      rintro _ ⟨⟩ c hc
      exact (h.target key params _ c hc).cons
    · exact hregistered.of_update none hs nofun
    · refine hregistered.of_update _ hs ?_
      rintro _ ⟨⟩
      exact hreceived (ho ▸ rfl)
  · rcases Records.mem_cons.1 hmem with ⟨-, he⟩ | hold
    · generalize hcomplete : (s.sessions.commit key params chunk s.clock.instant).1 = outcome at he
      cases he
      obtain ⟨_, hs⟩ | ⟨_, ⟨_, ho, _⟩ | ⟨_, _, _, ho, _⟩ | ⟨_, _, _, ho, _⟩⟩ := s.sessions.commit_cases key params chunk s.clock.instant
      · nomatch (congrArg Prod.fst hs).symm.trans hcomplete
      · rw [hcomplete] at ho
        exact ho.elim nofun nofun
      · obtain rfl := Commit.complete.inj (ho.symm.trans hcomplete)
        rw [← ho]
        exact hreceived (ho ▸ rfl) c hc
      · nomatch ho.symm.trans hcomplete
    · exact (h.completed t' op' key' params' chunk' upload hold c hc).cons

/-- A request that may be made registers and completes only chunks that were committed. -/
theorem Sourced.call (h : Sourced ev s.sessions) (hmay : May cfg.storage op (ev.events t) r) (e : Env) :
    Sourced (ev.cons t op r (exec cfg t r e s).1) (exec cfg t r e s).2.sessions := by
  by_cases hcommit : ∃ key params chunk, r = .sessions (.commit key params chunk)
  · obtain ⟨key, params, chunk, rfl⟩ := hcommit
    exact h.commit key params chunk
  · have hcompleted : ∀ t' op' key params chunk upload,
        (op', ⟨.sessions (.commit key params chunk), .complete upload⟩) ∈ ev.cons t op r (exec cfg t r e s).1 t' →
          ∀ c ∈ upload.chunks, Accepted (ev.cons t op r (exec cfg t r e s).1) c := by
      intro t' op' key params chunk upload hmem c hc
      rcases Records.mem_cons.1 hmem with ⟨-, he⟩ | hold
      · refine absurd ⟨key, params, chunk, ?_⟩ hcommit
        exact (congrArg (fun e : Op × Task.Event Req Resp => e.2.1) he).symm
      · exact (h.completed t' op' key params chunk upload hold c hc).cons
    have hregistered : s.sessions.Each fun _ upload => ∀ c ∈ upload.chunks, Accepted (ev.cons t op r (exec cfg t r e s).1) c :=
      fun k upload hu c hc => (h.registered k upload hu c hc).cons
    refine ⟨?_, hcompleted⟩
    by_cases hrestore : ∃ key upload, r = .sessions (.restore key upload)
    · obtain ⟨key, upload, rfl⟩ := hrestore
      refine SessionState.Each.restore hregistered fun c hc => ?_
      obtain ⟨key', params, last, whole, hmem, hwhole⟩ := hmay c hc
      obtain ⟨⟨op', _⟩, he, rfl⟩ := List.mem_map.1 hmem
      exact (h.completed t op' key' params last whole he c hwhole).cons
    · refine fun key upload hu => hregistered key upload (Custody.lookup_exec (fun hgives => ?_) hu)
      cases r with
      | sessions r =>
        cases r with
        | commit key params chunk => exact hcommit ⟨key, params, chunk, rfl⟩
        | restore key upload => exact hrestore ⟨key, upload, rfl⟩
        | _ => exact hgives.elim
      | _ => exact hgives.elim

end

/-! ## Histories -/

/-- What every history keeps: names are handed out once, committed chunk files hold their bodies, and the chunks of a session were
committed. -/
structure Kept (layout : StorageLayout) (ev : Records) (s : AppState) : Prop where
  known : Known ev s.uuids
  filed : Filed layout ev s.disk
  sourced : Sourced ev s.sessions

section

variable {cfg : Config} {ev : Records} {t : Tid} {op : Op} {r : Req} {s s' : AppState}

/-- A request that may be made keeps it. -/
theorem Kept.call (h : Kept cfg.storage ev s) (hmay : May cfg.storage op (ev.events t) r) (e : Env) :
    Kept cfg.storage (ev.cons t op r (exec cfg t r e s).1) (exec cfg t r e s).2 :=
  ⟨h.known.call t op r e, h.filed.call h.known hmay e, h.sourced.call hmay e⟩

/-- A step at which no task requests anything keeps it, when it takes at most names away. -/
theorem Kept.still {layout : StorageLayout} (h : Kept layout ev s) (hk : Keeps layout s.disk s'.disk) (hsane : s'.disk.Sane)
    (huuids : s'.uuids = s.uuids) (hsessions : s'.sessions = s.sessions ∨ s'.sessions = .empty) : Kept layout ev s' := by
  refine ⟨huuids ▸ h.known, h.filed.still hk hsane, ?_, h.sourced.completed⟩
  rcases hsessions with he | he
  · rw [he]
    exact h.sourced.registered
  · rw [he]
    exact SessionState.each_empty _

/-- It holds when the server starts without sessions. -/
theorem kept_start {layout : StorageLayout} (hsane : s.disk.Sane) (hsessions : s.sessions = .empty) : Kept layout (fun _ => []) s := by
  have hnothing : ∀ t p, written p (Records.events (fun _ => []) t) = none := fun _ _ => rfl
  refine ⟨⟨fun _ _ _ hmem => absurd hmem List.not_mem_nil, fun _ _ _ _ _ hmem => absurd hmem List.not_mem_nil⟩,
    ⟨hsane, fun t p _ _ hw => ?_, fun t p _ _ _ hw => ?_, fun t p _ hw => ?_, fun t p _ _ _ hw => ?_,
      fun _ _ _ _ _ _ hmem => absurd hmem List.not_mem_nil⟩,
    hsessions ▸ SessionState.each_empty _, fun _ _ _ _ _ _ hmem => absurd hmem List.not_mem_nil⟩
  all_goals nomatch (hnothing t p).symm.trans hw

/-- What the tasks of a history requested. -/
def records (past : Custody.Past) : Records :=
  fun t => Task.record t past

/-- A request extends what its task requested. -/
theorem records_called {past : Custody.Past} {c : Server} {x : Resp r} :
    records ((c, .called t op r x) :: past) = (records past).cons t op r x := by
  funext t'
  by_cases ht : t' = t
  · subst ht
    rw [Records.cons, Function.update_self]
    have hself : Task.record t' ((c, Label.called t' op r x) :: past) = (op, ⟨r, x⟩) :: Task.record t' past :=
      List.filterMap_cons_some (if_pos rfl)
    exact hself
  · rw [Records.cons, Function.update_of_ne ht]
    have hother : Task.record t' ((c, Label.called t op r x) :: past) = Task.record t' past :=
      List.filterMap_cons_none (if_neg (Ne.symm ht))
    exact hother

variable {root : Path} {past : Custody.Past} {c : Server} {ok : Custody.Past → Server → Label Req Resp Str Op Report → Prop}

/-- The answers in a history are as the requests rely on them. -/
theorem answers_of_history (hsessions : s.sessions = .empty) (h : History (machine cfg) ok (Server.idle s) past c) (t : Tid) :
    ∀ e ∈ Task.record t past, Answers cfg.storage e.2.1 e.2.2 := by
  have hs : s.sessions.Each fun _ upload => upload.WellFormed cfg.storage := hsessions ▸ SessionState.each_empty _
  rintro ⟨op, r, x⟩ he
  refine ⟨(Uploads.foreseen_of_history hs h).2 t _ he, ?_⟩
  obtain ⟨c₁, hmem⟩ := Task.mem_record he
  obtain ⟨env, rfl⟩ := h.called hmem
  cases r with
  | reserveTemp dir namePrefix extension => exact ⟨_, rfl⟩
  | _ => exact trivial

/-- What a task may request next in a history. -/
theorem may_of_history (hlayout : cfg.storage = .new root) (hsessions : s.sessions = .empty)
    (h : History (machine cfg) ok (Server.idle s) past c) {k : Resp r → Task Req Resp Str Report} (ht : c.tasks t = some (op, .call r k)) :
    May cfg.storage op ((records past).events t) r := by
  obtain ⟨es, hes, hobeys⟩ := h.obeys (fun op => program_obeys hlayout op) (answers_of_history hsessions h) ht
  have hevents : (records past).events t = es := by
    rw [Records.events, records, hes, List.map_map]
    exact List.map_id _
  exact hevents ▸ hobeys.1

/-- In every history names are handed out once, committed chunk files hold their bodies, and the chunks of a session were committed. -/
theorem kept_of_history (hlayout : cfg.storage = .new root) (hsane : s.disk.Sane) (hsessions : s.sessions = .empty)
    (h : History (machine cfg) ok (Server.idle s) past c) : Kept cfg.storage (records past) c.world.store := by
  induction h with
  | start => exact kept_start hsane hsessions
  | @step past c l c' h _ hs ih =>
    cases hs with
    | @call t op r k e ht =>
      rw [records_called]
      exact ih.call (may_of_history hlayout hsessions h ht) e
    | @drop t op p ht =>
      refine ih.still (keeps_unlinks ..) ?_ rfl (.inl rfl)
      exact ih.filed.sane.unlinks (c.world.store.temps.filter (·.1 = t))
    | crash => exact ih.still (.refl ..) ih.filed.sane rfl (.inr rfl)
    | _ => exact ih.still (.refl ..) ih.filed.sane rfl (.inl rfl)

/-! ## The next request -/

/-- What the tasks requested, when a new task has requested something. -/
def Records.during (ev : Records) (t : Tid) (op : Op) (own : List (Task.Event Req Resp)) : Records :=
  Function.update ev t (own.map (Prod.mk op))

theorem Records.during_cons {own : List (Task.Event Req Resp)} {x : Resp r} :
    (ev.during t op own).cons t op r x = ev.during t op (⟨r, x⟩ :: own) := by
  rw [cons, during, during, Function.update_self, Function.update_idem]
  rfl

theorem Records.events_during {own : List (Task.Event Req Resp)} : (ev.during t op own).events t = own := by
  rw [events, during, Function.update_self, List.map_map]
  exact List.map_id _

end

end Contents

namespace Handlers

/-- A request of a history that received a body committed a chunk, and a session took it. -/
def ReceivedIn (past : Custody.Past) (chunk : ChunkInfo) (received : Body) : Prop :=
  ∃ c t headers key params x,
    (c, .called t (.patch headers received) (.sessions (.commit key params chunk)) x) ∈ past ∧ Commit.accepts x = true

/-- A request has committed a chunk, and a session took it. -/
def Commits (own : List (Task.Event Req Resp)) (chunk : ChunkInfo) : Prop :=
  ∃ key params x, ⟨.sessions (.commit key params chunk), x⟩ ∈ own ∧ Commit.accepts x = true

/-- The file of a chunk holds a body of the length of the chunk, as long as it is there. -/
def HoldsReceived (d : Disk) (chunk : ChunkInfo) (received : Body) : Prop :=
  chunk.length = (receivedBytes received).length ∧ ∀ node, d.file? chunk.chunkPath = some node → node.data = receivedBytes received

/-- A publication of the bodies that were received for the chunks of a completed upload, in the order of their offsets: by the requests
of a history that committed them, and by this one. -/
def PublishesReceived (cfg : Config) (past : Custody.Past) (body : Body) (own : List (Task.Event Req Resp))
    (p : Async (AppResult StoredBlob)) (s : AppState) : Prop :=
  ∃ (key : ChunkUploadKey) (params : SessionParams) (chunk : ChunkInfo) (upload : ChunkUpload) (received : ChunkInfo → Body),
    ⟨.sessions (.commit key params chunk), .complete upload⟩ ∈ own ∧
    (∀ c ∈ upload.chunks, c.length = (receivedBytes (received c)).length ∧
      (ReceivedIn past c (received c) ∨ Commits own c ∧ received c = body)) ∧
    PublishesBytes cfg cfg.maxBlobSizeBytes ((sortChunks upload.chunks).flatMap fun c => receivedBytes (received c)) p s

end Handlers

namespace Contents

section

variable {cfg : Config} {root : Path} {past : Custody.Past} {c : Server} {s : AppState} {headers : Headers} {body : Body}
  {ok : Custody.Past → Server → Label Req Resp Str Op Report → Prop}

/-- In every history a chunk that a session took was received by a request, and its file holds the body. -/
theorem holdsReceived_of_accepted {layout : StorageLayout} (h : Filed layout (records past) s.disk) {chunk : ChunkInfo}
    (ha : Accepted (records past) chunk) : ∃ received, ReceivedIn past chunk received ∧ HoldsReceived s.disk chunk received := by
  obtain ⟨t, op, key, params, x, hmem, hx⟩ := ha
  obtain ⟨⟨headers, body, rfl, hlength, hdata⟩, -⟩ := h.committed t op key params chunk x hmem
  obtain ⟨c, hpast⟩ := Task.mem_record hmem
  exact ⟨body, ⟨c, t, headers, key, params, x, hpast, hx⟩, hlength, hdata⟩

/-- A chunk that a session took in a history or from a new task was received, and its file holds the body. -/
theorem holdsReceived_during {layout : StorageLayout} {t : Tid} {own : List (Task.Event Req Resp)}
    (h : Filed layout ((records past).during t (.patch headers body) own) s.disk) {chunk : ChunkInfo}
    (ha : Accepted ((records past).during t (.patch headers body) own) chunk) :
    ∃ received, (ReceivedIn past chunk received ∨ Commits own chunk ∧ received = body) ∧ HoldsReceived s.disk chunk received := by
  obtain ⟨t', op, key, params, x, hmem, hx⟩ := ha
  obtain ⟨⟨headers', body', rfl, hlength, hdata⟩, -⟩ := h.committed t' op key params chunk x hmem
  refine ⟨body', ?_, hlength, hdata⟩
  by_cases ht : t' = t
  · subst ht
    rw [Records.during, Function.update_self] at hmem
    obtain ⟨e, he, heq⟩ := List.mem_map.1 hmem
    cases heq
    exact .inr ⟨⟨key, params, x, he, hx⟩, rfl⟩
  · rw [Records.during, Function.update_of_ne ht] at hmem
    obtain ⟨c, hpast⟩ := Task.mem_record hmem
    exact .inl ⟨c, t', headers', key, params, x, hpast, hx⟩

/-- What the file of a chunk holds is the body that was received. -/
theorem chunkBytes_eq {d : Disk} {chunk : ChunkInfo} {received : Body} (h : HoldsReceived d chunk received)
    (hfile : ∃ ino, d.names.lookup chunk.chunkPath = some ino ∧ (d.nodes ino).data.length = chunk.length) :
    chunkBytes d chunk = receivedBytes received := by
  obtain ⟨ino, hl, -⟩ := hfile
  have hnode : d.file? chunk.chunkPath = some (d.nodes ino) := Option.map_eq_some_iff.2 ⟨ino, hl, rfl⟩
  rw [chunkBytes, hnode]
  exact h.2 _ hnode

/-- A publication of what the chunk files hold is one of the bodies that were received. -/
theorem publishesReceived {t : Tid} {own : List (Task.Event Req Resp)} {p : Async (AppResult StoredBlob)}
    (h : Kept cfg.storage ((records past).during t (.patch headers body) own) s) (hp : PublishesChunks cfg own p s) :
    PublishesReceived cfg past body own p s := by
  obtain ⟨key, params, chunk, upload, hmem, hfiles, hbytes⟩ := hp
  have hcompleted : (Op.patch headers body, ⟨.sessions (.commit key params chunk), .complete upload⟩) ∈
      (records past).during t (.patch headers body) own t := by
    rw [Records.during, Function.update_self]
    exact List.mem_map_of_mem hmem
  have hreceived : ∀ c ∈ upload.chunks, ∃ received,
      (ReceivedIn past c received ∨ Commits own c ∧ received = body) ∧ HoldsReceived s.disk c received :=
    fun c hc => holdsReceived_during h.filed (h.sourced.completed t _ key params chunk upload hcompleted c hc)
  choose! received hsource using hreceived
  refine ⟨key, params, chunk, upload, received, hmem, fun c hc => ⟨(hsource c hc).2.1, (hsource c hc).1⟩, ?_⟩
  have hconcat : (sortChunks upload.chunks).flatMap (chunkBytes s.disk) =
      (sortChunks upload.chunks).flatMap fun c => receivedBytes (received c) := by
    refine List.flatMap_congr fun c hc => ?_
    have hmem' := (perm_sortChunks upload.chunks).mem_iff.1 hc
    exact chunkBytes_eq (hsource c hmem').2 (hfiles c hmem')
  exact hconcat ▸ hbytes

/-- In every state that a history reaches, the next chunk that completes its upload publishes the bodies that were received. -/
theorem patchUpload_received (hlayout : cfg.storage = .new root) (hsane : s.disk.Sane) (hsessions : s.sessions = .empty)
    (h : History (machine cfg) ok (Server.idle s) past c) (headers : Headers) (body : Body) :
    (patchUpload cfg headers body).run.Calls (exec cfg c.world.next) (CommitsReceived cfg body) (PublishesReceived cfg past body) []
      c.world.store := by
  have hkept := kept_of_history hlayout hsane hsessions h
  have hstart : Orderly cfg c.world.store := by
    have heach : s.sessions.Each fun _ upload => upload.WellFormed cfg.storage := hsessions ▸ SessionState.each_empty _
    exact ⟨hkept.filed.sane, (Uploads.foreseen_of_history heach h).1.1⟩
  have hnone : (records past).during c.world.next (.patch headers body) [] = records past := by
    have hnew : records past c.world.next = [] := h.stands.2 _ (Nat.le_refl _)
    rw [Records.during, List.map_nil, ← hnew, Function.update_eq_self]
  refine Task.Calls.mono (fun _ _ _ => id) (fun own p s' h => ?_) (Task.Calls.obeying
    (I := fun own s' => Orderly cfg s' ∧ Kept cfg.storage ((records past).during c.world.next (.patch headers body) own) s')
    (patchUpload_calls headers body hstart) (patchUpload_obeys hlayout headers body) (fun own r s' hr hmay hI e => ?_)
      ⟨hstart, hnone.symm ▸ hkept⟩)
  · obtain ⟨⟨header, -, hpublishes, -⟩, -, hkept⟩ := h
    exact publishesReceived hkept hpublishes
  · obtain ⟨horderly, hkept⟩ := hI
    refine ⟨⟨(wellFormed_exec horderly.sessions hr.1.keepsWellFormed).2, ?_⟩, horderly.exec hr e, ?_⟩
    · cases r with
      | reserveTemp dir namePrefix extension => exact ⟨_, rfl⟩
      | _ => exact trivial
    · rw [← Records.during_cons]
      exact hkept.call (Records.events_during.symm ▸ hmay) e

end

end Contents

end Almond
