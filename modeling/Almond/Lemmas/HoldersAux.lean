import Almond.Lemmas.CustodyAux
import Almond.Lemmas.TreesAux

/-! # One holder for every chunk file

In every history each chunk file has at most one holder: the request that named it, or the session that it was given to. The names come
from one counter, so a new name has no holder, and every request hands files over as a whole. -/

namespace Almond

open Conc FileStorage Handlers

/-! ## What a commit does to the files of sessions -/

namespace SessionState

/-- Whether the session of a key has a file. -/
def Registers (st : SessionState) (key : ChunkUploadKey) (p : Path) : Prop :=
  ∃ upload, st.uploads.lookup key = some upload ∧ p ∈ upload.paths

/-- The files of sessions that change only at one key. -/
theorem registers_of_update {st st' : SessionState} {key k : ChunkUploadKey} {p : Path} {x : Option ChunkUpload}
    (hs : ∀ k, st'.uploads.lookup k = if k = key then x else st.uploads.lookup k) (h : st'.Registers k p) :
    (k = key ∧ ∃ upload, x = some upload ∧ p ∈ upload.paths) ∨ (k ≠ key ∧ st.Registers k p) := by
  obtain ⟨upload, hu, hp⟩ := h
  rw [hs] at hu
  split at hu
  · exact .inl ⟨‹_›, upload, hu, hp⟩
  · exact .inr ⟨‹_›, upload, hu, hp⟩

/-- The files of a session with one more chunk. -/
theorem paths_received (upload : ChunkUpload) (chunk : ChunkInfo) :
    (received upload chunk).paths = upload.paths ++ [chunk.chunkPath] :=
  List.map_append

/-- Chunks that are apart and inside an upload are together no longer than it. -/
theorem sum_le_of_wellFormed {layout : StorageLayout} {upload : ChunkUpload} (h : upload.WellFormed layout) :
    (upload.chunks.map ChunkInfo.length).sum ≤ upload.uploadLength := by
  have hperm := perm_sortChunks upload.chunks
  have hfits : ∀ c ∈ sortChunks upload.chunks, c.Fits layout upload.uploadLength := fun c hc => h.fits c (hperm.mem_iff.1 hc)
  have hle := (Tiling.contiguous_of_sum (sorted_sortChunks _) ((hperm.pairwise_iff Tiling.Apart.symm).2 h.apart)
    (fun c hc => (hfits c hc).nonempty) (fun c hc => ⟨Nat.zero_le _, (hfits c hc).inside⟩) (Nat.zero_le _)).1
  rw [(hperm.map ChunkInfo.length).sum_eq, Nat.zero_add] at hle
  exact hle

variable {layout : StorageLayout} {st : SessionState} {key : ChunkUploadKey} {params : SessionParams} {chunk : ChunkInfo} {now : Nat}

/-- A first chunk that fits is accepted. -/
theorem accepts_newUpload (now : Nat) (hc : chunk.Fits layout params.uploadLength) (hl : params.uploadLength ≤ u64Max) :
    ∃ total, Accepts (newUpload params now) params chunk total := by
  have hin := hc.inside
  have hle : (([] : List ChunkInfo).map ChunkInfo.length).sum + chunk.length ≤ u64Max := by
    rw [List.map_nil, List.sum_nil]
    omega
  exact ⟨_, rfl, rfl, rfl, newTotal_eq [] hle⟩

/-- An accepted chunk in a file of its own that does not complete its session leaves it with some bytes to receive. -/
theorem partial_received {upload : ChunkUpload} {total : Nat} (hu : upload.WellFormed layout) (hnodup : upload.paths.Nodup)
    (hc : chunk.Fits layout params.uploadLength) (hnew : chunk.chunkPath ∉ upload.paths) (ha : Accepts upload params chunk total)
    (htotal : total ≠ upload.uploadLength) : (received upload chunk).Partial layout := by
  have hwell := wellFormed_received hu hc ha
  refine ⟨hwell, lt_of_le_of_ne (sum_le_of_wellFormed hwell) fun he => htotal ?_, List.append_ne_nil_of_right_ne_nil _ nofun, ?_⟩
  · rw [newTotal_eq_some ha.2.2.2]
    rw [received, List.map_append, List.sum_append, List.map_singleton, List.sum_singleton] at he
    exact he
  · rw [paths_received, ← List.concat_eq_append]
    exact hnodup.concat hnew

/-- The session that a chunk is for is well formed and has no file twice, nor that of the chunk. -/
theorem target_spec (key : ChunkUploadKey) (params : SessionParams) (now : Nat) (h : st.Each fun _ upload => upload.Partial layout) (hl : params.uploadLength ≤ u64Max) :
    (st.target key params now).WellFormed layout ∧ (st.target key params now).paths.Nodup ∧
      ∀ p ∈ (st.target key params now).paths, st.Registers key p := by
  unfold target
  cases hu : st.uploads.lookup key with
  | none => exact ⟨wellFormed_newUpload hl now, .nil, nofun⟩
  | some upload => exact ⟨(h key upload hu).toWellFormed, (h key upload hu).nodup, fun p hp => ⟨upload, hu, hp⟩⟩

/-- A commit is refused and leaves the sessions, appends its chunk, or ends its session with the chunk. -/
theorem commit_moves (now : Nat) (h : st.Each fun _ upload => upload.Partial layout) (hc : chunk.Fits layout params.uploadLength)
    (hl : params.uploadLength ≤ u64Max) (hnew : ¬ st.Registers key chunk.chunkPath) :
    (((st.commit key params chunk now).1 = .paramMismatch ∨ (st.commit key params chunk now).1 = .overlap) ∧
        ∀ k, (st.commit key params chunk now).2.uploads.lookup k = st.uploads.lookup k) ∨
      ((st.commit key params chunk now).1 = .incomplete ∧ ∃ upload, upload.Partial layout ∧
        (∀ p ∈ upload.paths, p = chunk.chunkPath ∨ st.Registers key p) ∧
        ∀ k, (st.commit key params chunk now).2.uploads.lookup k = if k = key then some upload else st.uploads.lookup k) ∨
      ∃ upload, (st.commit key params chunk now).1 = .complete upload ∧ upload.paths.Nodup ∧
        upload.chunks.getLast? = some chunk ∧ (∀ p ∈ upload.paths, p = chunk.chunkPath ∨ st.Registers key p) ∧
        ∀ k, (st.commit key params chunk now).2.uploads.lookup k = if k = key then none else st.uploads.lookup k := by
  obtain ⟨hwell, hnodup, hregistered⟩ := target_spec key params now h hl
  have hfresh : chunk.chunkPath ∉ (st.target key params now).paths := fun hp => hnew (hregistered _ hp)
  have hfiles : ∀ p ∈ (received (st.target key params now) chunk).paths, p = chunk.chunkPath ∨ st.Registers key p := by
    intro p hp
    rw [paths_received] at hp
    exact (List.mem_append.1 hp).symm.imp List.mem_singleton.1 (hregistered p)
  obtain ⟨_, hs⟩ | ⟨_, ⟨hno, ho, hs⟩ | ⟨total, ha, _, ho, hs⟩ | ⟨total, ha, htotal, ho, hs⟩⟩ := st.commit_cases key params chunk now
  · refine .inl ⟨.inl (congrArg Prod.fst hs), fun k => ?_⟩
    rw [hs]
  · -- a session that refuses a chunk was registered before
    have hlookup : st.uploads.lookup key = some (st.target key params now) := by
      unfold target at hno ⊢
      cases hu : st.uploads.lookup key with
      | none =>
        rw [hu] at hno
        obtain ⟨total, ha⟩ := accepts_newUpload now hc hl
        exact absurd ha (hno total)
      | some upload => rfl
    refine .inl ⟨ho, fun k => (hs k).trans ?_⟩
    split
    · rename_i hk
      rw [hk, hlookup]
    · rfl
  · refine .inr (.inr ⟨_, ho, ?_, List.getLast?_concat, hfiles, hs⟩)
    rw [paths_received, ← List.concat_eq_append]
    exact hnodup.concat hfresh
  · exact .inr (.inl ⟨ho, _, partial_received hwell hnodup hc hfresh ha htotal, hfiles, hs⟩)

end SessionState

/-! ## Files that stay -/

/-- A file operation takes a file away only by removing it, a directory, or its name. -/
theorem Disk.hasFile_exec {d : Disk} (env : FsEnv) (now : Nat) (r : FsReq) {p : Path} (h : d.hasFile p = true) :
    (d.exec env now r).2.hasFile p = true ∨ r = .removeFile p ∨ (∃ dir, r = .removeDirAll dir) ∨ ∃ q, r = .rename p q := by
  unfold Disk.exec
  split
  · exact .inl h
  · cases r with
    | createDirAll q =>
      refine .inl ?_
      simp only [perform]
      split <;> exact h
    | removeFile q =>
      by_cases hq : q = p
      · exact .inr (.inl (hq ▸ rfl))
      · refine .inl ?_
        simp only [perform]
        split
        · rw [hasFile, lookup_unlink, if_neg (Ne.symm hq)]
          exact h
        · exact h
    | removeDir q =>
      refine .inl ?_
      simp only [perform]
      split
      · split <;> exact h
      · exact h
    | removeDirAll dir => exact .inr (.inr (.inl ⟨dir, rfl⟩))
    | rename source destination =>
      by_cases hq : source = p
      · exact .inr (.inr (.inr ⟨destination, hq ▸ rfl⟩))
      · refine .inl ?_
        simp only [perform]
        split
        · exact h
        · split
          · exact h
          · split
            · rw [hasFile, lookup_move, if_neg (Ne.symm hq)]
              split
              · rfl
              · exact h
            · exact h
    | createFile q =>
      refine .inl ?_
      simp only [perform]
      split
      · exact h
      · split
        · split
          · exact h
          · by_cases hq : p = q
            · subst hq
              exact congrArg Option.isSome (AList.lookup_insert ..)
            · exact (congrArg Option.isSome (AList.lookup_insert_ne hq)).trans h
        · exact h
    | openFile q =>
      refine .inl ?_
      simp only [perform]
      split <;> exact h
    | metadata q =>
      refine .inl ?_
      simp only [perform]
      split <;> exact h
    | _ => exact .inl h

/-- A file that was created is there. -/
theorem Disk.hasFile_createFile {d : Disk} {env : FsEnv} {now : Nat} {p : Path} {ino : Ino}
    (h : (d.exec env now (.createFile p)).1 = .ok ino) : (d.exec env now (.createFile p)).2.hasFile p = true := by
  unfold Disk.exec at h ⊢
  split at h
  · cases h
  · simp only [perform] at h ⊢
    by_cases hdir : d.dirs.contains p = true
    · rw [if_pos hdir] at h
      cases h
    · rw [if_neg hdir] at h ⊢
      by_cases hparent : d.parentExists p = true
      · rw [if_pos hparent]
        cases hl : d.names.lookup p with
        | some ino' => exact congrArg Option.isSome hl
        | none => exact congrArg Option.isSome (AList.lookup_insert ..)
      · rw [if_neg hparent] at h
        cases h

namespace Custody

section

variable {cfg : Config} {t : Tid} {e : Env} {s : AppState} {r : Req} {op : Op} {past : List (Task.Event Req Resp)} {p : Path}

/-- A request of a chunk takes only a chunk file away that it removes. -/
theorem hasFile_of_may (htemps : ∀ x ∈ s.temps, ¬ ChunkFile cfg.storage x.2) (hp : ChunkFile cfg.storage p)
    (hr : May cfg.storage past r) (h : s.disk.hasFile p = true) :
    (exec cfg t r e s).2.disk.hasFile p = true ∨ r = .fs (.removeFile p) := by
  cases r with
  | fs r =>
    obtain hf | rfl | ⟨dir, rfl⟩ | ⟨q, rfl⟩ := Disk.hasFile_exec e.fs s.clock.system r h
    · exact .inl hf
    · exact .inr rfl
    · exact hr.elim
    · exact absurd hp hr
  | dropTemp q =>
    refine .inl ?_
    simp only [exec]
    split
    · rename_i hmem
      have hq : p ≠ q := fun he => htemps (t, q) (List.contains_iff_mem.1 hmem) (he ▸ hp)
      show ((s.disk.unlink q).names.lookup p).isSome = true
      rw [Disk.lookup_unlink, if_neg hq]
      exact h
    · exact h
  | receiveToken token =>
    refine .inl ?_
    simp only [exec]
    split <;> exact h
  | _ => exact .inl h

/-- An operation on the sessions is that of a chunk, or reserves, releases or evicts. -/
theorem may_of_gives (h : Allowed cfg.storage op past r) (hr : r.gives) : op.isPatch = true ∧ May cfg.storage past r := by
  cases op with
  | patch headers body => exact ⟨rfl, h⟩
  | cleanupAbandonedChunks =>
    cases r with
    | sessions r => cases r <;> first | exact h.1.elim | exact hr.elim
    | _ => exact hr.elim
  | _ =>
    cases r with
    | sessions r => cases r <;> first | exact h.elim | exact hr.elim
    | _ => exact hr.elim

/-- What is allowed keeps the sessions well formed. -/
theorem keepsWellFormed_of_allowed (h : Allowed cfg.storage op past r) : r.KeepsWellFormed cfg.storage := by
  cases r with
  | sessions r =>
    cases r with
    | commit key params chunk => exact (may_of_gives h trivial).2.1
    | restore key upload => exact (may_of_gives h trivial).2.1
    | _ => exact trivial
  | reserveTemp dir namePrefix extension =>
    cases op with
    | cleanupAbandonedChunks => exact h.1
    | _ => exact h
  | _ => exact trivial

/-- Only giving files to a session makes one. -/
theorem lookup_exec (hr : ¬ r.gives) {key : ChunkUploadKey} {upload : ChunkUpload}
    (h : (exec cfg t r e s).2.sessions.uploads.lookup key = some upload) : s.sessions.uploads.lookup key = some upload := by
  cases r with
  | sessions r =>
    cases r with
    | reserve k =>
      simp only [exec, SessionReq.exec] at h
      have hu := s.sessions.reserve_uploads cfg.sessionLimits k
      rcases hres : s.sessions.reserve cfg.sessionLimits k with ⟨_ | _ | _, st⟩ <;> rw [hres] at h hu <;> exact hu ▸ h
    | release k =>
      rw [← s.sessions.consumeReservation_uploads k]
      exact h
    | evictOlderThan age => exact (lookup_retain_eq_some.1 h).1
    | commit k params chunk => exact absurd trivial hr
    | restore k upload => exact absurd trivial hr
  | dropTemp q =>
    simp only [exec] at h
    split at h <;> exact h
  | receiveToken token =>
    simp only [exec] at h
    split at h <;> exact h
  | _ => exact h

/-- The identifiers that were handed out stay so. -/
theorem uuids_exec : s.uuids ≤ (exec cfg t r e s).2.uuids := by
  cases r with
  | uuid => exact Nat.le_succ _
  | reserveTemp dir namePrefix extension => exact Nat.le_succ _
  | dropTemp q =>
    simp only [exec]
    split <;> exact Nat.le_refl _
  | receiveToken token =>
    simp only [exec]
    split <;> exact Nat.le_refl _
  | _ => exact Nat.le_refl _

/-- No temporary blob is in a chunk file. -/
theorem temps_exec (htemps : ∀ x ∈ s.temps, ¬ ChunkFile cfg.storage x.2) (h : Allowed cfg.storage op past r) :
    ∀ x ∈ (exec cfg t r e s).2.temps, ¬ ChunkFile cfg.storage x.2 := by
  cases r with
  | reserveTemp dir namePrefix extension =>
    obtain rfl : dir = cfg.storage.temp := keepsWellFormed_of_allowed h
    intro x hx
    rcases List.mem_cons.1 hx with rfl | hx
    · exact not_chunkFile_temp _ _
    · exact htemps x hx
  | adoptTemp q =>
    cases op with
    | cleanupAbandonedChunks => exact h.1.elim
    | _ => exact h.elim
  | intoPublished q => exact fun x hx => htemps x (List.mem_of_mem_erase hx)
  | dropTemp q =>
    simp only [exec]
    split
    · exact fun x hx => htemps x (List.mem_of_mem_erase hx)
    · exact htemps
  | receiveToken token =>
    simp only [exec]
    split <;> exact htemps
  | _ => exact htemps

/-- The entries stay at places of their hashes. -/
theorem housed_exec {held : List FileLocation} (hr : r.Retires cfg.storage held)
    (hs : ∀ sha256 m, s.index.get sha256 = some m → Housed cfg.storage sha256 m.origin m.location) :
    ∀ sha256 m, (exec cfg t r e s).2.index.get sha256 = some m → Housed cfg.storage sha256 m.origin m.location := by
  intro sha256 m hm
  by_cases hpublish : ∃ key m', r = .index (.publish key m')
  · obtain ⟨key, m', rfl⟩ := hpublish
    obtain ⟨existing, _, _, hx⟩ | ⟨_, hx⟩ := BlobIndex.publish_cases s.index key m'
    · simp only [exec, IndexReq.exec, hx] at hm
      exact hs sha256 m hm
    · simp only [exec, IndexReq.exec, hx] at hm
      by_cases hk : sha256 = key
      · subst hk
        rw [BlobIndex.get_insert_self] at hm
        cases hm
        exact hr
      · rw [BlobIndex.get_insert_of_ne _ _ hk] at hm
        exact hs sha256 m hm
  · exact hs sha256 m (Superseded.get_exec_of_retires hr (fun key m' he => hpublish ⟨key, m', he⟩) hm)

end

/-! ## Holders -/

/-- Who can have a chunk file: a request, or the session of a key. -/
inductive Holder where
  | task (t : Tid)
  | session (key : ChunkUploadKey)

/-- The steps of a server, the latest first. -/
abbrev Past := List (Server × Label Req Resp Str Op Report)

/-- What a task requested in a history, with the responses, the latest first. -/
def events (past : Past) (t : Tid) : List (Task.Event Req Resp) :=
  (Task.record t past).map (·.2)

/-- Whether somebody has a chunk file, or its name. -/
def Has (layout : StorageLayout) (past : Past) (s : AppState) (p : Path) : Holder → Prop
  | .task t => custody layout p (events past t) ≠ .absent
  | .session key => s.sessions.Registers key p

/-- Whether somebody has the chunk file itself. -/
def Holds (layout : StorageLayout) (past : Past) (s : AppState) (p : Path) : Holder → Prop
  | .task t => custody layout p (events past t) = .kept
  | .session key => s.sessions.Registers key p

/-- Whether a step belongs to an operation that is no chunk. -/
def aside : Label Req Resp Str Op Report → Bool
  | .called _ op _ _ => !op.isPatch
  | _ => false

/-- Whether a step of an operation that is no chunk took a file away. -/
def removedAside (p : Path) : Past → AppState → Bool
  | [], _ => false
  | (d, l) :: past, s => removedAside p past d.world.store || (aside l && d.world.store.disk.hasFile p && !s.disk.hasFile p)

/-- Every session is partial. Every chunk file has at most one holder and an identifier that was handed out, and is there unless an
operation took it away that is no chunk. The answers so far rely on that. -/
structure Guarded (layout : StorageLayout) (past : Past) (s : AppState) : Prop where
  answered : ∀ t, ∀ e ∈ events past t, Answers layout e.1 e.2
  housed : ∀ sha256 m, s.index.get sha256 = some m → Housed layout sha256 m.origin m.location
  temps : ∀ x ∈ s.temps, ¬ ChunkFile layout x.2
  sessions : s.sessions.Each fun _ upload => upload.Partial layout
  named : ∀ p h, Has layout past s p h → ∃ uuid < s.uuids, names layout uuid p = true
  unique : ∀ p h h', Has layout past s p h → Has layout past s p h' → h = h'
  stored : ∀ p h, Holds layout past s p h → s.disk.hasFile p = true ∨ removedAside p past s = true

section

variable {layout : StorageLayout} {past past' : Past} {s s' : AppState} {p : Path} {h : Holder}

/-- Who has a file has its name. -/
theorem Holds.has (hh : Holds layout past s p h) : Has layout past s p h := by
  cases h with
  | task t =>
    intro ha
    nomatch hh.symm.trans ha
  | session key => exact hh

/-- What a step does with the holders: some files have one holder afterwards, and the others have the holders that they had. -/
structure Moves (layout : StorageLayout) (past past' : Past) (s s' : AppState) (moved : Path → Prop) (holder : Holder) :
    Prop where
  has : ∀ p h, Has layout past' s' p h → (moved p ∧ h = holder) ∨ (¬ moved p ∧ Has layout past s p h)
  named : ∀ p, moved p → ∃ uuid < s'.uuids, names layout uuid p = true
  holds : ∀ p h, Holds layout past' s' p h → (∃ h₀, Holds layout past s p h₀) ∨ s'.disk.hasFile p = true
  uuids : s.uuids ≤ s'.uuids

variable {moved : Path → Prop} {holder : Holder}

/-- After a step every chunk file has at most one holder. -/
theorem Moves.unique (hm : Moves layout past past' s s' moved holder) (hg : Guarded layout past s) {h' : Holder}
    (hh : Has layout past' s' p h) (hh' : Has layout past' s' p h') : h = h' := by
  rcases hm.has p h hh with ⟨hp, rfl⟩ | ⟨hp, hold⟩ <;> rcases hm.has p h' hh' with ⟨hp', rfl⟩ | ⟨hp', hold'⟩
  · rfl
  · exact absurd hp hp'
  · exact absurd hp' hp
  · exact hg.unique p h h' hold hold'

/-- After a step every chunk file has an identifier that was handed out. -/
theorem Moves.names (hm : Moves layout past past' s s' moved holder) (hg : Guarded layout past s) (hh : Has layout past' s' p h) :
    ∃ uuid < s'.uuids, Almond.names layout uuid p = true := by
  rcases hm.has p h hh with ⟨hp, -⟩ | ⟨-, hold⟩
  · exact hm.named p hp
  · obtain ⟨uuid, hlt, hname⟩ := hg.named p h hold
    exact ⟨uuid, Nat.lt_of_lt_of_le hlt hm.uuids, hname⟩

end

section

variable {layout : StorageLayout} {past : Past} {c : Server} {t : Tid} {op : Op} {r : Req} {x : Resp r}

/-- A request of a task extends what it requested. -/
theorem events_self : events ((c, .called t op r x) :: past) t = ⟨r, x⟩ :: events past t := by
  have h : Task.record t ((c, Label.called t op r x) :: past) = (op, ⟨r, x⟩) :: Task.record t past :=
    List.filterMap_cons_some (if_pos rfl)
  rw [events, h]
  rfl

/-- A request of a task leaves what another one requested. -/
theorem events_of_ne {t' : Tid} (h : t' ≠ t) : events ((c, .called t op r x) :: past) t' = events past t' := by
  have h' : Task.record t' ((c, Label.called t op r x) :: past) = Task.record t' past :=
    List.filterMap_cons_none (if_neg (Ne.symm h))
  rw [events, h', events]

variable {s s' : AppState} {p : Path}

/-- What a task has after a request. -/
theorem has_self : Has layout ((c, .called t op r x) :: past) s' p (.task t) ↔
    (custody layout p (events past t)).next layout p r x ≠ .absent := by
  rw [Has, events_self]
  exact Iff.rfl

/-- What a task keeps after a request. -/
theorem holds_self : Holds layout ((c, .called t op r x) :: past) s' p (.task t) ↔
    (custody layout p (events past t)).next layout p r x = .kept := by
  rw [Holds, events_self]
  exact Iff.rfl

/-- What another task has after a request. -/
theorem has_of_ne {t' : Tid} (h : t' ≠ t) :
    Has layout ((c, .called t op r x) :: past) s' p (.task t') ↔ Has layout past s p (.task t') := by
  rw [Has, events_of_ne h]
  exact Iff.rfl

/-- What another task keeps after a request. -/
theorem holds_of_ne {t' : Tid} (h : t' ≠ t) :
    Holds layout ((c, .called t op r x) :: past) s' p (.task t') ↔ Holds layout past s p (.task t') := by
  rw [Holds, events_of_ne h]
  exact Iff.rfl

/-- What a request does with the holders, from what it does with what its task has and with the sessions. -/
theorem moves_of_call {moved : Path → Prop} {holder : Holder}
    (hself : ∀ p, (custody layout p (events past t)).next layout p r x ≠ .absent →
      (moved p ∧ holder = .task t) ∨ (¬ moved p ∧ custody layout p (events past t) ≠ .absent))
    (hother : ∀ p t', t' ≠ t → Has layout past s p (.task t') → ¬ moved p)
    (hsession : ∀ p key, s'.sessions.Registers key p → (moved p ∧ holder = .session key) ∨ (¬ moved p ∧ s.sessions.Registers key p))
    (hnamed : ∀ p, moved p → ∃ uuid < s'.uuids, names layout uuid p = true)
    (hkept : ∀ p, (custody layout p (events past t)).next layout p r x = .kept →
      (∃ h, Holds layout past s p h) ∨ s'.disk.hasFile p = true)
    (hregistered : ∀ p key, s'.sessions.Registers key p → ∃ h, Holds layout past s p h) (huuids : s.uuids ≤ s'.uuids) :
    Moves layout past ((c, .called t op r x) :: past) s s' moved holder where
  has p h hh := by
    cases h with
    | task t' =>
      by_cases ht : t' = t
      · subst ht
        exact (hself p (has_self.1 hh)).imp_left fun h => ⟨h.1, h.2.symm⟩
      · have hold : Has layout past s p (.task t') := (has_of_ne ht).1 hh
        exact .inr ⟨hother p t' ht hold, hold⟩
    | session key => exact (hsession p key hh).imp_left fun h => ⟨h.1, h.2.symm⟩
  named := hnamed
  holds p h hh := by
    cases h with
    | task t' =>
      by_cases ht : t' = t
      · subst ht
        exact hkept p (holds_self.1 hh)
      · exact .inl ⟨_, (holds_of_ne ht).1 hh⟩
    | session key => exact .inl (hregistered p key hh)
  uuids := huuids

/-- A request that hands no file over. -/
theorem moves_of_stays (hnext : ∀ p q, Custody.next layout p q r x ≠ .absent → q ≠ .absent)
    (hkept : ∀ p q, Custody.next layout p q r x = .kept → q = .kept ∨ s'.disk.hasFile p = true)
    (hsessions : ∀ p key, s'.sessions.Registers key p → s.sessions.Registers key p) (huuids : s.uuids ≤ s'.uuids) :
    Moves layout past ((c, .called t op r x) :: past) s s' (fun _ => False) (.task t) :=
  moves_of_call (fun p h => .inr ⟨id, hnext p _ h⟩) (fun _ _ _ _ => id) (fun p key h => .inr ⟨id, hsessions p key h⟩) (fun _ => False.elim)
    (fun p h => (hkept p _ h).imp_left fun hk => ⟨.task t, hk⟩) (fun p key h => ⟨.session key, hsessions p key h⟩) huuids

end

section

variable {cfg : Config} {past : Past} {c : Server} {t : Tid} {op : Op} {e : Env} {s : AppState}

/-- A new identifier names files that nobody has. -/
theorem moves_uuid (hg : Guarded cfg.storage past s) :
    Moves cfg.storage past ((c, .called t op .uuid (exec cfg t .uuid e s).1) :: past) s (exec cfg t .uuid e s).2
      (fun p => names cfg.storage s.uuids p = true) (.task t) := by
  have hfree : ∀ {p h}, Has cfg.storage past s p h → ¬ names cfg.storage s.uuids p = true := by
    intro p h hh hname
    obtain ⟨uuid, hlt, hname'⟩ := hg.named p h hh
    exact Nat.ne_of_lt hlt (names_unique hname' hname)
  refine moves_of_call (fun p h => ?_) (fun p t' _ => hfree) (fun p key h => ?_) (fun p hp => ⟨s.uuids, Nat.lt_succ_self _, hp⟩)
    (fun p h => ?_) (fun p key h => ⟨.session key, h⟩) (Nat.le_succ _)
  · by_cases hname : names cfg.storage s.uuids p = true
    · exact .inl ⟨hname, rfl⟩
    · exact .inr ⟨hname, fun ha => h ((if_neg hname).trans ha)⟩
  · have hold : Has cfg.storage past s p (.session key) := h
    exact .inr ⟨hfree hold, h⟩
  · by_cases hname : names cfg.storage s.uuids p = true
    · exact nomatch (if_pos hname).symm.trans h
    · exact .inl ⟨.task t, (if_neg hname).symm.trans h⟩

/-- A request that works on files hands none over. -/
theorem moves_fs {r : FsReq} : Moves cfg.storage past ((c, .called t op (.fs r) (exec cfg t (.fs r) e s).1) :: past) s
    (exec cfg t (.fs r) e s).2 (fun _ => False) (.task t) := by
  refine moves_of_stays (fun p q => ?_) (fun p q => ?_) (fun _ _ => id) (Nat.le_refl _)
  · cases r with
    | createFile p' =>
      generalize (exec cfg t (.fs (.createFile p')) e s).1 = x
      cases x with
      | ok ino =>
        simp only [next]
        split
        · rename_i h
          rw [h.2]
          rintro _ ⟨⟩
        · exact id
      | error error => exact id
    | removeFile p' =>
      simp only [next]
      split
      · rename_i h
        rw [h.2]
        rintro _ ⟨⟩
      · exact id
    | _ => exact id
  · cases r with
    | createFile p' =>
      generalize hx : (exec cfg t (.fs (.createFile p')) e s).1 = x
      cases x with
      | ok ino =>
        simp only [next]
        split
        · rename_i h
          intro _
          obtain ⟨rfl, _⟩ := h
          exact .inr (Disk.hasFile_createFile hx)
        · exact .inl
      | error error => exact .inl
    | removeFile p' =>
      simp only [next]
      split
      · exact fun h => by cases h
      · exact .inl
    | _ => exact .inl

/-- A file that a request keeps is in no session. -/
theorem not_registers_of_kept (hg : Guarded cfg.storage past s) {p : Path} (hkept : custody cfg.storage p (events past t) = .kept)
    (key : ChunkUploadKey) : ¬ s.sessions.Registers key p := by
  intro hk
  have hholds : Holds cfg.storage past s p (.task t) := hkept
  have hh : Has cfg.storage past s p (.session key) := hk
  nomatch hg.unique p _ _ hh hholds.has

/-- A commit gives its file to the session, or takes the files of the session over. -/
theorem exists_moves_commit (hg : Guarded cfg.storage past s) {key : ChunkUploadKey} {params : SessionParams} {chunk : ChunkInfo}
    (hmay : May cfg.storage (events past t) (.sessions (.commit key params chunk))) :
    ∃ moved holder, Moves cfg.storage past ((c, .called t op (.sessions (.commit key params chunk))
      (exec cfg t (.sessions (.commit key params chunk)) e s).1) :: past) s (exec cfg t (.sessions (.commit key params chunk)) e s).2
      moved holder := by
  obtain ⟨⟨hfits, hl⟩, hkept⟩ := hmay
  have hholds : Holds cfg.storage past s chunk.chunkPath (.task t) := hkept
  have hfree : ∀ {h}, Has cfg.storage past s chunk.chunkPath h → h = .task t := fun hh => hg.unique _ _ _ hh hholds.has
  have hnew := not_registers_of_kept hg hkept
  have hnamed : ∀ {p h}, Has cfg.storage past s p h → ∃ uuid < s.uuids, names cfg.storage uuid p = true := fun hh => hg.named _ _ hh
  generalize hx : (exec cfg t (.sessions (.commit key params chunk)) e s).1 = x
  have hcommit : (s.sessions.commit key params chunk s.clock.instant).1 = x := hx
  obtain ⟨ho, hs⟩ | ⟨ho, upload, -, hpaths, hs⟩ | ⟨upload, ho, -, -, hpaths, hs⟩ :=
    SessionState.commit_moves s.clock.instant hg.sessions hfits hl (hnew key)
  · have hstay : ∀ p q, Custody.next cfg.storage p q (.sessions (.commit key params chunk)) x = q := by
      intro p q
      rw [hcommit] at ho
      rcases ho with rfl | rfl <;> rfl
    refine ⟨_, _, moves_of_stays (fun p q h => hstay p q ▸ h) (fun p q h => .inl (hstay p q ▸ h)) (fun p k hk => ?_) (Nat.le_refl _)⟩
    obtain ⟨upload, hu, hp⟩ := hk
    exact ⟨upload, (hs k).symm.trans hu, hp⟩
  · cases hcommit.symm.trans ho
    have hregisters : ∀ p k, (s.sessions.commit key params chunk s.clock.instant).2.Registers k p →
        (p = chunk.chunkPath ∧ k = key) ∨ (p ≠ chunk.chunkPath ∧ s.sessions.Registers k p) := by
      intro p k hk
      have hne : s.sessions.Registers k p → p ≠ chunk.chunkPath := fun hr he => hnew k (he ▸ hr)
      rcases SessionState.registers_of_update hs hk with ⟨rfl, _, ⟨⟩, hp⟩ | ⟨_, hr⟩
      · exact (hpaths p hp).imp (⟨·, rfl⟩) fun hr => ⟨hne hr, hr⟩
      · exact .inr ⟨hne hr, hr⟩
    refine ⟨fun p => p = chunk.chunkPath, .session key, moves_of_call (fun p h => ?_) (fun p t' ht hh he => ?_) (fun p k hk => ?_)
      (fun p hp => hp ▸ hnamed hholds.has) (fun p h => ?_) (fun p k hk => ?_) (Nat.le_refl _)⟩
    · by_cases hp : chunk.chunkPath = p
      · exact absurd (if_pos hp) h
      · exact .inr ⟨Ne.symm hp, fun ha => h ((if_neg hp).trans ha)⟩
    · cases hfree (he ▸ hh)
      exact ht rfl
    · rcases hregisters p k hk with ⟨hp, rfl⟩ | hold
      · exact .inl ⟨hp, rfl⟩
      · exact .inr hold
    · by_cases hp : chunk.chunkPath = p
      · exact nomatch (if_pos hp).symm.trans h
      · exact .inl ⟨.task t, (if_neg hp).symm.trans h⟩
    · rcases hregisters p k hk with ⟨rfl, _⟩ | ⟨_, hr⟩
      · exact ⟨_, hholds⟩
      · exact ⟨.session k, hr⟩
  · cases hcommit.symm.trans ho
    have hgiven : ∀ p ∈ upload.paths, ∃ h, Holds cfg.storage past s p h ∧ (h = .task t ∨ h = .session key) := by
      intro p hp
      rcases hpaths p hp with rfl | hr
      · exact ⟨_, hholds, .inl rfl⟩
      · exact ⟨.session key, hr, .inr rfl⟩
    have hregisters : ∀ p k, (s.sessions.commit key params chunk s.clock.instant).2.Registers k p →
        p ∉ upload.paths ∧ s.sessions.Registers k p := by
      intro p k hk
      rcases SessionState.registers_of_update hs hk with ⟨_, _, ⟨⟩, _⟩ | ⟨hne, hr⟩
      refine ⟨fun hp => ?_, hr⟩
      obtain ⟨h, hh, heq⟩ := hgiven p hp
      have hk' : Has cfg.storage past s p (.session k) := hr
      rcases heq with rfl | rfl
      · nomatch hg.unique p _ _ hh.has hk'
      · cases hg.unique p _ _ hh.has hk'
        exact hne rfl
    refine ⟨fun p => p ∈ upload.paths, .task t, moves_of_call (fun p h => ?_) (fun p t' ht hh hp => ?_) (fun p k hk => ?_)
      (fun p hp => ?_) (fun p h => ?_) (fun p k hk => ?_) (Nat.le_refl _)⟩
    · by_cases hp : p ∈ upload.paths
      · exact .inl ⟨hp, rfl⟩
      · exact .inr ⟨hp, fun ha => h ((if_neg hp).trans ha)⟩
    · obtain ⟨h, hh', heq⟩ := hgiven p hp
      have he := hg.unique p _ _ hh'.has hh
      rcases heq with rfl | rfl
      · cases he
        exact ht rfl
      · nomatch he
    · exact .inr (hregisters p k hk)
    · obtain ⟨h, hh, -⟩ := hgiven p hp
      exact hnamed hh.has
    · by_cases hp : p ∈ upload.paths
      · obtain ⟨h, hh, -⟩ := hgiven p hp
        exact .inl ⟨h, hh⟩
      · exact .inl ⟨.task t, (if_neg hp).symm.trans h⟩
    · exact ⟨.session k, (hregisters p k hk).2⟩

/-- A restore gives the files of a completed upload back to a session. -/
theorem exists_moves_restore (hg : Guarded cfg.storage past s) {key : ChunkUploadKey} {upload : ChunkUpload}
    (hmay : May cfg.storage (events past t) (.sessions (.restore key upload))) :
    ∃ moved holder, Moves cfg.storage past ((c, .called t op (.sessions (.restore key upload))
      (exec cfg t (.sessions (.restore key upload)) e s).1) :: past) s (exec cfg t (.sessions (.restore key upload)) e s).2
      moved holder := by
  obtain ⟨-, -, -, hkept⟩ := hmay
  have hholds : ∀ p ∈ upload.paths, Holds cfg.storage past s p (.task t) := hkept
  have hfree : ∀ {p h}, p ∈ upload.paths → Has cfg.storage past s p h → h = .task t :=
    fun hp hh => hg.unique _ _ _ hh (hholds _ hp).has
  generalize hx : (exec cfg t (.sessions (.restore key upload)) e s).1 = x
  have hrestored : (s.sessions.restore key upload).1 = x := hx
  obtain hr | ⟨-, -, hr⟩ := s.sessions.restore_cases key upload
  · have hsessions : (exec cfg t (.sessions (.restore key upload)) e s).2.sessions = s.sessions := congrArg Prod.snd hr
    rw [hr] at hrestored
    subst hrestored
    exact ⟨_, _, moves_of_stays (fun p q h => h) (fun p q h => .inl h) (fun p k hk => hsessions ▸ hk) (Nat.le_refl _)⟩
  · have hsessions : (exec cfg t (.sessions (.restore key upload)) e s).2.sessions =
        { s.sessions with uploads := s.sessions.uploads.insert key upload } := congrArg Prod.snd hr
    rw [hr] at hrestored
    subst hrestored
    have hregisters : ∀ p k, (exec cfg t (.sessions (.restore key upload)) e s).2.sessions.Registers k p →
        (p ∈ upload.paths ∧ k = key) ∨ (p ∉ upload.paths ∧ s.sessions.Registers k p) := by
      intro p k hk
      rw [hsessions] at hk
      have hlookup : ∀ k', (s.sessions.uploads.insert key upload).lookup k' = if k' = key then some upload else s.sessions.uploads.lookup k' := by
        intro k'
        split
        · rename_i he
          rw [he]
          exact AList.lookup_insert ..
        · exact AList.lookup_insert_ne ‹_›
      rcases SessionState.registers_of_update hlookup hk with ⟨rfl, _, ⟨⟩, hp⟩ | ⟨_, hr⟩
      · exact .inl ⟨hp, rfl⟩
      · refine .inr ⟨fun hp => ?_, hr⟩
        have hh : Has cfg.storage past s p (.session k) := hr
        nomatch hfree hp hh
    refine ⟨fun p => p ∈ upload.paths, .session key, moves_of_call (fun p h => ?_) (fun p t' ht hh hp => ?_) (fun p k hk => ?_)
      (fun p hp => hg.named _ _ (hholds p hp).has) (fun p h => ?_) (fun p k hk => ?_) (Nat.le_refl _)⟩
    · by_cases hp : p ∈ upload.paths
      · exact absurd (if_pos hp) h
      · exact .inr ⟨hp, fun ha => h ((if_neg hp).trans ha)⟩
    · cases hfree hp hh
      exact ht rfl
    · rcases hregisters p k hk with ⟨hp, rfl⟩ | hold
      · exact .inl ⟨hp, rfl⟩
      · exact .inr hold
    · by_cases hp : p ∈ upload.paths
      · exact nomatch (if_pos hp).symm.trans h
      · exact .inl ⟨.task t, (if_neg hp).symm.trans h⟩
    · rcases hregisters p k hk with ⟨hp, _⟩ | ⟨_, hr⟩
      · exact ⟨_, hholds p hp⟩
      · exact ⟨.session k, hr⟩

/-- What a request that is allowed does with the holders. -/
theorem exists_moves (hg : Guarded cfg.storage past s) {r : Req} (hallowed : Allowed cfg.storage op (events past t) r) :
    ∃ moved holder, Moves cfg.storage past ((c, .called t op r (exec cfg t r e s).1) :: past) s (exec cfg t r e s).2 moved holder := by
  have hstays : ¬ r.gives → (∀ p q, Custody.next cfg.storage p q r (exec cfg t r e s).1 = q) → ∃ moved holder,
      Moves cfg.storage past ((c, .called t op r (exec cfg t r e s).1) :: past) s (exec cfg t r e s).2 moved holder := by
    intro hr hnext
    refine ⟨_, _, moves_of_stays (fun p q h => hnext p q ▸ h) (fun p q h => .inl (hnext p q ▸ h)) (fun p k hk => ?_) uuids_exec⟩
    obtain ⟨upload, hu, hp⟩ := hk
    exact ⟨upload, lookup_exec hr hu, hp⟩
  cases r with
  | fs r => exact ⟨_, _, moves_fs⟩
  | uuid => exact ⟨_, _, moves_uuid hg⟩
  | sessions r =>
    cases r with
    | commit key params chunk => exact exists_moves_commit hg (may_of_gives hallowed trivial).2
    | restore key upload => exact exists_moves_restore hg (may_of_gives hallowed trivial).2
    | _ => exact hstays id fun _ _ => rfl
  | _ => exact hstays id fun _ _ => rfl

/-- The answers are as the requests rely on them. -/
theorem answers_exec {root : Path} (hlayout : cfg.storage = .new root) (hg : Guarded cfg.storage past s) {r : Req}
    (hallowed : Allowed cfg.storage op (events past t) r) : Answers cfg.storage r (exec cfg t r e s).1 := by
  refine ⟨(wellFormed_exec (fun k u hu => (hg.sessions k u hu).toWellFormed) (keepsWellFormed_of_allowed hallowed)).2, ?_⟩
  cases r with
  | reserveTemp dir namePrefix extension => exact ⟨_, rfl⟩
  | index r =>
    cases r with
    | publish sha256 m =>
      obtain ⟨existing, _, _, hx⟩ | ⟨_, hx⟩ := BlobIndex.publish_cases s.index sha256 m
      · have hretained : (exec cfg t (.index (.publish sha256 m)) e s).1 = .retained existing := congrArg Prod.fst hx
        rw [hretained]
        exact trivial
      · have hpublished : (exec cfg t (.index (.publish sha256 m)) e s).1 = .published (s.index.get sha256) := congrArg Prod.fst hx
        rw [hpublished]
        cases hd : s.index.get sha256 with
        | none => exact trivial
        | some displaced => exact fun p => housed_ne_chunkFile hlayout (hg.housed sha256 displaced hd)
    | _ => exact trivial
  | sessions r =>
    cases r with
    | commit key params chunk =>
      obtain ⟨⟨hfits, hl⟩, hkept⟩ := (may_of_gives hallowed trivial).2
      generalize hx : (exec cfg t (.sessions (.commit key params chunk)) e s).1 = x
      have hcommit : (s.sessions.commit key params chunk s.clock.instant).1 = x := hx
      cases x with
      | complete upload =>
        obtain ⟨ho, -⟩ | ⟨ho, -⟩ | ⟨upload', ho, hnodup, hlast, -⟩ :=
          SessionState.commit_moves s.clock.instant hg.sessions hfits hl (not_registers_of_kept hg hkept key)
        · rw [hcommit] at ho
          exact ho.elim nofun nofun
        · nomatch hcommit.symm.trans ho
        · cases hcommit.symm.trans ho
          exact ⟨hnodup, hlast⟩
      | _ => exact trivial
    | _ => exact trivial
  | _ => exact trivial

/-- Whether a step restores no upload without its only chunk, unless its key is in use again. -/
def restoresSome (s : AppState) : Label Req Resp Str Op Report → Bool
  | .called _ _ (.sessions (.restore key upload)) _ => s.sessions.hasUpload key || s.sessions.hasPending key || !upload.chunks.isEmpty
  | _ => true

/-- The sessions stay partial. -/
theorem partial_exec (hg : Guarded cfg.storage past s) {r : Req} (hallowed : Allowed cfg.storage op (events past t) r)
    (hsome : restoresSome s (.called t op r (exec cfg t r e s).1) = true) :
    (exec cfg t r e s).2.sessions.Each fun _ upload => upload.Partial cfg.storage := by
  by_cases hr : r.gives
  · obtain ⟨-, hmay⟩ := may_of_gives hallowed hr
    cases r with
    | sessions r =>
      cases r with
      | commit key params chunk =>
        obtain ⟨⟨hfits, hl⟩, hkept⟩ := hmay
        obtain ⟨-, hs⟩ | ⟨-, upload, hu, -, hs⟩ | ⟨upload, -, -, -, -, hs⟩ :=
          SessionState.commit_moves s.clock.instant hg.sessions hfits hl (not_registers_of_kept hg hkept key)
        · exact fun k upload hk => hg.sessions k upload ((hs k).symm.trans hk)
        · refine hg.sessions.of_update (some upload) hs fun upload' he => ?_
          cases he
          exact hu
        · exact hg.sessions.of_update none hs nofun
      | restore key upload =>
        obtain ⟨hwell, hlacks, hnodup, -⟩ := hmay
        obtain hr | ⟨hupload, hpending, -⟩ := s.sessions.restore_cases key upload
        · have hsessions : (exec cfg t (.sessions (.restore key upload)) e s).2.sessions = s.sessions := congrArg Prod.snd hr
          rw [hsessions]
          exact hg.sessions
        · refine SessionState.Each.restore hg.sessions ⟨hwell, hlacks, fun hnil => ?_, hnodup⟩
          simp only [restoresSome, hupload, hpending, hnil] at hsome
          nomatch hsome
      | _ => exact hr.elim
    | _ => exact hr.elim
  · exact fun k upload hu => hg.sessions k upload (lookup_exec hr hu)

/-- What a request leaves in its place, or somebody takes away who handles no chunk. -/
theorem stored_exec (hg : Guarded cfg.storage past c.world.store) {r : Req} (hallowed : Allowed cfg.storage op (events past t) r) {p : Path}
    {h : Holder} (hh : Holds cfg.storage ((c, .called t op r (exec cfg t r e c.world.store).1) :: past)
      (exec cfg t r e c.world.store).2 p h) :
    (exec cfg t r e c.world.store).2.disk.hasFile p = true ∨
      removedAside p ((c, .called t op r (exec cfg t r e c.world.store).1) :: past) (exec cfg t r e c.world.store).2 = true := by
  obtain ⟨moved, holder, hm⟩ := exists_moves hg hallowed
  rcases hm.holds p h hh with ⟨h₀, hold⟩ | hfile
  · rcases hg.stored p h₀ hold with hfile | hremoved
    · cases hf : (exec cfg t r e c.world.store).2.disk.hasFile p with
      | true => exact .inl rfl
      | false =>
        refine .inr ?_
        cases hpatch : op.isPatch with
        | false => simp only [removedAside, aside, hpatch, hfile, hf, Bool.not_false, Bool.and_self, Bool.or_true]
        | true =>
          -- a chunk removes only a file that it has, and has only the name afterwards
          have hmay : May cfg.storage (events past t) r := by
            cases op with
            | patch headers body => exact hallowed
            | _ => cases hpatch
          obtain ⟨uuid, -, hname⟩ := hg.named p h₀ hold.has
          rcases hasFile_of_may hg.temps (chunkFile_of_names hname) hmay hfile with hfile' | rfl
          · cases hf.symm.trans hfile'
          · have hself : Has cfg.storage past c.world.store p (.task t) := hmay (chunkFile_of_names hname)
            rcases moves_fs.has p h hh.has with ⟨hno, -⟩ | ⟨-, hhas⟩
            · exact hno.elim
            · cases hg.unique p _ _ hhas hself
              have hkept := holds_self.1 hh
              simp only [next, true_and] at hkept
              split at hkept
              · cases hkept
              · exact absurd hkept ‹_›
    · refine .inr ?_
      simp only [removedAside, hremoved, Bool.true_or]
  · exact .inl hfile

/-- A request that is allowed keeps the holders apart, when it restores no upload without its only chunk. -/
theorem Guarded.call {root : Path} (hlayout : cfg.storage = .new root) (hg : Guarded cfg.storage past c.world.store) {r : Req}
    {held : List FileLocation} (hretires : r.Retires cfg.storage held) (hallowed : Allowed cfg.storage op (events past t) r)
    (hsome : restoresSome c.world.store (.called t op r (exec cfg t r e c.world.store).1) = true) :
    Guarded cfg.storage ((c, .called t op r (exec cfg t r e c.world.store).1) :: past) (exec cfg t r e c.world.store).2 := by
  obtain ⟨moved, holder, hm⟩ := exists_moves hg hallowed
  refine ⟨fun t' event he => ?_, housed_exec hretires hg.housed, temps_exec hg.temps hallowed, partial_exec hg hallowed hsome,
    fun p h hh => hm.names hg hh, fun p h h' hh hh' => hm.unique hg hh hh', fun p h hh => stored_exec hg hallowed hh⟩
  by_cases ht : t' = t
  · subst ht
    rw [events_self] at he
    rcases List.mem_cons.1 he with rfl | he
    · exact answers_exec hlayout hg hallowed
    · exact hg.answered t' event he
  · rw [events_of_ne ht] at he
    exact hg.answered t' event he

/-- A step at which no task requests anything keeps the holders apart, when it leaves the sessions, the entries and the chunk files. -/
theorem Guarded.still (hg : Guarded cfg.storage past c.world.store) {l : Label Req Resp Str Op Report}
    (hevents : ∀ t, events ((c, l) :: past) t = events past t) {s' : AppState} (hsessions : s'.sessions = c.world.store.sessions)
    (hindex : s'.index = c.world.store.index) (htemps : ∀ x ∈ s'.temps, x ∈ c.world.store.temps) (huuids : s'.uuids = c.world.store.uuids)
    (hdisk : ∀ p, ChunkFile cfg.storage p → c.world.store.disk.hasFile p = true → s'.disk.hasFile p = true) :
    Guarded cfg.storage ((c, l) :: past) s' := by
  have hhas : ∀ {p h}, Has cfg.storage ((c, l) :: past) s' p h → Has cfg.storage past c.world.store p h := by
    intro p h hh
    cases h with
    | task t =>
      rw [Has, hevents] at hh
      exact hh
    | session key =>
      rw [Has, hsessions] at hh
      exact hh
  refine ⟨fun t event he => hg.answered t event (hevents t ▸ he), fun sha256 m hm => hg.housed sha256 m (hindex ▸ hm),
    fun x hx => hg.temps x (htemps x hx), hsessions ▸ hg.sessions, fun p h hh => huuids ▸ hg.named p h (hhas hh),
    fun p h h' hh hh' => hg.unique p h h' (hhas hh) (hhas hh'), fun p h hh => ?_⟩
  have hold : Holds cfg.storage past c.world.store p h := by
    cases h with
    | task t =>
      rw [Holds, hevents] at hh
      exact hh
    | session key =>
      rw [Holds, hsessions] at hh
      exact hh
  obtain ⟨uuid, -, hname⟩ := hg.named p h hold.has
  refine (hg.stored p h hold).imp (hdisk p (chunkFile_of_names hname)) fun hremoved => ?_
  simp only [removedAside, hremoved, Bool.true_or]

/-- A dropped task takes no chunk file away. -/
theorem Guarded.drop (hg : Guarded cfg.storage past c.world.store) :
    Guarded cfg.storage ((c, .dropped t op) :: past) (discard t c.world.store) := by
  refine hg.still (fun _ => rfl) rfl rfl (fun x hx => (List.mem_filter.1 hx).1) rfl fun p hp hfile => ?_
  rcases Disk.lookup_unlinks c.world.store.disk (c.world.store.temps.filter (·.1 = t)) p with hsame | ⟨x, hx, rfl⟩
  · exact (congrArg Option.isSome hsame).trans hfile
  · exact absurd hp (hg.temps x (List.mem_filter.1 hx).1)

end

end Custody

end Almond
