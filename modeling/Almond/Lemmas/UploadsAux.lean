import Almond.Lemmas.HandlersAux
import Almond.Lemmas.MaintenanceAux
import Almond.Registry

/-! # Chunked uploads over whole runs

In every run of the server the sessions stay well formed, and the chunks of a partition complete their session with the last of
them. -/

namespace Almond

open Conc Tiling Handlers

/-! ## The sessions of a running server -/

namespace Uploads

/-- The discipline of all tasks: they keep the sessions well formed. -/
def discipline (cfg : Config) : Discipline Req Str AppState Op where
  inv w := w.store.sessions.Each fun _ upload => upload.WellFormed cfg.storage
  rely _ _ _ := True
  assume _ _ _ _ := True
  allow _ _ _ r := r.KeepsWellFormed cfg.storage
  ops _ := True
  drops _ _ _ := True
  crashes := True

variable {cfg : Config} {t : Tid} {op : Op} {w : World Str AppState} {α : Type}

/-- A task that does not reach the registry. -/
theorem wp_issues {P : Req → Prop} {p : Async α} (hp : p.Issues P) (hP : ∀ r, P r → ¬ r.registers) :
    wp (machine cfg) (discipline cfg) t op p (fun _ _ => True) w :=
  Task.Issues.wp (F := fun _ => True) hp (fun _ _ _ _ => id)
    (fun _ r hr _ _ _ => keepsWellFormed_of_not_registers (hP r hr)) (fun _ _ _ _ _ => trivial) trivial

/-- A task that is put together from what receives, and from parts that do not reach the registry. -/
theorem wp_built {γ : Type} {S : Async γ → Prop} {R : α → Prop} {p : Async α}
    (hp : p.Built (Req.Foresees cfg.storage) (Req.Receives cfg.storage) S R)
    (hS : ∀ s, S s → s.Issues fun r => ¬ r.registers) :
    wp (machine cfg) (discipline cfg) t op p (fun _ _ => True) w := by
  induction hp generalizing w with
  | ret _ => exact trivial
  | @call r k hr _ ih => exact fun w' _ hi _ => ⟨hr.keepsWellFormed, fun e _ => ih _ (wellFormed_exec hi hr.keepsWellFormed).2⟩
  | @sub s f hs _ ih => exact (wp_bind ..).2 (wp_mono (fun x w' _ => ih x) (wp_issues (hS s hs) fun _ => id))

/-- Every program of the server. -/
theorem wp_program (op : Op) : wp (machine cfg) (discipline cfg) t op (program cfg op) (fun _ _ => True) w := by
  have hpublish : ∀ (target : Str → Prop) s, PublishesBlob cfg target s → s.Issues fun r => ¬ r.registers := by
    rintro target _ ⟨temp, publication, _, _, rfl⟩
    exact (FileStorage.publishBlob_issues cfg temp publication).mono fun _ h => h.2
  cases hm : op.maintains with
  | true => exact wp_issues (program_maintains hm) fun _ => Req.Maintains.not_registers
  | false =>
    rcases Op.cases_of_not_maintains hm with hg | hu | rfl
    · obtain ⟨headers, head, filename, rfl⟩ := exists_get_of_isGet hg
      refine wp_built ((program_discovers headers head filename).widen fun _ => Req.Prepares.receives) ?_
      rintro _ ⟨sha256, _, m, _, rfl⟩
      exact (FileStorage.publishExistingMetadata_issues cfg sha256 m).mono fun _ h => h.2
    · exact wp_built (program_receives hu) (hpublish _)
    · exact wp_built (p := program cfg .cleanupAbandonedChunks)
        (R := fun _ => True) (cleanupAbandonedChunks_settles.receives.bind fun _ _ => .ret trivial) (hpublish fun _ => False)

/-- The server keeps the discipline. -/
theorem fits (cfg : Config) : Fits (machine cfg) (discipline cfg) fun _ _ _ _ => True where
  rely_refl _ _ := trivial
  rely_trans _ _ _ _ _ _ := trivial
  post_stable _ _ _ _ _ _ _ _ := trivial
  call _ _ _ _ _ hi _ _ hal := ⟨(wellFormed_exec hi hal).1, fun _ _ => trivial⟩
  take _ _ _ hi _ _ := ⟨hi, fun _ _ => trivial⟩
  give _ _ _ hi _ _ := ⟨hi, fun _ _ => trivial⟩
  drop _ _ _ hi _ := ⟨hi, fun _ _ => trivial⟩
  tick _ _ hi := ⟨hi, fun _ => trivial⟩
  spawn _ op hi _ _ := ⟨hi, fun _ _ => trivial, wp_traced (wp_program op)⟩
  crash _ _ _ := ⟨SessionState.each_empty _, wp_traced (wp_program .boot)⟩

/-- In every history from well formed sessions, the answers are foreseen. -/
theorem foreseen_of_history {ok : List (Server × Label Req Resp Str Op Report) → Server → Label Req Resp Str Op Report → Prop}
    {s : AppState} {past : List (Server × Label Req Resp Str Op Report)} {c : Server}
    (hs : s.sessions.Each fun _ upload => upload.WellFormed cfg.storage) (h : History (machine cfg) ok (Server.idle s) past c) :
    Sound (machine cfg) (discipline cfg) (fun _ _ _ _ => True) c ∧
      ∀ t, ∀ e ∈ Task.record t past, Req.Foresees cfg.storage e.2.1 e.2.2 := by
  induction h with
  | start => exact ⟨sound_empty hs, fun _ _ he => nomatch he⟩
  | @step past c l c' _ _ hstep ih =>
    obtain ⟨hsound, hforeseen⟩ := ih
    have hok : (discipline cfg).ok c l := by cases l <;> exact trivial
    refine ⟨hsound.step (fits cfg) hok hstep, fun t e he => ?_⟩
    cases hstep with
    | @call t' op r k env ht =>
      have hallow := hsound.allow (fits cfg) trivial (Step.call env ht)
      by_cases hself : t' = t
      · rw [show Task.record t ((c, Label.called t' op r _) :: past) = (op, ⟨r, _⟩) :: Task.record t past from
          List.filterMap_cons_some (if_pos hself)] at he
        rcases List.mem_cons.1 he with rfl | he
        · exact (wellFormed_exec hsound.1 hallow).2
        · exact hforeseen t e he
      · rw [show Task.record t ((c, Label.called t' op r _) :: past) = Task.record t past from
          List.filterMap_cons_none (if_neg hself)] at he
        exact hforeseen t e he
    | _ => exact hforeseen t e he

end Uploads

/-! ## The run of one session -/

/-- The session of an upload that has received some chunks. -/
def sessionOf (params : SessionParams) (since : Nat) (chunks : List ChunkInfo) : ChunkUpload where
  sha256 := params.sha256
  owner := params.owner
  uploadType := params.uploadType
  uploadLength := params.uploadLength
  chunks := chunks
  createdAt := since
  expiration := params.expiration

/-- Chunks that divide an upload: none is empty, and in some order they follow each other. -/
structure Partition (chunks : List ChunkInfo) (n : Nat) : Prop where
  nonempty : ∀ chunk ∈ chunks, 0 < chunk.length
  ordered : ∃ ordered : List ChunkInfo, ordered.Perm chunks ∧ Contiguous ChunkInfo.offset ChunkInfo.length 0 ordered n

namespace Partition

variable {chunks : List ChunkInfo} {n : Nat}

/-- The chunks of a partition are as long together as the upload. -/
theorem sum_eq (h : Partition chunks n) : (chunks.map ChunkInfo.length).sum = n := by
  obtain ⟨ordered, hp, hc⟩ := h.ordered
  have := hc.add_sum
  rw [← (hp.map ChunkInfo.length).sum_eq]
  omega

/-- The chunks of a partition share no byte. -/
theorem pairwise_apart (h : Partition chunks n) : chunks.Pairwise ChunkInfo.Apart := by
  obtain ⟨ordered, hp, hc⟩ := h.ordered
  exact (hp.pairwise_iff Apart.symm).1 hc.pairwise_apart

/-- The chunks of a partition lie within the upload. -/
theorem inside (h : Partition chunks n) {chunk : ChunkInfo} (hm : chunk ∈ chunks) : chunk.offset + chunk.length ≤ n := by
  obtain ⟨ordered, hp, hc⟩ := h.ordered
  exact (hc.bounds (hp.mem_iff.2 hm)).2

end Partition

namespace SessionState

/-- The total of chunks that fit together. -/
theorem newTotal_eq (chunks : List ChunkInfo) {chunk : ChunkInfo}
    (h : (chunks.map ChunkInfo.length).sum + chunk.length ≤ u64Max) :
    newTotal chunks chunk = some ((chunks.map ChunkInfo.length).sum + chunk.length) := by
  have hfold : ∀ (chunks : List ChunkInfo) (start : Nat), start + (chunks.map ChunkInfo.length).sum ≤ u64Max →
      chunks.foldlM (fun total existing => checkedAdd total existing.length) start =
        some (start + (chunks.map ChunkInfo.length).sum) := by
    intro chunks
    induction chunks with
    | nil => exact fun _ _ => rfl
    | cons c chunks ih =>
      intro start hle
      rw [List.map_cons, List.sum_cons, ← Nat.add_assoc] at hle
      rw [List.foldlM_cons, checkedAdd_eq_some.2 ⟨rfl, by omega⟩, List.map_cons, List.sum_cons, ← Nat.add_assoc]
      exact ih _ hle
  rw [newTotal, hfold chunks 0 (by omega), Nat.zero_add]
  exact checkedAdd_eq_some.2 ⟨rfl, h⟩

/-- Chunks that are apart do not overlap. -/
theorem not_overlaps_of_apart {chunk existing : ChunkInfo} {n : Nat} (hn : n ≤ u64Max) (hc : chunk.offset + chunk.length ≤ n)
    (he : existing.offset + existing.length ≤ n) (h : existing.Apart chunk) : overlaps chunk existing = false := by
  unfold ChunkInfo.Apart Tiling.Apart at h
  rw [overlaps, saturatingAdd_eq (by omega), saturatingAdd_eq (by omega), Bool.and_eq_false_iff, decide_eq_false_iff_not,
    decide_eq_false_iff_not]
  omega

/-- A session that has received some of the chunks of a partition accepts the next one. -/
theorem accepts_of_partition (params : SessionParams) (now : Nat) {received rest : List ChunkInfo} {chunk : ChunkInfo} {n : Nat}
    (hp : Partition (received ++ chunk :: rest) n) (hn : n ≤ u64Max) :
    Accepts (sessionOf params now received) params chunk
      ((received.map ChunkInfo.length).sum + chunk.length) := by
  have hsum := hp.sum_eq
  rw [List.map_append, List.sum_append, List.map_cons, List.sum_cons] at hsum
  refine ⟨rfl, rfl, List.any_eq_false.2 fun existing hm => ?_, newTotal_eq received (by omega)⟩
  have hapart : existing.Apart chunk := (List.pairwise_append.1 hp.pairwise_apart).2.2 existing hm chunk List.mem_cons_self
  rw [not_overlaps_of_apart hn (hp.inside (List.mem_append_right _ List.mem_cons_self))
    (hp.inside (List.mem_append_left _ hm)) hapart]
  exact Bool.false_ne_true

/-- What the next chunk of a partition does to a session that has received some of the others. -/
theorem commit_of_partition {st : SessionState} {key : ChunkUploadKey} {params : SessionParams} {received rest : List ChunkInfo}
    {chunk : ChunkInfo} {since now n : Nat} (htarget : st.target key params now = sessionOf params since received)
    (hp : Partition (received ++ chunk :: rest) n) (hn : n ≤ u64Max) (hlength : params.uploadLength = n)
    (hpending : st.hasPending key = true) :
    (rest = [] ∧ (st.commit key params chunk now).1 =
      .complete (sessionOf params since (received ++ [chunk]))) ∨
    (rest ≠ [] ∧ (st.commit key params chunk now).1 = .incomplete ∧
      (st.commit key params chunk now).2.uploads.lookup key =
        some (sessionOf params since (received ++ [chunk]))) := by
  have haccept := accepts_of_partition params since hp hn
  have hsum := hp.sum_eq
  rw [List.map_append, List.sum_append, List.map_cons, List.sum_cons] at hsum
  obtain ⟨hno, _⟩ | ⟨_, ⟨hno, _⟩ | ⟨total, ha, htot, ho, hs⟩ | ⟨total, ha, htot, ho, hs⟩⟩ :=
    st.commit_cases key params chunk now
  · exact absurd (hno.symm.trans hpending) nofun
  · rw [htarget] at hno
    exact absurd haccept (hno _)
  all_goals
    rw [htarget] at ha htot
    have hnew : total = (received.map ChunkInfo.length).sum + chunk.length :=
      Option.some.inj (ha.2.2.2.symm.trans haccept.2.2.2)
    rw [show (sessionOf params since received).uploadLength = n from hlength] at htot
  · rw [htarget] at ho
    refine .inl ⟨?_, ho⟩
    cases rest with
    | nil => rfl
    | cons c rest =>
      have := hp.nonempty c (by simp)
      rw [List.map_cons, List.sum_cons] at hsum
      omega
  · refine .inr ⟨?_, ho, ?_⟩
    · rintro rfl
      rw [List.map_nil, List.sum_nil] at hsum
      omega
    · rw [hs key, if_pos rfl, htarget]
      rfl

end SessionState

namespace Registry

variable {limits : SessionLimits} {key : ChunkUploadKey} {params : SessionParams} {g g' : Registry}

/-- An operation that spares a session leaves it. -/
theorem lookup_exec_of_spares {t : Tid} {now : Nat} {r : SessionReq} (h : Spares key r) :
    (g.exec limits t now r).state.uploads.lookup key = g.state.uploads.lookup key := by
  cases r with
  | reserve k =>
    have hu := g.state.reserve_uploads limits k
    simp only [exec, SessionReq.exec]
    rcases hres : g.state.reserve limits k with ⟨_ | _ | _, st⟩ <;> rw [hres] at hu <;> exact congrArg _ hu
  | release k => exact congrArg _ (g.state.consumeReservation_uploads k)
  | commit k ps chunk =>
    have hk : key ≠ k := Ne.symm h
    show (g.state.commit k ps chunk now).2.uploads.lookup key = _
    obtain ⟨_, hc⟩ | ⟨_, ⟨_, _, hs⟩ | ⟨_, _, _, _, hs⟩ | ⟨_, _, _, _, hs⟩⟩ := g.state.commit_cases k ps chunk now
    · rw [hc]
    all_goals rw [hs, if_neg hk]
  | restore k upload =>
    have hk : key ≠ k := Ne.symm h
    rcases g.state.restore_cases k upload with hr | ⟨_, _, hr⟩ <;> simp only [exec, SessionReq.exec, hr]
    exact AList.lookup_insert_ne hk
  | evictOlderThan age => exact h.elim

/-- The session of a key after some of the chunks of a partition were received, and before the last of them. -/
theorem Receives.lookup {received rest : List ChunkInfo} {n : Nat} (h : Receives limits key params g received g')
    (hfresh : g.state.uploads.lookup key = none) (hp : Partition (received ++ rest) n) (hn : n ≤ u64Max)
    (hlength : params.uploadLength = n) (hrest : rest ≠ []) :
    (received = [] ∧ g'.state.uploads.lookup key = none) ∨
      ∃ since, g'.state.uploads.lookup key = some (sessionOf params since received) := by
  induction h generalizing rest with
  | refl => exact .inl ⟨rfl, hfresh⟩
  | @chunk g' received h t now chunk hr ih =>
    rw [List.append_assoc] at hp
    have htarget : ∃ since, g'.state.target key params now = sessionOf params since received := by
      rcases ih hp (List.cons_ne_nil _ _) with ⟨rfl, hl⟩ | ⟨since, hl⟩
      · exact ⟨now, by rw [SessionState.target, hl]; rfl⟩
      · exact ⟨since, by rw [SessionState.target, hl]; rfl⟩
    obtain ⟨since, htarget⟩ := htarget
    rcases SessionState.commit_of_partition htarget hp hn hlength hr with ⟨hnil, _⟩ | ⟨_, _, hl⟩
    · exact absurd hnil hrest
    · exact .inr ⟨since, hl⟩
  | @other g' received h t now r hs ih =>
    rw [lookup_exec_of_spares hs]
    exact ih hp hrest

/-- The chunks of a partition complete their session exactly with the last of them. -/
theorem Receives.commit {received rest : List ChunkInfo} {chunk : ChunkInfo} {n : Nat}
    (h : Receives limits key params g received g') (hfresh : g.state.uploads.lookup key = none)
    (hp : Partition (received ++ chunk :: rest) n) (hn : n ≤ u64Max) (hlength : params.uploadLength = n)
    (hpending : g'.state.hasPending key = true) (now : Nat) :
    (rest ≠ [] ∧ (g'.state.commit key params chunk now).1 = .incomplete) ∨
      (rest = [] ∧ ∃ since, (g'.state.commit key params chunk now).1 =
        .complete (sessionOf params since (received ++ [chunk]))) := by
  have htarget : ∃ since, g'.state.target key params now = sessionOf params since received := by
    rcases h.lookup hfresh hp hn hlength (List.cons_ne_nil _ _) with ⟨rfl, hl⟩ | ⟨since, hl⟩
    · exact ⟨now, by rw [SessionState.target, hl]; rfl⟩
    · exact ⟨since, by rw [SessionState.target, hl]; rfl⟩
  obtain ⟨since, htarget⟩ := htarget
  rcases SessionState.commit_of_partition htarget hp hn hlength hpending with ⟨hnil, hc⟩ | ⟨hne, hc, _⟩
  · exact .inr ⟨hnil, since, hc⟩
  · exact .inl ⟨hne, hc⟩

end Registry

end Almond
