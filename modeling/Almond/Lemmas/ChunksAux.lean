import Almond.Data.Tiling
import Almond.Handlers
import Almond.Lemmas.SessionsAux

/-! # The chunks of a session

What the header checks let through stays within the upload, and a registry that rejects overlaps keeps the chunks of each session
apart. A session whose lengths add up is therefore tiled by its chunks. -/

namespace Almond

open Tiling Handlers

/-- A path below the temporary directory. -/
def Scratch (layout : StorageLayout) (p : Path) : Prop :=
  ∃ name rest, p = layout.temp ++ name :: rest

/-- A path directly below the directory of the chunk files. -/
def ChunkFile (layout : StorageLayout) (p : Path) : Prop :=
  ∃ name, p = chunksDir layout ++ [name]

/-- A chunk file is a scratch file. -/
theorem ChunkFile.scratch {layout : StorageLayout} {p : Path} (h : ChunkFile layout p) : Scratch layout p := by
  obtain ⟨name, rfl⟩ := h
  exact ⟨"chunks".toList, [name], List.append_assoc ..⟩

/-- A chunk as the header checks let it through: some bytes of the upload, in a chunk file. -/
structure ChunkInfo.Fits (layout : StorageLayout) (uploadLength : Nat) (chunk : ChunkInfo) : Prop where
  file : ChunkFile layout chunk.chunkPath
  nonempty : 0 < chunk.length
  inside : chunk.offset + chunk.length ≤ uploadLength

/-- Two chunks share no byte. -/
abbrev ChunkInfo.Apart : ChunkInfo → ChunkInfo → Prop :=
  Tiling.Apart ChunkInfo.offset ChunkInfo.length

/-- A session as it is kept: its chunks fit and share no byte. -/
structure ChunkUpload.WellFormed (layout : StorageLayout) (upload : ChunkUpload) : Prop where
  length_le : upload.uploadLength ≤ u64Max
  fits : ∀ chunk ∈ upload.chunks, chunk.Fits layout upload.uploadLength
  apart : upload.chunks.Pairwise ChunkInfo.Apart

/-- A session without its last chunk is well formed. -/
theorem ChunkUpload.WellFormed.dropLast {layout : StorageLayout} {upload : ChunkUpload} (h : upload.WellFormed layout) :
    ({ upload with chunks := upload.chunks.dropLast } : ChunkUpload).WellFormed layout :=
  ⟨h.length_le, fun c hc => h.fits c (List.dropLast_subset _ hc), h.apart.sublist (List.dropLast_sublist _)⟩

/-- A session that is complete: its chunks are as long together as the upload. -/
structure ChunkUpload.Completed (layout : StorageLayout) (upload : ChunkUpload) : Prop extends upload.WellFormed layout where
  sum_eq : (upload.chunks.map ChunkInfo.length).sum = upload.uploadLength

namespace SessionState

/-- The total counts every chunk. -/
theorem newTotal_eq_some {chunks : List ChunkInfo} {chunk : ChunkInfo} {total : Nat} (h : newTotal chunks chunk = some total) :
    total = (chunks.map ChunkInfo.length).sum + chunk.length := by
  have hfold : ∀ (chunks : List ChunkInfo) (start sum : Nat),
      chunks.foldlM (fun total existing => checkedAdd total existing.length) start = some sum →
      sum = start + (chunks.map ChunkInfo.length).sum := by
    intro chunks
    induction chunks with
    | nil =>
      rintro start sum ⟨⟩
      rfl
    | cons c chunks ih =>
      intro start sum hf
      rw [List.foldlM_cons] at hf
      obtain ⟨next, hn, hf⟩ := Option.bind_eq_some_iff.1 hf
      rw [ih next sum hf, (checkedAdd_eq_some.1 hn).1, List.map_cons, List.sum_cons, Nat.add_assoc]
  obtain ⟨sum, hs, ht⟩ := Option.bind_eq_some_iff.1 h
  rw [(checkedAdd_eq_some.1 ht).1, hfold chunks 0 sum hs, Nat.zero_add]

/-- How many bytes the session of a key has received. -/
def receivedLength (st : SessionState) (key : ChunkUploadKey) : Nat :=
  ((st.uploads.lookup key).map fun upload => (upload.chunks.map ChunkInfo.length).sum).getD 0

/-- A commit completes an upload when it brings the received bytes to its length. -/
theorem receivedLength_of_complete {st : SessionState} {key : ChunkUploadKey} {params : SessionParams} {chunk : ChunkInfo}
    {now : Nat} {upload : ChunkUpload} (h : (st.commit key params chunk now).1 = .complete upload) :
    st.receivedLength key + chunk.length = params.uploadLength ∧ upload.uploadLength = params.uploadLength := by
  obtain ⟨_, hc⟩ | ⟨_, ⟨_, ho, _⟩ | ⟨total, ha, ht, ho, _⟩ | ⟨_, _, _, ho, _⟩⟩ := st.commit_cases key params chunk now
  · rw [hc] at h
    nomatch h
  · rw [h] at ho
    exact ho.elim nofun nofun
  · cases ho.symm.trans h
    obtain ⟨_, hl, _, hn⟩ := ha
    have htotal := newTotal_eq_some hn
    refine ⟨?_, hl⟩
    have hsum : st.receivedLength key = ((st.target key params now).chunks.map ChunkInfo.length).sum := by
      unfold receivedLength target
      cases st.uploads.lookup key with
      | none => rfl
      | some upload => rfl
    rw [hsum, ← htotal, ht, hl]
  · rw [ho] at h
    nomatch h

/-- Chunks that fit and do not overlap are apart. -/
theorem apart_of_not_overlaps {layout : StorageLayout} {n : Nat} {chunk existing : ChunkInfo} (hn : n ≤ u64Max)
    (hc : chunk.Fits layout n) (he : existing.Fits layout n) (h : overlaps chunk existing = false) :
    existing.Apart chunk := by
  have hin := hc.inside
  have hin' := he.inside
  rw [overlaps, saturatingAdd_eq (by omega), saturatingAdd_eq (by omega), Bool.and_eq_false_iff, decide_eq_false_iff_not,
    decide_eq_false_iff_not] at h
  unfold ChunkInfo.Apart Tiling.Apart
  omega

/-- A new session is well formed. -/
theorem wellFormed_newUpload {layout : StorageLayout} {params : SessionParams} (h : params.uploadLength ≤ u64Max) (now : Nat) :
    (newUpload params now).WellFormed layout :=
  ⟨h, nofun, .nil⟩

/-- An accepted chunk keeps a session well formed. -/
theorem wellFormed_received {layout : StorageLayout} {upload : ChunkUpload} {params : SessionParams} {chunk : ChunkInfo}
    {total : Nat} (hu : upload.WellFormed layout) (hc : chunk.Fits layout params.uploadLength)
    (ha : Accepts upload params chunk total) : (received upload chunk).WellFormed layout := by
  obtain ⟨_, hl, ho, _⟩ := ha
  rw [← hl] at hc
  refine ⟨hu.length_le, fun c hm => ?_, List.pairwise_append.2 ⟨hu.apart, List.pairwise_singleton .., fun c hm d hd => ?_⟩⟩
  · rcases List.mem_append.1 hm with hm | hm
    · exact hu.fits c hm
    · exact List.mem_singleton.1 hm ▸ hc
  · rw [List.mem_singleton.1 hd]
    have hno : overlaps chunk c = false := by simpa using List.any_eq_false.1 ho c hm
    exact apart_of_not_overlaps hu.length_le hc (hu.fits c hm) hno

/-- A commit keeps the sessions well formed, and a session it completes is complete. -/
theorem wellFormed_commit {layout : StorageLayout} {st : SessionState} (h : st.Each fun _ upload => upload.WellFormed layout)
    (key : ChunkUploadKey) {params : SessionParams} {chunk : ChunkInfo} (now : Nat)
    (hc : chunk.Fits layout params.uploadLength) (hl : params.uploadLength ≤ u64Max) :
    (st.commit key params chunk now).2.Each (fun _ upload => upload.WellFormed layout) ∧
      ∀ upload, (st.commit key params chunk now).1 = .complete upload →
        upload.Completed layout ∧ upload.uploadLength = params.uploadLength := by
  obtain ⟨hs, hcomp⟩ := h.commit key chunk (wellFormed_newUpload hl now)
    fun upload total hu ha => wellFormed_received hu hc ha
  refine ⟨hs, fun upload he => ?_⟩
  obtain ⟨base, hbase, ha, rfl⟩ := hcomp upload he
  refine ⟨⟨wellFormed_received hbase hc ha, ?_⟩, ha.2.1⟩
  rw [received, List.map_append, List.sum_append, List.map_singleton, List.sum_singleton]
  exact (newTotal_eq_some ha.2.2.2).symm

end SessionState

/-! ## Reconstruction -/

/-- Sorting only reorders. -/
theorem perm_sortChunks (chunks : List ChunkInfo) : (sortChunks chunks).Perm chunks :=
  List.perm_insertionSort ..

/-- The sorted chunks start in order. -/
theorem sorted_sortChunks (chunks : List ChunkInfo) : (sortChunks chunks).Pairwise fun a b => a.offset ≤ b.offset :=
  List.pairwise_insertionSort ..

namespace ChunkUpload.Completed

variable {layout : StorageLayout} {upload : ChunkUpload}

end ChunkUpload.Completed

end Almond
