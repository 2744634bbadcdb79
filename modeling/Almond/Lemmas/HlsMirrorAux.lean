import Almond.HlsMirror

/-! # What a round of a mirror queues -/

namespace Almond.Hls

open Conc

variable {references nextRound : List HlsReference} {seen : Finset Str} {h : Str}

/-- The hashes of references. -/
def hashes (references : List HlsReference) : List Str :=
  references.map HlsReference.sha256

@[simp] theorem hashes_nil : hashes [] = [] :=
  rfl

@[simp] theorem hashes_cons (r : HlsReference) (references : List HlsReference) : hashes (r :: references) = r.sha256 :: hashes references :=
  rfl

@[simp] theorem hashes_append (a b : List HlsReference) : hashes (a ++ b) = hashes a ++ hashes b :=
  List.map_append

/-- What was queued after a set of hashes was seen: no hash twice, and none that was seen. -/
structure Queued (seen : Finset Str) (nextRound : List HlsReference) (seen' : Finset Str) : Prop where
  nodup : (hashes nextRound).Nodup
  fresh : ∀ h ∈ hashes nextRound, h ∉ seen
  seen : ∀ h, h ∈ seen' ↔ h ∈ seen ∨ h ∈ hashes nextRound

namespace Queued

variable {seen' : Finset Str}

/-- Nothing was queued yet. -/
theorem nil (seen : Finset Str) : Queued seen [] seen where
  nodup := List.nodup_nil
  fresh := nofun
  seen h := by simp

/-- One more reference is queued, whose hash was not seen. -/
theorem snoc (hq : Queued seen nextRound seen') {r : HlsReference} (hr : r.sha256 ∉ seen') :
    Queued seen (nextRound ++ [r]) (insert r.sha256 seen') := by
  have hnot := mt (hq.seen r.sha256).2 hr
  rw [not_or] at hnot
  refine ⟨?_, fun h hh => ?_, fun h => ?_⟩
  · rw [hashes_append, List.nodup_append]
    refine ⟨hq.nodup, List.nodup_singleton _, ?_⟩
    rintro a ha b hb rfl
    exact hnot.2 (List.mem_singleton.1 hb ▸ ha)
  · rw [hashes_append, List.mem_append] at hh
    rcases hh with hh | hh
    · exact hq.fresh h hh
    · exact List.mem_singleton.1 hh ▸ hnot.1
  · rw [Finset.mem_insert, hq.seen, hashes_append, List.mem_append, hashes_cons, hashes_nil, List.mem_singleton]
    tauto

end Queued

/-- The first references are those whose hashes were not seen. -/
theorem retainUnseen_spec (references : List HlsReference) (seen : Finset Str) :
    Queued seen (retainUnseen references seen).1 (retainUnseen references seen).2 ∧
      ∀ r ∈ references, r.sha256 ∈ (retainUnseen references seen).2 := by
  induction references generalizing seen with
  | nil => exact ⟨.nil seen, nofun⟩
  | cons r references ih =>
    rw [retainUnseen]
    split
    · rename_i hr
      obtain ⟨hq, hall⟩ := ih seen
      exact ⟨hq, List.forall_mem_cons.2 ⟨(hq.seen _).2 (.inl hr), hall⟩⟩
    · rename_i hr
      obtain ⟨hq, hall⟩ := ih (insert r.sha256 seen)
      refine ⟨⟨?_, ?_, fun h => ?_⟩, List.forall_mem_cons.2 ⟨(hq.seen _).2 (.inl (Finset.mem_insert_self ..)), hall⟩⟩
      · exact List.nodup_cons.2 ⟨fun hm => hq.fresh _ hm (Finset.mem_insert_self ..), hq.nodup⟩
      · exact List.forall_mem_cons.2 ⟨hr, fun h hh => fun hs => hq.fresh h hh (Finset.mem_insert_of_mem hs)⟩
      · rw [hq.seen, Finset.mem_insert, hashes_cons, List.mem_cons]
        tauto

/-- Queueing the references of a playlist keeps what was queued. -/
theorem queueChildren_queued {start : Finset Str} (children : List HlsReference) {queue : List HlsReference × Finset Str}
    (hq : Queued start queue.1 queue.2) :
    Queued start (queueChildren children queue).1 (queueChildren children queue).2 := by
  induction children generalizing queue with
  | nil => exact hq
  | cons child children ih =>
    obtain ⟨nextRound, seen⟩ := queue
    rw [queueChildren]
    split
    · exact hq
    · split
      · exact ih hq
      · rename_i hnew
        exact ih (hq.snoc hnew)

/-- Queueing after a round keeps what was queued. -/
theorem queueResults_queued {start : Finset Str} (children : Str → List HlsReference)
    (results : List (HlsReference × Except String Bool)) (queue : List HlsReference × Finset Str) (hq : Queued start queue.1 queue.2) :
    Queued start (queueResults children results queue).1 (queueResults children results queue).2 := by
  induction results generalizing queue with
  | nil => exact hq
  | cons x results ih =>
    obtain ⟨r, _ | b⟩ := x
    · exact ih queue hq
    · rw [queueResults]
      split
      · exact ih _ (queueChildren_queued _ hq)
      · exact ih queue hq

/-- What a round queues for the next one, and the hashes that were seen. -/
def afterRound (isWord : Char → Bool) (env : RoundEnv) (allReferences : List HlsReference) (seen : Finset Str) :
    List HlsReference × Finset Str :=
  queueResults (collectPlaylistReferences isWord env.text) (env.results (allReferences.take maxReferencesPerRound)) ([], seen)

/-- A round queues what was not seen. -/
theorem afterRound_queued (isWord : Char → Bool) (env : RoundEnv) (allReferences : List HlsReference) (seen : Finset Str) :
    Queued seen (afterRound isWord env allReferences seen).1 (afterRound isWord env allReferences seen).2 :=
  queueResults_queued _ _ ([], seen) (.nil seen)

/-- A round and those after it. -/
theorem mirrorRounds_succ (isWord : Char → Bool) (left : Nat) (env : Nat → RoundEnv) (allReferences : List HlsReference) (seen : Finset Str) :
    mirrorRounds isWord (left + 1) env allReferences seen =
      if allReferences = [] ∨ seen.card > maxReferencesTotal then []
      else allReferences.take maxReferencesPerRound :: mirrorRounds isWord left (fun n => env (n + 1))
        (afterRound isWord (env 0) allReferences seen).1 (afterRound isWord (env 0) allReferences seen).2 :=
  rfl

/-- The attempts of a mirror: few rounds, each of few references, and no hash twice. -/
theorem mirrorRounds_bounded (isWord : Char → Bool) (left : Nat) (env : Nat → RoundEnv) {allReferences : List HlsReference}
    {seen : Finset Str} (hnodup : (hashes allReferences).Nodup) (hseen : ∀ h ∈ hashes allReferences, h ∈ seen) :
    (mirrorRounds isWord left env allReferences seen).length ≤ left ∧
      (∀ attempted ∈ mirrorRounds isWord left env allReferences seen, attempted.length ≤ maxReferencesPerRound) ∧
      (hashes (mirrorRounds isWord left env allReferences seen).flatten).Nodup ∧
      ∀ h ∈ hashes (mirrorRounds isWord left env allReferences seen).flatten, h ∈ hashes allReferences ∨ h ∉ seen := by
  induction left generalizing env allReferences seen with
  | zero => simp [mirrorRounds]
  | succ left ih =>
    rw [mirrorRounds_succ]
    split
    · simp
    · have hq := afterRound_queued isWord (env 0) allReferences seen
      generalize afterRound isWord (env 0) allReferences seen = queue at hq ⊢
      obtain ⟨hlength, hround, hnodup', hmem⟩ := ih (fun n => env (n + 1)) hq.nodup fun h hh => (hq.seen h).2 (.inr hh)
      have hsub : ∀ h ∈ hashes (allReferences.take maxReferencesPerRound), h ∈ hashes allReferences := fun h hh =>
        (List.Sublist.map _ (List.take_sublist ..)).subset hh
      -- What is attempted later was not seen before this round.
      have hlater : ∀ h ∈ hashes (mirrorRounds isWord left (fun n => env (n + 1)) queue.1 queue.2).flatten, h ∉ seen := by
        intro h hh
        rcases hmem h hh with hh | hh
        · exact hq.fresh h hh
        · exact fun hs => hh ((hq.seen h).2 (.inl hs))
      simp only [List.length_cons, List.flatten_cons, hashes_append, List.mem_append, List.forall_mem_cons]
      refine ⟨Nat.succ_le_succ hlength, ⟨List.length_take_le .., hround⟩, List.nodup_append.2 ⟨?_, hnodup', ?_⟩, ?_⟩
      · exact hnodup.sublist (List.Sublist.map _ (List.take_sublist ..))
      · rintro a ha b hb rfl
        exact hlater a hb (hseen a (hsub a ha))
      · rintro h (hh | hh)
        · exact .inl (hsub h hh)
        · exact .inr (hlater h hh)

end Almond.Hls
