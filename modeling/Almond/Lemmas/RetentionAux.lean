import Almond.Data.Sorting
import Almond.Lemmas.MaintenanceAux
import Almond.Lemmas.ReconstructionAux
import Almond.Retention
import Mathlib.Algebra.Order.BigOperators.Group.List
import Mathlib.Algebra.Order.Group.Nat

/-! # Retention, step by step -/

namespace Almond

open Conc

/-! ## Entries of the index -/

namespace BlobIndex

variable {i : BlobIndex} {sha256 : Str} {m : FileMetadata}

/-- A listing shows the entries. -/
theorem mem_snapshot : (sha256, m) ∈ i.snapshot ↔ i.get sha256 = some m := by
  rw [snapshot, List.mem_map]
  constructor
  · rintro ⟨e, he, heq⟩
    obtain ⟨rfl, rfl⟩ := Prod.mk.inj heq
    exact AList.mem_lookup_iff.2 he
  · intro h
    exact ⟨⟨sha256, m⟩, AList.mem_lookup_iff.1 h, rfl⟩

/-- A listing shows each hash once. -/
theorem nodup_keys_snapshot (i : BlobIndex) : (i.snapshot.map Prod.fst).Nodup := by
  have h : i.snapshot.map Prod.fst = i.map.entries.keys := by
    rw [snapshot, List.map_map]
    rfl
  rw [h]
  exact i.map.nodupKeys

/-- Erasing a key of a list leaves the others in their order. -/
theorem kerase_eq_filter {l : List (Sigma fun _ : Str => FileMetadata)} (hl : l.NodupKeys) (k : Str) :
    l.kerase k = l.filter fun e => e.1 ≠ k := by
  induction l with
  | nil => rfl
  | cons e l ih =>
    obtain ⟨hne, hl⟩ := List.nodupKeys_cons.1 hl
    by_cases h : k = e.1
    · rw [List.kerase_cons_eq h, List.filter_cons_of_neg (by simp [h])]
      refine (List.filter_eq_self.2 fun e' he' => ?_).symm
      have : e'.1 ≠ e.1 := fun heq => hne (heq ▸ List.mem_keys_of_mem he')
      simp [h, this]
    · rw [List.kerase_cons_ne h, ih hl, List.filter_cons_of_pos (by simp [Ne.symm h])]

/-- A removal takes the entry of its hash out of the listing. -/
theorem snapshot_remove (i : BlobIndex) (sha256 : Str) :
    (i.remove sha256).1.snapshot = i.snapshot.filter fun e => e.1 ≠ sha256 := by
  unfold remove
  cases hg : i.get sha256 with
  | none =>
    refine (List.filter_eq_self.2 fun e he => ?_).symm
    have : e.1 ≠ sha256 := by
      rintro rfl
      exact nomatch hg.symm.trans (mem_snapshot.1 he)
    simp [this]
  | some removed =>
    show ((i.map.erase sha256).entries.map fun e => (e.1, e.2)) = _
    have h : (i.map.erase sha256).entries = i.map.entries.filter fun e => e.1 ≠ sha256 := kerase_eq_filter i.map.nodupKeys sha256
    rw [h, snapshot, List.filter_map]
    rfl

/-- The index without the entries of some hashes. -/
def removeAll (i : BlobIndex) (keys : List Str) : BlobIndex :=
  keys.foldl (fun i key => (i.remove key).1) i

/-- The removal of several hashes takes their entries out of the listing. -/
theorem snapshot_removeAll (i : BlobIndex) (keys : List Str) :
    (i.removeAll keys).snapshot = i.snapshot.filter fun e => e.1 ∉ keys := by
  induction keys generalizing i with
  | nil => simp [removeAll]
  | cons k keys ih =>
    have h : (i.removeAll (k :: keys)) = (i.remove k).1.removeAll keys := rfl
    rw [h, ih, snapshot_remove, List.filter_filter]
    congr 1
    funext e
    simp [Bool.and_comm]

/-- The removal of one hash and then of some others. -/
theorem removeAll_cons (i : BlobIndex) (key : Str) (keys : List Str) :
    i.removeAll (key :: keys) = (i.remove key).1.removeAll keys :=
  rfl

/-- The removal of one hash leaves the entries of the others. -/
theorem get_remove_of_mem {l : List (Str × FileMetadata)} {e : Str × FileMetadata} (hl : ((e :: l).map Prod.fst).Nodup)
    (hget : ∀ e' ∈ e :: l, i.get e'.1 = some e'.2) : ∀ e' ∈ l, (i.remove e.1).1.get e'.1 = some e'.2 := by
  intro e' he'
  have hne : e'.1 ≠ e.1 := fun h => (List.nodup_cons.1 hl).1 (h ▸ List.mem_map_of_mem he')
  rw [get_remove_of_ne i hne]
  exact hget e' (List.mem_cons_of_mem e he')

end BlobIndex

/-! ## Requests -/

/-- A request that leaves the index as it is. -/
def Req.Spares (r : Req) : Prop :=
  ∀ cfg t e s, (exec cfg t r e s).2.index = s.index

/-- Work on files and objects leaves the index as it is. -/
theorem Req.Physical.spares {r : Req} (h : r.Physical) : Req.Spares r := by
  intro cfg t e s
  cases r with
  | fs r => rfl
  | s3 r => rfl
  | _ => exact h.elim

/-- Work on files and objects lists nothing. -/
theorem Req.Physical.ne_snapshot {r : Req} (h : r.Physical) : r ≠ .index .snapshot := by
  rintro rfl
  exact h

/-! ## The order of eviction -/

namespace Startup

open BlobIndex

variable {cfg : Config} {listing : List (Str × FileMetadata)}

/-- The blobs of one origin, the oldest first. -/
theorem pairwise_byOrigin (hl : listing.Nodup) (origin : BlobOrigin) :
    ((listing.filter fun e => e.2.origin = origin).insertionSort fun a b => a.2.createdAt ≤ b.2.createdAt).Pairwise
      (GoesBefore listing) := by
  have hsub : (listing.filter fun e => e.2.origin = origin).Sublist listing := List.filter_sublist
  have h := Sorting.pairwise_insertionSort (fun e : Str × FileMetadata => e.2.createdAt) (hl.sublist hsub)
  refine List.Pairwise.imp_of_mem (fun {a b} ha hb hab => ?_) h
  have ho : ∀ e ∈ (listing.filter fun e => e.2.origin = origin).insertionSort (fun a b => a.2.createdAt ≤ b.2.createdAt),
      e.2.origin = origin := by
    intro e he
    have he' := (List.mem_insertionSort _).1 he
    simpa using (List.mem_filter.1 he').2
  refine .inr ⟨(ho a ha).trans (ho b hb).symm, ?_⟩
  rcases hab with hlt | ⟨heq, hsl⟩
  · exact .inl hlt
  · exact .inr ⟨heq, hsl.trans hsub⟩

/-- The order of eviction is the one that retention asks for. -/
theorem evictionOrder_capacityEvictionOrder (hl : listing.Nodup) : EvictionOrder listing (capacityEvictionOrder listing) := by
  constructor
  · have hperm : ∀ origin : BlobOrigin, ((listing.filter fun e => e.2.origin = origin).insertionSort
        fun a b => a.2.createdAt ≤ b.2.createdAt).Perm (listing.filter fun e => e.2.origin = origin) :=
      fun origin => List.perm_insertionSort _ _
    refine ((hperm .upstreamCache).append (hperm .upload)).trans ?_
    have hneg : (listing.filter fun e => e.2.origin = .upload) = listing.filter fun e => !decide (e.2.origin = .upstreamCache) := by
      refine List.filter_congr fun e _ => ?_
      cases e.2.origin <;> rfl
    rw [hneg]
    exact List.filter_append_perm _ _
  · refine List.pairwise_append.2 ⟨pairwise_byOrigin hl _, pairwise_byOrigin hl _, fun a ha b hb => .inl ?_⟩
    have ha' := (List.mem_insertionSort _).1 ha
    have hb' := (List.mem_insertionSort _).1 hb
    simp only [List.mem_filter, decide_eq_true_eq] at ha' hb'
    exact ⟨ha'.2, hb'.2⟩

/-! ## Deletions that succeed -/

/-- The response to a deletion that does not fail. -/
def spared : (r : Req) → Resp r → Resp r
  | .fs (.removeFile _), .error error => if error.kind = .notFound then .error error else .ok ()
  | .s3 (.deleteObject _), _ => .ok ()
  | _, x => x

/-- One request of a task when no deletion fails; every other operation may. -/
def execDeleting (cfg : Config) (t : Tid) (r : Req) (e : Env) (s : AppState) : Resp r × AppState :=
  (spared r (exec cfg t r e s).1, (exec cfg t r e s).2)

/-- A request is answered as it is when it is no deletion that failed. -/
theorem execDeleting_eq {t : Tid} {r : Req} {e : Env} {s : AppState} (h : deletionFailed ⟨r, (exec cfg t r e s).1⟩ = false) :
    execDeleting cfg t r e s = exec cfg t r e s := by
  refine Prod.ext ?_ rfl
  show spared r (exec cfg t r e s).1 = (exec cfg t r e s).1
  generalize (exec cfg t r e s).1 = x at h ⊢
  cases r with
  | fs r =>
    cases r with
    | removeFile p =>
      cases x with
      | ok u => rfl
      | error error =>
        have hkind : error.kind = .notFound := by simpa [deletionFailed] using h
        exact if_pos hkind
    | _ => rfl
  | s3 r =>
    cases r with
    | deleteObject key =>
      cases x with
      | ok u => rfl
      | error message => cases h
    | _ => rfl
  | _ => rfl

/-! ## The passes -/

variable {t : Tid} {s : AppState} {E : Env → Prop}

/-- What leaves the index as it is. -/
theorem yields_of_spares {α : Type} {p : Async α} (hp : p.Issues Req.Spares) :
    p.Yields (execDeleting cfg t) E (fun _ s' => s'.index = s.index) s :=
  hp.yields (fun _ _ s' hr hs => (hr cfg t _ s').trans hs) rfl

/-- The bytes of an entry can be deleted: those of an object only when there is a bucket. -/
def Deletable (cfg : Config) (m : FileMetadata) : Prop :=
  ∀ key, m.location = .s3 key → cfg.nativeS3 = true

/-- Deleting the bytes of an entry succeeds. -/
theorem removePhysicalFile_yields {m : FileMetadata} (hm : Deletable cfg m) :
    (FileStorage.removePhysicalFile cfg m).run.Yields (execDeleting cfg t) E
      (fun x s' => x = .ok () ∧ s'.index = s.index) s := by
  unfold FileStorage.removePhysicalFile
  cases hl : m.location with
  | localFile p =>
    have hremove : (fs (.removeFile p)).Yields (execDeleting cfg t) E
        (fun x s' => (∀ error, x = .error error → error.kind = .notFound) ∧ s'.index = s.index) s := by
      intro e _
      refine ⟨fun error hx => ?_, rfl⟩
      have hx' : spared (.fs (.removeFile p)) (exec cfg t (.fs (.removeFile p)) e s).1 = .error error := hx
      generalize (exec cfg t (.fs (.removeFile p)) e s).1 = answer at hx'
      cases answer with
      | ok u => cases hx'
      | error error' =>
        simp only [spared] at hx'
        split at hx'
        · cases hx'
          assumption
        · cases hx'
    refine Task.Yields.lift_bind hremove ?_
    rintro x s' ⟨hkind, hi⟩
    cases x with
    | ok u => exact ⟨rfl, hi⟩
    | error error =>
      simp only [hkind error rfl, if_true]
      exact ⟨rfl, hi⟩
  | s3 key =>
    simp only [hm key hl, if_true]
    intro e _
    exact ⟨rfl, rfl⟩

/-- The eviction of an entry ends it. -/
theorem deleteCleanupCandidate_yields {sha256 : Str} {m : FileMetadata} (hget : s.index.get sha256 = some m) (hm : Deletable cfg m) :
    (deleteCleanupCandidate cfg sha256 m).run.Yields (execDeleting cfg t) E
      (fun x s' => x = .ok true ∧ s'.index = (s.index.remove sha256).1) s := by
  have hlocked : (FileStorage.removeLocked cfg sha256 .evicted (some m)).run.Yields (execDeleting cfg t) E
      (fun x s' => x = .ok true ∧ s'.index = (s.index.remove sha256).1) s := by
    have hlookup : (index (.get sha256)).Yields (execDeleting cfg t) E (fun x s' => x = some m ∧ s' = s) s :=
      fun _ _ => ⟨hget, rfl⟩
    refine Task.Yields.lift_bind hlookup ?_
    rintro x s' ⟨rfl, rfl⟩
    have hsame : FileStorage.movedOn m (some m) = false := by simp [FileStorage.movedOn]
    simp only [hsame, Bool.false_eq_true, if_false, FileStorage.Removal.sweepsBackend]
    refine Task.Yields.run_bind (removePhysicalFile_yields hm) ?_ ?_
    · rintro e s₁ ⟨he, _⟩
      nomatch he
    rintro _ s₁ ⟨_, hi⟩
    intro e _
    have hend : s'.index.removeIfLocationMatches sha256 m.location = (true, (s'.index.remove sha256).1) := by
      simp [removeIfLocationMatches, hget]
    show Except.ok (s₁.index.removeIfLocationMatches sha256 m.location).1 = _ ∧
      (s₁.index.removeIfLocationMatches sha256 m.location).2 = _
    rw [hi, hend]
    exact ⟨rfl, rfl⟩
  refine Task.Yields.run_bind (Q := fun x s' => x = .ok (.ok true) ∧ s'.index = (s.index.remove sha256).1) ?_ ?_ ?_
  · have hguarded : (FileStorage.removeIndexedBlob cfg sha256 .evicted (some m)).run.Yields (execDeleting cfg t) E
        (fun x s' => x = .ok true ∧ s'.index = (s.index.remove sha256).1) s := hlocked.bind fun _ _ h => h
    exact hguarded.bind fun _ _ h => ⟨congrArg _ h.1, h.2⟩
  · rintro e s' ⟨he, _⟩
    nomatch he
  · rintro x s' ⟨hx, hi⟩
    cases hx
    exact ⟨rfl, hi⟩

/-- The expiry pass ends the entries that have expired. -/
theorem evictExpired_yields (now : Nat) {entries : List (Str × FileMetadata)} (hkeys : (entries.map Prod.fst).Nodup)
    (hget : ∀ e ∈ entries, s.index.get e.1 = some e.2) (hm : ∀ e ∈ entries, Deletable cfg e.2) :
    (evictExpired cfg now entries).run.Yields (execDeleting cfg t) E (fun x s' => x = .ok () ∧
      s'.index = s.index.removeAll ((entries.filter fun e => expired cfg e.2 now).map Prod.fst)) s := by
  induction entries generalizing s with
  | nil => exact ⟨rfl, rfl⟩
  | cons e entries ih =>
    have hkeys' := (List.nodup_cons.1 hkeys).2
    have hm' : ∀ e ∈ entries, Deletable cfg e.2 := fun e he => hm e (List.mem_cons_of_mem _ he)
    unfold evictExpired
    cases hexp : expired cfg e.2 now with
    | true =>
      have hlist : ((e :: entries).filter fun e => expired cfg e.2 now) = e :: entries.filter fun e => expired cfg e.2 now :=
        List.filter_cons_of_pos hexp
      rw [hlist, List.map_cons, removeAll_cons]
      refine Task.Yields.run_bind (deleteCleanupCandidate_yields (hget e (by simp)) (hm e (by simp))) ?_ ?_
      · rintro _ s' ⟨he, _⟩
        cases he
      rintro _ s' ⟨_, hi⟩
      rw [← hi]
      refine ih hkeys' (fun e' he' => ?_) hm'
      rw [hi]
      exact get_remove_of_mem hkeys hget e' he'
    | false =>
      have hlist : ((e :: entries).filter fun e => expired cfg e.2 now) = entries.filter fun e => expired cfg e.2 now :=
        List.filter_cons_of_neg (by simp [hexp])
      rw [hlist]
      exact ih hkeys' (fun e' he' => hget e' (List.mem_cons_of_mem _ he')) hm'

/-- The capacity pass ends the entries from the first one on, until what is left is within the limits. -/
theorem evictCapacity_yields {entries : List (Str × FileMetadata)} (hkeys : (entries.map Prod.fst).Nodup)
    (hget : ∀ e ∈ entries, s.index.get e.1 = some e.2) (hm : ∀ e ∈ entries, Deletable cfg e.2) :
    (evictCapacity cfg entries (entries.map fun e => e.2.size).sum entries.length).run.Yields (execDeleting cfg t) E
      (fun x s' => x = .ok () ∧ ∃ k ≤ entries.length, s'.index = s.index.removeAll ((entries.take k).map Prod.fst) ∧
        WithinLimits cfg (entries.drop k) ∧ ∀ j < k, ¬ WithinLimits cfg (entries.drop j)) s := by
  induction entries generalizing s with
  | nil => exact ⟨rfl, 0, by simp, rfl, by simp [WithinLimits], by simp⟩
  | cons e entries ih =>
    have hkeys' := (List.nodup_cons.1 hkeys).2
    have hm' : ∀ e ∈ entries, Deletable cfg e.2 := fun e he => hm e (List.mem_cons_of_mem _ he)
    have hlimits : WithinLimits cfg (e :: entries) ↔
        (cfg.maxTotalSize = 0 ∨ ((e :: entries).map fun e => e.2.size).sum ≤ cfg.maxTotalSize) ∧
          (cfg.maxTotalFiles = 0 ∨ (e :: entries).length ≤ cfg.maxTotalFiles) := by
      simp only [WithinLimits, or_iff_not_imp_left, ne_eq]
    unfold evictCapacity
    simp only
    split
    · rename_i hwithin
      exact ⟨rfl, 0, Nat.zero_le _, rfl, hlimits.2 hwithin, by simp⟩
    · rename_i hover
      refine Task.Yields.run_bind (deleteCleanupCandidate_yields (hget e (by simp)) (hm e (by simp))) ?_ ?_
      · rintro _ s' ⟨he, _⟩
        cases he
      rintro removed s' ⟨hr, hi⟩
      cases hr
      have hsum : ((e :: entries).map fun e => e.2.size).sum - e.2.size = (entries.map fun e => e.2.size).sum := by simp
      have hlength : (e :: entries).length - 1 = entries.length := by simp
      simp only [if_true, hsum, hlength]
      refine (ih hkeys' (fun e' he' => ?_) hm').mono ?_
      · rw [hi]
        exact get_remove_of_mem hkeys hget e' he'
      rintro x s'' ⟨hx, k, hk, hi', hwithin, hleast⟩
      refine ⟨hx, k + 1, by simpa using hk, ?_, hwithin, fun j hj => ?_⟩
      · rw [hi', hi]
        rfl
      · cases j with
        | zero => exact fun h => hover (hlimits.1 h)
        | succ j => exact hleast j (by omega)

/-- The limits only depend on which blobs there are. -/
theorem withinLimits_perm {l l' : List (Str × FileMetadata)} (h : l.Perm l') : WithinLimits cfg l ↔ WithinLimits cfg l' := by
  have hsum : (l.map fun e => e.2.size).sum = (l'.map fun e => e.2.size).sum := (h.map _).sum_nat
  rw [WithinLimits, WithinLimits, hsum, h.length_eq]

/-- A sum that is a `u64` is never saturated. -/
theorem foldl_saturatingAdd (entries : List (Str × FileMetadata)) {start : Nat}
    (h : start + (entries.map fun e => e.2.size).sum ≤ u64Max) :
    entries.foldl (fun sum e => saturatingAdd sum e.2.size) start = start + (entries.map fun e => e.2.size).sum := by
  induction entries generalizing start with
  | nil => simp
  | cons e entries ih =>
    simp only [List.map_cons, List.sum_cons] at h ⊢
    have hadd : saturatingAdd start e.2.size = start + e.2.size := saturatingAdd_eq (by omega)
    rw [List.foldl_cons, hadd, ih (by omega)]
    omega

/-- What is left when the expired entries are gone. -/
theorem snapshot_removeAll_expired (i : BlobIndex) (now : Nat) :
    (i.removeAll ((i.snapshot.filter fun e => expired cfg e.2 now).map Prod.fst)).snapshot = survivors cfg now i := by
  rw [snapshot_removeAll, survivors]
  refine List.filter_congr fun e he => ?_
  have hiff : e.1 ∈ (i.snapshot.filter fun e => expired cfg e.2 now).map Prod.fst ↔ expired cfg e.2 now = true := by
    rw [List.mem_map]
    constructor
    · rintro ⟨e', he', heq⟩
      obtain ⟨hmem, hexp⟩ := List.mem_filter.1 he'
      have hsame : e'.2 = e.2 := Option.some.inj ((mem_snapshot.1 hmem).symm.trans (heq ▸ mem_snapshot.1 he))
      rwa [hsame] at hexp
    · exact fun hexp => ⟨e, List.mem_filter.2 ⟨he, hexp⟩, rfl⟩
  cases hexp : expired cfg e.2 now <;> simp [hiff, hexp]

/-- What is left when the first entries of an order are gone. -/
theorem snapshot_removeAll_take {i : BlobIndex} {order : List (Str × FileMetadata)} (hperm : order.Perm i.snapshot) (k : Nat) :
    (i.removeAll ((order.take k).map Prod.fst)).snapshot.Perm (order.drop k) := by
  have hkeys : (order.map Prod.fst).Nodup := (hperm.map _).nodup_iff.2 (nodup_keys_snapshot i)
  have hdisjoint : ∀ e ∈ order.drop k, e.1 ∉ (order.take k).map Prod.fst := by
    intro e he hmem
    have happ : ((order.take k).map Prod.fst ++ (order.drop k).map Prod.fst).Nodup := by
      rw [← List.map_append, List.take_append_drop]
      exact hkeys
    exact (List.nodup_append'.1 happ).2.2 hmem (List.mem_map_of_mem he)
  rw [snapshot_removeAll]
  refine (hperm.symm.filter _).trans ?_
  have hsplit : (order.take k ++ order.drop k).filter (fun e => decide (e.1 ∉ (order.take k).map Prod.fst)) = order.drop k := by
    rw [List.filter_append, List.filter_eq_nil_iff.2 fun e he => ?_, List.filter_eq_self.2 fun e he => ?_, List.nil_append]
    · simpa using hdisjoint e he
    · simp only [decide_eq_true_eq, not_not]
      exact List.mem_map_of_mem he
  rw [List.take_append_drop] at hsplit
  rw [hsplit]

/-- Reconciling superseded copies neither fails nor touches the index. -/
theorem reconcileSupersededBlobs_yields : (FileStorage.reconcileSupersededBlobs cfg).run.Yields (execDeleting cfg t) E
    (fun x s' => x = .ok () ∧ s'.index = s.index) s := by
  have hretry : ∀ pending s, (FileStorage.retrySuperseded cfg pending).run.Yields (execDeleting cfg t) E
      (fun x _ => ∃ retry, x = .ok retry) s := by
    intro pending
    induction pending with
    | nil => exact fun _ => ⟨_, rfl⟩
    | cons e pending ih =>
      intro s
      have hattempt : (attempt (guarded e.1 (FileStorage.removePhysicalFile cfg e.2))).run.Yields (execDeleting cfg t) E
          (fun x _ => ∃ removed, x = .ok removed) s := (Task.yields_trivial _).bind fun x _ _ => ⟨x, rfl⟩
      refine Task.Yields.run_bind hattempt ?_ ?_
      · rintro _ _ ⟨_, he⟩
        nomatch he
      intro removed s' _
      refine Task.Yields.run_bind (ih s') ?_ ?_
      · rintro _ _ ⟨_, he⟩
        nomatch he
      intro retry s' _
      cases removed <;> exact ⟨_, rfl⟩
  have hok : (FileStorage.reconcileSupersededBlobs cfg).run.Yields (execDeleting cfg t) E (fun x _ => x = .ok ()) s := by
    refine Task.Yields.lift_bind (Task.yields_trivial _) fun pending s' _ => ?_
    refine Task.Yields.run_bind (hretry pending s') ?_ fun _ _ _ _ _ => rfl
    rintro _ _ ⟨_, he⟩
    nomatch he
  have hspares : (FileStorage.reconcileSupersededBlobs cfg).run.Issues Req.Spares :=
    FileStorage.reconcileSupersededBlobs_issues cfg (fun _ => Req.Physical.spares) (fun _ _ _ _ => rfl) fun _ _ _ _ _ => rfl
  exact hok.and (yields_of_spares hspares)

/-- What a cleanup does when no deletion fails. -/
theorem enforceStorageLimitsAt_yields (now : Nat) (hsum : (s.index.snapshot.map fun e => e.2.size).sum ≤ u64Max)
    (hm : ∀ sha256 m, s.index.get sha256 = some m → Deletable cfg m) :
    (enforceStorageLimitsAt cfg now).run.Yields (execDeleting cfg t) E (fun x s' => x = .ok () ∧
      ∃ order k, EvictionOrder (survivors cfg now s.index) order ∧ s'.index.snapshot.Perm (order.drop k) ∧
        WithinLimits cfg (order.drop k) ∧ ∀ j < k, ¬ WithinLimits cfg (order.drop j)) s := by
  have hmem : ∀ e ∈ s.index.snapshot, Deletable cfg e.2 := fun e he => hm e.1 e.2 (mem_snapshot.1 he)
  refine Task.Yields.run_bind reconcileSupersededBlobs_yields ?_ ?_
  · rintro _ _ ⟨he, _⟩
    nomatch he
  rintro _ s₁ ⟨_, hi₁⟩
  have hsnapshot : ∀ s : AppState, (index .snapshot).Yields (execDeleting cfg t) E (fun x s' => x = s.index.snapshot ∧ s' = s) s :=
    fun _ _ _ => ⟨rfl, rfl⟩
  refine Task.Yields.lift_bind (hsnapshot s₁) ?_
  rintro _ s₁ ⟨rfl, rfl⟩
  rw [← hi₁] at hsum hmem ⊢
  refine Task.Yields.run_bind
    (evictExpired_yields now (nodup_keys_snapshot s₁.index) (fun e he => mem_snapshot.1 he) hmem) ?_ ?_
  · rintro _ _ ⟨he, _⟩
    nomatch he
  rintro _ s₂ ⟨_, hi₂⟩
  have hleft : s₂.index.snapshot = survivors cfg now s₁.index := by
    rw [hi₂]
    exact snapshot_removeAll_expired s₁.index now
  refine Task.Yields.lift_bind (hsnapshot s₂) ?_
  rintro _ s₂ ⟨rfl, rfl⟩
  rw [← hleft]
  have horder := evictionOrder_capacityEvictionOrder (nodup_keys_snapshot s₂.index).of_map
  have hsizes : s₂.index.snapshot.foldl (fun sum e => saturatingAdd sum e.2.size) 0 =
      ((capacityEvictionOrder s₂.index.snapshot).map fun e => e.2.size).sum := by
    have hsub : (s₂.index.snapshot.map fun e => e.2.size).sum ≤ u64Max := by
      refine Nat.le_trans (List.Sublist.sum_le_sum ?_ fun _ _ => Nat.zero_le _) hsum
      rw [hleft]
      exact List.Sublist.map _ List.filter_sublist
    rw [foldl_saturatingAdd _ (by omega), Nat.zero_add]
    exact (horder.1.map _).sum_nat.symm
  rw [hsizes, ← horder.1.length_eq]
  have hmem' : ∀ e ∈ capacityEvictionOrder s₂.index.snapshot, e ∈ s₂.index.snapshot := fun e he => horder.1.mem_iff.1 he
  refine Task.Yields.run_bind (evictCapacity_yields ((horder.1.map _).nodup_iff.2 (nodup_keys_snapshot s₂.index))
    (fun e he => mem_snapshot.1 (hmem' e he)) fun e he => hmem e ?_) ?_ ?_
  · have he' := hmem' e he
    rw [hleft] at he'
    exact (List.mem_filter.1 he').1
  · rintro _ _ ⟨he, _⟩
    nomatch he
  rintro _ s₃ ⟨_, k, _, hi₃, hwithin, hleast⟩
  have hclean : ∀ root (s : AppState), (cleanupEmptyDirs root).Yields (execDeleting cfg t) E (fun _ s' => s'.index = s.index) s :=
    fun root s => yields_of_spares ((cleanupEmptyDirs_physical root).issues fun _ => Req.Physical.spares)
  refine Task.Yields.lift_bind (hclean _ s₃) fun _ s₄ hi₄ => ?_
  refine (hclean _ s₄).bind fun _ s₅ hi₅ => ⟨rfl, _, k, horder, ?_, hwithin, hleast⟩
  rw [hi₅, hi₄, hi₃]
  exact snapshot_removeAll_take horder.1 k

/-! ## The record of a cleanup -/

/-- What a cleanup may request, given what it has done: in its capacity pass it removes blobs that it has listed, and an upload only
after it has tried every copy of another server that it has listed. -/
def Admits (past : List (Task.Event Req Resp)) (r : Req) : Prop :=
  ∀ sha256 later listing, Removes sha256 r → capacityPass past = some (later, listing) →
    ∃ m, (sha256, m) ∈ listing ∧ (m.origin = .upload → ∀ key copy, (key, copy) ∈ listing → copy.origin = .upstreamCache →
      ∃ x, ⟨.index (.get key), x⟩ ∈ later)

/-- The protocol of a cleanup. -/
abbrev Retains : Conc.Protocol Req Resp Str (List (Task.Event Req Resp)) :=
  .recording (fun _ _ => True) (fun _ _ => True) Admits

section

variable {past : List (Task.Event Req Resp)}

/-- What is no listing leaves the capacity pass going. -/
theorem capacityPass_cons {r : Req} (hr : r ≠ .index .snapshot) (x : Resp r) :
    capacityPass (⟨r, x⟩ :: past) = (capacityPass past).map fun pass => (⟨r, x⟩ :: pass.1, pass.2) := by
  cases r with
  | index r =>
    cases r with
    | snapshot => exact absurd rfl hr
    | _ => rfl
  | _ => rfl

/-- What is no listing. -/
theorem isListing_of_ne {r : Req} (hr : r ≠ .index .snapshot) (x : Resp r) : isListing ⟨r, x⟩ = false := by
  cases r with
  | index r =>
    cases r with
    | snapshot => exact absurd rfl hr
    | _ => rfl
  | _ => rfl

/-- Work on files and objects is always admitted. -/
theorem admits_physical {r : Req} (h : r.Physical) : Admits past r := by
  intro sha256 _ _ hr
  cases r with
  | index r => exact h.elim
  | _ => exact hr.elim

/-- Before the capacity pass everything is admitted. -/
theorem admits_of_none (h : capacityPass past = none) (r : Req) : Admits past r := by
  intro _ _ _ _ hpass
  rw [h] at hpass
  nomatch hpass

/-- A pass over a listing has tried some blobs. -/
def HasTried (listing tried : List (Str × FileMetadata)) (past : List (Task.Event Req Resp)) : Prop :=
  ∃ later, capacityPass past = some (later, listing) ∧ ∀ e ∈ tried, ∃ x, ⟨.index (.get e.1), x⟩ ∈ later

variable {listing tried : List (Str × FileMetadata)} {e : Str × FileMetadata}

/-- A pass goes on. -/
theorem HasTried.cons (h : HasTried listing tried past) {r : Req} (hr : r ≠ .index .snapshot) (x : Resp r) :
    HasTried listing tried (⟨r, x⟩ :: past) := by
  obtain ⟨later, hpass, htried⟩ := h
  refine ⟨⟨r, x⟩ :: later, by rw [capacityPass_cons hr, hpass]; rfl, fun e he => ?_⟩
  obtain ⟨x', hx'⟩ := htried e he
  exact ⟨x', List.mem_cons_of_mem _ hx'⟩

/-- A pass tries one more blob. -/
theorem HasTried.get (h : HasTried listing tried past) (x : Resp (.index (.get e.1))) :
    HasTried listing (e :: tried) (⟨.index (.get e.1), x⟩ :: past) := by
  obtain ⟨later, hpass, htried⟩ := h.cons (r := .index (.get e.1)) (by simp) x
  refine ⟨later, hpass, fun e' he' => ?_⟩
  rcases List.mem_cons.1 he' with rfl | he'
  · obtain ⟨later', hpass', _⟩ := h
    rw [capacityPass_cons (by simp), hpass'] at hpass
    cases hpass
    exact ⟨x, List.mem_cons_self⟩
  · exact htried e' he'

/-- A blob may be tried when it is listed, and every copy of another server comes before an upload. -/
theorem HasTried.admits (h : HasTried listing tried past) (he : e ∈ listing)
    (hcopies : e.2.origin = .upload → ∀ copy ∈ listing, copy.2.origin = .upstreamCache → copy ∈ tried) {r : Req}
    (hr : ∀ sha256, Removes sha256 r → sha256 = e.1) : Admits past r := by
  intro sha256 later listing' hremoves hpass
  obtain ⟨later', hpass', htried⟩ := h
  cases hpass'.symm.trans hpass
  obtain rfl := hr sha256 hremoves
  exact ⟨e.2, he, fun ho key copy hcopy hc => htried (key, copy) (hcopies ho (key, copy) hcopy hc)⟩

/-- The attempt to evict a blob. -/
theorem deleteCleanupCandidate_obeys (h : HasTried listing tried past) (he : e ∈ listing)
    (hcopies : e.2.origin = .upload → ∀ copy ∈ listing, copy.2.origin = .upstreamCache → copy ∈ tried) :
    (deleteCleanupCandidate cfg e.1 e.2).run.Obeys Retains (fun q _ => HasTried listing (e :: tried) q) past := by
  let P : Req → Prop := fun r => r ≠ .index .snapshot ∧ ∀ sha256, Removes sha256 r → sha256 = e.1
  have hphysical : ∀ r : Req, r.Physical → P r := by
    intro r hr
    refine ⟨hr.ne_snapshot, fun sha256 hremoves => ?_⟩
    cases r with
    | index r => exact hr.elim
    | _ => exact hremoves.elim
  have hissues : (deleteCleanupCandidate cfg e.1 e.2).run.Issues P :=
    deleteCleanupCandidate_issues cfg e.1 e.2 hphysical ⟨by simp, fun _ h => h.symm⟩ fun _ => ⟨by simp, fun _ h => h.symm⟩
  -- The attempt first looks at the entry, and that is when it counts as tried.
  obtain ⟨_, hget, hrest⟩ := hissues
  refine ⟨trivial, h.admits he hcopies hget.2, fun x _ => ?_⟩
  refine (hrest x trivial).keeping (fun _ _ _ => trivial) (fun q r hq hr => ?_) (fun q r x hq hr => hq.cons hr.1 x) (h.get x)
  obtain ⟨later, hpass, htried⟩ := hq
  exact HasTried.admits ⟨later, hpass, fun e he => htried e (List.mem_cons_of_mem _ he)⟩ he hcopies hr.2

/-- The capacity pass. -/
theorem evictCapacity_obeys {entries : List (Str × FileMetadata)} (h : HasTried listing tried past) (hlisted : ∀ e ∈ entries, e ∈ listing)
    (hcopies : ∀ copy ∈ listing, copy.2.origin = .upstreamCache → copy ∈ tried ∨ copy ∈ entries)
    (hpair : entries.Pairwise fun a b => a.2.origin = .upload → b.2.origin = .upload) (totalSize totalFiles : Nat) :
    (evictCapacity cfg entries totalSize totalFiles).run.Obeys Retains (fun _ _ => True) past := by
  induction entries generalizing tried past totalSize totalFiles with
  | nil => exact trivial
  | cons e entries ih =>
    obtain ⟨hhead, hpair⟩ := List.pairwise_cons.1 hpair
    have huploads : e.2.origin = .upload → ∀ copy ∈ listing, copy.2.origin = .upstreamCache → copy ∈ tried := by
      intro ho copy hcopy hc
      rcases hcopies copy hcopy hc with hmem | hmem
      · exact hmem
      · rcases List.mem_cons.1 hmem with rfl | hmem
        · exact nomatch ho.symm.trans hc
        · exact nomatch (hhead copy hmem ho).symm.trans hc
    unfold evictCapacity
    simp only
    split
    · exact trivial
    · refine Task.Obeys.run_bind (deleteCleanupCandidate_obeys h (hlisted e (by simp)) huploads) (fun _ _ _ => trivial) ?_
      intro q removed hq
      have hrest : ∀ totalSize totalFiles, (evictCapacity cfg entries totalSize totalFiles).run.Obeys Retains (fun _ _ => True) q := by
        refine fun _ _ => ih hq (fun e he => hlisted e (List.mem_cons_of_mem _ he)) (fun copy hcopy hc => ?_) hpair _ _
        rcases hcopies copy hcopy hc with hmem | hmem
        · exact .inl (List.mem_cons_of_mem _ hmem)
        · rcases List.mem_cons.1 hmem with rfl | hmem
          · exact .inl List.mem_cons_self
          · exact .inr hmem
      cases removed
      · exact hrest _ _
      · exact hrest _ _

/-- In the order of eviction only uploads come after an upload. -/
theorem pairwise_uploads (listing : List (Str × FileMetadata)) :
    (capacityEvictionOrder listing).Pairwise fun a b => a.2.origin = .upload → b.2.origin = .upload := by
  have horigin : ∀ (origin : BlobOrigin) (e : Str × FileMetadata), e ∈ ((listing.filter fun e => e.2.origin = origin).insertionSort
      fun a b => a.2.createdAt ≤ b.2.createdAt) → e.2.origin = origin := by
    intro origin e he
    have he' := (List.mem_insertionSort _).1 he
    simpa using (List.mem_filter.1 he').2
  refine List.pairwise_append.2 ⟨?_, ?_, fun a _ b hb _ => horigin _ b hb⟩
  · refine List.Pairwise.imp_of_mem (fun {a b} ha _ _ ho => ?_) (List.pairwise_of_forall fun _ _ => trivial)
    exact nomatch ho.symm.trans (horigin _ a ha)
  · exact List.Pairwise.imp_of_mem (fun {a b} _ hb _ _ => horigin _ b hb) (List.pairwise_of_forall fun _ _ => trivial)

/-- The order of eviction has the listed blobs. -/
theorem mem_capacityEvictionOrder {listing : List (Str × FileMetadata)} {e : Str × FileMetadata} :
    e ∈ capacityEvictionOrder listing ↔ e ∈ listing := by
  simp only [capacityEvictionOrder, List.mem_append, List.mem_insertionSort, List.mem_filter, decide_eq_true_eq, ← and_or_left]
  refine and_iff_left ?_
  cases e.2.origin
  · exact .inr rfl
  · exact .inl rfl

/-- A cleanup keeps its protocol, whatever is answered. -/
theorem enforceStorageLimitsAt_obeys (now : Nat) : (enforceStorageLimitsAt cfg now).run.Obeys Retains (fun _ _ => True) [] := by
  let First : List (Task.Event Req Resp) → Prop := fun q => capacityPass q = none ∧ q.any isListing = false
  let Second : List (Task.Event Req Resp) → Prop := fun q => capacityPass q = none ∧ q.any isListing = true
  have hnone : ∀ q (r : Req) (x : Resp r), capacityPass q = none → r ≠ .index .snapshot → capacityPass (⟨r, x⟩ :: q) = none := by
    intro q r x hq hr
    rw [capacityPass_cons hr, hq]
    rfl
  have hreconcile : (FileStorage.reconcileSupersededBlobs cfg).run.Issues fun r => r ≠ .index .snapshot :=
    FileStorage.reconcileSupersededBlobs_issues cfg (fun _ => Req.Physical.ne_snapshot) (by simp) (by simp)
  refine Task.Obeys.run_bind (hreconcile.obeys_keeping (I := First) (fun _ _ _ => trivial) (fun q r hq _ => admits_of_none hq.1 r)
    (fun q r x hq hr => ⟨hnone q r x hq.1 hr, ?_⟩) ⟨rfl, rfl⟩) (fun _ _ _ => trivial) ?_
  · rw [List.any_cons, isListing_of_ne hr, Bool.false_or]
    exact hq.2
  intro q _ hq
  refine ⟨admits_of_none hq.1 _, fun entries _ => ?_⟩
  have hfirst : Second (⟨.index .snapshot, entries⟩ :: q) := ⟨by simp [capacityPass, hq.2], by simp [isListing]⟩
  have hexpired : (evictExpired cfg now entries).run.Issues fun r => r ≠ .index .snapshot :=
    evictExpired_issues cfg now entries (fun _ => Req.Physical.ne_snapshot) (by simp) (by simp)
  refine Task.Obeys.run_bind (hexpired.obeys_keeping (I := Second) (fun _ _ _ => trivial) (fun q r hq _ => admits_of_none hq.1 r)
    (fun q r x hq hr => ⟨hnone q r x hq.1 hr, ?_⟩) hfirst) (fun _ _ _ => trivial) ?_
  · rw [List.any_cons, hq.2, Bool.or_true]
  intro q _ hq
  refine ⟨admits_of_none hq.1 _, fun listing _ => ?_⟩
  have hsecond : HasTried listing [] (⟨.index .snapshot, listing⟩ :: q) := ⟨[], by simp [capacityPass, hq.2], by simp⟩
  refine Task.Obeys.run_bind (evictCapacity_obeys hsecond (fun e he => mem_capacityEvictionOrder.1 he)
    (fun copy hcopy _ => .inr (mem_capacityEvictionOrder.2 hcopy)) (pairwise_uploads listing) _ _) (fun _ _ _ => trivial) ?_
  intro q _ _
  have hclean : ∀ root q, (cleanupEmptyDirs root).Obeys Retains (fun _ _ => True) q := fun root q =>
    ((cleanupEmptyDirs_physical root).issues fun _ => id).obeys_keeping (I := fun _ => True) (fun _ _ _ => trivial)
      (fun _ _ _ => admits_physical) (fun _ _ _ _ _ => trivial) trivial
  exact Task.Obeys.lift_bind (hclean _ q) fun q _ _ => Task.Obeys.lift (hclean _ q)

end

end Startup

end Almond
