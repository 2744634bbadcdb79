import Almond.Lemmas.RetentionAux
import Almond.Sample

/-! # Retention -/

namespace Almond.Startup

open Conc

/-- A cleanup that has the store to itself, and whose deletions succeed, ends the blobs that have expired and then as few of the others
as the limits ask for, in the order of eviction. Whatever fails, its capacity pass turns to an upload only after it has tried every copy
of another server that it has listed. -/
theorem cleanup_retains (cfg : Config) (t : Tid) (now : Nat) :
    (∀ (s : AppState) env x s', (s.index.snapshot.map fun e => e.2.size).sum < 2 ^ 64 →
      (∀ sha256 m key, s.index.get sha256 = some m → m.location = .s3 key → cfg.nativeS3 = true) →
      (∀ event ∈ (enforceStorageLimitsAt cfg now).run.events (exec cfg t) env 0 s, deletionFailed event = false) →
      (enforceStorageLimitsAt cfg now).run.alone (exec cfg t) env 0 s = (x, s') →
        x = .ok () ∧ ∃ order k, EvictionOrder (survivors cfg now s.index) order ∧
          (∀ sha256 m, s'.2.index.get sha256 = some m ↔ (sha256, m) ∈ order.drop k) ∧
          WithinLimits cfg s'.2.index.snapshot ∧ ∀ j < k, ¬ WithinLimits cfg (order.drop j)) ∧
    ∀ past r k sha256 later listing, (enforceStorageLimitsAt cfg now).run.After past (.call r k) → Removes sha256 r →
      capacityPass past = some (later, listing) →
        ∃ m, (sha256, m) ∈ listing ∧ (m.origin = .upload → ∀ key copy, (key, copy) ∈ listing → copy.origin = .upstreamCache →
          ∃ x, ⟨.index (.get key), x⟩ ∈ later) := by
  constructor
  · intro s env x s' hsum hm hdeletes hrun
    have hsame : (enforceStorageLimitsAt cfg now).run.alone (execDeleting cfg t) env 0 s =
        (enforceStorageLimitsAt cfg now).run.alone (exec cfg t) env 0 s :=
      Task.alone_congr_events (fun _ _ _ => execDeleting_eq) hdeletes
    rw [← hsame] at hrun
    have hle : (s.index.snapshot.map fun e => e.2.size).sum ≤ u64Max := by
      simp only [u64Max]
      omega
    have hdeletable : ∀ sha256 m, s.index.get sha256 = some m → Deletable cfg m := fun sha256 m h key => hm sha256 m key h
    have h := (enforceStorageLimitsAt_yields (t := t) (E := fun e => ∃ n, e = env n) now hle hdeletable).alone (fun n => ⟨n, rfl⟩) 0
    rw [hrun] at h
    obtain ⟨hx, order, k, horder, hperm, hwithin, hleast⟩ := h
    refine ⟨hx, order, k, horder, fun sha256 m => ?_, (withinLimits_perm hperm).2 hwithin, hleast⟩
    rw [← BlobIndex.mem_snapshot]
    exact hperm.mem_iff
  · intro past r k sha256 later listing hafter hr hpass
    have h := (enforceStorageLimitsAt_obeys now).after hafter fun _ _ => trivial
    exact h.1 sha256 later listing hr hpass

end Almond.Startup

/-! ## A full server -/

namespace Almond.Sample

open Conc Startup

/-- A server that may keep one file. -/
def oneFile : Config :=
  { config with maxTotalFiles := 1 }

/-- An upload that has expired, two more uploads and a copy of another server. -/
def crowd : List (Str × FileMetadata) :=
  [(['e'], { metadata ['e'] with expiration := some 1700000050 }),
    (['u'], metadata ['u']),
    (['n'], { metadata ['n'] with createdAt := 1700000020 }),
    (['c'], { metadata ['c'] with createdAt := 1700000010, origin := .upstreamCache })]

/-- A server with these blobs. -/
def crowded : AppState :=
  { started with
    disk := crowd.foldl (fun disk e => disk.create (config.storage.uploads ++ [e.1]) 0) disk
    index := crowd.foldl (fun index e => index.insert e.1 e.2) .empty }

/-- A cleanup of the server. -/
def cleanup : AsyncResult Unit :=
  enforceStorageLimitsAt oneFile 1700000100

/-- The record of the cleanup. -/
def cleanupEvents : List (Task.Event Req Resp) :=
  cleanup.run.events (exec oneFile 0) (fun _ => calm) 0 crowded

end Almond.Sample

namespace Almond.Startup

open Conc Sample

/-- The cleanup ends the expired upload, the copy and then the older upload. It ends the upload after it has tried the copy. -/
theorem cleanup_retains_crowded :
    (∃ order k, EvictionOrder (survivors oneFile 1700000100 crowded.index) order ∧
      (∀ sha256 m, (cleanup.run.alone (exec oneFile 0) (fun _ => calm) 0 crowded).2.2.index.get sha256 = some m ↔
        (sha256, m) ∈ order.drop k) ∧ ∀ j < k, ¬ WithinLimits oneFile (order.drop j)) ∧
    ∃ later listing m, capacityPass (cleanupEvents.take 12).reverse = some (later, listing) ∧ (['u'], m) ∈ listing ∧
      (m.origin = .upload → ∀ key copy, (key, copy) ∈ listing → copy.origin = .upstreamCache → ∃ x, ⟨.index (.get key), x⟩ ∈ later) := by
  obtain ⟨hends, htries⟩ := cleanup_retains oneFile 0 1700000100
  constructor
  · have hdeletes : ∀ event ∈ cleanupEvents, deletionFailed event = false := by decide
    have hsum : (crowded.index.snapshot.map fun e => e.2.size).sum < 2 ^ 64 := by decide
    obtain ⟨_, order, k, horder, hkept, _, hleast⟩ := hends crowded (fun _ => calm) _ _ hsum (fun _ _ _ _ _ => rfl) hdeletes rfl
    exact ⟨order, k, horder, hkept, hleast⟩
  · have hsplit : cleanupEvents.drop 12 =
        ⟨.index (.removeIfLocationMatches ['u'] (metadata ['u']).location), true⟩ :: cleanupEvents.drop 13 := rfl
    have hrecord : cleanup.run.After cleanupEvents.reverse _ := Task.after_events cleanup.run 0 crowded
    rw [← List.take_append_drop 12 cleanupEvents, hsplit, List.reverse_append, List.reverse_cons, List.append_assoc] at hrecord
    obtain ⟨rest, hafter⟩ := hrecord.split
    obtain ⟨later, listing, hpass⟩ : ∃ later listing, capacityPass (cleanupEvents.take 12).reverse = some (later, listing) := ⟨_, _, rfl⟩
    obtain ⟨m, hm, htried⟩ := htries _ _ rest ['u'] later listing hafter rfl hpass
    exact ⟨later, listing, m, hpass, hm, htried⟩

end Almond.Startup
