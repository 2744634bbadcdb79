import Almond.Basic
import Almond.Conc.Task
import Almond.Data.Maps

/-! # The table of mutation guards

`BlobMutationLocks` serializes publication and deletion of one hash without blocking unrelated blobs. Its table keeps weak references to
mutexes: only the calls of `lock` that wait for a mutex, or whose guard is not dropped, keep it alive. -/

namespace Almond.MutationLocks

open Conc (Tid)

/-- A mutex. Each allocation makes a new one. -/
abbrev MutexId := Nat

/-- What a call of `lock` does with the mutex it refers to. -/
inductive Phase where
  /-- It waits in `lock_owned`. -/
  | waiting
  /-- Its guard is alive. -/
  | holding
  /-- Its guard has unlocked the mutex, and still refers to it. -/
  | leaving
  deriving DecidableEq, Repr

/-- The strong reference of a call of `lock`. -/
structure Reference where
  sha256 : Str
  mutex : MutexId
  phase : Phase
  deriving DecidableEq, Repr

/-- The table, and the strong references to its mutexes: one for each call of `lock` that is not over. -/
structure LockTable where
  locks : AList fun _ : Str => MutexId
  calls : AList fun _ : Tid => Reference
  /-- The number of mutexes that were allocated. -/
  allocated : MutexId

/-- `BlobMutationLocks::default`. -/
def LockTable.default : LockTable :=
  ⟨∅, ∅, 0⟩

/-- Whether there is a strong reference to a mutex: `strong_count() > 0`. -/
def LockTable.alive (st : LockTable) (mutex : MutexId) : Bool :=
  st.calls.entries.any fun e => e.2.mutex = mutex

/-- `Weak::upgrade`. -/
def LockTable.upgrade (st : LockTable) (mutex : MutexId) : Option MutexId :=
  if st.alive mutex then some mutex else none

/-- Whether a mutex is locked. -/
def LockTable.locked (st : LockTable) (mutex : MutexId) : Bool :=
  st.calls.entries.any fun e => e.2.mutex = mutex && e.2.phase = .holding

/-- The critical section of `lock`: it forgets the mutexes without strong references, and refers to the mutex of the hash, which it makes
if there is none. -/
def LockTable.lock (st : LockTable) (t : Tid) (sha256 : Str) : LockTable :=
  let locks := retain (fun _ mutex => st.alive mutex) st.locks
  match (locks.lookup sha256).bind st.upgrade with
  | some mutex => { st with locks := locks, calls := st.calls.insert t ⟨sha256, mutex, .waiting⟩ }
  | none =>
    { locks := locks.insert sha256 st.allocated
      calls := st.calls.insert t ⟨sha256, st.allocated, .waiting⟩
      allocated := st.allocated + 1 }

/-- The steps of the calls of `lock` and of their guards. -/
inductive Step : LockTable → LockTable → Prop
  /-- A call enters the critical section of `lock`. -/
  | lock {st} {t : Tid} (sha256 : Str) (ht : st.calls.lookup t = none) : Step st (st.lock t sha256)
  /-- A call that waits gets the mutex. -/
  | acquire {st t r} (ht : st.calls.lookup t = some r) (hw : r.phase = .waiting) (hf : st.locked r.mutex = false) :
      Step st { st with calls := st.calls.insert t { r with phase := .holding } }
  /-- A guard is dropped: it unlocks the mutex. -/
  | unlock {st t r} (ht : st.calls.lookup t = some r) (hh : r.phase = .holding) :
      Step st { st with calls := st.calls.insert t { r with phase := .leaving } }
  /-- The strong reference of a dropped guard, or of a call that was dropped while it waited, is dropped. -/
  | release {st t r} (ht : st.calls.lookup t = some r) (hh : r.phase ≠ .holding) :
      Step st { st with calls := st.calls.erase t }

/-- The tables that any interleaving of calls leads to. -/
inductive Reachable : LockTable → Prop
  | default : Reachable .default
  | step {st st'} (h : Reachable st) (hs : Step st st') : Reachable st'

/-! ## Strong references -/

section

variable {st : LockTable} {t : Tid} {r : Reference} {sha256 : Str} {mutex : MutexId}

/-- A mutex is alive when a call refers to it. -/
theorem alive_iff : st.alive mutex = true ↔ ∃ t r, st.calls.lookup t = some r ∧ r.mutex = mutex := by
  unfold LockTable.alive
  rw [List.any_eq_true]
  constructor
  · rintro ⟨⟨t, r⟩, hmem, hr⟩
    exact ⟨t, r, AList.mem_lookup_iff.2 hmem, of_decide_eq_true hr⟩
  · rintro ⟨t, r, ht, rfl⟩
    exact ⟨⟨t, r⟩, AList.mem_lookup_iff.1 ht, decide_eq_true rfl⟩

/-- A mutex is locked when a call holds it. -/
theorem locked_iff : st.locked mutex = true ↔ ∃ t r, st.calls.lookup t = some r ∧ r.mutex = mutex ∧ r.phase = .holding := by
  unfold LockTable.locked
  rw [List.any_eq_true]
  constructor
  · rintro ⟨⟨t, r⟩, hmem, hr⟩
    simp only [Bool.and_eq_true, decide_eq_true_eq] at hr
    exact ⟨t, r, AList.mem_lookup_iff.2 hmem, hr⟩
  · rintro ⟨t, r, ht, hm, hp⟩
    refine ⟨⟨t, r⟩, AList.mem_lookup_iff.1 ht, ?_⟩
    simp only [Bool.and_eq_true, decide_eq_true_eq]
    exact ⟨hm, hp⟩

/-- A call refers to the mutex that the table has for its hash, or makes a new one when no call of the hash refers to one. -/
theorem lock_cases (st : LockTable) (t : Tid) (sha256 : Str) :
    (∃ mutex, st.locks.lookup sha256 = some mutex ∧ st.alive mutex = true ∧
      st.lock t sha256 = { st with
        locks := retain (fun _ mutex => st.alive mutex) st.locks
        calls := st.calls.insert t ⟨sha256, mutex, .waiting⟩ }) ∨
    ((∀ mutex, st.locks.lookup sha256 = some mutex → st.alive mutex = false) ∧
      st.lock t sha256 =
        ⟨(retain (fun _ mutex => st.alive mutex) st.locks).insert sha256 st.allocated,
          st.calls.insert t ⟨sha256, st.allocated, .waiting⟩, st.allocated + 1⟩) := by
  unfold LockTable.lock
  cases hl : (retain (fun _ mutex => st.alive mutex) st.locks).lookup sha256 with
  | none =>
    refine .inr ⟨fun mutex hm => ?_, by simp only [hl, Option.bind_none]⟩
    cases ha : st.alive mutex with
    | false => rfl
    | true =>
      have hkept := (lookup_retain_eq_some (p := fun _ mutex => st.alive mutex)).2 ⟨hm, ha⟩
      nomatch hl.symm.trans hkept
  | some mutex =>
    obtain ⟨hm, ha⟩ := (lookup_retain_eq_some (p := fun _ mutex => st.alive mutex)).1 hl
    refine .inl ⟨mutex, hm, ha, ?_⟩
    simp only [hl, Option.bind_some, LockTable.upgrade, ha, if_true]

end

end Almond.MutationLocks
