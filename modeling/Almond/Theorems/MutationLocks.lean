import Almond.MutationLocks
import Almond.Conc.System

/-! # Mutual exclusion of the guards of one hash -/

namespace Almond.MutationLocks

open Conc

/-- What holds of every table that the calls lead to. -/
structure Shared (st : LockTable) : Prop where
  /-- Every call refers to the mutex that the table has for its hash. -/
  table : ∀ t r, st.calls.lookup t = some r → st.locks.lookup r.sha256 = some r.mutex
  /-- The table has a mutex that a call refers to for the hash of the call only. -/
  apart : ∀ key t r, st.locks.lookup key = some r.mutex → st.calls.lookup t = some r → r.sha256 = key
  /-- The mutexes of the table were allocated. -/
  known : ∀ key mutex, st.locks.lookup key = some mutex → mutex < st.allocated
  /-- At most one call holds a mutex. -/
  exclusive : ∀ t t' r r', st.calls.lookup t = some r → st.calls.lookup t' = some r' → r.phase = .holding → r'.phase = .holding →
    r.mutex = r'.mutex → t = t'

section

variable {st st' : LockTable} {t : Tid} {r : Reference} {sha256 : Str}

/-- The call that holds a mutex after a call has come that does not hold one. -/
theorem Shared.exclusive_insert (h : Shared st) (hr : r.phase ≠ .holding) {t₁ t₂ : Tid} {r₁ r₂ : Reference}
    (h₁ : (st.calls.insert t r).lookup t₁ = some r₁) (h₂ : (st.calls.insert t r).lookup t₂ = some r₂) (hp₁ : r₁.phase = .holding)
    (hp₂ : r₂.phase = .holding) (hm : r₁.mutex = r₂.mutex) : t₁ = t₂ := by
  rcases Maps.lookup_insert_cases h₁ with ⟨_, rfl⟩ | ⟨_, h₁⟩
  · exact absurd hp₁ hr
  · rcases Maps.lookup_insert_cases h₂ with ⟨_, rfl⟩ | ⟨_, h₂⟩
    · exact absurd hp₂ hr
    · exact h.exclusive t₁ t₂ r₁ r₂ h₁ h₂ hp₁ hp₂ hm

/-- The critical section of `lock` keeps the mutexes shared: it prunes no mutex that a call refers to. -/
theorem Shared.lock (h : Shared st) (t : Tid) (sha256 : Str) : Shared (st.lock t sha256) := by
  have hpruned : ∀ {key mutex}, (retain (fun _ mutex => st.alive mutex) st.locks).lookup key = some mutex →
      st.locks.lookup key = some mutex := fun hk => ((lookup_retain_eq_some (p := fun _ mutex => st.alive mutex)).1 hk).1
  have hkept : ∀ t r, st.calls.lookup t = some r →
      (retain (fun _ mutex => st.alive mutex) st.locks).lookup r.sha256 = some r.mutex := by
    intro t r hr
    exact (lookup_retain_eq_some (p := fun _ mutex => st.alive mutex)).2 ⟨h.table t r hr, alive_iff.2 ⟨t, r, hr, rfl⟩⟩
  rcases lock_cases st t sha256 with ⟨mutex, hm, ha, he⟩ | ⟨hdead, he⟩
  · -- Some call refers to the mutex, so the table has it for one hash.
    obtain ⟨t₀, r₀, hr₀, rfl⟩ := alive_iff.1 ha
    rw [he]
    refine ⟨?_, ?_, fun key mutex hk => h.known key mutex (hpruned hk), fun _ _ _ _ => h.exclusive_insert (by rintro ⟨⟩)⟩
    · intro t' r' hr'
      rcases Maps.lookup_insert_cases hr' with ⟨_, rfl⟩ | ⟨_, hr'⟩
      · exact (lookup_retain_eq_some (p := fun _ mutex => st.alive mutex)).2 ⟨hm, ha⟩
      · exact hkept t' r' hr'
    · intro key t' r' hk hr'
      rcases Maps.lookup_insert_cases hr' with ⟨_, rfl⟩ | ⟨_, hr'⟩
      · have hkey := h.apart key t₀ r₀ (hpruned hk) hr₀
        have hsha := h.apart sha256 t₀ r₀ hm hr₀
        exact hsha.symm.trans hkey
      · exact h.apart key t' r' (hpruned hk) hr'
  · -- No call of the hash refers to a mutex, so the new one is the only one of the hash.
    have hne : ∀ t r, st.calls.lookup t = some r → r.sha256 ≠ sha256 := by
      rintro t r hr rfl
      have halive := alive_iff.2 ⟨t, r, hr, rfl⟩
      exact Bool.false_ne_true ((hdead r.mutex (h.table t r hr)).symm.trans halive)
    have hlookup : ∀ {key mutex}, ((retain (fun _ mutex => st.alive mutex) st.locks).insert sha256 st.allocated).lookup key = some mutex →
        key = sha256 ∧ mutex = st.allocated ∨ st.locks.lookup key = some mutex := by
      intro key mutex hk
      by_cases hkey : key = sha256
      · subst hkey
        rw [AList.lookup_insert] at hk
        exact .inl ⟨rfl, (Option.some.inj hk).symm⟩
      · rw [AList.lookup_insert_ne hkey] at hk
        exact .inr (hpruned hk)
    rw [he]
    refine ⟨?_, ?_, ?_, fun _ _ _ _ => h.exclusive_insert (by rintro ⟨⟩)⟩
    · intro t' r' hr'
      rcases Maps.lookup_insert_cases hr' with ⟨_, rfl⟩ | ⟨_, hr'⟩
      · exact AList.lookup_insert ..
      · simp only [AList.lookup_insert_ne (hne t' r' hr')]
        exact hkept t' r' hr'
    · intro key t' r' hk hr'
      rcases Maps.lookup_insert_cases hr' with ⟨_, rfl⟩ | ⟨_, hr'⟩
      · rcases hlookup hk with ⟨hkey, _⟩ | hk
        · exact hkey.symm
        · exact absurd (h.known key _ hk) (Nat.lt_irrefl _)
      · rcases hlookup hk with ⟨_, hm⟩ | hk
        · have hlt := h.known r'.sha256 r'.mutex (h.table t' r' hr')
          exact absurd (hm ▸ hlt) (Nat.lt_irrefl _)
        · exact h.apart key t' r' hk hr'
    · intro key mutex hk
      rcases hlookup hk with ⟨_, rfl⟩ | hk
      · exact Nat.lt_succ_self _
      · exact Nat.lt_succ_of_lt (h.known key mutex hk)

/-- A call that goes on to another phase keeps the mutexes shared, when no other call holds the mutex that it gets. -/
theorem Shared.move (h : Shared st) (ht : st.calls.lookup t = some r) (phase : Phase)
    (hfree : phase = .holding → st.locked r.mutex = false) :
    Shared { st with calls := st.calls.insert t { r with phase := phase } } := by
  refine ⟨?_, ?_, h.known, ?_⟩
  · intro t' r' hr'
    rcases Maps.lookup_insert_cases hr' with ⟨_, rfl⟩ | ⟨_, hr'⟩
    · exact h.table t r ht
    · exact h.table t' r' hr'
  · intro key t' r' hk hr'
    rcases Maps.lookup_insert_cases hr' with ⟨_, rfl⟩ | ⟨_, hr'⟩
    · exact h.apart key t r hk ht
    · exact h.apart key t' r' hk hr'
  · have hnone : phase = .holding → ∀ {t' r'}, st.calls.lookup t' = some r' → r'.phase = .holding → r'.mutex ≠ r.mutex := by
      intro hp t' r' hr' hp' hm
      exact Bool.false_ne_true ((hfree hp).symm.trans (locked_iff.2 ⟨t', r', hr', hm, hp'⟩))
    intro t₁ t₂ r₁ r₂ h₁ h₂ hp₁ hp₂ hm
    rcases Maps.lookup_insert_cases h₁ with ⟨ht₁, rfl⟩ | ⟨_, h₁⟩
    · rcases Maps.lookup_insert_cases h₂ with ⟨ht₂, rfl⟩ | ⟨_, h₂⟩
      · exact ht₁.trans ht₂.symm
      · exact absurd hm.symm (hnone hp₁ h₂ hp₂)
    · rcases Maps.lookup_insert_cases h₂ with ⟨_, rfl⟩ | ⟨_, h₂⟩
      · exact absurd hm (hnone hp₂ h₁ hp₁)
      · exact h.exclusive t₁ t₂ r₁ r₂ h₁ h₂ hp₁ hp₂ hm

/-- Every step keeps the mutexes shared. -/
theorem Shared.step (h : Shared st) (hs : Step st st') : Shared st' := by
  cases hs with
  | lock sha256 ht => exact h.lock _ sha256
  | acquire ht hw hf => exact h.move ht .holding fun _ => hf
  | unlock ht hh => exact h.move ht .leaving (by rintro ⟨⟩)
  | release ht hh =>
    refine ⟨fun t' r' hr' => ?_, fun key t' r' hk hr' => ?_, h.known, fun t₁ t₂ r₁ r₂ h₁ h₂ => ?_⟩
    · exact h.table t' r' (Maps.lookup_erase_cases hr').2
    · exact h.apart key t' r' hk (Maps.lookup_erase_cases hr').2
    · exact h.exclusive t₁ t₂ r₁ r₂ (Maps.lookup_erase_cases h₁).2 (Maps.lookup_erase_cases h₂).2

/-- In every table that calls lead to, the mutexes are shared. -/
theorem shared_of_reachable (h : Reachable st) : Shared st := by
  induction h with
  | default => exact ⟨fun _ _ hr => (nomatch hr), fun _ _ _ hk => (nomatch hk), fun _ _ hk => (nomatch hk), fun _ _ _ _ h₁ => (nomatch h₁)⟩
  | step _ hs ih => exact ih.step hs

end

/-- Whatever the calls of `lock` do, two of them never hold a guard of one hash at once: every call of a hash, whether it waits or holds a
guard, refers to the one mutex that the table can upgrade to. -/
theorem guards_exclude {st : LockTable} (h : Reachable st) :
    (∀ t t' r r', st.calls.lookup t = some r → st.calls.lookup t' = some r' → r.phase = .holding → r'.phase = .holding →
      r.sha256 = r'.sha256 → t = t') ∧
    ∀ t r, st.calls.lookup t = some r → (st.locks.lookup r.sha256).bind st.upgrade = some r.mutex := by
  have hs := shared_of_reachable h
  constructor
  · intro t t' r r' hr hr' hp hp' hsha
    have hm := hs.table t r hr
    rw [hsha, hs.table t' r' hr'] at hm
    exact hs.exclusive t t' r r' hr hr' hp hp' (Option.some.inj hm).symm
  · intro t r hr
    have ha : st.alive r.mutex = true := alive_iff.2 ⟨t, r, hr, rfl⟩
    rw [hs.table t r hr, Option.bind_some, LockTable.upgrade, if_pos ha]

/-- A call that came while a guard of its hash was held gets the mutex after the guard was dropped, though the table was pruned between. -/
theorem guards_exclude_handover :
    ∃ st, Reachable st ∧ (∃ r, st.calls.lookup 1 = some r ∧ r.phase = .holding) ∧
      (∀ t t' r r', st.calls.lookup t = some r → st.calls.lookup t' = some r' → r.phase = .holding → r'.phase = .holding →
        r.sha256 = r'.sha256 → t = t') ∧
      ∀ t r, st.calls.lookup t = some r → (st.locks.lookup r.sha256).bind st.upgrade = some r.mutex := by
  have h₀ : Reachable ((LockTable.default.lock 0 ['a']).lock 1 ['a']) := .step (.step .default (.lock ['a'] rfl)) (.lock ['a'] rfl)
  have h₁ := h₀.step (.acquire (t := 0) (r := ⟨['a'], 0, .waiting⟩) rfl rfl rfl)
  have h₂ := h₁.step (.unlock (t := 0) (r := ⟨['a'], 0, .holding⟩) rfl rfl)
  have h₃ := h₂.step (.release (t := 0) (r := ⟨['a'], 0, .leaving⟩) rfl nofun)
  have h₄ := h₃.step (.lock (t := 2) ['b'] rfl)
  have h₅ := h₄.step (.acquire (t := 1) (r := ⟨['a'], 0, .waiting⟩) rfl rfl rfl)
  exact ⟨_, h₅, ⟨⟨['a'], 0, .holding⟩, rfl, rfl⟩, guards_exclude h₅⟩

end Almond.MutationLocks
