import Almond.Data.Maps
import Mathlib.Logic.Function.Basic

/-! # Tables of shared handles

A table has at most one handle for a key. Whoever registers a handle gets its guard. A guard that is finished publishes a last phase and
then removes the handle; a guard that is dropped leaves the removal to a task of its own. A removal removes the handle it is for and no
other one, since it compares identities. -/

namespace Conc

/-- The identity of a handle. Identities are never reused. -/
abbrev HandleId := Nat

/-- A guard that is alive: the key it was made for, and whether it is being finished. -/
structure Guard (κ : Type) where
  key : κ
  finishing : Bool
  deriving DecidableEq, Repr

/-- A table of handles, with the phases that the handles show, the guards that are alive and the removals that dropped guards left. -/
structure Handles (κ φ : Type) where
  entries : AList fun _ : κ => HandleId
  phase : HandleId → φ
  guards : AList fun _ : HandleId => Guard κ
  removals : List (κ × HandleId)
  next : HandleId

namespace Handles

variable {κ φ : Type} [DecidableEq κ]

/-- A table without handles. -/
def empty (initial : φ) : Handles κ φ :=
  ⟨∅, fun _ => initial, ∅, [], 0⟩

/-- A new handle takes the place that its key has in the table. -/
def register (initial : φ) (h : Handles κ φ) (key : κ) : Handles κ φ where
  entries := h.entries.insert key h.next
  phase := Function.update h.phase h.next initial
  guards := h.guards.insert h.next ⟨key, false⟩
  removals := h.removals
  next := h.next + 1

/-- The table with another phase of a handle. -/
def send (h : Handles κ φ) (id : HandleId) (phase : φ) : Handles κ φ :=
  { h with phase := Function.update h.phase id phase }

/-- A handle is removed, unless another one has its place. -/
def remove (h : Handles κ φ) (key : κ) (id : HandleId) : Handles κ φ :=
  if h.entries.lookup key = some id then { h with entries := h.entries.erase key } else h

/-- The first half of finishing a guard: it publishes the last phase. -/
def beginFinish (h : Handles κ φ) (id : HandleId) (key : κ) (phase : φ) : Handles κ φ :=
  { h.send id phase with guards := h.guards.insert id ⟨key, true⟩ }

/-- The second half of finishing a guard: it removes the handle. -/
def endFinish (h : Handles κ φ) (id : HandleId) (key : κ) : Handles κ φ :=
  { h.remove key id with guards := h.guards.erase id }

/-- A guard is dropped: it publishes a phase and leaves the removal to a task. -/
def dropGuard (onDrop : φ → φ) (h : Handles κ φ) (id : HandleId) (key : κ) : Handles κ φ :=
  { h.send id (onDrop (h.phase id)) with guards := h.guards.erase id, removals := (key, id) :: h.removals }

/-- A task that a dropped guard left removes the handle. -/
def runRemoval (h : Handles κ φ) (id : HandleId) (key : κ) : Handles κ φ :=
  { h.remove key id with removals := h.removals.erase (key, id) }

/-- A guard is finished as far as its last phase, if it is alive. -/
def finish (h : Handles κ φ) (id : HandleId) (phase : φ) : Handles κ φ :=
  (h.guards.lookup id).elim h fun g => h.beginFinish id g.key phase

/-- A guard is dropped, if it is alive. -/
def abandon (onDrop : φ → φ) (h : Handles κ φ) (id : HandleId) : Handles κ φ :=
  (h.guards.lookup id).elim h fun g => h.dropGuard onDrop id g.key

/-- What is done with the guard of a handle. No phase that is published is the initial one. -/
inductive Step (initial : φ) (onDrop : φ → φ) (id : HandleId) : Handles κ φ → Handles κ φ → Prop
  /-- Its owner publishes a phase. -/
  | send {h key} (hg : h.guards.lookup id = some ⟨key, false⟩) (phase : φ) (hp : phase ≠ initial) : Step initial onDrop id h (h.send id phase)
  | beginFinish {h key} (hg : h.guards.lookup id = some ⟨key, false⟩) (phase : φ) (hp : phase ≠ initial) :
      Step initial onDrop id h (h.beginFinish id key phase)
  | endFinish {h key} (hg : h.guards.lookup id = some ⟨key, true⟩) : Step initial onDrop id h (h.endFinish id key)
  /-- A guard can be dropped while it is being finished. -/
  | drop {h g} (hg : h.guards.lookup id = some g) : Step initial onDrop id h (h.dropGuard onDrop id g.key)
  | removal {h key} (hm : (key, id) ∈ h.removals) : Step initial onDrop id h (h.runRemoval id key)

/-- What holds of every table. -/
structure Tracked (initial : φ) (h : Handles κ φ) : Prop where
  /-- Identities were given out before. -/
  known : ∀ key id, h.entries.lookup key = some id → id < h.next
  guarded : ∀ id g, h.guards.lookup id = some g → id < h.next
  /-- A guard that leaves a removal is gone. -/
  gone : ∀ key id, (key, id) ∈ h.removals → id < h.next ∧ h.guards.lookup id = none
  /-- A guard that is being finished has published a phase. -/
  ended : ∀ id g, h.guards.lookup id = some g → g.finishing = true → h.phase id ≠ initial
  /-- A handle of the table has a guard, or a removal is to come. -/
  owned : ∀ key id, h.entries.lookup key = some id → (∃ g, h.guards.lookup id = some g ∧ g.key = key) ∨ (key, id) ∈ h.removals

/-- The handles whose guard is alive are in the table as long as they show the initial phase. -/
def Registered (initial : φ) (h : Handles κ φ) : Prop :=
  ∀ id g, h.guards.lookup id = some g → h.phase id = initial → h.entries.lookup g.key = some id

/-! ## Removal by identity -/

section

variable {h : Handles κ φ} {key key' : κ} {id id' : HandleId} {initial : φ} {onDrop : φ → φ}

/-- A removal leaves only handles that were there. -/
theorem lookup_of_remove (hl : (h.remove key id).entries.lookup key' = some id') : h.entries.lookup key' = some id' := by
  unfold remove at hl
  split at hl
  · by_cases hk : key' = key
    · subst hk
      rw [AList.lookup_erase] at hl
      nomatch hl
    · rwa [AList.lookup_erase_ne hk] at hl
  · exact hl

/-- A removal leaves the handles with another identity. -/
theorem lookup_remove_of_ne (hl : h.entries.lookup key' = some id') (hne : id' ≠ id) :
    (h.remove key id).entries.lookup key' = some id' := by
  unfold remove
  split
  · next hk =>
    have hkey : key' ≠ key := by
      rintro rfl
      exact hne (Option.some.inj (hl.symm.trans hk))
    simp only [AList.lookup_erase_ne hkey]
    exact hl
  · exact hl

/-- After a removal its handle does not have its key. -/
theorem lookup_remove_ne (h : Handles κ φ) (key : κ) (id : HandleId) : (h.remove key id).entries.lookup key ≠ some id := by
  unfold remove
  split
  · simp only [AList.lookup_erase]
    exact nofun
  · next hk => exact hk

@[simp] theorem remove_phase : (h.remove key id).phase = h.phase := by
  unfold remove
  split <;> rfl

@[simp] theorem remove_guards : (h.remove key id).guards = h.guards := by
  unfold remove
  split <;> rfl

@[simp] theorem remove_removals : (h.remove key id).removals = h.removals := by
  unfold remove
  split <;> rfl

@[simp] theorem remove_next : (h.remove key id).next = h.next := by
  unfold remove
  split <;> rfl

/-- What is done with the guard of a handle does not remove another handle. -/
theorem Step.lookup_of_ne {h' : Handles κ φ} (hs : Step initial onDrop id h h') (hl : h.entries.lookup key = some id') (hne : id' ≠ id) :
    h'.entries.lookup key = some id' := by
  cases hs with
  | send => exact hl
  | beginFinish => exact hl
  | endFinish => exact lookup_remove_of_ne hl hne
  | drop => exact hl
  | removal => exact lookup_remove_of_ne hl hne

/-- What is done with a guard adds no handle to the table. -/
theorem Step.lookup {h' : Handles κ φ} (hs : Step initial onDrop id h h') (hl : h'.entries.lookup key = some id') :
    h.entries.lookup key = some id' := by
  cases hs with
  | send => exact hl
  | beginFinish => exact hl
  | endFinish => exact lookup_of_remove hl
  | drop => exact hl
  | removal => exact lookup_of_remove hl

/-- What is done with the guard of a handle changes the phase of no other handle. -/
theorem Step.phase_of_ne {h' : Handles κ φ} (hs : Step initial onDrop id h h') (hne : id' ≠ id) : h'.phase id' = h.phase id' := by
  cases hs with
  | send _ phase => exact Function.update_of_ne hne ..
  | beginFinish _ phase => exact Function.update_of_ne hne ..
  | endFinish => exact congrFun remove_phase id'
  | drop => exact Function.update_of_ne hne ..
  | removal => exact congrFun remove_phase id'

/-- A handle never shows the initial phase again. -/
theorem Step.phase_eq_initial {h' : Handles κ φ} (hd : ∀ p, onDrop p ≠ initial) (hs : Step initial onDrop id h h') (hp : h'.phase id' = initial) :
    h.phase id' = initial := by
  by_cases hne : id' = id
  · subst hne
    cases hs with
    | send _ phase hphase => exact absurd ((Function.update_self ..).symm.trans hp) hphase
    | beginFinish _ phase hphase => exact absurd ((Function.update_self ..).symm.trans hp) hphase
    | endFinish => exact (congrFun remove_phase _).symm.trans hp
    | drop => exact absurd ((Function.update_self ..).symm.trans hp) (hd _)
    | removal => exact (congrFun remove_phase _).symm.trans hp
  · exact (hs.phase_of_ne hne).symm.trans hp

/-- What is done with a guard makes no other guard. -/
theorem Step.guard {h' : Handles κ φ} {g : Guard κ} (hs : Step initial onDrop id h h') (hg : h'.guards.lookup id' = some g) :
    ∃ g', h.guards.lookup id' = some g' ∧ g'.key = g.key := by
  cases hs with
  | send => exact ⟨g, hg, rfl⟩
  | beginFinish hg₀ =>
    rcases Maps.lookup_insert_cases hg with ⟨rfl, rfl⟩ | ⟨_, hg⟩
    · exact ⟨_, hg₀, rfl⟩
    · exact ⟨g, hg, rfl⟩
  | endFinish =>
    simp only [Handles.endFinish] at hg
    exact ⟨g, (Maps.lookup_erase_cases hg).2, rfl⟩
  | drop => exact ⟨g, (Maps.lookup_erase_cases hg).2, rfl⟩
  | removal =>
    simp only [Handles.runRemoval, remove_guards] at hg
    exact ⟨g, hg, rfl⟩

/-- What is done with the guard of a handle leaves the guards of other handles. -/
theorem Step.guard_of_ne {h' : Handles κ φ} (hs : Step initial onDrop id h h') (hne : id' ≠ id) :
    h'.guards.lookup id' = h.guards.lookup id' := by
  cases hs with
  | send => rfl
  | beginFinish => exact AList.lookup_insert_ne hne
  | endFinish =>
    exact AList.lookup_erase_ne hne
  | drop => exact AList.lookup_erase_ne hne
  | removal => exact congrArg (fun m => AList.lookup id' m) remove_guards

end

/-! ## The invariants -/

section

variable {h h' : Handles κ φ} {key : κ} {id : HandleId} {initial : φ} {onDrop : φ → φ}

/-- A table without handles. -/
theorem tracked_empty (initial : φ) : Tracked initial (empty initial : Handles κ φ) :=
  ⟨fun _ _ hl => (nomatch hl), fun _ _ hl => (nomatch hl), fun _ _ hm => (nomatch hm), fun _ _ hl => (nomatch hl), fun _ _ hl => (nomatch hl)⟩

/-- A handle that is registered has a guard. -/
theorem Tracked.register (ht : Tracked initial h) (key : κ) : Tracked initial (h.register initial key) := by
  refine ⟨fun key' id' hl => ?_, fun id' g hg => ?_, fun key' id' hm => ?_, fun id' g hg hf => ?_, fun key' id' hl => ?_⟩
  · rcases Maps.lookup_insert_cases hl with ⟨_, rfl⟩ | ⟨_, hl⟩
    · exact Nat.lt_succ_self _
    · exact Nat.lt_succ_of_lt (ht.known key' id' hl)
  · rcases Maps.lookup_insert_cases hg with ⟨rfl, _⟩ | ⟨_, hg⟩
    · exact Nat.lt_succ_self _
    · exact Nat.lt_succ_of_lt (ht.guarded id' g hg)
  · obtain ⟨hlt, hnone⟩ := ht.gone key' id' hm
    exact ⟨Nat.lt_succ_of_lt hlt, (AList.lookup_insert_ne (Nat.ne_of_lt hlt)).trans hnone⟩
  · rcases Maps.lookup_insert_cases hg with ⟨_, rfl⟩ | ⟨hne, hg⟩
    · nomatch hf
    · have hphase : (h.register initial key).phase id' = h.phase id' := Function.update_of_ne hne ..
      rw [hphase]
      exact ht.ended id' g hg hf
  · rcases Maps.lookup_insert_cases hl with ⟨rfl, rfl⟩ | ⟨_, hl⟩
    · exact .inl ⟨⟨key', false⟩, AList.lookup_insert .., rfl⟩
    · have hne : id' ≠ h.next := Nat.ne_of_lt (ht.known key' id' hl)
      simp only [Handles.register, AList.lookup_insert_ne hne]
      exact ht.owned key' id' hl

/-- A guard publishes a phase. -/
theorem Tracked.send (ht : Tracked initial h) (id : HandleId) {phase : φ} (hp : phase ≠ initial) : Tracked initial (h.send id phase) := by
  refine ⟨ht.known, ht.guarded, ht.gone, fun id' g hg hf => ?_, ht.owned⟩
  by_cases hne : id' = id
  · subst hne
    exact fun hp' => hp ((Function.update_self ..).symm.trans hp')
  · exact fun hp' => ht.ended id' g hg hf ((Function.update_of_ne hne ..).symm.trans hp')

/-- A guard begins to be finished. -/
theorem Tracked.beginFinish (ht : Tracked initial h) (hg : h.guards.lookup id = some ⟨key, false⟩) {phase : φ} (hp : phase ≠ initial) :
    Tracked initial (h.beginFinish id key phase) := by
  have hsent := ht.send id hp
  refine ⟨ht.known, fun id' g' hg' => ?_, fun key' id' hm => ?_, fun id' g' hg' hf => ?_, fun key' id' hl => ?_⟩
  · rcases Maps.lookup_insert_cases hg' with ⟨rfl, _⟩ | ⟨_, hg'⟩
    · exact ht.guarded _ _ hg
    · exact ht.guarded id' g' hg'
  · obtain ⟨hlt, hnone⟩ := ht.gone key' id' hm
    have hne : id' ≠ id := by
      rintro rfl
      nomatch hg.symm.trans hnone
    exact ⟨hlt, (AList.lookup_insert_ne hne).trans hnone⟩
  · rcases Maps.lookup_insert_cases hg' with ⟨rfl, _⟩ | ⟨_, hg'⟩
    · exact fun hp' => hp ((Function.update_self ..).symm.trans hp')
    · exact hsent.ended id' g' hg' hf
  · rcases ht.owned key' id' hl with ⟨g', hg', hkey⟩ | hm
    · by_cases hne : id' = id
      · subst hne
        obtain rfl : ⟨key, false⟩ = g' := Option.some.inj (hg.symm.trans hg')
        exact .inl ⟨⟨key, true⟩, AList.lookup_insert .., hkey⟩
      · exact .inl ⟨g', (AList.lookup_insert_ne hne).trans hg', hkey⟩
    · exact .inr hm

/-- A guard is finished. -/
theorem Tracked.endFinish (ht : Tracked initial h) (hg : h.guards.lookup id = some ⟨key, true⟩) : Tracked initial (h.endFinish id key) := by
  refine ⟨fun key' id' hl => ?_, fun id' g' hg' => ?_, fun key' id' hm => ?_, fun id' g' hg' hf => ?_, fun key' id' hl => ?_⟩
  · simp only [Handles.endFinish, remove_next]
    exact ht.known key' id' (lookup_of_remove hl)
  · simp only [Handles.endFinish, remove_next]
    exact ht.guarded id' g' (Maps.lookup_erase_cases hg').2
  · simp only [Handles.endFinish, remove_removals] at hm
    obtain ⟨hlt, hnone⟩ := ht.gone key' id' hm
    have hne : id' ≠ id := by
      rintro rfl
      nomatch hg.symm.trans hnone
    simp only [Handles.endFinish, remove_next]
    exact ⟨hlt, (AList.lookup_erase_ne hne).trans hnone⟩
  · simp only [Handles.endFinish, remove_phase]
    exact ht.ended id' g' (Maps.lookup_erase_cases hg').2 hf
  · rcases ht.owned key' id' (lookup_of_remove hl) with ⟨g', hg', hkey⟩ | hm
    · by_cases hne : id' = id
      · subst hne
        obtain rfl : ⟨key, true⟩ = g' := Option.some.inj (hg.symm.trans hg')
        obtain rfl : key = key' := hkey
        exact absurd hl (lookup_remove_ne h key id')
      · exact .inl ⟨g', (AList.lookup_erase_ne hne).trans hg', hkey⟩
    · refine .inr ?_
      simp only [Handles.endFinish, remove_removals]
      exact hm

/-- A guard is dropped. -/
theorem Tracked.dropGuard (ht : Tracked initial h) (hd : ∀ p, onDrop p ≠ initial) {g : Guard κ} (hg : h.guards.lookup id = some g) :
    Tracked initial (h.dropGuard onDrop id g.key) := by
  have hsent := ht.send id (hd (h.phase id))
  refine ⟨ht.known, fun id' g' hg' => ?_, fun key' id' hm => ?_, fun id' g' hg' hf => ?_, fun key' id' hl => ?_⟩
  · exact ht.guarded id' g' (Maps.lookup_erase_cases hg').2
  · rcases List.mem_cons.1 hm with he | hm
    · cases he
      exact ⟨ht.guarded _ _ hg, AList.lookup_erase ..⟩
    · obtain ⟨hlt, hnone⟩ := ht.gone key' id' hm
      have hne : id' ≠ id := by
        rintro rfl
        nomatch hg.symm.trans hnone
      exact ⟨hlt, (AList.lookup_erase_ne hne).trans hnone⟩
  · exact hsent.ended id' g' (Maps.lookup_erase_cases hg').2 hf
  · rcases ht.owned key' id' hl with ⟨g', hg', hkey⟩ | hm
    · by_cases hne : id' = id
      · subst hne
        obtain rfl : g = g' := Option.some.inj (hg.symm.trans hg')
        exact .inr (hkey ▸ List.mem_cons_self)
      · exact .inl ⟨g', (AList.lookup_erase_ne hne).trans hg', hkey⟩
    · exact .inr (List.mem_cons_of_mem _ hm)

/-- A removal is done. -/
theorem Tracked.runRemoval (ht : Tracked initial h) : Tracked initial (h.runRemoval id key) := by
  refine ⟨fun key' id' hl => ?_, fun id' g' hg' => ?_, fun key' id' hm => ?_, fun id' g' hg' hf => ?_, fun key' id' hl => ?_⟩
  · simp only [Handles.runRemoval, remove_next]
    exact ht.known key' id' (lookup_of_remove hl)
  · simp only [Handles.runRemoval, remove_guards] at hg'
    simp only [Handles.runRemoval, remove_next]
    exact ht.guarded id' g' hg'
  · simp only [Handles.runRemoval, remove_next, remove_guards]
    exact ht.gone key' id' (List.mem_of_mem_erase hm)
  · simp only [Handles.runRemoval, remove_guards] at hg'
    simp only [Handles.runRemoval, remove_phase]
    exact ht.ended id' g' hg' hf
  · simp only [Handles.runRemoval, remove_guards]
    refine (ht.owned key' id' (lookup_of_remove hl)).imp_right fun hm => ?_
    have hne : (key', id') ≠ (key, id) := by
      intro he
      cases he
      exact lookup_remove_ne _ _ _ hl
    exact (List.mem_erase_of_ne hne).2 hm

/-- What is done with a guard keeps what holds of the table. -/
theorem Tracked.step (ht : Tracked initial h) (hd : ∀ p, onDrop p ≠ initial) (hs : Step initial onDrop id h h') : Tracked initial h' := by
  cases hs with
  | send _ phase hp => exact ht.send id hp
  | beginFinish hg phase hp => exact ht.beginFinish hg hp
  | endFinish hg => exact ht.endFinish hg
  | drop hg => exact ht.dropGuard hd hg
  | removal => exact ht.runRemoval

/-- A key without guards and without removals to come has no handle. -/
theorem Tracked.lookup_eq_none (ht : Tracked initial h) (hg : ∀ id g, h.guards.lookup id = some g → g.key ≠ key)
    (hr : ∀ id, (key, id) ∉ h.removals) : h.entries.lookup key = none := by
  cases hl : h.entries.lookup key with
  | none => rfl
  | some id =>
    rcases ht.owned key id hl with ⟨g, hguard, hkey⟩ | hm
    · exact absurd hkey (hg id g hguard)
    · exact absurd hm (hr id)

/-- A handle that takes the place of none, or of one that does not show the initial phase, leaves the others in the table. -/
theorem Registered.register (hreg : Registered initial h) (hfree : ∀ id, h.entries.lookup key = some id → h.phase id ≠ initial) :
    Registered initial (h.register initial key) := by
  intro id g hg hp
  rcases Maps.lookup_insert_cases hg with ⟨rfl, rfl⟩ | ⟨hne, hg⟩
  · exact AList.lookup_insert ..
  · have hp : h.phase id = initial := (Function.update_of_ne hne ..).symm.trans hp
    have hl := hreg id g hg hp
    have hkey : g.key ≠ key := by
      intro hkey
      exact hfree id (hkey ▸ hl) hp
    exact (AList.lookup_insert_ne hkey).trans hl

/-- What is done with a guard leaves the handles in the table that show the initial phase. -/
theorem Registered.step (hreg : Registered initial h) (ht : Tracked initial h) (hd : ∀ p, onDrop p ≠ initial)
    (hs : Step initial onDrop id h h') : Registered initial h' := by
  intro id' g hg hp
  obtain ⟨g', hg', hkey⟩ := hs.guard hg
  have hp' := hs.phase_eq_initial hd hp
  have hl : h.entries.lookup g.key = some id' := hkey ▸ hreg id' g' hg' hp'
  by_cases hne : id' = id
  · subst hne
    cases hs with
    | send => exact hl
    | beginFinish => exact hl
    | endFinish hg₀ => exact absurd hp' (ht.ended _ _ hg₀ rfl)
    | drop => exact hl
    | removal hm => nomatch hg'.symm.trans (ht.gone _ _ hm).2
  · exact hs.lookup_of_ne hl hne

/-- A key has at most one handle whose guard is alive and which shows the initial phase. -/
theorem Registered.unique (hreg : Registered initial h) {id' : HandleId} {g g' : Guard κ} (hg : h.guards.lookup id = some g)
    (hg' : h.guards.lookup id' = some g') (hp : h.phase id = initial) (hp' : h.phase id' = initial) (hkey : g.key = g'.key) : id = id' := by
  have hl := hreg id g hg hp
  rw [hkey] at hl
  exact Option.some.inj (hl.symm.trans (hreg id' g' hg' hp'))

end

end Handles

end Conc
