import Almond.Conc.System

/-! # A rely–guarantee logic for tasks

A discipline says what holds of the world between any two steps, what a task may expect of the others while it waits, and what it
owes at each of its requests. A task that is verified against it in isolation keeps its promises in every run of a system in which
all tasks are verified. -/

namespace Conc

variable {Req : Type} {Resp : Req → Type} {L Env σ Op Out α β ε : Type}

/-- The rules that the tasks of a system agree on. -/
structure Discipline (Req : Type) (L σ Op : Type) where
  /-- What holds between any two steps. -/
  inv : World L σ → Prop
  /-- What a waiting task can expect the rest of the system to do, besides leaving it its locks. -/
  rely : Tid → World L σ → World L σ → Prop
  /-- What the runs under consideration promise of a request. -/
  assume : World L σ → Tid → Op → Req → Prop
  /-- What a task owes when it issues a request. -/
  allow : World L σ → Tid → Op → Req → Prop
  /-- What a task owes when it gives a lock back. -/
  gives : World L σ → Tid → L → Prop := fun _ _ _ => True
  /-- The operations that the runs under consideration start. -/
  ops : Op → Prop
  /-- When a task may be dropped. -/
  drops : World L σ → Tid → Op → Prop
  /-- Whether the process may crash. -/
  crashes : Prop

namespace Discipline

/-- What a waiting task can expect: its locks stay its own, and the rely holds. -/
def Expects (D : Discipline Req L σ Op) (t : Tid) (w w' : World L σ) : Prop :=
  (∀ l, w.owner l = some t → w'.owner l = some t) ∧ D.rely t w w'

/-- The promise of the runs under consideration, for one step. -/
def ok (D : Discipline Req L σ Op) (c : Sys Req Resp L σ Op Out) : Label Req Resp L Op Out → Prop
  | .spawned _ op => D.ops op
  | .called t op r _ => D.assume c.world t op r
  | .dropped t op => D.drops c.world t op
  | .crashed => D.crashes
  | _ => True

end Discipline

section

variable [DecidableEq L] (M : Machine Req Resp L Env σ Op Out) (D : Discipline Req L σ Op) (t : Tid) (op : Op)

/-- The weakest precondition of a task under a discipline: from this world on, whatever the others do within the rely, the task
issues only allowed requests, gives back only locks it holds, as it owes it, and finishes in `Q`. -/
def wp : Task Req Resp L α → (α → World L σ → Prop) → World L σ → Prop
  | .ret a, Q, w => Q a w
  | .call r k, Q, w => ∀ w', D.Expects t w w' → D.inv w' → D.assume w' t op r → D.allow w' t op r ∧
      ∀ e, D.inv (w'.setStore (M.exec t r e w'.store).2) →
        wp (k (M.exec t r e w'.store).1) Q (w'.setStore (M.exec t r e w'.store).2)
  | .acquire l k, Q, w => ∀ w', D.Expects t w w' → D.inv w' → w'.owner l = none → D.inv (w'.take l t) → wp k Q (w'.take l t)
  | .release l k, Q, w => ∀ w', D.Expects t w w' → D.inv w' →
      w'.owner l = some t ∧ D.gives w' t l ∧ (D.inv (w'.give l) → wp k Q (w'.give l))

end

section

variable [DecidableEq L] {M : Machine Req Resp L Env σ Op Out} {D : Discipline Req L σ Op} {t : Tid} {op : Op}
  {w : World L σ}

/-! ## Rules -/

@[simp] theorem wp_ret (a : α) (Q : α → World L σ → Prop) :
    wp M D t op (Task.ret a : Task Req Resp L α) Q w ↔ Q a w :=
  Iff.rfl

/-- The rule of consequence. -/
theorem wp_mono {Q Q' : α → World L σ → Prop} (h : ∀ a w, Q a w → Q' a w) {p : Task Req Resp L α}
    (hp : wp M D t op p Q w) : wp M D t op p Q' w := by
  induction p generalizing w with
  | ret a => exact h a w hp
  | call r k ih =>
    intro w' hr hi ha
    obtain ⟨hal, hk⟩ := hp w' hr hi ha
    exact ⟨hal, fun e he => ih _ (hk e he)⟩
  | acquire l k ih => exact fun w' hr hi hf ht => ih (hp w' hr hi hf ht)
  | release l k ih =>
    intro w' hr hi
    obtain ⟨ho, hgo, hk⟩ := hp w' hr hi
    exact ⟨ho, hgo, fun hg => ih (hk hg)⟩

/-- The rule of sequencing. -/
theorem wp_bind (p : Task Req Resp L α) (f : α → Task Req Resp L β) (Q : β → World L σ → Prop) :
    wp M D t op (p.bind f) Q w ↔ wp M D t op p (fun a => wp M D t op (f a) Q) w := by
  induction p generalizing w with
  | ret a => exact Iff.rfl
  | call r k ih =>
    refine forall_congr' fun w' => forall_congr' fun _ => forall_congr' fun _ => forall_congr' fun _ => ?_
    exact and_congr Iff.rfl (forall_congr' fun e => forall_congr' fun _ => ih _)
  | acquire l k ih =>
    exact forall_congr' fun w' => forall_congr' fun _ => forall_congr' fun _ => forall_congr' fun _ =>
      forall_congr' fun _ => ih
  | release l k ih =>
    exact forall_congr' fun w' => forall_congr' fun _ => forall_congr' fun _ =>
      and_congr Iff.rfl (and_congr Iff.rfl (forall_congr' fun _ => ih))

/-- A task that starts where the invariant holds finishes where it holds. -/
theorem wp_inv {Q : α → World L σ → Prop} {p : Task Req Resp L α} (hi : D.inv w) (hp : wp M D t op p Q w) :
    wp M D t op p (fun a w => D.inv w ∧ Q a w) w := by
  induction p generalizing w with
  | ret a => exact ⟨hi, hp⟩
  | call r k ih =>
    intro w' hr hi' ha
    obtain ⟨hal, hk⟩ := hp w' hr hi' ha
    exact ⟨hal, fun e he => ih _ he (hk e he)⟩
  | acquire l k ih => exact fun w' hr hi' hf ht => ih ht (hp w' hr hi' hf ht)
  | release l k ih =>
    intro w' hr hi'
    obtain ⟨ho, hgo, hk⟩ := hp w' hr hi'
    exact ⟨ho, hgo, fun hg => ih hg (hk hg)⟩

/-- The rule of one request. -/
theorem wp_call {r : Req} {k : Resp r → Task Req Resp L α} {Q : α → World L σ → Prop}
    (h : ∀ w', D.Expects t w w' → D.inv w' → D.assume w' t op r → D.allow w' t op r ∧
      ∀ e, D.inv (w'.setStore (M.exec t r e w'.store).2) →
        wp M D t op (k (M.exec t r e w'.store).1) Q (w'.setStore (M.exec t r e w'.store).2)) :
    wp M D t op (Task.call r k) Q w :=
  h

/-- The rule of sequencing for tasks that may fail: an error skips the rest. -/
theorem wp_run_bind (p : ExceptT ε (Task Req Resp L) α) (f : α → ExceptT ε (Task Req Resp L) β)
    (Q : Except ε β → World L σ → Prop) :
    wp M D t op (p >>= f).run Q w ↔
      wp M D t op p.run (fun x => match x with
        | .ok a => wp M D t op (f a).run Q
        | .error e => Q (.error e)) w := by
  rw [ExceptT.run_bind, Task.bind_eq, wp_bind]
  refine ⟨wp_mono ?_, wp_mono ?_⟩
  all_goals
    intro x w'
    cases x <;> exact id

/-- The rule of a lifted task followed by more. -/
theorem wp_lift_bind (p : Task Req Resp L α) (f : α → ExceptT ε (Task Req Resp L) β) (Q : Except ε β → World L σ → Prop) :
    wp M D t op ((liftM p : ExceptT ε (Task Req Resp L) α) >>= f).run Q w ↔ wp M D t op p (fun a => wp M D t op (f a).run Q) w := by
  rw [wp_run_bind]
  exact wp_bind p _ _

/-- A weakest precondition survives what others do when its postcondition does. -/
theorem wp_stable (htrans : ∀ w₁ w₂ w₃, D.Expects t w₁ w₂ → D.rely t w₂ w₃ → D.rely t w₁ w₃)
    {Q : α → World L σ → Prop} (hQ : ∀ a w w', D.Expects t w w' → D.inv w' → Q a w → Q a w') {p : Task Req Resp L α}
    {w' : World L σ} (hr : D.Expects t w w') (hi : D.inv w') (hp : wp M D t op p Q w) : wp M D t op p Q w' := by
  have htrans' : ∀ w₁, D.Expects t w' w₁ → D.Expects t w w₁ := fun w₁ h =>
    ⟨fun l hl => h.1 l (hr.1 l hl), htrans _ _ _ hr h.2⟩
  cases p with
  | ret a => exact hQ a w w' hr hi hp
  | call r k => exact fun w₁ hr₁ hi₁ ha => hp w₁ (htrans' w₁ hr₁) hi₁ ha
  | acquire l k => exact fun w₁ hr₁ hi₁ hf ht => hp w₁ (htrans' w₁ hr₁) hi₁ hf ht
  | release l k => exact fun w₁ hr₁ hi₁ => hp w₁ (htrans' w₁ hr₁) hi₁

/-- A task keeps its weakest precondition when its record is kept as well. -/
theorem wp_traced {Q : α → World L σ → Prop} {p : Task Req Resp L α} (hp : wp M D t op p Q w) :
    wp M D t op p.traced (fun x => Q x.2) w := by
  induction p generalizing w with
  | ret a => exact hp
  | call r k ih =>
    intro w' hr hi ha
    obtain ⟨hal, hk⟩ := hp w' hr hi ha
    exact ⟨hal, fun e he => (wp_bind ..).2 (ih _ (hk e he))⟩
  | acquire l k ih => exact fun w' hr hi hf ht => ih (hp w' hr hi hf ht)
  | release l k ih =>
    intro w' hr hi
    obtain ⟨ho, hgo, hk⟩ := hp w' hr hi
    exact ⟨ho, hgo, fun hg => ih (hk hg)⟩

end

/-! ## Soundness -/

section

variable [DecidableEq L] (M : Machine Req Resp L Env σ Op Out) (D : Discipline Req L σ Op)
  (post : Tid → Op → Out → World L σ → Prop)

/-- A machine fits a discipline: its steps keep the invariant and stay within every other task's rely, and every operation that
can be started is verified. -/
structure Fits : Prop where
  rely_refl : ∀ t w, D.rely t w w
  rely_trans : ∀ t w₁ w₂ w₃, D.Expects t w₁ w₂ → D.rely t w₂ w₃ → D.rely t w₁ w₃
  post_stable : ∀ t op a w w', D.Expects t w w' → D.inv w' → post t op a w → post t op a w'
  call : ∀ w t op r e, D.inv w → t < w.next → D.assume w t op r → D.allow w t op r →
    D.inv (w.setStore (M.exec t r e w.store).2) ∧
      ∀ t', t' ≠ t → D.rely t' w (w.setStore (M.exec t r e w.store).2)
  take : ∀ w t l, D.inv w → t < w.next → w.owner l = none →
    D.inv (w.take l t) ∧ ∀ t', t' ≠ t → D.rely t' w (w.take l t)
  give : ∀ w t l, D.inv w → w.owner l = some t → D.gives w t l →
    D.inv (w.give l) ∧ ∀ t', t' ≠ t → D.rely t' w (w.give l)
  drop : ∀ w t op, D.inv w → D.drops w t op →
    D.inv (w.forget t (M.discard t w.store)) ∧ ∀ t', t' ≠ t → D.rely t' w (w.forget t (M.discard t w.store))
  tick : ∀ w e, D.inv w → D.inv (w.setStore (M.tick e w.store)) ∧ ∀ t, D.rely t w (w.setStore (M.tick e w.store))
  spawn : ∀ w op, D.inv w → D.ops op → M.enabled op w.store = true →
    D.inv w.allocate ∧ (∀ t, t < w.next → D.rely t w w.allocate) ∧
      wp M D w.next op (M.body op) (post w.next op) w.allocate
  crash : ∀ w, D.inv w → D.crashes →
    D.inv (w.restart (M.crash w.store)).allocate ∧
      wp M D w.next M.boot (M.body M.boot) (post w.next M.boot) (w.restart (M.crash w.store)).allocate

/-- A system all of whose tasks are verified from where they stand. -/
def Sound (c : Sys Req Resp L σ Op Out) : Prop :=
  D.inv c.world ∧ c.Each fun w t op p => t < w.next ∧ wp M D t op p (post t op) w

end

section

variable [DecidableEq L] {M : Machine Req Resp L Env σ Op Out} {D : Discipline Req L σ Op}
  {post : Tid → Op → Out → World L σ → Prop} {c c' : Sys Req Resp L σ Op Out} {l : Label Req Resp L Op Out}

/-- A system with no task is verified when its world satisfies the invariant. -/
theorem sound_empty {w : World L σ} (hi : D.inv w) : Sound M D post (⟨w, fun _ => none⟩ : Sys Req Resp L σ Op Out) :=
  ⟨hi, fun _ _ _ h => nomatch h⟩

/-- The rely allows nothing to happen. -/
theorem Fits.expects_refl (hF : Fits M D post) (t : Tid) (w : World L σ) : D.Expects t w w :=
  ⟨fun _ => id, hF.rely_refl t w⟩

/-- A verified task stays verified while the others move within its rely. -/
theorem Fits.wp_stable (hF : Fits M D post) {t : Tid} {op : Op} {p : Task Req Resp L Out} {w w' : World L σ}
    (hr : D.Expects t w w') (hi : D.inv w') (hp : wp M D t op p (post t op) w) : wp M D t op p (post t op) w' :=
  Conc.wp_stable (hF.rely_trans t) (fun a w₁ w₂ => hF.post_stable t op a w₁ w₂) hr hi hp

/-- One task of a verified system moves: the others stay verified, since the move is within their rely. -/
theorem Sound.put (hF : Fits M D post) (hc : Sound M D post c) {t : Tid} {op : Op} {p : Task Req Resp L Out} {w : World L σ}
    (hnext : w.next = c.world.next) (htn : t < c.world.next) (hi : D.inv w)
    (hrely : ∀ t', t' ≠ t → D.Expects t' c.world w) (hp : wp M D t op p (post t op) w) : Sound M D post (c.put t op p w) :=
  ⟨hi, hc.2.put ⟨hnext ▸ htn, hp⟩ fun t' _ _ ht' _ h => ⟨hnext ▸ h.1, hF.wp_stable (hrely t' ht') hi h.2⟩⟩

/-- One task of a verified system disappears. -/
theorem Sound.erase (hF : Fits M D post) (hc : Sound M D post c) {t : Tid} {w : World L σ}
    (hnext : w.next = c.world.next) (hi : D.inv w) (hrely : ∀ t', t' ≠ t → D.Expects t' c.world w) :
    Sound M D post (c.erase t w) :=
  ⟨hi, hc.2.erase fun t' _ _ ht' _ h => ⟨hnext ▸ h.1, hF.wp_stable (hrely t' ht') hi h.2⟩⟩

/-- Every step of a verified system leads to a verified system. -/
theorem Sound.step (hF : Fits M D post) (hc : Sound M D post c) (hok : D.ok c l) (hs : Step M c l c') :
    Sound M D post c' := by
  obtain ⟨hi, ht⟩ := id hc
  cases hs with
  | @spawn op he =>
    obtain ⟨hi', hr, hp⟩ := hF.spawn c.world op hi hok he
    exact ⟨hi', ht.put ⟨Nat.lt_succ_self _, hp⟩ fun t' _ _ _ _ h =>
      ⟨Nat.lt_succ_of_lt h.1, hF.wp_stable (w := c.world) ⟨fun _ => id, hr t' h.1⟩ hi' h.2⟩⟩
  | @call t op r k e h =>
    obtain ⟨hlt, hw⟩ := ht t op _ h
    obtain ⟨hal, hk⟩ := hw c.world (hF.expects_refl ..) hi hok
    obtain ⟨hi', hr⟩ := hF.call c.world t op r e hi hlt hok hal
    exact hc.put hF rfl hlt hi' (fun t' ht' => ⟨fun _ => id, hr t' ht'⟩) (hk e hi')
  | @acquire t op l k h hf =>
    obtain ⟨hlt, hw⟩ := ht t op _ h
    obtain ⟨hi', hr⟩ := hF.take c.world t l hi hlt hf
    refine hc.put hF rfl hlt hi' (fun t' ht' => ⟨fun l' hl' => ?_, hr t' ht'⟩) (hw c.world (hF.expects_refl ..) hi hf hi')
    have hne : l' ≠ l := by
      rintro rfl
      rw [hf] at hl'
      nomatch hl'
    exact (World.take_owner_of_ne hne).trans hl'
  | @release t op l k h =>
    obtain ⟨hlt, hw⟩ := ht t op _ h
    obtain ⟨ho, hgo, hk⟩ := hw c.world (hF.expects_refl ..) hi
    obtain ⟨hi', hr⟩ := hF.give c.world t l hi ho hgo
    refine hc.put hF rfl hlt hi' (fun t' ht' => ⟨fun l' hl' => ?_, hr t' ht'⟩) (hk hi')
    have hne : l' ≠ l := by
      rintro rfl
      exact ht' (Option.some.inj (hl'.symm.trans ho))
    exact (World.give_owner_of_ne hne).trans hl'
  | @finish t op a h => exact hc.erase hF rfl hi fun t' _ => hF.expects_refl ..
  | @drop t op p h =>
    obtain ⟨hi', hr⟩ := hF.drop c.world t op hi hok
    exact hc.erase hF rfl hi' fun t' ht' => ⟨fun l hl => World.forget_owner_of_ne ht' hl, hr t' ht'⟩
  | tick e =>
    obtain ⟨hi', hr⟩ := hF.tick c.world e hi
    exact ⟨hi', fun t' op' p' h =>
      ⟨(ht t' op' p' h).1, hF.wp_stable (w := c.world) ⟨fun _ => id, hr t'⟩ hi' (ht t' op' p' h).2⟩⟩
  | crash =>
    obtain ⟨hi', hp⟩ := hF.crash c.world hi hok
    exact ⟨hi', Sys.each_reboot ⟨Nat.lt_succ_self _, hp⟩⟩

/-- Every run from a verified system that keeps the discipline's promises leads to a verified system. -/
theorem Sound.run (hF : Fits M D post) (hc : Sound M D post c) (h : Run M D.ok c c') : Sound M D post c' :=
  h.invariant (fun _ _ _ hc hok hs => hc.step hF hok hs) hc

/-- In a verified system every request that is issued was owed as the discipline says. -/
theorem Sound.allow (hF : Fits M D post) (hc : Sound M D post c) {t : Tid} {op : Op} {r : Req} {x : Resp r}
    (hok : D.ok c (.called t op r x)) (hs : Step M c (.called t op r x) c') : D.allow c.world t op r := by
  cases hs with
  | call e h => exact ((hc.2 t op _ h).2 c.world (hF.expects_refl ..) hc.1 hok).1

/-- In a verified system every task that finishes satisfies its postcondition. -/
theorem Sound.returned (hc : Sound M D post c) {t : Tid} {op : Op} {a : Out} (hs : Step M c (.returned t op a) c') :
    post t op a c.world := by
  cases hs with
  | finish h => exact (hc.2 t op _ h).2

end

end Conc
