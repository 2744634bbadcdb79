import Almond.Conc.Protocol
import Mathlib.Data.DFinsupp.WellFounded

/-! # Progress of tasks that hold one lock at a time

A task that takes no lock while it holds one, and ends without one, can only wait for a task that does not wait. -/

namespace Conc

variable {Req : Type} {Resp : Req → Type} {L Env σ Op Out : Type} {M : Machine Req Resp L Env σ Op Out}
  {sees : (r : Req) → Resp r → Prop} {c c' : Sys Req Resp L σ Op Out} {l : Label Req Resp L Op Out}

/-- A task that holds the lock `held`, if any, takes one lock at a time and ends without one, as long as the responses are foreseen. -/
abbrev Task.Balanced (sees : (r : Req) → Resp r → Prop) (p : Task Req Resp L Out) (held : Option L) : Prop :=
  p.Obeys (.tracking sees (fun (_ : Unit) _ => True) fun _ _ _ => ()) (fun q _ => q.2 = none) ((), held)

/-- A task that gives every lock back before it takes another one is balanced. -/
theorem Task.Issues.balanced {P : Req → Prop} {p : Task Req Resp L Out} (hp : p.Issues P) : p.Balanced sees none :=
  (hp.obeys fun _ _ => ⟨trivial, fun _ => rfl⟩).mono fun _ _ hq => congrArg Prod.snd hq

/-- A task that is assembled from such tasks is balanced. -/
theorem Task.Built.balanced {γ : Type} {P : Req → Prop} {S : Task Req Resp L γ → Prop} {R : Out → Prop} {p : Task Req Resp L Out}
    (hp : p.Built sees P S R) (hS : ∀ s, S s → s.Issues fun _ => True) : p.Balanced sees none := by
  refine (hp.obeys (A := .tracking sees (fun (_ : Unit) _ => True) fun _ _ _ => ()) (q := ((), none)) (fun _ _ h => h)
    (fun _ _ => ⟨trivial, fun _ _ => rfl⟩) fun s hs => ?_).mono fun _ _ hq => congrArg Prod.snd hq.1
  exact ((hS s hs).obeys fun _ _ => ⟨trivial, fun _ => rfl⟩).mono fun _ _ hq => hq

/-- Each lock is held by a running task, which holds no other one, and each task is balanced. -/
structure Sys.Balanced (sees : (r : Req) → Resp r → Prop) (c : Sys Req Resp L σ Op Out) : Prop where
  named : ∀ t x, c.tasks t = some x → t < c.world.next
  owners : ∀ l t, c.world.owner l = some t → ∃ x, c.tasks t = some x
  tasks : ∀ t op p, c.tasks t = some (op, p) → ∃ held, p.Balanced sees held ∧ ∀ l, c.world.owner l = some t ↔ held = some l

/-- A system without tasks is balanced, when no lock is held. -/
theorem Sys.balanced_idle {w : World L σ} (hw : ∀ l, w.owner l = none) : (⟨w, fun _ => none⟩ : Sys Req Resp L σ Op Out).Balanced sees where
  named _ _ h := nomatch h
  owners l _ h := nomatch (hw l).symm.trans h
  tasks _ _ _ h := nomatch h

/-- The task that moves stays balanced, and the locks of the others are theirs. -/
theorem Sys.Balanced.put (hc : c.Balanced sees) {t : Tid} {op : Op} {p p' : Task Req Resp L Out} {w : World L σ} {held : Option L}
    (ht : c.tasks t = some (op, p)) (hnext : w.next = c.world.next) (hp : p'.Balanced sees held)
    (howner : ∀ l, w.owner l = some t ↔ held = some l)
    (hothers : ∀ t', t' ≠ t → ∀ l, w.owner l = some t' ↔ c.world.owner l = some t') : (c.put t op p' w).Balanced sees := by
  have hsome : ∀ t' x, (c.put t op p' w).tasks t' = some x → t' = t ∧ x = (op, p') ∨ t' ≠ t ∧ c.tasks t' = some x := by
    intro t' x hx
    by_cases heq : t' = t
    · subst heq
      cases (Function.update_self ..).symm.trans hx
      exact .inl ⟨rfl, rfl⟩
    · exact .inr ⟨heq, (Function.update_of_ne heq ..).symm.trans hx⟩
  refine ⟨fun t' x hx => ?_, fun l t' ho => ?_, fun t' op' q hx => ?_⟩
  · rcases hsome t' x hx with ⟨rfl, _⟩ | ⟨_, hx⟩
    · exact hnext ▸ hc.named t' _ ht
    · exact hnext ▸ hc.named t' x hx
  · by_cases heq : t' = t
    · subst heq
      exact ⟨_, Function.update_self ..⟩
    · obtain ⟨x, hx⟩ := hc.owners l t' ((hothers t' heq l).1 ho)
      exact ⟨x, (Function.update_of_ne heq ..).trans hx⟩
  · rcases hsome t' _ hx with ⟨rfl, heq⟩ | ⟨hne, hx⟩
    · cases heq
      exact ⟨held, hp, howner⟩
    · obtain ⟨held', hq, hl⟩ := hc.tasks t' op' q hx
      exact ⟨held', hq, fun l => (hothers t' hne l).trans (hl l)⟩

/-- The tasks that remain when one ends stay balanced. -/
theorem Sys.Balanced.erase (hc : c.Balanced sees) {t : Tid} {w : World L σ} (hnext : w.next = c.world.next)
    (hnone : ∀ l, w.owner l ≠ some t) (hothers : ∀ t', t' ≠ t → ∀ l, w.owner l = some t' ↔ c.world.owner l = some t') :
    (c.erase t w).Balanced sees := by
  have hsome : ∀ t' x, (c.erase t w).tasks t' = some x → t' ≠ t ∧ c.tasks t' = some x := by
    intro t' x hx
    refine ⟨?_, Sys.tasks_of_erase hx⟩
    rintro rfl
    exact nomatch (Function.update_self ..).symm.trans hx
  refine ⟨fun t' x hx => hnext ▸ hc.named t' x (hsome t' x hx).2, fun l t' ho => ?_, fun t' op q hx => ?_⟩
  · have hne : t' ≠ t := by
      rintro rfl
      exact hnone l ho
    obtain ⟨x, hx⟩ := hc.owners l t' ((hothers t' hne l).1 ho)
    exact ⟨x, (Function.update_of_ne hne ..).trans hx⟩
  · obtain ⟨hne, hx⟩ := hsome t' _ hx
    obtain ⟨held, hq, hl⟩ := hc.tasks t' op q hx
    exact ⟨held, hq, fun l => (hothers t' hne l).trans (hl l)⟩

/-- A task is followed by what is left of it after one step. -/
inductive Follows : Option (Op × Task Req Resp L Out) → Option (Op × Task Req Resp L Out) → Prop
  | finish {op a} : Follows none (some (op, .ret a))
  | call {op r k} (x : Resp r) : Follows (some (op, k x)) (some (op, .call r k))
  | acquire {op l k} : Follows (some (op, k)) (some (op, .acquire l k))
  | release {op l k} : Follows (some (op, k)) (some (op, .release l k))

/-- A task takes finitely many steps. -/
theorem follows_wellFounded : WellFounded (Follows : Option (Op × Task Req Resp L Out) → Option (Op × Task Req Resp L Out) → Prop) := by
  have hnone : Acc (Follows : Option (Op × Task Req Resp L Out) → _ → Prop) none := ⟨_, nofun⟩
  refine ⟨fun x => ?_⟩
  cases x with
  | none => exact hnone
  | some x =>
    obtain ⟨op, p⟩ := x
    induction p with
    | ret a =>
      refine ⟨_, fun y hy => ?_⟩
      cases hy
      exact hnone
    | call r k ih =>
      refine ⟨_, fun y hy => ?_⟩
      cases hy with
      | call x => exact ih x
    | acquire l k ih =>
      refine ⟨_, fun y hy => ?_⟩
      cases hy
      exact ih
    | release l k ih =>
      refine ⟨_, fun y hy => ?_⟩
      cases hy
      exact ih

section

variable [DecidableEq L]

/-- Every step keeps a system balanced, when the programs are and the response is foreseen. -/
theorem Sys.Balanced.step (hbody : ∀ op, (M.body op).Balanced sees none) (hc : c.Balanced sees)
    (hsees : ∀ t op r x, l = .called t op r x → sees r x) (hs : Step M c l c') : c'.Balanced sees := by
  have hother : ∀ {l : L} {t t' : Tid} {o : Option Tid}, t' ≠ t → (o = none ∨ o = some t) → c.world.owner l = o →
      ¬ c.world.owner l = some t' := by
    intro l t t' o hne ho hl hl'
    rcases ho with rfl | rfl
    · cases hl.symm.trans hl'
    · exact hne (Option.some.inj (hl'.symm.trans hl))
  have hnamed := hs.named hc.named
  cases hs with
  | @spawn op he =>
    have hfresh : ∀ l, c.world.owner l ≠ some c.world.next := by
      intro l ho
      obtain ⟨x, hx⟩ := hc.owners l _ ho
      exact Nat.lt_irrefl _ (hc.named _ x hx)
    refine ⟨hnamed, fun l t ho => ?_, fun t op' p hx => ?_⟩
    · obtain ⟨x, hx⟩ := hc.owners l t ho
      exact ⟨x, (Function.update_of_ne (Nat.ne_of_lt (hc.named t x hx)) ..).trans hx⟩
    · by_cases heq : t = c.world.next
      · subst heq
        cases (Function.update_self ..).symm.trans hx
        exact ⟨none, hbody op, fun l => ⟨fun ho => absurd ho (hfresh l), fun h => by cases h⟩⟩
      · exact hc.tasks t op' p ((Function.update_of_ne heq ..).symm.trans hx)
  | @call t op r k e ht =>
    obtain ⟨held, hp, hl⟩ := hc.tasks t op _ ht
    exact hc.put ht rfl (hp.2 _ (hsees _ _ _ _ rfl)) hl fun _ _ _ => Iff.rfl
  | @acquire t op l k ht hf =>
    obtain ⟨held, ⟨rfl, hk⟩, hl⟩ := hc.tasks t op _ ht
    refine hc.put ht rfl hk (fun l' => ?_) fun t' hne l' => ?_
    · by_cases heq : l' = l
      · subst heq
        simp
      · rw [World.take_owner_of_ne heq, hl l']
        simp [Ne.symm heq]
    · by_cases heq : l' = l
      · subst heq
        simp [hf, Ne.symm hne]
      · rw [World.take_owner_of_ne heq]
  | @release t op l k ht =>
    obtain ⟨held, ⟨rfl, hk⟩, hl⟩ := hc.tasks t op _ ht
    have hgive : (c.world.give l).owner l = none := Function.update_self ..
    refine hc.put ht rfl hk (fun l' => ?_) fun t' hne l' => ?_
    · by_cases heq : l' = l
      · subst heq
        simp [hgive]
      · rw [World.give_owner_of_ne heq, hl l']
        simp [Ne.symm heq]
    · by_cases heq : l' = l
      · subst heq
        simp [hgive, (hl l').2 rfl, Ne.symm hne]
      · rw [World.give_owner_of_ne heq]
  | @finish t op a ht =>
    obtain ⟨held, rfl, hl⟩ := hc.tasks t op _ ht
    exact hc.erase rfl (fun l ho => nomatch (hl l).1 ho) fun _ _ _ => Iff.rfl
  | @drop t op p ht =>
    refine hc.erase rfl (fun l ho => ?_) fun t' hne l => ?_
    · simp only [World.forget] at ho
      split at ho
      · cases ho
      · contradiction
    · simp only [World.forget]
      split
      · rename_i ho
        simp [ho, Ne.symm hne]
      · exact Iff.rfl
  | tick e => exact ⟨hc.named, hc.owners, hc.tasks⟩
  | crash =>
    refine ⟨hnamed, fun l t ho => absurd ho (fun h => by cases h), fun t op p hx => ?_⟩
    simp only [Sys.reboot] at hx
    by_cases heq : t = c.world.next
    · subst heq
      cases (Function.update_self ..).symm.trans hx
      exact ⟨none, hbody _, fun l => ⟨(fun h => by cases h), fun h => by cases h⟩⟩
    · rw [Function.update_of_ne heq] at hx
      cases hx

/-! ## No task waits for a waiting one -/

/-- A task that can take its next step, whatever the outside decides. -/
def Sys.Ready (M : Machine Req Resp L Env σ Op Out) (c : Sys Req Resp L σ Op Out) (t : Tid) : Prop :=
  ∀ e, (M.move c (.step t e)).isSome = true

/-- A task that does not wait for a lock is ready. -/
theorem Sys.ready_of_ne_acquire {t : Tid} {op : Op} {p : Task Req Resp L Out} (ht : c.tasks t = some (op, p))
    (hp : ∀ l k, p = .acquire l k → c.world.owner l = none) : c.Ready M t := by
  intro e
  cases p with
  | acquire l k =>
    simp only [Machine.move, ht, hp l k rfl, if_true]
    rfl
  | _ =>
    simp only [Machine.move, ht]
    rfl

/-- In a balanced system a task is ready, or waits for a lock whose holder is. -/
theorem Sys.Balanced.progress (hc : c.Balanced sees) {t : Tid} {op : Op} {p : Task Req Resp L Out} (ht : c.tasks t = some (op, p)) :
    c.Ready M t ∨ ∃ l k t', p = .acquire l k ∧ c.world.owner l = some t' ∧ t' ≠ t ∧ c.Ready M t' := by
  by_cases hwaits : ∀ l k, p = .acquire l k → c.world.owner l = none
  · exact .inl (Sys.ready_of_ne_acquire ht hwaits)
  · right
    push Not at hwaits
    obtain ⟨l, k, rfl, ho⟩ := hwaits
    obtain ⟨t', ht'⟩ := Option.ne_none_iff_exists'.1 ho
    obtain ⟨⟨op', p'⟩, hp'⟩ := hc.owners l t' ht'
    obtain ⟨held, hq, hl⟩ := hc.tasks t op _ ht
    obtain ⟨held', hq', hl'⟩ := hc.tasks t' op' p' hp'
    obtain rfl := (hl' l).1 ht'
    refine ⟨l, k, t', rfl, ht', ?_, Sys.ready_of_ne_acquire hp' ?_⟩
    · rintro rfl
      exact nomatch ((hl l).1 ht').symm.trans hq.1
    · rintro l₂ k₂ rfl
      exact nomatch hq'.1

/-! ## Every task ends -/

/-- A system whose tasks all end, however they are scheduled and whatever the outside decides: some task can always take a step as long
as one is left, and every step leads to such a system. -/
inductive Sys.Drains (M : Machine Req Resp L Env σ Op Out) : Sys Req Resp L σ Op Out → Prop
  | intro {c : Sys Req Resp L σ Op Out} (hready : ∀ t x, c.tasks t = some x → ∃ t', c.Ready M t')
    (hnext : ∀ t e l c', M.move c (.step t e) = some (l, c') → Drains M c') : Drains M c

/-- A step of a task names no task, and leaves the task with what follows and every other one as it was. -/
theorem follows_of_move {t : Tid} {e : Env} (h : M.move c (.step t e) = some (l, c')) :
    c'.world.next = c.world.next ∧ Follows (c'.tasks t) (c.tasks t) ∧ ∀ t', t' ≠ t → c'.tasks t' = c.tasks t' := by
  have hput : ∀ {op : Op} {p : Task Req Resp L Out} {w : World L σ} {x}, Follows (some (op, p)) x →
      Follows ((c.put t op p w).tasks t) x ∧ ∀ t', t' ≠ t → (c.put t op p w).tasks t' = c.tasks t' := by
    intro op p w x hx
    have hself : (c.put t op p w).tasks t = some (op, p) := Function.update_self ..
    exact ⟨hself.symm ▸ hx, fun _ hne => Function.update_of_ne hne ..⟩
  simp only [Machine.move] at h
  split at h
  · cases h
  · rename_i ht
    cases h
    have hself : (c.erase t c.world).tasks t = none := Function.update_self ..
    rw [ht, hself]
    exact ⟨rfl, .finish, fun _ hne => Function.update_of_ne hne ..⟩
  · rename_i ht
    cases h
    exact ⟨rfl, ht ▸ hput (.call _)⟩
  · rename_i ht
    split at h
    · cases h
      exact ⟨rfl, ht ▸ hput .acquire⟩
    · cases h
  · rename_i ht
    cases h
    exact ⟨rfl, ht ▸ hput .release⟩

/-- When every step keeps a system balanced, its tasks all end. -/
theorem drains {I : Sys Req Resp L σ Op Out → Prop} (hI : ∀ c, I c → c.Balanced sees) (hstep : ∀ c l c', I c → Step M c l c' → I c')
    (hc : I c) : c.Drains M := by
  obtain ⟨n, hn⟩ : ∃ n, n = c.world.next := ⟨_, rfl⟩
  have hwf : WellFounded (Pi.Lex (· < ·) fun {_ : Fin n} =>
      (Follows : Option (Op × Task Req Resp L Out) → _ → Prop)) :=
    Pi.Lex.wellFounded _ fun _ => follows_wellFounded
  obtain ⟨f, hf⟩ : ∃ f : Fin n → Option (Op × Task Req Resp L Out), f = fun t => c.tasks t.val := ⟨_, rfl⟩
  induction f using hwf.induction generalizing c with
  | h f ih =>
    refine ⟨fun t x hx => ?_, fun t e l c' hmove => ?_⟩
    · rcases (hI c hc).progress (M := M) hx with h | ⟨_, _, t', _, _, _, h⟩
      · exact ⟨t, h⟩
      · exact ⟨t', h⟩
    · obtain ⟨hnext, hfollows, hothers⟩ := follows_of_move hmove
      have hlt : t < n := by
        cases ht : c.tasks t with
        | none => simp [Machine.move, ht] at hmove
        | some x => exact hn ▸ (hI c hc).named t x ht
      refine ih (fun t => c'.tasks t.val) ⟨⟨t, hlt⟩, fun j hj => ?_, ?_⟩ (hstep _ _ _ hc (step_of_move hmove)) (hn.trans hnext.symm) rfl
      · rw [hf]
        exact hothers j (Nat.ne_of_lt hj)
      · rw [hf]
        exact hfollows

end

end Conc
