import Mathlib.Algebra.Ring.Nat
import Mathlib.Data.List.Basic
import Mathlib.Data.List.Sort
import Mathlib.Data.List.Count
import Mathlib.Algebra.BigOperators.Group.List.Basic

/-! # Segments that tile an interval

A segment starts somewhere and has a length. Segments that lie within an interval and are pairwise apart tile it as soon as their
lengths add up to its length, and what is cut along a tiling is the whole again. -/

namespace Tiling

variable {α β : Type} (start len : α → Nat)

/-- Two segments share no position. -/
def Apart (a b : α) : Prop :=
  start a + len a ≤ start b ∨ start b + len b ≤ start a

/-- Whether a segment contains a position. -/
def covers (i : Nat) (a : α) : Bool :=
  start a ≤ i && i < start a + len a

/-- Every position below `n` is in exactly one segment, and no other position is in any. -/
def Tiles (segments : List α) (n : Nat) : Prop :=
  ∀ i, segments.countP (covers start len i) = if i < n then 1 else 0

/-- Each segment starts where the one before it ends, from `p` to `n`. -/
def Contiguous : Nat → List α → Nat → Prop
  | p, [], n => p = n
  | p, a :: segments, n => start a = p ∧ Contiguous (p + len a) segments n

variable {start len} {a b : α} {segments segments' : List α} {p n : Nat}

/-- Being apart is symmetric. -/
theorem Apart.symm (h : Apart start len a b) : Apart start len b a :=
  Or.symm h

/-- Contiguous segments reach the end of the interval. -/
theorem Contiguous.add_sum (h : Contiguous start len p segments n) : p + (segments.map len).sum = n := by
  induction segments generalizing p with
  | nil => exact h
  | cons a segments ih =>
    have := ih h.2
    rw [List.map_cons, List.sum_cons]
    omega

/-- Contiguous segments lie in their interval. -/
theorem Contiguous.bounds (h : Contiguous start len p segments n) (ha : a ∈ segments) : p ≤ start a ∧ start a + len a ≤ n := by
  induction segments generalizing p with
  | nil => nomatch ha
  | cons b segments ih =>
    have hsum := h.2.add_sum
    rcases List.mem_cons.1 ha with rfl | ha
    · have := h.1
      omega
    · have := ih h.2 ha
      omega

/-- A position of the interval is in exactly one of contiguous segments. -/
theorem Contiguous.countP (h : Contiguous start len p segments n) (i : Nat) :
    segments.countP (covers start len i) = if p ≤ i ∧ i < n then 1 else 0 := by
  induction segments generalizing p with
  | nil =>
    have : p = n := h
    rw [if_neg (by omega)]
    rfl
  | cons a segments ih =>
    have hsum := h.2.add_sum
    have hstart := h.1
    rw [List.countP_cons, ih h.2]
    simp only [covers, Bool.and_eq_true, decide_eq_true_eq]
    split <;> split <;> split <;> omega

/-- A tiling does not depend on the order of its segments. -/
theorem Tiles.perm (h : Tiles start len segments n) (hp : segments.Perm segments') : Tiles start len segments' n :=
  fun i => (hp.countP_eq _).symm.trans (h i)

/-- Separated segments within an interval are no longer than the interval, and contiguous when they are as long. -/
theorem contiguous_of_sum (hsorted : segments.Pairwise fun a b => start a ≤ start b)
    (hapart : segments.Pairwise (Apart start len)) (hpos : ∀ a ∈ segments, 0 < len a)
    (hbounds : ∀ a ∈ segments, p ≤ start a ∧ start a + len a ≤ n) (hpn : p ≤ n) :
    p + (segments.map len).sum ≤ n ∧ (p + (segments.map len).sum = n → Contiguous start len p segments n) := by
  induction segments generalizing p with
  | nil => exact ⟨hpn, id⟩
  | cons a segments ih =>
    obtain ⟨hs, hsorted⟩ := List.pairwise_cons.1 hsorted
    obtain ⟨ha, hapart⟩ := List.pairwise_cons.1 hapart
    obtain ⟨hb, hbounds⟩ := List.forall_mem_cons.1 hbounds
    -- The segments behind `a` start where it ends, or later.
    have hrest : ∀ b ∈ segments, start a + len a ≤ start b ∧ start b + len b ≤ n := by
      intro b hmem
      refine ⟨(ha b hmem).resolve_right fun h => ?_, (hbounds b hmem).2⟩
      have := hs b hmem
      have := hpos b (List.mem_cons_of_mem a hmem)
      omega
    obtain ⟨hle, heq⟩ := ih hsorted hapart (fun b hmem => hpos b (List.mem_cons_of_mem a hmem)) hrest hb.2
    rw [List.map_cons, List.sum_cons]
    refine ⟨by omega, fun hsum => ?_⟩
    have hstart : start a = p := by omega
    exact ⟨hstart, hstart ▸ heq (by omega)⟩

/-- Contiguous segments are apart. -/
theorem Contiguous.pairwise_apart (h : Contiguous start len p segments n) : segments.Pairwise (Apart start len) := by
  induction segments generalizing p with
  | nil => exact .nil
  | cons a segments ih =>
    refine List.pairwise_cons.2 ⟨fun b hb => .inl ?_, ih h.2⟩
    have := (h.2.bounds hb).1
    have := h.1
    omega

/-- What is cut along contiguous segments is the whole again. -/
theorem Contiguous.flatMap_slices {xs : List β} (h : Contiguous start len p segments xs.length) :
    (segments.flatMap fun a => (xs.drop (start a)).take (len a)) = xs.drop p := by
  induction segments generalizing p with
  | nil =>
    have : p = xs.length := h
    rw [this, List.drop_length]
    rfl
  | cons a segments ih =>
    rw [List.flatMap_cons, ih h.2, h.1, ← List.drop_drop]
    exact List.take_append_drop ..

end Tiling
