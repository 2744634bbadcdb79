import Mathlib.Algebra.Order.Group.Nat
import Mathlib.Data.Nat.Log

/-! # Doubles

The natural numbers that a double precision number can be, and the one that is nearest to another. -/

namespace Almond.Doubles

/-- A natural number is a double: it has at most 53 significant bits. -/
def IsDouble (n : Nat) : Prop :=
  ∃ m e, m < 2 ^ 53 ∧ n = m * 2 ^ e

/-- How many of the lowest bits a double has no room for. -/
def excess (n : Nat) : Nat :=
  n.log2 - 52

/-- The double that is nearest to a number, the even one of two. -/
def nearest (n : Nat) : Nat :=
  let unit := 2 ^ excess n
  if 2 * (n % unit) < unit ∨ 2 * (n % unit) = unit ∧ n / unit % 2 = 0 then n / unit * unit
  else (n / unit + 1) * unit

/-- The nearest double has none of the bits that a double has no room for. -/
theorem excess_dvd_nearest (n : Nat) : 2 ^ excess n ∣ nearest n := by
  unfold nearest
  dsimp only
  split
  · exact Nat.dvd_mul_left _ _
  · exact Nat.dvd_mul_left _ _

/-- A number that is its nearest double has none of the bits that a double has no room for. -/
theorem nearest_eq_self_iff_dvd (n : Nat) : nearest n = n ↔ 2 ^ excess n ∣ n := by
  constructor
  · intro h
    have hdvd := excess_dvd_nearest n
    rwa [h] at hdvd
  · intro h
    have hpos : 0 < 2 ^ excess n := Nat.two_pow_pos _
    have hmod : n % 2 ^ excess n = 0 := Nat.mod_eq_zero_of_dvd h
    unfold nearest
    dsimp only
    rw [if_pos (by omega), Nat.div_mul_cancel h]

/-- A number without the bits that a double has no room for is a double, and the other way round. -/
theorem isDouble_iff_dvd (n : Nat) : IsDouble n ↔ 2 ^ excess n ∣ n := by
  have hlt : n < 2 ^ (n.log2 + 1) := Nat.lt_log2_self
  constructor
  · intro h
    obtain ⟨m, e, hm, rfl⟩ := h
    have hpow : m * 2 ^ e < 2 ^ (53 + e) := by
      rw [Nat.pow_add]
      exact Nat.mul_lt_mul_of_pos_right hm (Nat.two_pow_pos _)
    have hexcess : excess (m * 2 ^ e) ≤ e := by
      by_cases hzero : m * 2 ^ e = 0
      · simp [excess, hzero]
      · have := (Nat.log2_lt hzero).2 hpow
        unfold excess
        omega
    exact Nat.dvd_mul_left_of_dvd (Nat.pow_dvd_pow 2 hexcess) m
  · intro h
    obtain ⟨m, hm⟩ := h
    refine ⟨m, excess n, ?_, by rw [Nat.mul_comm]; exact hm⟩
    have hbound : 2 ^ excess n * m < 2 ^ excess n * 2 ^ 53 := by
      rw [← hm, ← Nat.pow_add]
      exact Nat.lt_of_lt_of_le hlt (Nat.pow_le_pow_right (by omega) (by unfold excess; omega))
    exact Nat.lt_of_mul_lt_mul_left hbound

/-- A number is its nearest double exactly when it is a double. -/
theorem nearest_eq_self_iff (n : Nat) : nearest n = n ↔ IsDouble n := by
  rw [nearest_eq_self_iff_dvd, isDouble_iff_dvd]

/-- A number below 2^53 is its nearest double. -/
theorem nearest_of_lt {n : Nat} (h : n < 2 ^ 53) : nearest n = n :=
  (nearest_eq_self_iff n).2 ⟨n, 0, h, by simp⟩

/-- A number from 2^53 on is not rounded below it. -/
theorem le_nearest {n : Nat} (h : 2 ^ 53 ≤ n) : 2 ^ 53 ≤ nearest n := by
  have hzero : n ≠ 0 := by omega
  have hlog : 53 ≤ n.log2 := (Nat.le_log2 hzero).2 h
  have hpow : 2 ^ n.log2 = 2 ^ 52 * 2 ^ excess n := by
    rw [← Nat.pow_add, excess, Nat.add_sub_cancel' (by omega)]
  have hdiv : 2 ^ 52 ≤ n / 2 ^ excess n := by
    rw [Nat.le_div_iff_mul_le (Nat.two_pow_pos _), ← hpow]
    exact Nat.log2_self_le hzero
  have hlow : 2 ^ 53 ≤ n / 2 ^ excess n * 2 ^ excess n := calc
    2 ^ 53 ≤ 2 ^ n.log2 := Nat.pow_le_pow_right (by omega) hlog
    _ = 2 ^ 52 * 2 ^ excess n := hpow
    _ ≤ n / 2 ^ excess n * 2 ^ excess n := Nat.mul_le_mul_right _ hdiv
  unfold nearest
  dsimp only
  split
  · exact hlow
  · exact hlow.trans (Nat.mul_le_mul_right _ (Nat.le_succ _))

/-- A number is within a bound below 2^53 exactly when its nearest double is. -/
theorem nearest_le_iff {n m : Nat} (hm : m < 2 ^ 53) : nearest n ≤ m ↔ n ≤ m := by
  by_cases h : n < 2 ^ 53
  · rw [nearest_of_lt h]
  · have := le_nearest (Nat.le_of_not_lt h)
    omega

end Almond.Doubles
