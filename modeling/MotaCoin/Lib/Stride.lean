import Mathlib.Algebra.Ring.Nat
import Mathlib.Order.Monotone.Basic
import Mathlib.Order.WellFounded
import Mathlib.Data.Nat.Find
import Mathlib.Tactic.Common

/-!
# Stops at doubling distances

A walk stops at every step for the first `n` steps, and then after steps that double. Its stops are
few, and the first stop at or past a point is not much further than the point is. Nothing here is
about one program.

## Main definitions

* `Stride.dist n k`: how far the stop number `k` is

## Main results

* `Stride.dist_strictMono`: the stops go on
* `Stride.exists_first`: the first stop past a point, and how far past it is
-/

namespace Stride

variable (n : ℕ)

/-- How far the stop number `k` is. -/
def dist : ℕ → ℕ
  | 0 => 0
  | k + 1 => dist k + 2 ^ (k - n)

theorem dist_succ (k : ℕ) : dist n (k + 1) = dist n k + 2 ^ (k - n) := rfl

/-- The next step is what was walked after the first `n` steps, and one more. -/
theorem dist_add_one (k : ℕ) : dist n k + 1 = min k n + 2 ^ (k - n) := by
  induction k with
  | zero => simp [dist]
  | succ k ih =>
    rw [dist_succ]
    rcases Nat.lt_or_ge k n with hlt | hge
    · have hzero : k - n = 0 := Nat.sub_eq_zero_of_le hlt.le
      have hzero' : k + 1 - n = 0 := Nat.sub_eq_zero_of_le hlt
      rw [hzero] at ih ⊢
      rw [hzero']
      omega
    · have hsucc : 2 ^ (k + 1 - n) = 2 ^ (k - n) + 2 ^ (k - n) := by
        rw [Nat.succ_sub hge, Nat.pow_succ, Nat.mul_two]
      rw [hsucc]
      omega

/-- The stops go on. -/
theorem dist_strictMono : StrictMono (dist n) := by
  refine strictMono_nat_of_lt_succ fun k => ?_
  rw [dist_succ]
  exact Nat.lt_add_of_pos_right (Nat.two_pow_pos _)

theorem le_dist (k : ℕ) : k ≤ dist n k := (dist_strictMono n).le_apply

/-- Single steps come first. -/
theorem lt_dist_iff {k : ℕ} : n < dist n (k + 1) ↔ n ≤ k := by
  have hone := dist_add_one n (k + 1)
  rcases Nat.lt_or_ge k n with hlt | hge
  · have hzero : k + 1 - n = 0 := Nat.sub_eq_zero_of_le hlt
    rw [hzero] at hone
    omega
  · have hpos := Nat.two_pow_pos (k - n)
    have hsucc : 2 ^ (k + 1 - n) = 2 ^ (k - n) + 2 ^ (k - n) := by
      rw [Nat.succ_sub hge, Nat.pow_succ, Nat.mul_two]
    rw [hsucc] at hone
    omega

/-- **The first stop at or past `D`** is past it by less than what `D` is past the single steps. -/
theorem exists_first (D : ℕ) : ∃ i, D ≤ dist n i ∧ (∀ j < i, dist n j < D) ∧
    dist n i - D ≤ D - (n + 1) := by
  have hex : ∃ i, D ≤ dist n i := ⟨D, le_dist n D⟩
  refine ⟨Nat.find hex, Nat.find_spec hex, fun j hj => Nat.lt_of_not_le (Nat.find_min hex hj), ?_⟩
  cases hi : Nat.find hex with
  | zero =>
    rw [dist]
    omega
  | succ k =>
    have hbefore : dist n k < D := Nat.lt_of_not_le (Nat.find_min hex (hi ▸ Nat.lt_succ_self k))
    have hone := dist_add_one n k
    rw [dist_succ]
    rcases Nat.lt_or_ge k n with hlt | hge
    · rw [Nat.sub_eq_zero_of_le hlt.le]
      omega
    · -- the step taken is what was walked before, the single steps apart
      omega

end Stride
