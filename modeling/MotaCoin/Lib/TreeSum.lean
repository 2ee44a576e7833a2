import Mathlib.Algebra.BigOperators.Group.Finset.Basic
import Mathlib.Algebra.BigOperators.Intervals
import Mathlib.Algebra.Order.BigOperators.Group.Finset
import Mathlib.Tactic.Ring

/-!
# Sums over binary trees

What is summed over the nodes of a binary tree, from the node of a given height at a given
position down, is a sum over the heights and the positions below it. Nothing here is about one
program.

## Main definitions

* `TreeSum.total f h pos`: the sum of `f` over the nodes below the node at `pos` of height `h`,
  the node included

## Main results

* `total_eq_sum`: the sum, height by height
* `total_eq_zero_iff`: when nothing is counted
-/

namespace TreeSum

open Finset

variable (f : ℕ → ℕ → ℕ)

/-- The sum over the nodes below the one at `pos` of height `h`, that one included. -/
def total : ℕ → ℕ → ℕ
  | 0, pos => f 0 pos
  | h + 1, pos => f (h + 1) pos + (total h (pos * 2) + total h (pos * 2 + 1))

/-- The sum at one height is that below the left child and that below the right one. -/
theorem sum_Ico_halves (g : ℕ → ℕ) (k pos : ℕ) :
    ∑ p ∈ Ico (pos * 2 ^ (k + 1)) ((pos + 1) * 2 ^ (k + 1)), g p =
      (∑ p ∈ Ico (pos * 2 * 2 ^ k) ((pos * 2 + 1) * 2 ^ k), g p) +
        ∑ p ∈ Ico ((pos * 2 + 1) * 2 ^ k) ((pos * 2 + 1 + 1) * 2 ^ k), g p := by
  have hleft : pos * 2 ^ (k + 1) = pos * 2 * 2 ^ k := by ring
  have hright : (pos + 1) * 2 ^ (k + 1) = (pos * 2 + 1 + 1) * 2 ^ k := by ring
  rw [hleft, hright, Finset.sum_Ico_consecutive] <;> exact Nat.mul_le_mul_right _ (Nat.le_succ _)

/-- **The sum, height by height.** -/
theorem total_eq_sum (h pos : ℕ) : total f h pos =
    ∑ k ∈ range (h + 1), ∑ p ∈ Ico (pos * 2 ^ (h - k)) ((pos + 1) * 2 ^ (h - k)), f k p := by
  induction h generalizing pos with
  | zero => simp [total]
  | succ h ih =>
    have hbelow : ∀ k ∈ range (h + 1),
        ∑ p ∈ Ico (pos * 2 ^ (h + 1 - k)) ((pos + 1) * 2 ^ (h + 1 - k)), f k p =
          (∑ p ∈ Ico (pos * 2 * 2 ^ (h - k)) ((pos * 2 + 1) * 2 ^ (h - k)), f k p) +
            ∑ p ∈ Ico ((pos * 2 + 1) * 2 ^ (h - k)) ((pos * 2 + 1 + 1) * 2 ^ (h - k)), f k p := by
      intro k hk
      rw [mem_range] at hk
      rw [← sum_Ico_halves, show h + 1 - k = h - k + 1 by omega]
    rw [total, ih, ih, sum_range_succ _ (h + 1), sum_congr rfl hbelow, sum_add_distrib,
      Nat.sub_self, pow_zero, Nat.mul_one, Nat.mul_one, Nat.Ico_succ_singleton, sum_singleton,
      Nat.add_comm]

/-- Nothing is counted below a node when nothing is at any node below. -/
theorem total_root_eq_zero_iff (h : ℕ) :
    total f h 0 = 0 ↔ ∀ k ≤ h, ∀ p < 2 ^ (h - k), f k p = 0 := by
  rw [total_eq_sum, sum_eq_zero_iff]
  simp only [mem_range, Nat.lt_succ_iff, sum_eq_zero_iff, mem_Ico, Nat.zero_mul, Nat.zero_add,
    Nat.one_mul, Nat.zero_le, true_and]

end TreeSum
