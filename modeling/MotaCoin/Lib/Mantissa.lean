import Mathlib.Data.Nat.Log
import Mathlib.Tactic.Positivity
import Mathlib.Tactic.Ring

/-!
# Numbers with a three-byte mantissa

A number format that keeps three bytes and their place, the top bit being the sign. A number that is
written and read loses its low bytes. Nothing here is about one program.

## Main definitions

* `Mantissa.size n`: how many bytes `n` takes, with a bit for the sign
* `Mantissa.floor n`: what is left of `n`

## Main results

* `floor_le`, `floor_pos`, `floor_mono`: what is left is no more, is something, and grows with `n`
* `lt_floor_add`: how much is lost at most
* `floor_le_floor_iff`: what is left of two numbers, compared
* `leading_lt`: the three bytes leave the sign free
-/

namespace Mantissa

/-- How many bytes a positive number takes, with a bit for the sign. -/
def size (n : Nat) : Nat := (n.log2 + 1) / 8 + 1

/-- The three leading bytes. -/
def leading (n : Nat) : Nat :=
  if size n ≤ 3 then n * 256 ^ (3 - size n) else n / 256 ^ (size n - 3)

/-- The number without the bytes after the three leading ones. -/
def floor (n : Nat) : Nat :=
  if size n ≤ 3 then n else n / 256 ^ (size n - 3) * 256 ^ (size n - 3)

theorem pow_256 (k : Nat) : 256 ^ k = 2 ^ (8 * k) := by
  rw [pow_mul]
  norm_num

theorem lt_pow_size (n : Nat) : n < 2 ^ (8 * size n - 1) := by
  refine Nat.lt_log2_self.trans_le (Nat.pow_le_pow_right (by decide) ?_)
  rw [size]
  omega

theorem pow_le_of_size {n : Nat} (hn : n ≠ 0) (hsize : 1 < size n) : 2 ^ (8 * (size n - 1) - 1) ≤ n := by
  refine (Nat.pow_le_pow_right (by decide) ?_).trans (Nat.log2_self_le hn)
  rw [size] at hsize ⊢
  omega

theorem size_mono {n n' : Nat} (h : n ≤ n') : size n ≤ size n' := by
  have hlog : n.log2 ≤ n'.log2 := by
    rw [Nat.log2_eq_log_two, Nat.log2_eq_log_two]
    exact Nat.log_mono_right h
  rw [size, size]
  omega

theorem leading_lt (n : Nat) : leading n < 2 ^ 23 := by
  have hlt := lt_pow_size n
  have hsize : 0 < size n := Nat.succ_pos _
  rw [leading]
  split
  · next hsmall =>
    have hpow : 2 ^ 23 = 2 ^ (8 * size n - 1) * 256 ^ (3 - size n) := by
      rw [pow_256, ← pow_add]
      congr 1
      omega
    rw [hpow]
    exact Nat.mul_lt_mul_of_pos_right hlt (by positivity)
  · next hlarge =>
    have hpow : 2 ^ (8 * size n - 1) = 2 ^ 23 * 256 ^ (size n - 3) := by
      rw [pow_256, ← pow_add]
      congr 1
      omega
    rw [Nat.div_lt_iff_lt_mul (by positivity), ← hpow]
    exact hlt

theorem floor_le (n : Nat) : floor n ≤ n := by
  rw [floor]
  split
  · exact le_rfl
  · exact Nat.div_mul_le_self _ _

theorem floor_eq_self {n : Nat} (hsize : size n ≤ 3) : floor n = n := if_pos hsize

/-- What is lost is less than one in the last place. -/
theorem lt_floor_add {n : Nat} (hsize : 3 < size n) : n < floor n + 256 ^ (size n - 3) := by
  rw [floor, if_neg (Nat.not_le.2 hsize)]
  exact Nat.lt_div_mul_add (by positivity)

/-- A number keeps its leading bit. -/
theorem pow_le_floor {n : Nat} (hn : n ≠ 0) (hsize : 1 < size n) :
    2 ^ (8 * (size n - 1) - 1) ≤ floor n := by
  have hle := pow_le_of_size hn hsize
  rw [floor]
  split
  · exact hle
  · next hlarge =>
    have hpow : 2 ^ (8 * (size n - 1) - 1) = 2 ^ 15 * 256 ^ (size n - 3) := by
      rw [pow_256, ← pow_add]
      congr 1
      omega
    rw [hpow] at hle ⊢
    exact Nat.mul_le_mul_right _ ((Nat.le_div_iff_mul_le (by positivity)).2 hle)

theorem floor_pos {n : Nat} (hn : 0 < n) : 0 < floor n := by
  rcases Nat.lt_or_ge 1 (size n) with hsize | hsize
  · exact (pow_le_floor hn.ne' hsize).trans_lt' (by positivity)
  · rw [floor, if_pos (by omega)]
    exact hn

/-- **What is left grows with the number.** -/
theorem floor_mono {n n' : Nat} (h : n ≤ n') : floor n ≤ floor n' := by
  rcases Nat.eq_or_lt_of_le (size_mono h) with heq | hlt
  · rw [floor, floor, heq]
    split
    · exact h
    · exact Nat.mul_le_mul_right _ (Nat.div_le_div_right h)
  · -- A longer number has a leading bit above the shorter one.
    have hn' : n' ≠ 0 := by
      rintro rfl
      rw [Nat.le_zero.1 h] at hlt
      exact lt_irrefl _ hlt
    have hsize : 0 < size n := Nat.succ_pos _
    calc floor n ≤ n := floor_le n
      _ ≤ 2 ^ (8 * size n - 1) := (lt_pow_size n).le
      _ ≤ 2 ^ (8 * (size n' - 1) - 1) := Nat.pow_le_pow_right (by decide) (by omega)
      _ ≤ floor n' := pow_le_floor hn' (by omega)

theorem size_floor (n : Nat) : size (floor n) = size n := by
  refine le_antisymm (size_mono (floor_le n)) ?_
  by_contra hlt
  rw [not_le] at hlt
  have hpos : 0 < size (floor n) := Nat.succ_pos _
  have hn : n ≠ 0 := by
    rintro rfl
    exact absurd hlt (by decide)
  have hbit := pow_le_floor hn (by omega)
  have hshort : 2 ^ (8 * size (floor n) - 1) ≤ 2 ^ (8 * (size n - 1) - 1) :=
    Nat.pow_le_pow_right (by decide) (by omega)
  exact absurd (lt_pow_size (floor n)) (not_lt.2 (hshort.trans hbit))

/-- Nothing more is lost the second time. -/
theorem floor_floor (n : Nat) : floor (floor n) = floor n := by
  rw [floor, size_floor]
  split
  · rfl
  · next hlarge =>
    rw [floor, if_neg hlarge, Nat.mul_div_cancel _ (by positivity)]

theorem leading_floor (n : Nat) : leading (floor n) = leading n := by
  rw [leading, size_floor]
  split
  · next hsmall => rw [floor_eq_self hsmall, leading, if_pos hsmall]
  · next hlarge =>
    rw [floor, if_neg hlarge, Nat.mul_div_cancel _ (by positivity), leading, if_neg hlarge]

/-- A number with three bytes is below what is left of another if it is below that number. -/
theorem floor_le_floor_iff {n m : Nat} : floor n ≤ floor m ↔ floor n ≤ m := by
  refine ⟨fun h => h.trans (floor_le m), fun h => ?_⟩
  rw [← floor_floor n]
  exact floor_mono h

end Mantissa
