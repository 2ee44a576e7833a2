import Mathlib.Algebra.BigOperators.Group.Finset.Basic
import Mathlib.Algebra.BigOperators.Intervals
import Mathlib.Algebra.BigOperators.Ring.Finset
import Mathlib.Data.List.GetD
import Mathlib.Tactic.Linarith
import Mathlib.Tactic.Ring

/-!
# Bijective numeration

A number is written with digits that each count for one more than they say, so that no digit is
lost in front: every number has exactly one sequence of digits, zero the empty one. Nothing here
is about one program.

## Main definitions

* `Bijective.value b ds`: the number that the digits `ds` stand for, most significant first
* `Bijective.digits b n`: the digits of `n`

## Main results

* `value_digits`: every number has digits
* `value_inj`: it has no others
* `value_eq_sum`: the number as a sum over its digits
-/

namespace Bijective

variable (b : ℕ)

/-- The number that the digits stand for, most significant first, each counting for one more. -/
def value (ds : List ℕ) : ℕ := ds.foldl (fun n d => n * b + (d + 1)) 0

/-- The digits of a number, most significant first. -/
def digits : ℕ → List ℕ
  | 0 => []
  | n + 1 => digits (n / b) ++ [n % b]
termination_by n => n
decreasing_by exact Nat.lt_succ_of_le (Nat.div_le_self n b)

variable {b}

@[simp] theorem value_nil : value b [] = 0 := rfl

theorem value_append_singleton (ds : List ℕ) (d : ℕ) :
    value b (ds ++ [d]) = value b ds * b + (d + 1) := by
  rw [value, List.foldl_append]
  rfl

@[simp] theorem digits_zero : digits b 0 = [] := by rw [digits]

theorem digits_succ (n : ℕ) : digits b (n + 1) = digits b (n / b) ++ [n % b] := by rw [digits]

/-- **Every number has digits.** -/
theorem value_digits (n : ℕ) : value b (digits b n) = n := by
  induction n using Nat.strong_induction_on with
  | _ n ih =>
    cases n with
    | zero => rw [digits_zero, value_nil]
    | succ n =>
      rw [digits_succ, value_append_singleton, ih _ (Nat.lt_succ_of_le (Nat.div_le_self n b)),
        ← Nat.add_assoc, Nat.mul_comm, Nat.div_add_mod]

/-- The last digit, and what is left without it. -/
theorem div_mod_of_value {ds : List ℕ} {d n : ℕ} (hd : d < b)
    (h : value b (ds ++ [d]) = n + 1) : value b ds = n / b ∧ d = n % b := by
  rw [value_append_singleton, ← Nat.add_assoc, Nat.add_right_cancel_iff] at h
  have hb : 0 < b := Nat.zero_lt_of_lt hd
  rw [← h, Nat.mul_comm, Nat.mul_add_div hb, Nat.div_eq_of_lt hd, Nat.mul_add_mod,
    Nat.mod_eq_of_lt hd]
  exact ⟨rfl, rfl⟩

/-- **No number has two sequences of digits.** -/
theorem digits_value {ds : List ℕ} (h : ∀ d ∈ ds, d < b) : digits b (value b ds) = ds := by
  induction ds using List.reverseRecOn with
  | nil => simp
  | append_singleton ds d ih =>
    have hd : d < b := h d (by simp)
    have hds := ih fun d hd => h d (List.mem_append_left _ hd)
    obtain ⟨hdiv, hmod⟩ := div_mod_of_value (n := value b ds * b + d) hd
      (by rw [value_append_singleton, Nat.add_assoc])
    rw [value_append_singleton, ← Nat.add_assoc, digits_succ, ← hdiv, ← hmod, hds]

theorem value_inj {ds ds' : List ℕ} (h : ∀ d ∈ ds, d < b) (h' : ∀ d ∈ ds', d < b)
    (heq : value b ds = value b ds') : ds = ds' := by
  rw [← digits_value h, heq, digits_value h']

/-- The number as a sum over its digits. -/
theorem value_eq_sum (ds : List ℕ) :
    value b ds = ∑ i ∈ Finset.range ds.length, b ^ i * (ds.getD (ds.length - 1 - i) 0 + 1) := by
  induction ds using List.reverseRecOn with
  | nil => rfl
  | append_singleton ds d ih =>
    rw [value_append_singleton, ih, List.length_append, List.length_singleton,
      Finset.sum_range_succ', Finset.sum_mul]
    congr 1
    · refine Finset.sum_congr rfl fun i hi => ?_
      have hlt := Finset.mem_range.mp hi
      rw [List.getD_append _ _ _ _ (by omega), pow_succ,
        show ds.length + 1 - 1 - (i + 1) = ds.length - 1 - i by omega]
      ring
    · rw [Nat.add_sub_cancel, Nat.sub_zero, List.getD_append_right _ _ _ _ le_rfl, Nat.sub_self,
        List.getD_cons_zero, pow_zero, Nat.one_mul]

end Bijective
