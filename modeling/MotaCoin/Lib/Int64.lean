import Mathlib.Data.Int.Basic
import Mathlib.Tactic.Linarith

/-!
# Two's complement 64-bit arithmetic on integers

A signed 64-bit word is an integer in `[-2^63, 2^63)`; `wrap` brings any integer there. An
accumulator that wraps at every addition equals the plain sum as long as the partial sums stay in
range, which for terms of one sign is a bound on the total.

## Main definitions

* `InRange x`: the integer `x` is a signed 64-bit word
* `wrap x`: the word congruent to `x` modulo `2^64`
* `wrapSum xs`: the wrapping sum of `xs`, from the left

## Main results

* `wrap_eq_self`: `wrap` is the identity on words
* `wrap_add_wrap`: wrapping an addend changes nothing after another wrap
* `wrap_eq_wrap_iff`: words are equal exactly when the integers are congruent
* `foldl_wrap`: a wrapping accumulation is the wrapped sum
-/

namespace Int64

/-- The integer `x` is a signed 64-bit word. -/
def InRange (x : Int) : Prop := -2 ^ 63 ≤ x ∧ x < 2 ^ 63

instance (x : Int) : Decidable (InRange x) := inferInstanceAs (Decidable (_ ∧ _))

/-- The signed 64-bit word congruent to `x` modulo `2^64`. -/
def wrap (x : Int) : Int := (x + 2 ^ 63) % 2 ^ 64 - 2 ^ 63

theorem inRange_wrap (x : Int) : InRange (wrap x) := by
  unfold InRange wrap
  omega

theorem wrap_eq_self {x : Int} (h : InRange x) : wrap x = x := by
  unfold InRange at h
  unfold wrap
  omega

@[simp] theorem wrap_add_wrap (x y : Int) : wrap (wrap x + y) = wrap (x + y) := by
  unfold wrap
  omega

@[simp] theorem add_wrap (x y : Int) : wrap (x + wrap y) = wrap (x + y) := by
  rw [add_comm, wrap_add_wrap, add_comm]

/-- Words are equal exactly when the integers are congruent. -/
theorem wrap_eq_wrap_iff {x y : Int} : wrap x = wrap y ↔ (x - y) % 2 ^ 64 = 0 := by
  unfold wrap
  omega

theorem wrap_sub_self_mod (x : Int) : (wrap x - x) % 2 ^ 64 = 0 := by
  unfold wrap
  omega

@[simp] theorem wrap_zero : wrap 0 = 0 := wrap_eq_self (by decide)

/-- The wrapping sum of a list, accumulated from the left. -/
def wrapSum (xs : List Int) : Int := xs.foldl (fun acc x => wrap (acc + x)) 0

/-- **A wrapping accumulation is the wrapped sum.** -/
theorem foldl_wrap (xs : List Int) (a : Int) :
    xs.foldl (fun acc x => wrap (acc + x)) (wrap a) = wrap (a + xs.sum) := by
  induction xs generalizing a with
  | nil => simp
  | cons x xs ih =>
    rw [List.foldl_cons, wrap_add_wrap, ih, List.sum_cons, add_assoc]

theorem wrapSum_eq (xs : List Int) : wrapSum xs = wrap xs.sum := by
  have h := foldl_wrap xs 0
  rw [wrap_zero, zero_add] at h
  exact h

end Int64
