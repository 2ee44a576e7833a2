import Mathlib.Data.Nat.Digits.Lemmas
import Mathlib.Tactic.Ring
import Mathlib.Tactic.Linarith

/-!
# Numbers in an array of words

A number that is kept as digits of one base, the lowest first, as `Nat.ofDigits` evaluates them:
its bits where the base is a power of two, its complement, and how numbers compare from the highest
digit down. Nothing here is about one program.

## Main definitions

* `Limbs.Fit B l`: the digits are below the base

## Main results

* `testBit_ofDigits`: the bits of a number are those of its words
* `ofDigits_compl`: all digits complemented
* `ofDigits_lt_iff_of_concat`: the highest digit decides
* `foldl_range_induction`: a loop over an index
-/

namespace Limbs

/-- The digits are below the base. -/
def Fit (B : ℕ) (l : List ℕ) : Prop := ∀ d ∈ l, d < B

section Digits

variable {B w : ℕ} {l l' : List ℕ} {x y : ℕ}

theorem fit_cons : Fit B (x :: l) ↔ x < B ∧ Fit B l := List.forall_mem_cons

theorem Fit.ofDigits_lt (hB : 1 < B) (h : Fit B l) : Nat.ofDigits B l < B ^ l.length :=
  Nat.ofDigits_lt_base_pow_length hB h

/-- **The bits of a number** are those of its words. -/
theorem testBit_ofDigits (hw : 0 < w) (h : Fit (2 ^ w) l) (n : ℕ) :
    (Nat.ofDigits (2 ^ w) l).testBit n = (l.getD (n / w) 0).testBit (n % w) := by
  induction l generalizing n with
  | nil => simp
  | cons d l ih =>
    rw [fit_cons] at h
    rw [Nat.ofDigits_cons, Nat.add_comm, Nat.testBit_two_pow_mul_add _ h.1]
    split
    · next hlow => rw [Nat.div_eq_of_lt hlow, Nat.mod_eq_of_lt hlow, List.getD_cons_zero]
    · next hhigh =>
      rw [Nat.not_lt] at hhigh
      have hdiv : n / w = (n - w) / w + 1 := by
        rw [← Nat.add_div_right _ hw, Nat.sub_add_cancel hhigh]
      rw [ih h.2, hdiv, List.getD_cons_succ, Nat.mod_eq_sub_mod hhigh]

/-- All digits complemented: the number and its complement are the largest number. -/
theorem ofDigits_compl (h : Fit B l) :
    Nat.ofDigits B (l.map fun d => B - 1 - d) + Nat.ofDigits B l + 1 = B ^ l.length := by
  induction l with
  | nil => rfl
  | cons d l ih =>
    rw [fit_cons] at h
    have ih := ih h.2
    have hd : B - 1 - d + d + 1 = B := by omega
    rw [List.map_cons, Nat.ofDigits_cons, Nat.ofDigits_cons, List.length_cons, pow_succ, ← ih]
    calc B - 1 - d + B * Nat.ofDigits B (l.map fun d => B - 1 - d) + (d + B * Nat.ofDigits B l) + 1
        = (B - 1 - d + d + 1) +
          B * (Nat.ofDigits B (l.map fun d => B - 1 - d) + Nat.ofDigits B l) := by ring
      _ = _ := by rw [hd]; ring

/-- The highest digit decides which number is smaller, and where it is the same the others do. -/
theorem ofDigits_lt_iff_of_concat (hB : 1 < B) (hlen : l.length = l'.length) (h : Fit B l)
    (h' : Fit B l') : Nat.ofDigits B (l ++ [x]) < Nat.ofDigits B (l' ++ [y]) ↔
      x < y ∨ x = y ∧ Nat.ofDigits B l < Nat.ofDigits B l' := by
  have hlt := h.ofDigits_lt hB
  have hlt' := h'.ofDigits_lt hB
  simp only [Nat.ofDigits_append, Nat.ofDigits_singleton, hlen] at hlt ⊢
  generalize B ^ l'.length = P at hlt hlt' ⊢
  rcases Nat.lt_trichotomy x y with hxy | rfl | hxy
  · have hmul := Nat.mul_le_mul_left P (Nat.succ_le_of_lt hxy)
    rw [Nat.mul_succ] at hmul
    exact iff_of_true (by omega) (Or.inl hxy)
  · simp
  · have hmul := Nat.mul_le_mul_left P (Nat.succ_le_of_lt hxy)
    rw [Nat.mul_succ] at hmul
    exact iff_of_false (by omega) (by omega)

end Digits

/-! ## Loops -/

/-- A loop over an index keeps what every round keeps. -/
theorem foldl_range_induction {β : Type*} {P : ℕ → β → Prop} {f : β → ℕ → β} {b : β} {n : ℕ}
    (init : P 0 b) (round : ∀ i < n, ∀ b, P i b → P (i + 1) (f b i)) :
    P n ((List.range n).foldl f b) := by
  induction n with
  | zero => exact init
  | succ n ih =>
    rw [List.range_succ, List.foldl_append, List.foldl_cons, List.foldl_nil]
    exact round n (Nat.lt_succ_self n) _ (ih fun i hi => round i (Nat.lt_succ_of_lt hi))

end Limbs
