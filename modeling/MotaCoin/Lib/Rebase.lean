import Mathlib.Data.Nat.Digits.Lemmas
import Mathlib.Data.List.TakeWhile

/-!
# Numerals with leading zeros in another base

A numeral, most significant digit first, is its number of leading zeros and the number that it
denotes. Both are kept when it is rewritten in another base, and so the way back gives the same
numeral. Nothing here is about one program.

## Main definitions

* `Rebase.leading l`, `Rebase.value b l`: the leading zeros, and the number denoted in base `b`
* `Rebase.numeral b z n`: the numeral of `n` in base `b` with `z` leading zeros
* `Rebase.rebase b c l`: the numeral `l` of base `b`, rewritten in base `c`

## Main results

* `numeral_leading_value`: a numeral is given by its leading zeros and its number
* `rebase_rebase`: there and back again
-/

namespace Rebase

variable {b c z n : ℕ} {l : List ℕ}

/-- The number of leading zeros. -/
def leading (l : List ℕ) : ℕ := (l.takeWhile (· = 0)).length

/-- The number that a numeral denotes. -/
def value (b : ℕ) (l : List ℕ) : ℕ := Nat.ofDigits b l.reverse

/-- The numeral of a number with leading zeros. -/
def numeral (b z n : ℕ) : List ℕ := List.replicate z 0 ++ (Nat.digits b n).reverse

/-- A numeral in another base. -/
def rebase (b c : ℕ) (l : List ℕ) : List ℕ := numeral c (leading l) (value b l)

theorem numeral_lt (hb : 1 < b) : ∀ d ∈ numeral b z n, d < b := by
  intro d hd
  rcases List.mem_append.mp hd with hd | hd
  · rw [List.eq_of_mem_replicate hd]
    exact Nat.zero_lt_of_lt hb
  · exact Nat.digits_lt_base hb (List.mem_reverse.mp hd)

/-- The first digit that is not a leading zero. -/
theorem head_reverse_digits (b n : ℕ) : ∀ d ∈ (Nat.digits b n).reverse.head?, d ≠ 0 := by
  intro d hd hzero
  rw [List.head?_reverse] at hd
  have hne : n ≠ 0 := by
    rintro rfl
    rw [Nat.digits_zero] at hd
    cases hd
  have hlast := Nat.getLast_digit_ne_zero b hne
  rw [List.getLast?_eq_some_getLast (Nat.digits_ne_nil_iff_ne_zero.mpr hne),
    Option.mem_some_iff] at hd
  exact hlast (hd.trans hzero)

/-- Where the leading zeros end. -/
theorem leading_append (z : ℕ) (h : ∀ d ∈ l.head?, d ≠ 0) :
    leading (List.replicate z 0 ++ l) = z := by
  have hzeros : ∀ d ∈ List.replicate z 0, decide (d = 0) = true := by
    intro d hd
    rw [List.eq_of_mem_replicate hd]
    rfl
  have hstop : l.takeWhile (· = 0) = [] := by
    cases l with
    | nil => rfl
    | cons d l => exact List.takeWhile_cons_of_neg (by simpa using h d rfl)
  rw [leading, List.takeWhile_append_of_pos hzeros, hstop, List.append_nil, List.length_replicate]

theorem leading_numeral : leading (numeral b z n) = z :=
  leading_append z (head_reverse_digits b n)

/-- Leading zeros count for nothing. -/
theorem value_append (b z : ℕ) (l : List ℕ) :
    value b (List.replicate z 0 ++ l) = value b l := by
  rw [value, List.reverse_append, List.reverse_replicate, Nat.ofDigits_append_replicate_zero]
  rfl

theorem value_numeral : value b (numeral b z n) = n := by
  rw [numeral, value_append, value, List.reverse_reverse, Nat.ofDigits_digits]

/-- **A numeral is given by its leading zeros and its number.** -/
theorem numeral_leading_value (hb : 1 < b) (hl : ∀ d ∈ l, d < b) :
    numeral b (leading l) (value b l) = l := by
  have hzeros : l.takeWhile (· = 0) = List.replicate (leading l) 0 :=
    List.eq_replicate_iff.mpr ⟨rfl, fun d hd => by simpa using List.mem_takeWhile_imp hd⟩
  have hsplit : l = List.replicate (leading l) 0 ++ l.dropWhile (· = 0) := by
    rw [← hzeros, List.takeWhile_append_dropWhile]
  have hdigits : Nat.digits b (value b l) = (l.dropWhile (· = 0)).reverse := by
    rw [hsplit, value_append, ← hsplit]
    refine Nat.digits_ofDigits b hb _ ?_ fun hne => ?_
    · intro d hd
      exact hl d ((List.dropWhile_sublist _).mem (List.mem_reverse.mp hd))
    · rw [List.getLast_reverse]
      have := List.head_dropWhile_not (fun d => decide (d = 0)) (by simpa using hne)
      simpa using this
  rw [numeral, hdigits, List.reverse_reverse, ← hsplit]

/-- **There and back again.** -/
theorem rebase_rebase (hb : 1 < b) (hl : ∀ d ∈ l, d < b) : rebase c b (rebase b c l) = l := by
  rw [rebase, rebase, leading_numeral, value_numeral, numeral_leading_value hb hl]

theorem rebase_lt (hc : 1 < c) : ∀ d ∈ rebase b c l, d < c := numeral_lt hc

end Rebase
