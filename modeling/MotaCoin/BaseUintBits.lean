import Mathlib.Data.List.GetD
import MotaCoin.BaseUint

/-!
# Bits of fixed-width integers

`operator<<=` and `operator>>=` clear the array and then go through the words of the old one: the bits of a word come into one word of the new
array, or into two words side by side where the count is no multiple of 32. Bit by bit the new array
is the old one moved by the count.

## Main definitions

* `shiftLeft`, `shiftRight`: the two shifts, for every count

## Main results

* `testBit_shiftLeftRound`, `testBit_shiftRightRound`: what a round adds
* `toNat_shiftLeft`: a product with a power of two, modulo the width
* `toNat_shiftRight`: a quotient by a power of two
-/

namespace MotaCoin

open Limbs

namespace BaseUint

variable {width : ℕ}

theorem testBit_value (pn : List UInt32) (n : ℕ) :
    (value pn).testBit n = (pn.getD (n / 32) 0).toNat.testBit (n % 32) := by
  rw [value, testBit_ofDigits (by decide) (fit_toNat pn)]
  exact congrArg (Nat.testBit · (n % 32)) (List.getD_map pn 0 UInt32.toNat)

/-! ## The loops of the shifts -/

section Loops

/-- `pn[j] |= v`. -/
def orWord (pn : List UInt32) (j : ℕ) (v : UInt32) : List UInt32 := pn.modify j (· ||| v)

/-- A round of `operator<<=`, with the old array `a`, `k` words and `shift` bits. -/
def shiftLeftRound (a : List UInt32) (k : ℕ) (shift : UInt32) (pn : List UInt32) (i : ℕ) :
    List UInt32 :=
  let pn := if i + k + 1 < a.length ∧ shift ≠ 0 then
    orWord pn (i + k + 1) (a.getD i 0 >>> (32 - shift)) else pn
  if i + k < a.length then orWord pn (i + k) (a.getD i 0 <<< shift) else pn

/-- A round of `operator>>=`. -/
def shiftRightRound (a : List UInt32) (k : ℕ) (shift : UInt32) (pn : List UInt32) (i : ℕ) :
    List UInt32 :=
  let pn := if (i : ℤ) - k - 1 ≥ 0 ∧ shift ≠ 0 then
    orWord pn (i - k - 1) (a.getD i 0 <<< (32 - shift)) else pn
  if (i : ℤ) - k ≥ 0 then orWord pn (i - k) (a.getD i 0 >>> shift) else pn

@[simp] theorem length_orWord (pn : List UInt32) (j : ℕ) (v : UInt32) :
    (orWord pn j v).length = pn.length := List.length_modify ..

@[simp] theorem length_shiftLeftRound (a : List UInt32) (k : ℕ) (shift : UInt32) (pn : List UInt32)
    (i : ℕ) : (shiftLeftRound a k shift pn i).length = pn.length := by
  simp only [shiftLeftRound, apply_ite List.length, length_orWord, ite_self]

@[simp] theorem length_shiftRightRound (a : List UInt32) (k : ℕ) (shift : UInt32)
    (pn : List UInt32) (i : ℕ) : (shiftRightRound a k shift pn i).length = pn.length := by
  simp only [shiftRightRound, apply_ite List.length, length_orWord, ite_self]

/-- The rounds of a loop keep the length of the array. -/
theorem length_rounds {f : List UInt32 → ℕ → List UInt32} (hf : ∀ pn i, (f pn i).length = pn.length)
    (n : ℕ) (pn : List UInt32) : ((List.range n).foldl f pn).length = pn.length :=
  foldl_range_induction (P := fun _ pn' => pn'.length = pn.length) rfl
    fun i _ pn' h => (hf pn' i).trans h

/-- `operator<<=`. -/
def shiftLeft (a : BaseUint width) (shift : UInt32) : BaseUint width :=
  ⟨(List.range width).foldl (shiftLeftRound a.pn (shift / 32).toNat (shift % 32))
    (List.replicate width 0), by rw [length_rounds (by simp), List.length_replicate]⟩

/-- `operator>>=`. -/
def shiftRight (a : BaseUint width) (shift : UInt32) : BaseUint width :=
  ⟨(List.range width).foldl (shiftRightRound a.pn (shift / 32).toNat (shift % 32))
    (List.replicate width 0), by rw [length_rounds (by simp), List.length_replicate]⟩

end Loops

/-! ## The bits of a round -/

section Bits

variable {a pn : List UInt32} {shift x v : UInt32} {i j k m n : ℕ}

/-- A word that is written into, where `c` holds. -/
theorem testBit_orWord {c : Prop} [Decidable c] (hc : c → j < pn.length) (n : ℕ) :
    (value (if c then orWord pn j v else pn)).testBit n =
      ((value pn).testBit n || (decide (c ∧ n / 32 = j) && v.toNat.testBit (n % 32))) := by
  by_cases h : c
  · rw [if_pos h, testBit_value, testBit_value, orWord, List.getD_eq_getElem?_getD,
      List.getElem?_modify]
    by_cases hj : n / 32 = j
    · have hget : pn[n / 32]? = some (pn.getD (n / 32) 0) := by
        rw [hj, List.getD_eq_getElem?_getD, List.getElem?_eq_getElem (hc h), Option.getD_some]
      rw [hget]
      simp [h, hj]
    · simp [hj, Ne.symm hj]
  · simp [h]

theorem testBit_shiftLeft_word (hshift : shift.toNat < 32) (hm : m < 32) :
    (x <<< shift).toNat.testBit m =
      (decide (shift.toNat ≤ m) && x.toNat.testBit (m - shift.toNat)) := by
  rw [UInt32.toNat_shiftLeft, Nat.mod_eq_of_lt hshift, Nat.testBit_mod_two_pow,
    Nat.testBit_shiftLeft]
  simp [hm]

theorem testBit_shiftRight_word (hshift : shift.toNat < 32) :
    (x >>> shift).toNat.testBit m = x.toNat.testBit (shift.toNat + m) := by
  rw [UInt32.toNat_shiftRight, Nat.mod_eq_of_lt hshift, Nat.testBit_shiftRight]

/-- A word has no bits beyond its own. -/
theorem testBit_word_eq_false (x : UInt32) (hm : 32 ≤ m) : x.toNat.testBit m = false :=
  Nat.testBit_lt_two_pow (x.toNat_lt.trans_le (Nat.pow_le_pow_right (by decide) hm))

theorem toNat_sub_shift (hshift : shift.toNat < 32) : (32 - shift).toNat = 32 - shift.toNat :=
  UInt32.toNat_sub_of_le 32 shift (UInt32.le_iff_toNat_le.mpr hshift.le)

/-- A round of `operator<<=` adds the bits of the word `i`, moved up. -/
theorem testBit_shiftLeftRound (hshift : shift.toNat < 32) (hlen : pn.length = a.length) (n : ℕ)
    (hn : n < 32 * a.length) :
    (value (shiftLeftRound a k shift pn i)).testBit n = ((value pn).testBit n ||
      (decide (32 * k + shift.toNat ≤ n ∧ (n - (32 * k + shift.toNat)) / 32 = i) &&
        (value a).testBit (n - (32 * k + shift.toNat)))) := by
  have hzero : shift ≠ 0 ↔ shift.toNat ≠ 0 := by rw [Ne, ← UInt32.toNat_inj]; rfl
  have hm : n % 32 < 32 := Nat.mod_lt n (by decide)
  rw [shiftLeftRound, testBit_orWord (by simp [apply_ite List.length, hlen]),
    testBit_orWord (by rw [hlen]; exact And.left), Bool.or_assoc, testBit_value a]
  congr 1
  by_cases hlow : n / 32 = i + k
  · -- the bits that stay in the word
    have hfirst : ¬((i + k + 1 < a.length ∧ shift ≠ 0) ∧ n / 32 = i + k + 1) := by omega
    have hsecond : i + k < a.length ∧ n / 32 = i + k := by omega
    rw [decide_eq_false hfirst, decide_eq_true hsecond, testBit_shiftLeft_word hshift hm]
    by_cases hbit : shift.toNat ≤ n % 32
    · have hdiv : (n - (32 * k + shift.toNat)) / 32 = i := by omega
      have hmod : (n - (32 * k + shift.toNat)) % 32 = n % 32 - shift.toNat := by omega
      have hle : 32 * k + shift.toNat ≤ n := by omega
      simp [hbit, hdiv, hmod, hle]
    · have hout : ¬(32 * k + shift.toNat ≤ n ∧ (n - (32 * k + shift.toNat)) / 32 = i) := by omega
      simp [hbit, hout]
  · have hsecond : ¬(i + k < a.length ∧ n / 32 = i + k) := by omega
    rw [decide_eq_false hsecond]
    by_cases hin : 32 * k + shift.toNat ≤ n ∧ (n - (32 * k + shift.toNat)) / 32 = i
    · -- the bits that cross into the next word
      have hfirst : (i + k + 1 < a.length ∧ shift ≠ 0) ∧ n / 32 = i + k + 1 := by
        rw [hzero]
        omega
      have hsub := toNat_sub_shift hshift
      have hmod : (n - (32 * k + shift.toNat)) % 32 = 32 - shift.toNat + n % 32 := by omega
      rw [decide_eq_true hfirst, decide_eq_true hin, hin.2, hmod,
        testBit_shiftRight_word (by omega), hsub]
      simp
    · rw [decide_eq_false hin]
      by_cases hfirst : (i + k + 1 < a.length ∧ shift ≠ 0) ∧ n / 32 = i + k + 1
      · have hsub := toNat_sub_shift hshift
        rw [hzero] at hfirst
        rw [testBit_shiftRight_word (by omega), testBit_word_eq_false _ (by omega)]
        simp
      · rw [decide_eq_false hfirst]
        rfl

/-- A round of `operator>>=` adds the bits of the word `i`, moved down. -/
theorem testBit_shiftRightRound (hshift : shift.toNat < 32) (hlen : pn.length = a.length)
    (hi : i < a.length) (n : ℕ) :
    (value (shiftRightRound a k shift pn i)).testBit n = ((value pn).testBit n ||
      (decide ((n + (32 * k + shift.toNat)) / 32 = i) &&
        (value a).testBit (n + (32 * k + shift.toNat)))) := by
  have hzero : shift ≠ 0 ↔ shift.toNat ≠ 0 := by rw [Ne, ← UInt32.toNat_inj]; rfl
  have hm : n % 32 < 32 := Nat.mod_lt n (by decide)
  have hword : (i : ℤ) - k ≥ 0 → i - k < pn.length := fun _ => by omega
  rw [shiftRightRound, testBit_orWord (by simpa [apply_ite List.length] using hword),
    testBit_orWord (by omega), Bool.or_assoc, testBit_value a]
  congr 1
  by_cases hlow : n / 32 + k = i
  · -- the bits that stay in the word
    have hfirst : ¬(((i : ℤ) - k - 1 ≥ 0 ∧ shift ≠ 0) ∧ n / 32 = i - k - 1) := by omega
    have hsecond : (i : ℤ) - k ≥ 0 ∧ n / 32 = i - k := by omega
    rw [decide_eq_false hfirst, decide_eq_true hsecond, testBit_shiftRight_word hshift]
    by_cases hbit : shift.toNat + n % 32 < 32
    · have hdiv : (n + (32 * k + shift.toNat)) / 32 = i := by omega
      have hmod : (n + (32 * k + shift.toNat)) % 32 = shift.toNat + n % 32 := by omega
      simp [hdiv, hmod]
    · have hout : ¬(n + (32 * k + shift.toNat)) / 32 = i := by omega
      have hnone : (a.getD i 0).toNat.testBit (shift.toNat + n % 32) = false :=
        testBit_word_eq_false _ (by omega)
      rw [hnone, decide_eq_false hout]
      simp
  · have hsecond : ¬((i : ℤ) - k ≥ 0 ∧ n / 32 = i - k) := by omega
    rw [decide_eq_false hsecond]
    by_cases hin : (n + (32 * k + shift.toNat)) / 32 = i
    · -- the bits that cross into the word below
      have hfirst : ((i : ℤ) - k - 1 ≥ 0 ∧ shift ≠ 0) ∧ n / 32 = i - k - 1 := by
        rw [hzero]
        omega
      have hsub := toNat_sub_shift hshift
      have hmod : (n + (32 * k + shift.toNat)) % 32 = n % 32 - (32 - shift.toNat) := by omega
      have hle : 32 - shift.toNat ≤ n % 32 := by omega
      rw [decide_eq_true hfirst, decide_eq_true hin, hin, hmod,
        testBit_shiftLeft_word (by omega) hm, hsub]
      simp [hle]
    · rw [decide_eq_false hin]
      by_cases hfirst : ((i : ℤ) - k - 1 ≥ 0 ∧ shift ≠ 0) ∧ n / 32 = i - k - 1
      · have hsub := toNat_sub_shift hshift
        rw [hzero] at hfirst
        have hle : ¬(32 - shift.toNat ≤ n % 32) := by omega
        rw [testBit_shiftLeft_word (by omega) hm, hsub]
        simp [hle]
      · rw [decide_eq_false hfirst]
        rfl

end Bits

/-! ## Numbers -/

section Numbers

theorem div_add_mod_shift (shift : UInt32) :
    32 * (shift / 32).toNat + (shift % 32).toNat = shift.toNat := by
  rw [UInt32.toNat_div, UInt32.toNat_mod]
  exact Nat.div_add_mod _ _

theorem toNat_mod_shift_lt (shift : UInt32) : (shift % 32).toNat < 32 := by
  rw [UInt32.toNat_mod]
  exact Nat.mod_lt _ (by decide)

/-- After all rounds the bits of all words are moved up. -/
theorem testBit_shiftLeft (a : BaseUint width) (shift : UInt32) {n : ℕ} (hn : n < 32 * width) :
    (a.shiftLeft shift).toNat.testBit n =
      (decide (shift.toNat ≤ n) && a.toNat.testBit (n - shift.toNat)) := by
  have hround := foldl_range_induction (n := width) (b := List.replicate width (0 : UInt32))
    (f := shiftLeftRound a.pn (shift / 32).toNat (shift % 32))
    (P := fun i pn => pn.length = width ∧ ∀ n < 32 * width, (value pn).testBit n =
      (decide (shift.toNat ≤ n ∧ (n - shift.toNat) / 32 < i) &&
        a.toNat.testBit (n - shift.toNat))) ?_ ?_
  · -- every word of the old array has had its round
    have hall : (n - shift.toNat) / 32 < width := by omega
    have hbits := hround.2 n hn
    simp only [hall, and_true] at hbits
    exact hbits
  · refine ⟨List.length_replicate, fun n _ => ?_⟩
    simp [value_zeros]
  · intro i _ pn ⟨hlen, hbits⟩
    refine ⟨by rw [length_shiftLeftRound, hlen], fun n hn => ?_⟩
    rw [testBit_shiftLeftRound (toNat_mod_shift_lt shift) (hlen.trans a.length_pn.symm) n
      (by rwa [a.length_pn]), hbits n hn, div_add_mod_shift, toNat, ← Bool.and_or_distrib_right,
      ← Bool.decide_or]
    congr 1
    exact decide_eq_decide.mpr (by omega)

theorem testBit_shiftRight (a : BaseUint width) (shift : UInt32) (n : ℕ) :
    (a.shiftRight shift).toNat.testBit n = a.toNat.testBit (n + shift.toNat) := by
  have hround := foldl_range_induction (n := width) (b := List.replicate width (0 : UInt32))
    (f := shiftRightRound a.pn (shift / 32).toNat (shift % 32))
    (P := fun i pn => pn.length = width ∧ ∀ n, (value pn).testBit n =
      (decide ((n + shift.toNat) / 32 < i) && a.toNat.testBit (n + shift.toNat))) ?_ ?_
  · have hbits := hround.2 n
    by_cases hall : (n + shift.toNat) / 32 < width
    · rw [decide_eq_true hall, Bool.true_and] at hbits
      exact hbits
    · -- the old array has no bits there either
      have hhigh : 2 ^ (32 * width) ≤ 2 ^ (n + shift.toNat) :=
        Nat.pow_le_pow_right (by decide) (by omega)
      rw [decide_eq_false hall, Bool.false_and] at hbits
      rw [Nat.testBit_lt_two_pow (a.toNat_lt.trans_le hhigh)]
      exact hbits
  · refine ⟨List.length_replicate, fun n => ?_⟩
    simp [value_zeros]
  · intro i hi pn ⟨hlen, hbits⟩
    refine ⟨by rw [length_shiftRightRound, hlen], fun n => ?_⟩
    rw [testBit_shiftRightRound (toNat_mod_shift_lt shift) (hlen.trans a.length_pn.symm)
      (by rwa [a.length_pn]), hbits n, div_add_mod_shift, toNat, ← Bool.and_or_distrib_right,
      ← Bool.decide_or]
    congr 1
    exact decide_eq_decide.mpr (by omega)

/-- `<<=` multiplies by a power of two. -/
theorem toNat_shiftLeft (a : BaseUint width) (shift : UInt32) :
    (a.shiftLeft shift).toNat = a.toNat * 2 ^ shift.toNat % 2 ^ (32 * width) := by
  apply Nat.eq_of_testBit_eq
  intro n
  rw [Nat.testBit_mod_two_pow, Nat.testBit_mul_two_pow]
  by_cases hn : n < 32 * width
  · rw [testBit_shiftLeft a shift hn, decide_eq_true hn, Bool.true_and]
  · have hhigh : 2 ^ (32 * width) ≤ 2 ^ n := Nat.pow_le_pow_right (by decide) (Nat.not_lt.mp hn)
    rw [Nat.testBit_lt_two_pow ((toNat_lt _).trans_le hhigh), decide_eq_false hn, Bool.false_and]

/-- `>>=` divides by a power of two. -/
theorem toNat_shiftRight (a : BaseUint width) (shift : UInt32) :
    (a.shiftRight shift).toNat = a.toNat / 2 ^ shift.toNat := by
  apply Nat.eq_of_testBit_eq
  intro n
  rw [Nat.testBit_div_two_pow, testBit_shiftRight]

end Numbers

end BaseUint

end MotaCoin
