import MotaCoin.Lib.Limbs

/-!
# Fixed-width integers

`base_uint` keeps a number as an array of 32-bit words, the lowest first. The operators go through
the words one by one, with carries and borrows of their own; what they compute is the operation on
natural numbers, modulo the width. A word that an array of fewer than two words does not have is
left out of a `uint64_t`.

## Main definitions

* `BaseUint width`: `base_uint<32 * width>`, and `toNat`: the number
* `compl`, `neg`, `add`, `sub`, `incr`, `decr`, and those that take a `uint64_t`
* `lt`, `le`, `gt`, `ge`, `eq`, `ne`, and the two that take a `uint64_t`

## Main results

* `toNat_inj`: an array is determined by its number
* `toNat_add`, `toNat_sub`, `toNat_incr`, `toNat_decr`, `toNat_neg`, `toNat_compl`
* `lt_iff`, `le_iff`, `gt_iff`, `ge_iff`, `eq_iff`: the comparisons
-/

namespace MotaCoin

open Limbs

/-- `base_uint`, with `WIDTH` words. -/
structure BaseUint (width : ℕ) where
  pn : List UInt32
  length_pn : pn.length = width
deriving DecidableEq

namespace BaseUint

/-- The number in an array of words. -/
def value (pn : List UInt32) : ℕ := Nat.ofDigits (2 ^ 32) (pn.map UInt32.toNat)

variable {width : ℕ}

/-- The number. -/
def toNat (a : BaseUint width) : ℕ := value a.pn

/-- `BITS`, as a power of two. -/
theorem pow_bits (width : ℕ) : (2 ^ 32) ^ width = 2 ^ (32 * width) := (pow_mul 2 32 width).symm

/-! ## The operators -/

section Operators

/-- `operator~`. -/
def compl (a : BaseUint width) : BaseUint width := ⟨a.pn.map (~~~ ·), by simp [a.length_pn]⟩

/-- The loop of `operator++`: the carry goes on as long as a word becomes zero. -/
def incrFrom : List UInt32 → List UInt32
  | [] => []
  | x :: pn => if x + 1 = 0 then (x + 1) :: incrFrom pn else (x + 1) :: pn

/-- The loop of `operator--`: the borrow goes on as long as a word becomes `-1`. -/
def decrFrom : List UInt32 → List UInt32
  | [] => []
  | x :: pn => if x - 1 = 0xffffffff then (x - 1) :: decrFrom pn else (x - 1) :: pn

/-- The loop of `operator+=`. -/
def addFrom (carry : UInt64) : List UInt32 → List UInt32 → List UInt32
  | x :: pn, y :: b =>
    let n := carry + x.toUInt64 + y.toUInt64
    (n &&& 0xffffffff).toUInt32 :: addFrom (n >>> 32) pn b
  | _, _ => []

@[simp] theorem length_incrFrom (pn : List UInt32) : (incrFrom pn).length = pn.length := by
  induction pn with
  | nil => rfl
  | cons x pn ih =>
    rw [incrFrom]
    split
    · simp [ih]
    · simp

@[simp] theorem length_decrFrom (pn : List UInt32) : (decrFrom pn).length = pn.length := by
  induction pn with
  | nil => rfl
  | cons x pn ih =>
    rw [decrFrom]
    split
    · simp [ih]
    · simp

@[simp] theorem length_addFrom (carry : UInt64) (pn b : List UInt32) :
    (addFrom carry pn b).length = min pn.length b.length := by
  induction pn generalizing b carry with
  | nil => simp [addFrom]
  | cons x pn ih =>
    cases b with
    | nil => simp [addFrom]
    | cons y b => simp [addFrom, ih, Nat.add_min_add_right]

/-- `operator++`. -/
def incr (a : BaseUint width) : BaseUint width := ⟨incrFrom a.pn, by simp [a.length_pn]⟩

/-- `operator--`. -/
def decr (a : BaseUint width) : BaseUint width := ⟨decrFrom a.pn, by simp [a.length_pn]⟩

/-- Unary `operator-`. -/
def neg (a : BaseUint width) : BaseUint width := a.compl.incr

/-- `operator+=`. -/
def add (a b : BaseUint width) : BaseUint width :=
  ⟨addFrom 0 a.pn b.pn, by simp [a.length_pn, b.length_pn]⟩

/-- `operator-=`. -/
def sub (a b : BaseUint width) : BaseUint width := a.add b.neg

/-- `operator=` for a `uint64_t`: two words, and then zeros. -/
def ofUInt64 (width : ℕ) (b : UInt64) : BaseUint width :=
  ⟨(b.toUInt32 :: (b >>> 32).toUInt32 :: List.replicate (width - 2) 0).take width, by simp; omega⟩

/-- `operator+=` for a `uint64_t`. -/
def addUInt64 (a : BaseUint width) (b64 : UInt64) : BaseUint width := a.add (ofUInt64 width b64)

/-- `operator-=` for a `uint64_t`. -/
def subUInt64 (a : BaseUint width) (b64 : UInt64) : BaseUint width :=
  a.add (ofUInt64 width b64).neg

/-- The loop of the four comparisons, from the highest word down: the first word that differs
decides, and `last` is returned when none does. -/
def compareFrom (first : UInt32 → UInt32 → Bool) (last : Bool) : List UInt32 → List UInt32 → Bool
  | x :: a, y :: b =>
    if first x y then true else if first y x then false else compareFrom first last a b
  | _, _ => last

/-- `operator<`. -/
def lt (a b : BaseUint width) : Bool :=
  compareFrom (fun x y => x < y) false a.pn.reverse b.pn.reverse

/-- `operator<=`. -/
def le (a b : BaseUint width) : Bool :=
  compareFrom (fun x y => x < y) true a.pn.reverse b.pn.reverse

/-- `operator>`. -/
def gt (a b : BaseUint width) : Bool :=
  compareFrom (fun x y => x > y) false a.pn.reverse b.pn.reverse

/-- `operator>=`. -/
def ge (a b : BaseUint width) : Bool :=
  compareFrom (fun x y => x > y) true a.pn.reverse b.pn.reverse

/-- The loop of `operator==`. -/
def eqFrom : List UInt32 → List UInt32 → Bool
  | x :: a, y :: b => if x ≠ y then false else eqFrom a b
  | _, _ => true

/-- `operator==`. -/
def eq (a b : BaseUint width) : Bool := eqFrom a.pn b.pn

/-- `operator!=`. -/
def ne (a b : BaseUint width) : Bool := !a.eq b

/-- `operator==` for a `uint64_t`. -/
def eqUInt64 (a : BaseUint width) (b : UInt64) : Bool :=
  if a.pn.getD 0 0 ≠ b.toUInt32 then false
  else if a.pn.getD 1 0 ≠ (b >>> 32).toUInt32 then false
  else (a.pn.drop 2).all (· == 0)

/-- `operator!=` for a `uint64_t`. -/
def neUInt64 (a : BaseUint width) (b : UInt64) : Bool := !a.eqUInt64 b

end Operators

/-! ## Numbers -/

section Numbers

variable {a b : BaseUint width} {pn : List UInt32} {x : UInt32}

theorem fit_toNat (pn : List UInt32) : Fit (2 ^ 32) (pn.map UInt32.toNat) := by
  intro d hd
  obtain ⟨x, -, rfl⟩ := List.mem_map.mp hd
  exact x.toNat_lt

@[simp] theorem value_nil : value [] = 0 := rfl

theorem value_cons (x : UInt32) (pn : List UInt32) : value (x :: pn) = x.toNat + 2 ^ 32 * value pn :=
  Nat.ofDigits_cons

@[simp] theorem value_zeros (k : ℕ) : value (List.replicate k 0) = 0 := by
  simp [value]

theorem value_lt (pn : List UInt32) : value pn < (2 ^ 32) ^ pn.length := by
  have hlt := (fit_toNat pn).ofDigits_lt (by decide)
  rwa [List.length_map] at hlt

theorem toNat_lt (a : BaseUint width) : a.toNat < 2 ^ (32 * width) := by
  have hlt := value_lt a.pn
  rwa [a.length_pn, pow_bits] at hlt

/-- **An array is determined by its number.** -/
theorem toNat_inj : a.toNat = b.toNat ↔ a = b := by
  refine ⟨fun h => ?_, fun h => h ▸ rfl⟩
  obtain ⟨pn, hpn⟩ := a
  obtain ⟨pn', hpn'⟩ := b
  have hmap := Nat.ofDigits_inj_of_len_eq (by decide) (by simp [hpn, hpn']) (fit_toNat pn)
    (fit_toNat pn') h
  have hwords : pn = pn' := (List.map_inj_right fun _ _ => UInt32.toNat_inj.mp).mp hmap
  subst hwords
  rfl

end Numbers

/-! ## Sums and differences -/

section Sums

/-- All words complemented. -/
theorem toNat_compl (a : BaseUint width) : a.compl.toNat = 2 ^ (32 * width) - 1 - a.toNat := by
  have hmap : (a.pn.map (~~~ ·)).map UInt32.toNat =
      (a.pn.map UInt32.toNat).map fun d => 2 ^ 32 - 1 - d := by
    simp
  have hsum := ofDigits_compl (fit_toNat a.pn)
  rw [List.length_map, a.length_pn, pow_bits] at hsum
  show Nat.ofDigits (2 ^ 32) ((a.pn.map (~~~ ·)).map UInt32.toNat) = _ - value a.pn
  rw [hmap, value]
  omega

/-- A number that is split at the first word, modulo the width. -/
theorem mod_pow_succ {r : ℕ} (hr : r < 2 ^ 32) (q n : ℕ) :
    (r + 2 ^ 32 * q) % (2 ^ 32) ^ (n + 1) = r + 2 ^ 32 * (q % (2 ^ 32) ^ n) := by
  rw [pow_succ' (2 ^ 32) n, Nat.mod_mul, Nat.add_mul_mod_self_left, Nat.mod_eq_of_lt hr,
    Nat.add_mul_div_left _ _ (by decide), Nat.div_eq_of_lt hr, Nat.zero_add]

/-- The carry of an increment runs through words that are all ones. -/
theorem value_incrFrom (pn : List UInt32) :
    value (incrFrom pn) = (value pn + 1) % (2 ^ 32) ^ pn.length := by
  induction pn with
  | nil => simp [incrFrom]
  | cons x pn ih =>
    have hx := x.toNat_lt
    have hzero : x + 1 = 0 ↔ x.toNat = 2 ^ 32 - 1 := by
      rw [← UInt32.toNat_inj, UInt32.toNat_add]
      simp only [UInt32.reduceToNat]
      omega
    rw [incrFrom]
    split
    · next hcarry =>
      -- the word becomes zero, and the others are one more
      have hnext : value (x :: pn) + 1 = 0 + 2 ^ 32 * (value pn + 1) := by
        rw [value_cons, hzero.mp hcarry]
        omega
      rw [value_cons, ih, hcarry, hnext, List.length_cons, mod_pow_succ (by decide)]
      rfl
    · next hstop =>
      -- the carry stops, and the words above stay as they are
      have hne := mt hzero.mpr hstop
      have hlt : x.toNat + 1 < 2 ^ 32 := by omega
      have hword : (x + 1).toNat = x.toNat + 1 := by
        rw [UInt32.toNat_add]
        exact Nat.mod_eq_of_lt hlt
      have hnext : value (x :: pn) + 1 = x.toNat + 1 + 2 ^ 32 * value pn := by
        rw [value_cons, Nat.add_right_comm]
      rw [value_cons, hnext, List.length_cons, hword, mod_pow_succ hlt, Nat.mod_eq_of_lt (value_lt pn)]

/-- The borrow of a decrement runs through words that are zero. -/
theorem value_decrFrom (pn : List UInt32) :
    (value (decrFrom pn) + 1) % (2 ^ 32) ^ pn.length = value pn := by
  induction pn with
  | nil => simp [decrFrom]
  | cons x pn ih =>
    have hx := x.toNat_lt
    have hword : (x - 1).toNat = (2 ^ 32 - 1 + x.toNat) % 2 ^ 32 := UInt32.toNat_sub x 1
    have hzero : x - 1 = 0xffffffff ↔ x.toNat = 0 := by
      rw [← UInt32.toNat_inj, hword]
      simp only [UInt32.reduceToNat]
      omega
    rw [decrFrom]
    split
    · next hborrow =>
      -- the word was zero, and the others are one less
      have hx0 := hzero.mp hborrow
      have hnext : value ((x - 1) :: decrFrom pn) + 1 = 0 + 2 ^ 32 * (value (decrFrom pn) + 1) := by
        rw [value_cons, hword, hx0]
        omega
      rw [hnext, List.length_cons, mod_pow_succ (by decide), ih, value_cons, hx0]
    · next hstop =>
      have hne := mt hzero.mpr hstop
      have hnext : value ((x - 1) :: pn) + 1 = x.toNat + 2 ^ 32 * value pn := by
        rw [value_cons, hword]
        omega
      rw [hnext, List.length_cons, mod_pow_succ hx, Nat.mod_eq_of_lt (value_lt pn), value_cons]

/-- The carry of a sum is never more than one. -/
theorem value_addFrom (carry : UInt64) (hcarry : carry.toNat ≤ 1) {pn b : List UInt32}
    (hlen : pn.length = b.length) :
    value (addFrom carry pn b) = (carry.toNat + value pn + value b) % (2 ^ 32) ^ pn.length := by
  induction pn generalizing carry b with
  | nil => simp [addFrom, Nat.mod_one]
  | cons x pn ih =>
    cases b with
    | nil => cases hlen
    | cons y b =>
      have hx := x.toNat_lt
      have hy := y.toNat_lt
      -- two words and a carry fit into 64 bits, so `n` is their sum
      have hn : (carry + x.toUInt64 + y.toUInt64).toNat = carry.toNat + x.toNat + y.toNat := by
        simp only [UInt64.toNat_add, UInt32.toNat_toUInt64]
        omega
      have hlow : ((carry + x.toUInt64 + y.toUInt64) &&& 0xffffffff).toUInt32.toNat =
          (carry.toNat + x.toNat + y.toNat) % 2 ^ 32 := by
        rw [UInt64.toNat_toUInt32, UInt64.toNat_and, hn]
        have hmask := Nat.and_two_pow_sub_one_eq_mod (carry.toNat + x.toNat + y.toNat) 32
        simp only [UInt64.reduceToNat]
        simp at hmask
        omega
      have hhigh : ((carry + x.toUInt64 + y.toUInt64) >>> 32).toNat =
          (carry.toNat + x.toNat + y.toNat) / 2 ^ 32 := by
        rw [UInt64.toNat_shiftRight, hn]
        exact Nat.shiftRight_eq_div_pow _ _
      have hsum : carry.toNat + value (x :: pn) + value (y :: b) =
          (carry.toNat + x.toNat + y.toNat) % 2 ^ 32 +
            2 ^ 32 * ((carry.toNat + x.toNat + y.toNat) / 2 ^ 32 + value pn + value b) := by
        rw [value_cons, value_cons]
        omega
      -- and what is carried on is again at most one
      have hrest := ih ((carry + x.toUInt64 + y.toUInt64) >>> 32) (by omega) (Nat.succ.inj hlen)
      rw [hsum, List.length_cons, mod_pow_succ (Nat.mod_lt _ (by decide)), ← hhigh, ← hrest, ← hlow]
      exact value_cons _ _

theorem toNat_incr (a : BaseUint width) : a.incr.toNat = (a.toNat + 1) % 2 ^ (32 * width) := by
  have hincr := value_incrFrom a.pn
  rw [a.length_pn, pow_bits] at hincr
  exact hincr

theorem toNat_add (a b : BaseUint width) :
    (a.add b).toNat = (a.toNat + b.toNat) % 2 ^ (32 * width) := by
  have hsum := value_addFrom 0 (Nat.zero_le 1) (a.length_pn.trans b.length_pn.symm)
  rw [a.length_pn, pow_bits] at hsum
  rw [← Nat.zero_add a.toNat]
  exact hsum

theorem toNat_decr (a : BaseUint width) :
    (a.decr.toNat : ℤ) = ((a.toNat : ℤ) - 1) % 2 ^ (32 * width) := by
  have hlt := a.decr.toNat_lt
  have hsucc : (a.decr.toNat + 1) % 2 ^ (32 * width) = a.toNat := by
    have hdecr := value_decrFrom a.pn
    rw [a.length_pn, pow_bits] at hdecr
    exact hdecr
  rw [← hsucc]
  push_cast
  rw [Int.emod_sub_emod, add_sub_cancel_right]
  exact (Int.emod_eq_of_lt (by positivity) (by exact_mod_cast hlt)).symm

theorem toNat_neg (a : BaseUint width) : (a.neg.toNat : ℤ) = -(a.toNat : ℤ) % 2 ^ (32 * width) := by
  have hlt := a.toNat_lt
  have hcompl : a.compl.toNat + 1 = 2 ^ (32 * width) - a.toNat := by
    rw [toNat_compl]
    omega
  rw [neg, toNat_incr, hcompl]
  push_cast [hlt.le]
  rw [sub_eq_neg_add, Int.add_emod_right]

theorem toNat_sub (a b : BaseUint width) :
    ((a.sub b).toNat : ℤ) = ((a.toNat : ℤ) - b.toNat) % 2 ^ (32 * width) := by
  rw [sub, toNat_add]
  push_cast
  rw [toNat_neg, Int.add_emod_emod, sub_eq_add_neg]

theorem toNat_high (b : UInt64) : (b >>> 32).toUInt32.toNat = b.toNat / 2 ^ 32 := by
  have hb := b.toNat_lt
  rw [UInt64.toNat_toUInt32, UInt64.toNat_shiftRight]
  simp [Nat.shiftRight_eq_div_pow]
  omega

/-- A `uint64_t` in the first two words. -/
theorem toNat_ofUInt64 (width : ℕ) (b : UInt64) :
    (ofUInt64 width b).toNat = b.toNat % 2 ^ (32 * width) := by
  have hlow : b.toUInt32.toNat = b.toNat % 2 ^ 32 := UInt64.toNat_toUInt32 b
  have hhigh : (b >>> 32).toUInt32.toNat = b.toNat / 2 ^ 32 := toNat_high b
  rw [← pow_bits]
  match width with
  | 0 => exact (Nat.mod_one _).symm
  | 1 =>
    show value [b.toUInt32] = _
    rw [value_cons, value_nil, hlow, pow_one, Nat.mul_zero, Nat.add_zero]
  | k + 2 =>
    -- from two words on the whole number fits
    have hb : b.toNat < (2 ^ 32) ^ (k + 2) := by
      refine b.toNat_lt.trans_le ?_
      rw [← pow_mul]
      exact Nat.pow_le_pow_right (by decide) (by omega)
    have hwords : (ofUInt64 (k + 2) b).pn =
        b.toUInt32 :: (b >>> 32).toUInt32 :: List.replicate k 0 := by
      simp [ofUInt64]
    rw [toNat, hwords, value_cons, value_cons, value_zeros, hlow, hhigh, Nat.mod_eq_of_lt hb]
    omega

theorem toNat_addUInt64 (a : BaseUint width) (b64 : UInt64) :
    (a.addUInt64 b64).toNat = (a.toNat + b64.toNat) % 2 ^ (32 * width) := by
  rw [addUInt64, toNat_add, toNat_ofUInt64, Nat.add_mod_mod]

theorem toNat_subUInt64 (a : BaseUint width) (b64 : UInt64) :
    ((a.subUInt64 b64).toNat : ℤ) = ((a.toNat : ℤ) - b64.toNat) % 2 ^ (32 * width) := by
  have hsub := toNat_sub a (ofUInt64 width b64)
  rw [toNat_ofUInt64] at hsub
  rw [subUInt64, ← sub, hsub]
  push_cast
  rw [Int.sub_emod_emod]

end Sums

/-! ## Comparisons -/

section Comparisons

variable {a b : BaseUint width}

/-- The highest word decides which number is smaller, and where it is the same the others do. -/
theorem value_lt_iff_of_concat {c d : List UInt32} (hlen : c.length = d.length) (x y : UInt32) :
    value (c ++ [x]) < value (d ++ [y]) ↔ x < y ∨ x = y ∧ value c < value d := by
  have hiff := @ofDigits_lt_iff_of_concat _ _ _ x.toNat y.toNat (by decide)
    (by rw [List.length_map, List.length_map, hlen]) (fit_toNat c) (fit_toNat d)
  rw [UInt32.lt_iff_toNat_lt, ← UInt32.toNat_inj]
  simpa [value] using hiff

/-- The first word that differs, from the highest down, decides as the numbers do. -/
theorem compareFrom_lt (last : Bool) {a b : List UInt32} (hlen : a.length = b.length) :
    compareFrom (fun x y => x < y) last a b =
      if value a.reverse < value b.reverse then true
      else if value b.reverse < value a.reverse then false else last := by
  induction a generalizing b with
  | nil =>
    cases b with
    | nil => simp [compareFrom]
    | cons y b => cases hlen
  | cons x a ih =>
    cases b with
    | nil => cases hlen
    | cons y b =>
      -- the loop starts at the highest words, which are the last ones of the arrays
      have hrev : a.reverse.length = b.reverse.length := by simpa using hlen
      rw [compareFrom, ih (Nat.succ.inj hlen), List.reverse_cons, List.reverse_cons,
        if_congr (value_lt_iff_of_concat hrev x y) rfl rfl,
        if_congr (value_lt_iff_of_concat hrev.symm y x) rfl rfl]
      simp only [UInt32.lt_iff_toNat_lt, ← UInt32.toNat_inj, decide_eq_true_eq]
      rcases Nat.lt_trichotomy x.toNat y.toNat with hxy | hxy | hxy
      · simp [hxy]
      · simp [hxy]
      · simp [hxy, hxy.ne', hxy.asymm]

/-- The loop that looks for a greater word compares the other way round. -/
theorem compareFrom_gt (last : Bool) (a b : List UInt32) :
    compareFrom (fun x y => x > y) last a b = compareFrom (fun x y => x < y) last b a := by
  induction a generalizing b with
  | nil => cases b <;> rfl
  | cons x a ih =>
    cases b with
    | nil => rfl
    | cons y b =>
      rw [compareFrom, compareFrom, ih]

theorem compareFrom_reverse (last : Bool) (a b : BaseUint width) :
    compareFrom (fun x y => x < y) last a.pn.reverse b.pn.reverse =
      if a.toNat < b.toNat then true else if b.toNat < a.toNat then false else last := by
  rw [compareFrom_lt last (by simp [a.length_pn, b.length_pn]), List.reverse_reverse,
    List.reverse_reverse]
  rfl

theorem lt_iff : a.lt b = true ↔ a.toNat < b.toNat := by
  rw [lt, compareFrom_reverse]
  simp

theorem le_iff : a.le b = true ↔ a.toNat ≤ b.toNat := by
  rw [le, compareFrom_reverse]
  simp only [Bool.if_false_left, Bool.if_true_left]
  simp
  omega

theorem gt_iff : a.gt b = true ↔ a.toNat > b.toNat := by
  rw [gt, compareFrom_gt]
  exact lt_iff

theorem ge_iff : a.ge b = true ↔ a.toNat ≥ b.toNat := by
  rw [ge, compareFrom_gt]
  exact le_iff

theorem eqFrom_iff {a b : List UInt32} (hlen : a.length = b.length) :
    eqFrom a b = true ↔ a = b := by
  induction a generalizing b with
  | nil =>
    cases b with
    | nil => exact iff_of_true rfl rfl
    | cons y b => cases hlen
  | cons x a ih =>
    cases b with
    | nil => cases hlen
    | cons y b =>
      rw [eqFrom, List.cons.injEq]
      by_cases hxy : x = y
      · simp [hxy, ih (Nat.succ.inj hlen)]
      · simp [hxy]

theorem eq_iff : a.eq b = true ↔ a.toNat = b.toNat := by
  rw [eq, eqFrom_iff (a.length_pn.trans b.length_pn.symm), toNat_inj]
  exact ⟨fun h => by cases a; cases b; cases h; rfl, congrArg pn⟩

theorem ne_iff : a.ne b = true ↔ a.toNat ≠ b.toNat := by
  rw [ne, Bool.not_eq_true', ← Bool.not_eq_true, eq_iff]

theorem value_eq_zero {pn : List UInt32} : value pn = 0 ↔ pn.all (· == 0) = true := by
  induction pn with
  | nil => simp
  | cons x pn ih =>
    rw [value_cons, Nat.add_eq_zero_iff, List.all_cons, Bool.and_eq_true, ← ih, beq_iff_eq,
      ← UInt32.toNat_inj]
    simp

/-- A number is its first two words and the words above them. -/
theorem value_eq_of_two (pn : List UInt32) :
    value pn = (pn.getD 0 0).toNat + 2 ^ 32 * ((pn.getD 1 0).toNat + 2 ^ 32 * value (pn.drop 2)) := by
  match pn with
  | [] => rfl
  | [x] => simp [value_cons]
  | x :: y :: pn => simp [value_cons]

theorem eqUInt64_iff {b : UInt64} : a.eqUInt64 b = true ↔ a.toNat = b.toNat := by
  have hb := b.toNat_lt
  have hlow : b.toUInt32.toNat = b.toNat % 2 ^ 32 := UInt64.toNat_toUInt32 b
  have hhigh : (b >>> 32).toUInt32.toNat = b.toNat / 2 ^ 32 := toNat_high b
  have hx := (a.pn.getD 0 0).toNat_lt
  have hy := (a.pn.getD 1 0).toNat_lt
  have hwords : a.eqUInt64 b = true ↔ a.pn.getD 0 0 = b.toUInt32 ∧
      a.pn.getD 1 0 = (b >>> 32).toUInt32 ∧ value (a.pn.drop 2) = 0 := by
    rw [value_eq_zero, eqUInt64]
    split
    · simp_all
    · split
      · simp_all
      · simp_all
  rw [hwords, ← UInt32.toNat_inj, ← UInt32.toNat_inj, hlow, hhigh, toNat, value_eq_of_two a.pn]
  omega

theorem neUInt64_iff {b : UInt64} : a.neUInt64 b = true ↔ a.toNat ≠ b.toNat := by
  rw [neUInt64, Bool.not_eq_true', ← Bool.not_eq_true, eqUInt64_iff]

end Comparisons

end BaseUint

end MotaCoin
