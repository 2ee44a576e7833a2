import Mathlib.Data.Nat.Bitwise
import Mathlib.Algebra.Order.Ring.Nat
import Mathlib.Tactic.Linarith
import Mathlib.Tactic.Ring

/-!
# Words of bits, cut anew

A sequence of words of one width is a sequence of bits, and that a sequence of words of another
width, once it is filled up with zeros. Less than a word of filling is needed, and so each of the
two sequences determines the other. A machine that regroups words holds the bits that it has read
and not yet written. Nothing here is about one program.

## Main definitions

* `Regroup.bits w n`: the `w` low bits of `n`, highest first
* `Regroup.wordBits w ns`: the bits of a sequence of words of width `w`
* `Regroup.Regroups a b k xs ys`: the words `xs` of width `a`, filled up with `k` zeros, are the
  words `ys` of width `b`

## Main results

* `bits_cut`: the bits that are held, and those of the next word, cut anew
* `wordBits_append_inj`: words and an unfinished one are determined by their bits
* `Regroups.left_unique`, `Regroups.right_unique`: each side determines the other
-/

namespace Regroup

/-- The `w` low bits of `n`, highest first. -/
def bits : ℕ → ℕ → List Bool
  | 0, _ => []
  | w + 1, n => bits w (n / 2) ++ [n % 2 == 1]

/-- The bits of words of width `w`. -/
def wordBits (w : ℕ) (ns : List ℕ) : List Bool := ns.flatMap (bits w)

/-! ## The bits of a word -/

section Bits

variable {w m n : ℕ}

@[simp] theorem length_bits (w n : ℕ) : (bits w n).length = w := by
  induction w generalizing n with
  | zero => rfl
  | succ w ih => rw [bits, List.length_append, ih, List.length_singleton]

@[simp] theorem bits_zero_width (n : ℕ) : bits 0 n = [] := rfl

@[simp] theorem bits_zero (w : ℕ) : bits w 0 = List.replicate w false := by
  induction w with
  | zero => rfl
  | succ w ih => rw [bits, Nat.zero_div, ih, List.replicate_succ']; rfl

theorem bits_inj (hm : m < 2 ^ w) (hn : n < 2 ^ w) (h : bits w m = bits w n) : m = n := by
  induction w generalizing m n with
  | zero => rw [pow_zero] at hm hn; omega
  | succ w ih =>
    obtain ⟨hhigh, hlow⟩ := List.append_inj' h rfl
    have hhalf := ih (m := m / 2) (n := n / 2) (by rw [pow_succ] at hm; omega)
      (by rw [pow_succ] at hn; omega) hhigh
    have hbit : (m % 2 == 1) = (n % 2 == 1) := List.singleton_inj.mp hlow
    rw [Bool.eq_iff_iff, beq_iff_eq, beq_iff_eq] at hbit
    omega

/-- High bits and low bits. -/
theorem bits_add (p q x : ℕ) {y : ℕ} (hy : y < 2 ^ q) :
    bits (p + q) (x * 2 ^ q + y) = bits p x ++ bits q y := by
  induction q generalizing y with
  | zero =>
    obtain rfl : y = 0 := by rw [pow_zero] at hy; omega
    rw [pow_zero, Nat.mul_one, Nat.add_zero, Nat.add_zero, bits_zero_width, List.append_nil]
  | succ q ih =>
    have hsplit : x * 2 ^ (q + 1) + y = 2 * (x * 2 ^ q + y / 2) + y % 2 := by
      rw [pow_succ]
      have := Nat.div_add_mod y 2
      linarith [mul_assoc x (2 ^ q) 2]
    rw [pow_succ] at hy
    rw [← Nat.add_assoc, bits, bits, ← List.append_assoc, ← ih (y := y / 2) (by omega), hsplit]
    congr 3 <;> omega

/-- The bits that are held, followed by those of the next word, are cut anew. -/
theorem bits_cut {p c b q pend x y rest : ℕ} (hx : x < 2 ^ c) (hrest : rest < 2 ^ q)
    (hwidth : p + c = b + q) (h : pend * 2 ^ c + x = y * 2 ^ q + rest) :
    bits p pend ++ bits c x = bits b y ++ bits q rest := by
  rw [← bits_add p c pend hx, ← bits_add b q y hrest, hwidth, h]

theorem mask_lt (x q : ℕ) : x &&& 2 ^ q - 1 < 2 ^ q := by
  rw [Nat.and_two_pow_sub_one_eq_mod]
  exact Nat.mod_lt _ (by positivity)

/-- The bits that are held are moved up, and the high bits of the next word fill the room; its
low bits are held. -/
theorem bits_emit {p c b q pend x : ℕ} (hx : x < 2 ^ c) (hq : q ≤ c) (hwidth : p + c = b + q) :
    bits p pend ++ bits c x =
      bits b (pend <<< (b - p) ||| x >>> q) ++ bits q (x &&& 2 ^ q - 1) := by
  have hhigh : x >>> q < 2 ^ (b - p) := by
    rw [Nat.shiftRight_eq_div_pow, Nat.div_lt_iff_lt_mul (by positivity), ← pow_add]
    exact hx.trans_le (Nat.pow_le_pow_right (by decide) (by omega))
  have hc : 2 ^ c = 2 ^ (b - p) * 2 ^ q := by rw [← pow_add]; congr 1; omega
  rw [← Nat.shiftLeft_add_eq_or_of_lt hhigh, Nat.and_two_pow_sub_one_eq_mod]
  refine bits_cut hx (Nat.mod_lt _ (by positivity)) hwidth ?_
  have hsplit := Nat.div_add_mod x (2 ^ q)
  rw [hc, Nat.shiftLeft_eq, Nat.shiftRight_eq_div_pow, Nat.add_mul, Nat.mul_assoc, Nat.add_assoc,
    Nat.mul_comm (x / 2 ^ q), hsplit]

theorem emit_lt {p c b q pend x : ℕ} (hpend : pend < 2 ^ p) (hx : x < 2 ^ c) (hp : p ≤ b)
    (hwidth : p + c = b + q) : pend <<< (b - p) ||| x >>> q < 2 ^ b := by
  refine Nat.or_lt_two_pow ?_ ?_
  · rw [Nat.shiftLeft_eq]
    calc pend * 2 ^ (b - p) < 2 ^ p * 2 ^ (b - p) :=
          Nat.mul_lt_mul_of_pos_right hpend (by positivity)
      _ = 2 ^ b := by rw [← pow_add, Nat.add_sub_cancel' hp]
  · rw [Nat.shiftRight_eq_div_pow, Nat.div_lt_iff_lt_mul (by positivity), ← pow_add, ← hwidth]
    exact hx.trans_le (Nat.pow_le_pow_right (by decide) (Nat.le_add_left c p))

/-- A word that does not complete another is held with the bits before it. -/
theorem bits_keep {c x : ℕ} (p pend : ℕ) (hx : x < 2 ^ c) :
    bits p pend ++ bits c x = bits (p + c) (pend <<< c ||| x) := by
  rw [← Nat.shiftLeft_add_eq_or_of_lt hx, Nat.shiftLeft_eq, bits_add p c pend hx]

/-- Low bits that complete a word themselves. -/
theorem bits_split (b q x : ℕ) :
    bits (b + q) (x &&& 2 ^ (b + q) - 1) =
      bits b ((x >>> q) &&& 2 ^ b - 1) ++ bits q (x &&& 2 ^ q - 1) := by
  rw [Nat.and_two_pow_sub_one_eq_mod, Nat.and_two_pow_sub_one_eq_mod,
    Nat.and_two_pow_sub_one_eq_mod, ← bits_add b q _ (Nat.mod_lt x (by positivity)),
    Nat.shiftRight_eq_div_pow, pow_add, Nat.mul_comm (2 ^ b), Nat.mod_mul,
    Nat.add_comm (x % 2 ^ q), Nat.mul_comm (2 ^ q)]

/-- Bits that are held with zeros behind them. -/
theorem bits_fill (p k pend : ℕ) :
    bits (p + k) (pend * 2 ^ k) = bits p pend ++ List.replicate k false := by
  have := bits_add p k pend (y := 0) (by positivity)
  rwa [Nat.add_zero, bits_zero] at this

end Bits

/-! ## Sequences of words -/

section Words

variable {w : ℕ} {xs ys : List ℕ} {p q : List Bool}

@[simp] theorem wordBits_nil (w : ℕ) : wordBits w [] = [] := rfl

@[simp] theorem wordBits_append (w : ℕ) (xs ys : List ℕ) :
    wordBits w (xs ++ ys) = wordBits w xs ++ wordBits w ys := List.flatMap_append

@[simp] theorem wordBits_singleton (w n : ℕ) : wordBits w [n] = bits w n := by
  rw [wordBits, List.flatMap_singleton]

@[simp] theorem length_wordBits (w : ℕ) (xs : List ℕ) :
    (wordBits w xs).length = xs.length * w := by
  induction xs with
  | nil => rw [wordBits_nil, List.length_nil, List.length_nil, Nat.zero_mul]
  | cons x xs ih =>
    rw [wordBits, List.flatMap_cons, List.length_append, ← wordBits, ih, length_bits,
      List.length_cons, Nat.succ_mul, Nat.add_comm]

/-- **Words are determined by their bits**, also when an unfinished word follows. -/
theorem wordBits_append_inj (hx : ∀ x ∈ xs, x < 2 ^ w) (hy : ∀ y ∈ ys, y < 2 ^ w)
    (hp : p.length < w) (hq : q.length < w)
    (h : wordBits w xs ++ p = wordBits w ys ++ q) : xs = ys ∧ p = q := by
  induction xs generalizing ys with
  | nil =>
    cases ys with
    | nil => exact ⟨rfl, h⟩
    | cons y ys =>
      have hlen := congrArg List.length h
      rw [List.length_append, List.length_append, length_wordBits, length_wordBits,
        List.length_cons, Nat.succ_mul] at hlen
      simp only [List.length_nil, Nat.zero_mul] at hlen
      omega
  | cons x xs ih =>
    cases ys with
    | nil =>
      have hlen := congrArg List.length h
      rw [List.length_append, List.length_append, length_wordBits, length_wordBits,
        List.length_cons, Nat.succ_mul] at hlen
      simp only [List.length_nil, Nat.zero_mul] at hlen
      omega
    | cons y ys =>
      rw [List.forall_mem_cons] at hx hy
      simp only [wordBits, List.flatMap_cons, List.append_assoc] at h
      obtain ⟨hhead, htail⟩ := List.append_inj h (by rw [length_bits, length_bits])
      obtain ⟨rfl, rfl⟩ := ih hx.2 hy.2 htail
      rw [bits_inj hx.1 hy.1 hhead]
      exact ⟨rfl, rfl⟩

end Words

/-! ## Regrouping -/

section Regroup

variable {a b k k' : ℕ} {xs xs' ys ys' : List ℕ}

/-- The words `xs` of width `a`, filled up with `k` zeros, are the words `ys` of width `b`. -/
structure Regroups (a b k : ℕ) (xs ys : List ℕ) : Prop where
  /-- The words on the left fit their width. -/
  left_lt : ∀ x ∈ xs, x < 2 ^ a
  /-- The words on the right fit their width. -/
  right_lt : ∀ y ∈ ys, y < 2 ^ b
  /-- Less than a word on the right is filled up. -/
  fill_lt : k < b
  /-- The bits are the same. -/
  bits_eq : wordBits a xs ++ List.replicate k false = wordBits b ys

/-- Each sequence is filled up in one way. -/
theorem Regroups.right_unique (h : Regroups a b k xs ys) (h' : Regroups a b k' xs ys') :
    k = k' ∧ ys = ys' := by
  have hlen := congrArg List.length h.bits_eq
  have hlen' := congrArg List.length h'.bits_eq
  rw [List.length_append, List.length_replicate, length_wordBits, length_wordBits] at hlen hlen'
  have hlt := h.fill_lt
  have hlt' := h'.fill_lt
  -- `k` is what is missing to a multiple of `b`
  have hk : k = k' := by
    rcases Nat.lt_trichotomy ys.length ys'.length with hc | hc | hc
    · have := Nat.mul_le_mul_right b (Nat.succ_le_of_lt hc)
      rw [Nat.succ_mul] at this
      omega
    · rw [hc] at hlen
      omega
    · have := Nat.mul_le_mul_right b (Nat.succ_le_of_lt hc)
      rw [Nat.succ_mul] at this
      omega
  subst hk
  have hbits : wordBits b ys ++ [] = wordBits b ys' ++ [] := by
    rw [List.append_nil, List.append_nil, ← h.bits_eq, ← h'.bits_eq]
  have hb : ([] : List Bool).length < b := lt_of_le_of_lt (Nat.zero_le _) hlt
  exact ⟨rfl, (wordBits_append_inj h.right_lt h'.right_lt hb hb hbits).1⟩

/-- What is left of the bits when words of width `a` are read off is the filling. -/
theorem Regroups.left_unique (h : Regroups a b k xs ys) (hba : b ≤ a) {p : List Bool}
    (hxs' : ∀ x ∈ xs', x < 2 ^ a) (hp : p.length < a)
    (hbits : wordBits a xs' ++ p = wordBits b ys) :
    xs' = xs ∧ p = List.replicate k false := by
  refine wordBits_append_inj hxs' h.left_lt hp ?_ (hbits.trans h.bits_eq.symm)
  rw [List.length_replicate]
  exact h.fill_lt.trans_le hba

end Regroup

end Regroup
