import Mathlib.Data.List.Basic

/-!
# Partial shuffles

The first elements of a list are shuffled in place: each position in turn gets the element at a
position that is drawn from there on, which gets its element instead. Nothing here is about one
program.

## Main definitions

* `PartialShuffle.swap v p q`: the elements at two positions change places
* `PartialShuffle.shuffle drawn n i v`: `n` positions from `i` on are shuffled

## Main results

* `shuffle_perm`: a shuffle keeps the elements
* `getElem?_shuffle_of_lt`: what has been shuffled stays
* `getElem?_shuffle_self`: a position has the element that was drawn for it
-/

namespace PartialShuffle

variable {α : Type}

/-- The elements at two positions change places. -/
def swap (v : List α) (p q : ℕ) : List α :=
  match v[p]?, v[q]? with
  | some x, some y => (v.set p y).set q x
  | _, _ => v

/-- The positions from `i` on get elements that are drawn, `n` of them. -/
def shuffle (drawn : ℕ → ℕ) : ℕ → ℕ → List α → List α
  | 0, _, v => v
  | n + 1, i, v => shuffle drawn n (i + 1) (swap v (drawn i) i)

variable {v : List α} {p q : ℕ}

theorem swap_eq (hp : p < v.length) (hq : q < v.length) :
    swap v p q = (v.set p v[q]).set q v[p] := by
  rw [swap, List.getElem?_eq_getElem hp, List.getElem?_eq_getElem hq]

theorem swap_perm (hp : p < v.length) (hq : q < v.length) : (swap v p q).Perm v := by
  rw [swap_eq hp hq]
  exact List.set_set_perm hp hq

theorem getElem?_swap_right (hp : p < v.length) (hq : q < v.length) :
    (swap v p q)[q]? = v[p]? := by
  rw [swap_eq hp hq, List.getElem?_set_self (by rwa [List.length_set]), List.getElem?_eq_getElem hp]

theorem getElem?_swap_of_ne {r : ℕ} (hp : p < v.length) (hq : q < v.length) (hrp : r ≠ p)
    (hrq : r ≠ q) : (swap v p q)[r]? = v[r]? := by
  rw [swap_eq hp hq, List.getElem?_set_ne hrq.symm, List.getElem?_set_ne hrp.symm]

section Shuffle

variable {drawn : ℕ → ℕ} {n i : ℕ}

/-- A shuffle keeps the elements. -/
theorem shuffle_perm (hdrawn : ∀ j < v.length, drawn j < v.length) (hn : i + n ≤ v.length) :
    (shuffle drawn n i v).Perm v := by
  induction n generalizing i v with
  | zero => exact List.Perm.refl v
  | succ n ih =>
    have hi : i < v.length := by omega
    have hswap := swap_perm (hdrawn i hi) hi
    rw [shuffle]
    refine List.Perm.trans (ih ?_ ?_) hswap
    · rwa [hswap.length_eq]
    · rw [hswap.length_eq]
      omega

/-- What has been shuffled stays: later positions are drawn from later ones. -/
theorem getElem?_shuffle_of_lt (hdrawn : ∀ j < v.length, drawn j < v.length)
    (hfrom : ∀ j, j ≤ drawn j) (hn : i + n ≤ v.length) {j : ℕ} (hj : j < i) :
    (shuffle drawn n i v)[j]? = v[j]? := by
  induction n generalizing i v with
  | zero => rfl
  | succ n ih =>
    have hi : i < v.length := by omega
    have hlen := (swap_perm (hdrawn i hi) hi).length_eq
    have hle := hfrom i
    rw [shuffle, ih (by rwa [hlen]) (by omega) (by omega)]
    exact getElem?_swap_of_ne (hdrawn i hi) hi (by omega) (by omega)

/-- A position has the element that was drawn for it. -/
theorem getElem?_shuffle_self (hdrawn : ∀ j < v.length, drawn j < v.length)
    (hfrom : ∀ j, j ≤ drawn j) (hn : i + (n + 1) ≤ v.length) :
    (shuffle drawn (n + 1) i v)[i]? = v[drawn i]? := by
  have hi : i < v.length := by omega
  have hlen := (swap_perm (hdrawn i hi) hi).length_eq
  rw [shuffle, getElem?_shuffle_of_lt (by rwa [hlen]) hfrom (by omega) (Nat.lt_succ_self i)]
  exact getElem?_swap_right (hdrawn i hi) hi

end Shuffle

end PartialShuffle
