import Mathlib.Algebra.Order.BigOperators.Group.List
import Mathlib.Algebra.Order.Group.Nat
import Mathlib.Algebra.Ring.Nat

/-!
# Discarding by a table

A knapsack seen from what stays outside. Elements with a weight and a cost are discarded while their
weights add up to no more than a capacity, so that what they cost is as much as possible. The rows of
the table follow the elements, with the last one first in the list. How a sum of costs is stored is a
parameter: what is kept weighs enough however that is. Nothing here is about one program.

## Main definitions

* `Discarding`: the weights, the costs, and how a sum is stored
* `Discarding.best`: a cell of the table
* `Discarding.left`, `Discarding.kept`: the way back through the table

## Main results

* `Discarding.weight_le_kept`: what is discarded weighs no more than the capacity
* `Discarding.cost_kept_le`: nothing that weighs enough costs less than what is kept
-/

/-- The weights and the costs of elements, and how a sum of costs is stored. -/
structure Discarding (α : Type*) where
  weight : α → Nat
  cost : α → Nat
  store : Nat → Nat

namespace Discarding

variable {α : Type*} (p : Discarding α)

/-- What elements weigh together. -/
def weights (l : List α) : Nat := (l.map p.weight).sum

/-- What elements cost together. -/
def costs (l : List α) : Nat := (l.map p.cost).sum

@[simp] theorem weights_nil : p.weights [] = 0 := rfl

@[simp] theorem weights_cons (a : α) (l : List α) : p.weights (a :: l) = p.weight a + p.weights l := by
  rw [weights, List.map_cons, List.sum_cons, weights]

@[simp] theorem costs_nil : p.costs [] = 0 := rfl

@[simp] theorem costs_cons (a : α) (l : List α) : p.costs (a :: l) = p.cost a + p.costs l := by
  rw [costs, List.map_cons, List.sum_cons, costs]

theorem weights_perm {l l' : List α} (h : l.Perm l') : p.weights l = p.weights l' :=
  (h.map p.weight).sum_eq

theorem costs_perm {l l' : List α} (h : l.Perm l') : p.costs l = p.costs l' := (h.map p.cost).sum_eq

/-- A cell of the table: the most that can be discarded of a list with a capacity. -/
def best : List α → Nat → Nat
  | [], _ => 0
  | a :: l, j =>
    if p.weight a ≤ j then max (best l j) (p.store (best l (j - p.weight a) + p.cost a)) else best l j

/-- The capacity that is left after an element, which is less if the element is discarded. -/
def left (a : α) (l : List α) (j : Nat) : Nat :=
  if p.weight a ≤ j ∧ p.best l j < p.store (p.best l (j - p.weight a) + p.cost a) then j - p.weight a
  else j

/-- The elements that are kept on the way back: those that leave the capacity as it is. -/
def kept : List α → Nat → List α
  | [], _ => []
  | a :: l, j => if p.left a l j = j then a :: kept l j else kept l (p.left a l j)

theorem kept_sublist (l : List α) (j : Nat) : (p.kept l j).Sublist l := by
  induction l generalizing j with
  | nil => exact List.Sublist.slnil
  | cons a l ih =>
    rw [kept]
    split
    · exact (ih j).cons_cons a
    · exact (ih _).cons a

/-- An element that is discarded leaves the capacity without its weight. -/
theorem left_of_ne {a : α} {l : List α} {j : Nat} (h : p.left a l j ≠ j) :
    p.weight a ≤ j ∧ p.best l j < p.store (p.best l (j - p.weight a) + p.cost a) ∧
      p.left a l j = j - p.weight a := by
  rw [left] at h ⊢
  split at h
  · next hstep =>
    rw [if_pos hstep]
    exact ⟨hstep.1, hstep.2, rfl⟩
  · exact absurd rfl h

theorem left_le (a : α) (l : List α) (j : Nat) : p.left a l j ≤ j := by
  rw [left]
  split
  · exact Nat.sub_le _ _
  · exact le_rfl

/-- **What is discarded weighs no more than the capacity.** -/
theorem weight_le_kept (l : List α) (j : Nat) : p.weights l ≤ p.weights (p.kept l j) + j := by
  induction l generalizing j with
  | nil => exact Nat.zero_le _
  | cons a l ih =>
    rw [kept, weights_cons]
    split
    · rw [weights_cons, add_assoc]
      exact Nat.add_le_add_left (ih j) _
    · next hne =>
      obtain ⟨hfits, -, hleft⟩ := p.left_of_ne hne
      have hrest := ih (j - p.weight a)
      rw [hleft]
      omega

/-! ## What the table says -/

theorem best_le_best_cons (a : α) (l : List α) (j : Nat) : p.best l j ≤ p.best (a :: l) j := by
  rw [best]
  split
  · exact le_max_left _ _
  · exact le_rfl

section Stored

variable {p} {l : List α} (hstore : ∀ n ≤ p.costs l, p.store n = n)

include hstore

/-- No cell is more than what all elements cost. -/
theorem best_le_costs (j : Nat) : p.best l j ≤ p.costs l := by
  induction l generalizing j with
  | nil => exact le_rfl
  | cons a l ih =>
    have hl : ∀ n ≤ p.costs l, p.store n = n := fun n hn =>
      hstore n (hn.trans (by rw [costs_cons]; exact Nat.le_add_left _ _))
    have hj := ih hl j
    have hstep := ih hl (j - p.weight a)
    rw [best]
    split
    · rw [hstore _ (by rw [costs_cons]; omega), costs_cons]
      omega
    · rw [costs_cons]
      omega

/-- **The way back finds what the table says**: the last cell is what is discarded. -/
theorem costs_kept_add_best (hzero : ∀ a ∈ l, p.weight a = 0 → p.cost a = 0) (j : Nat) :
    p.costs (p.kept l j) + p.best l j = p.costs l := by
  induction l generalizing j with
  | nil => rfl
  | cons a l ih =>
    have hle : p.costs l ≤ p.costs (a :: l) := by
      rw [costs_cons]
      exact Nat.le_add_left _ _
    have hl : ∀ n ≤ p.costs l, p.store n = n := fun n hn => hstore n (hn.trans hle)
    have hrest := ih hl fun b hb => hzero b (List.mem_cons_of_mem _ hb)
    have hstored : p.store (p.best l (j - p.weight a) + p.cost a) =
        p.best l (j - p.weight a) + p.cost a := by
      refine hstore _ ?_
      have hbest := best_le_costs hl (j - p.weight a)
      rw [costs_cons]
      omega
    rw [kept, best, hstored]
    split
    · next hkept =>
      have hj := hrest j
      -- an element that is kept adds nothing to the cell, also where it has no weight
      have hcell : (if p.weight a ≤ j then max (p.best l j) (p.best l (j - p.weight a) + p.cost a)
          else p.best l j) = p.best l j := by
        split
        · next hfits =>
          refine max_eq_left ?_
          rw [left, hstored] at hkept
          split at hkept
          · have hweight : p.weight a = 0 := by omega
            rw [hweight, hzero a List.mem_cons_self hweight]
            exact le_rfl
          · next hstep => exact not_lt.1 fun hlt => hstep ⟨hfits, hlt⟩
        · rfl
      rw [hcell, costs_cons, costs_cons]
      omega
    · next hne =>
      obtain ⟨hfits, hmore, hleft⟩ := p.left_of_ne hne
      have hj := hrest (j - p.weight a)
      rw [hstored] at hmore
      rw [hleft, if_pos hfits, max_eq_right hmore.le, costs_cons]
      omega

/-- What is discarded to leave elements of some weight costs no more than the cell. -/
theorem costs_le_add_best {s : List α} (hsub : s.Sublist l) {j : Nat}
    (hweights : p.weights l ≤ p.weights s + j) : p.costs l ≤ p.costs s + p.best l j := by
  induction hsub generalizing j with
  | slnil => exact Nat.zero_le _
  | @cons s l a hs ih =>
    have hl : ∀ n ≤ p.costs l, p.store n = n := fun n hn =>
      hstore n (hn.trans (by rw [costs_cons]; exact Nat.le_add_left _ _))
    have hle : p.weights s ≤ p.weights l := (hs.map p.weight).sum_le_sum fun _ _ => Nat.zero_le _
    rw [weights_cons] at hweights
    have hrest := ih hl (j := j - p.weight a) (by omega)
    have hbest := best_le_costs hl (j - p.weight a)
    have hcell : p.best l (j - p.weight a) + p.cost a ≤ p.best (a :: l) j := by
      rw [best, if_pos (by omega), hstore _ (by rw [costs_cons]; omega)]
      exact le_max_right _ _
    rw [costs_cons]
    omega
  | @cons_cons s l a hs ih =>
    have hl : ∀ n ≤ p.costs l, p.store n = n := fun n hn =>
      hstore n (hn.trans (by rw [costs_cons]; exact Nat.le_add_left _ _))
    rw [weights_cons, weights_cons] at hweights
    have hrest := ih hl (j := j) (by omega)
    have hcell := p.best_le_best_cons a l j
    rw [costs_cons, costs_cons]
    omega

/-- **Nothing that weighs enough costs less than what is kept.** -/
theorem cost_kept_le (hzero : ∀ a ∈ l, p.weight a = 0 → p.cost a = 0) {s : List α}
    (hsub : s.Sublist l) {j : Nat} (hweights : p.weights l ≤ p.weights s + j) :
    p.costs (p.kept l j) ≤ p.costs s := by
  have hkept := costs_kept_add_best hstore hzero j
  have hleast := costs_le_add_best hstore hsub hweights
  omega

end Stored

end Discarding
