import Mathlib.Algebra.BigOperators.Group.List.Basic
import Mathlib.Data.List.Basic

/-!
# Choosing by a mask

A row of flags says which elements of a list are chosen. A sum over what is chosen follows the flags
one by one. Nothing here is about one program.

## Main definitions

* `Masks.chosen`: the elements at the places that are marked

## Main results

* `Masks.sum_chosen_set`: a mark that is set adds its element to a sum
-/

namespace Masks

variable {α : Type*}

/-- The elements at the places that are marked. -/
def chosen : List Bool → List α → List α
  | true :: mask, a :: l => a :: chosen mask l
  | false :: mask, _ :: l => chosen mask l
  | _, _ => []

theorem chosen_sublist (mask : List Bool) (l : List α) : (chosen mask l).Sublist l := by
  induction mask generalizing l with
  | nil => exact List.nil_sublist l
  | cons b mask ih =>
    cases l with
    | nil => cases b <;> exact List.Sublist.refl _
    | cons a l =>
      cases b with
      | true => exact (ih l).cons_cons a
      | false => exact (ih l).cons a

theorem chosen_replicate_true (l : List α) : chosen (List.replicate l.length true) l = l := by
  induction l with
  | nil => rfl
  | cons a l ih => exact congrArg (a :: ·) ih

theorem chosen_replicate_false (n : Nat) (l : List α) : chosen (List.replicate n false) l = [] := by
  induction n generalizing l with
  | zero => rfl
  | succ n ih =>
    cases l with
    | nil => rfl
    | cons a l => exact ih l

/-- **Setting a mark** adds its element to the sum. -/
theorem sum_chosen_set {M : Type*} [AddCommMonoid M] (f : α → M) {mask : List Bool} {l : List α} {i : Nat}
    {a : α} (ha : l[i]? = some a) (hmask : mask[i]? = some false) :
    ((chosen (mask.set i true) l).map f).sum = ((chosen mask l).map f).sum + f a := by
  induction mask generalizing l i with
  | nil => cases hmask
  | cons b mask ih =>
    cases l with
    | nil => cases ha
    | cons a' l =>
      cases i with
      | zero =>
        obtain rfl := Option.some.inj hmask
        obtain rfl := Option.some.inj ha
        rw [List.set_cons_zero, chosen, chosen, List.map_cons, List.sum_cons, add_comm]
      | succ i =>
        rw [List.getElem?_cons_succ] at ha hmask
        rw [List.set_cons_succ]
        cases b with
        | true =>
          rw [chosen, chosen, List.map_cons, List.map_cons, List.sum_cons, List.sum_cons, ih ha hmask,
            add_assoc]
        | false => exact ih ha hmask

/-- Clearing a mark that was just set. -/
theorem set_set_of_getElem? {mask : List Bool} {i : Nat} {b c : Bool} (h : mask[i]? = some b) :
    (mask.set i c).set i b = mask := by
  obtain ⟨hi, rfl⟩ := List.getElem?_eq_some_iff.1 h
  rw [List.set_set, List.set_getElem_self]

end Masks
