import Mathlib.Algebra.BigOperators.Fin
import Mathlib.Algebra.Order.BigOperators.Group.Finset
import Mathlib.Data.Finset.Card
import Mathlib.Data.Fintype.BigOperators

/-!
# Bins

Finitely many bins with elements in them. A bin is a set or a list; an element may be in several. In
how many bins an element is changes with one bin at a time. Nothing here is about one program.

## Main definitions

* `Bins.refs f a`: in how many sets an element is
* `Bins.places g a`: how often an element is in the lists
* `Bins.total g`: how many elements the lists have together

## Main results

* `sum_update`: what changing one bin does to a sum over all
* `refs_insert`, `refs_erase`, `refs_eraseAll`: what a change of sets does
* `places_push`, `places_set`: what a change of a list does
* `count_flatMap`, `length_flatMap`: the lists one after the other
-/

namespace Bins

variable {ι α β : Type} [Fintype ι]

section Sum

variable [DecidableEq ι]

/-- A sum over the bins changes with the one that changes. -/
theorem sum_update (w : β → Nat) (f : ι → β) (i : ι) (b : β) :
    ∑ j, w (Function.update f i b j) + w (f i) = ∑ j, w (f j) + w b := by
  rw [← Finset.add_sum_erase _ _ (Finset.mem_univ i),
    ← Finset.add_sum_erase _ (fun j => w (f j)) (Finset.mem_univ i), Function.update_self]
  have hrest : ∑ j ∈ Finset.univ.erase i, w (Function.update f i b j) =
      ∑ j ∈ Finset.univ.erase i, w (f j) :=
    Finset.sum_congr rfl fun j hj => by rw [Function.update_of_ne (Finset.ne_of_mem_erase hj)]
  rw [hrest]
  omega

/-! ## How many elements there are -/

/-- How many elements the lists have. -/
def total (g : ι → List α) : Nat := ∑ i, (g i).length

theorem total_push (g : ι → List α) (i : ι) (a : α) :
    total (Function.update g i (g i ++ [a])) = total g + 1 := by
  have hsum := sum_update List.length g i (g i ++ [a])
  rw [List.length_append, List.length_singleton] at hsum
  rw [total, total]
  omega

theorem total_set (g : ι → List α) (i : ι) (p : Nat) (a : α) :
    total (Function.update g i ((g i).set p a)) = total g := by
  have hsum := sum_update List.length g i ((g i).set p a)
  rw [List.length_set] at hsum
  rw [total, total]
  omega

theorem total_perm {g : ι → List α} {i : ι} {l : List α} (h : l.Perm (g i)) :
    total (Function.update g i l) = total g := by
  have hsum := sum_update List.length g i l
  rw [h.length_eq] at hsum
  rw [total, total]
  omega

end Sum

variable [DecidableEq α]

/-! ## Sets -/

/-- In how many sets an element is. -/
def refs (f : ι → Finset α) (a : α) : Nat := (Finset.univ.filter fun i => a ∈ f i).card

theorem refs_eq_sum (f : ι → Finset α) (a : α) : refs f a = ∑ i, if a ∈ f i then 1 else 0 := by
  rw [refs, Finset.card_filter]

theorem refs_eq_zero {f : ι → Finset α} {a : α} : refs f a = 0 ↔ ∀ i, a ∉ f i := by
  rw [refs, Finset.card_eq_zero, Finset.filter_eq_empty_iff]
  exact ⟨fun h i => h (Finset.mem_univ i), fun h i _ => h i⟩

theorem refs_pos {f : ι → Finset α} {a : α} : 0 < refs f a ↔ ∃ i, a ∈ f i := by
  rw [Nat.pos_iff_ne_zero, ne_eq, refs_eq_zero, not_forall_not]

variable [DecidableEq ι]

/-- An element is put into a set that does not have it. -/
theorem refs_insert {f : ι → Finset α} {i : ι} {a : α} (h : a ∉ f i) (b : α) :
    refs (Function.update f i (insert a (f i))) b = refs f b + if b = a then 1 else 0 := by
  have hsum := sum_update (fun s : Finset α => if b ∈ s then 1 else 0) f i (insert a (f i))
  rw [← refs_eq_sum, ← refs_eq_sum] at hsum
  by_cases hb : b = a
  · subst hb
    rw [if_neg h, if_pos (Finset.mem_insert_self b _)] at hsum
    rw [if_pos rfl]
    exact hsum
  · simp only [Finset.mem_insert, hb, false_or] at hsum
    rw [if_neg hb]
    exact Nat.add_right_cancel hsum

/-- An element is taken out of a set. -/
theorem refs_erase {f : ι → Finset α} {i : ι} {a : α} (h : a ∈ f i) (b : α) :
    refs (Function.update f i ((f i).erase a)) b + (if b = a then 1 else 0) = refs f b := by
  have hsum := sum_update (fun s : Finset α => if b ∈ s then 1 else 0) f i ((f i).erase a)
  rw [← refs_eq_sum, ← refs_eq_sum] at hsum
  by_cases hb : b = a
  · subst hb
    rw [if_pos h, if_neg (Finset.notMem_erase b _)] at hsum
    rw [if_pos rfl]
    exact hsum
  · simp only [Finset.mem_erase, ne_eq, hb, not_false_eq_true, true_and] at hsum
    rw [if_neg hb]
    exact Nat.add_right_cancel hsum

omit [DecidableEq ι] in
/-- An element is taken out of all sets. -/
theorem refs_eraseAll (f : ι → Finset α) (a b : α) :
    refs (fun i => (f i).erase a) b = if b = a then 0 else refs f b := by
  split
  · next heq => exact refs_eq_zero.2 fun i => heq ▸ Finset.notMem_erase a (f i)
  · next hne =>
    rw [refs, refs]
    congr 2
    funext i
    rw [Finset.mem_erase, eq_iff_iff]
    exact and_iff_right hne

/-! ## Lists -/

/-- How often an element is in the lists. -/
def places (g : ι → List α) (a : α) : Nat := ∑ i, (g i).count a

omit [DecidableEq ι] in
/-- An element is in the lists when it is in one. -/
theorem places_pos {g : ι → List α} {a : α} : 0 < places g a ↔ ∃ i, a ∈ g i := by
  rw [places, Nat.pos_iff_ne_zero, ne_eq, Finset.sum_eq_zero_iff, not_forall]
  refine exists_congr fun i => ?_
  rw [Classical.not_imp, and_iff_right (Finset.mem_univ i), List.count_eq_zero, not_not]

omit [DecidableEq ι] in
theorem count_le_places (g : ι → List α) (i : ι) (a : α) : (g i).count a ≤ places g a :=
  Finset.single_le_sum_of_canonicallyOrdered (f := fun j => (g j).count a) (Finset.mem_univ i)

/-- An element that is in two lists is there twice. -/
theorem count_add_count_le_places (g : ι → List α) {i j : ι} (h : i ≠ j) (a : α) :
    (g i).count a + (g j).count a ≤ places g a := by
  rw [← Finset.sum_pair (f := fun k => (g k).count a) h]
  exact Finset.sum_le_sum_of_subset (Finset.subset_univ _)

theorem places_push (g : ι → List α) (i : ι) (a b : α) :
    places (Function.update g i (g i ++ [a])) b = places g b + if b = a then 1 else 0 := by
  have hsum := sum_update (List.count b) g i (g i ++ [a])
  rw [List.count_append, List.count_singleton] at hsum
  rw [places, places]
  simp only [beq_iff_eq, eq_comm (a := a)] at hsum
  omega

/-- An element of a list makes room for another one. -/
theorem places_set {g : ι → List α} {i : ι} {p : Nat} {old : α} (h : (g i)[p]? = some old)
    (a b : α) :
    places (Function.update g i ((g i).set p a)) b + (if b = old then 1 else 0) =
      places g b + if b = a then 1 else 0 := by
  obtain ⟨hlt, hget⟩ := List.getElem?_eq_some_iff.1 h
  have hsum := sum_update (List.count b) g i ((g i).set p a)
  have hcount := List.count_set hlt (a := a) (b := b)
  have hpos : (if b = old then 1 else 0) ≤ (g i).count b := by
    split
    · next heq => exact List.count_pos_iff.2 (heq ▸ hget ▸ List.getElem_mem hlt)
    · exact Nat.zero_le _
  rw [hget] at hcount
  rw [places, places]
  simp only [beq_iff_eq, eq_comm (a := a), eq_comm (a := old)] at hcount
  omega

/-- The order within the lists does not matter. -/
theorem places_perm {g : ι → List α} {i : ι} {l : List α} (h : l.Perm (g i)) (b : α) :
    places (Function.update g i l) b = places g b := by
  have hsum := sum_update (List.count b) g i l
  rw [h.count_eq] at hsum
  rw [places, places]
  omega

/-! ## The bins one after the other -/

section Flat

variable {n : Nat} (g : Fin n → List α) (f : Fin n → Finset α) (a : α)

omit [DecidableEq α] in
theorem length_flatMap : ((List.finRange n).flatMap g).length = total g := by
  rw [List.length_flatMap, total, Fin.sum_univ_def]

theorem count_flatMap : ((List.finRange n).flatMap g).count a = places g a := by
  rw [List.count_flatMap, places, Fin.sum_univ_def]
  rfl

/-- Sets, each as a list of its own elements. -/
theorem places_toList {g : Fin n → List α} {f : Fin n → Finset α} (hnodup : ∀ i, (g i).Nodup)
    (hmem : ∀ i x, x ∈ g i ↔ x ∈ f i) (a : α) : places g a = refs f a := by
  rw [places, refs_eq_sum]
  refine Finset.sum_congr rfl fun i _ => ?_
  rw [(hnodup i).count]
  exact if_congr (hmem i a) rfl rfl

end Flat

end Bins
