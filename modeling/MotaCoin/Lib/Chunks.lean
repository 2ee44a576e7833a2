import Mathlib.Data.List.Flatten
import Mathlib.Data.Nat.Init

/-!
# Reading a list in chunks

A reader takes one item from the front of a list, or cannot. Reading on and on splits a list into
the chunks of its items and a tail that cannot be read. Nothing here is about one program.

## Main definitions

* `Chunks.Reader`: how one item is read
* `Chunks.Reader.split`: the chunks of a list, and its tail
* `Chunks.Reader.ReadsAs`: the list is read to its end, as these items
* `Chunks.Reader.StableBelow`: what is read depends on the chunk only
* `Chunks.Reader.without`: the list without the chunks that equal a given one

## Main results

* `Chunks.Reader.flatMap_split`: the chunks and the tail make up the list
* `Chunks.Reader.readsAs_cons_iff`: reading item by item
* `Chunks.Reader.split_of_sublist`: chunks that are left out change nothing about the others
-/

namespace Chunks

variable {α β : Type*}

/-- How one item is read from the front of a list: the item, and the list after it. -/
structure Reader (α β : Type*) where
  /-- The item in front, with the rest. -/
  next : List α → Option (β × List α)
  /-- Items are read from the front. -/
  suffix : ∀ {l x rest}, next l = some (x, rest) → rest <:+ l
  /-- No item is empty. -/
  length_lt : ∀ {l x rest}, next l = some (x, rest) → rest.length < l.length

/-- An item, with the chunk it was read from. -/
structure Item (α β : Type*) where
  /-- The item. -/
  value : β
  /-- What it was read from. -/
  chunk : List α

namespace Reader

variable (r : Reader α β) {l rest : List α} {x : β}

/-- The chunks of a list, and its tail. -/
def split (l : List α) : List (Item α β) × List α :=
  match _ : r.next l with
  | none => ([], l)
  | some (x, rest) =>
    let s := split rest
    (⟨x, l.take (l.length - rest.length)⟩ :: s.1, s.2)
termination_by l.length
decreasing_by exact r.length_lt ‹_›

variable {r}

theorem split_of_none (h : r.next l = none) : r.split l = ([], l) := by
  rw [split]
  split
  · rfl
  · next hsome => cases h.symm.trans hsome

theorem split_of_some (h : r.next l = some (x, rest)) :
    r.split l = (⟨x, l.take (l.length - rest.length)⟩ :: (r.split rest).1, (r.split rest).2) := by
  rw [split]
  split
  · next hnone => cases hnone.symm.trans h
  · next hsome =>
    cases hsome.symm.trans h
    rfl

/-- What is read is a chunk in front of a rest. -/
theorem split_append (h : r.next (l ++ rest) = some (x, rest)) :
    r.split (l ++ rest) = (⟨x, l⟩ :: (r.split rest).1, (r.split rest).2) := by
  rw [split_of_some h, List.length_append, Nat.add_sub_cancel, List.take_left]

/-- Induction along the items of a list. -/
theorem induction {P : List α → Prop} (none : ∀ l, r.next l = none → P l)
    (some : ∀ c rest x, r.next (c ++ rest) = some (x, rest) → P rest → P (c ++ rest))
    (l : List α) : P l := by
  induction hn : l.length using Nat.strong_induction_on generalizing l with
  | _ n ih =>
    subst hn
    cases hnext : r.next l with
    | none => exact none l hnext
    | some p =>
      obtain ⟨x, rest⟩ := p
      have hrest := ih _ (r.length_lt hnext) rest rfl
      obtain ⟨c, rfl⟩ := r.suffix hnext
      exact some c rest x hnext hrest

/-- The chunks and the tail make up the list. -/
theorem flatMap_split (l : List α) : (r.split l).1.flatMap Item.chunk ++ (r.split l).2 = l := by
  induction l using r.induction with
  | none l h =>
    rw [split_of_none h]
    rfl
  | some c rest x h ih =>
    rw [split_append h, List.flatMap_cons, List.append_assoc, ih]

/-! ## Reading to the end -/

variable (r) in
/-- The list is read to its end, as these items. -/
def ReadsAs (l : List α) (xs : List β) : Prop :=
  (r.split l).1.map Item.value = xs ∧ (r.split l).2 = []

variable {xs ys : List β}

theorem readsAs_nil_iff : r.ReadsAs l [] ↔ l = [] := by
  constructor
  · rintro ⟨hitems, htail⟩
    have hl := r.flatMap_split l
    rw [List.map_eq_nil_iff.mp hitems, htail] at hl
    exact hl.symm
  · rintro rfl
    have hnone : r.next [] = none := by
      cases h : r.next [] with
      | none => rfl
      | some p => exact absurd (r.length_lt h) (Nat.not_lt_zero _)
    rw [ReadsAs, split_of_none hnone]
    exact ⟨rfl, rfl⟩

theorem readsAs_cons_iff :
    r.ReadsAs l (x :: xs) ↔ ∃ rest, r.next l = some (x, rest) ∧ r.ReadsAs rest xs := by
  cases h : r.next l with
  | none =>
    refine iff_of_false ?_ (by simp)
    rw [ReadsAs, split_of_none h]
    exact fun hread => List.cons_ne_nil _ _ hread.1.symm
  | some p =>
    obtain ⟨y, rest⟩ := p
    rw [ReadsAs, split_of_some h, List.map_cons, List.cons_eq_cons]
    constructor
    · rintro ⟨⟨rfl, hitems⟩, htail⟩
      exact ⟨rest, rfl, hitems, htail⟩
    · rintro ⟨rest', hrest, hitems, htail⟩
      obtain ⟨rfl, rfl⟩ := Prod.mk.inj (Option.some.inj hrest)
      exact ⟨⟨rfl, hitems⟩, htail⟩

/-! ## Leaving chunks out -/

variable (r) in
/-- In lists shorter than `N`, what is read depends on the chunk only. -/
def StableBelow (N : ℕ) : Prop :=
  ∀ {c t t' : List α} {x : β}, r.next (c ++ t) = some (x, t) → (c ++ t).length < N →
    (c ++ t').length < N → r.next (c ++ t') = some (x, t')

variable {N : ℕ}

/-- **Chunks that are left out change nothing about the others**, nor about the tail. -/
theorem split_of_sublist (hr : r.StableBelow N) (hl : l.length < N) {items : List (Item α β)}
    (hsub : List.Sublist items (r.split l).1) :
    r.split (items.flatMap Item.chunk ++ (r.split l).2) = (items, (r.split l).2) := by
  induction l using r.induction generalizing items with
  | none l h =>
    rw [split_of_none h] at hsub ⊢
    obtain rfl := List.sublist_nil.mp hsub
    exact split_of_none h
  | some c rest x h ih =>
    have hrest : rest.length < N := by
      rw [List.length_append] at hl
      omega
    rw [split_append h] at hsub ⊢
    cases hsub with
    | cons _ hsub => exact ih hrest hsub
    | cons_cons _ hsub =>
      rename_i items
      -- the list left is no longer than the list there was
      have hle : (items.flatMap Item.chunk ++ (r.split rest).2).length ≤ rest.length := by
        have hle := ((hsub.flatMap Item.chunk).append_right (r.split rest).2).length_le
        rwa [flatMap_split] at hle
      have hnext : r.next (c ++ (items.flatMap Item.chunk ++ (r.split rest).2)) =
          some (x, items.flatMap Item.chunk ++ (r.split rest).2) := by
        refine hr h hl ?_
        rw [List.length_append] at hl ⊢
        omega
      rw [List.flatMap_cons, List.append_assoc, split_append hnext, ih hrest hsub]

variable [DecidableEq α]

variable (r) in
/-- The list without the chunks that equal `b`. -/
def without (b l : List α) : List α :=
  ((r.split l).1.filter fun item => item.chunk ≠ b).flatMap Item.chunk ++ (r.split l).2

variable (r) in
/-- How many chunks equal `b`. -/
def count (b l : List α) : ℕ := (r.split l).1.countP fun item => item.chunk = b

section Without

variable {b c : List α}

theorem without_of_none (h : r.next l = none) : r.without b l = l ∧ r.count b l = 0 := by
  rw [without, count, split_of_none h]
  exact ⟨rfl, rfl⟩

theorem without_append_of_eq (h : r.next (b ++ rest) = some (x, rest)) :
    r.without b (b ++ rest) = r.without b rest ∧ r.count b (b ++ rest) = r.count b rest + 1 := by
  rw [without, count, split_append h]
  simp [without, count]

theorem without_append_of_ne (h : r.next (c ++ rest) = some (x, rest)) (hne : c ≠ b) :
    r.without b (c ++ rest) = c ++ r.without b rest ∧
      r.count b (c ++ rest) = r.count b rest := by
  rw [without, count, split_append h]
  simp [without, count, hne]

/-- A chunk that reads as none of the items is nowhere. -/
theorem without_of_forall_ne (h : ∀ rest x, (b ++ rest).length ≤ l.length →
    r.next (b ++ rest) = some (x, rest) → ∀ item ∈ (r.split l).1, item.value ≠ x) :
    r.without b l = l := by
  induction l using r.induction with
  | none l hnone => exact (without_of_none hnone).1
  | some c rest x hnext ih =>
    rw [split_append hnext] at h
    have hne : c ≠ b := by
      rintro rfl
      exact h rest x (Nat.le_refl _) hnext _ List.mem_cons_self rfl
    have ih := ih fun rest' x' hlen hnext' item hitem => by
      refine h rest' x' (Nat.le_trans hlen ?_) hnext' item (List.mem_cons_of_mem _ hitem)
      rw [List.length_append]
      exact Nat.le_add_left _ _
    rw [(without_append_of_ne hnext hne).1, ih]

/-- What is left has the other chunks, and the same tail. -/
theorem split_without (hr : r.StableBelow N) (hl : l.length < N) :
    r.split (r.without b l) =
      ((r.split l).1.filter fun item => item.chunk ≠ b, (r.split l).2) :=
  split_of_sublist hr hl List.filter_sublist

/-- Nothing is left to leave out. -/
theorem without_without (hr : r.StableBelow N) (hl : l.length < N) :
    r.without b (r.without b l) = r.without b l ∧ r.count b (r.without b l) = 0 := by
  rw [without, count, split_without hr hl, List.filter_filter]
  simp [without, List.countP_filter]

end Without

end Reader

end Chunks
