import Mathlib.Data.List.Infix
import Mathlib.Tactic.Common

/-!
# The first place of a pattern

Where a pattern first stands in a list. Nothing here is about one program.

## Main definitions

* `Search.find pat l`: the first place of `pat` in `l`

## Main results

* `Search.find_eq_some_iff`, `Search.find_eq_none_iff`: what it finds
* `Search.find_eq_find_drop`: places where the pattern does not stand can be skipped
-/

namespace Search

variable {α : Type*} [DecidableEq α] (pat : List α)

/-- The first place of the pattern. -/
def find : List α → Option ℕ
  | [] => none
  | a :: l => if pat <+: a :: l then some 0 else (find l).map (· + 1)

variable {pat} {l : List α} {i n : ℕ}

theorem find_cons_of_not (a : α) (l : List α) (h : ¬ pat <+: a :: l) :
    find pat (a :: l) = (find pat l).map (· + 1) := if_neg h

theorem find_of_isPrefix (hpat : pat ≠ []) (h : pat <+: l) : find pat l = some 0 := by
  cases l with
  | nil => exact absurd (List.prefix_nil.mp h) hpat
  | cons a l => exact if_pos h

/-- Places where the pattern does not stand can be skipped. -/
theorem find_eq_find_drop (h : ∀ j < n, ¬ pat <+: l.drop j) :
    find pat l = (find pat (l.drop n)).map (· + n) := by
  induction n generalizing l with
  | zero => simp
  | succ n ih =>
    cases l with
    | nil => rfl
    | cons a l =>
      have hrest : ∀ j < n, ¬ pat <+: l.drop j := fun j hj => h (j + 1) (Nat.succ_lt_succ hj)
      rw [find_cons_of_not a l (h 0 (Nat.succ_pos n)), ih hrest, Option.map_map,
        List.drop_succ_cons]
      rfl

theorem find_eq_some_iff (hpat : pat ≠ []) :
    find pat l = some i ↔ pat <+: l.drop i ∧ ∀ j < i, ¬ pat <+: l.drop j := by
  constructor
  · induction l generalizing i with
    | nil => exact nofun
    | cons a l ih =>
      intro h
      by_cases hhere : pat <+: a :: l
      · rw [find_of_isPrefix hpat hhere] at h
        obtain rfl := Option.some.inj h
        exact ⟨hhere, nofun⟩
      · rw [find_cons_of_not a l hhere] at h
        obtain ⟨i, hi, rfl⟩ := Option.map_eq_some_iff.mp h
        obtain ⟨hplace, hbefore⟩ := ih hi
        refine ⟨hplace, fun j hj => ?_⟩
        cases j with
        | zero => exact hhere
        | succ j => exact hbefore j (Nat.lt_of_succ_lt_succ hj)
  · rintro ⟨hplace, hbefore⟩
    rw [find_eq_find_drop hbefore, find_of_isPrefix hpat hplace, Option.map_some, Nat.zero_add]

theorem find_eq_none_iff (hpat : pat ≠ []) : find pat l = none ↔ ∀ i, ¬ pat <+: l.drop i := by
  constructor
  · induction l with
    | nil =>
      intro _ i h
      rw [List.drop_nil] at h
      exact hpat (List.prefix_nil.mp h)
    | cons a l ih =>
      intro h i
      by_cases hhere : pat <+: a :: l
      · rw [find_of_isPrefix hpat hhere] at h
        cases h
      · rw [find_cons_of_not a l hhere] at h
        cases i with
        | zero => exact hhere
        | succ i => exact ih (Option.map_eq_none_iff.mp h) i
  · intro h
    rw [find_eq_find_drop fun j (_ : j < l.length) => h j, List.drop_length]
    rfl

end Search
