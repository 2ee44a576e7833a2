import Mathlib.Data.List.DropRight

/-!
# Sliding windows

A window of a bounded number of values: when it is full, the oldest value makes room for the next
one. After any number of values it holds the last of them. Nothing here is about one program.

## Main definitions

* `SlidingWindow.push n v x`: a value comes into a window of `n` values

## Main results

* `push_rtake`: the last values, and one more
* `foldl_push`: the window after a sequence of values
-/

namespace SlidingWindow

variable {α : Type} {n : ℕ}

/-- A value comes into a window; the oldest one leaves it if it is full. -/
def push (n : ℕ) (v : List α) (x : α) : List α :=
  (if v.length = n then v.tail else v) ++ [x]

theorem length_rtake (l : List α) : (l.rtake n).length = min l.length n := by
  rw [List.rtake, List.length_drop]
  omega

/-- A window with the last values of a sequence has the last ones after one more. -/
theorem push_rtake (hn : 0 < n) (l : List α) (x : α) :
    push n (l.rtake n) x = (l ++ [x]).rtake n := by
  rw [push, length_rtake]
  by_cases hfull : n ≤ l.length
  · rw [if_pos (Nat.min_eq_right hfull), List.rtake, List.rtake, List.tail_drop, List.length_append,
      List.length_singleton, List.drop_append_of_le_length (by omega),
      show l.length + 1 - n = l.length - n + 1 by omega]
  · rw [if_neg (by omega), List.rtake, List.rtake, List.length_append, List.length_singleton,
      show l.length - n = 0 by omega, show l.length + 1 - n = 0 by omega]
    rfl

/-- **The window after a sequence of values** holds the last of them. -/
theorem foldl_push (hn : 0 < n) (a : α) (l : List α) :
    l.foldl (push n) [a] = (a :: l).rtake n := by
  induction l using List.reverseRecOn with
  | nil =>
    rw [List.foldl_nil, List.rtake, List.length_singleton, show 1 - n = 0 by omega]
    rfl
  | append_singleton l x ih =>
    rw [List.foldl_concat, ih, push_rtake hn]
    rfl

end SlidingWindow
