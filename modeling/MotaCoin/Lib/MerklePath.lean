import MotaCoin.Lib.MerkleTree
import Mathlib.Data.Nat.Bitwise

/-!
# Paths in Merkle trees

The levels of a tree one after the other, and the path of a leaf: the sibling at each level, which
is the node itself where an odd last one is combined with itself. Climbing the path from the leaf
gives the root. Nothing here is about one program.

## Main definitions

* `levels combine xs`: the leaves and the levels above them, in one list
* `path combine d xs i`: the siblings from leaf `i` up
* `climb combine i h path`: the hashes combined along a path, the bits of `i` telling the sides

## Main results

* `getD_pairUp_sibling`: a node and its sibling are combined to the node above them
* `climb_path`: every leaf climbs to the root, with which the levels end
-/

namespace MerkleTree

variable {H : Type} (combine : H → H → H) (d : H)

theorem length_pairUp_lt {xs : List H} (h : 1 < xs.length) :
    (pairUp combine xs).length < xs.length := by
  rw [length_pairUp]
  omega

/-- The leaves, and the levels above them. -/
def levels (xs : List H) : List H :=
  if 1 < xs.length then xs ++ levels (pairUp combine xs) else xs
termination_by xs.length
decreasing_by exact length_pairUp_lt combine ‹_›

/-- The siblings from the leaf `i` up; an odd last node is its own sibling. -/
def path (xs : List H) (i : ℕ) : List H :=
  if 1 < xs.length then
    xs.getD (min (i ^^^ 1) (xs.length - 1)) d :: path (pairUp combine xs) (i / 2)
  else []
termination_by xs.length
decreasing_by exact length_pairUp_lt combine ‹_›

/-- The hashes combined along a path; the sibling of an odd position stands on the left. -/
def climb : ℕ → H → List H → H
  | _, h, [] => h
  | i, h, otherside :: rest =>
    climb (i / 2) (if i % 2 = 1 then combine otherside h else combine h otherside) rest

variable {xs : List H} {i : ℕ}

theorem levels_of_lt (h : 1 < xs.length) :
    levels combine xs = xs ++ levels combine (pairUp combine xs) := by
  rw [levels, if_pos h]

theorem levels_of_not_lt (h : ¬ 1 < xs.length) : levels combine xs = xs := by
  rw [levels, if_neg h]

theorem path_of_lt (h : 1 < xs.length) : path combine d xs i =
    xs.getD (min (i ^^^ 1) (xs.length - 1)) d :: path combine d (pairUp combine xs) (i / 2) := by
  rw [path, if_pos h]

theorem path_of_not_lt (h : ¬ 1 < xs.length) : path combine d xs i = [] := by
  rw [path, if_neg h]

/-- The levels begin with the leaves. -/
theorem prefix_levels (xs : List H) : xs <+: levels combine xs := by
  by_cases h : 1 < xs.length
  · rw [levels_of_lt combine h]
    exact List.prefix_append _ _
  · exact ⟨[], by rw [List.append_nil, levels_of_not_lt combine h]⟩

/-- The neighbour of a position, where there is one. -/
theorem min_xor_one (hi : i < xs.length) :
    min (i ^^^ 1) (xs.length - 1) =
      if i % 2 = 1 then i - 1 else if i + 1 < xs.length then i + 1 else i := by
  have hxor : i ^^^ 1 = if i % 2 = 1 then i - 1 else i + 1 := by
    rcases Nat.mod_two_eq_zero_or_one i with h | h
    · rw [if_neg (by omega), Nat.xor_one_of_even (Nat.even_iff.mpr h)]
    · rw [if_pos h, Nat.xor_one_of_odd (Nat.odd_iff.mpr h)]
  rw [hxor]
  split_ifs <;> omega

/-- A node and its sibling are combined to the node above them. -/
theorem getD_pairUp_sibling (hi : i < xs.length) :
    (pairUp combine xs).getD (i / 2) d =
      if i % 2 = 1 then combine (xs.getD (min (i ^^^ 1) (xs.length - 1)) d) (xs.getD i d)
      else combine (xs.getD i d) (xs.getD (min (i ^^^ 1) (xs.length - 1)) d) := by
  rw [getD_pairUp combine d xs (by omega), min_xor_one hi]
  by_cases hodd : i % 2 = 1
  · rw [if_pos hodd, if_pos hodd, if_pos (by omega), show i / 2 * 2 = i - 1 by omega,
      show i - 1 + 1 = i by omega]
  · rw [if_neg hodd, if_neg hodd, show i / 2 * 2 = i by omega]
    split <;> rfl

/-- **Every leaf climbs to the root**, with which the levels end. -/
theorem climb_path (hi : i < xs.length) :
    (levels combine xs).getLast? =
      some (climb combine i (xs.getD i d) (path combine d xs i)) := by
  induction hn : xs.length using Nat.strong_induction_on generalizing xs i with
  | _ n ih =>
    by_cases h : 1 < xs.length
    · have hlen := length_pairUp combine xs
      have hparent : i / 2 < (pairUp combine xs).length := by omega
      have hne : levels combine (pairUp combine xs) ≠ [] := by
        intro hnil
        have := (prefix_levels combine (pairUp combine xs)).length_le
        rw [hnil, hlen, List.length_nil] at this
        omega
      rw [levels_of_lt combine h, path_of_lt combine d h, climb,
        List.getLast?_append_of_ne_nil _ hne, ih _ (hn ▸ length_pairUp_lt combine h) hparent rfl,
        getD_pairUp_sibling combine d hi]
    · obtain ⟨x, rfl⟩ := List.length_eq_one_iff.mp (by omega : xs.length = 1)
      obtain rfl : i = 0 := by rw [List.length_singleton] at hi; omega
      rw [levels_of_not_lt combine h, path_of_not_lt combine d h]
      rfl

end MerkleTree
