import Mathlib.Data.List.Basic
import Mathlib.Data.List.GetD
import Mathlib.Tactic.Linarith
import Mathlib.Tactic.Ring

/-!
# Merkle trees with a ragged right edge

The tree over a list of leaves: a node of height `h + 1` combines two neighbours of height `h`, and
the last node of an odd level is combined with itself. The hash of a node fixes the leaves below it
when combining is injective, with the last ones repeated as often as the tree repeats them; so the
root fixes a list without duplicates. Nothing here is about one program.

## Main definitions

* `width n h`: the number of nodes of height `h` over `n` leaves
* `nodeHash`: the hash of a node
* `pairUp`: one level from the one below
* `slice xs h pos`, `spread xs h pos`: the leaves below a node, without and with the repeated ones

## Main results

* `nodeHash_pairUp`: the levels have the hashes of the nodes
* `spread_eq_of_nodeHash_eq`: the hash of a node fixes the leaves below it
* `eq_of_nodeHash_eq`: the root fixes a list without duplicates
-/

namespace MerkleTree

/-! ## Widths -/

/-- The number of nodes of height `h` over `n` leaves. -/
def width (n h : Nat) : Nat := (n + 2 ^ h - 1) / 2 ^ h

theorem lt_width_iff {n h pos : Nat} : pos < width n h ↔ pos * 2 ^ h < n := by
  have hpos : 0 < 2 ^ h := by positivity
  unfold width
  rw [← Nat.succ_le_iff, Nat.le_div_iff_mul_le hpos, Nat.succ_mul]
  omega

/-- The left child of a node is there. -/
theorem left_lt_width {n h pos : Nat} (hpos : pos < width n (h + 1)) : pos * 2 < width n h := by
  rw [lt_width_iff] at hpos ⊢
  rwa [mul_assoc, ← pow_succ']

@[simp] theorem width_zero (n : Nat) : width n 0 = n := by simp [width]

theorem width_pos {n : Nat} (hn : 0 < n) (h : Nat) : 0 < width n h :=
  lt_width_iff.mpr (by simpa using hn)

theorem width_le_one_iff {n h : Nat} : width n h ≤ 1 ↔ n ≤ 2 ^ h := by
  have : 1 < width n h ↔ 1 * 2 ^ h < n := lt_width_iff
  omega

theorem width_width (n h : Nat) : width (width n 1) h = width n (h + 1) := by
  -- both count the multiples of `2 ^ (h + 1)` below `n`
  refine Nat.le_antisymm (Nat.le_of_not_lt fun hlt => ?_) (Nat.le_of_not_lt fun hlt => ?_)
  · have hle : ¬ width n (h + 1) < width n (h + 1) := lt_irrefl _
    rw [lt_width_iff] at hlt hle
    rw [lt_width_iff, pow_one] at hlt
    rw [pow_succ, ← mul_assoc] at hle
    exact hle hlt
  · have hle : ¬ width (width n 1) h < width (width n 1) h := lt_irrefl _
    rw [lt_width_iff, pow_succ, ← mul_assoc] at hlt
    rw [lt_width_iff, lt_width_iff, pow_one] at hle
    exact hle hlt

/-! ## Hashes of nodes -/

section Nodes

variable {H : Type} (combine : H → H → H) (d : H)

/-- The hash of the node of height `h` at `pos`; `d` stands for leaves that are not there. -/
def nodeHash (xs : List H) : Nat → Nat → H
  | 0, pos => xs.getD pos d
  | h + 1, pos =>
    let left := nodeHash xs h (pos * 2)
    combine left (if pos * 2 + 1 < width xs.length h then nodeHash xs h (pos * 2 + 1) else left)

/-- One level from the one below: neighbours are combined, an odd last one with itself. -/
def pairUp : List H → List H
  | [] => []
  | [a] => [combine a a]
  | a :: b :: rest => combine a b :: pairUp rest

theorem length_pairUp (xs : List H) : (pairUp combine xs).length = (xs.length + 1) / 2 := by
  induction xs using pairUp.induct with
  | case1 => simp [pairUp]
  | case2 a => simp [pairUp]
  | case3 a b rest ih =>
    simp only [pairUp, List.length_cons, ih]
    omega

theorem length_pairUp_eq_width (xs : List H) :
    (pairUp combine xs).length = width xs.length 1 := by
  rw [length_pairUp, width]
  simp

/-- A member of a level combines its two children, or its only one with itself. -/
theorem getD_pairUp (xs : List H) {pos : Nat} (hpos : pos * 2 < xs.length) :
    (pairUp combine xs).getD pos d =
      combine (xs.getD (pos * 2) d)
        (if pos * 2 + 1 < xs.length then xs.getD (pos * 2 + 1) d else xs.getD (pos * 2) d) := by
  induction xs using pairUp.induct generalizing pos with
  | case1 => simp at hpos
  | case2 a =>
    obtain rfl : pos = 0 := by
      simp at hpos
      omega
    simp [pairUp]
  | case3 a b rest ih =>
    cases pos with
    | zero => simp [pairUp]
    | succ pos =>
      have hrest : pos * 2 < rest.length := by
        simp only [List.length_cons] at hpos
        omega
      have := ih hrest
      simp only [pairUp, List.getD_cons_succ, this, List.length_cons,
        show (pos + 1) * 2 = pos * 2 + 1 + 1 by omega, Nat.add_lt_add_iff_right]

/-- **The levels have the hashes of the nodes**: the tree over the level above the leaves is the
tree without them. -/
theorem nodeHash_pairUp (xs : List H) (h : Nat) {pos : Nat}
    (hpos : pos < width xs.length (h + 1)) :
    nodeHash combine d (pairUp combine xs) h pos = nodeHash combine d xs (h + 1) pos := by
  induction h generalizing pos with
  | zero =>
    rw [lt_width_iff, pow_one] at hpos
    rw [nodeHash, getD_pairUp combine d xs hpos]
    simp only [nodeHash, width_zero]
  | succ h ih =>
    rw [nodeHash, nodeHash, ih (left_lt_width hpos), length_pairUp_eq_width, width_width]
    by_cases hright : pos * 2 + 1 < width xs.length (h + 1)
    · simp only [if_pos hright, ih hright]
    · simp only [if_neg hright]

/-! ## The leaves below a node -/

variable {d}

/-- The leaves below a node. -/
def slice (xs : List H) (h pos : Nat) : List H := (xs.drop (pos * 2 ^ h)).take (2 ^ h)

theorem slice_zero {xs : List H} {pos : Nat} (hpos : pos < xs.length) :
    slice xs 0 pos = [xs.getD pos d] := by
  rw [slice, pow_zero, mul_one, List.getD_eq_getElem _ _ hpos, List.drop_eq_getElem_cons hpos]
  rfl

theorem slice_succ (xs : List H) (h pos : Nat) :
    slice xs (h + 1) pos = slice xs h (pos * 2) ++ slice xs h (pos * 2 + 1) := by
  have hleft : pos * 2 ^ (h + 1) = pos * 2 * 2 ^ h := by ring
  have hright : pos * 2 * 2 ^ h + 2 ^ h = (pos * 2 + 1) * 2 ^ h := by ring
  unfold slice
  rw [hleft, pow_succ, mul_two, List.take_add, List.drop_drop, hright]

theorem slice_eq_nil {xs : List H} {h pos : Nat} (hpos : ¬ pos < width xs.length h) :
    slice xs h pos = [] := by
  rw [lt_width_iff] at hpos
  rw [slice, List.drop_eq_nil_of_le (by omega), List.take_nil]

theorem slice_map {K : Type} (f : H → K) (xs : List H) (h pos : Nat) :
    slice (xs.map f) h pos = (slice xs h pos).map f := by
  rw [slice, slice, ← List.map_drop, ← List.map_take]

/-- All leaves are below the root. -/
theorem slice_root {xs : List H} {h : Nat} (hh : xs.length ≤ 2 ^ h) : slice xs h 0 = xs := by
  rw [slice, zero_mul, List.drop_zero, List.take_of_length_le hh]

variable (d) in
/-- The leaves below a node, the ones of an only child twice. -/
def spread (xs : List H) : Nat → Nat → List H
  | 0, pos => [xs.getD pos d]
  | h + 1, pos =>
    spread xs h (pos * 2) ++
      spread xs h (if pos * 2 + 1 < width xs.length h then pos * 2 + 1 else pos * 2)

theorem length_spread (xs : List H) (h pos : Nat) : (spread d xs h pos).length = 2 ^ h := by
  induction h generalizing pos with
  | zero => rfl
  | succ h ih => rw [spread, List.length_append, ih, ih, pow_succ, mul_two]

/-- What is repeated stands after the leaves and repeats them. -/
theorem spread_eq_append {xs : List H} {h pos : Nat} (hpos : pos < width xs.length h) :
    ∃ ps, spread d xs h pos = slice xs h pos ++ ps ∧ ∀ x ∈ ps, x ∈ slice xs h pos := by
  induction h generalizing pos with
  | zero =>
    rw [width_zero] at hpos
    exact ⟨[], by rw [spread, slice_zero hpos, List.append_nil], by simp⟩
  | succ h ih =>
    obtain ⟨ps, hps, hmem⟩ := ih (left_lt_width hpos)
    by_cases hright : pos * 2 + 1 < width xs.length h
    · -- a node with a right neighbour has nothing to repeat
      have hfull : ps = [] := by
        have hlen := congrArg List.length hps
        have hslice : (slice xs h (pos * 2)).length = 2 ^ h := by
          rw [lt_width_iff, Nat.succ_mul] at hright
          rw [slice, List.length_take, List.length_drop]
          omega
        rw [length_spread, List.length_append, hslice] at hlen
        exact List.eq_nil_of_length_eq_zero (by omega)
      obtain ⟨ps', hps', hmem'⟩ := ih hright
      refine ⟨ps', ?_, fun x hx => ?_⟩
      · rw [spread, if_pos hright, hps, hps', hfull, List.append_nil, slice_succ,
          List.append_assoc]
      · rw [slice_succ]
        exact List.mem_append_right _ (hmem' x hx)
    · rw [slice_succ, slice_eq_nil hright, List.append_nil]
      refine ⟨ps ++ (slice xs h (pos * 2) ++ ps), ?_, fun x hx => ?_⟩
      · rw [spread, if_neg hright, hps, List.append_assoc]
      · rcases List.mem_append.mp hx with hx | hx
        · exact hmem x hx
        · rcases List.mem_append.mp hx with hx | hx
          · exact hx
          · exact hmem x hx

/-! ## What a hash fixes -/

variable {combine} (hinj : ∀ a b a' b', combine a b = combine a' b' → a = a' ∧ b = b')
include hinj

/-- **The hash of a node fixes the leaves below it.** -/
theorem spread_eq_of_nodeHash_eq {xs ys : List H} {h pos pos' : Nat}
    (heq : nodeHash combine d xs h pos = nodeHash combine d ys h pos') :
    spread d xs h pos = spread d ys h pos' := by
  induction h generalizing pos pos' with
  | zero => simpa [nodeHash, spread] using heq
  | succ h ih =>
    obtain ⟨hleft, hright⟩ := hinj _ _ _ _ heq
    rw [spread, spread, ih hleft]
    congr 1
    split at hright
    · next hx =>
      rw [if_pos hx]
      split at hright
      · next hy => rw [if_pos hy, ih hright]
      · next hy => rw [if_neg hy, ih hright]
    · next hx =>
      rw [if_neg hx]
      split at hright
      · next hy => rw [if_pos hy, ih hright]
      · next hy => rw [if_neg hy, ih hright]

/-- A node has not the hash of one of another height, leaves not being combined. -/
theorem nodeHash_ne_of_lt {xs ys : List H} (hleaf : ∀ x ∈ xs, ∀ a b, x ≠ combine a b)
    {h k pos pos' : Nat} (hpos : pos < width xs.length h) :
    nodeHash combine d xs h pos ≠ nodeHash combine d ys (h + (k + 1)) pos' := by
  induction h generalizing pos pos' with
  | zero =>
    rw [width_zero] at hpos
    rw [nodeHash, List.getD_eq_getElem _ _ hpos, zero_add, nodeHash]
    exact hleaf _ (List.getElem_mem hpos) _ _
  | succ h ih =>
    intro heq
    rw [show h + 1 + (k + 1) = h + (k + 1) + 1 by omega] at heq
    exact ih (left_lt_width hpos) (hinj _ _ _ _ heq).1

/-- **The root fixes a list without duplicates**, whatever the lengths. -/
theorem eq_of_nodeHash_eq {xs ys : List H} (hxs : xs ≠ []) (hys : ys ≠ []) (hx : xs.Nodup)
    (hy : ys.Nodup) (hleafx : ∀ x ∈ xs, ∀ a b, x ≠ combine a b)
    (hleafy : ∀ y ∈ ys, ∀ a b, y ≠ combine a b) {h h' : Nat} (hh : xs.length ≤ 2 ^ h)
    (hh' : ys.length ≤ 2 ^ h') (heq : nodeHash combine d xs h 0 = nodeHash combine d ys h' 0) :
    xs = ys := by
  have hposx := width_pos (List.length_pos_iff.mpr hxs) h
  have hposy := width_pos (List.length_pos_iff.mpr hys) h'
  -- the heights agree
  rcases Nat.lt_trichotomy h h' with hlt | rfl | hlt
  · rw [show h' = h + (h' - h - 1 + 1) by omega] at heq
    exact absurd heq (nodeHash_ne_of_lt hinj hleafx hposx)
  · obtain ⟨ps, hps, hmem⟩ := spread_eq_append (d := d) hposx
    obtain ⟨ps', hps', hmem'⟩ := spread_eq_append (d := d) hposy
    have hspread := spread_eq_of_nodeHash_eq hinj heq
    rw [hps, hps', slice_root hh, slice_root hh'] at hspread
    rw [slice_root hh] at hmem
    rw [slice_root hh'] at hmem'
    -- one list continues the other by repeating one of its own members
    have hinit : ∀ {l l' q q' : List H}, l.length ≤ l'.length → l'.Nodup → (∀ x ∈ q, x ∈ l) →
        l ++ q = l' ++ q' → l = l' := by
      intro l l' q q' hlen hnodup hq happ
      obtain ⟨more, rfl⟩ : ∃ more, l' = l ++ more := by
        have hp : l <+: l' ++ q' := ⟨q, happ⟩
        obtain ⟨more, hmore⟩ := List.prefix_of_prefix_length_le hp (List.prefix_append _ _) hlen
        exact ⟨more, hmore.symm⟩
      cases more with
      | nil => rw [List.append_nil]
      | cons c more =>
        have hc : c ∈ q := by
          rw [List.append_assoc] at happ
          rw [List.append_cancel_left happ]
          simp
        have hdisjoint := (List.nodup_append.mp hnodup).2.2
        exact absurd rfl (hdisjoint c (hq c hc) c List.mem_cons_self)
    rcases Nat.le_total xs.length ys.length with hle | hle
    · exact hinit hle hy hmem hspread
    · exact (hinit hle hx hmem' hspread.symm).symm
  · rw [show h = h' + (h - h' - 1 + 1) by omega] at heq
    exact absurd heq.symm (nodeHash_ne_of_lt hinj hleafy hposy)

end Nodes

end MerkleTree
