import MotaCoin.PartialMerkle
import MotaCoin.Lib.TreeSum
import Mathlib.Algebra.Order.Floor.Semiring
import Mathlib.Data.Rat.Floor

/-!
# The size of partial Merkle trees

The header promises at most `2 * N - 1` flag bits for `N` hashes, and at most
`10 + ceil(32.25 * N)` bytes. In a binary tree whose inner nodes all have two children that is so.
At the right edge a node may have a single child, and then a bit is stored for it and no hash is
saved: there is one bit more for each such node above a match.

## Main definitions

* `Matched vMatch h pos`: a transaction below the node is matched
* `NoLoneMatch vMatch`: no match lies below a node with a single child
* `hashesNeeded vMatch`: the nodes at which the walk stops

## Main results

* `counts_traverseAndBuild`: the numbers of hashes and bits, node by node
* `length_vHash_build`: the number of hashes stored
* `partial_tree_size_iff`: the promise is kept exactly without such nodes and up to 65535 hashes
-/

namespace MotaCoin

open MerkleTree TreeSum Finset

/-! ## Matches below a node -/

section Matches

/-- A transaction below the node at `pos` of height `h` is matched. -/
def Matched (vMatch : List Bool) (h pos : ℕ) : Prop := (slice vMatch h pos).any id = true

instance (vMatch : List Bool) (h pos : ℕ) : Decidable (Matched vMatch h pos) :=
  inferInstanceAs (Decidable (_ = true))

/-- No match lies below a node with a single child. -/
def NoLoneMatch (vMatch : List Bool) : Prop :=
  ∀ h < treeHeight vMatch.length, ∀ pos < width vMatch.length (h + 1),
    width vMatch.length h ≤ pos * 2 + 1 → ¬ Matched vMatch (h + 1) pos

/-- A hash is stored for a node that is reached, its parent being above a match, when it is a
leaf or not above a match itself. -/
def storesHash (vMatch : List Bool) (h pos : ℕ) : ℕ :=
  if pos < width vMatch.length h ∧ Matched vMatch (h + 1) (pos / 2) ∧
    (h = 0 ∨ ¬ Matched vMatch h pos) then 1 else 0

/-- The number of such nodes. -/
def hashesNeeded (vMatch : List Bool) : ℕ :=
  ∑ h ∈ range (treeHeight vMatch.length + 1),
    ∑ pos ∈ range (width vMatch.length h), storesHash vMatch h pos

/-- A node above a match, with a single child. -/
def loneChild (vMatch : List Bool) (h pos : ℕ) : ℕ :=
  if h ≠ 0 ∧ pos < width vMatch.length h ∧ width vMatch.length (h - 1) ≤ pos * 2 + 1 ∧
    Matched vMatch h pos then 1 else 0

variable {vMatch : List Bool} {h pos : ℕ}

theorem matched_succ_iff : Matched vMatch (h + 1) pos ↔
    Matched vMatch h (pos * 2) ∨ Matched vMatch h (pos * 2 + 1) := by
  unfold Matched
  rw [slice_succ, List.any_append, Bool.or_eq_true]

theorem Matched.lt_width (hm : Matched vMatch h pos) : pos < width vMatch.length h := by
  by_contra hpos
  rw [Matched, slice_eq_nil hpos] at hm
  exact Bool.noConfusion hm

/-- All leaves lie below the root, and below the node that would be above it. -/
theorem matched_root (hm : true ∈ vMatch) (hh : treeHeight vMatch.length ≤ h) :
    Matched vMatch h 0 := by
  have hlen : vMatch.length ≤ 2 ^ h :=
    (le_two_pow_treeHeight _).trans (Nat.pow_le_pow_right (by decide) hh)
  rw [Matched, slice_root hlen, List.any_eq_true]
  exact ⟨true, hm, rfl⟩

/-- Nothing is stored below a node that is not above a match. -/
theorem total_storesHash_eq_zero (hm : ¬ Matched vMatch (h + 1) (pos / 2)) :
    total (storesHash vMatch) h pos = 0 := by
  induction h generalizing pos with
  | zero => exact if_neg fun hif => hm hif.2.1
  | succ h ih =>
    have hnode : storesHash vMatch (h + 1) pos = 0 := if_neg fun hif => hm hif.2.1
    have hself : ¬ Matched vMatch (h + 1) pos := by
      intro hself
      refine hm (matched_succ_iff.mpr ?_)
      rcases Nat.mod_two_eq_zero_or_one pos with hmod | hmod
      · left
        rwa [show pos / 2 * 2 = pos by omega]
      · right
        rwa [show pos / 2 * 2 + 1 = pos by omega]
    rw [total, hnode, ih (by rwa [show pos * 2 / 2 = pos by omega]),
      ih (by rwa [show (pos * 2 + 1) / 2 = pos by omega])]

/-- Nor where there is no node. -/
theorem total_storesHash_outside (hpos : ¬ pos < width vMatch.length h) :
    total (storesHash vMatch) h pos = 0 := by
  induction h generalizing pos with
  | zero => exact if_neg fun hif => hpos hif.1
  | succ h ih =>
    have hnode : storesHash vMatch (h + 1) pos = 0 := if_neg fun hif => hpos hif.1
    rw [lt_width_iff, pow_succ', ← Nat.mul_assoc] at hpos
    have hleft : ¬ pos * 2 < width vMatch.length h := by rwa [lt_width_iff]
    rw [total, hnode, ih hleft, ih fun hlt => hleft (by omega)]

theorem total_loneChild_eq_zero (hm : ¬ Matched vMatch h pos) :
    total (loneChild vMatch) h pos = 0 := by
  induction h generalizing pos with
  | zero =>
    have hleaf : loneChild vMatch 0 pos = 0 := if_neg fun hif => hif.1 rfl
    exact hleaf
  | succ h ih =>
    have hnode : loneChild vMatch (h + 1) pos = 0 := if_neg fun hif => hm hif.2.2.2
    rw [matched_succ_iff, not_or] at hm
    rw [total, hnode, ih hm.1, ih hm.2]

end Matches

/-! ## Hashes and bits, node by node -/

section Counts

variable (C : Crypto) {vTxid : List Uint256} {vMatch : List Bool}

/-- **The numbers of hashes and bits stored for a node** that is reached. -/
theorem counts_traverseAndBuild (hlen : vMatch.length = vTxid.length) (h : ℕ) :
    ∀ {pos : ℕ}, pos < width vTxid.length h → Matched vMatch (h + 1) (pos / 2) →
      (traverseAndBuild C vTxid vMatch h pos).2.length = total (storesHash vMatch) h pos ∧
      (traverseAndBuild C vTxid vMatch h pos).1.length + 1 =
        2 * total (storesHash vMatch) h pos + total (loneChild vMatch) h pos := by
  induction h with
  | zero =>
    intro pos hpos hm
    have hhash : storesHash vMatch 0 pos = 1 := if_pos ⟨hlen ▸ hpos, hm, Or.inl rfl⟩
    have hlone : loneChild vMatch 0 pos = 0 := if_neg fun hif => hif.1 rfl
    rw [total, total, hhash, hlone]
    exact ⟨rfl, rfl⟩
  | succ h ih =>
    intro pos hpos hm
    have hleft : pos * 2 / 2 = pos := by omega
    have hright : (pos * 2 + 1) / 2 = pos := by omega
    rw [traverseAndBuild, total, total]
    by_cases hself : Matched vMatch (h + 1) pos
    · have hhash : storesHash vMatch (h + 1) pos = 0 := if_neg fun hif =>
        hif.2.2.elim (Nat.succ_ne_zero h) (fun hn => hn hself)
      obtain ⟨hhashes, hbits⟩ := ih (left_lt_width hpos) (by rwa [hleft])
      have hflag : (slice vMatch (h + 1) pos).any id = true := hself
      rw [if_pos hflag, hhash]
      by_cases htwo : pos * 2 + 1 < width vTxid.length h
      · -- two children: the bit of the node makes up for the one that the children share
        have hlone : loneChild vMatch (h + 1) pos = 0 := by
          refine if_neg fun hif => ?_
          rw [hlen] at hif
          exact absurd hif.2.2.1 (not_le.mpr htwo)
        obtain ⟨hhashes', hbits'⟩ := ih htwo (by rwa [hright])
        rw [if_pos htwo, hlone]
        simp only [List.length_append, List.length_cons]
        omega
      · -- a single child: the bit of the node comes on top
        have hlone : loneChild vMatch (h + 1) pos = 1 :=
          if_pos ⟨Nat.succ_ne_zero h, hlen ▸ hpos, by rw [hlen]; exact not_lt.mp htwo, hself⟩
        have hnone : ¬ Matched vMatch h (pos * 2 + 1) := fun hm => htwo (hlen ▸ hm.lt_width)
        have hhashes' : total (storesHash vMatch) h (pos * 2 + 1) = 0 := by
          refine total_storesHash_outside ?_
          rwa [hlen]
        rw [if_neg htwo, hlone, hhashes', total_loneChild_eq_zero hnone]
        simp only [List.length_cons]
        omega
    · have hhash : storesHash vMatch (h + 1) pos = 1 := if_pos ⟨hlen ▸ hpos, hm, Or.inr hself⟩
      have hzero : loneChild vMatch (h + 1) pos = 0 := if_neg fun hif => hself hif.2.2.2
      have hflag : ¬ (slice vMatch (h + 1) pos).any id = true := hself
      rw [if_neg hflag, hhash, total_storesHash_eq_zero (by rwa [hleft]),
        total_storesHash_eq_zero (by rwa [hright]), hzero,
        total_loneChild_eq_zero fun hm => hself (matched_succ_iff.mpr (Or.inl hm)),
        total_loneChild_eq_zero fun hm => hself (matched_succ_iff.mpr (Or.inr hm))]
      exact ⟨rfl, rfl⟩

/-! ## The whole tree -/

theorem lt_two_pow_of_lt_width {h pos : ℕ} (hh : h ≤ treeHeight vMatch.length)
    (hpos : pos < width vMatch.length h) : pos < 2 ^ (treeHeight vMatch.length - h) := by
  rw [lt_width_iff] at hpos
  have hle := le_two_pow_treeHeight vMatch.length
  rw [← Nat.sub_add_cancel hh, pow_add] at hle
  exact Nat.lt_of_mul_lt_mul_right (hpos.trans_le hle)

theorem total_storesHash_root :
    total (storesHash vMatch) (treeHeight vMatch.length) 0 = hashesNeeded vMatch := by
  rw [total_eq_sum, hashesNeeded]
  refine sum_congr rfl fun h hh => ?_
  rw [mem_range, Nat.lt_succ_iff] at hh
  rw [Nat.zero_mul, Nat.zero_add, Nat.one_mul, ← Finset.range_eq_Ico]
  refine (sum_subset (fun pos hpos => ?_) fun pos _ hpos => ?_).symm
  · exact mem_range.mpr (lt_two_pow_of_lt_width hh (mem_range.mp hpos))
  · exact if_neg fun hif => hpos (mem_range.mpr hif.1)

theorem total_loneChild_root :
    total (loneChild vMatch) (treeHeight vMatch.length) 0 = 0 ↔ NoLoneMatch vMatch := by
  rw [total_root_eq_zero_iff]
  constructor
  · intro hzero h hh pos hpos hwidth hm
    have := hzero (h + 1) hh pos (lt_two_pow_of_lt_width hh hpos)
    rw [loneChild, if_pos ⟨Nat.succ_ne_zero h, hpos, hwidth, hm⟩] at this
    exact Nat.one_ne_zero this
  · intro hlone h hh pos _
    refine if_neg fun hif => ?_
    obtain ⟨k, rfl⟩ := Nat.exists_eq_succ_of_ne_zero hif.1
    exact hlone k hh pos hif.2.1 hif.2.2.1 hif.2.2.2

/-- At every node that is reached a hash is stored, or further down. -/
theorem traverseAndBuild_hashes_ne_nil (h pos : ℕ) :
    (traverseAndBuild C vTxid vMatch h pos).2 ≠ [] := by
  induction h generalizing pos with
  | zero => exact List.cons_ne_nil _ _
  | succ h ih =>
    rw [traverseAndBuild]
    by_cases hflag : (slice vMatch (h + 1) pos).any id = true
    · rw [if_pos hflag]
      by_cases htwo : pos * 2 + 1 < width vTxid.length h
      · rw [if_pos htwo]
        exact List.append_ne_nil_of_left_ne_nil (ih _) _
      · rw [if_neg htwo]
        exact ih _
    · rw [if_neg hflag]
      exact List.cons_ne_nil _ _

/-- **The numbers of hashes and flag bits of a tree.** -/
theorem counts_build (hlen : vMatch.length = vTxid.length) (hm : true ∈ vMatch) :
    (CPartialMerkleTree.build C vTxid vMatch).vHash.length = hashesNeeded vMatch ∧
    (CPartialMerkleTree.build C vTxid vMatch).vBits.length + 1 =
      2 * hashesNeeded vMatch + total (loneChild vMatch) (treeHeight vMatch.length) 0 := by
  have hn : 0 < vTxid.length := hlen ▸ List.length_pos_of_mem hm
  have hcounts := counts_traverseAndBuild C hlen (treeHeight vTxid.length) (width_pos hn _)
    (matched_root hm (by rw [hlen]; exact Nat.le_succ _))
  rw [← hlen, total_storesHash_root] at hcounts
  unfold CPartialMerkleTree.build
  rw [← hlen]
  exact hcounts

end Counts

/-! ## The size -/

section Size

theorem length_packBits (vBits : List Bool) : (packBits vBits).length = (vBits.length + 7) / 8 := by
  induction hn : vBits.length using Nat.strong_induction_on generalizing vBits with
  | _ n ih =>
    subst hn
    rw [packBits]
    by_cases hnil : vBits = []
    · rw [if_pos hnil, hnil]
      rfl
    · have hpos := List.length_pos_iff.mpr hnil
      rw [if_neg hnil, List.length_cons, ih _ (by rw [List.length_drop]; omega) _ rfl,
        List.length_drop]
      omega

/-- The size of a tree, by its parts. -/
theorem CPartialMerkleTree.length_serialize (t : CPartialMerkleTree) :
    t.serialize.length = 4 + (getSizeOfCompactSize t.vHash.length + 32 * t.vHash.length +
      (getSizeOfCompactSize ((t.vBits.length + 7) / 8) + (t.vBits.length + 7) / 8)) := by
  have hsum : ((t.vHash.map fun _ => 32).sum : ℕ) = 32 * t.vHash.length := by
    rw [List.map_const', List.sum_replicate_nat, Nat.mul_comm]
  rw [CPartialMerkleTree.serialize, List.length_append, List.length_append, Wire.length_leBytes,
    @length_serializeVector _ _ (fun _ => 32) (fun a => Wire.length_leBytes 32 a),
    length_serializeBytes, bytesSize, length_packBits, hsum]

/-- The bound on the size, in whole numbers. -/
theorem ceil_size (N : ℕ) : ⌈(32.25 : ℚ) * N⌉₊ = 32 * N + (N + 3) / 4 := by
  have hquarters : (32.25 : ℚ) * N = 129 * N / 4 := by ring
  rw [hquarters]
  apply le_antisymm
  · rw [Nat.ceil_le, div_le_iff₀ (by norm_num)]
    have hle : 129 * N ≤ (32 * N + (N + 3) / 4) * 4 := by omega
    exact_mod_cast hle
  · have hle := Nat.le_ceil (129 * (N : ℚ) / 4)
    rw [div_le_iff₀ (by norm_num)] at hle
    have hle' : 129 * N ≤ ⌈129 * (N : ℚ) / 4⌉₊ * 4 := by exact_mod_cast hle
    omega

/-- A tree with `2 * N - 1` flag bits keeps the bound up to 65535 hashes. -/
theorem size_le_iff {N bits : ℕ} (hbits : bits + 1 = 2 * N) :
    4 + (getSizeOfCompactSize N + 32 * N +
      (getSizeOfCompactSize ((bits + 7) / 8) + (bits + 7) / 8)) ≤ 10 + (32 * N + (N + 3) / 4) ↔
      N ≤ 65535 := by
  unfold getSizeOfCompactSize
  split_ifs <;> omega

/-- **The size that the header promises is kept exactly** when no match lies below a node with a
single child, and no more than 65535 hashes are stored. -/
theorem partial_tree_size_iff (C : Crypto) (vTxid : List Uint256) (vMatch : List Bool)
    (hlen : vMatch.length = vTxid.length) (hm : true ∈ vMatch) :
    ((CPartialMerkleTree.build C vTxid vMatch).vBits.length ≤
        2 * (CPartialMerkleTree.build C vTxid vMatch).vHash.length - 1 ∧
      (CPartialMerkleTree.build C vTxid vMatch).serialize.length ≤
        10 + ⌈(32.25 : ℚ) * (CPartialMerkleTree.build C vTxid vMatch).vHash.length⌉₊) ↔
      NoLoneMatch vMatch ∧ hashesNeeded vMatch ≤ 65535 := by
  obtain ⟨hhashes, hbits⟩ := counts_build C hlen hm
  have hpos : 0 < hashesNeeded vMatch := by
    rw [← hhashes]
    exact List.length_pos_of_ne_nil (traverseAndBuild_hashes_ne_nil C _ _)
  rw [CPartialMerkleTree.length_serialize, ceil_size, hhashes, ← total_loneChild_root]
  generalize (CPartialMerkleTree.build C vTxid vMatch).vBits.length = bits at hbits
  constructor
  · rintro ⟨hle, hsize⟩
    have hzero : total (loneChild vMatch) (treeHeight vMatch.length) 0 = 0 := by omega
    rw [hzero] at hbits
    exact ⟨hzero, (size_le_iff hbits).mp hsize⟩
  · rintro ⟨hzero, hfew⟩
    rw [hzero] at hbits
    exact ⟨by omega, (size_le_iff hbits).mpr hfew⟩

/-- Of three transactions the first one is matched: nothing is matched below the node over the
third, which has a single child. -/
theorem partial_tree_size_first :
    (CPartialMerkleTree.build (labelCrypto [] []) [1, 2, 3] [true, false, false]).vBits.length ≤
        2 * (CPartialMerkleTree.build (labelCrypto [] []) [1, 2, 3]
          [true, false, false]).vHash.length - 1 ∧
      (CPartialMerkleTree.build (labelCrypto [] []) [1, 2, 3]
          [true, false, false]).serialize.length ≤
        10 + ⌈(32.25 : ℚ) * (CPartialMerkleTree.build (labelCrypto [] []) [1, 2, 3]
          [true, false, false]).vHash.length⌉₊ :=
  (partial_tree_size_iff (labelCrypto [] []) [1, 2, 3] [true, false, false] rfl (by decide)).mpr
    ⟨by unfold NoLoneMatch; decide, by decide⟩

/-- With the third one matched there are four flag bits for two hashes. -/
theorem partial_tree_size_three : ¬ ∀ (C : Crypto) (vTxid : List Uint256) (vMatch : List Bool),
    vMatch.length = vTxid.length → true ∈ vMatch →
      (CPartialMerkleTree.build C vTxid vMatch).vBits.length ≤
        2 * (CPartialMerkleTree.build C vTxid vMatch).vHash.length - 1 ∧
      (CPartialMerkleTree.build C vTxid vMatch).serialize.length ≤
        10 + ⌈(32.25 : ℚ) * (CPartialMerkleTree.build C vTxid vMatch).vHash.length⌉₊ := by
  intro hall
  have hle := (hall (labelCrypto [] []) [1, 2, 3] [false, false, true] rfl (by decide)).1
  have hbits : (CPartialMerkleTree.build (labelCrypto [] []) [1, 2, 3]
      [false, false, true]).vBits.length = 4 := by decide
  have hhashes : (CPartialMerkleTree.build (labelCrypto [] []) [1, 2, 3]
      [false, false, true]).vHash.length = 2 := by decide
  omega

end Size

end MotaCoin
