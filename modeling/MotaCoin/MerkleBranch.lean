import MotaCoin.Lib.MerklePath
import MotaCoin.Merkle
import MotaCoin.Wallet

/-!
# Merkle branches

`BuildMerkleTree` lays the levels of the tree one after the other in `vMerkleTree`, and
`GetMerkleBranch` finds the siblings of a transaction there, counting the offsets of the levels
again. Both are compared with the levels of the tree.

## Main definitions

* `CBlock.vMerkleTree`: what `BuildMerkleTree` leaves in the member of that name
* `CBlock.branchOf`: what `GetMerkleBranch` reads there

## Main results

* `CBlock.vMerkleTree_eq`: the member holds the levels of the tree
* `CBlock.branchOf_eq`: the branch is the path of the transaction
* `merkle_branch_correct`: checking a branch gives the root
-/

namespace MotaCoin

open MerkleTree

/-! ## The flat tree -/

section Flat

variable (C : Crypto)

/-- The inner loop of `BuildMerkleTree` from `i` on: the level above that at offset `j`. -/
def pushLevel (j nSize i : ℕ) (tree : List Uint256) : List Uint256 :=
  if i < nSize then
    let i2 := min (i + 1) (nSize - 1)
    pushLevel j nSize (i + 2) (tree ++ [C.hashPair (tree.getD (j + i) 0) (tree.getD (j + i2) 0)])
  else tree
termination_by nSize - i

/-- The outer loop of `BuildMerkleTree`. -/
def pushLevels (j nSize : ℕ) (tree : List Uint256) : List Uint256 :=
  if nSize > 1 then pushLevels (j + nSize) ((nSize + 1) / 2) (pushLevel C j nSize 0 tree) else tree
termination_by nSize

/-- `vMerkleTree` after `BuildMerkleTree`. -/
def CBlock.vMerkleTree (b : CBlock) : List Uint256 :=
  pushLevels C 0 b.vtx.length (b.vtx.map C.hashTx)

/-- What `BuildMerkleTree` returns. -/
def CBlock.merkleTreeRoot (b : CBlock) : Uint256 := ((b.vMerkleTree C).getLast?).getD 0

/-- The loop of `GetMerkleBranch`. -/
def readBranch (tree : List Uint256) (j nSize nIndex : ℕ) : List Uint256 :=
  if nSize > 1 then
    let i := min (nIndex ^^^ 1) (nSize - 1)
    tree.getD (j + i) 0 :: readBranch tree (j + nSize) ((nSize + 1) / 2) (nIndex >>> 1)
  else []
termination_by nSize

/-- `GetMerkleBranch`, with what `vMerkleTree` holds before the call: it is built when empty. -/
def CBlock.branchOf (b : CBlock) (vMerkleTree : List Uint256) (nIndex : ℕ) : List Uint256 :=
  readBranch (if vMerkleTree.isEmpty then b.vMerkleTree C else vMerkleTree) 0 b.vtx.length nIndex

end Flat

/-! ## The levels in the flat tree -/

section Levels

variable (C : Crypto) {done level rest tree : List Uint256} {i : ℕ}

theorem length_eq_add (hi : i ≤ level.length) (h : level.drop i = rest) :
    level.length = i + rest.length := by
  rw [← h, List.length_drop]
  omega

/-- What is left of a level is found behind the levels below. -/
theorem getD_of_prefix (h : done ++ level <+: tree) (hrest : level.drop i = rest) {k : ℕ}
    (hk : k < rest.length) : tree.getD (done.length + (i + k)) 0 = rest.getD k 0 := by
  subst hrest
  obtain ⟨more, rfl⟩ := h
  rw [List.length_drop] at hk
  rw [List.append_assoc, List.getD_append_right _ _ _ _ (Nat.le_add_right _ _),
    Nat.add_sub_cancel_left, List.getD_append _ _ _ _ (by omega),
    List.getD_eq_getElem _ _ (by omega),
    List.getD_eq_getElem _ _ (by rw [List.length_drop]; omega), List.getElem_drop]

theorem pushLevel_of_lt {j nSize : ℕ} (h : i < nSize) :
    pushLevel C j nSize i tree = pushLevel C j nSize (i + 2) (tree ++
      [C.hashPair (tree.getD (j + i) 0) (tree.getD (j + min (i + 1) (nSize - 1)) 0)]) := by
  rw [pushLevel, if_pos h]

theorem pushLevel_of_le {j nSize : ℕ} (h : nSize ≤ i) : pushLevel C j nSize i tree = tree := by
  rw [pushLevel, if_neg (by omega)]

/-- The inner loop appends the level above what is left of its level. -/
theorem pushLevel_eq (h : done ++ level <+: tree) (hi : i ≤ level.length)
    (hrest : level.drop i = rest) :
    pushLevel C done.length level.length i tree = tree ++ pairUp C.hashPair rest := by
  induction rest using pairUp.induct generalizing i tree with
  | case1 =>
    have hlen : level.length = i := length_eq_add hi hrest
    rw [pushLevel_of_le C hlen.le, pairUp, List.append_nil]
  | case2 a =>
    -- an odd last one is hashed with itself
    have hlen : level.length = i + 1 := length_eq_add hi hrest
    have ha : tree.getD (done.length + i) 0 = a := getD_of_prefix h hrest (k := 0) (by simp)
    rw [pushLevel_of_lt C (by omega), pushLevel_of_le C (by omega),
      show min (i + 1) (level.length - 1) = i by omega, ha]
    rfl
  | case3 a b rest ih =>
    have hlen := length_eq_add hi hrest
    rw [List.length_cons, List.length_cons] at hlen
    have ha : tree.getD (done.length + i) 0 = a := getD_of_prefix h hrest (k := 0) (by simp)
    have hb : tree.getD (done.length + (i + 1)) 0 = b :=
      getD_of_prefix h hrest (k := 1) (by simp)
    have hdrop : level.drop (i + 2) = rest := by
      rw [← List.drop_drop, hrest]
      rfl
    rw [pushLevel_of_lt C (by omega), show min (i + 1) (level.length - 1) = i + 1 by omega, ha, hb,
      ih (h.trans (List.prefix_append _ _)) (by omega) hdrop, List.append_assoc]
    rfl

/-- The outer loop appends the levels above. -/
theorem pushLevels_eq (done level : List Uint256) :
    pushLevels C done.length level.length (done ++ level) = done ++ levels C.hashPair level := by
  induction hn : level.length using Nat.strong_induction_on generalizing done level with
  | _ n ih =>
    subst hn
    rw [pushLevels]
    by_cases h : 1 < level.length
    · have habove := ih _ (length_pairUp_lt C.hashPair h) (done ++ level)
        (pairUp C.hashPair level) rfl
      rw [List.length_append, length_pairUp] at habove
      rw [if_pos h, pushLevel_eq C List.prefix_rfl (Nat.zero_le _) List.drop_zero, habove,
        levels_of_lt _ h, List.append_assoc]
    · rw [if_neg h, levels_of_not_lt _ h]

/-- **The flat tree holds the levels.** -/
theorem CBlock.vMerkleTree_eq (b : CBlock) :
    b.vMerkleTree C = levels C.hashPair (b.vtx.map C.hashTx) := by
  have := pushLevels_eq C [] (b.vtx.map C.hashTx)
  rwa [List.length_nil, List.length_map, List.nil_append] at this

/-- The loop reads the siblings off the levels. -/
theorem readBranch_eq (done level : List Uint256) (nIndex : ℕ) :
    readBranch (done ++ levels C.hashPair level) done.length level.length nIndex =
      path C.hashPair 0 level nIndex := by
  induction hn : level.length using Nat.strong_induction_on generalizing done level nIndex with
  | _ n ih =>
    subst hn
    rw [readBranch]
    by_cases h : 1 < level.length
    · have habove := ih _ (length_pairUp_lt C.hashPair h) (done ++ level)
        (pairUp C.hashPair level) (nIndex / 2) rfl
      rw [List.length_append, length_pairUp, List.append_assoc, ← levels_of_lt _ h] at habove
      have hget := getD_of_prefix
        ((List.prefix_append_right_inj done).mpr (prefix_levels C.hashPair level))
        List.drop_zero (k := min (nIndex ^^^ 1) (level.length - 1)) (by omega)
      rw [Nat.zero_add] at hget
      rw [if_pos h, path_of_lt _ _ h]
      dsimp only
      rw [hget, Nat.shiftRight_one, habove]
    · rw [if_neg h, path_of_not_lt _ _ h]

/-- **The branch is the path of the transaction**, whether the tree was built before or not. -/
theorem CBlock.branchOf_eq (b : CBlock) {vMerkleTree : List Uint256}
    (h : vMerkleTree = [] ∨ vMerkleTree = b.vMerkleTree C) (nIndex : ℕ) :
    b.branchOf C vMerkleTree nIndex = path C.hashPair 0 (b.vtx.map C.hashTx) nIndex := by
  have hread := readBranch_eq C [] (b.vtx.map C.hashTx) nIndex
  rw [List.length_nil, List.length_map, List.nil_append, ← CBlock.vMerkleTree_eq] at hread
  unfold CBlock.branchOf
  split
  · exact hread
  next hne =>
    rcases h with rfl | rfl
    · exact absurd rfl hne
    · exact hread

/-- Checking a branch is climbing it. -/
theorem checkMerkleBranch_eq (hash : Uint256) (branch : List Uint256) (nIndex : ℕ) :
    checkMerkleBranch C hash branch nIndex = climb C.hashPair nIndex hash branch := by
  rw [checkMerkleBranch, if_neg (by omega)]
  induction branch generalizing hash nIndex with
  | nil => rfl
  | cons otherside branch ih =>
    have hodd : ((nIndex : Int) % 2 = 1) ↔ nIndex % 2 = 1 := by omega
    rw [List.foldl_cons, climb, ← ih]
    simp only [hodd]
    rfl

end Levels

/-! ## Checking a branch -/

section Main

/-- **Checking the branch of a transaction gives the root**, for every transaction of a block,
whether its tree was built before or not. -/
theorem merkle_branch_correct (C : Crypto) (b : CBlock) (vMerkleTree : List Uint256)
    (h : vMerkleTree = [] ∨ vMerkleTree = b.vMerkleTree C) (i : ℕ) (hi : i < b.vtx.length) :
    checkMerkleBranch C (C.hashTx b.vtx[i]) (b.branchOf C vMerkleTree i) i =
      b.merkleTreeRoot C := by
  have hlen : i < (b.vtx.map C.hashTx).length := by rwa [List.length_map]
  have hleaf : (b.vtx.map C.hashTx).getD i 0 = C.hashTx b.vtx[i] := by
    rw [List.getD_eq_getElem _ _ hlen, List.getElem_map]
  have hroot := climb_path C.hashPair 0 hlen
  rw [hleaf] at hroot
  rw [checkMerkleBranch_eq, b.branchOf_eq C h, CBlock.merkleTreeRoot, CBlock.vMerkleTree_eq, hroot,
    Option.getD_some]

/-- A block with three transactions, the last of which is its own sibling. -/
def threeTxBlock : CBlock :=
  { signedBlock [] with
    vtx := [signedCoinbase, { signedCoinbase with nTime := 1001 },
      { signedCoinbase with nTime := 1002 }] }

/-- The last of three transactions. -/
theorem merkle_branch_correct_last :
    checkMerkleBranch (labelCrypto threeTxBlock.vtx [])
      ((labelCrypto threeTxBlock.vtx []).hashTx threeTxBlock.vtx[2])
      (threeTxBlock.branchOf (labelCrypto threeTxBlock.vtx []) [] 2) 2 =
      threeTxBlock.merkleTreeRoot (labelCrypto threeTxBlock.vtx []) :=
  merkle_branch_correct (labelCrypto threeTxBlock.vtx []) threeTxBlock [] (Or.inl rfl) 2
    (by decide)

end Main

end MotaCoin
