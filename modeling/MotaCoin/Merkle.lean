import MotaCoin.Check
import MotaCoin.Hashes
import MotaCoin.Lib.MerkleTree

/-!
# Merkle roots of blocks

`BuildMerkleTree` goes up level by level until one hash is left. This is the hash of the root of
the tree over the transaction ids, so a block without duplicate ids is fixed by its Merkle root.

## Main definitions

* `treeHeight n`: the first height with a single node over `n` leaves
* `NoInnerNode C hash`: the hash is no inner node of a Merkle tree
* `CBlock.MerkleChecked`: the block passes the duplicate and Merkle root checks of `CheckBlock`

## Main results

* `merkleRootFrom_eq`: what `BuildMerkleTree` returns
* `merkleRoot_inj`: the root fixes a list of ids without duplicates
* `merkleRoot_binding`: so it fixes the transactions of a block that passes the checks
-/

namespace MotaCoin

open MerkleTree

/-! ## The height of the tree -/

/-- The loop `while (CalcTreeWidth(nHeight) > 1) nHeight++`; `fuel` bounds its rounds. -/
def treeHeightFrom (n : Nat) : Nat → Nat → Nat
  | 0, nHeight => nHeight
  | fuel + 1, nHeight =>
    if 1 < width n nHeight then treeHeightFrom n fuel (nHeight + 1) else nHeight

/-- The first height with a single node over `n` leaves. -/
def treeHeight (n : Nat) : Nat := treeHeightFrom n n 0

theorem treeHeightFrom_spec (n : Nat) :
    ∀ fuel nHeight, n ≤ fuel + nHeight → (∀ h < nHeight, 1 < width n h) →
      width n (treeHeightFrom n fuel nHeight) ≤ 1 ∧
        ∀ h < treeHeightFrom n fuel nHeight, 1 < width n h := by
  intro fuel
  induction fuel with
  | zero =>
    intro nHeight hn hbefore
    refine ⟨width_le_one_iff.mpr ?_, hbefore⟩
    exact (Nat.zero_add nHeight ▸ hn).trans Nat.lt_two_pow_self.le
  | succ fuel ih =>
    intro nHeight hn hbefore
    rw [treeHeightFrom]
    split
    · next hwide =>
      refine ih (nHeight + 1) (by omega) fun h hh => ?_
      rcases Nat.lt_succ_iff_lt_or_eq.mp hh with hlt | rfl
      · exact hbefore h hlt
      · exact hwide
    · next hwide => exact ⟨by omega, hbefore⟩

/-- The loop stops at the first height with a single node. -/
theorem treeHeight_spec (n : Nat) :
    width n (treeHeight n) ≤ 1 ∧ ∀ h < treeHeight n, 1 < width n h :=
  treeHeightFrom_spec n n 0 (by omega) (by simp)

theorem le_two_pow_treeHeight (n : Nat) : n ≤ 2 ^ treeHeight n :=
  width_le_one_iff.mp (treeHeight_spec n).1

/-- A bound on the height from one on the number of leaves. -/
theorem treeHeight_le {n h : Nat} (hn : n ≤ 2 ^ h) : treeHeight n ≤ h := by
  by_contra hlt
  have := (treeHeight_spec n).2 h (by omega)
  have := width_le_one_iff.mpr hn
  omega

/-! ## The root -/

section Root

variable (C : Crypto)

/-- `Hash` of two ids is an inner node; the levels of `BuildMerkleTree` are those of the tree. -/
theorem merkleLevel_eq (xs : List Uint256) : merkleLevel C xs = pairUp C.hashPair xs := by
  induction xs using merkleLevel.induct with
  | case1 => rfl
  | case2 a => rfl
  | case3 a b rest ih => rw [merkleLevel, pairUp, ih]

theorem merkleRootFrom_nodeHash :
    ∀ (fuel : Nat) {xs : List Uint256} {h : Nat}, xs ≠ [] → xs.length ≤ fuel + 1 →
      width xs.length h ≤ 1 → (∀ k < h, 1 < width xs.length k) →
      merkleRootFrom C fuel xs = nodeHash C.hashPair 0 xs h 0 := by
  intro fuel
  induction fuel with
  | zero =>
    intro xs h hne hlen _ hbefore
    match xs, hne, hlen with
    | [a], _, _ =>
      obtain rfl : h = 0 := by
        by_contra hh
        have := hbefore 0 (by omega)
        simp at this
      rfl
  | succ fuel ih =>
    intro xs h hne hlen hlast hbefore
    match xs, hne, hlen, hlast, hbefore with
    | [a], _, _, _, hbefore =>
      obtain rfl : h = 0 := by
        by_contra hh
        have := hbefore 0 (by omega)
        simp at this
      rfl
    | a :: b :: rest, _, hlen, hlast, hbefore =>
      -- the level above has the tree without the leaves
      obtain ⟨k, rfl⟩ : ∃ k, h = k + 1 := by
        refine Nat.exists_eq_succ_of_ne_zero fun hh => ?_
        subst hh
        simp at hlast
      have hlevel : (pairUp C.hashPair (a :: b :: rest)).length = width (a :: b :: rest).length 1 :=
        length_pairUp_eq_width _ _
      have hshorter : (pairUp C.hashPair (a :: b :: rest)).length ≤ fuel + 1 := by
        rw [length_pairUp]
        simp only [List.length_cons] at hlen ⊢
        omega
      rw [merkleRootFrom, merkleLevel_eq, ih (h := k) (by simp [pairUp]) hshorter
        (by rwa [hlevel, width_width])
        (fun j hj => by rw [hlevel, width_width]; exact hbefore (j + 1) (by omega))]
      · exact nodeHash_pairUp _ _ _ _ (width_pos (by simp) _)
      · simp
      · simp

/-- **What `BuildMerkleTree` returns** is the hash of the root of the tree. -/
theorem merkleRootFrom_eq {xs : List Uint256} (hne : xs ≠ []) :
    merkleRootFrom C xs.length xs = nodeHash C.hashPair 0 xs (treeHeight xs.length) 0 :=
  merkleRootFrom_nodeHash C _ hne (by omega) (treeHeight_spec _).1 (treeHeight_spec _).2

end Root

/-! ## What the root fixes -/

section Binding

variable {C : Crypto}

variable (C) in
/-- The hash is no inner node of a Merkle tree. -/
def NoInnerNode (hash : Uint256) : Prop := ∀ left right, hash ≠ C.hashPair left right

/-- **The root fixes a list of ids without duplicates.** -/
theorem merkleRoot_inj (hC : HashInjective C) {xs ys : List Uint256} (hxs : xs ≠ []) (hys : ys ≠ [])
    (hx : xs.Nodup) (hy : ys.Nodup) (hleafx : ∀ x ∈ xs, NoInnerNode C x)
    (hleafy : ∀ y ∈ ys, NoInnerNode C y)
    (h : merkleRootFrom C xs.length xs = merkleRootFrom C ys.length ys) : xs = ys := by
  rw [merkleRootFrom_eq C hxs, merkleRootFrom_eq C hys] at h
  exact eq_of_nodeHash_eq hC.hashPair hxs hys hx hy hleafx hleafy (le_two_pow_treeHeight _)
    (le_two_pow_treeHeight _) h

variable (C) in
/-- The block has transactions, no two with one id, and the Merkle root its header says: the
duplicate and Merkle root checks of `CheckBlock`. -/
structure CBlock.MerkleChecked (b : CBlock) : Prop where
  nonempty : b.vtx ≠ []
  nodup : (b.vtx.map C.hashTx).Nodup
  root : b.hashMerkleRoot = b.buildMerkleTree C

/-- **The Merkle root binds the transactions**: it fixes a list of ids without duplicates, and two
blocks with one header that pass the duplicate and Merkle root checks have the same
transactions. -/
theorem merkleRoot_binding (hC : HashInjective C) (hleaf : ∀ tx, NoInnerNode C (C.hashTx tx)) :
    (∀ xs ys : List Uint256, xs ≠ [] → ys ≠ [] → xs.Nodup → ys.Nodup →
      (∀ x ∈ xs, NoInnerNode C x) → (∀ y ∈ ys, NoInnerNode C y) →
      merkleRootFrom C xs.length xs = merkleRootFrom C ys.length ys → xs = ys) ∧
    ∀ b b' : CBlock, b.getBlockHeader = b'.getBlockHeader → b.MerkleChecked C →
      b'.MerkleChecked C → b.vtx = b'.vtx := by
  refine ⟨fun xs ys hxs hys hx hy hleafx hleafy h =>
    merkleRoot_inj hC hxs hys hx hy hleafx hleafy h, fun b b' hheader hb hb' => ?_⟩
  have hroot : b.buildMerkleTree C = b'.buildMerkleTree C := by
    rw [← hb.root, ← hb'.root]
    exact congrArg CBlockHeader.hashMerkleRoot hheader
  -- the ids are transaction hashes, so no inner nodes
  have hids : ∀ c : CBlock, ∀ x ∈ c.vtx.map C.hashTx, NoInnerNode C x := by
    intro c x hx
    obtain ⟨tx, -, rfl⟩ := List.mem_map.mp hx
    exact hleaf tx
  have hlen : ∀ c : CBlock, c.buildMerkleTree C =
      merkleRootFrom C (c.vtx.map C.hashTx).length (c.vtx.map C.hashTx) := by
    intro c
    rw [List.length_map, CBlock.buildMerkleTree]
  rw [hlen, hlen] at hroot
  have heq := merkleRoot_inj hC (by simpa using hb.nonempty) (by simpa using hb'.nonempty) hb.nodup
    hb'.nodup (hids b) (hids b') hroot
  exact (List.map_injective_iff.mpr hC.hashTx) heq

/-- Injective hashes that number the given transactions and headers; ids are even and inner nodes
odd. -/
noncomputable def leafCrypto (txs : List CTransaction) (headers : List CBlockHeader) : Crypto :=
  { labelCrypto txs headers with
    hashTx := fun tx => 2 * Labelling.label txs tx
    hashPair := fun left right => 2 * Nat.pair left right + 1 }

theorem leafCrypto_hashInjective (txs : List CTransaction) (headers : List CBlockHeader) :
    HashInjective (leafCrypto txs headers) where
  hashTx tx tx' h := Labelling.label_injective txs (Nat.eq_of_mul_eq_mul_left (by decide) h)
  hashBlock := Labelling.label_injective headers
  hashPair a b c d h := by
    have h' : 2 * Nat.pair a b + 1 = 2 * Nat.pair c d + 1 := h
    exact Nat.pair_eq_pair.mp (by omega)

theorem leafCrypto_noInnerNode (txs : List CTransaction) (headers : List CBlockHeader)
    (tx : CTransaction) : NoInnerNode (leafCrypto txs headers) ((leafCrypto txs headers).hashTx tx) := by
  intro left right h
  have h' : 2 * Labelling.label txs tx = 2 * Nat.pair left right + 1 := h
  omega

/-- Two different lists of two ids have different roots. -/
theorem merkleRoot_binding_two :
    merkleRootFrom (leafCrypto [] []) 2 [2, 4] ≠ merkleRootFrom (leafCrypto [] []) 2 [4, 2] := by
  intro h
  have heven : ∀ x : Nat, x ∈ [2, 4] → NoInnerNode (leafCrypto [] []) x := by
    intro x hx left right h'
    have hodd : x = 2 * Nat.pair left right + 1 := h'
    simp only [List.mem_cons, List.not_mem_nil, or_false] at hx
    omega
  have heven' : ∀ x ∈ [4, 2], NoInnerNode (leafCrypto [] []) x := fun x hx =>
    heven x (by simpa [or_comm] using hx)
  have := (merkleRoot_binding (leafCrypto_hashInjective [] []) (leafCrypto_noInnerNode [] [])).1
    [2, 4] [4, 2] (by simp) (by simp) (by decide) (by decide) heven heven' h
  cases this

/-- A coinbase. -/
def signedCoinbase : CTransaction := ⟨1, 1000, [⟨COutPoint.null, [0, 0], 4294967295⟩], [⟨0, []⟩], 0⟩

/-- A block with one transaction and the given signature, which neither the header nor the Merkle
root covers. -/
def signedBlock (vchBlockSig : List UInt8) : CBlock :=
  ⟨1, 0, 2, 1000, 0x1e0fffff, 0, [signedCoinbase], vchBlockSig⟩

/-- Two blocks with one header that pass the checks may have different signatures. -/
theorem not_forall_block_eq :
    ¬ ∀ C : Crypto, HashInjective C → (∀ tx, NoInnerNode C (C.hashTx tx)) → ∀ b b' : CBlock,
      b.getBlockHeader = b'.getBlockHeader → b.MerkleChecked C → b'.MerkleChecked C → b = b' := by
  intro h
  have hchecked : ∀ vchBlockSig,
      (signedBlock vchBlockSig).MerkleChecked (leafCrypto [signedCoinbase] []) := by
    intro vchBlockSig
    refine ⟨by simp [signedBlock], by simp [signedBlock], ?_⟩
    have hlabel : Labelling.label [signedCoinbase] signedCoinbase = 1 := by
      simp [Labelling.label]
    change 2 = 2 * Labelling.label [signedCoinbase] signedCoinbase
    rw [hlabel]
  have heq := h (leafCrypto [signedCoinbase] []) (leafCrypto_hashInjective _ _)
    (leafCrypto_noInnerNode _ _) (signedBlock []) (signedBlock [1]) rfl (hchecked []) (hchecked [1])
  cases congrArg CBlock.vchBlockSig heq

end Binding

end MotaCoin
