import MotaCoin.Hashes
import MotaCoin.Run

/-!
# Nodes that store given blocks

The node that has received a list of blocks and connected none of them but genesis. When the blocks
form a tree it is a genesis state, so that every tree of blocks is the start of runs.

## Main definitions

* `StoredBlock`, `storedNode`: a node that stores given blocks
* `Storable`: the blocks form a tree

## Main results

* `Storable.genesisState`: a node that stores a tree is a genesis state
-/

namespace MotaCoin

/-! ## Stored blocks -/

/-- A block with the height and the trust of its entry. -/
structure StoredBlock where
  block : CBlock
  nHeight : Nat
  nChainTrust : Nat

variable (C : Crypto)

/-- The hash of a stored block. -/
def StoredBlock.hash (x : StoredBlock) : Uint256 := x.block.getHash C

/-- The entry of the `i`-th stored block. -/
def storedEntry (i : Nat) (x : StoredBlock) : CBlockIndex where
  hash := x.hash C
  pprev := if x.nHeight = 0 then none else some x.block.hashPrevBlock
  pnext := none
  nFile := 1
  nBlockPos := MAX_BLOCK_SIZE * i + 8
  nChainTrust := x.nChainTrust
  nHeight := x.nHeight
  nMint := 0
  nMoneySupply := 0
  nFlags := 0
  nStakeModifier := 0
  nStakeModifierChecksum := 0
  prevoutStake := COutPoint.null
  nStakeTime := 0
  hashProofOfStake := 0
  nVersion := x.block.nVersion
  hashMerkleRoot := x.block.hashMerkleRoot
  nTime := x.block.nTime
  nBits := x.block.nBits
  nNonce := x.block.nNonce

/-- The node that stores `l`, with its first block as genesis and tip. -/
def storedNode (l : List StoredBlock) : NodeState where
  mapBlockIndex h :=
    (l.findIdx? fun x => x.hash C == h).bind fun i => (l[i]?).map (storedEntry C i)
  setStakeSeen := []
  pindexGenesisBlock := l.head?.map (StoredBlock.hash C)
  pindexBest := l.head?.map (StoredBlock.hash C)
  hashBestChain := (l.head?.map (StoredBlock.hash C)).getD 0
  nBestHeight := 0
  nBestChainTrust := (l.head?.map StoredBlock.nChainTrust).getD 0
  nBestInvalidTrust := 0
  pblockindexFBBHLast := none
  hashSyncCheckpoint := (l.head?.map (StoredBlock.hash C)).getD 0
  hashPendingCheckpoint := 0
  mempool := ⟨∅, ∅⟩
  txdb := ⟨fun
    | .hashBestChain => l.head?.map (StoredBlock.hash C)
    | _ => none, none⟩
  blkFiles nFile nBlockPos :=
    if nFile = 1 ∧ nBlockPos % MAX_BLOCK_SIZE = 8 then
      (l[nBlockPos / MAX_BLOCK_SIZE]?).map StoredBlock.block
    else none
  walletSyncs := []

/-- **The blocks form a tree** under the first one, with distinct transaction ids on every path. -/
structure Storable (g : StoredBlock) (l : List StoredBlock) : Prop where
  nodup : ((g :: l).map (StoredBlock.hash C)).Nodup
  hash_ne_zero : ∀ x ∈ g :: l, x.hash C ≠ 0
  genesis : g.nHeight = 0 ∧ g.block.hashPrevBlock = 0
  parent : ∀ x ∈ l, ∃ y ∈ g :: l, y.hash C = x.block.hashPrevBlock ∧ x.nHeight = y.nHeight + 1
  distinct : ∀ x ∈ g :: l,
    (((storedNode C (g :: l)).pathTxs (x.hash C)).map fun p => C.hashTx p.1).Nodup

namespace Storable

variable {C} {g : StoredBlock} {l : List StoredBlock} (hl : Storable C g l)
include hl

omit hl in
theorem exists_of_mapBlockIndex {h : Uint256} {e : CBlockIndex}
    (he : (storedNode C l).mapBlockIndex h = some e) :
    ∃ i x, l[i]? = some x ∧ x.hash C = h ∧ storedEntry C i x = e := by
  obtain ⟨i, hi, hmap⟩ := Option.bind_eq_some_iff.mp he
  obtain ⟨x, hx, hxe⟩ := Option.map_eq_some_iff.mp hmap
  obtain ⟨hlt, hhash, -⟩ := List.findIdx?_eq_some_iff_getElem.mp hi
  have hxi : l[i] = x := (List.getElem?_eq_some_iff.mp hx).2
  exact ⟨i, x, hx, by simpa [hxi] using hhash, hxe⟩

theorem mapBlockIndex_of_mem {x : StoredBlock} (hx : x ∈ g :: l) :
    ∃ e, (storedNode C (g :: l)).mapBlockIndex (x.hash C) = some e ∧ e.nHeight = x.nHeight := by
  have hsome : ((g :: l).findIdx? fun y => y.hash C == x.hash C).isSome := by
    rw [List.findIdx?_isSome]
    exact List.any_eq_true.mpr ⟨x, hx, by simp⟩
  obtain ⟨i, hi⟩ := Option.isSome_iff_exists.mp hsome
  obtain ⟨hlt, hhash, -⟩ := List.findIdx?_eq_some_iff_getElem.mp hi
  have hxi : (g :: l)[i] = x :=
    List.inj_on_of_nodup_map hl.nodup (List.getElem_mem hlt) hx (by simpa using hhash)
  refine ⟨storedEntry C i x, ?_, rfl⟩
  unfold storedNode
  simp only [hi, Option.bind_some, List.getElem?_eq_getElem hlt, hxi, Option.map_some]

omit hl in
theorem blkFiles_storedEntry {i : Nat} {x : StoredBlock} (hx : l[i]? = some x) :
    (storedNode C l).blkFiles (storedEntry C i x).nFile (storedEntry C i x).nBlockPos =
      some x.block := by
  have hmod : (MAX_BLOCK_SIZE * i + 8) % MAX_BLOCK_SIZE = 8 := by
    rw [Nat.mul_add_mod]
    rfl
  have hdiv : (MAX_BLOCK_SIZE * i + 8) / MAX_BLOCK_SIZE = i := by
    rw [Nat.mul_add_div (by decide)]
    rfl
  simp only [storedNode, storedEntry, hmod, hdiv, hx, and_self, if_true, Option.map_some]

theorem exists_parent {x : StoredBlock} (hx : x ∈ g :: l) (hh : x.nHeight ≠ 0) :
    ∃ y ∈ g :: l, y.hash C = x.block.hashPrevBlock ∧ x.nHeight = y.nHeight + 1 := by
  rcases List.mem_cons.mp hx with rfl | hx
  · exact absurd hl.genesis.1 hh
  · exact hl.parent x hx

/-- The stored blocks are a block tree. -/
theorem treeOK : TreeOK C (storedNode C (g :: l)) where
  hash_eq := by
    intro h e he
    obtain ⟨i, x, -, hhash, rfl⟩ := exists_of_mapBlockIndex he
    exact hhash
  zero := by
    refine Option.eq_none_iff_forall_ne_some.mpr fun e he => ?_
    obtain ⟨i, x, hx, hhash, -⟩ := exists_of_mapBlockIndex he
    exact hl.hash_ne_zero x (List.mem_of_getElem? hx) hhash
  parent := by
    intro h e p he hp
    obtain ⟨i, x, hx, -, rfl⟩ := exists_of_mapBlockIndex he
    simp only [storedEntry] at hp ⊢
    split at hp
    · cases hp
    · next hh =>
      obtain ⟨y, hy, hyp, hheight⟩ := hl.exists_parent (List.mem_of_getElem? hx) hh
      obtain rfl := Option.some.inj hp
      obtain ⟨e', he', hey⟩ := hl.mapBlockIndex_of_mem hy
      exact ⟨e', hyp ▸ he', by omega⟩
  root := by
    intro h e he hp
    obtain ⟨i, x, hx, hhash, rfl⟩ := exists_of_mapBlockIndex he
    simp only [storedEntry] at hp
    split at hp
    · next hh =>
      rcases List.mem_cons.mp (List.mem_of_getElem? hx) with rfl | hmem
      · exact congrArg some hhash
      · obtain ⟨y, -, -, hheight⟩ := hl.parent x hmem
        omega
    · cases hp
  stored := by
    intro h e he
    obtain ⟨i, x, hx, hhash, rfl⟩ := exists_of_mapBlockIndex he
    refine ⟨x.block, blkFiles_storedEntry hx, hhash, ?_⟩
    simp only [storedEntry]
    split
    · next hh =>
      rcases List.mem_cons.mp (List.mem_of_getElem? hx) with rfl | hmem
      · exact hl.genesis.2
      · obtain ⟨y, -, -, hheight⟩ := hl.parent x hmem
        omega
    · rfl
  position := by
    intro h e he
    obtain ⟨i, x, -, -, rfl⟩ := exists_of_mapBlockIndex he
    simp [storedEntry]
  distinct := by
    intro h
    cases he : (storedNode C (g :: l)).mapBlockIndex h with
    | none =>
      have : (storedNode C (g :: l)).path h = [] := by
        simp [NodeState.path, NodeState.heightOf, he, Ancestry.pathFrom]
      simp [NodeState.pathTxs, this]
    | some e =>
      obtain ⟨i, x, hx, rfl, -⟩ := exists_of_mapBlockIndex he
      exact hl.distinct x (List.mem_of_getElem? hx)

/-- **A node that stores a tree of blocks is a genesis state.** -/
theorem genesisState : GenesisState C (storedNode C (g :: l)) (g.hash C) := by
  have hentry : (storedNode C (g :: l)).mapBlockIndex (g.hash C) = some (storedEntry C 0 g) := by
    simp [storedNode, List.findIdx?_cons]
  refine ⟨hl.treeOK, ?_, ?_, ?_, rfl, rfl, rfl, ?_, ?_, rfl, rfl, fun _ => rfl⟩
  · simp [NodeState.parentOf, hentry, storedEntry, hl.genesis.1]
  · simp [hentry]
  · simp [NodeState.supplyOf, hentry, storedEntry]
  · rw [NodeState.heightOf, hentry]
    simp [storedNode, storedEntry, hl.genesis.1]
  · rw [NodeState.trustOf, hentry]
    rfl

end Storable

end MotaCoin
