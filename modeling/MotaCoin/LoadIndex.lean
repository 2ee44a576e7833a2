import MotaCoin.Accept
import Mathlib.Data.List.Dedup
import Mathlib.Data.List.Sort

/-!
# Loading the block index

`CTxDB::LoadBlockIndex`, which a starting node rebuilds the block tree and the tip with, from the
committed records. Modelled up to the verification of the last blocks: the scan over the records,
the chain trust and checksums by height, and the tip; and the part of `LoadBlockIndex` that starts
an empty tree with the genesis block. The order of the scan is that of the database
iterator, and is given as the list of keys; entries of one height are scored in any order.

## Main definitions

* `CDiskBlockIndex.getBlockHash`, `CDiskBlockIndex.read`: what a record is read back as
* `NodeState.insertBlockIndex`, `NodeState.loadRecord`: one round of the scan
* `NodeState.loadScores`: chain trust and stake modifier checksums
* `NodeState.restart`, `NodeState.loadBlockIndex`
* `NodeState.genesisBlock`, `NodeState.loadGenesis`
-/

namespace MotaCoin

variable (C : Crypto)

/-! ## Records -/

/-- `CDiskBlockIndex::GetBlockHash`: the hash of the header in the record. The hash kept in the
record for the fast index was computed in this way when it was written. -/
def CDiskBlockIndex.getBlockHash (d : CDiskBlockIndex) : Uint256 :=
  C.hashBlock ⟨d.index.nVersion, d.hashPrev, d.index.hashMerkleRoot, d.index.nTime, d.index.nBits,
    d.index.nNonce⟩

/-- A record read back: the pointers, the chain trust and the checksum are not written, and the
stake is written for a proof-of-stake block only. -/
def CDiskBlockIndex.read (d : CDiskBlockIndex) : CBlockIndex :=
  { d.index with
    hash := 0
    pprev := none
    pnext := none
    nChainTrust := 0
    nStakeModifierChecksum := 0
    prevoutStake := if d.index.isProofOfStake then d.index.prevoutStake else COutPoint.null
    nStakeTime := if d.index.isProofOfStake then d.index.nStakeTime else 0
    hashProofOfStake := if d.index.isProofOfStake then d.index.hashProofOfStake else 0 }

/-- `CBlockIndex()`, filed under a hash. -/
def CBlockIndex.blank (hash : Uint256) : CBlockIndex where
  hash := hash
  pprev := none
  pnext := none
  nFile := 0
  nBlockPos := 0
  nChainTrust := 0
  nHeight := 0
  nMint := 0
  nMoneySupply := 0
  nFlags := 0
  nStakeModifier := 0
  nStakeModifierChecksum := 0
  prevoutStake := COutPoint.null
  nStakeTime := 0
  hashProofOfStake := 0
  nVersion := 0
  hashMerkleRoot := 0
  nTime := 0
  nBits := 0
  nNonce := 0

namespace NodeState

/-! ## The scan -/

/-- `InsertBlockIndex`: an entry is made where there is none; the zero hash has none. -/
def insertBlockIndex (s : NodeState) (hash : Uint256) : NodeState :=
  if hash = 0 ∨ (s.mapBlockIndex hash).isSome then s
  else { s with
    mapBlockIndex := Function.update s.mapBlockIndex hash (some (CBlockIndex.blank hash)) }

/-- The pointer `InsertBlockIndex` returns. -/
def pointerTo (hash : Uint256) : Option Uint256 := if hash = 0 then none else some hash

/-- One round of the scan. -/
def loadRecord (s : NodeState) (d : CDiskBlockIndex) : NodeState :=
  let blockHash := d.getBlockHash C
  let s := ((s.insertBlockIndex blockHash).insertBlockIndex d.hashPrev).insertBlockIndex d.hashNext
  let s := s.modifyIndex blockHash fun pindexNew =>
    { d.read with
      hash := pindexNew.hash
      pprev := pointerTo d.hashPrev
      pnext := pointerTo d.hashNext
      nChainTrust := pindexNew.nChainTrust
      nStakeModifierChecksum := pindexNew.nStakeModifierChecksum }
  { s with
    pindexGenesisBlock := if s.pindexGenesisBlock = none ∧ blockHash = hashGenesisBlock then
        some blockHash
      else s.pindexGenesisBlock
    setStakeSeen := if d.read.isProofOfStake then
        (d.read.prevoutStake, d.read.nStakeTime) :: s.setStakeSeen
      else s.setStakeSeen }

/-- The keys `mapBlockIndex` has after the scan. -/
def loadedKeys (records : List CDiskBlockIndex) : List Uint256 :=
  ((records.flatMap fun d => [d.getBlockHash C, d.hashPrev, d.hashNext]).filter
    fun hash => decide (hash ≠ 0)).dedup

/-! ## Chain trust and checksums -/

/-- The loop that calculates `nChainTrust` and the stake modifier checksum of each entry. A checksum
that fails its checkpoint is an error; an entry without a parent other than that of the genesis
block fails an assertion. -/
def loadScores : List Uint256 → NodeState → Bool × NodeState
  | [], s => (true, s)
  | hash :: vSortedByHeight, s =>
    match s.mapBlockIndex hash with
    | none => loadScores vSortedByHeight s
    | some pindex =>
      let pprev := pindex.pprev.bind s.mapBlockIndex
      let nStakeModifierChecksum := C.hashChecksum (pprev.map CBlockIndex.nStakeModifierChecksum)
        pindex.nFlags pindex.hashProofOfStake pindex.nStakeModifier
      let s' := s.modifyIndex hash fun pindex => { pindex with
        nChainTrust := (pprev.map CBlockIndex.nChainTrust).getD 0 + getBlockTrust pindex.nBits
        nStakeModifierChecksum := nStakeModifierChecksum }
      if pindex.pprev = none ∧ hash ≠ hashGenesisBlock then (false, s)
      else if checkStakeModifierCheckpoints pindex.nHeight nStakeModifierChecksum then
        loadScores vSortedByHeight s'
      else (false, s')

/-! ## LoadBlockIndex -/

/-- A node that was stopped and is started again: the committed records and the block files are
there, the globals have their initial values. -/
def restart (s : NodeState) : NodeState where
  mapBlockIndex _ := none
  setStakeSeen := []
  pindexGenesisBlock := none
  pindexBest := none
  hashBestChain := 0
  nBestHeight := -1
  nBestChainTrust := 0
  nBestInvalidTrust := 0
  pblockindexFBBHLast := none
  hashSyncCheckpoint := 0
  hashPendingCheckpoint := 0
  mempool := ⟨∅, ∅⟩
  txdb := ⟨s.txdb.content, none⟩
  blkFiles := s.blkFiles
  walletSyncs := []

/-- The tip, from the committed records. -/
def loadBest (s : NodeState) : Bool × NodeState :=
  match s.txdb.read .hashBestChain with
  | none => (s.pindexGenesisBlock.isNone, s)
  | some hashBestChain =>
    match s.mapBlockIndex hashBestChain with
    | none => (false, { s with hashBestChain := hashBestChain })
    | some pindexBest =>
      let s := { s with
        hashBestChain := hashBestChain
        pindexBest := some hashBestChain
        nBestHeight := pindexBest.nHeight
        nBestChainTrust := pindexBest.nChainTrust }
      match s.txdb.read .hashSyncCheckpoint with
      | none => (false, s)
      | some hashSyncCheckpoint => (true, { s with
          hashSyncCheckpoint := hashSyncCheckpoint
          nBestInvalidTrust := (s.txdb.read .bnBestInvalidTrust).getD 0 })

/-- **`CTxDB::LoadBlockIndex`**, over the keys of the records in the order of the iterator. -/
def loadBlockIndex (s : NodeState) (keys : List Uint256) : Bool × NodeState :=
  let records := keys.filterMap fun hash => s.txdb.read (.blockindex hash)
  let s₁ := records.foldl (loadRecord C) s
  let vSortedByHeight := (loadedKeys C records).insertionSort
    fun a b => s₁.heightOf a ≤ s₁.heightOf b
  let r := s₁.loadScores C vSortedByHeight
  if r.1 then r.2.loadBest else r

/-! ## The genesis block -/

/-- The coinbase of the genesis block, with its headline. -/
def genesisCoinbase : CTransaction where
  nVersion := 1
  nTime := 1521404888
  vin := [⟨COutPoint.null,
    [0, 1, 42, 46, 80, 79, 84, 85, 83, 32, 84, 119, 101, 101, 116, 115, 58, 39, 65, 110, 100, 32,
    121, 101, 116, 44, 32, 116, 104, 101, 114, 101, 32, 105, 115, 32, 78, 79, 32, 67, 79, 76, 76,
    85, 83, 73, 79, 78, 33, 39], 4294967295⟩]
  vout := [⟨0, []⟩]
  nLockTime := 0

/-- The genesis block. -/
def genesisBlock : CBlock where
  nVersion := 1
  hashPrevBlock := 0
  hashMerkleRoot := 0xb3d8b0c93a5a36fc81b2cdc8a5ca2adb781f4d22530cd4671cf2e2c8181754d6
  nTime := 1521404888
  nBits := getCompact bnProofOfWorkLimit
  nNonce := 145590
  vtx := [genesisCoinbase]
  vchBlockSig := []

/-- **`LoadBlockIndex` with an empty tree**: the genesis block is written and indexed, and is the
first synchronized checkpoint. Its assertions stop the node. -/
def loadGenesis (env : Env) (s : NodeState) : Bool × NodeState :=
  if genesisBlock.buildMerkleTree C ≠ genesisBlock.hashMerkleRoot ∨
      genesisBlock.getHash C ≠ hashGenesisBlock ∨
      genesisBlock.checkBlock C env.adjustedTime true true true = false then (false, s)
  else
    match env.writeToDisk with
    | none => (false, s)
    | some (nFile, nBlockPos) =>
      let r := (s.writeBlock genesisBlock nFile nBlockPos).addToBlockIndex C env genesisBlock nFile
        nBlockPos 0
      if r.1 then
        (!env.indexCommitFails, { r.2.writeSyncCheckpoint env hashGenesisBlock with
          hashPendingCheckpoint := r.2.hashPendingCheckpoint })
      else (false, r.2)

end NodeState

end MotaCoin
