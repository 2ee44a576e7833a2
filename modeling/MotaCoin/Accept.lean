import MotaCoin.Chain
import MotaCoin.Kernel

/-!
# Accepting a block

`CBlock::AcceptBlock`: the rules a block has to pass before it is written to the block files and
added to the block tree, and `AddToBlockIndex`, which then calls `SetBestChain` when the block has
more trust than the tip. The aggregate rule against the minting attack sums the inputs of the block
as the active transaction index shows them.

## Main definitions

* `aggregateFrom`, `NodeState.checkAggregate`: the aggregate input and output rule
* `NodeState.checkHeader`, `checkHardened`, `NodeState.checkSync`, `checkCoinbaseHeight`
* `NodeState.acceptChecks`: the rules of `AcceptBlock`
* `NodeState.newBlockIndex`, `NodeState.addToBlockIndex`
* `NodeState.acceptBlock`
-/

namespace MotaCoin

variable (C : Crypto)

/-! ## The aggregate rule -/

/-- How the loop of the aggregate rule ends: an error, an exception of `GetValueMapIn` or
`GetValueOut`, or the sums. -/
inductive Aggregate where
  | rejected
  | exception
  | totals (tx_inputs_values tx_outputs_values : Int)
deriving DecidableEq

/-- The loop of the aggregate rule over the transactions, from the sums so far. -/
def aggregateFrom (src : Sources) : List CTransaction → (tx_inputs_values tx_outputs_values : Int) →
    Aggregate
  | [], tx_inputs_values, tx_outputs_values => .totals tx_inputs_values tx_outputs_values
  | tx :: vtx, tx_inputs_values, tx_outputs_values =>
    let mapped := tx.getMapTxInputs src true false
    if !mapped.1 then .rejected
    else
      match tx.getValueMapIn mapped.2, tx.getValueOut with
      | some tx_MapIn_values, some tx_MapOut_values =>
        if Int64.wrap (tx_inputs_values + tx_MapIn_values) < 0 then .rejected
        else if Int64.wrap (tx_outputs_values + tx_MapOut_values) < 0 then .rejected
        else
          aggregateFrom src vtx (Int64.wrap (tx_inputs_values + tx_MapIn_values))
            (Int64.wrap (tx_outputs_values + tx_MapOut_values))
      | _, _ => .exception

/-- The heights of the attacked blocks, which the aggregate rule ignores. -/
def attackedHeights : List Nat :=
  [696401, 696475, 696488, 696510, 696559, 696564, 696574, 696594, 696806]

/-- The heights the aggregate rule is applied at. -/
def aggregateApplies (nHeight : Nat) : Bool :=
  decide (10000 < nHeight) && !attackedHeights.contains nHeight

/-- The verdict of the aggregate rule at a height; exceptions are let through up to `701720`. -/
def Aggregate.accepted (nHeight : Nat) : Aggregate → Bool
  | .rejected => false
  | .exception => decide (nHeight ≤ 701720)
  | .totals tx_inputs_values tx_outputs_values =>
    decide (tx_outputs_values ≤ Int64.wrap (tx_inputs_values + getProofOfWorkReward nHeight 0))

/-! ## Rules that read the block and its ancestors -/

/-- `Checkpoints::mapCheckpoints`. -/
def mapCheckpoints : List (Nat × Uint256) :=
  [(0, NodeState.hashGenesisBlock),
    (25, 0x000001cc753748395adc5bada031b8df33ab40ac6cbff52babef0c56ebdc0bc3),
    (701720, 0x0000000000011348d2e6c48125d1e97912b84e2afa5e85db37303366a25cda73),
    (701907, 0x27895d01be9f6a7a9fe8756da7dbd8bbbf435675b27359bfa1ffd10cd9f17b6a),
    (770605, 0x3bd5f669ae847624b32f2bbb7bfda1568cb2f347cea08f61191c92ce840c116b),
    (974427, 0xfe79e1b25515d1682e20b68e0190fde50759e95b8070c2ac55c9621a44c33b3c)]

/-- `Checkpoints::CheckHardened`. -/
def checkHardened (nHeight : Nat) (hash : Uint256) : Bool :=
  match mapCheckpoints.lookup nHeight with
  | none => true
  | some hashCheckpoint => hash == hashCheckpoint

/-- The little-endian bytes of a number, at most `fuel` of them. -/
def littleEndian : Nat → Nat → List UInt8
  | 0, _ => []
  | fuel + 1, n => if n = 0 then [] else UInt8.ofNat (n % 256) :: littleEndian fuel (n / 256)

/-- `CBigNum::getvch` of a height: little-endian bytes, with one more when the last has the sign
bit. -/
def getvch (n : Nat) : List UInt8 :=
  let vch := littleEndian 8 n
  if (vch.getLast?.getD 0).toNat < 128 then vch else vch ++ [0]

/-- `CScript() << nHeight`. -/
def pushHeight (nHeight : Nat) : CScript :=
  if 1 ≤ nHeight ∧ nHeight ≤ 16 then [UInt8.ofNat (nHeight + 80)]
  else UInt8.ofNat (getvch nHeight).length :: getvch nHeight

/-- The coinbase starts with the serialized height. -/
def checkCoinbaseHeight (b : CBlock) (nHeight : Nat) : Bool :=
  match b.vtx with
  | coinbase :: _ =>
    match coinbase.vin with
    | txin :: _ => (pushHeight nHeight).isPrefixOf txin.scriptSig
    | [] => false
  | [] => false

namespace NodeState

variable (env : Env) (s : NodeState)

/-- The first rules of `AcceptBlock`: the kind of block at its height, the target, the time and the
finality of its transactions. -/
def checkHeader (b : CBlock) (pindexPrev : CBlockIndex) : Bool :=
  let nHeight := pindexPrev.nHeight + 1
  !(b.isProofOfWork && decide (LAST_POW_BLOCK < nHeight))
    && !(b.isProofOfStake && decide (nHeight < MODIFIER_INTERVAL_SWITCH))
    && b.nBits == s.getNextTargetRequired pindexPrev b.isProofOfStake
    && decide (s.getMedianTimePast pindexPrev < b.getBlockTime)
    && decide (pindexPrev.getBlockTime ≤ b.getBlockTime + getClockDrift b.getBlockTime)
    && b.vtx.all fun tx => tx.isFinal nHeight b.getBlockTime

/-! ## Rules that read the active chain -/

/-- **The aggregate rule of `AcceptBlock`**, at a height. -/
def checkAggregate (b : CBlock) (nHeight : Nat) : Bool :=
  !aggregateApplies nHeight || (aggregateFrom (s.sources env) b.vtx 0 0).accepted nHeight

/-- The proof-of-stake rule of `AcceptBlock`: the proof hash, zero for a proof-of-work block. -/
def checkKernel (b : CBlock) : Option Uint256 :=
  if b.isProofOfStake then
    match b.vtx with
    | _ :: coinstake :: _ => s.checkProofOfStake C env coinstake b.nBits
    | _ => none
  else some 0

/-- The entry at a height on the way back from `pindex`. -/
def traceBack (nHeight : Nat) : Nat → CBlockIndex → Option CBlockIndex
  | 0, pindex => if nHeight < pindex.nHeight then none else some pindex
  | fuel + 1, pindex =>
    if nHeight < pindex.nHeight then
      match s.prev pindex with
      | none => none
      | some pprev => traceBack nHeight fuel pprev
    else some pindex

/-- `Checkpoints::CheckSync`. The assertion that the checkpoint is indexed stops the node. -/
def checkSync (hashBlock : Uint256) (pindexPrev : CBlockIndex) : Bool :=
  let nHeight := pindexPrev.nHeight + 1
  match s.mapBlockIndex s.hashSyncCheckpoint with
  | none => false
  | some pindexSync =>
    (!decide (pindexSync.nHeight < nHeight) ||
      match s.traceBack pindexSync.nHeight pindexPrev.nHeight pindexPrev with
      | none => false
      | some pindex => decide (pindexSync.nHeight ≤ pindex.nHeight) && pindex.hash == s.hashSyncCheckpoint)
    && !(nHeight == pindexSync.nHeight && hashBlock != s.hashSyncCheckpoint)
    && !(decide (nHeight < pindexSync.nHeight) && (s.mapBlockIndex hashBlock).isNone)

/-! ## AcceptBlock -/

/-- **The rules of `AcceptBlock`**: the proof hash of an accepted block. -/
def acceptChecks (b : CBlock) : Option Uint256 :=
  let hash := b.getHash C
  if (s.mapBlockIndex hash).isSome then none
  else
    match s.mapBlockIndex b.hashPrevBlock with
    | none => none
    | some pindexPrev =>
      let nHeight := pindexPrev.nHeight + 1
      if !s.checkHeader b pindexPrev then none
      else if !s.checkAggregate env b nHeight then none
      else if !checkHardened nHeight hash then none
      else
        match s.checkKernel C env b with
        | none => none
        | some hashProofOfStake =>
          if env.checkpointsMode = .strict ∧ s.checkSync hash pindexPrev = false then none
          else if !checkCoinbaseHeight b nHeight then none
          else some hashProofOfStake

/-- `CBlockIndex::GetBlockTrust`. -/
def getBlockTrust (nBits : Nat) : Uint256 :=
  let bnTarget := setCompact nBits
  if bnTarget ≤ 0 then 0 else 2 ^ 256 / (bnTarget.toNat + 1)

/-- `CheckStakeModifierCheckpoints`. -/
def checkStakeModifierCheckpoints (nHeight nStakeModifierChecksum : Nat) : Bool :=
  nHeight != 0 || nStakeModifierChecksum == 0x0e00670b

/-- The entry `AddToBlockIndex` makes of a block; `none` when the stake modifier fails. -/
def newBlockIndex (b : CBlock) (nFile nBlockPos : Nat) (hashProofOfStake : Uint256) :
    Option CBlockIndex :=
  let hash := b.getHash C
  let pindexPrev := s.mapBlockIndex b.hashPrevBlock
  let nHeight := (pindexPrev.map fun pprev => pprev.nHeight + 1).getD 0
  match s.computeNextStakeModifier C pindexPrev with
  | none => none
  | some (nStakeModifier, fGeneratedStakeModifier) =>
    let nFlags := b.isProofOfStake.toNat + hash % 2 * 2 + fGeneratedStakeModifier.toNat * 4
    let nStakeModifierChecksum := C.hashChecksum (pindexPrev.map CBlockIndex.nStakeModifierChecksum)
      nFlags hashProofOfStake nStakeModifier
    if checkStakeModifierCheckpoints nHeight nStakeModifierChecksum then
      let coinstake := if b.isProofOfStake then b.vtx[1]? else none
      some {
        hash := hash
        pprev := pindexPrev.map fun _ => b.hashPrevBlock
        pnext := none
        nFile := nFile
        nBlockPos := nBlockPos
        nChainTrust := (pindexPrev.map CBlockIndex.nChainTrust).getD 0 + getBlockTrust b.nBits
        nHeight := nHeight
        nMint := 0
        nMoneySupply := 0
        nFlags := nFlags
        nStakeModifier := nStakeModifier
        nStakeModifierChecksum := nStakeModifierChecksum
        prevoutStake := (coinstake.bind fun tx => tx.vin.head?.map CTxIn.prevout).getD COutPoint.null
        nStakeTime := (coinstake.map CTransaction.nTime).getD 0
        hashProofOfStake := hashProofOfStake
        nVersion := b.nVersion
        hashMerkleRoot := b.hashMerkleRoot
        nTime := b.nTime
        nBits := b.nBits
        nNonce := b.nNonce }
    else none

/-- The node with a new entry in `mapBlockIndex`. -/
def insertIndex (pindexNew : CBlockIndex) : NodeState :=
  { s with
    mapBlockIndex := Function.update s.mapBlockIndex pindexNew.hash (some pindexNew)
    setStakeSeen := if pindexNew.isProofOfStake then
        (pindexNew.prevoutStake, pindexNew.nStakeTime) :: s.setStakeSeen
      else s.setStakeSeen }

/-- `AddToBlockIndex`. -/
def addToBlockIndex (b : CBlock) (nFile nBlockPos : Nat) (hashProofOfStake : Uint256) :
    Bool × NodeState :=
  if (s.mapBlockIndex (b.getHash C)).isSome then (false, s)
  else
    match s.newBlockIndex C b nFile nBlockPos hashProofOfStake with
    | none => (false, s)
    | some pindexNew =>
      let s₁ := s.insertIndex pindexNew
      let s₂ := s₁.withTxdb ((s₁.txdb.txnBegin.writeBlockIndex
        (CDiskBlockIndex.ofIndex pindexNew)).txnCommit (!env.indexCommitFails))
      if env.indexCommitFails then (false, s₂)
      else if s₂.nBestChainTrust < pindexNew.nChainTrust then
        s₂.setBestChain C env b pindexNew.hash
      else (true, s₂)

/-- `Checkpoints::ValidateSyncCheckpoint`. -/
def validateSyncCheckpoint (hashCheckpoint : Uint256) : Bool :=
  match s.mapBlockIndex s.hashSyncCheckpoint, s.mapBlockIndex hashCheckpoint with
  | some pindexSyncCheckpoint, some pindexCheckpointRecv =>
    decide (pindexSyncCheckpoint.nHeight < pindexCheckpointRecv.nHeight) &&
      match s.traceBack pindexSyncCheckpoint.nHeight pindexCheckpointRecv.nHeight
          pindexCheckpointRecv with
      | none => false
      | some pindex => pindex.hash == s.hashSyncCheckpoint
  | _, _ => false

/-- `CBlockIndex::IsInMainChain`. -/
def isInMainChain (hash : Uint256) : Bool :=
  ((s.mapBlockIndex hash).bind CBlockIndex.pnext).isSome || s.pindexBest == some hash

/-- `Checkpoints::WriteSyncCheckpoint`, and the pending checkpoint is done with. -/
def writeSyncCheckpoint (hashCheckpoint : Uint256) : NodeState :=
  let s₁ := s.withTxdb ((s.txdb.txnBegin.exec (.put .hashSyncCheckpoint hashCheckpoint)).txnCommit
    (!env.indexCommitFails))
  if env.indexCommitFails then s₁
  else { s₁ with hashSyncCheckpoint := hashCheckpoint, hashPendingCheckpoint := 0 }

/-- `Checkpoints::AcceptPendingSyncCheckpoint`; its result is not looked at. -/
def acceptPendingSyncCheckpoint : NodeState :=
  let hash := s.hashPendingCheckpoint
  if hash = 0 ∨ s.mapBlockIndex hash = none then s
  else if !s.validateSyncCheckpoint hash then { s with hashPendingCheckpoint := 0 }
  else if s.isInMainChain hash then s.writeSyncCheckpoint env hash
  else
    match s.readFromDisk C env hash with
    | none => s
    | some b =>
      let r := s.setBestChain C env b hash
      if r.1 then r.2.writeSyncCheckpoint env hash else r.2

/-- Append a block to the block files at a position. -/
def writeBlock (b : CBlock) (nFile nBlockPos : Nat) : NodeState :=
  { s with
    blkFiles := Function.update s.blkFiles nFile
      (Function.update (s.blkFiles nFile) nBlockPos (some b)) }

/-- **`AcceptBlock`.** -/
def acceptBlock (b : CBlock) : Bool × NodeState :=
  match s.acceptChecks C env b with
  | none => (false, s)
  | some hashProofOfStake =>
    match env.writeToDisk with
    | none => (false, s)
    | some (nFile, nBlockPos) =>
      let r := (s.writeBlock b nFile nBlockPos).addToBlockIndex C env b nFile nBlockPos
        hashProofOfStake
      if r.1 then (true, r.2.acceptPendingSyncCheckpoint C env) else (false, r.2)

end NodeState

end MotaCoin
