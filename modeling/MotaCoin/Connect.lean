import MotaCoin.Check
import MotaCoin.Reward

/-!
# Connecting and disconnecting a block

`CBlock::ConnectBlock` and `CBlock::DisconnectBlock`. `ConnectBlock` first runs over the
transactions with a queue of index changes and writes nothing; only when every rule holds does it
set the minted amounts of the index entry and write the queue into the batch. The parameter
`fJustCheck` of the source is false in every call.

## Main definitions

* `ConnectTotals`, `connectTx`, `connectTxs`: the loop of `ConnectBlock` over the transactions
* `NodeState.checkRewards`: the coinbase and coinstake limits
* `NodeState.connectChecks`, `NodeState.connectBlock`
* `NodeState.disconnectBlock`
-/

namespace MotaCoin

variable (C : Crypto)

/-- The local variables of the loop of `ConnectBlock`. -/
structure ConnectTotals where
  mapQueuedChanges : TxIndexQueue
  nFees : Int
  nValueIn : Int
  nValueOut : Int
  nStakeReward : Int
  nSigOps : Nat

/-- The variables before the loop. -/
def ConnectTotals.init : ConnectTotals := ⟨∅, 0, 0, 0, 0, 0⟩

/-- Whether a record stands in the way of a transaction with the same id: some output of the older
one is not spent. -/
def overwritesUnspent (readTxIndex : TxIndexMap) (hashTx : Uint256) : Bool :=
  match readTxIndex hashTx with
  | none => false
  | some txindexOld => txindexOld.vSpent.any CDiskTxPos.isNull

/-- One round of the loop of `ConnectBlock`, for a transaction and its position. -/
def connectTx (src : Sources) (ctx : CTransaction.ConnectCtx) (t : ConnectTotals)
    (tx : CTransaction) (posThisTx : CDiskTxPos) : Option ConnectTotals :=
  let hashTx := C.hashTx tx
  let nSigOps := t.nSigOps + tx.getLegacySigOpCount C
  if overwritesUnspent src.readTxIndex hashTx then none
  else if MAX_BLOCK_SIGOPS < nSigOps then none
  else
    match tx.getValueOut with
    | none => none
    | some nTxValueOut =>
      if tx.isCoinBase then
        some { t with
          mapQueuedChanges :=
            t.mapQueuedChanges.insert hashTx (CTxIndex.fresh posThisTx tx.vout.length)
          nValueOut := Int64.wrap (t.nValueOut + nTxValueOut)
          nSigOps := nSigOps }
      else
        let fetched := tx.fetchInputs src t.mapQueuedChanges true false
        if !fetched.ok then none
        else
          match tx.getP2SHSigOpCount C fetched.inputsRet, tx.getValueMapIn fetched.inputsRet with
          | some nP2SH, some nTxValueIn =>
            if MAX_BLOCK_SIGOPS < nSigOps + nP2SH then none
            else
              match tx.connectInputs C ctx fetched.inputsRet t.mapQueuedChanges posThisTx true
                  false with
              | none => none
              | some mapQueuedChanges =>
                some {
                  mapQueuedChanges :=
                    mapQueuedChanges.insert hashTx (CTxIndex.fresh posThisTx tx.vout.length)
                  nFees := if tx.isCoinStake then t.nFees
                    else Int64.wrap (t.nFees + Int64.wrap (nTxValueIn - nTxValueOut))
                  nValueIn := Int64.wrap (t.nValueIn + nTxValueIn)
                  nValueOut := Int64.wrap (t.nValueOut + nTxValueOut)
                  nStakeReward := if tx.isCoinStake then Int64.wrap (nTxValueOut - nTxValueIn)
                    else t.nStakeReward
                  nSigOps := nSigOps + nP2SH }
          | _, _ => none

/-- The loop of `ConnectBlock` over the transactions. -/
def connectTxs (src : Sources) (ctx : CTransaction.ConnectCtx) :
    List (CTransaction × CDiskTxPos) → ConnectTotals → Option ConnectTotals
  | [], t => some t
  | p :: txs, t =>
    match connectTx C src ctx t p.1 p.2 with
    | none => none
    | some t' => connectTxs src ctx txs t'

namespace NodeState

variable (env : Env)

/-- The coinbase limit of `ConnectBlock`, at the height of `pindexBest`. -/
def checkCoinbaseReward (s : NodeState) (b : CBlock) (nFees : Int) : Bool :=
  match s.best, b.vtx with
  | some pindexBest, coinbase :: _ =>
    match coinbase.getValueOut with
    | none => false
    | some nValueOut => decide (nValueOut ≤ getProofOfWorkReward pindexBest.nHeight nFees)
  | _, _ => false

/-- The coinstake limit of `ConnectBlock`. -/
def checkStakeReward (s : NodeState) (b : CBlock) (pindex : CBlockIndex) (t : ConnectTotals) :
    Bool :=
  match b.vtx with
  | _ :: coinstake :: _ =>
    match coinstake.getCoinAge (s.sources env) with
    | none => false
    | some nCoinAge =>
      decide (t.nStakeReward ≤
        getProofOfStakeReward C (Int64.wrap nCoinAge) t.nFees t.nValueIn (pindex.pprev.getD 0))
  | _ => false

/-- The reward rules of `ConnectBlock`. -/
def checkRewards (s : NodeState) (b : CBlock) (pindex : CBlockIndex) (t : ConnectTotals) : Bool :=
  if b.isProofOfWork then s.checkCoinbaseReward b t.nFees else s.checkStakeReward C env b pindex t

/-- Everything `ConnectBlock` does before its first write. -/
def connectChecks (s : NodeState) (b : CBlock) (pindex : CBlockIndex) : Option ConnectTotals :=
  if !b.checkBlock C env.adjustedTime true true false then none
  else
    match connectTxs C (s.sources env) (s.connectCtx pindex true)
        (txPositions pindex.nFile pindex.nBlockPos b) ConnectTotals.init with
    | none => none
    | some t => if s.checkRewards C env b pindex t then some t else none

/-- The money supply `ConnectBlock` starts from: the one of the previous block. -/
def prevMoneySupply (s : NodeState) (pindex : CBlockIndex) : Int :=
  ((pindex.pprev.bind s.mapBlockIndex).map CBlockIndex.nMoneySupply).getD 0

/-- Write the queued index changes into the database. -/
def writeQueue (txdb : CTxDB) (q : TxIndexQueue) : CTxDB :=
  q.entries.foldl (fun db e => db.updateTxIndex e.1 e.2) txdb

/-- The record of the previous block with its link changed to `hashNext`, written by
`ConnectBlock` and `DisconnectBlock` without changing the entry in memory. -/
def writePrevLink (s : NodeState) (pindex : CBlockIndex) (hashNext : Uint256) (txdb : CTxDB) :
    CTxDB :=
  match pindex.pprev.bind s.mapBlockIndex with
  | none => txdb
  | some pindexPrev =>
    txdb.writeBlockIndex { CDiskBlockIndex.ofIndex pindexPrev with hashNext := hashNext }

/-- The writes of `ConnectBlock` once every rule holds, to the entry `pindex` of `hash`. -/
def connectWrites (s : NodeState) (b : CBlock) (hash : Uint256) (pindex : CBlockIndex)
    (t : ConnectTotals) : NodeState :=
  let pindex' := { pindex with
    nMint := Int64.wrap (t.nValueOut - t.nValueIn + t.nFees)
    nMoneySupply := Int64.wrap (s.prevMoneySupply pindex + t.nValueOut - t.nValueIn) }
  let txdb := s.txdb.writeBlockIndex (CDiskBlockIndex.ofIndex pindex')
  { s with
    mapBlockIndex := Function.update s.mapBlockIndex hash (some pindex')
    txdb := s.writePrevLink pindex pindex.hash (writeQueue txdb t.mapQueuedChanges)
    walletSyncs := s.walletSyncs ++ b.vtx.map fun tx => ⟨tx, b, true, true⟩ }

/-- `ConnectBlock` for the block `b` with the index entry of `hash`. Writes into a batch do not
fail. -/
def connectBlock (s : NodeState) (b : CBlock) (hash : Uint256) : Bool × NodeState :=
  match s.mapBlockIndex hash with
  | none => (false, s)
  | some pindex =>
    match s.connectChecks C env b pindex with
    | none => (false, s)
    | some t => (true, s.connectWrites b hash pindex t)

/-- The loop of `DisconnectBlock` over the transactions, already in reverse order. -/
def disconnectTxs : List CTransaction → CTxDB → Bool × CTxDB
  | [], txdb => (true, txdb)
  | tx :: vtx, txdb =>
    let r := tx.disconnectInputs C txdb
    if r.1 then disconnectTxs vtx r.2 else (false, r.2)

/-- `DisconnectBlock` for the block `b` with the index entry of `hash`. -/
def disconnectBlock (s : NodeState) (b : CBlock) (hash : Uint256) : Bool × NodeState :=
  match s.mapBlockIndex hash with
  | none => (false, s)
  | some pindex =>
    let r := disconnectTxs C b.vtx.reverse s.txdb
    if r.1 then
      (true, { s with
        txdb := s.writePrevLink pindex 0 r.2
        walletSyncs := s.walletSyncs ++ b.vtx.map fun tx => ⟨tx, b, false, false⟩ })
    else (false, { s with txdb := r.2 })

end NodeState

end MotaCoin
