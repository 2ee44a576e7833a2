import MotaCoin.Connect
import MotaCoin.MemPool

/-!
# Setting the best chain

`Reorganize`, `CBlock::SetBestChainInner` and `CBlock::SetBestChain`. Every function returns its
result together with the node it leaves, also when it fails. Walks along `pprev` are bounded by
heights, which fall by one at each step.

## Main definitions

* `NodeState.readFromDisk`: `CBlock::ReadFromDisk(pindex)`
* `NodeState.findFork`, `NodeState.walkTo`: the fork, and the blocks between it and a tip
* `NodeState.reorganize`, `NodeState.setBestChainInner`
* `NodeState.postpone`: the blocks `SetBestChain` leaves for after the reorganization
* `NodeState.setBestChain`
-/

namespace MotaCoin

namespace NodeState

variable (C : Crypto) (env : Env)

/-- `CBlock::ReadFromDisk(pindex)`: the record at the entry's position, with the proof-of-work test
of a proof-of-work header, and of the entry's hash. -/
def readFromDisk (s : NodeState) (hash : Uint256) : Option CBlock :=
  match s.mapBlockIndex hash with
  | none => none
  | some pindex =>
    match s.readBlockAt env pindex.nFile pindex.nBlockPos with
    | none => none
    | some b =>
      if b.isProofOfWork && !checkProofOfWork (b.getHash C) b.nBits then none
      else if b.getHash C ≠ pindex.hash then none
      else some b

/-! ## The fork -/

/-- The two nested loops of `Reorganize` that find the fork: the longer side steps back while it is
higher, else the other side does. `none` is the error of a null `pprev`. -/
def findForkFrom (s : NodeState) : Nat → (pfork plonger : Uint256) → Option Uint256
  | 0, pfork, plonger => if pfork = plonger then some pfork else none
  | fuel + 1, pfork, plonger =>
    if pfork = plonger then some pfork
    else
      match s.mapBlockIndex pfork, s.mapBlockIndex plonger with
      | some efork, some elonger =>
        if efork.nHeight < elonger.nHeight then
          match elonger.pprev with
          | none => none
          | some plonger' => findForkFrom s fuel pfork plonger'
        else
          match efork.pprev with
          | none => none
          | some pfork' => findForkFrom s fuel pfork' plonger
      | _, _ => none

/-- The height of an entry. -/
def heightOf (s : NodeState) (hash : Uint256) : Nat :=
  ((s.mapBlockIndex hash).map CBlockIndex.nHeight).getD 0

/-- The chain trust of an entry. -/
def trustOf (s : NodeState) (hash : Uint256) : Uint256 :=
  ((s.mapBlockIndex hash).map CBlockIndex.nChainTrust).getD 0

/-- The fork of `pindexBest` and `pindexNew`. -/
def findFork (s : NodeState) (pindexBest pindexNew : Uint256) : Option Uint256 :=
  s.findForkFrom (s.heightOf pindexBest + s.heightOf pindexNew) pindexBest pindexNew

/-- The loop `for (pindex = from; pindex != pfork; pindex = pindex->pprev)` collecting entries. -/
def walkToFrom (s : NodeState) (pfork : Uint256) : Nat → Uint256 → Option (List Uint256)
  | 0, pindex => if pindex = pfork then some [] else none
  | fuel + 1, pindex =>
    if pindex = pfork then some []
    else
      match (s.mapBlockIndex pindex).bind CBlockIndex.pprev with
      | none => none
      | some pprev => (walkToFrom s pfork fuel pprev).map (pindex :: ·)

/-- The entries from `pindex` back to, and without, `pfork`. -/
def walkTo (s : NodeState) (pfork pindex : Uint256) : Option (List Uint256) :=
  s.walkToFrom pfork (s.heightOf pindex) pindex

/-! ## Reorganize -/

/-- The loop of `Reorganize` that disconnects the shorter branch, collecting `vResurrect`. -/
def disconnectLoop : List Uint256 → NodeState → List CTransaction →
    Bool × NodeState × List CTransaction
  | [], s, vResurrect => (true, s, vResurrect)
  | hash :: vDisconnect, s, vResurrect =>
    match s.readFromDisk C env hash with
    | none => (false, s, vResurrect)
    | some b =>
      let r := s.disconnectBlock C b hash
      if r.1 then
        disconnectLoop vDisconnect r.2
          (vResurrect ++ b.vtx.filter fun tx => !(tx.isCoinBase || tx.isCoinStake))
      else (false, r.2, vResurrect)

/-- The loop of `Reorganize` that connects the longer branch, collecting `vDelete`. -/
def connectLoop : List Uint256 → NodeState → List CTransaction →
    Bool × NodeState × List CTransaction
  | [], s, vDelete => (true, s, vDelete)
  | hash :: vConnect, s, vDelete =>
    match s.readFromDisk C env hash with
    | none => (false, s, vDelete)
    | some b =>
      let r := s.connectBlock C env b hash
      if r.1 then connectLoop vConnect r.2 (vDelete ++ b.vtx) else (false, r.2, vDelete)

/-- Set the `pnext` of the previous entry of `hash`, if there is one. -/
def setPrevNext (s : NodeState) (hash : Uint256) (pnext : Option Uint256) : NodeState :=
  match (s.mapBlockIndex hash).bind CBlockIndex.pprev with
  | none => s
  | some pprev => s.modifyIndex pprev fun pindex => { pindex with pnext := pnext }

/-- Resurrect transactions of the disconnected branch. -/
def resurrect (s : NodeState) (vResurrect : List CTransaction) : NodeState :=
  vResurrect.foldl (fun s tx => (s.acceptToMemoryPool C env tx false).2.2) s

/-- Delete transactions of the connected branch and what conflicts with them. -/
def deleteRedundant (s : NodeState) (vDelete : List CTransaction) : NodeState :=
  { s with mempool :=
      vDelete.foldl (fun p tx => (p.remove C tx false).removeConflicts C tx) s.mempool }

/-- The part of `Reorganize` after the commit: links, then the memory pool. -/
def relink (s : NodeState) (vDisconnect vConnect : List Uint256) : NodeState :=
  let s := vDisconnect.foldl (fun s hash => s.setPrevNext hash none) s
  vConnect.foldl (fun s hash => s.setPrevNext hash (some hash)) s

/-- `WriteHashBestChain` and `TxnCommit`: whether the batch that makes `hash` the best chain was
committed. -/
def commitBest (s : NodeState) (hash : Uint256) : Bool × NodeState :=
  (!env.commitFails hash,
    s.withTxdb ((s.txdb.writeHashBestChain hash).txnCommit (!env.commitFails hash)))

/-- `Reorganize`. -/
def reorganize (s : NodeState) (pindexNew : Uint256) : Bool × NodeState :=
  match s.pindexBest with
  | none => (false, s)
  | some pindexBest =>
    match s.findFork pindexBest pindexNew with
    | none => (false, s)
    | some pfork =>
      match s.walkTo pfork pindexBest, s.walkTo pfork pindexNew with
      | some vDisconnect, some walk =>
        let vConnect := walk.reverse
        let d := disconnectLoop C env vDisconnect s []
        if !d.1 then (false, d.2.1)
        else
          let c := connectLoop C env vConnect d.2.1 []
          if !c.1 then (false, c.2.1)
          else
            let r := c.2.1.commitBest env pindexNew
            if !r.1 then (false, r.2)
            else
              (true, ((r.2.relink vDisconnect vConnect).resurrect C env d.2.2).deleteRedundant C
                c.2.2)
      | _, _ => (false, s)

/-! ## SetBestChain -/

/-- `InvalidChainFound`. -/
def invalidChainFound (s : NodeState) (pindexNew : Uint256) : NodeState :=
  if s.nBestInvalidTrust < s.trustOf pindexNew then
    { s with
      nBestInvalidTrust := s.trustOf pindexNew
      txdb := s.txdb.writeBestInvalidTrust (s.trustOf pindexNew) }
  else s

/-- `TxnAbort` followed by `InvalidChainFound`. -/
def abortInvalid (s : NodeState) (pindexNew : Uint256) : NodeState :=
  (s.withTxdb s.txdb.txnAbort).invalidChainFound pindexNew

/-- `SetBestChainInner`, of the block `b` with the index entry `pindexNew`. -/
def setBestChainInner (s : NodeState) (b : CBlock) (pindexNew : Uint256) : Bool × NodeState :=
  let c := s.connectBlock C env b pindexNew
  if !c.1 then (false, c.2.abortInvalid pindexNew)
  else
    let r := c.2.commitBest env (b.getHash C)
    if !r.1 then (false, r.2)
    else
      let s' := r.2.setPrevNext pindexNew (some pindexNew)
      (true, { s' with mempool := b.vtx.foldl (fun p tx => p.remove C tx false) s'.mempool })

/-- The loop of `SetBestChain` that postpones blocks: it steps back while the previous block alone
has more trust than `pindexBest`. Returns the block to reorganize to, and the postponed blocks in
the order they are connected in. -/
def postponeFrom (s : NodeState) (nBestTrust : Uint256) :
    Nat → Uint256 → List Uint256 → Uint256 × List Uint256
  | 0, pindexIntermediate, vpindexSecondary => (pindexIntermediate, vpindexSecondary)
  | fuel + 1, pindexIntermediate, vpindexSecondary =>
    match (s.mapBlockIndex pindexIntermediate).bind CBlockIndex.pprev with
    | none => (pindexIntermediate, vpindexSecondary)
    | some pprev =>
      if nBestTrust < s.trustOf pprev then
        postponeFrom s nBestTrust fuel pprev (pindexIntermediate :: vpindexSecondary)
      else (pindexIntermediate, vpindexSecondary)

/-- The blocks `SetBestChain` postpones on the way to `pindexNew`. -/
def postpone (s : NodeState) (pindexBest pindexNew : Uint256) : Uint256 × List Uint256 :=
  s.postponeFrom (s.trustOf pindexBest) (s.heightOf pindexNew) pindexNew []

/-- The loop "Connect further blocks" of `SetBestChain`. It stops at the first block that cannot be
read or connected, and says whether it got to the end. -/
def connectFurther : List Uint256 → NodeState → Bool × NodeState
  | [], s => (true, s)
  | hash :: vpindexSecondary, s =>
    match s.readFromDisk C env hash with
    | none => (false, s)
    | some b =>
      let r := s.txnBegin.setBestChainInner C env b hash
      if r.1 then connectFurther vpindexSecondary r.2 else (false, r.2)

/-- The end of `SetBestChain`: the globals are set from `pindexNew`. -/
def newBestBlock (s : NodeState) (b : CBlock) (pindexNew : Uint256) : NodeState :=
  { s with
    hashBestChain := b.getHash C
    pindexBest := some pindexNew
    pblockindexFBBHLast := none
    nBestHeight := s.heightOf pindexNew
    nBestChainTrust := s.trustOf pindexNew }

/-- `hashGenesisBlock`. -/
def hashGenesisBlock : Uint256 := 0x00000fea25f87416682baa54946a1d156909d0959588eb573a0ae16a64230c61

/-- The third branch of `SetBestChain`: reorganize to the first block with more trust than the tip,
then connect the postponed blocks. Errors of the second part are not reported. -/
def setBestChainReorganize (s : NodeState) (pindexNew : Uint256) : Bool × NodeState :=
  match s.pindexBest with
  | none => (false, s)
  | some pindexBest =>
    let p := s.postpone pindexBest pindexNew
    let r := s.reorganize C env p.1
    if !r.1 then (false, r.2.abortInvalid pindexNew) else (true, (connectFurther C env p.2 r.2).2)

/-- The first branch of `SetBestChain`: the genesis block is not connected. -/
def setBestChainGenesis (s : NodeState) (b : CBlock) (pindexNew : Uint256) : Bool × NodeState :=
  let r := s.commitBest env (b.getHash C)
  if r.1 then (true, { r.2 with pindexGenesisBlock := some pindexNew }) else (false, r.2)

/-- The three branches of `SetBestChain`, inside the transaction it began. -/
def setBestChainBranches (s : NodeState) (b : CBlock) (pindexNew : Uint256) : Bool × NodeState :=
  if s.pindexGenesisBlock = none ∧ b.getHash C = hashGenesisBlock then
    s.setBestChainGenesis C env b pindexNew
  else if b.hashPrevBlock = s.hashBestChain then s.setBestChainInner C env b pindexNew
  else s.setBestChainReorganize C env pindexNew

/-- `SetBestChain`, of the block `b` with the index entry `pindexNew`. -/
def setBestChain (s : NodeState) (b : CBlock) (pindexNew : Uint256) : Bool × NodeState :=
  let r := s.txnBegin.setBestChainBranches C env b pindexNew
  if r.1 then (true, r.2.newBestBlock C b pindexNew) else (false, r.2)

end NodeState

end MotaCoin
