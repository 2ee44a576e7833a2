import Mathlib.Data.Finset.Basic
import MotaCoin.Accept

/-!
# Processing a block

`ProcessBlock`: a block is refused, stored as an orphan while its previous block is unknown, or
accepted, and then the orphans that waited for it are accepted in turn. What it asks of peers, the
penalties it gives them and what the wallet does after an accepted block are left out.

## Main definitions

* `computeMaxBits`, `NodeState.tooLittleWork`: the test against the last synchronized checkpoint
* `BlockState`: a node with its orphan blocks
* `BlockState.wantedByPendingSyncCheckpoint`
* `BlockState.storeOrphan`, `BlockState.drainLoop`, `BlockState.processBlock`
-/

namespace MotaCoin

variable (C : Crypto)

/-- `CBlock::GetProofOfStake`. -/
def CBlock.getProofOfStake (b : CBlock) : COutPoint × Nat :=
  match b.isProofOfStake, b.vtx with
  | true, _ :: coinstake :: _ =>
    ((coinstake.vin.head?.map CTxIn.prevout).getD COutPoint.null, coinstake.nTime)
  | _, _ => (COutPoint.null, 0)

/-! ## The least work after a checkpoint -/

/-- The loop of `ComputeMaxBits`: the target doubles for every day. -/
def computeMaxBitsFrom (bnTargetLimit : Int) : Nat → (bnResult nTime : Int) → Int
  | 0, bnResult, _ => bnResult
  | fuel + 1, bnResult, nTime =>
    if 0 < nTime ∧ bnResult < bnTargetLimit then
      computeMaxBitsFrom bnTargetLimit fuel (bnResult * 2) (nTime - 24 * 60 * 60)
    else bnResult

/-- `ComputeMaxBits`; the loop takes one round for each day begun. -/
def computeMaxBits (bnTargetLimit : Int) (nBase : Nat) (nTime : Int) : Nat :=
  let bnResult := computeMaxBitsFrom bnTargetLimit ((nTime / (24 * 60 * 60)).toNat + 1)
    (setCompact nBase * 2) nTime
  getCompact (if bnTargetLimit < bnResult then bnTargetLimit else bnResult)

/-- `ComputeMinWork`. -/
def computeMinWork (nBase : Nat) (nTime : Int) : Nat :=
  computeMaxBits bnProofOfWorkLimit nBase nTime

/-- `ComputeMinStake`; the time of the block is not looked at. -/
def computeMinStake (nBase : Nat) (nTime : Int) : Nat :=
  computeMaxBits bnProofOfStakeLimit nBase nTime

/-- The checks of `ProcessBlock` against a flood of bogus blocks: the target is higher than it can
have become since the last synchronized checkpoint. -/
def NodeState.tooLittleWork (s : NodeState) (b : CBlock) : Bool :=
  match s.mapBlockIndex s.hashSyncCheckpoint with
  | none => false
  | some pcheckpoint =>
    let deltaTime := b.getBlockTime - pcheckpoint.nTime
    let nBase := (s.getLastBlockIndex pcheckpoint b.isProofOfStake).nBits
    let bnRequired := setCompact (if b.isProofOfStake then computeMinStake nBase deltaTime
      else computeMinWork nBase deltaTime)
    decide (bnRequired < setCompact b.nBits)

/-! ## Orphan blocks -/

/-- A node with its orphan blocks. Both maps point at the same blocks; the multimap keeps the blocks
of a key in the order they came in. -/
structure BlockState where
  node : NodeState
  /-- The keys under which `operator[]` has left a null pointer in `mapBlockIndex`. -/
  nullIndex : List Uint256
  mapOrphanBlocks : AList fun _ : Uint256 => CBlock
  mapOrphanBlocksByPrev : List (Uint256 × CBlock)
  setStakeSeenOrphan : Finset (COutPoint × Nat)

namespace BlockState

variable (s : BlockState)

/-- `mapBlockIndex.count(hash)`. -/
def hasIndex (hash : Uint256) : Bool :=
  (s.node.mapBlockIndex hash).isSome || s.nullIndex.contains hash

/-- `mapBlockIndex[hash]->nHeight` in the debug line: `operator[]` leaves a null pointer under a key
that was not there. What is read through it goes to the log. -/
def touchIndex (hash : Uint256) : BlockState :=
  if s.hasIndex hash then s else { s with nullIndex := hash :: s.nullIndex }

/-- The blocks `mapOrphanBlocksByPrev` has from `lower_bound(hashPrev)` to
`upper_bound(hashPrev)`. -/
def orphansOf (hashPrev : Uint256) : List CBlock :=
  (s.mapOrphanBlocksByPrev.filter fun p => p.1 == hashPrev).map Prod.snd

/-- The loop of `WantedByOrphan`. -/
def wantedByOrphanFrom : Nat → CBlock → Uint256
  | 0, pblockOrphan => pblockOrphan.hashPrevBlock
  | fuel + 1, pblockOrphan =>
    match s.mapOrphanBlocks.lookup pblockOrphan.hashPrevBlock with
    | none => pblockOrphan.hashPrevBlock
    | some pblockPrev => wantedByOrphanFrom fuel pblockPrev

/-- `WantedByOrphan`: a chain of orphans is not longer than the map. -/
def wantedByOrphan (pblockOrphan : CBlock) : Uint256 :=
  s.wantedByOrphanFrom s.mapOrphanBlocks.entries.length pblockOrphan

/-- `Checkpoints::WantedByPendingSyncCheckpoint`. -/
def wantedByPendingSyncCheckpoint (hashBlock : Uint256) : Bool :=
  let hashPendingCheckpoint := s.node.hashPendingCheckpoint
  hashPendingCheckpoint != 0 &&
    (hashBlock == hashPendingCheckpoint ||
      match s.mapOrphanBlocks.lookup hashPendingCheckpoint with
      | none => false
      | some pblockOrphan => hashBlock == s.wantedByOrphan pblockOrphan)

/-- A block that repeats a stake is let through: an orphan waits for it, or the pending checkpoint
does. -/
def duplicateStakeAllowed (hash : Uint256) : Bool :=
  !(s.orphansOf hash).isEmpty || s.wantedByPendingSyncCheckpoint hash

/-- The branch of `ProcessBlock` for a block without a known previous block. -/
def storeOrphan (b : CBlock) : Bool × BlockState :=
  let hash := b.getHash C
  if b.isProofOfStake && decide (b.getProofOfStake ∈ s.setStakeSeenOrphan)
      && !s.duplicateStakeAllowed hash then (false, s)
  else (true, { s with
    setStakeSeenOrphan :=
      if b.isProofOfStake then insert b.getProofOfStake s.setStakeSeenOrphan
      else s.setStakeSeenOrphan
    mapOrphanBlocks := s.mapOrphanBlocks.insert hash b
    mapOrphanBlocksByPrev := s.mapOrphanBlocksByPrev ++ [(b.hashPrevBlock, b)] })

end BlockState

/-! ## The work queue -/

/-- The variables of `ProcessBlock` while it goes through the orphans. -/
structure BlockWork where
  state : BlockState
  vWorkQueue : List Uint256

namespace BlockWork

variable (env : Uint256 → Env)

/-- The inner loop of the drain for one orphan. -/
def drainOrphan (w : BlockWork) (pblockOrphan : CBlock) : BlockWork :=
  let hash := pblockOrphan.getHash C
  let r := w.state.node.acceptBlock C (env hash) pblockOrphan
  { state := { w.state with
      node := r.2
      mapOrphanBlocks := w.state.mapOrphanBlocks.erase hash
      setStakeSeenOrphan := w.state.setStakeSeenOrphan.erase pblockOrphan.getProofOfStake }
    vWorkQueue := if r.1 then w.vWorkQueue ++ [hash] else w.vWorkQueue }

/-- The round for one entry of `vWorkQueue`. -/
def drainStep (w : BlockWork) (hashPrev : Uint256) : BlockWork :=
  let w' := (w.state.orphansOf hashPrev).foldl (drainOrphan C env) w
  { w' with state := { w'.state with
      mapOrphanBlocksByPrev := w'.state.mapOrphanBlocksByPrev.filter fun p => p.1 != hashPrev } }

/-- The loop over `vWorkQueue` from the index `i`; `none` when it has not ended after `fuel`
rounds. -/
def drainLoop : Nat → Nat → BlockWork → Option BlockWork
  | 0, _, _ => none
  | fuel + 1, i, w =>
    match w.vWorkQueue[i]? with
    | none => some w
    | some hashPrev => drainLoop fuel (i + 1) (w.drainStep C env hashPrev)

end BlockWork

namespace BlockState

variable (fDebug : Bool) (env : Uint256 → Env) (s : BlockState)

/-- The tests of `ProcessBlock` before it looks for the previous block. -/
def processChecks (b : CBlock) : Bool :=
  let hash := b.getHash C
  !s.hasIndex hash && (s.mapOrphanBlocks.lookup hash).isNone
    && !(b.isProofOfStake && s.node.setStakeSeen.contains b.getProofOfStake
      && !s.duplicateStakeAllowed hash)
    && b.checkBlock C (env hash).adjustedTime true true true
    && !(b.hashPrevBlock != s.node.hashBestChain && !s.wantedByPendingSyncCheckpoint hash
      && s.node.tooLittleWork b)

/-- The end of `ProcessBlock` for a block with a known previous block: accept it, then the orphans
that depended on it. Each round but the first is for an orphan that leaves the maps. -/
def acceptAndDrain (b : CBlock) : Option (Bool × BlockState) :=
  let hash := b.getHash C
  let r := s.node.acceptBlock C (env hash) b
  if r.1 then
    (BlockWork.drainLoop C env (s.mapOrphanBlocksByPrev.length + 2) 0
      ⟨{ s with node := r.2 }, [hash]⟩).map fun w => (true, w.state)
  else some (false, { s with node := r.2 })

/-- **`ProcessBlock`**: whether the block was taken, and the state; `none` when its loop does not
end. `env` is what the call meets when it comes to the block with a hash. -/
def processBlock (b : CBlock) : Option (Bool × BlockState) :=
  let hash := b.getHash C
  let s := if fDebug then s.touchIndex hash else s
  if !s.processChecks C env b then some (false, s)
  else if !s.hasIndex b.hashPrevBlock then some (s.storeOrphan C b)
  else s.acceptAndDrain C env b

end BlockState

end MotaCoin
