import Mathlib.Data.List.Sort
import MotaCoin.Check

/-!
# Targets, stake modifiers and the stake kernel

What `AcceptBlock` and `AddToBlockIndex` compute from the block tree: the next target and the
median time, which walk along `pprev`, the stake modifier of a new block, and the kernel of a
proof-of-stake block, which reads the active transaction index and walks along `pnext`.

## Main definitions

* `NodeState.getNextTargetRequired`, `NodeState.getMedianTimePast`
* `NodeState.computeNextStakeModifier`
* `NodeState.getKernelStakeModifier`, `NodeState.checkProofOfStake`
-/

namespace MotaCoin

/-- Conversion to a 32-bit `int`. -/
def toInt32 (x : Int) : Int := (x + 2 ^ 31) % 2 ^ 32 - 2 ^ 31

namespace NodeState

variable (C : Crypto) (env : Env) (s : NodeState)

/-- The entry `pprev` points at. -/
def prev (pindex : CBlockIndex) : Option CBlockIndex := pindex.pprev.bind s.mapBlockIndex

/-! ## Targets and times -/

/-- The loop of `GetLastBlockIndex`; heights bound the walk. -/
def getLastBlockIndexFrom (fProofOfStake : Bool) : Nat → CBlockIndex → CBlockIndex
  | 0, pindex => pindex
  | fuel + 1, pindex =>
    match s.prev pindex with
    | none => pindex
    | some pprev =>
      if pindex.isProofOfStake != fProofOfStake then getLastBlockIndexFrom fProofOfStake fuel pprev
      else pindex

/-- `GetLastBlockIndex`. -/
def getLastBlockIndex (pindex : CBlockIndex) (fProofOfStake : Bool) : CBlockIndex :=
  s.getLastBlockIndexFrom fProofOfStake pindex.nHeight pindex

/-- The retarget of `GetNextTargetRequired` from the two last blocks of the kind. -/
def retarget (bnTargetLimit : Int) (pindexPrev pindexPrevPrev : CBlockIndex) : Nat :=
  let nSpacing := toInt32 (pindexPrev.getBlockTime - pindexPrevPrev.getBlockTime)
  let nActualSpacing := if nSpacing < 0 then (nTargetSpacing : Int) else nSpacing
  let nInterval : Int := nTargetTimespan / nTargetSpacing
  let bnNew := (setCompact pindexPrev.nBits *
    toInt32 ((nInterval - 1) * nTargetSpacing + nActualSpacing + nActualSpacing)).tdiv
      ((nInterval + 1) * nTargetSpacing)
  getCompact (if bnNew ≤ 0 ∨ bnTargetLimit < bnNew then bnTargetLimit else bnNew)

/-- `GetNextTargetRequired`, on top of an entry. -/
def getNextTargetRequired (pindexLast : CBlockIndex) (fProofOfStake : Bool) : Nat :=
  let bnTargetLimit := if fProofOfStake then bnProofOfStakeLimit else bnProofOfWorkLimit
  let pindexPrev := s.getLastBlockIndex pindexLast fProofOfStake
  match s.prev pindexPrev with
  | none => getCompact bnTargetLimit
  | some pprev =>
    let pindexPrevPrev := s.getLastBlockIndex pprev fProofOfStake
    match s.prev pindexPrevPrev with
    | none => getCompact bnTargetLimit
    | some _ => retarget bnTargetLimit pindexPrev pindexPrevPrev

/-- The times of an entry and of the ones before it, at most `n` of them. -/
def pastTimes : Nat → CBlockIndex → List Int
  | 0, _ => []
  | n + 1, pindex =>
    pindex.getBlockTime :: match s.prev pindex with
      | none => []
      | some pprev => pastTimes n pprev

/-- `GetMedianTimePast`, over `nMedianTimeSpan` blocks. -/
def getMedianTimePast (pindex : CBlockIndex) : Int :=
  let times := (s.pastTimes 11 pindex).insertionSort (· ≤ ·)
  times.getD (times.length / 2) 0

/-! ## Stake modifiers -/

/-- `GetStakeModifierSelectionIntervalSection`. -/
def getStakeModifierSelectionIntervalSection (nSection : Nat) : Nat :=
  nModifierInterval * 63 / (63 + (63 - nSection) * ( MODIFIER_INTERVAL_RATIO - 1))

/-- `GetStakeModifierSelectionInterval`. -/
def getStakeModifierSelectionInterval : Nat :=
  ((List.range 64).map getStakeModifierSelectionIntervalSection).sum

/-- The loop of `GetLastStakeModifier`: the last modifier and its generation time. -/
def getLastStakeModifierFrom : Nat → CBlockIndex → Option (Nat × Int)
  | 0, pindex =>
    if pindex.generatedStakeModifier then some (pindex.nStakeModifier, pindex.getBlockTime) else none
  | fuel + 1, pindex =>
    if pindex.generatedStakeModifier then some (pindex.nStakeModifier, pindex.getBlockTime)
    else
      match s.prev pindex with
      | none => none
      | some pprev => getLastStakeModifierFrom fuel pprev

/-- The candidates of `ComputeNextStakeModifier`: the blocks from `pindex` back while they are not
before the selection interval. -/
def candidatesFrom (nSelectionIntervalStart : Int) : Nat → CBlockIndex → List (Int × Uint256)
  | 0, _ => []
  | fuel + 1, pindex =>
    if pindex.getBlockTime < nSelectionIntervalStart then []
    else
      (pindex.getBlockTime, pindex.hash) :: match s.prev pindex with
        | none => []
        | some pprev => candidatesFrom nSelectionIntervalStart fuel pprev

/-- The selection hash of a candidate; a proof-of-stake block is favored. -/
def selectionHash (nStakeModifierPrev : Nat) (pindex : CBlockIndex) : Uint256 :=
  if pindex.isProofOfStake then C.hashSelection pindex.hashProofOfStake nStakeModifierPrev / 2 ^ 32
  else C.hashSelection pindex.hash nStakeModifierPrev

/-- The loop of `SelectBlockFromCandidates`, with the best candidate so far; `none` is its error. -/
def selectBlockFromCandidates (mapSelectedBlocks : List Uint256) (nSelectionIntervalStop : Int)
    (nStakeModifierPrev : Nat) :
    List (Int × Uint256) → Option (Uint256 × CBlockIndex) → Option (Uint256 × CBlockIndex)
  | [], best => best
  | item :: vSortedByTimestamp, best =>
    match s.mapBlockIndex item.2 with
    | none => none
    | some pindex =>
      let next := selectBlockFromCandidates mapSelectedBlocks nSelectionIntervalStop
        nStakeModifierPrev vSortedByTimestamp
      match best with
      | some (hashBest, pindexSelected) =>
        if nSelectionIntervalStop < pindex.getBlockTime then best
        else if mapSelectedBlocks.contains pindex.hash then next best
        else
          let hashSelection := selectionHash C nStakeModifierPrev pindex
          next (some (if hashSelection < hashBest then (hashSelection, pindex)
            else (hashBest, pindexSelected)))
      | none =>
        if mapSelectedBlocks.contains pindex.hash then next none
        else next (some (selectionHash C nStakeModifierPrev pindex, pindex))

/-- The rounds of `ComputeNextStakeModifier` from round `nRound` on, `fuel` of them. -/
def selectRounds (vSortedByTimestamp : List (Int × Uint256)) (nStakeModifierPrev : Nat) :
    (fuel nRound : Nat) → (nSelectionIntervalStop : Int) → List Uint256 → Nat → Option Nat
  | 0, _, _, _, nStakeModifierNew => some nStakeModifierNew
  | fuel + 1, nRound, nSelectionIntervalStop, mapSelectedBlocks, nStakeModifierNew =>
    let stop := nSelectionIntervalStop + getStakeModifierSelectionIntervalSection nRound
    match s.selectBlockFromCandidates C mapSelectedBlocks stop nStakeModifierPrev vSortedByTimestamp
        none with
    | none => none
    | some (_, pindex) =>
      selectRounds vSortedByTimestamp nStakeModifierPrev fuel (nRound + 1) stop
        (pindex.hash :: mapSelectedBlocks)
        (nStakeModifierNew + pindex.getStakeEntropyBit * 2 ^ nRound)

/-- `ComputeNextStakeModifier`: the modifier, and whether it was generated for this block. -/
def computeNextStakeModifier (pindexPrev : Option CBlockIndex) : Option (Nat × Bool) :=
  match pindexPrev with
  | none => some (0, true)
  | some pindexPrev =>
    match s.getLastStakeModifierFrom pindexPrev.nHeight pindexPrev with
    | none => none
    | some (nStakeModifier, nModifierTime) =>
      if pindexPrev.getBlockTime / nModifierInterval ≤ nModifierTime / nModifierInterval then
        some (nStakeModifier, false)
      else
        let nSelectionIntervalStart := pindexPrev.getBlockTime / nModifierInterval * nModifierInterval
          - getStakeModifierSelectionInterval
        let vSortedByTimestamp :=
          (s.candidatesFrom nSelectionIntervalStart (pindexPrev.nHeight + 1) pindexPrev).insertionSort
            fun a b => a.1 < b.1 ∨ a.1 = b.1 ∧ a.2 ≤ b.2
        (s.selectRounds C vSortedByTimestamp nStakeModifier (min 64 vSortedByTimestamp.length) 0
          nSelectionIntervalStart [] 0).map fun nStakeModifierNew => (nStakeModifierNew, true)

/-! ## The kernel -/

/-- The loop of `GetKernelStakeModifier` along `pnext`, until a modifier was generated at
`nStop` or later. Links lead up the active chain, so its height bounds the walk. -/
def getKernelStakeModifierFrom (nStop : Int) : Nat → CBlockIndex → Int → Option Nat
  | 0, _, _ => none
  | fuel + 1, pindex, nStakeModifierTime =>
    if nStakeModifierTime < nStop then
      match pindex.pnext.bind s.mapBlockIndex with
      | none => none
      | some pnext =>
        getKernelStakeModifierFrom nStop fuel pnext
          (if pnext.generatedStakeModifier then pnext.getBlockTime else nStakeModifierTime)
    else some pindex.nStakeModifier

/-- `GetKernelStakeModifier`. -/
def getKernelStakeModifier (hashBlockFrom : Uint256) : Option Nat :=
  match s.mapBlockIndex hashBlockFrom with
  | none => none
  | some pindexFrom =>
    s.getKernelStakeModifierFrom (pindexFrom.getBlockTime + getStakeModifierSelectionInterval)
      (s.nBestHeight.toNat + 2) pindexFrom pindexFrom.getBlockTime

/-- `GetWeight`. -/
def getWeight (nIntervalBeginning nIntervalEnd : Int) : Int :=
  min (nIntervalEnd - nIntervalBeginning - nStakeMinAge) nStakeMaxAge

/-- `stakeTargetHit`. -/
def stakeTargetHit (hashProofOfStake : Uint256) (nTimeWeight nValueIn bnTargetPerCoinDay : Int) :
    Bool :=
  let bnCoinDayWeight := ((nValueIn * nTimeWeight).tdiv COIN).tdiv (24 * 60 * 60)
  decide ((hashProofOfStake : Int) < bnCoinDayWeight * bnTargetPerCoinDay)

/-- `CheckStakeKernelHash` with `fCheck`: the proof hash when the kernel holds. -/
def checkStakeKernelHash (nBits : Nat) (blockFrom : CBlock) (nTxPrevOffset : Nat)
    (txPrev : CTransaction) (prevout : COutPoint) (nTimeTx : Nat) : Option Uint256 :=
  if nTimeTx < txPrev.nTime then none
  else if nTimeTx < (blockFrom.nTime + nStakeMinAge) % 2 ^ 32 then none
  else
    match s.getKernelStakeModifier (blockFrom.getHash C), txPrev.vout[prevout.n]? with
    | some nStakeModifier, some txout =>
      let hashProofOfStake :=
        C.stakeHash nStakeModifier blockFrom.nTime nTxPrevOffset txPrev.nTime prevout.n nTimeTx
      if stakeTargetHit hashProofOfStake (getWeight txPrev.nTime nTimeTx) txout.nValue
          (setCompact nBits) then
        some hashProofOfStake
      else none
    | _, _ => none

/-- `CheckProofOfStake`: the proof hash of a coinstake, read through the active transaction index. -/
def checkProofOfStake (tx : CTransaction) (nBits : Nat) : Option Uint256 :=
  if !tx.isCoinStake then none
  else
    match tx.vin with
    | [] => none
    | txin :: _ =>
      match CTransaction.readFromDisk (s.sources env) txin.prevout with
      | none => none
      | some (txindex, txPrev, _) =>
        if !C.verifySignature txPrev tx 0 then none
        else
          match s.readBlockAt env txindex.pos.nFile txindex.pos.nBlockPos with
          | none => none
          | some block =>
            s.checkStakeKernelHash C nBits block (txindex.pos.nTxPos - txindex.pos.nBlockPos) txPrev
              txin.prevout tx.nTime

end NodeState

end MotaCoin
