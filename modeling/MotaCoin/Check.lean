import MotaCoin.Node

/-!
# Context-free checks

`CheckTransaction` and `CheckBlock`, with what they use: compact targets, the proof-of-work test
and the Merkle tree of a block.

## Main definitions

* `setCompact`, `getCompact`: `CBigNum` targets in compact form
* `checkProofOfWork`, `buildMerkleTree`
* `CTransaction.checkTransaction`, `CBlock.checkBlock`

## Main results

* `getValueOut_of_checkTransaction`: a checked transaction has a value out, and it is the sum
* `checkBlock_cons`: a checked block is a coinbase followed by transactions that are not
-/

namespace MotaCoin

variable (C : Crypto)

/-! ## Compact targets -/

/-- `CBigNum::SetCompact`: a size byte and a three-byte mantissa whose top bit is the sign. -/
def setCompact (nCompact : Nat) : Int :=
  let nSize := nCompact / 2 ^ 24
  let mantissa := nCompact % 2 ^ 23
  let magnitude : Nat :=
    if nSize ≤ 3 then mantissa / 256 ^ (3 - nSize) else mantissa * 256 ^ (nSize - 3)
  if nCompact.testBit 23 && decide (1 ≤ nSize) then -(magnitude : Int) else magnitude

/-- `CBigNum::GetCompact`: the size of the signed big-endian form and its first three bytes. -/
def getCompact (bn : Int) : Nat :=
  let n := bn.natAbs
  let nSize := if n = 0 then 0 else (n.log2 + 1) / 8 + 1
  let mantissa := if nSize ≤ 3 then n * 256 ^ (3 - nSize) else n / 256 ^ (nSize - 3)
  nSize * 2 ^ 24 + (if bn < 0 then 2 ^ 23 else 0) + mantissa

/-- `bnProofOfWorkLimit`: `~uint256(0) >> 20`. -/
def bnProofOfWorkLimit : Int := 2 ^ 236 - 1

/-- `bnProofOfStakeLimit`: `~uint256(0) >> 24`. -/
def bnProofOfStakeLimit : Int := 2 ^ 232 - 1

/-- `CheckProofOfWork`. -/
def checkProofOfWork (hash : Uint256) (nBits : Nat) : Bool :=
  let bnTarget := setCompact nBits
  decide (0 < bnTarget ∧ bnTarget ≤ bnProofOfWorkLimit ∧ (hash : Int) ≤ bnTarget)

/-! ## Transactions -/

namespace CTransaction

/-- The output loop of `CheckTransaction`, from the running total `nValueOut`. -/
def checkOutputs (tx : CTransaction) (nValueOut : Int) : List CTxOut → Bool
  | [] => true
  | txout :: vout =>
    if txout.isEmpty && !tx.isCoinBase && !tx.isCoinStake then false
    else if txout.nValue < 0 then false
    else if MAX_MONEY < txout.nValue then false
    else
      let nValueOut' := Int64.wrap (nValueOut + txout.nValue)
      if !moneyRange nValueOut' then false else checkOutputs tx nValueOut' vout

/-- `CheckTransaction`. -/
def checkTransaction (tx : CTransaction) : Bool :=
  !tx.vin.isEmpty && !tx.vout.isEmpty && decide (tx.getSerializeSize ≤ MAX_BLOCK_SIZE)
    && tx.checkOutputs 0 tx.vout && decide (tx.vin.map CTxIn.prevout).Nodup
    && if tx.isCoinBase then
        tx.vin.all fun txin => decide (2 ≤ txin.scriptSig.length ∧ txin.scriptSig.length ≤ 100)
      else tx.vin.all fun txin => !txin.prevout.isNull

end CTransaction

/-! ## Blocks -/

/-- One level of `BuildMerkleTree`: neighbours are hashed together, an odd last one with itself. -/
def merkleLevel : List Uint256 → List Uint256
  | [] => []
  | [a] => [C.hashPair a a]
  | a :: b :: rest => C.hashPair a b :: merkleLevel rest

/-- The levels of `BuildMerkleTree` up to the root; `fuel` bounds their number. -/
def merkleRootFrom : Nat → List Uint256 → Uint256
  | _, [] => 0
  | _, [a] => a
  | 0, a :: _ => a
  | fuel + 1, level => merkleRootFrom fuel (merkleLevel C level)

/-- `BuildMerkleTree`: the root. Every level is shorter than the one below. -/
def CBlock.buildMerkleTree (b : CBlock) : Uint256 :=
  merkleRootFrom C b.vtx.length (b.vtx.map C.hashTx)

/-- `CheckCoinStakeTimestamp`. -/
def checkCoinStakeTimestamp (nTimeBlock nTimeTx : Int) : Bool := nTimeBlock == nTimeTx

namespace CBlock

/-- The proof-of-stake rules of `CheckBlock`. -/
def checkStake (b : CBlock) (fCheckSig : Bool) : Bool :=
  match b.vtx with
  | coinbase :: coinstake :: rest =>
    (match coinbase.vout with
      | [o₀, o₁] => o₀.isEmpty && o₁.isEmpty
      | _ => false)
      && coinstake.isCoinStake && rest.all (fun tx => !tx.isCoinStake)
      && checkCoinStakeTimestamp b.getBlockTime coinstake.nTime
      && (!fCheckSig || C.checkBlockSignature b)
  | _ => false

/-- `CheckBlock`. -/
def checkBlock (adjustedTime : Int) (b : CBlock) (fCheckPOW fCheckMerkleRoot fCheckSig : Bool) :
    Bool :=
  match b.vtx with
  | [] => false
  | coinbase :: rest =>
    decide (b.vtx.length ≤ MAX_BLOCK_SIZE) && decide (b.getSerializeSize ≤ MAX_BLOCK_SIZE)
      && (!fCheckPOW || b.isProofOfStake || checkProofOfWork (b.getHash C) b.nBits)
      && decide (b.getBlockTime ≤ adjustedTime + getClockDrift b.getBlockTime)
      && coinbase.isCoinBase && rest.all (fun tx => !tx.isCoinBase)
      && decide (b.getBlockTime ≤ coinbase.nTime + getClockDrift coinbase.nTime)
      && (!b.isProofOfStake || b.checkStake C fCheckSig)
      && b.vtx.all (fun tx => tx.checkTransaction && decide ((tx.nTime : Int) ≤ b.getBlockTime))
      && decide (b.vtx.map C.hashTx).Nodup
      && decide ((b.vtx.map (CTransaction.getLegacySigOpCount C)).sum ≤ MAX_BLOCK_SIGOPS)
      && (!fCheckMerkleRoot || b.hashMerkleRoot == b.buildMerkleTree C)

end CBlock

/-! ## What the checks give -/

theorem CTransaction.getValueOutFrom_of_checkOutputs {tx : CTransaction} {vout : List CTxOut} :
    ∀ {nValueOut : Int}, tx.checkOutputs nValueOut vout = true → moneyRange nValueOut = true →
      CTransaction.getValueOutFrom nValueOut vout = some (nValueOut + (vout.map CTxOut.nValue).sum) ∧
        ∀ txout ∈ vout, moneyRange txout.nValue = true := by
  induction vout with
  | nil =>
    intro nValueOut _ _
    simp [CTransaction.getValueOutFrom]
  | cons txout vout ih =>
    intro nValueOut h hr
    simp only [CTransaction.checkOutputs] at h
    split_ifs at h with h₁ h₂ h₃ h₄
    have hv : moneyRange txout.nValue = true := by
      simp only [MAX_MONEY, COIN] at h₃
      exact moneyRange_iff.mpr (by omega)
    have hw : Int64.wrap (nValueOut + txout.nValue) = nValueOut + txout.nValue := by
      apply Int64.wrap_eq_self
      rw [moneyRange_iff] at hr hv
      unfold Int64.InRange
      omega
    rw [hw] at h h₄
    obtain ⟨hs, hall⟩ := ih h (by simpa using h₄)
    refine ⟨?_, ?_⟩
    · simp only [CTransaction.getValueOutFrom, hw, hv]
      rw [if_neg (by simpa using h₄), hs, List.map_cons, List.sum_cons, add_assoc]
    · intro o ho
      rcases List.mem_cons.mp ho with rfl | ho
      · exact hv
      · exact hall o ho

/-- A checked transaction has a value out: the sum of its outputs, each in the money range. -/
theorem CTransaction.getValueOut_of_checkTransaction {tx : CTransaction}
    (h : tx.checkTransaction = true) :
    tx.getValueOut = some (tx.vout.map CTxOut.nValue).sum ∧
      ∀ txout ∈ tx.vout, moneyRange txout.nValue = true := by
  simp only [CTransaction.checkTransaction, Bool.and_eq_true] at h
  have := CTransaction.getValueOutFrom_of_checkOutputs h.1.1.2 (by decide)
  simpa [CTransaction.getValueOut] using this

/-- What `CheckBlock` says of the transactions of a block: the first one and no other is a
coinbase, every one is checked, and a proof-of-stake block keeps its rules. -/
theorem CBlock.checkBlock_cons {adjustedTime : Int} {b : CBlock} {coinbase : CTransaction}
    {rest : List CTransaction} {fCheckPOW fCheckMerkleRoot fCheckSig : Bool}
    (hvtx : b.vtx = coinbase :: rest)
    (h : b.checkBlock C adjustedTime fCheckPOW fCheckMerkleRoot fCheckSig = true) :
    coinbase.isCoinBase = true ∧ (∀ tx ∈ rest, tx.isCoinBase = false) ∧
      (b.isProofOfStake = true → b.checkStake C fCheckSig = true) ∧
      ∀ tx ∈ b.vtx, tx.checkTransaction = true := by
  unfold CBlock.checkBlock at h
  rw [hvtx] at h ⊢
  simp only [Bool.and_eq_true, List.all_eq_true, Bool.not_eq_true', decide_eq_true_eq,
    Bool.or_eq_true] at h
  obtain ⟨⟨⟨⟨⟨⟨⟨-, hcb⟩, hrest⟩, -⟩, hstake⟩, htxs⟩, -⟩, -⟩ := h.1
  refine ⟨hcb, hrest, fun hpos => ?_, fun tx htx => (htxs tx htx).1⟩
  rcases hstake with hwork | hstake
  · rw [hwork] at hpos
    cases hpos
  · exact hstake

end MotaCoin
