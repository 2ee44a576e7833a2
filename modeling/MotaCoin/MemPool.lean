import MotaCoin.Check

/-!
# The memory pool

`CTxMemPool`: `addUnchecked`, `remove`, `removeConflicts`, `clear` and `accept`. The replacement
code of `accept` stands behind an unconditional return and is not modelled.

## Main definitions

* `CTxMemPool.addUnchecked`, `CTxMemPool.remove`, `CTxMemPool.removeConflicts`, `CTxMemPool.clear`
* `NodeState.acceptToMemoryPool`
* `NodeState.Admissible`: the tests of `accept` that do not look at the inputs

## Main results

* `acceptToMemoryPool_fst_iff`, `acceptToMemoryPool_state`: what `accept` does
-/

namespace MotaCoin

variable (C : Crypto)

namespace CTxMemPool

/-- `addUnchecked`. -/
def addUnchecked (hash : Uint256) (tx : CTransaction) (pool : CTxMemPool) : CTxMemPool where
  mapTx := pool.mapTx.insert hash tx
  mapNextTx := tx.vin.zipIdx.foldl (fun m p => m.insert p.1.prevout (hash, p.2)) pool.mapNextTx

/-- Erase a transaction and the links of its inputs. -/
def eraseTx (hash : Uint256) (tx : CTransaction) (pool : CTxMemPool) : CTxMemPool where
  mapTx := pool.mapTx.erase hash
  mapNextTx := tx.vin.foldl (fun m txin => m.erase txin.prevout) pool.mapNextTx

/-- `remove` with a bound on the depth of its recursion over dependent transactions. -/
def removeFuel : Nat → CTransaction → Bool → CTxMemPool → CTxMemPool
  | 0, _, _, pool => pool
  | fuel + 1, tx, fRecursive, pool =>
    let hash := C.hashTx tx
    if (pool.mapTx.lookup hash).isSome then
      let pool' := if fRecursive then
          (List.range tx.vout.length).foldl (fun p i =>
            match (p.mapNextTx.lookup ⟨hash, i⟩).bind fun inpoint => p.mapTx.lookup inpoint.1 with
            | none => p
            | some txNext => removeFuel fuel txNext true p) pool
        else pool
      pool'.eraseTx hash tx
    else pool

/-- `remove`. A chain of dependent pool transactions is no longer than the pool. -/
def remove (tx : CTransaction) (fRecursive : Bool) (pool : CTxMemPool) : CTxMemPool :=
  removeFuel C (pool.mapTx.entries.length + 1) tx fRecursive pool

/-- `removeConflicts`. -/
def removeConflicts (tx : CTransaction) (pool : CTxMemPool) : CTxMemPool :=
  tx.vin.foldl (fun p txin =>
    match (p.mapNextTx.lookup txin.prevout).bind fun inpoint => p.mapTx.lookup inpoint.1 with
    | none => p
    | some txConflict => if txConflict = tx then p else p.remove C txConflict true) pool

/-- `clear`. -/
def clear (_ : CTxMemPool) : CTxMemPool := ⟨∅, ∅⟩

end CTxMemPool

namespace NodeState

variable (env : Env)

/-- The checks of `accept` that need the inputs. The second answer is `*pfMissingInputs`. -/
def checkPoolInputs (s : NodeState) (tx : CTransaction) : Bool × Bool :=
  let fetched := tx.fetchInputs (s.sources env) ∅ false false
  if !fetched.ok then (false, !fetched.fInvalid)
  else if !C.areInputsStandard tx fetched.inputsRet then (false, false)
  else
    match tx.getValueMapIn fetched.inputsRet, tx.getValueOut, s.best with
    | some nIn, some nOut, some pindexBest =>
      let nFees := Int64.wrap (nIn - nOut)
      if nFees < tx.getMinFee 1000 .relay tx.getSerializeSize then (false, false)
      else if nFees < MIN_RELAY_TX_FEE && env.freeTxRefused tx then (false, false)
      else
        ((tx.connectInputs C (s.connectCtx pindexBest false) fetched.inputsRet ∅ CDiskTxPos.memPool
          false false).isSome, false)
    | _, _, _ => (false, false)

/-- `CTxMemPool::accept`: whether the transaction entered the pool, `*pfMissingInputs`, and the
node afterwards. -/
def acceptToMemoryPool (s : NodeState) (tx : CTransaction) (fCheckInputs : Bool) :
    Bool × Bool × NodeState :=
  let hash := C.hashTx tx
  if !tx.checkTransaction || tx.isCoinBase || tx.isCoinStake || decide (2147483647 < tx.nLockTime)
      || !C.isStandard tx || (s.mempool.mapTx.lookup hash).isSome
      || (fCheckInputs && (s.txdb.readTxIndex hash).isSome)
      || tx.vin.any (fun txin => (s.mempool.mapNextTx.lookup txin.prevout).isSome) then
    (false, false, s)
  else
    let checked := if fCheckInputs then s.checkPoolInputs C env tx else (true, false)
    if checked.1 then (true, false, { s with mempool := s.mempool.addUnchecked hash tx })
    else (false, checked.2, s)

/-- The tests of `accept` that come before it looks at the inputs. -/
structure Admissible (s : NodeState) (tx : CTransaction) (fCheckInputs : Bool) : Prop where
  checked : tx.checkTransaction = true
  notCoinBase : tx.isCoinBase = false
  notCoinStake : tx.isCoinStake = false
  lockTime : tx.nLockTime ≤ 2147483647
  standard : C.isStandard tx = true
  notInPool : s.mempool.mapTx.lookup (C.hashTx tx) = none
  notInChain : fCheckInputs = true → s.txdb.readTxIndex (C.hashTx tx) = none
  noConflict : ∀ txin ∈ tx.vin, s.mempool.mapNextTx.lookup txin.prevout = none

theorem admissible_iff {s : NodeState} {tx : CTransaction} {fCheckInputs : Bool} :
    s.Admissible C tx fCheckInputs ↔
      ¬ (!tx.checkTransaction || tx.isCoinBase || tx.isCoinStake || decide (2147483647 < tx.nLockTime)
        || !C.isStandard tx || (s.mempool.mapTx.lookup (C.hashTx tx)).isSome
        || (fCheckInputs && (s.txdb.readTxIndex (C.hashTx tx)).isSome)
        || tx.vin.any fun txin => (s.mempool.mapNextTx.lookup txin.prevout).isSome) = true := by
  simp only [Bool.or_eq_true, Bool.not_eq_true', decide_eq_true_eq, Bool.and_eq_true,
    List.any_eq_true, not_or, not_and, not_exists, Bool.not_eq_true, Bool.not_eq_false, not_lt,
    Option.isSome_eq_false_iff, Option.isNone_iff_eq_none]
  constructor
  · rintro ⟨h₁, h₂, h₃, h₄, h₅, h₆, h₇, h₈⟩
    exact ⟨⟨⟨⟨⟨⟨⟨h₁, h₂⟩, h₃⟩, h₄⟩, h₅⟩, h₆⟩, h₇⟩, h₈⟩
  · rintro ⟨⟨⟨⟨⟨⟨⟨h₁, h₂⟩, h₃⟩, h₄⟩, h₅⟩, h₆⟩, h₇⟩, h₈⟩
    exact ⟨h₁, h₂, h₃, h₄, h₅, h₆, h₇, h₈⟩

theorem acceptToMemoryPool_of_not_admissible {s : NodeState} {tx : CTransaction}
    {fCheckInputs : Bool} (h : ¬ s.Admissible C tx fCheckInputs) :
    s.acceptToMemoryPool C env tx fCheckInputs = (false, false, s) := by
  rw [admissible_iff, not_not] at h
  exact if_pos h

theorem acceptToMemoryPool_of_admissible {s : NodeState} {tx : CTransaction} {fCheckInputs : Bool}
    (h : s.Admissible C tx fCheckInputs) :
    s.acceptToMemoryPool C env tx fCheckInputs =
      let checked := if fCheckInputs then s.checkPoolInputs C env tx else (true, false)
      if checked.1 then
        (true, false, { s with mempool := s.mempool.addUnchecked (C.hashTx tx) tx })
      else (false, checked.2, s) := by
  rw [admissible_iff] at h
  exact if_neg h

/-- A transaction enters the pool iff it passes the tests and, when they are checked, its inputs
do. -/
theorem acceptToMemoryPool_fst_iff {s : NodeState} {tx : CTransaction} {fCheckInputs : Bool} :
    (s.acceptToMemoryPool C env tx fCheckInputs).1 = true ↔
      s.Admissible C tx fCheckInputs ∧
        (fCheckInputs = true → (s.checkPoolInputs C env tx).1 = true) := by
  by_cases h : s.Admissible C tx fCheckInputs
  · rw [acceptToMemoryPool_of_admissible C env h]
    cases fCheckInputs
    · simp [h]
    · by_cases hc : (s.checkPoolInputs C env tx).1 = true <;> simp [h, hc]
  · rw [acceptToMemoryPool_of_not_admissible C env h]
    simp [h]

/-- The node after `accept`: the transaction is in the pool, or nothing changed. -/
theorem acceptToMemoryPool_state (s : NodeState) (tx : CTransaction) (fCheckInputs : Bool) :
    (s.acceptToMemoryPool C env tx fCheckInputs).2.2 =
      if (s.acceptToMemoryPool C env tx fCheckInputs).1 then
        { s with mempool := s.mempool.addUnchecked (C.hashTx tx) tx }
      else s := by
  by_cases h : s.Admissible C tx fCheckInputs
  · rw [acceptToMemoryPool_of_admissible C env h]
    generalize (if fCheckInputs then s.checkPoolInputs C env tx else (true, false)) = checked
    by_cases hc : checked.1 = true <;> simp [hc]
  · rw [acceptToMemoryPool_of_not_admissible C env h]
    simp

/-- `CTxMemPool::accept` only touches the memory pool. -/
theorem exists_mempool_accept (s : NodeState) (tx : CTransaction) (fCheckInputs : Bool) :
    ∃ m, (s.acceptToMemoryPool C env tx fCheckInputs).2.2 = { s with mempool := m } := by
  rw [acceptToMemoryPool_state]
  split
  · exact ⟨_, rfl⟩
  · exact ⟨s.mempool, rfl⟩

end NodeState

end MotaCoin
