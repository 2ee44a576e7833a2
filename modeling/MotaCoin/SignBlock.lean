import Mathlib.Algebra.BigOperators.Intervals
import Mathlib.Algebra.Order.BigOperators.Group.Finset
import MotaCoin.BlockTree
import MotaCoin.KeyStoreRuns
import MotaCoin.MinerRules
import MotaCoin.Staker

/-!
# The block that the proof-of-stake miner signs

The template is no later than the search for a kernel, and the search hits ahead of where it starts. So
the coinstake is later than every transaction of the template: the times that `SignBlock` moves all
become the time of the coinstake, and nothing is erased.

## Main definitions

* `nGenesisTime`, `NodeState.DatedFrom`: the blocks of the tree are not before a time

## Main results

* `acceptBlock_datedFrom`: `AcceptBlock` keeps the blocks after the time of the first one
* `createCoinStake_spec`: a coinstake is one, and its time is ahead of the search
* `withCoinStake_eq`: what is made of a template with a later coinstake
* `signBlock_consistent`: the finished block keeps the proof-of-stake rules
-/

namespace MotaCoin

variable {C : Crypto} {P : KeyCrypto} {env : Env} {s : NodeState} {w : StakeWallet}

/-! ## The times of the tree -/

/-- `nTime` of the genesis block that `LoadBlockIndex` makes. -/
def nGenesisTime : Int := 1521404888

/-- The blocks of the tree are not before a time. -/
def NodeState.DatedFrom (s : NodeState) (nTime : Int) : Prop :=
  ∀ h e, s.mapBlockIndex h = some e → nTime ≤ e.getBlockTime

theorem NodeState.DatedFrom.le_pastTimes {nTime : Int} (h : s.DatedFrom nTime) (n : Nat) :
    ∀ {pindex : CBlockIndex}, nTime ≤ pindex.getBlockTime →
      ∀ t ∈ s.pastTimes n pindex, nTime ≤ t := by
  induction n with
  | zero => exact fun _ _ ht => absurd ht List.not_mem_nil
  | succ n ih =>
    intro pindex hle t ht
    rw [NodeState.pastTimes, List.mem_cons] at ht
    rcases ht with rfl | ht
    · exact hle
    · split at ht
      · cases ht
      · next pprev hprev =>
        obtain ⟨k, -, hk⟩ := Option.bind_eq_some_iff.1 hprev
        exact ih (h k pprev hk) t ht

/-- The median is one of the times, as there is at least one. -/
theorem NodeState.DatedFrom.le_getMedianTimePast {nTime : Int} (h : s.DatedFrom nTime)
    {pindex : CBlockIndex} (hle : nTime ≤ pindex.getBlockTime) :
    nTime ≤ s.getMedianTimePast pindex := by
  rw [NodeState.getMedianTimePast]
  set times := (s.pastTimes 11 pindex).insertionSort (· ≤ ·)
  have hlen : 0 < times.length := by
    rw [List.length_insertionSort, NodeState.pastTimes, List.length_cons]
    exact Nat.succ_pos _
  have hmid : times.length / 2 < times.length := Nat.div_lt_self hlen one_lt_two
  rw [List.getD_eq_getElem?_getD, List.getElem?_eq_getElem hmid, Option.getD_some]
  have hmem := (List.perm_insertionSort (· ≤ ·) (s.pastTimes 11 pindex)).mem_iff.1
    (List.getElem_mem hmid)
  exact h.le_pastTimes 11 hle _ hmem

theorem NodeState.DatedFrom.of_sameIndex {s' : NodeState} {nTime : Int} (h : s.DatedFrom nTime)
    (hsame : SameIndex s s') : s'.DatedFrom nTime := by
  intro k e' he'
  have hsk := hsame.skeleton k
  rw [he', Option.map_some, eq_comm, Option.map_eq_some_iff] at hsk
  obtain ⟨e, he, hskeleton⟩ := hsk
  have hle := h k e he
  rw [CBlockIndex.getBlockTime] at hle ⊢
  rwa [← (CBlockIndex.header_of_skeleton hskeleton).2.1]

/-- A block that passes the rules is after the median time of its parent. -/
theorem NodeState.DatedFrom.le_of_acceptChecks {b : CBlock} {nTime : Int} (h : s.DatedFrom nTime)
    {hashProofOfStake : Uint256} (hchecks : s.acceptChecks C env b = some hashProofOfStake) :
    nTime ≤ b.getBlockTime := by
  rw [NodeState.acceptChecks] at hchecks
  split at hchecks
  · cases hchecks
  · split at hchecks
    · cases hchecks
    · next pindexPrev hprev =>
      simp only at hchecks
      split at hchecks
      · cases hchecks
      · next hheader =>
        simp only [NodeState.checkHeader, Bool.not_eq_true', Bool.not_eq_false, Bool.and_eq_true,
          decide_eq_true_eq] at hheader
        have hmedian := h.le_getMedianTimePast (h _ _ hprev)
        exact hmedian.trans hheader.1.1.2.le

theorem NodeState.DatedFrom.insertIndex {nTime : Int} (h : s.DatedFrom nTime) {e : CBlockIndex}
    (he : nTime ≤ e.getBlockTime) : (s.insertIndex e).DatedFrom nTime := by
  intro k e' he'
  change Function.update s.mapBlockIndex e.hash (some e) k = some e' at he'
  rcases eq_or_ne k e.hash with rfl | hne
  · rw [Function.update_self] at he'
    cases he'
    exact he
  · rw [Function.update_of_ne hne] at he'
    exact h k e' he'

theorem newBlockIndex_nTime {b : CBlock} {nFile nBlockPos : Nat} {hashProofOfStake : Uint256}
    {e : CBlockIndex} (h : s.newBlockIndex C b nFile nBlockPos hashProofOfStake = some e) :
    e.nTime = b.nTime := by
  simp only [NodeState.newBlockIndex] at h
  split at h
  · cases h
  · split at h
    · obtain rfl := Option.some.inj h
      rfl
    · cases h

/-- **`AcceptBlock` keeps the blocks of the tree after a time.** -/
theorem acceptBlock_datedFrom {nTime : Int} (h : s.DatedFrom nTime) (b : CBlock) :
    (s.acceptBlock C env b).2.DatedFrom nTime := by
  rw [NodeState.acceptBlock]
  rcases hchecks : s.acceptChecks C env b with _ | hashProofOfStake
  · exact h
  · rcases env.writeToDisk with _ | ⟨nFile, nBlockPos⟩
    · exact h
    · simp only
      have hwrite : (s.writeBlock b nFile nBlockPos).DatedFrom nTime := h
      have hadd : ((s.writeBlock b nFile nBlockPos).addToBlockIndex C env b nFile nBlockPos
          hashProofOfStake).2.DatedFrom nTime := by
        rcases addToBlockIndex_cases C env (s.writeBlock b nFile nBlockPos) b nFile nBlockPos
          hashProofOfStake with hnone | ⟨e, -, hnew, hindex, -⟩
        · rw [hnone]
          exact hwrite
        · refine NodeState.DatedFrom.of_sameIndex (hwrite.insertIndex ?_) hindex
          rw [CBlockIndex.getBlockTime, newBlockIndex_nTime hnew]
          exact h.le_of_acceptChecks hchecks
      split
      · exact hadd.of_sameIndex (acceptPendingSyncCheckpoint_sameIndex _)
      · exact hadd

/-! ## The search -/

/-- A sum of different distances up to `d`. -/
theorem sum_distances_le {d : Nat} {S : Finset Nat} (hS : ∀ j ∈ S, j ≤ d) :
    ∑ j ∈ S, j ≤ d * (d + 1) / 2 := by
  have hsub : S ⊆ Finset.range (d + 1) := fun j hj => Finset.mem_range.2 (Nat.lt_succ_of_le (hS j hj))
  calc ∑ j ∈ S, j ≤ ∑ j ∈ Finset.range (d + 1), j :=
        Finset.sum_le_sum_of_subset hsub
    _ = d * (d + 1) / 2 := by rw [Finset.sum_range_id, Nat.add_sub_cancel, Nat.mul_comm]

/-- **Where the search hits**: ahead of where it starts, as a word. -/
theorem searchStakeKernelHash_ahead {nBits : Nat} {blockFrom : CBlock} {nTxPrevOffset : Nat}
    {txPrev : CTransaction} {prevout : COutPoint} {nTimeTx nHashDrift : Nat}
    {hashProofOfStake : Uint256} (htime : nTimeTx < 2 ^ 32)
    (h : (s.searchStakeKernelHash C nBits blockFrom nTxPrevOffset txPrev prevout nTimeTx nHashDrift
      hashProofOfStake).fSuccess = true) :
    ∃ d, 0 < d ∧ d ≤ nHashDrift * (nHashDrift + 1) / 2 ∧
      (s.searchStakeKernelHash C nBits blockFrom nTxPrevOffset txPrev prevout nTimeTx nHashDrift
        hashProofOfStake).nTimeTx = (nTimeTx + d) % 2 ^ 32 := by
  obtain ⟨hold, hage, nStakeModifier, txout, hmodifier, hout⟩ :=
    NodeState.searchStakeKernelHash_cases h
  rw [NodeState.searchStakeKernelHash_eq hold hage hmodifier hout] at h ⊢
  obtain ⟨S, hS⟩ := NodeState.exists_hitDistances
    (NodeState.kernelHash C nStakeModifier blockFrom nTxPrevOffset txPrev prevout)
    (NodeState.kernelHit nBits txPrev txout) nTimeTx nHashDrift
  obtain ⟨hend, hfound, -⟩ := @NodeState.searchFrom_eq _ _ nTimeTx nHashDrift S hS nHashDrift
    ⟨false, nTimeTx, hashProofOfStake⟩ le_rfl (hS.start htime) hS.none_above
  refine ⟨∑ j ∈ S, j, ?_, sum_distances_le fun j hj => ((hS j).1 hj).2.1, hend⟩
  obtain ⟨i, hi⟩ := hfound.1 h
  exact Finset.sum_pos (fun j hj => ((hS j).1 hj).1) ⟨i, hi⟩

/-! ## The coinstake -/

namespace StakeWallet

/-- The time of a kernel is ahead of the time the coinstake was made at. -/
theorem findKernel_ahead {nBits nTime : Nat} (htime : nTime < 2 ^ 32) {setCoins : List StakeCoin}
    {kernel : StakeKernel} (h : w.findKernel C P env s nBits nTime setCoins = some kernel) :
    ∃ d, 0 < d ∧ d ≤ 1830 ∧ kernel.nTime = (nTime + d) % 2 ^ 32 := by
  induction setCoins with
  | nil => cases h
  | cons coin setCoins ih =>
    rw [findKernel] at h
    split at h
    · exact ih h
    · split at h
      · exact ih h
      · split at h
        · exact ih h
        · simp only at h
          split at h
          · exact ih h
          · next hmiss =>
            obtain ⟨⟨key, scriptPubKeyOut⟩, -, rfl⟩ := Option.map_eq_some_iff.1 h
            rw [Bool.not_eq_true', Bool.not_eq_false] at hmiss
            obtain ⟨d, hpos, hle, heq⟩ := searchStakeKernelHash_ahead htime hmiss
            refine ⟨d, hpos, hle.trans ?_, heq⟩
            have hdrift := w.nHashDrift_le
            calc w.nHashDrift * (w.nHashDrift + 1) / 2 ≤ 60 * (60 + 1) / 2 :=
                  Nat.div_le_div_right (Nat.mul_le_mul hdrift (Nat.succ_le_succ hdrift))
              _ = 1830 := rfl

/-- The inputs that are added come after the ones there are. -/
theorem addInputs_vin (kernel : StakeKernel) (nLimit : Int) (setCoins : List StakeCoin) :
    ∀ inputs : Inputs, ∃ vin,
      (w.addInputs C kernel nLimit setCoins inputs).vin = inputs.vin ++ vin := by
  induction setCoins with
  | nil => exact fun inputs => ⟨[], (List.append_nil _).symm⟩
  | cons coin setCoins ih =>
    intro inputs
    rw [addInputs]
    split
    · dsimp only
      split_ifs
      · exact ⟨[], (List.append_nil _).symm⟩
      · exact ⟨[], (List.append_nil _).symm⟩
      · exact ⟨[], (List.append_nil _).symm⟩
      · exact ih inputs
      · exact ih inputs
      · obtain ⟨vin, hvin⟩ := ih {
          vin := inputs.vin ++ [⟨coin.prevout C, [], 4294967295⟩]
          nCredit := Int64.wrap (inputs.nCredit + coin.txout.nValue)
          vwtxPrev := inputs.vwtxPrev ++ [coin.pcoin] }
        exact ⟨_, hvin.trans (List.append_assoc _ _ _)⟩
    · exact ih inputs

/-- Signing changes the input scripts and nothing else. -/
theorem signInputs_spec {vwtxPrev : List CTransaction} :
    ∀ {nIn : Nat} {tx tx' : CTransaction}, w.signInputs vwtxPrev nIn tx = some tx' →
      tx'.nTime = tx.nTime ∧ tx'.vout = tx.vout ∧
        tx'.vin.map CTxIn.prevout = tx.vin.map CTxIn.prevout := by
  induction vwtxPrev with
  | nil =>
    intro nIn tx tx' h
    obtain rfl := Option.some.inj h
    exact ⟨rfl, rfl, rfl⟩
  | cons pcoin vwtxPrev ih =>
    intro nIn tx tx' h
    rw [signInputs] at h
    split at h
    · cases h
    · next scriptSig hsign =>
      obtain ⟨htime, hvout, hvin⟩ := ih h
      refine ⟨htime, hvout, hvin.trans ?_⟩
      apply List.ext_getElem?
      intro i
      rw [List.getElem?_map, List.getElem?_map, List.getElem?_modify]
      cases tx.vin[i]? with
      | none => rfl
      | some txin =>
        change some (CTxIn.prevout (if nIn = i then _ else txin)) = some txin.prevout
        split <;> rfl

/-- The first output is the mark of a coinstake, and it is not the only one. -/
theorem setAmounts_kernelOutputs (kernel : StakeKernel) (nCredit : Int) :
    ∃ txout vout, setAmounts nCredit (w.kernelOutputs kernel) = CTxOut.empty :: txout :: vout := by
  rw [kernelOutputs]
  split
  · exact ⟨_, _, rfl⟩
  · exact ⟨_, _, rfl⟩

/-- The index of a coin is not the one of a null outpoint. -/
theorem prevout_isNull (coin : StakeCoin) : (coin.prevout C).isNull = false := by
  have hn := coin.n_lt
  have hne : coin.n ≠ 4294967295 := by omega
  rw [StakeCoin.prevout, COutPoint.isNull, beq_false_of_ne hne, Bool.and_false]

theorem isCoinStake_of_head {tx : CTransaction} {prevout : COutPoint} {prevouts : List COutPoint}
    {txout : CTxOut} {vout : List CTxOut} (hvin : tx.vin.map CTxIn.prevout = prevout :: prevouts)
    (hnull : prevout.isNull = false) (hvout : tx.vout = CTxOut.empty :: txout :: vout) :
    tx.isCoinStake = true := by
  obtain ⟨txin, vin, htx, rfl, -⟩ := List.map_eq_cons_iff.1 hvin
  rw [CTransaction.isCoinStake, htx, hvout]
  dsimp only
  rw [hnull]
  rfl

/-- **What `CreateCoinStake` makes** is a coinstake, with a time ahead of the one it was made at. -/
theorem createCoinStake_spec {pindexBest : CBlockIndex} {nBits nTime : Nat} {nFees : Int}
    {txCoinStake : CTransaction} {key : PrivateKey} (htime : nTime < 2 ^ 32)
    (h : w.createCoinStake C P env s pindexBest nBits nFees nTime = some (txCoinStake, key)) :
    txCoinStake.isCoinStake = true ∧
      ∃ d, 0 < d ∧ d ≤ 1830 ∧ txCoinStake.nTime = (nTime + d) % 2 ^ 32 := by
  rw [createCoinStake] at h
  split at h
  · cases h
  · simp only [Option.ite_none_left_eq_some] at h
    obtain ⟨-, h⟩ := h
    split at h
    · cases h
    · next kernel hkernel =>
      simp only [Option.ite_none_left_eq_some] at h
      obtain ⟨-, h⟩ := h
      split at h
      · cases h
      · simp only [Option.ite_none_left_eq_some] at h
        obtain ⟨-, h⟩ := h
        split at h
        · cases h
        · next txNew hsign =>
          obtain ⟨-, h⟩ := Option.ite_none_left_eq_some.1 h
          obtain ⟨rfl, rfl⟩ := Prod.mk.inj (Option.some.inj h)
          obtain ⟨htx, hvout, hvin⟩ := signInputs_spec hsign
          refine ⟨?_, htx ▸ findKernel_ahead htime hkernel⟩
          obtain ⟨txout, vout, hout⟩ := setAmounts_kernelOutputs (w := w) kernel _
          obtain ⟨vin, hadded⟩ := addInputs_vin (C := C) (w := w) kernel _ _ _
          rw [hadded, List.singleton_append, List.map_cons] at hvin
          exact isCoinStake_of_head hvin (prevout_isNull kernel.coin) (hvout.trans hout)

end StakeWallet

/-! ## The times of the block -/

theorem foldl_max_eq {vtx : List CTransaction} {t : Int} (h : ∀ tx ∈ vtx, (tx.nTime : Int) ≤ t) :
    vtx.foldl (fun (maxTransactionTime : Int) (tx : CTransaction) =>
      max maxTransactionTime tx.nTime) t = t := by
  induction vtx with
  | nil => rfl
  | cons tx vtx ih =>
    rw [List.foldl_cons, max_eq_left (h tx List.mem_cons_self)]
    exact ih fun tx' htx' => h tx' (List.mem_cons_of_mem _ htx')

/-- The coinbase is as late as any other transaction. -/
theorem getMaxTransactionTime_eq {b : CBlock} {coinbase : CTransaction} {rest : List CTransaction}
    {nTime : Nat} (hvtx : b.vtx = coinbase :: rest) (hcoinbase : coinbase.nTime = nTime)
    (h : ∀ tx ∈ rest, tx.nTime ≤ nTime) : b.getMaxTransactionTime = nTime := by
  rw [CBlock.getMaxTransactionTime, hvtx, List.foldl_cons, max_eq_right (Int.natCast_nonneg _),
    hcoinbase]
  exact foldl_max_eq fun tx htx => Int.ofNat_le.2 (h tx htx)

theorem withTime_natCast {b : CBlock} {nTime : Nat} (h : nTime < 2 ^ 32) :
    b.withTime nTime = { b with nTime := nTime } := by
  have heq : ((nTime : Int) % 2 ^ 32).toNat = nTime := by omega
  rw [CBlock.withTime, heq]

/-- **A template with a later coinstake**: the times become the one of the coinstake, which comes after
the coinbase, and nothing is erased. -/
theorem withCoinStake_eq {pindexBest : CBlockIndex} {txCoinStake : CTransaction} {b : CBlock}
    {coinbase : CTransaction} {rest : List CTransaction} (hvtx : b.vtx = coinbase :: rest)
    (hrest : ∀ tx ∈ rest, tx.nTime ≤ txCoinStake.nTime) (htime : txCoinStake.nTime < 2 ^ 32)
    (hpast : s.getMedianTimePast pindexBest + 1 ≤ txCoinStake.nTime)
    (hbest : pindexBest.getBlockTime - getClockDrift pindexBest.getBlockTime ≤ txCoinStake.nTime) :
    let vtx := { coinbase with nTime := txCoinStake.nTime } :: txCoinStake :: rest
    b.withCoinStake C s pindexBest txCoinStake =
      { b with
        nTime := txCoinStake.nTime
        vtx := vtx
        hashMerkleRoot := merkleRootFrom C vtx.length (vtx.map C.hashTx) } := by
  have hmax : CBlock.getMaxTransactionTime { b with
      nTime := txCoinStake.nTime
      vtx := { coinbase with nTime := txCoinStake.nTime } :: rest } = txCoinStake.nTime :=
    getMaxTransactionTime_eq rfl rfl hrest
  have hkeep : ({ coinbase with nTime := txCoinStake.nTime } :: rest).filter
      (fun (tx : CTransaction) => !decide (txCoinStake.nTime < tx.nTime)) =
        { coinbase with nTime := txCoinStake.nTime } :: rest := by
    refine List.filter_eq_self.2 fun tx htx => ?_
    rw [Bool.not_eq_true', decide_eq_false_iff_not, not_lt]
    rcases List.mem_cons.1 htx with rfl | htx
    · exact le_rfl
    · exact hrest tx htx
  rw [CBlock.withCoinStake]
  simp only [hvtx, List.modifyHead_cons, hmax, max_eq_right hpast, withTime_natCast htime,
    CBlock.getBlockTime, max_eq_left hbest, hkeep]
  rfl

/-! ## The finished block -/

/-- The template: two empty outputs in the coinbase, and transactions no later than it which are
neither a coinbase nor a coinstake. -/
theorem createStakeTemplate_spec {m : Miner} {COINBASE_FLAGS : CScript} {b : CBlock} {nFees : Int}
    (h : s.createStakeTemplate C env m COINBASE_FLAGS = some (b, nFees)) :
    ∃ coinbase rest, b.vtx = coinbase :: rest ∧ coinbase.vout = [CTxOut.empty, CTxOut.empty] ∧
      ∀ tx ∈ rest, tx.nTime ≤ env.transactionTime ∧ tx.isCoinBase = false ∧
        tx.isCoinStake = false := by
  rw [NodeState.createStakeTemplate] at h
  split at h
  · cases h
  · next pindexPrev hbest =>
    obtain ⟨-, h⟩ := Option.ite_none_left_eq_some.1 h
    obtain ⟨t, ht, hb⟩ := Option.map_eq_some_iff.1 h
    obtain ⟨rfl, -⟩ := Prod.mk.inj hb
    refine ⟨_, t.vtx, rfl, rfl, ?_⟩
    refine collectTxs_of_rounds (P := fun t => ∀ tx ∈ t.vtx, tx.nTime ≤ env.transactionTime ∧
      tx.isCoinBase = false ∧ tx.isCoinStake = false) (fun tx htx t t' hP hround => ?_)
      (fun tx htx => absurd htx List.not_mem_nil) ht
    rcases collectTx_cases hround with rfl | ⟨_, _, _, _, htaken⟩
    · exact hP
    · rw [htaken.result]
      intro tx' htx'
      rcases List.mem_append.1 htx' with htx' | htx'
      · exact hP tx' htx'
      · obtain rfl := List.mem_singleton.1 htx'
        obtain ⟨hqueue, htimely⟩ := List.mem_filter.1 htx
        have hcand := (List.mem_filter.1 (m.mem_order hqueue)).2
        simp only [Bool.and_eq_true, Bool.not_eq_true'] at hcand
        rw [Bool.not_eq_true', decide_eq_false_iff_not, not_lt] at htimely
        exact ⟨htimely, hcand.1.1.1, hcand.1.1.2⟩

/-- A signed block that was no proof-of-stake block before has a coinstake, which is not before the
limits of its parent. -/
theorem signBlock_eq_true {b b' : CBlock} {nFees nLastCoinStakeSearchTime : Int}
    (hwork : b.isProofOfStake = false)
    (hsign : b.signBlock C P env s w nFees nLastCoinStakeSearchTime = some (true, b')) :
    ∃ pindexBest txCoinStake key vchBlockSig, s.best = some pindexBest ∧
      w.createCoinStake C P env s pindexBest b.nBits nFees env.transactionTime =
        some (txCoinStake, key) ∧
      s.getMedianTimePast pindexBest + 1 ≤ txCoinStake.nTime ∧
      pindexBest.getBlockTime - getClockDrift pindexBest.getBlockTime ≤ txCoinStake.nTime ∧
      b' = { b.withCoinStake C s pindexBest txCoinStake with vchBlockSig := vchBlockSig } := by
  rw [CBlock.signBlock] at hsign
  split at hsign
  · next txout pindexBest htxout hbest =>
    split at hsign
    · cases hsign
    · rw [hwork, if_neg Bool.false_ne_true] at hsign
      dsimp only at hsign
      split at hsign
      · cases hsign
      · split at hsign
        · cases hsign
        · next txCoinStake key hcoinstake =>
          split at hsign
          · cases hsign
          · next hlimits =>
            obtain ⟨hpast, hdrift⟩ := max_le_iff.1 (not_lt.1 hlimits)
            split at hsign
            · cases hsign
            · next vchBlockSig _ =>
              obtain ⟨-, rfl⟩ := Prod.mk.inj (Option.some.inj hsign)
              exact ⟨pindexBest, txCoinStake, key, vchBlockSig, hbest, hcoinstake, hpast, hdrift, rfl⟩
  · cases hsign

theorem best_mem {pindexBest : CBlockIndex} (h : s.best = some pindexBest) :
    ∃ k, s.mapBlockIndex k = some pindexBest :=
  (Option.bind_eq_some_iff.1 h).imp fun _ => And.right

/-- **`SignBlock` makes a block that keeps the proof-of-stake rules**: of a template made no later than
the call, with whatever coins and keys the wallet has and wherever the tip is by then. -/
theorem signBlock_consistent {s₀ : NodeState} {env₀ : Env} {m : Miner} {COINBASE_FLAGS : CScript}
    {b b' : CBlock} {nFees nLastCoinStakeSearchTime : Int} (hdated : s.DatedFrom nGenesisTime)
    (hcreate : s₀.createStakeTemplate C env₀ m COINBASE_FLAGS = some (b, nFees))
    (hclock : env₀.transactionTime ≤ env.transactionTime)
    (hsign : b.signBlock C P env s w nFees nLastCoinStakeSearchTime = some (true, b')) :
    b'.checkStake C false = true ∧ b'.hashMerkleRoot = b'.buildMerkleTree C ∧
      (∀ tx ∈ b'.vtx, tx.nTime ≤ b'.nTime) ∧
      ∃ coinbase coinstake rest, b'.vtx = coinbase :: coinstake :: rest ∧
        coinbase.vout = [CTxOut.empty, CTxOut.empty] ∧ b'.nTime = coinstake.nTime ∧
          b'.getBlockTime ≤ coinbase.nTime + getClockDrift coinbase.nTime := by
  obtain ⟨coinbase, rest, hvtx, hvout, hrest⟩ := createStakeTemplate_spec hcreate
  have hwork : b.isProofOfStake = false := by
    rw [CBlock.isProofOfStake, hvtx]
    cases rest with
    | nil => rfl
    | cons tx rest => exact (hrest tx List.mem_cons_self).2.2
  obtain ⟨pindexBest, txCoinStake, key, vchBlockSig, hbest, hcoinstake, hpast, hdrift, rfl⟩ :=
    signBlock_eq_true hwork hsign
  have hfits : env.transactionTime < 2 ^ 32 := by
    rw [Env.transactionTime]
    omega
  obtain ⟨hstake, d, hpos, hle, htime⟩ := StakeWallet.createCoinStake_spec hfits hcoinstake
  obtain ⟨k, hk⟩ := best_mem hbest
  have hgenesis := hdated.le_getMedianTimePast (hdated k _ hk)
  -- A search that wraps would hit within half an hour of 1970, and the tip is later than that.
  have hahead : env.transactionTime < txCoinStake.nTime := by
    rw [nGenesisTime] at hgenesis
    omega
  have hlate : ∀ tx ∈ rest, tx.nTime ≤ txCoinStake.nTime := fun tx htx =>
    (hrest tx htx).1.trans (hclock.trans hahead.le)
  have hword : txCoinStake.nTime < 2 ^ 32 := by omega
  rw [withCoinStake_eq hvtx hlate hword hpast hdrift]
  refine ⟨?_, rfl, ?_, _, _, _, rfl, hvout, rfl, ?_⟩
  · have hothers : rest.all (fun tx => !tx.isCoinStake) = true :=
      List.all_eq_true.2 fun tx htx => by rw [(hrest tx htx).2.2, Bool.not_false]
    simp only [CBlock.checkStake, hvout, hstake, hothers, CBlock.getBlockTime]
    rw [checkCoinStakeTimestamp, beq_self_eq_true]
    rfl
  · intro tx htx
    rcases List.mem_cons.1 htx with rfl | htx
    · exact le_rfl
    · rcases List.mem_cons.1 htx with rfl | htx
      · exact le_rfl
      · exact hlate tx htx
  · simp only [CBlock.getBlockTime, getClockDrift]
    split <;> omega

/-! ## A wallet with one coin -/

/-- The public key of the coin. -/
def stakePubKey : Valtype := List.replicate 33 2

/-- The transaction of the coin, worth a thousand coins. -/
def stakedTx : CTransaction :=
  ⟨1, 1521404888, [], [⟨1000 * COIN, pushData stakePubKey ++ ofOpcode OP_CHECKSIG⟩], 0⟩

/-- The block of the coin. -/
def stakedBlock : CBlock where
  nVersion := 1
  hashPrevBlock := 0
  hashMerkleRoot := 0
  nTime := 1521404888
  nBits := 0x1e0fffff
  nNonce := 0
  vtx := [stakedTx]
  vchBlockSig := []

noncomputable def stakedCrypto : Crypto := labelCrypto [stakedTx] [stakedBlock.getBlockHeader]

/-- The block of the coin, and a block after it with a modifier. -/
noncomputable def stakedNode : NodeState :=
  let stored := storedNode stakedCrypto [⟨stakedBlock, 0, 1⟩]
  let entry := storedEntry stakedCrypto 0 ⟨stakedBlock, 0, 1⟩
  { stored with
    mapBlockIndex := fun h =>
      if h = 1 then some { entry with pnext := some 2 }
      else if h = 2 then
        some { entry with
          hash := 2
          pprev := some 1
          nHeight := 1
          nTime := 1521434888
          nFlags := 5
          nStakeModifier := 5 }
      else none
    pindexBest := some 2
    nBestHeight := 1
    txdb := ⟨fun
      | .tx 1 => some (CTxIndex.fresh ⟨1, 8, 89⟩ 1)
      | _ => none, none⟩ }

/-- A clock two days later. -/
def stakedEnv : Env := { tallEnv with adjustedTime := 1521604888 }

/-- The wallet of the coin, which tries one time. -/
def stakedWallet : StakeWallet where
  nBalance := 1000 * COIN
  nReserveBalance := some 0
  selectCoinsSimple _ _ := [⟨stakedTx, 0, _, rfl, by decide⟩]
  getKey _ := some ⟨⟨.secret (List.replicate 32 1), true, true, true⟩, List.replicate 32 1, rfl, rfl, rfl⟩
  signSignature _ _ _ := some [1]
  sign _ _ := some [1]
  nHashDrift := 1
  nHashDrift_le := by decide
  nStakeSplitThreshold := 1000
  nCombineThreshold := 100 * COIN

/-- Its public key. -/
def stakedKeys : KeyCrypto := { boxCrypto with pubKey := fun _ _ => stakePubKey }

theorem stakedNode_datedFrom : stakedNode.DatedFrom nGenesisTime := by
  intro h e he
  change (if h = 1 then _ else if h = 2 then _ else none) = some e at he
  split at he
  · cases he
    decide
  · split at he
    · cases he
      decide
    · cases he

/-- The template on the tip is signed, and the block keeps the rules. -/
theorem signBlock_consistent_oneCoin :
    ∃ b b' nFees, stakedNode.createStakeTemplate stakedCrypto stakedEnv sampleMiner [] =
        some (b, nFees) ∧
      b.signBlock stakedCrypto stakedKeys stakedEnv stakedNode stakedWallet nFees 0 =
        some (true, b') ∧ b'.checkStake stakedCrypto false = true := by
  have hrun : ((stakedNode.createStakeTemplate stakedCrypto stakedEnv sampleMiner []).bind fun r =>
      (r.1.signBlock stakedCrypto stakedKeys stakedEnv stakedNode stakedWallet r.2 0).map
        Prod.fst) = some true := by decide +kernel
  obtain ⟨⟨b, nFees⟩, hcreate, hsigned⟩ := Option.bind_eq_some_iff.1 hrun
  obtain ⟨⟨fSigned, b'⟩, hsign, rfl⟩ := Option.map_eq_some_iff.1 hsigned
  exact ⟨b, b', nFees, hcreate, hsign,
    (signBlock_consistent stakedNode_datedFrom hcreate le_rfl hsign).1⟩

end MotaCoin
