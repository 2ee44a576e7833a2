import MotaCoin.Consistency
import MotaCoin.Inflation
import MotaCoin.StakeReward

/-!
# The reward rules of AcceptBlock and ConnectBlock

Three places bound what a block may create: the aggregate rule of `AcceptBlock`, by the
proof-of-work subsidy of the height of the block, whatever its kind; the coinbase limit of
`ConnectBlock`, by the subsidy of the height of the tip at that moment; and its coinstake limit, by
the coin age. This module says when they agree.

## Main definitions

* `Resolves`: the inputs of a transaction are found in the active index
* `SpendsIndexed`: a transaction connects to the active index alone

## Main results

* `accepted_iff_of_resolves`: the aggregate rule for a block whose inputs are found
* `checkCoinbaseReward_congr_iff`: when the coinbase limit is the same in two states
* `checkAggregate_iff_stakeGain`: when the aggregate rule lets a proof-of-stake block through
-/

namespace MotaCoin

variable {C : Crypto} {env : Env}

/-! ## Blocks whose inputs are found -/

/-- The value in of a transaction as the aggregate rule finds it. -/
def CTransaction.activeValueIn (src : Sources) (tx : CTransaction) : Int :=
  (tx.getValueMapIn (tx.getMapTxInputs src true false).2).getD 0

/-- The inputs of a transaction are found in the active index, and its values are amounts of
money. -/
structure Resolves (src : Sources) (tx : CTransaction) : Prop where
  mapped : (tx.getMapTxInputs src true false).1 = true
  valueIn : tx.getValueMapIn (tx.getMapTxInputs src true false).2 = some (tx.activeValueIn src)
  valueOut : tx.getValueOut = some tx.valueOut
  rangeIn : moneyRange (tx.activeValueIn src) = true

theorem Resolves.rangeOut {src : Sources} {tx : CTransaction} (h : Resolves src tx) :
    moneyRange tx.valueOut = true := (CTransaction.getValueOut_eq h.valueOut).2

/-- The sums of values in and out over transactions. -/
def totalIn (src : Sources) (vtx : List CTransaction) : Int :=
  (vtx.map (CTransaction.activeValueIn src)).sum

/-- The sum of the values out over transactions. -/
def totalOut (vtx : List CTransaction) : Int := (vtx.map CTransaction.valueOut).sum

section Resolved

variable {src : Sources} {vtx : List CTransaction}

theorem totals_nonneg (h : ∀ tx ∈ vtx, Resolves src tx) : 0 ≤ totalIn src vtx ∧ 0 ≤ totalOut vtx := by
  constructor
  · refine List.sum_nonneg fun v hv => ?_
    obtain ⟨tx, htx, rfl⟩ := List.mem_map.mp hv
    exact (moneyRange_iff.mp (h tx htx).rangeIn).1
  · refine List.sum_nonneg fun v hv => ?_
    obtain ⟨tx, htx, rfl⟩ := List.mem_map.mp hv
    exact (moneyRange_iff.mp (h tx htx).rangeOut).1

/-- The loop of the aggregate rule over found inputs: its overflow tests catch exactly the sums
that leave 63 bits. -/
theorem aggregateFrom_of_resolves (h : ∀ tx ∈ vtx, Resolves src tx) :
    ∀ {i o : Int}, 0 ≤ i → i < 2 ^ 63 → 0 ≤ o → o < 2 ^ 63 → aggregateFrom src vtx i o =
      if i + totalIn src vtx < 2 ^ 63 ∧ o + totalOut vtx < 2 ^ 63
        then .totals (i + totalIn src vtx) (o + totalOut vtx) else .rejected := by
  induction vtx with
  | nil =>
    intro i o _ hi _ ho
    rw [aggregateFrom, if_pos]
    · simp [totalIn, totalOut]
    · simpa [totalIn, totalOut] using ⟨hi, ho⟩
  | cons tx vtx ih =>
    intro i o hi hi' ho ho'
    have htx := h tx List.mem_cons_self
    have hrest : ∀ tx ∈ vtx, Resolves src tx := fun tx' h' => h tx' (List.mem_cons_of_mem _ h')
    obtain ⟨hin, hin'⟩ := moneyRange_iff.mp htx.rangeIn
    obtain ⟨hout, hout'⟩ := moneyRange_iff.mp htx.rangeOut
    obtain ⟨hIn, hOut⟩ := totals_nonneg hrest
    have htotalIn : totalIn src (tx :: vtx) = tx.activeValueIn src + totalIn src vtx := rfl
    have htotalOut : totalOut (tx :: vtx) = tx.valueOut + totalOut vtx := rfl
    rw [aggregateFrom, htx.mapped, htx.valueIn, htx.valueOut, htotalIn, htotalOut]
    simp only [Bool.not_true, Bool.false_eq_true, if_false]
    have hwrap : ∀ {x v : Int}, 0 ≤ x → x < 2 ^ 63 → 0 ≤ v → v ≤ 9000000000000000 →
        (Int64.wrap (x + v) < 0 ∧ 2 ^ 63 ≤ x + v) ∨
          (Int64.wrap (x + v) = x + v ∧ x + v < 2 ^ 63) := by
      intro x v _ _ _ _
      unfold Int64.wrap
      omega
    rcases hwrap hi hi' hin hin' with ⟨hneg, hbig⟩ | ⟨hword, hsmall⟩
    · rw [if_pos hneg, if_neg (by omega)]
    · rw [hword, if_neg (by omega)]
      rcases hwrap ho ho' hout hout' with ⟨hneg, hbig⟩ | ⟨hword', hsmall'⟩
      · rw [if_pos hneg, if_neg (by omega)]
      · rw [hword', if_neg (by omega), ih hrest (by omega) hsmall (by omega) hsmall']
        simp only [add_assoc]

/-- **The aggregate rule over found inputs**: the inputs and the subsidy fit in 63 bits and cover
the outputs. -/
theorem accepted_iff_of_resolves (h : ∀ tx ∈ vtx, Resolves src tx) (nHeight : Nat) :
    (aggregateFrom src vtx 0 0).accepted nHeight = true ↔
      totalIn src vtx + getProofOfWorkSubsidy nHeight < 2 ^ 63 ∧
        totalOut vtx ≤ totalIn src vtx + getProofOfWorkSubsidy nHeight := by
  obtain ⟨hIn, hOut⟩ := totals_nonneg h
  obtain ⟨hR, hR'⟩ := getProofOfWorkSubsidy_bounds nHeight
  unfold COIN at hR'
  rw [aggregateFrom_of_resolves h le_rfl (by decide) le_rfl (by decide)]
  simp only [zero_add]
  split
  · next hfit =>
    rw [Aggregate.accepted, getProofOfWorkReward_zero, decide_eq_true_eq]
    unfold Int64.wrap
    omega
  · next hbig =>
    rw [Aggregate.accepted]
    simp only [Bool.false_eq_true, false_iff]
    omega

end Resolved

/-! ## Transactions that connect to the active index -/

theorem Resolves.of_isCoinBase {src : Sources} {tx : CTransaction} (hcb : tx.isCoinBase = true)
    (hout : tx.getValueOut.isSome) : Resolves src tx := by
  obtain ⟨v, hv⟩ := Option.isSome_iff_exists.mp hout
  have hmap : (tx.getMapTxInputs src true false).1 = true := by
    simp [CTransaction.getMapTxInputs, CTransaction.fetchInputs, hcb]
  have hin : ∀ inputs, tx.getValueMapIn inputs = some 0 := fun inputs => by
    rw [CTransaction.getValueMapIn, if_pos hcb]
  have hval : tx.activeValueIn src = 0 := by rw [CTransaction.activeValueIn, hin, Option.getD_some]
  refine ⟨hmap, by rw [hin, hval], ?_, by rw [hval]; rfl⟩
  rw [hv, (CTransaction.getValueOut_eq hv).1]
  rfl

/-- The first loop of `ConnectInputs` sums what `GetValueMapIn` sums. -/
theorem checkInputs_eq_some {ctx : CTransaction.ConnectCtx} {tx : CTransaction}
    {inputs : MapPrevTx} {vin : List CTxIn} :
    ∀ {n v : Int}, moneyRange n = true → CTransaction.checkInputs ctx tx inputs n vin = some v →
      CTransaction.getValueMapInFrom inputs n vin = some v ∧ moneyRange v = true := by
  induction vin with
  | nil =>
    intro n v hn h
    obtain rfl := Option.some.inj h
    exact ⟨rfl, hn⟩
  | cons txin vin ih =>
    intro n v hn h
    rw [CTransaction.checkInputs] at h
    split at h
    · cases h
    · next txindex txPrev hprev =>
      split at h
      · cases h
      · next txout hout =>
        dsimp only at h
        split_ifs at h with h₁ h₂ h₃ h₄
        have hrange : moneyRange (Int64.wrap (n + txout.nValue)) = true := by
          simp only [Bool.or_eq_true, Bool.not_eq_true', not_or, Bool.not_eq_false] at h₄
          exact h₄.2
        have hget : CTransaction.getOutputFor txin inputs = some txout := by
          simp [CTransaction.getOutputFor, hprev, hout]
        rw [CTransaction.getValueMapInFrom, hget]
        exact ih hrange h

/-- What `ConnectInputs` checked of a transaction other than a coinbase: the values of its inputs
add up to an amount of money, which covers its outputs unless it is a coinstake. -/
theorem connectInputs_eq_some {ctx : CTransaction.ConnectCtx} {tx : CTransaction}
    {inputs : MapPrevTx} {q q' : TxIndexQueue} {pos : CDiskTxPos} {fBlock fMiner : Bool}
    (hcb : tx.isCoinBase = false)
    (h : tx.connectInputs C ctx inputs q pos fBlock fMiner = some q') :
    ∃ v, tx.getValueMapIn inputs = some v ∧ moneyRange v = true ∧
      (tx.isCoinStake = false → tx.checkFees v = true) := by
  simp only [CTransaction.connectInputs, hcb, Bool.false_eq_true, if_false] at h
  split at h
  · cases h
  · next v hcheck =>
    obtain ⟨hin, hrange⟩ := checkInputs_eq_some (by decide) hcheck
    refine ⟨v, by rw [CTransaction.getValueMapIn, hcb]; exact hin, hrange, fun hstake => ?_⟩
    split at h
    · cases h
    · cases hfees : tx.checkFees v with
      | true => rfl
      | false =>
        rw [hstake, hfees] at h
        cases h

/-- A transaction connects to the active index alone: its inputs are fetched there, and
`ConnectInputs` takes them. -/
structure SpendsIndexed (C : Crypto) (src : Sources) (ctx : CTransaction.ConnectCtx)
    (tx : CTransaction) : Prop where
  fetched : (tx.fetchInputs src ∅ true false).ok = true
  connected : ∃ pos, (tx.connectInputs C ctx (tx.fetchInputs src ∅ true false).inputsRet ∅ pos true
    false).isSome = true
  valueOut : tx.getValueOut.isSome = true

theorem SpendsIndexed.resolves {src : Sources} {ctx : CTransaction.ConnectCtx} {tx : CTransaction}
    (h : SpendsIndexed C src ctx tx) : Resolves src tx := by
  cases hcb : tx.isCoinBase with
  | true => exact Resolves.of_isCoinBase hcb h.valueOut
  | false =>
    have hmap : tx.getMapTxInputs src true false =
        (true, (tx.fetchInputs src ∅ true false).inputsRet) := by
      simp [CTransaction.getMapTxInputs, h.fetched]
    obtain ⟨pos, hconnect⟩ := h.connected
    obtain ⟨q, hq⟩ := Option.isSome_iff_exists.mp hconnect
    obtain ⟨v, hin, hrange, -⟩ := connectInputs_eq_some hcb hq
    have hval : tx.activeValueIn src = v := by
      rw [CTransaction.activeValueIn, hmap, hin, Option.getD_some]
    obtain ⟨w, hw⟩ := Option.isSome_iff_exists.mp h.valueOut
    refine ⟨by rw [hmap], by rw [hmap, hin, hval], ?_, by rw [hval]; exact hrange⟩
    rw [hw, (CTransaction.getValueOut_eq hw).1]
    rfl

/-! ## The coinbase limit -/

theorem getValueOut_heightCoinbase {nHeight nTime : Nat} {nValue : Int}
    (h : moneyRange nValue = true) :
    (heightCoinbase nHeight nTime nValue).getValueOut = some nValue := by
  have hword : Int64.wrap nValue = nValue := by
    apply Int64.wrap_eq_self
    have := moneyRange_iff.mp h
    unfold Int64.InRange
    omega
  simp [CTransaction.getValueOut, CTransaction.getValueOutFrom, heightCoinbase, h, hword]

theorem subsidy_le_of_checkCoinbaseReward {s₁ s₂ : NodeState} {e₁ e₂ : CBlockIndex}
    (h₁ : s₁.best = some e₁) (h₂ : s₂.best = some e₂)
    (h : ∀ (b : CBlock) (nFees : Int), b.isProofOfWork = true →
      s₂.checkCoinbaseReward b nFees = true → s₁.checkCoinbaseReward b nFees = true) :
    getProofOfWorkSubsidy e₂.nHeight ≤ getProofOfWorkSubsidy e₁.nHeight := by
  -- a coinbase that pays all that the second state allows
  have hmoney : moneyRange (getProofOfWorkSubsidy e₂.nHeight) = true := by
    have := getProofOfWorkSubsidy_bounds e₂.nHeight
    unfold COIN at this
    exact moneyRange_iff.mpr (by omega)
  have hout := @getValueOut_heightCoinbase 0 0 _ hmoney
  have hcheck := h (plainBlock 0 0 0 [heightCoinbase 0 0 (getProofOfWorkSubsidy e₂.nHeight)]) 0 rfl
  simp only [NodeState.checkCoinbaseReward, h₁, h₂, plainBlock, hout, getProofOfWorkReward_zero,
    decide_eq_true_eq] at hcheck
  exact hcheck le_rfl

/-- **The coinbase limit depends on the tip.** Two states decide alike about the coinbase of every
proof-of-work block and every total of fees if and only if the subsidy is the same at the heights
of their tips. -/
theorem checkCoinbaseReward_congr_iff {s₁ s₂ : NodeState} {e₁ e₂ : CBlockIndex}
    (h₁ : s₁.best = some e₁) (h₂ : s₂.best = some e₂) :
    (∀ (b : CBlock) (nFees : Int), b.isProofOfWork = true →
      s₁.checkCoinbaseReward b nFees = s₂.checkCoinbaseReward b nFees) ↔
      getProofOfWorkSubsidy e₁.nHeight = getProofOfWorkSubsidy e₂.nHeight := by
  constructor
  · intro h
    apply le_antisymm
    · exact subsidy_le_of_checkCoinbaseReward h₂ h₁ fun b nFees hb hok => h b nFees hb ▸ hok
    · exact subsidy_le_of_checkCoinbaseReward h₁ h₂ fun b nFees hb hok => (h b nFees hb).symm ▸ hok
  · intro h b nFees _
    have hreward : getProofOfWorkReward e₁.nHeight nFees = getProofOfWorkReward e₂.nHeight nFees := by
      rw [getProofOfWorkReward, h, getProofOfWorkReward]
    cases hv : b.vtx with
    | nil => simp only [NodeState.checkCoinbaseReward, h₁, h₂, hv]
    | cons coinbase rest =>
      cases hout : coinbase.getValueOut with
      | none => simp only [NodeState.checkCoinbaseReward, h₁, h₂, hv, hout]
      | some v => simp [NodeState.checkCoinbaseReward, h₁, h₂, hv, hout, hreward]

/-- Three blocks on top of a genesis block. The third pays one coin: more than the subsidy of 0.42
coins at the heights 0 and 1, and less than the premine at height 2. -/
def premineChain : List StoredBlock :=
  [⟨sampleBlock 1 2 1 42000000, 1, 2⟩, ⟨sampleBlock 2 3 2 42000000, 2, 3⟩,
    ⟨sampleBlock 3 4 3 COIN, 3, 4⟩]

/-- Hashes that number these blocks and their coinbases from one. -/
noncomputable def premineCrypto : Crypto :=
  labelCrypto ((sampleGenesis :: premineChain).flatMap fun x => x.block.vtx)
    ((sampleGenesis :: premineChain).map fun x => x.block.getBlockHeader)

/-- The node that stores these blocks, with the genesis block as its tip. -/
noncomputable def premineNode : NodeState :=
  storedNode premineCrypto (sampleGenesis :: premineChain)

theorem premineChain_storable : Storable premineCrypto sampleGenesis premineChain where
  nodup := by decide +kernel
  hash_ne_zero := by decide +kernel
  genesis := by decide +kernel
  parent := by decide +kernel
  distinct := by decide +kernel

/-- That node with the first block as its tip. -/
noncomputable def premineNode₁ : NodeState :=
  (premineNode.setBestChain premineCrypto (sampleEnv false) (sampleBlock 1 2 1 42000000) 2).2

/-- That node with the second block as its tip. -/
noncomputable def premineNode₂ : NodeState :=
  (premineNode₁.setBestChain premineCrypto (sampleEnv false) (sampleBlock 2 3 2 42000000) 3).2

theorem premineNode_run : Run premineCrypto (fun _ _ _ _ => True) premineNode :=
  Run.genesis premineChain_storable.genesisState

theorem premineNode₂_run : Run premineCrypto (fun _ _ _ _ => True) premineNode₂ := by
  have h₁ : Run premineCrypto (fun _ _ _ _ => True) premineNode₁ :=
    Run.call premineNode_run (by decide +kernel) trivial
  exact Run.call h₁ (by decide +kernel) trivial

/-- At the genesis block and at the first block the limit is the same for every block. -/
theorem checkCoinbaseReward_congr_iff_sample :
    premineNode.best.map CBlockIndex.nHeight = some 0 ∧
      premineNode₁.best.map CBlockIndex.nHeight = some 1 ∧
      ∀ (b : CBlock) (nFees : Int), b.isProofOfWork = true →
        premineNode.checkCoinbaseReward b nFees = premineNode₁.checkCoinbaseReward b nFees := by
  have hh₀ : premineNode.best.map CBlockIndex.nHeight = some 0 := by decide +kernel
  have hh₁ : premineNode₁.best.map CBlockIndex.nHeight = some 1 := by decide +kernel
  refine ⟨hh₀, hh₁, ?_⟩
  obtain ⟨e₀, h₀, he₀⟩ := Option.map_eq_some_iff.mp hh₀
  obtain ⟨e₁, h₁, he₁⟩ := Option.map_eq_some_iff.mp hh₁
  refine (checkCoinbaseReward_congr_iff h₀ h₁).mpr ?_
  rw [he₀, he₁]
  decide

/-- The third block becomes the best chain on top of the second one, and is refused as a postponed
block of a call from the genesis block, which gets to the second one only. -/
theorem not_forall_checkCoinbaseReward :
    (premineNode₂.setBestChain premineCrypto (sampleEnv false) (sampleBlock 3 4 3 COIN)
        4).2.txdb.content .hashBestChain = some 4 ∧
      (premineNode.setBestChain premineCrypto (sampleEnv false) (sampleBlock 3 4 3 COIN)
        4).2.txdb.content .hashBestChain = some 3 ∧
      ¬ ∀ (C : Crypto) (s₁ s₂ : NodeState) (b : CBlock) (nFees : Int), HashInjective C →
        Run C (fun _ _ _ _ => True) s₁ → Run C (fun _ _ _ _ => True) s₂ →
        b.isProofOfWork = true →
        s₁.checkCoinbaseReward b nFees = s₂.checkCoinbaseReward b nFees := by
  refine ⟨by decide +kernel, by decide +kernel, fun hall => ?_⟩
  have hsame := hall premineCrypto premineNode premineNode₂ (sampleBlock 3 4 3 COIN) 0
    (labelCrypto_hashInjective _ _) premineNode_run premineNode₂_run (by decide)
  have hno : premineNode.checkCoinbaseReward (sampleBlock 3 4 3 COIN) 0 = false := by
    decide +kernel
  have hyes : premineNode₂.checkCoinbaseReward (sampleBlock 3 4 3 COIN) 0 = true := by
    decide +kernel
  rw [hno, hyes] at hsame
  cases hsame

/-! ## The aggregate rule and the stake reward -/

/-- What a coinstake takes out of the active index more than it brings. -/
def stakeGain (src : Sources) (coinstake : CTransaction) : Int :=
  coinstake.valueOut - coinstake.activeValueIn src

/-- The fees of transactions. -/
def totalFees (src : Sources) (vtx : List CTransaction) : Int := totalIn src vtx - totalOut vtx

/-- The coinbase of a checked proof-of-stake block pays nothing. -/
theorem valueOut_of_checkStake {b : CBlock} {coinbase : CTransaction} {rest : List CTransaction}
    {fCheckSig : Bool} (hvtx : b.vtx = coinbase :: rest) (h : b.checkStake C fCheckSig = true) :
    coinbase.valueOut = 0 := by
  unfold CBlock.checkStake at h
  rw [hvtx] at h
  cases rest with
  | nil => cases h
  | cons coinstake rest =>
    simp only [Bool.and_eq_true] at h
    obtain ⟨⟨⟨⟨hcb, -⟩, -⟩, -⟩, -⟩ := h
    split at hcb
    · next o₀ o₁ hvout =>
      simp only [CTxOut.isEmpty, Bool.and_eq_true, beq_iff_eq] at hcb
      simp [CTransaction.valueOut, hvout, hcb.1.1, hcb.2.1]
    · cases hcb

/-- **The aggregate rule caps the stake reward by the proof-of-work subsidy.** For a checked
proof-of-stake block above height 701720 whose transactions connect to the active index, the rule
lets the block through if and only if the coinstake gains no more than the fees of the others and
the proof-of-work subsidy of the height, and the sums fit in 63 bits. -/
theorem checkAggregate_iff_stakeGain {s : NodeState} {b : CBlock}
    {coinbase coinstake : CTransaction} {rest : List CTransaction}
    {ctx : CTransaction.ConnectCtx} {nHeight : Nat}
    (hvtx : b.vtx = coinbase :: coinstake :: rest) (hstake : b.isProofOfStake = true)
    (hcheck : b.checkBlock C env.adjustedTime true true true = true)
    (hspend : ∀ tx ∈ coinstake :: rest, SpendsIndexed C (s.sources env) ctx tx)
    (hheight : 701720 < nHeight) :
    s.checkAggregate env b nHeight = true ↔
      totalIn (s.sources env) b.vtx + getProofOfWorkSubsidy nHeight < 2 ^ 63 ∧
        stakeGain (s.sources env) coinstake ≤
          totalFees (s.sources env) rest + getProofOfWorkSubsidy nHeight := by
  obtain ⟨hcb, -, hpos, htxs⟩ := CBlock.checkBlock_cons C hvtx hcheck
  have hout := CTransaction.getValueOut_of_checkTransaction
    (htxs coinbase (hvtx ▸ List.mem_cons_self))
  have hzero := valueOut_of_checkStake hvtx (hpos hstake)
  have hcbres : Resolves (s.sources env) coinbase := Resolves.of_isCoinBase hcb (by rw [hout.1]; rfl)
  have hcbin : coinbase.activeValueIn (s.sources env) = 0 := by
    rw [CTransaction.activeValueIn, CTransaction.getValueMapIn, if_pos hcb, Option.getD_some]
  have hres : ∀ tx ∈ b.vtx, Resolves (s.sources env) tx := by
    rw [hvtx]
    intro tx htx
    rcases List.mem_cons.mp htx with rfl | htx
    · exact hcbres
    · exact (hspend tx htx).resolves
  have hIn : totalIn (s.sources env) b.vtx =
      coinstake.activeValueIn (s.sources env) + totalIn (s.sources env) rest := by
    simp [totalIn, hvtx, hcbin]
  have hOut : totalOut b.vtx = coinstake.valueOut + totalOut rest := by
    simp [totalOut, hvtx, hzero]
  rw [NodeState.checkAggregate, aggregateApplies_of_lt hheight, Bool.not_true, Bool.false_or,
    accepted_iff_of_resolves hres, hOut, stakeGain, totalFees]
  refine and_congr_right fun _ => ?_
  rw [hIn]
  omega

/-- A transaction that pays a thousand coins. -/
def paymentTx : CTransaction where
  nVersion := 1
  nTime := 1000
  vin := [⟨⟨100, 0⟩, [], 4294967295⟩]
  vout := [⟨1000 * COIN, [1]⟩]
  nLockTime := 0

/-- A tip with that transaction. -/
def stakeTip (nHeight : Nat) : StoredBlock :=
  ⟨plainBlock 0 1 1000 [heightCoinbase nHeight 1000 0, paymentTx], nHeight, 1⟩

/-- A coinstake of a day later that spends the thousand coins and takes a tenth of a coin. -/
def gainingCoinstake : CTransaction where
  nVersion := 1
  nTime := 87400
  vin := [⟨⟨2, 0⟩, [], 4294967295⟩]
  vout := [⟨0, []⟩, ⟨1000 * COIN + 10000000, [1]⟩]
  nLockTime := 0

/-- The coinbase of a proof-of-stake block. -/
def emptyCoinbase (nHeight : Nat) : CTransaction :=
  { heightCoinbase nHeight 87400 0 with vout := [⟨0, []⟩, ⟨0, []⟩] }

/-- The proof-of-stake block with that coinstake, at a height. -/
def stakeBlock (nHeight : Nat) : CBlock :=
  plainBlock 1 19 87400 [emptyCoinbase nHeight, gainingCoinstake]

/-- Hashes that number these transactions and blocks from one. -/
noncomputable def stakeCrypto (nHeight : Nat) : Crypto :=
  labelCrypto ((stakeTip nHeight).block.vtx ++ (stakeBlock (nHeight + 1)).vtx)
    [(stakeTip nHeight).block.getBlockHeader, (stakeBlock (nHeight + 1)).getBlockHeader]

/-- The node with that tip at a height, and its transactions in the index. -/
noncomputable def stakeNode (nHeight : Nat) : NodeState :=
  (storedNode (stakeCrypto nHeight) [stakeTip nHeight]).withIndex fun hash =>
    ((txPositions 1 8 (stakeTip nHeight).block).find? fun p =>
      (stakeCrypto nHeight).hashTx p.1 == hash).map fun p => CTxIndex.fresh p.2 p.1.vout.length

/-- The clock a day after the tip. -/
def stakeEnv : Env := { tallEnv with adjustedTime := 87400 }

/-- The context of a block on the tip; no coinbase is spent. -/
def stakeCtx : CTransaction.ConnectCtx := ⟨fun _ _ => false, true⟩

/-- At height 701721 the subsidy covers the gain. -/
theorem checkAggregate_iff_stakeGain_sample :
    (stakeNode 701720).checkAggregate stakeEnv (stakeBlock 701721) 701721 = true := by
  have hspend : ∀ tx ∈ [gainingCoinstake],
      SpendsIndexed (stakeCrypto 701720) ((stakeNode 701720).sources stakeEnv) stakeCtx tx := by
    intro tx htx
    obtain rfl := List.mem_singleton.mp htx
    exact ⟨by decide +kernel, ⟨⟨1, 0, 0⟩, by decide +kernel⟩, by decide +kernel⟩
  exact (checkAggregate_iff_stakeGain rfl (by decide) (by decide +kernel) hspend
    (by decide)).mpr (by decide +kernel)

/-- At height 1234526, where the subsidy has ended, the rule rejects a coinstake that takes less
than a third of what the coin age allows. -/
theorem not_forall_stake_checkAggregate :
    ¬ ∀ (C : Crypto) (env : Env) (s : NodeState) (b : CBlock) (pindexBest : CBlockIndex)
      (coinbase coinstake : CTransaction) (rest : List CTransaction)
      (ctx : CTransaction.ConnectCtx) (r : Int), HashInjective C →
      s.best = some pindexBest → 701720 ≤ pindexBest.nHeight → b.hashPrevBlock = pindexBest.hash →
      b.vtx = coinbase :: coinstake :: rest → b.isProofOfStake = true →
      b.checkBlock C env.adjustedTime true true true = true →
      (∀ tx ∈ coinstake :: rest, SpendsIndexed C (s.sources env) ctx tx) →
      coinstake.calculatedStakeReward C (s.sources env) (totalFees (s.sources env) rest)
        (totalIn (s.sources env) b.vtx) b.hashPrevBlock = some r →
      stakeGain (s.sources env) coinstake ≤ r →
      s.checkAggregate env b (pindexBest.nHeight + 1) = true := by
  intro hall
  have hspend : ∀ tx ∈ [gainingCoinstake],
      SpendsIndexed (stakeCrypto 1234525) ((stakeNode 1234525).sources stakeEnv) stakeCtx tx := by
    intro tx htx
    obtain rfl := List.mem_singleton.mp htx
    exact ⟨by decide +kernel, ⟨⟨1, 0, 0⟩, by decide +kernel⟩, by decide +kernel⟩
  have hpass := hall (stakeCrypto 1234525) stakeEnv (stakeNode 1234525) (stakeBlock 1234526)
    (storedEntry (stakeCrypto 1234525) 0 (stakeTip 1234525)) (emptyCoinbase 1234526)
    gainingCoinstake [] stakeCtx 32876712 (labelCrypto_hashInjective _ _) (by decide +kernel)
    (by decide) (by decide +kernel) rfl (by decide) (by decide +kernel) hspend
    (by decide +kernel) (by decide +kernel)
  have hfail : (stakeNode 1234525).checkAggregate stakeEnv (stakeBlock 1234526) 1234526 = false := by
    decide +kernel
  exact absurd (hpass.symm.trans hfail) (by decide)

end MotaCoin
