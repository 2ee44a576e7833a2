import MotaCoin.CoinAgeSelection
import MotaCoin.CreateTransaction
import MotaCoin.KeyPoolRuns
import MotaCoin.SpentFlags

/-!
# The balance of a transaction that is made

What `CreateTransaction` returns spends as much as it pays, with its fee, whatever is moved between the
change and the fee in the last round. The rounds end, since the fee of each is one of finitely many and
more than the one before.

## Main definitions

* `CreateEnv.CoinsFit`, `CreateEnv.feeLimit`: the amounts that are in range
* `CreatedTx.Balanced`: what is asked of a transaction that is made

## Main results

* `selectCoins_covers`: what the coins of a round are
* `createRound_created`, `createRound_again`: what a round does
* `createTransaction_balanced`: the rounds end, and what is made is balanced
-/

namespace MotaCoin

/-- The output that an input spends, where the wallet has its transaction. -/
def CWallet.prevTxOut (w : CWallet) (prevout : COutPoint) : Option CTxOut :=
  (w.mapWallet.lookup prevout.hash).bind fun wtx => wtx.tx.vout[prevout.n]?

/-! ## The coins of a round -/

/-- The total of all outputs of the wallet is in range. -/
structure CreateEnv.CoinsFit (env : CreateEnv) (w : CWallet) : Prop where
  nMinimumInputValue : 0 ≤ env.nMinimumInputValue
  total : ((w.outputsFrom env.nMinimumInputValue).map CTxOut.nValue).sum < 2 ^ 63 - 1

theorem CoinSelection.Covers.mono {all all' : List (Int × WalletCoin)} {nTargetValue : Int}
    {r : CoinSelection} (h : r.Covers all nTargetValue) (hsub : ∀ coin ∈ all, coin ∈ all') :
    r.Covers all' nTargetValue :=
  ⟨h.fSelected, fun c hc => (h.mem c hc).imp fun _ hcoin => ⟨hsub _ hcoin.1, hcoin.2⟩, h.nValueRet,
    h.target⟩

section Coins

variable {C : Crypto} {env : CreateEnv} {w : CWallet} (hkeyed : w.Keyed C) (hfit : env.CoinsFit w)
  (draws : CreateDraws) (keys : List Valtype) (coinControl : Option CCoinControl)

omit hkeyed hfit in
omit hkeyed hfit in
/-- The coins of a round are among all outputs of the wallet. -/
theorem vCoins_sublist :
    ((env.vCoins C draws (w.withKeys keys) coinControl).map COutput.txout).Sublist
      (w.outputsFrom env.nMinimumInputValue) :=
  CoinView.availableCoins_sublist

include hkeyed in
theorem nodup_vCoins :
    ((env.vCoins C draws (w.withKeys keys) coinControl).map fun out => out.coin.2).Nodup :=
  CoinView.nodup_availableCoins hkeyed

include hfit in
theorem outputsFrom_nonneg : ∀ txout ∈ w.outputsFrom env.nMinimumInputValue, 0 ≤ txout.nValue := by
  intro txout htxout
  obtain ⟨entry, -, hmem⟩ := List.mem_flatMap.1 htxout
  exact hfit.nMinimumInputValue.trans (of_decide_eq_true (List.mem_filter.1 hmem).2)

include hfit in
theorem vCoins_nonneg :
    ∀ out ∈ env.vCoins C draws (w.withKeys keys) coinControl, 0 ≤ out.txout.nValue :=
  fun out hout => outputsFrom_nonneg hfit out.txout
    ((vCoins_sublist draws keys coinControl).subset (List.mem_map_of_mem hout))

include hfit in
/-- Some of the coins are worth no more than all outputs. -/
theorem sum_le_of_sublist {vCoins : List COutput}
    (hsub : vCoins.Sublist (env.vCoins C draws (w.withKeys keys) coinControl)) :
    ((vCoins.map COutput.coin).map Prod.fst).sum ≤
      ((w.outputsFrom env.nMinimumInputValue).map CTxOut.nValue).sum := by
  have hall : ((vCoins.map COutput.txout).map CTxOut.nValue).Sublist
      ((w.outputsFrom env.nMinimumInputValue).map CTxOut.nValue) :=
    ((hsub.map _).trans (vCoins_sublist draws keys coinControl)).map _
  rw [List.map_map] at hall ⊢
  refine hall.sum_le_sum fun n hn => ?_
  obtain ⟨txout, htxout, rfl⟩ := List.mem_map.1 hn
  exact outputsFrom_nonneg hfit txout htxout

include hkeyed hfit in
/-- **What a call selects** are coins that cover the target. -/
theorem selectMinConf_covers {k : Nat} {nConfMine nConfTheirs nTargetValue : Int} {nSpendTime : Nat}
    (htarget : 0 ≤ nTargetValue ∧ nTargetValue + CENT < 2 ^ 63) {r : CoinSelection}
    (hr : selectMinConf env draws k nConfMine nConfTheirs nTargetValue nSpendTime
      (env.vCoins C draws (w.withKeys keys) coinControl) = some r) (hselected : r.fSelected = true) :
    r.Covers ((env.vCoins C draws (w.withKeys keys) coinControl).map COutput.coin) nTargetValue := by
  rw [selectMinConf] at hr
  generalize CoinLimits.mk nSpendTime nConfMine nConfTheirs env.isFromMe = limits at hr
  have hsub : ((env.vCoins C draws (w.withKeys keys) coinControl).filter limits.eligible).Sublist
      (env.vCoins C draws (w.withKeys keys) coinControl) := List.filter_sublist
  have hdistinct : ((limits.coins (env.vCoins C draws (w.withKeys keys) coinControl)).map
      Prod.snd).Nodup := by
    rw [CoinLimits.coins, List.map_map]
    exact (nodup_vCoins hkeyed draws keys coinControl).sublist (hsub.map _)
  have hamounts : ∀ coin ∈ limits.coins (env.vCoins C draws (w.withKeys keys) coinControl),
      0 ≤ coin.1 := by
    intro coin hcoin
    obtain ⟨out, hout, -, rfl⟩ := CoinLimits.mem_coins.1 hcoin
    exact vCoins_nonneg hfit draws keys coinControl out hout
  have htotal : limits.total (env.vCoins C draws (w.withKeys keys) coinControl) ≤
      ((w.outputsFrom env.nMinimumInputValue).map CTxOut.nValue).sum :=
    sum_le_of_sublist hfit draws keys coinControl hsub
  have hcovers : r.Covers (limits.coins (env.vCoins C draws (w.withKeys keys) coinControl))
      nTargetValue := by
    split at hr
    · exact covers_of_selectCoinsMinConfByCoinAge hdistinct hamounts
        (htotal.trans_lt (hfit.total.trans (by norm_num))) htarget hr hselected
    · obtain rfl := Option.some.inj hr
      rcases selectCoinsMinConf_covers (draws.coins k) hdistinct hamounts
        (htotal.trans_lt hfit.total) ⟨by omega, htarget.2⟩ with ⟨hfailed, -⟩ | ⟨hcovers, -⟩
      · rw [hfailed] at hselected
        cases hselected
      · exact hcovers
  refine hcovers.mono fun coin hcoin => ?_
  obtain ⟨out, hout, -, rfl⟩ := CoinLimits.mem_coins.1 hcoin
  exact List.mem_map_of_mem hout

include hkeyed hfit in
/-- **The coins of a round** cover the target. -/
theorem selectCoins_covers {nTargetValue : Int} {nSpendTime : Nat}
    (htarget : 0 ≤ nTargetValue ∧ nTargetValue + CENT < 2 ^ 63) {r : CoinSelection}
    (hr : selectCoins C env draws (w.withKeys keys) nTargetValue nSpendTime coinControl = some r)
    (hselected : r.fSelected = true) :
    r.Covers ((env.vCoins C draws (w.withKeys keys) coinControl).map COutput.coin) nTargetValue := by
  rw [selectCoins] at hr
  dsimp only at hr
  split at hr
  · obtain rfl := Option.some.inj hr
    have hdistinct := @nodup_vCoins C env w hkeyed draws keys coinControl
    obtain ⟨-, hmem, hsum, hvalue⟩ := ofCoins_spec
      (List.Perm.refl ((env.vCoins C draws (w.withKeys keys) coinControl).map COutput.coin)).subperm
      (by rw [List.map_map]; exact hdistinct)
      (fun coin hcoin => by
        obtain ⟨out, -, rfl⟩ := List.mem_map.1 hcoin
        exact out.value_coin)
      (fun coin hcoin => by
        obtain ⟨out, hout, rfl⟩ := List.mem_map.1 hcoin
        exact vCoins_nonneg hfit draws keys coinControl out hout)
      ((sum_le_of_sublist hfit draws keys coinControl (List.Sublist.refl _)).trans_lt
        (hfit.total.trans (by norm_num)))
    exact ⟨hselected, hmem, hsum, of_decide_eq_true hselected⟩
  · have hcovers := fun k nConfMine nConfTheirs r => @selectMinConf_covers C env w hkeyed hfit draws keys
      coinControl k nConfMine nConfTheirs nTargetValue nSpendTime htarget r
    obtain ⟨r₀, h₀, hr⟩ := Option.bind_eq_some_iff.1 hr
    split at hr
    · obtain rfl := Option.some.inj hr
      exact hcovers _ _ _ _ h₀ hselected
    · obtain ⟨r₁, h₁, hr⟩ := Option.bind_eq_some_iff.1 hr
      split at hr
      · obtain rfl := Option.some.inj hr
        exact hcovers _ _ _ _ h₁ hselected
      · exact hcovers _ _ _ _ hr hselected

omit hfit in
include hkeyed in
/-- A coin of a round is what an input that spends it finds. -/
theorem exists_prevTxOut {out : COutput}
    (hout : out ∈ env.vCoins C draws (w.withKeys keys) coinControl) :
    ∃ txout, w.prevTxOut ⟨C.hashTx out.tx, out.i⟩ = some txout ∧ txout.nValue = out.coin.2.value := by
  obtain ⟨⟨⟨hash, wtx⟩, out'⟩, hmem, rfl⟩ := List.mem_map.1 hout
  obtain ⟨hlookup, -, hoffered⟩ := CoinView.mem_availableOutputs.1 hmem
  have hlookup' : w.mapWallet.lookup hash = some wtx := hlookup
  have htx := (CoinView.mem_outputsOf.1 hoffered).1
  refine ⟨out'.txout, ?_, (COutput.value_coin out').symm⟩
  rw [CWallet.prevTxOut, htx, hkeyed hash wtx hlookup', hlookup', Option.bind_some, ← htx]
  exact out'.vout_eq

omit hfit in
include hkeyed in
/-- The inputs that spend coins of a round are worth what the coins are. -/
theorem exists_spent {coins : List WalletCoin}
    (hcoins : ∀ c ∈ coins, ∃ out ∈ env.vCoins C draws (w.withKeys keys) coinControl, out.coin.2 = c) :
    ∃ spent : List CTxOut,
      coins.map (fun c => w.prevTxOut ⟨C.hashTx c.1, c.2⟩) = spent.map some ∧
        spent.map CTxOut.nValue = coins.map WalletCoin.value := by
  induction coins with
  | nil => exact ⟨[], rfl, rfl⟩
  | cons c coins ih =>
    obtain ⟨spent, hspent, hvalues⟩ := ih fun c hc => hcoins c (List.mem_cons_of_mem _ hc)
    obtain ⟨out, hout, rfl⟩ := hcoins c (List.mem_cons_self ..)
    obtain ⟨txout, htxout, hvalue⟩ := exists_prevTxOut hkeyed draws keys coinControl hout
    refine ⟨txout :: spent, ?_, ?_⟩
    · rw [List.map_cons, List.map_cons, hspent]
      exact congrArg (· :: _) htxout
    · rw [List.map_cons, List.map_cons, hvalues, hvalue]

include hkeyed hfit in
/-- What is selected is worth no more than all outputs. -/
theorem nValueRet_le {nTargetValue : Int} {r : CoinSelection}
    (hr : r.Covers ((env.vCoins C draws (w.withKeys keys) coinControl).map COutput.coin) nTargetValue) :
    r.nValueRet ≤ ((w.outputsFrom env.nMinimumInputValue).map CTxOut.nValue).sum := by
  have hall := sum_le_of_sublist hfit draws keys coinControl
    (List.Sublist.refl (env.vCoins C draws (w.withKeys keys) coinControl))
  have hnodup := @nodup_vCoins C env w hkeyed draws keys coinControl
  have hset : ∑ c ∈ ((env.vCoins C draws (w.withKeys keys) coinControl).map
      fun out => out.coin.2).toFinset, c.value =
      (((env.vCoins C draws (w.withKeys keys) coinControl).map COutput.coin).map Prod.fst).sum := by
    rw [List.sum_toFinset _ hnodup, List.map_map, List.map_map]
    exact congrArg List.sum (List.map_congr_left fun out _ => out.value_coin)
  rw [hr.nValueRet]
  refine le_trans ?_ hall
  rw [← hset]
  refine Finset.sum_le_sum_of_subset_of_nonneg (fun c hc => ?_) fun c hc _ => ?_
  · obtain ⟨coin, hcoin, rfl⟩ := hr.mem c hc
    obtain ⟨out, hout, rfl⟩ := List.mem_map.1 hcoin
    exact List.mem_toFinset.2 (List.mem_map_of_mem (f := fun out : COutput => out.coin.2) hout)
  · obtain ⟨out, hout, rfl⟩ := List.mem_map.1 (List.mem_toFinset.1 hc)
    rw [out.value_coin]
    exact vCoins_nonneg hfit draws keys coinControl out hout

end Coins

/-! ## The outputs -/

/-- The parts of a split amount add up to it. -/
theorem sum_splitOutputs {nSplitBlock : Int} (hsplit : 1 ≤ nSplitBlock) {s : CScript × Int}
    (hamount : 0 ≤ s.2 ∧ s.2 < 2 ^ 63) :
    ((splitOutputs nSplitBlock s).map CTxOut.nValue).sum = s.2 := by
  obtain ⟨n, rfl⟩ : ∃ n : Nat, nSplitBlock = n + 1 := ⟨(nSplitBlock - 1).toNat, by omega⟩
  have hcount : ((n : Int) + 1).toNat = n + 1 := by omega
  have hfirst : ((List.range n).map fun nCount : Nat => CTxOut.nValue (if (nCount : Int) = n + 1 - 1 then
      ⟨Int64.wrap (s.2.tdiv (n + 1) + s.2.tmod (n + 1)), s.1⟩ else ⟨s.2.tdiv (n + 1), s.1⟩)) =
      List.replicate n (s.2 / (n + 1)) := by
    refine List.eq_replicate_iff.2 ⟨by rw [List.length_map, List.length_range], fun x hx => ?_⟩
    obtain ⟨nCount, hlt, rfl⟩ := List.mem_map.1 hx
    have hlt := List.mem_range.1 hlt
    rw [if_neg (by omega), Int.tdiv_eq_ediv_of_nonneg hamount.1]
  have hdivided := Int.mul_ediv_add_emod s.2 (n + 1)
  have hmod := Int.emod_nonneg s.2 (show ((n : Int) + 1) ≠ 0 by omega)
  have hquotient : 0 ≤ s.2 / (n + 1) := Int.ediv_nonneg hamount.1 (by omega)
  have hproduct : 0 ≤ (n : Int) * (s.2 / (n + 1)) := mul_nonneg (by omega) hquotient
  rw [add_mul, one_mul] at hdivided
  rw [splitOutputs, List.map_map, hcount, List.range_succ, List.map_append, List.sum_append]
  refine (congrArg (fun l => List.sum l + _) hfirst).trans ?_
  rw [List.sum_replicate, nsmul_eq_mul, List.map_singleton, List.sum_singleton, Function.comp_apply,
    if_pos (by omega), Int.tdiv_eq_ediv_of_nonneg hamount.1, Int.tmod_eq_emod_of_nonneg hamount.1]
  dsimp only
  rw [Int64.wrap_eq_self ⟨by omega, by omega⟩]
  omega

/-- **A recipient is paid in parts** that go to its script and add up to its amount. -/
structure PaidInParts (fSplitBlock : Bool) (nSplitBlock : Int) (s : CScript × Int)
    (outs : List CTxOut) : Prop where
  scriptPubKey : ∀ txout ∈ outs, txout.scriptPubKey = s.1
  sum : (outs.map CTxOut.nValue).sum = s.2
  length : outs.length = if fSplitBlock then (max 1 nSplitBlock).toNat else 1

theorem recipientOutputs_paid (fSplitBlock : Bool) (nSplitBlock : Int) {s : CScript × Int}
    (hamount : 0 ≤ s.2 ∧ s.2 < 2 ^ 63) :
    PaidInParts fSplitBlock nSplitBlock s (recipientOutputs fSplitBlock nSplitBlock s) := by
  rw [recipientOutputs]
  cases fSplitBlock with
  | false =>
    refine ⟨fun txout htxout => ?_, ?_, rfl⟩
    · rw [List.mem_singleton.1 htxout]
    · exact add_zero s.2
  | true =>
    have hcount : (if nSplitBlock < 1 then 1 else nSplitBlock) = max 1 nSplitBlock := by
      split
      · omega
      · omega
    rw [hcount]
    refine ⟨fun txout htxout => ?_, sum_splitOutputs (le_max_left _ _) hamount, ?_⟩
    · obtain ⟨nCount, -, rfl⟩ := List.mem_map.1 htxout
      split
      · rfl
      · rfl
    · rw [Bool.not_true, if_neg Bool.false_ne_true, if_pos rfl, splitOutputs, List.length_map,
        List.length_range]

/-- Signing changes nothing but the scripts of inputs. -/
theorem signInputs_eq_some {signSignature : CTransaction → CTransaction → Nat → Option CScript}
    {coins : List WalletCoin} :
    ∀ {nIn : Nat} {wtxNew tx : CTransaction}, signInputs signSignature coins nIn wtxNew = some tx →
      tx.vin.map CTxIn.prevout = wtxNew.vin.map CTxIn.prevout ∧ tx.vout = wtxNew.vout := by
  induction coins with
  | nil =>
    intro nIn wtxNew tx h
    obtain rfl := Option.some.inj h
    exact ⟨rfl, rfl⟩
  | cons coin coins ih =>
    intro nIn wtxNew tx h
    rw [signInputs] at h
    split at h
    · cases h
    · next scriptSig _ =>
      obtain ⟨hvin, hvout⟩ := ih h
      refine ⟨hvin.trans ?_, hvout⟩
      refine List.ext_getElem? fun i => ?_
      rw [List.getElem?_map, List.getElem?_map, List.getElem?_modify]
      cases wtxNew.vin[i]? with
      | none => rfl
      | some txin =>
        dsimp only [Option.map_eq_map, Option.map_some]
        split
        · rfl
        · rfl

/-! ## What a round does -/

/-- The fee that a transaction of a number of kilobytes asks for. -/
def CreateEnv.feeFor (env : CreateEnv) (nKilobytes : Int) : Int :=
  max (Int64.wrap (env.nTransactionFee * (1 + nKilobytes))) ((1 + nKilobytes) * MIN_TX_FEE)

/-- The size of a transaction that is small enough asks for a fee of so many kilobytes. -/
theorem getMinFee_send {tx : CTransaction} {nBytes : Nat} (h : nBytes < MAX_BLOCK_SIZE_GEN / 5) :
    tx.getMinFee 1 .send nBytes = (1 + (nBytes : Int) / 1000) * MIN_TX_FEE := by
  have hbytes : nBytes < 100000 := h
  have hfee : ¬(1 + (nBytes : Int) / 1000) * MIN_TX_FEE < MIN_TX_FEE := by
    rw [MIN_TX_FEE]
    omega
  have hrange : moneyRange ((1 + (nBytes : Int) / 1000) * MIN_TX_FEE) = true := by
    rw [moneyRange_iff, MIN_TX_FEE]
    omega
  have hbase : (if CTransaction.GetMinFeeMode.send = .relay then MIN_RELAY_TX_FEE else MIN_TX_FEE) =
      MIN_TX_FEE := if_neg (by decide)
  have hsmall : ¬((1 : Nat) ≠ 1 ∧ MAX_BLOCK_SIZE_GEN / 2 ≤ 1 + nBytes) := fun h => h.1 rfl
  rw [CTransaction.getMinFee, hbase]
  dsimp only
  rw [if_neg fun h : _ ∧ _ => hfee h.1, if_neg hsmall, hrange, Bool.not_true,
    if_neg Bool.false_ne_true]

section Finish

variable {env : CreateEnv} {draws : CreateDraws} {wtxNew : CTransaction} {coins : List WalletCoin}
  {nFeeRet : Int} {change : Option (Nat × CTxOut)} {pool : KeyPoolRun}

/-- A round that ends with a transaction has a fee that is enough. -/
theorem finishRound_created {r : CreatedTx}
    (h : finishRound env draws wtxNew coins nFeeRet change pool = .created r) :
    signInputs draws.signSignature coins 0 wtxNew = some r.wtxNew ∧ r.nFeeRet = nFeeRet ∧
      r.coins = coins ∧ r.change = change ∧ r.pool = pool ∧
      r.wtxNew.getSerializeSize32 < MAX_BLOCK_SIZE_GEN / 5 ∧
      max (Int64.wrap (env.nTransactionFee * (1 + (r.wtxNew.getSerializeSize32 : Int) / 1000)))
        (r.wtxNew.getMinFee 1 .send r.wtxNew.getSerializeSize32) ≤ nFeeRet := by
  rw [finishRound] at h
  split at h
  · cases h
  · next tx hsigned =>
    dsimp only at h
    split at h
    · cases h
    · next hsize =>
      split at h
      · cases h
      · next hfee =>
        obtain rfl := CreateResult.created.inj h
        exact ⟨hsigned, rfl, rfl, rfl, rfl, not_le.1 hsize, not_lt.1 hfee⟩

/-- A round that is followed by another one raises the fee, to what some size asks for. -/
theorem finishRound_again {nFeeRet' : Int} {pool' : KeyPoolRun}
    (h : finishRound env draws wtxNew coins nFeeRet change pool = .again nFeeRet' pool') :
    (nFeeRet < nFeeRet' ∧ ∃ n < 100, nFeeRet' = env.feeFor (n : Nat)) ∧ pool' = pool := by
  rw [finishRound] at h
  split at h
  · cases h
  · next tx _ =>
    dsimp only at h
    split at h
    · cases h
    · next hsize =>
      split at h
      · next hfee =>
        obtain ⟨rfl, rfl⟩ := CreateResult.again.inj h
        have hbytes : tx.getSerializeSize32 < 100000 := not_le.1 hsize
        refine ⟨⟨hfee, tx.getSerializeSize32 / 1000, by omega, ?_⟩, rfl⟩
        rw [getMinFee_send (not_le.1 hsize), CreateEnv.feeFor, Int.natCast_ediv, Nat.cast_ofNat]
      · cases h

end Finish

section Rounds

variable {C : Crypto} {env : CreateEnv} {h : Nat} {w : CWallet} {vecSend : List (CScript × Int)}
  {nSplitBlock : Int} {coinControl : Option CCoinControl} {draws : CreateDraws}
  {wtxNew : CTransaction} {nValue nFeeRet : Int} {pool : KeyPoolRun}

theorem moveToFee_nonneg (nFeeRet nChange : Int) : 0 ≤ moveToFee nFeeRet nChange := by
  rw [moveToFee]
  split
  · next hmove => omega
  · exact le_rfl

theorem moveToFee_le {nFeeRet nChange : Int} (hchange : 0 ≤ nChange) :
    moveToFee nFeeRet nChange ≤ nChange := by
  rw [moveToFee]
  split
  · exact min_le_left _ _
  · exact hchange

/-- What is left for the change when some of it is moved to the fee. -/
def CoinSelection.leftOver (r : CoinSelection) (nValue nFeeRet : Int) : Int :=
  Int64.wrap (r.nValueRet - nValue - nFeeRet) -
    moveToFee nFeeRet (Int64.wrap (r.nValueRet - nValue - nFeeRet))

/-- The fee with what is moved to it. -/
def CoinSelection.raisedFee (r : CoinSelection) (nValue nFeeRet : Int) : Int :=
  nFeeRet + moveToFee nFeeRet (Int64.wrap (r.nValueRet - nValue - nFeeRet))

/-- The inputs that spend coins. -/
def spendingInputs (C : Crypto) (coins : List WalletCoin) : List CTxIn :=
  coins.map fun coin => ⟨⟨C.hashTx coin.1, coin.2⟩, [], 4294967295⟩

variable (C env h w vecSend nSplitBlock coinControl draws wtxNew nValue nFeeRet pool) in
/-- **What a round does**: it ends for want of coins or of a key for the change, or it comes to its end
with change or without. -/
theorem createRound_cases :
    createRound C env h w vecSend nSplitBlock coinControl draws wtxNew nValue nFeeRet pool = .threw ∨
    createRound C env h w vecSend nSplitBlock coinControl draws wtxNew nValue nFeeRet pool = .failed ∨
    ∃ r, selectCoins C env draws (w.withKeys pool.wallet.keys) (Int64.wrap (nValue + nFeeRet))
        wtxNew.nTime coinControl = some r ∧ r.fSelected = true ∧
      ((0 < r.leftOver nValue nFeeRet ∧ ∃ scriptChange pool',
        changeScript env.keyPool h w.keys.hash160 coinControl
          (utxoAddress w.keys.hash160 (draws.order r.setCoinsRet)) pool = some (scriptChange, pool') ∧
        createRound C env h w vecSend nSplitBlock coinControl draws wtxNew nValue nFeeRet pool =
          finishRound env draws { wtxNew with
            vin := spendingInputs C (draws.order r.setCoinsRet)
            vout := (paymentOutputs env.fSplitBlock nSplitBlock vecSend).insertIdx
              (draws.getRandInt (paymentOutputs env.fSplitBlock nSplitBlock vecSend).length)
              ⟨r.leftOver nValue nFeeRet, scriptChange⟩ } (draws.order r.setCoinsRet)
            (r.raisedFee nValue nFeeRet)
            (some (draws.getRandInt (paymentOutputs env.fSplitBlock nSplitBlock vecSend).length,
              ⟨r.leftOver nValue nFeeRet, scriptChange⟩)) pool') ∨
      (r.leftOver nValue nFeeRet ≤ 0 ∧
        createRound C env h w vecSend nSplitBlock coinControl draws wtxNew nValue nFeeRet pool =
          finishRound env draws { wtxNew with
            vin := spendingInputs C (draws.order r.setCoinsRet)
            vout := paymentOutputs env.fSplitBlock nSplitBlock vecSend } (draws.order r.setCoinsRet)
            (r.raisedFee nValue nFeeRet) none (pool.returnKey h))) := by
  rw [createRound]
  dsimp only
  split
  · exact .inl rfl
  · next r hr =>
    cases hselected : r.fSelected with
    | false => exact .inr (.inl (if_pos rfl))
    | true =>
      rw [Bool.not_true, if_neg Bool.false_ne_true]
      split
      · next hchange =>
        split
        · exact .inl rfl
        · next scriptChange pool' hscript =>
          exact .inr (.inr ⟨r, hr, hselected, .inl ⟨hchange, scriptChange, pool', hscript, rfl⟩⟩)
      · next hchange => exact .inr (.inr ⟨r, hr, hselected, .inr ⟨not_lt.1 hchange, rfl⟩⟩)

/-- The fee of a round that is followed by another one. -/
theorem createRound_again {nFeeRet' : Int} {pool' : KeyPoolRun}
    (hr : createRound C env h w vecSend nSplitBlock coinControl draws wtxNew nValue nFeeRet pool =
      .again nFeeRet' pool') :
    nFeeRet < nFeeRet' ∧ ∃ n < 100, nFeeRet' = env.feeFor (n : Nat) := by
  have hraised (r : CoinSelection) : nFeeRet ≤ r.raisedFee nValue nFeeRet :=
    le_add_of_nonneg_right (moveToFee_nonneg _ _)
  rcases createRound_cases C env h w vecSend nSplitBlock coinControl draws wtxNew nValue nFeeRet pool with
    hcase | hcase | ⟨r, -, -, ⟨-, scriptChange, pool'', -, hcase⟩ | ⟨-, hcase⟩⟩
  · cases hcase.symm.trans hr
  · cases hcase.symm.trans hr
  · obtain ⟨hlt, hfee⟩ := (finishRound_again (hcase.symm.trans hr)).1
    exact ⟨(hraised r).trans_lt hlt, hfee⟩
  · obtain ⟨hlt, hfee⟩ := (finishRound_again (hcase.symm.trans hr)).1
    exact ⟨(hraised r).trans_lt hlt, hfee⟩

end Rounds

/-! ## The balance -/

/-- Outputs but for the change. -/
def withoutChange (vout : List CTxOut) : Option (Nat × CTxOut) → List CTxOut
  | some (position, _) => vout.eraseIdx position
  | none => vout

/-- **What is asked of a transaction that is made.** -/
structure CreatedTx.Balanced (env : CreateEnv) (w : CWallet) (vecSend : List (CScript × Int))
    (nSplitBlock : Int) (r : CreatedTx) : Prop where
  inputs : ∃ spent : List CTxOut,
    r.wtxNew.vin.map (fun txin => w.prevTxOut txin.prevout) = spent.map some ∧
      (spent.map CTxOut.nValue).sum = (r.wtxNew.vout.map CTxOut.nValue).sum + r.nFeeRet
  change : ∀ position txout, r.change = some (position, txout) →
    r.wtxNew.vout[position]? = some txout
  payments : ∃ parts : List (List CTxOut),
    withoutChange r.wtxNew.vout r.change = parts.flatten ∧
      List.Forall₂ (PaidInParts env.fSplitBlock nSplitBlock) vecSend parts
  payFee : env.nTransactionFee * (1 + (r.wtxNew.getSerializeSize32 : Int) / 1000) ≤ r.nFeeRet
  minFee : r.wtxNew.getMinFee 1 .send r.wtxNew.getSerializeSize32 ≤ r.nFeeRet

/-- The fee that no round exceeds when it is raised. -/
def CreateEnv.feeLimit (env : CreateEnv) : Int := max COIN (100 * max env.nTransactionFee MIN_TX_FEE)

section Balance

variable {C : Crypto} {env : CreateEnv} {h : Nat} {w : CWallet} {vecSend : List (CScript × Int)}
  {nSplitBlock : Int} {coinControl : Option CCoinControl}

theorem addAmounts_eq (hamounts : ∀ s ∈ vecSend, (0 : Int) ≤ s.2) :
    ∀ {nValue : Int}, 0 ≤ nValue → nValue + (vecSend.map Prod.snd).sum < 2 ^ 63 →
      addAmounts nValue vecSend = some (nValue + (vecSend.map Prod.snd).sum) := by
  induction vecSend with
  | nil => exact fun _ _ => congrArg some (add_zero _).symm
  | cons s vecSend ih =>
    intro nValue hvalue hsum
    have hrest : ∀ s ∈ vecSend, (0 : Int) ≤ s.2 := fun s hs => hamounts s (List.mem_cons_of_mem _ hs)
    have hamount := hamounts s (List.mem_cons_self ..)
    have hnonneg : 0 ≤ (vecSend.map Prod.snd).sum := List.sum_nonneg fun n hn => by
      obtain ⟨s, hs, rfl⟩ := List.mem_map.1 hn
      exact hrest s hs
    rw [List.map_cons, List.sum_cons] at hsum ⊢
    rw [addAmounts, if_neg (not_lt.2 hvalue), Int64.wrap_eq_self ⟨by omega, by omega⟩,
      ih hrest (by omega) (by omega), add_assoc]

/-- The outputs to the recipients are the parts of each. -/
theorem paymentOutputs_paid
    (hamounts : ∀ s ∈ vecSend, (0 : Int) ≤ s.2 ∧ s.2 < 2 ^ 63) :
    List.Forall₂ (PaidInParts env.fSplitBlock nSplitBlock) vecSend
      (vecSend.map (recipientOutputs env.fSplitBlock nSplitBlock)) := by
  rw [List.forall₂_map_right_iff, List.forall₂_same]
  exact fun s hs => recipientOutputs_paid env.fSplitBlock nSplitBlock (hamounts s hs)

theorem sum_paymentOutputs
    (hamounts : ∀ s ∈ vecSend, (0 : Int) ≤ s.2 ∧ s.2 < 2 ^ 63) :
    ((paymentOutputs env.fSplitBlock nSplitBlock vecSend).map CTxOut.nValue).sum =
      (vecSend.map Prod.snd).sum := by
  induction vecSend with
  | nil => rfl
  | cons s vecSend ih =>
    have hfirst := (recipientOutputs_paid env.fSplitBlock nSplitBlock (hamounts s (List.mem_cons_self ..))).sum
    have hrest := ih fun s hs => hamounts s (List.mem_cons_of_mem _ hs)
    rw [paymentOutputs] at hrest ⊢
    rw [List.flatMap_cons, List.map_append, List.sum_append, hfirst, hrest, List.map_cons, List.sum_cons]

/-- Some outputs are made where there is a recipient. -/
theorem paymentOutputs_ne_nil (hamounts : ∀ s ∈ vecSend, (0 : Int) ≤ s.2 ∧ s.2 < 2 ^ 63)
    (hne : vecSend ≠ []) : paymentOutputs env.fSplitBlock nSplitBlock vecSend ≠ [] := by
  obtain ⟨s, hs⟩ := List.exists_mem_of_ne_nil _ hne
  have hlength := (recipientOutputs_paid env.fSplitBlock nSplitBlock (hamounts s hs)).length
  intro hnil
  have hout := List.flatMap_eq_nil_iff.1 hnil s hs
  rw [hout, List.length_nil] at hlength
  split at hlength
  · have hmax := le_max_left 1 nSplitBlock
    omega
  · cases hlength

/-- A fee that a size asks for is within the limit. -/
theorem feeFor_range (hfee : 0 ≤ env.nTransactionFee) (hlimit : env.feeLimit < 2 ^ 63) {n : Nat}
    (hn : n < 100) :
    Int64.wrap (env.nTransactionFee * (1 + n)) = env.nTransactionFee * (1 + n) ∧
      0 ≤ env.feeFor n ∧ env.feeFor n ≤ env.feeLimit := by
  have hproduct : env.nTransactionFee * (1 + n) ≤ env.nTransactionFee * 100 :=
    mul_le_mul_of_nonneg_left (by omega) hfee
  have hnonneg : 0 ≤ env.nTransactionFee * (1 + n) := mul_nonneg hfee (by omega)
  rw [CreateEnv.feeLimit] at hlimit ⊢
  have hwrap : Int64.wrap (env.nTransactionFee * (1 + n)) = env.nTransactionFee * (1 + n) :=
    Int64.wrap_eq_self ⟨by omega, by omega⟩
  rw [CreateEnv.feeFor, hwrap, MIN_TX_FEE] at *
  refine ⟨rfl, ?_, ?_⟩
  · omega
  · omega

variable (hkeyed : w.Keyed C) (hfit : env.CoinsFit w)
  (hamounts : ∀ s ∈ vecSend, (0 : Int) ≤ s.2) (hfee : 0 ≤ env.nTransactionFee)
  (hrange : (vecSend.map Prod.snd).sum + env.feeLimit + CENT < 2 ^ 63)

omit hkeyed hfit hfee in
include hamounts hrange in
/-- Amounts whose sum is in range are. -/
theorem amounts_range : ∀ s ∈ vecSend, (0 : Int) ≤ s.2 ∧ s.2 < 2 ^ 63 := by
  intro s hs
  have hle : s.2 ≤ (vecSend.map Prod.snd).sum :=
    List.single_le_sum (fun n hn => by
      obtain ⟨s, hs, rfl⟩ := List.mem_map.1 hn
      exact hamounts s hs) _ (List.mem_map_of_mem hs)
  have hlimit : 0 ≤ env.feeLimit := by
    rw [CreateEnv.feeLimit, MIN_TX_FEE]
    omega
  rw [CENT] at hrange
  exact ⟨hamounts s hs, by omega⟩

omit hfit hamounts hrange in
include hkeyed hfee in
/-- The end of a round makes what is balanced, where the coins are worth the outputs with the fee. -/
theorem balanced_of_finishRound {draws : CreateDraws} {wtxNew : CTransaction} {coins : List WalletCoin}
    {nFeeRet : Int} {change : Option (Nat × CTxOut)} {pool : KeyPoolRun} (keys : List Valtype)
    (hlimit : env.feeLimit < 2 ^ 63) (hvin : wtxNew.vin = spendingInputs C coins)
    (hcoins : ∀ c ∈ coins, ∃ out ∈ env.vCoins C draws (w.withKeys keys) coinControl, out.coin.2 = c)
    (hvalue : (coins.map WalletCoin.value).sum = (wtxNew.vout.map CTxOut.nValue).sum + nFeeRet)
    (hchange : ∀ position txout, change = some (position, txout) → wtxNew.vout[position]? = some txout)
    {parts : List (List CTxOut)}
    (hpayments : withoutChange wtxNew.vout change = parts.flatten)
    (hparts : List.Forall₂ (PaidInParts env.fSplitBlock nSplitBlock) vecSend parts) {r : CreatedTx}
    (hr : finishRound env draws wtxNew coins nFeeRet change pool = .created r) :
    r.Balanced env w vecSend nSplitBlock := by
  obtain ⟨hsigned, hFeeRet, hrcoins, hrchange, -, hsize, hpaid⟩ := finishRound_created hr
  obtain ⟨hprevouts, hvout⟩ := signInputs_eq_some hsigned
  obtain ⟨spent, hspent, hvalues⟩ := exists_spent hkeyed draws keys coinControl hcoins
  have hbytes : r.wtxNew.getSerializeSize32 / 1000 < 100 := by
    have hlt : r.wtxNew.getSerializeSize32 < 100000 := hsize
    omega
  have hpayFee := (feeFor_range hfee hlimit hbytes).1
  rw [Int.natCast_ediv, Nat.cast_ofNat] at hpayFee
  rw [hpayFee] at hpaid
  refine ⟨⟨spent, ?_, ?_⟩, ?_, ⟨parts, ?_, hparts⟩, ?_, ?_⟩
  · rw [hvin, spendingInputs, List.map_map] at hprevouts
    rw [← hspent, ← Function.comp_def (fun prevout => w.prevTxOut prevout), ← List.map_map, hprevouts,
      List.map_map]
    rfl
  · rw [hvalues, hvalue, hvout, hFeeRet]
  · rw [hrchange, hvout]
    exact hchange
  · rw [hrchange, hvout]
    exact hpayments
  · rw [hFeeRet]
    exact (le_max_left _ _).trans hpaid
  · rw [hFeeRet]
    exact (le_max_right _ _).trans hpaid

include hkeyed hfit hamounts hfee hrange in
/-- **What a round makes** is balanced: what the selected coins are worth is the amounts, the fee, and
what is left for the change and moved to the fee. -/
theorem balanced_of_createRound {draws : CreateDraws} {wtxNew : CTransaction} {nFeeRet : Int}
    {pool : KeyPoolRun} (hne : vecSend ≠ []) (hnFeeRet : 0 ≤ nFeeRet ∧ nFeeRet ≤ env.feeLimit)
    {r : CreatedTx}
    (hr : createRound C env h w vecSend nSplitBlock coinControl draws wtxNew
      (vecSend.map Prod.snd).sum nFeeRet pool = .created r) :
    r.Balanced env w vecSend nSplitBlock := by
  have hrangeEach := amounts_range hamounts hrange
  have hparts := @paymentOutputs_paid env vecSend nSplitBlock hrangeEach
  have hpaid := @sum_paymentOutputs env vecSend nSplitBlock hrangeEach
  have hvalue : 0 ≤ (vecSend.map Prod.snd).sum := List.sum_nonneg fun n hn => by
    obtain ⟨s, hs, rfl⟩ := List.mem_map.1 hn
    exact hamounts s hs
  have hcent : CENT = 1000000 := rfl
  have htarget : Int64.wrap ((vecSend.map Prod.snd).sum + nFeeRet) = (vecSend.map Prod.snd).sum + nFeeRet :=
    Int64.wrap_eq_self ⟨by omega, by omega⟩
  -- what the coins of the round are worth, and what is left of it
  have hselection (sel : CoinSelection)
      (hsel : selectCoins C env draws (w.withKeys pool.wallet.keys)
        (Int64.wrap ((vecSend.map Prod.snd).sum + nFeeRet)) wtxNew.nTime coinControl = some sel)
      (hselected : sel.fSelected = true) :
      (∀ c ∈ draws.order sel.setCoinsRet,
        ∃ out ∈ env.vCoins C draws (w.withKeys pool.wallet.keys) coinControl, out.coin.2 = c) ∧
      ((draws.order sel.setCoinsRet).map WalletCoin.value).sum =
        (vecSend.map Prod.snd).sum + sel.leftOver (vecSend.map Prod.snd).sum nFeeRet +
          sel.raisedFee (vecSend.map Prod.snd).sum nFeeRet ∧
      0 ≤ sel.leftOver (vecSend.map Prod.snd).sum nFeeRet := by
    rw [htarget] at hsel
    have hcovers := selectCoins_covers hkeyed hfit draws pool.wallet.keys coinControl
      ⟨by omega, by omega⟩ hsel hselected
    have hle := nValueRet_le hkeyed hfit draws pool.wallet.keys coinControl hcovers
    have htotal := hfit.total
    have hcover := hcovers.target
    have hnChange : Int64.wrap (sel.nValueRet - (vecSend.map Prod.snd).sum - nFeeRet) =
        sel.nValueRet - (vecSend.map Prod.snd).sum - nFeeRet :=
      Int64.wrap_eq_self ⟨by omega, by omega⟩
    have hmoved := @moveToFee_le nFeeRet _
      (show 0 ≤ sel.nValueRet - (vecSend.map Prod.snd).sum - nFeeRet by omega)
    refine ⟨fun c hc => ?_, ?_, ?_⟩
    · obtain ⟨coin, hcoin, rfl⟩ := hcovers.mem c ((draws.mem_order _ _).1 hc)
      obtain ⟨out, hout, rfl⟩ := List.mem_map.1 hcoin
      exact ⟨out, hout, rfl⟩
    · have hset : (draws.order sel.setCoinsRet).toFinset = sel.setCoinsRet := by
        refine Finset.ext fun c => ?_
        rw [List.mem_toFinset, draws.mem_order]
      have hsum : ((draws.order sel.setCoinsRet).map WalletCoin.value).sum = sel.nValueRet := by
        rw [← List.sum_toFinset _ (draws.nodup_order _), hset, hcovers.nValueRet]
      rw [hsum, CoinSelection.leftOver, CoinSelection.raisedFee, hnChange]
      omega
    · rw [CoinSelection.leftOver, hnChange]
      omega
  rcases createRound_cases C env h w vecSend nSplitBlock coinControl draws wtxNew
      (vecSend.map Prod.snd).sum nFeeRet pool with
    hcase | hcase | ⟨sel, hsel, hselected, ⟨-, scriptChange, pool', -, hcase⟩ | ⟨hnone, hcase⟩⟩
  · cases hcase.symm.trans hr
  · cases hcase.symm.trans hr
  · obtain ⟨hcoins, hsum, hleft⟩ := hselection sel hsel hselected
    have hposition : draws.getRandInt (paymentOutputs env.fSplitBlock nSplitBlock vecSend).length <
        (paymentOutputs env.fSplitBlock nSplitBlock vecSend).length :=
      draws.getRandInt_lt _ fun hlength =>
        paymentOutputs_ne_nil hrangeEach hne (List.length_eq_zero_iff.1 hlength)
    refine balanced_of_finishRound hkeyed hfee pool.wallet.keys (by omega) rfl hcoins ?_ ?_ ?_ hparts
      (hcase.symm.trans hr)
    · have hperm := (List.perm_insertIdx (⟨sel.leftOver (vecSend.map Prod.snd).sum nFeeRet,
        scriptChange⟩ : CTxOut) (paymentOutputs env.fSplitBlock nSplitBlock vecSend) hposition.le).map
          CTxOut.nValue
      rw [hperm.sum_eq, List.map_cons, List.sum_cons, hpaid, hsum, add_comm (vecSend.map Prod.snd).sum]
    · rintro position txout hchange
      obtain ⟨rfl, rfl⟩ := Prod.mk.inj (Option.some.inj hchange)
      rw [List.getElem?_insertIdx_self, if_pos hposition.le]
    · rw [withoutChange, List.eraseIdx_insertIdx_self, paymentOutputs, List.flatMap_def]
  · obtain ⟨hcoins, hsum, hleft⟩ := hselection sel hsel hselected
    refine balanced_of_finishRound hkeyed hfee pool.wallet.keys (by omega) rfl hcoins ?_ ?_ ?_ hparts
      (hcase.symm.trans hr)
    · rw [hpaid, hsum]
      omega
    · rintro position txout hchange
      cases hchange
    · rw [withoutChange, paymentOutputs, List.flatMap_def]

/-! ## All rounds -/

/-- The fees to which a round can raise its fee. -/
def CreateEnv.fees (env : CreateEnv) : Finset Int := (Finset.range 100).image fun n : Nat => env.feeFor n

omit hkeyed hfit hamounts hfee hrange in
/-- **The rounds end**: each raises the fee to another one of finitely many. -/
theorem createRounds_ends (draws : Nat → CreateDraws) (wtxNew : CTransaction) (nValue : Int)
    {rounds : Nat} :
    ∀ {round : Nat} {nFeeRet : Int} {pool : KeyPoolRun},
      (env.fees.filter (nFeeRet < ·)).card < rounds → ∀ nFeeRet' pool',
        createRounds C env h w vecSend nSplitBlock coinControl draws wtxNew nValue rounds round nFeeRet
          pool ≠ .again nFeeRet' pool' := by
  induction rounds with
  | zero => exact fun hcard => absurd hcard (Nat.not_lt_zero _)
  | succ rounds ih =>
    intro round nFeeRet pool hcard nFeeRet' pool' hagain
    rw [createRounds] at hagain
    split at hagain
    · next nFeeRet₁ pool₁ hround =>
      obtain ⟨hlt, n, hn, rfl⟩ := createRound_again hround
      refine ih (lt_of_lt_of_le (Finset.card_lt_card ?_) (Nat.lt_succ_iff.1 hcard)) _ _ hagain
      -- the new fee itself is no longer above the fee of the next round
      refine ⟨fun fee hfee => ?_, fun hsub => ?_⟩
      · obtain ⟨hmem, habove⟩ := Finset.mem_filter.1 hfee
        exact Finset.mem_filter.2 ⟨hmem, hlt.trans habove⟩
      · have hmem : env.feeFor n ∈ env.fees := Finset.mem_image.2 ⟨n, Finset.mem_range.2 hn, rfl⟩
        exact lt_irrefl _ (Finset.mem_filter.1 (hsub (Finset.mem_filter.2 ⟨hmem, hlt⟩))).2
    · next hother => exact hother _ _ hagain

include hkeyed hfit hamounts hfee hrange in
theorem balanced_of_createRounds {draws : Nat → CreateDraws} {wtxNew : CTransaction}
    (hne : vecSend ≠ []) {rounds : Nat} :
    ∀ {round : Nat} {nFeeRet : Int} {pool : KeyPoolRun}, 0 ≤ nFeeRet ∧ nFeeRet ≤ env.feeLimit →
      ∀ {r : CreatedTx}, createRounds C env h w vecSend nSplitBlock coinControl draws wtxNew
        (vecSend.map Prod.snd).sum rounds round nFeeRet pool = .created r →
      r.Balanced env w vecSend nSplitBlock := by
  have hvalue : 0 ≤ (vecSend.map Prod.snd).sum := List.sum_nonneg fun n hn => by
    obtain ⟨s, hs, rfl⟩ := List.mem_map.1 hn
    exact hamounts s hs
  have hcent : CENT = 1000000 := rfl
  induction rounds with
  | zero =>
    intro round nFeeRet pool _ r hr
    cases hr
  | succ rounds ih =>
    intro round nFeeRet pool hnFeeRet r hr
    rw [createRounds] at hr
    split at hr
    · next nFeeRet₁ pool₁ hround =>
      obtain ⟨-, n, hn, rfl⟩ := createRound_again hround
      exact ih (feeFor_range hfee (by omega) hn).2 hr
    · exact balanced_of_createRound hkeyed hfit hamounts hfee hrange hne hnFeeRet hr

include hkeyed hfit hamounts hfee hrange in
/-- **What `CreateTransaction` makes** is balanced, whatever is drawn in its rounds, which end. -/
theorem createTransaction_balanced (draws : Nat → CreateDraws) (wtxNew : CTransaction)
    (pool : KeyPoolRun) (rounds : Nat) :
    (101 ≤ rounds → ∀ nFeeRet pool', createTransaction C env h w vecSend nSplitBlock coinControl draws
      wtxNew pool rounds ≠ .again nFeeRet pool') ∧
    ∀ r, createTransaction C env h w vecSend nSplitBlock coinControl draws wtxNew pool rounds =
      .created r → r.Balanced env w vecSend nSplitBlock := by
  have hlimit : (0 : Int) ≤ env.feeLimit := by
    rw [CreateEnv.feeLimit, MIN_TX_FEE]
    omega
  have hcent : CENT = 1000000 := rfl
  have hsum := addAmounts_eq hamounts le_rfl (show 0 + (vecSend.map Prod.snd).sum < 2 ^ 63 by omega)
  rw [zero_add] at hsum
  rw [createTransaction, hsum]
  dsimp only
  split
  · refine ⟨fun _ nFeeRet pool' hagain => ?_, fun r hr => ?_⟩
    · cases hagain
    · cases hr
  · next hsome =>
    refine ⟨fun hrounds => createRounds_ends draws wtxNew _ ?_, fun r hr => ?_⟩
    · refine lt_of_lt_of_le (Nat.lt_succ_iff.2 ?_) hrounds
      exact (Finset.card_filter_le _ _).trans (Finset.card_image_le.trans (Finset.card_range 100).le)
    · refine balanced_of_createRounds hkeyed hfit hamounts hfee hrange ?_ ?_ hr
      · rintro rfl
        exact hsome rfl
      · have hcoin : COIN = 100000000 := rfl
        rw [CreateEnv.feeLimit, hcoin]
        split
        · omega
        · omega

end Balance

/-! ## A wallet with one transaction -/

/-- What is made, if anything. -/
def CreateResult.made : CreateResult → Option CreatedTx
  | .created r => some r
  | _ => none

theorem CreateResult.made_eq_some {result : CreateResult} {r : CreatedTx} :
    result.made = some r ↔ result = .created r := by
  cases result with
  | created r' => exact ⟨fun h => congrArg _ (Option.some.inj h), fun h => by cases h; rfl⟩
  | failed => exact ⟨nofun, nofun⟩
  | threw => exact ⟨nofun, nofun⟩
  | again nFeeRet pool => exact ⟨nofun, nofun⟩

/-- The outputs of a transaction in their order, where there are no other coins. -/
noncomputable def outputOrder (tx : CTransaction) (coins : Finset WalletCoin) : List WalletCoin :=
  let known := (List.range tx.vout.length).map fun i => (tx, i)
  if coins ⊆ known.toFinset then known.filter fun c => c ∈ coins else coins.toList

/-- Signatures are empty, and the change comes first. -/
noncomputable def firstDraws (tx : CTransaction) : CreateDraws where
  adjustedTime := 1300
  coins _ := plainDraws
  ages _ := plainAges
  order := outputOrder tx
  nodup_order coins := by
    rw [outputOrder]
    split
    · exact (List.nodup_range.map fun i j h => (Prod.mk.inj h).2).filter _
    · exact coins.nodup_toList
  mem_order coins c := by
    rw [outputOrder]
    split
    · next hsub =>
      rw [List.mem_filter, decide_eq_true_iff, and_iff_right_iff_imp]
      exact fun hc => List.mem_toFinset.1 (hsub hc)
    · exact Finset.mem_toList
  getRandInt _ := 0
  getRandInt_lt _ hmax := Nat.pos_of_ne_zero hmax
  signSignature _ _ _ := some []

/-- Hashes that number a transaction and the header of a block. -/
noncomputable def confirmedCrypto (tx : CTransaction) : Crypto :=
  labelCrypto [tx] [incomeBlock.getBlockHeader]

/-- A wallet with a transaction of that block. -/
def confirmedWallet (tx : CTransaction) : CWallet :=
  { newWallet with
    mapWallet := AList.insert 1
      { CWalletTx.ofTx tx with hashBlock := 1, nIndex := 0, fMerkleVerified := true } ∅ }

/-- What is found where the block is the only one. -/
noncomputable def confirmedEnv (tx : CTransaction) : CreateEnv where
  node := storedNode (confirmedCrypto tx) [⟨incomeBlock, 0, 1⟩]
  nMinimumInputValue := 0
  isFromMe _ := false
  fSplitBlock := false
  fMinimizeCoinAge := false
  nTransactionFee := 10
  keyPool := numberedKeys 1

/-- A key pool that knows the key of the wallet. -/
def ownPool : KeyPoolRun := { newPool with wallet := { newPool.wallet with keys := [ownPubKey] } }

/-- The outputs of the transaction are selected, and somebody is paid. -/
noncomputable def payFrom (tx : CTransaction) (coinControl : CCoinControl)
    (vecSend : List (CScript × Int)) : CreateResult :=
  createTransaction (confirmedCrypto tx) (confirmedEnv tx) 0 (confirmedWallet tx) vecSend 1
    (some coinControl) (fun _ => firstDraws tx) ⟨1, 2000, [], [], 0⟩ ownPool 101

theorem keyed_confirmedWallet (tx : CTransaction) : (confirmedWallet tx).Keyed (confirmedCrypto tx) := by
  intro hash wtx hlookup
  have hentries : (confirmedWallet tx).mapWallet.entries =
      [⟨1, { CWalletTx.ofTx tx with hashBlock := 1, nIndex := 0, fMerkleVerified := true }⟩] := rfl
  rw [← Option.mem_def, AList.mem_lookup_iff, hentries, List.mem_singleton] at hlookup
  cases hlookup
  -- the first transaction that is numbered
  change Labelling.label [tx] tx = 1
  rw [Labelling.label, if_pos (List.mem_singleton.2 rfl), List.idxOf_cons_self]

/-- With a fee that is moved from the change, the payment of the block is spent. -/
theorem createTransaction_balanced_incomeTx :
    ∃ r, payFrom incomeTx ⟨.noDestination, false, [⟨1, 0⟩]⟩ [([], 20000)] = .created r ∧
      r.nFeeRet = 20 ∧ r.Balanced (confirmedEnv incomeTx) (confirmedWallet incomeTx) [([], 20000)] 1 := by
  have hrun : (payFrom incomeTx ⟨.noDestination, false, [⟨1, 0⟩]⟩ [([], 20000)]).made.map
      CreatedTx.nFeeRet = some 20 := by decide +kernel
  obtain ⟨r, hmade, hfee⟩ := Option.map_eq_some_iff.1 hrun
  have hcreated := CreateResult.made_eq_some.1 hmade
  refine ⟨r, hcreated, hfee, (createTransaction_balanced (keyed_confirmedWallet incomeTx)
    ⟨le_rfl, by decide +kernel⟩ (by decide) (by decide) (by decide) _ _ _ _).2 r hcreated⟩

/-- A transaction whose outputs are too much together. -/
def hugeTx : CTransaction :=
  ⟨1, 1000, [⟨⟨7, 0⟩, [], 4294967295⟩], List.replicate 5 ⟨2 ^ 62, ownScript⟩, 0⟩

theorem CreatedTx.Balanced.sum_eq {env : CreateEnv} {w : CWallet} {vecSend : List (CScript × Int)}
    {nSplitBlock : Int} {r : CreatedTx} (h : r.Balanced env w vecSend nSplitBlock) :
    (r.wtxNew.vin.map fun txin => ((w.prevTxOut txin.prevout).map CTxOut.nValue).getD 0).sum =
      (r.wtxNew.vout.map CTxOut.nValue).sum + r.nFeeRet := by
  obtain ⟨spent, hspent, hsum⟩ := h.inputs
  have hvalues : (r.wtxNew.vin.map fun txin => ((w.prevTxOut txin.prevout).map CTxOut.nValue).getD 0) =
      (spent.map some).map fun txout => (txout.map CTxOut.nValue).getD 0 := by
    rw [← hspent, List.map_map]
    rfl
  rw [hvalues, List.map_map, ← hsum]
  rfl

/-- **Where the balance fails**: nothing is spent for an amount that comes to a negative one with the
fee, and outputs that are too much together are spent for less. -/
theorem not_createTransaction_balanced :
    (∃ r, payFrom incomeTx ⟨.noDestination, false, [⟨2, 0⟩]⟩ [([], 2 ^ 63 - 1)] = .created r ∧
      ¬r.Balanced (confirmedEnv incomeTx) (confirmedWallet incomeTx) [([], 2 ^ 63 - 1)] 1) ∧
    ∃ r, payFrom hugeTx ⟨.noDestination, false, (List.range 5).map fun n => ⟨1, n⟩⟩ [([], 20000)] =
        .created r ∧
      ¬r.Balanced (confirmedEnv hugeTx) (confirmedWallet hugeTx) [([], 20000)] 1 := by
  constructor
  · have hrun : (payFrom incomeTx ⟨.noDestination, false, [⟨2, 0⟩]⟩ [([], 2 ^ 63 - 1)]).made.map
        (fun r => (r.wtxNew.vin, r.wtxNew.vout.map CTxOut.nValue, r.nFeeRet)) =
        some ([], [2 ^ 63 - 19, 2 ^ 63 - 1], 20) := by decide +kernel
    obtain ⟨r, hmade, hr⟩ := Option.map_eq_some_iff.1 hrun
    refine ⟨r, CreateResult.made_eq_some.1 hmade, fun hbalanced => ?_⟩
    obtain ⟨hvin, hvout, hfee⟩ := Prod.mk.inj hr |>.imp id Prod.mk.inj
    have hsum := hbalanced.sum_eq
    rw [hvin, hvout, hfee] at hsum
    exact absurd hsum (by decide)
  · have hrun : (payFrom hugeTx ⟨.noDestination, false, (List.range 5).map fun n => ⟨1, n⟩⟩
        [([], 20000)]).made.map (fun r => decide ((r.wtxNew.vin.map fun txin =>
          (((confirmedWallet hugeTx).prevTxOut txin.prevout).map CTxOut.nValue).getD 0).sum =
            (r.wtxNew.vout.map CTxOut.nValue).sum + r.nFeeRet)) = some false := by decide +kernel
    obtain ⟨r, hmade, hr⟩ := Option.map_eq_some_iff.1 hrun
    exact ⟨r, CreateResult.made_eq_some.1 hmade, fun hbalanced =>
      of_decide_eq_false hr hbalanced.sum_eq⟩

end MotaCoin
