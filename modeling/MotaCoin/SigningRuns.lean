import MotaCoin.CreateBalance
import MotaCoin.Relocation
import MotaCoin.Signing

/-!
# Transactions that are signed

A transaction is signed input by input, and each `scriptSig` is put in while those of the other inputs
still change. `CreateTransaction` signs one for each coin in turn, and nothing it signs later may undo
what it signed before.

## Main definitions

* `verifySignature`: `VerifySignature`
* `signSignatureFrom`: `SignSignature` for an output of a transaction

## Main results

* `signInputs_verified`: all inputs that were signed verify
* `createTransaction_verified`: what is made verifies as a whole
-/

namespace MotaCoin

open Wire Greedy

/-! ## The code -/

section Code

variable (hashTx : CTransaction → Uint256) (crypto : ScriptCrypto)

/-- `VerifySignature`, with no hash type asked for. -/
def verifySignature (txFrom txTo : CTransaction) (nIn : Nat) : Bool :=
  match txTo.vin[nIn]? with
  | none => false
  | some txin =>
    match txFrom.vout[txin.prevout.n]? with
    | none => false
    | some txout =>
      if txin.prevout.hash ≠ hashTx txFrom then false
      else (verifyScript ⟨crypto, txTo, nIn, 0⟩ txin.scriptSig txout.scriptPubKey).verdict

/-- `SignSignature` for an output of a transaction: the `scriptSig`; none where it fails, or one of its
assertions does. -/
def signSignatureFrom (keystore : CKeyStore) (nHashType : UInt32) (txFrom txTo : CTransaction)
    (nIn : Nat) : Option CScript :=
  match txTo.vin[nIn]? with
  | none => none
  | some txin =>
    match txFrom.vout[txin.prevout.n]? with
    | none => none
    | some txout =>
      if txin.prevout.hash ≠ hashTx txFrom then none
      else
        let r := signSignature crypto keystore txout.scriptPubKey txTo nIn nHashType
        if r.1 then (r.2.vin[nIn]?).map CTxIn.scriptSig else none

end Code

/-! ## Inputs that are signed in turn -/

section SignSignature

variable {hashTx : CTransaction → Uint256} {crypto : ScriptCrypto} {keystore : CKeyStore}
  {nHashType : UInt32} {scriptPubKey : CScript} {txFrom txTo : CTransaction} {nIn : Nat}

/-- What `SignSignature` puts into an input. -/
theorem exists_of_signSignatureFrom {scriptSig : CScript}
    (h : signSignatureFrom hashTx crypto keystore nHashType txFrom txTo nIn = some scriptSig) :
    ∃ txin txout, txTo.vin[nIn]? = some txin ∧ txin.prevout.hash = hashTx txFrom ∧
      txFrom.vout[txin.prevout.n]? = some txout ∧
      Accepts ⟨crypto, txTo.setScriptSig nIn scriptSig, nIn, 0⟩ scriptSig txout.scriptPubKey := by
  unfold signSignatureFrom at h
  split at h
  · cases h
  · next txin hvin =>
    split at h
    · cases h
    · next txout hvout =>
      dsimp only at h
      split_ifs at h with hhash hsigned
      obtain ⟨scriptSig', htx, haccepts⟩ := @exists_signSignature crypto keystore nHashType
        txout.scriptPubKey txTo nIn
      rw [htx, CTransaction.getElem?_setScriptSig hvin] at h
      obtain rfl : scriptSig' = scriptSig := Option.some.inj h
      exact ⟨txin, txout, hvin, not_not.mp hhash, hvout, haccepts hsigned⟩

theorem verifySignature_iff : verifySignature hashTx crypto txFrom txTo nIn = true ↔
    ∃ txin txout, txTo.vin[nIn]? = some txin ∧ txin.prevout.hash = hashTx txFrom ∧
      txFrom.vout[txin.prevout.n]? = some txout ∧
      Accepts ⟨crypto, txTo, nIn, 0⟩ txin.scriptSig txout.scriptPubKey := by
  unfold verifySignature
  constructor
  · intro h
    split at h
    · cases h
    · next txin hvin =>
      split at h
      · cases h
      · next txout hvout =>
        split_ifs at h with hhash
        exact ⟨txin, txout, hvin, not_not.mp hhash, hvout, h⟩
  · rintro ⟨txin, txout, hvin, hhash, hvout, haccepts⟩
    rw [hvin]
    dsimp only
    rw [hvout]
    dsimp only
    rw [if_neg (not_not.mpr hhash)]
    exact haccepts

/-- Whether an input verifies is a matter of its own `scriptSig` and of what is signed. -/
theorem verifySignature_congr {txTo' : CTransaction} (hunsigned : txTo.unsigned = txTo'.unsigned)
    (hvin : txTo.vin[nIn]? = txTo'.vin[nIn]?) :
    verifySignature hashTx crypto txFrom txTo nIn = verifySignature hashTx crypto txFrom txTo' nIn := by
  have haccepts (scriptSig scriptPubKey : CScript) :=
    @SameChecks.accepts_iff _ _ (@sameChecks_of_unsigned crypto _ _ hunsigned nIn 0) scriptSig
      scriptPubKey
  rw [Bool.eq_iff_iff, verifySignature_iff, verifySignature_iff, hvin]
  simp only [haccepts]

end SignSignature

section SignInputs

variable {hashTx : CTransaction → Uint256} {crypto : ScriptCrypto} {keystore : CKeyStore}
  {nHashType : UInt32} {coins : List WalletCoin} {nIn : Nat} {wtxNew tx : CTransaction}

/-- Signing on keeps what is signed already. -/
theorem signInputs_frame
    (h : signInputs (signSignatureFrom hashTx crypto keystore nHashType) coins nIn wtxNew = some tx) :
    tx.unsigned = wtxNew.unsigned ∧ ∀ i < nIn, tx.vin[i]? = wtxNew.vin[i]? := by
  induction coins generalizing nIn wtxNew with
  | nil =>
    obtain rfl := Option.some.inj h
    exact ⟨rfl, fun _ _ => rfl⟩
  | cons coin coins ih =>
    rw [signInputs] at h
    split at h
    · cases h
    · next scriptSig _ =>
      obtain ⟨hunsigned, hvin⟩ := ih h
      refine ⟨hunsigned.trans (wtxNew.unsigned_setScriptSig nIn scriptSig), fun i hi => ?_⟩
      exact (hvin i (by omega)).trans (wtxNew.getElem?_setScriptSig_ne hi.ne' scriptSig)

/-- **All inputs that were signed verify** once the last of them is. -/
theorem signInputs_verified
    (h : signInputs (signSignatureFrom hashTx crypto keystore nHashType) coins nIn wtxNew = some tx) :
    ∀ i coin, coins[i]? = some coin → verifySignature hashTx crypto coin.1 tx (nIn + i) = true := by
  induction coins generalizing nIn wtxNew with
  | nil => exact fun i coin hcoin => by cases hcoin
  | cons coin coins ih =>
    rw [signInputs] at h
    split at h
    · cases h
    · next scriptSig hsign =>
      intro i coin' hcoin
      cases i with
      | succ i =>
        rw [← Nat.add_assoc, Nat.add_right_comm]
        exact ih h i coin' hcoin
      | zero =>
        obtain rfl := Option.some.inj hcoin
        obtain ⟨hunsigned, hvin⟩ := signInputs_frame h
        obtain ⟨txin, txout, hin, hhash, hout, haccepts⟩ := exists_of_signSignatureFrom hsign
        rw [Nat.add_zero, verifySignature_congr hunsigned (hvin nIn (Nat.lt_succ_self nIn)),
          verifySignature_iff]
        exact ⟨_, txout, wtxNew.getElem?_setScriptSig hin scriptSig, hhash, hout, haccepts⟩

end SignInputs

/-! ## What CreateTransaction makes -/

section Create

variable {C : Crypto} {env : CreateEnv} {h : Nat} {w : CWallet} {vecSend : List (CScript × Int)}
  {nSplitBlock : Int} {coinControl : Option CCoinControl} {wtxNew : CTransaction}

/-- A transaction that spends the coins, and was signed for each. -/
def CreatedTx.Signed (C : Crypto) (draws : CreateDraws) (r : CreatedTx) : Prop :=
  ∃ wtxNew : CTransaction, wtxNew.vin = spendingInputs C r.coins ∧
    signInputs draws.signSignature r.coins 0 wtxNew = some r.wtxNew

theorem signed_of_finishRound {draws : CreateDraws} {coins : List WalletCoin} {nFeeRet : Int}
    {change : Option (Nat × CTxOut)} {pool : KeyPoolRun} {r : CreatedTx}
    (hvin : wtxNew.vin = spendingInputs C coins)
    (hr : finishRound env draws wtxNew coins nFeeRet change pool = .created r) : r.Signed C draws := by
  obtain ⟨hsigned, -, rfl, -⟩ := finishRound_created hr
  exact ⟨wtxNew, hvin, hsigned⟩

theorem signed_of_createRounds {draws : Nat → CreateDraws} {nValue : Int} {rounds : Nat} {r : CreatedTx} :
    ∀ {round : Nat} {nFeeRet : Int} {pool : KeyPoolRun},
      createRounds C env h w vecSend nSplitBlock coinControl draws wtxNew nValue rounds round nFeeRet
        pool = .created r → ∃ k, r.Signed C (draws k) := by
  induction rounds with
  | zero =>
    intro round nFeeRet pool hr
    cases hr
  | succ rounds ih =>
    intro round nFeeRet pool hr
    rw [createRounds] at hr
    split at hr
    · exact ih hr
    · rcases createRound_cases C env h w vecSend nSplitBlock coinControl (draws round) wtxNew nValue
        nFeeRet pool with hcase | hcase | ⟨sel, -, -, ⟨-, _, _, -, hcase⟩ | ⟨-, hcase⟩⟩
      · cases hcase.symm.trans hr
      · cases hcase.symm.trans hr
      · exact ⟨round, signed_of_finishRound rfl (hcase.symm.trans hr)⟩
      · exact ⟨round, signed_of_finishRound rfl (hcase.symm.trans hr)⟩

/-- What `CreateTransaction` makes was signed in the last of its rounds. -/
theorem createTransaction_signed {draws : Nat → CreateDraws} {pool : KeyPoolRun} {rounds : Nat}
    {r : CreatedTx} (hr : createTransaction C env h w vecSend nSplitBlock coinControl draws wtxNew pool
      rounds = .created r) : ∃ k, r.Signed C (draws k) := by
  unfold createTransaction at hr
  split at hr
  · cases hr
  · split at hr
    · cases hr
    · exact signed_of_createRounds hr

/-- Where all signatures are good, it makes no difference that they are checked. -/
theorem spendInputs_of_verified {ctx : CTransaction.ConnectCtx} {tx : CTransaction}
    {pos : CDiskTxPos} {fBlock fMiner : Bool} {vin : List CTxIn} :
    ∀ {i : Nat} {inputs : MapPrevTx} {q : TxIndexQueue},
      (∀ j txin e, vin[j]? = some txin → inputs txin.prevout.hash = some e →
        C.verifySignature e.2 tx (i + j) = true) →
      CTransaction.spendInputs C (ctx.withSignatures true) tx pos fBlock fMiner i vin inputs q =
        CTransaction.spendInputs C (ctx.withSignatures false) tx pos fBlock fMiner i vin inputs q := by
  induction vin with
  | nil => exact fun _ => rfl
  | cons txin vin ih =>
    intro i inputs q hverified
    rw [CTransaction.spendInputs, CTransaction.spendInputs]
    split
    · rfl
    · next txindex txPrev hinput =>
      have hfirst : C.verifySignature txPrev tx i = true := hverified 0 txin _ rfl hinput
      split
      · rfl
      · next spent _ =>
        -- the transactions that are spent stay as they are
        have hrest : ∀ j txin' e, vin[j]? = some txin' →
            Function.update inputs txin.prevout.hash (some ({ txindex with
              vSpent := txindex.vSpent.set txin.prevout.n pos }, txPrev)) txin'.prevout.hash = some e →
            C.verifySignature e.2 tx (i + 1 + j) = true := by
          intro j txin' e hj he
          have hnext := hverified (j + 1) txin'
          rw [← Nat.add_assoc, Nat.add_right_comm] at hnext
          rw [Function.update_apply] at he
          split_ifs at he with hhash
          · obtain rfl := Option.some.inj he
            exact hnext (txindex, txPrev) hj (hhash ▸ hinput)
          · exact hnext e hj he
        rw [ih hrest, hfirst]
        simp [CTransaction.ConnectCtx.withSignatures]

/-- **What `CreateTransaction` makes verifies as a whole**: `ConnectInputs` does with it what it does
where no signature is checked. -/
theorem createTransaction_verified (crypto : ScriptCrypto) (keystore : CKeyStore)
    (draws : Nat → CreateDraws) (pool : KeyPoolRun) (rounds : Nat) (r : CreatedTx)
    (hinj : Function.Injective C.hashTx)
    (hverify : C.verifySignature = verifySignature C.hashTx crypto)
    (hsign : ∀ k, (draws k).signSignature = signSignatureFrom C.hashTx crypto keystore SIGHASH_ALL)
    (hr : createTransaction C env h w vecSend nSplitBlock coinControl draws wtxNew pool rounds =
      .created r)
    (ctx : CTransaction.ConnectCtx) (inputs : MapPrevTx)
    (hinputs : ∀ hash e, inputs hash = some e → C.hashTx e.2 = hash) (q : TxIndexQueue)
    (pos : CDiskTxPos) (fBlock fMiner : Bool) :
    CTransaction.connectInputs C (ctx.withSignatures true) r.wtxNew inputs q pos fBlock fMiner =
      CTransaction.connectInputs C (ctx.withSignatures false) r.wtxNew inputs q pos fBlock fMiner := by
  obtain ⟨k, wtxNew', hvin, hsigned⟩ := createTransaction_signed hr
  rw [hsign k] at hsigned
  have hverified := signInputs_verified hsigned
  have hprevout := (signInputs_eq_some hsigned).1
  have hspend (posThisTx : TxIndexQueue) :=
    @spendInputs_of_verified C ctx r.wtxNew pos fBlock fMiner r.wtxNew.vin 0 inputs posThisTx ?_
  · unfold CTransaction.connectInputs
    simp only [checkInputs_withSignatures, hspend]
  · intro j txin e hj he
    have hcoin : (r.coins[j]?).map (fun coin => (⟨C.hashTx coin.1, coin.2⟩ : COutPoint)) =
        some txin.prevout := by
      have hmap := congrArg (·[j]?) hprevout
      simp only [hvin, spendingInputs, List.getElem?_map, hj, Option.map_some, Option.map_map] at hmap
      exact hmap.symm
    obtain ⟨coin, hcoin, hpoint⟩ := Option.map_eq_some_iff.mp hcoin
    have hhash : C.hashTx e.2 = C.hashTx coin.1 := by
      rw [hinputs _ e he, ← hpoint]
    rw [hverify, hinj hhash]
    exact hverified j coin hcoin

end Create

/-- The crypto of the wallet with one transaction, with signatures that are checked. -/
noncomputable def verifyingCrypto : Crypto :=
  { confirmedCrypto incomeTx with
    verifySignature := verifySignature (confirmedCrypto incomeTx).hashTx knownCrypto }

/-- The wallet, with its key. -/
def signingWallet : CWallet :=
  { confirmedWallet incomeTx with keys := (keyStoreOf ownPubKey []).ownKeys knownCrypto }

/-- The coins are signed for. -/
noncomputable def signingDraws : CreateDraws :=
  { firstDraws incomeTx with
    signSignature := signSignatureFrom verifyingCrypto.hashTx knownCrypto (keyStoreOf ownPubKey [])
      SIGHASH_ALL }

/-- The wallet pays. -/
noncomputable def signedPayment : CreateResult :=
  createTransaction verifyingCrypto (confirmedEnv incomeTx) 0 signingWallet [([], 20000)] 1
    (some ⟨.noDestination, false, [⟨1, 0⟩]⟩) (fun _ => signingDraws) ⟨1, 2000, [], [], 0⟩ ownPool 101

/-- What that wallet signs verifies. -/
theorem createTransaction_verified_incomeTx : ∃ r, signedPayment = .created r ∧
    CTransaction.connectInputs verifyingCrypto ⟨fun _ _ => false, true⟩ r.wtxNew
        (fun hash => if hash = 1 then some (⟨⟨0, 0, 81⟩, [.null]⟩, incomeTx) else none) ∅ ⟨0, 500, 581⟩
        true false =
      CTransaction.connectInputs verifyingCrypto ⟨fun _ _ => false, false⟩ r.wtxNew
        (fun hash => if hash = 1 then some (⟨⟨0, 0, 81⟩, [.null]⟩, incomeTx) else none) ∅ ⟨0, 500, 581⟩
        true false := by
  have hrun : signedPayment.made.isSome = true := by decide +kernel
  obtain ⟨r, hmade⟩ := Option.isSome_iff_exists.mp hrun
  have hcreated := CreateResult.made_eq_some.1 hmade
  have hinj : Function.Injective verifyingCrypto.hashTx :=
    (labelCrypto_hashInjective [incomeTx] [incomeBlock.getBlockHeader]).hashTx
  refine ⟨r, hcreated, createTransaction_verified knownCrypto (keyStoreOf ownPubKey [])
    (fun _ => signingDraws) ownPool 101 r hinj rfl (fun _ => rfl) hcreated ⟨fun _ _ => false, true⟩ _
    (fun hash e he => ?_) ∅ ⟨0, 500, 581⟩ true false⟩
  split_ifs at he with hhash
  obtain rfl := Option.some.inj he
  subst hhash
  change Labelling.label [incomeTx] incomeTx = 1
  rw [Labelling.label, if_pos (List.mem_singleton.2 rfl), List.idxOf_cons_self]

end MotaCoin
