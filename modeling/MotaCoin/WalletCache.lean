import MotaCoin.SpentFlags

/-!
# The cached amounts of a wallet

Each transaction keeps four amounts. They depend on its outputs, its spent flags, the address book
and, the debit, on which transactions it spends from are in the wallet.

## Main definitions

* `CWallet.CacheCoherent`, `CWallet.CachesCoherent`: the caches that are filled hold the amounts
* `CWallet.SameTxs`: wallets in which the amounts are the same
* `WalletOp`, `CWallet.op`, `CWallet.ops`: what adds, changes or reads transactions
* `CWallet.OpOK`: an operation after which no cache is stale
* `CWalletTx.ReadsFresh`: what is read is what is computed without the caches

## Main results

* `readsFresh_ops`: no amount that is read is stale after a run of such operations
-/

namespace MotaCoin

variable {C : Crypto} {env : WalletEnv}

/-! ## Amounts of a transaction -/

namespace OwnKeys

/-- The available credit depends on the flags of the outputs there are. -/
theorem availableCredit_congr (keys : OwnKeys) {wtx wtx' : CWalletTx} (htx : wtx'.tx = wtx.tx)
    (hspent : ∀ n < wtx.tx.vout.length, wtx'.isSpent n = wtx.isSpent n) :
    keys.availableCredit wtx' = keys.availableCredit wtx := by
  rw [availableCredit, availableCredit, htx]
  congr 2
  refine List.filter_congr fun p hp => ?_
  obtain ⟨-, hlt, -⟩ := List.mem_zipIdx hp
  exact congrArg not (hspent p.2 (by omega))

end OwnKeys

namespace CWalletTx

variable (wtx : CWalletTx)

theorem tx_getDebit (w : CWallet) : (wtx.getDebit w).2.tx = wtx.tx := by
  rw [getDebit]
  split <;> rfl

theorem tx_getAvailableCredit (C : Crypto) (s : NodeState) (keys : OwnKeys) :
    (wtx.getAvailableCredit C s keys).2.tx = wtx.tx := by
  obtain ⟨f, hf⟩ := wtx.getBlocksToMaturity_snd C s
  rw [getAvailableCredit]
  dsimp only
  rw [hf]
  split <;> rfl

/-- The depth does not depend on the caches. -/
theorem getDepthInMainChain_markDirty (C : Crypto) (s : NodeState) :
    (wtx.markDirty.getDepthInMainChain C s).1 = (wtx.getDepthInMainChain C s).1 := by
  have hinternal : wtx.markDirty.getDepthInMainChainINTERNAL C s =
      ((wtx.getDepthInMainChainINTERNAL C s).1, (wtx.getDepthInMainChainINTERNAL C s).2.markDirty) := by
    rw [getDepthInMainChainINTERNAL, getDepthInMainChainINTERNAL]
    by_cases hnone : wtx.hashBlock = 0 ∨ wtx.nIndex = -1
    · rw [if_pos hnone]
      exact if_pos hnone
    · rw [if_neg hnone]
      refine (if_neg hnone).trans ?_
      have hhash : wtx.markDirty.hashBlock = wtx.hashBlock := rfl
      rw [hhash]
      cases s.mapBlockIndex wtx.hashBlock with
      | none => rfl
      | some pindex =>
        dsimp only
        by_cases hmain : (!s.isInMainChain wtx.hashBlock) = true
        · rw [if_pos hmain, if_pos hmain]
        · rw [if_neg hmain, if_neg hmain]
          by_cases hbad : (!wtx.fMerkleVerified && checkMerkleBranch C (C.hashTx wtx.tx)
              wtx.vMerkleBranch wtx.nIndex != pindex.hashMerkleRoot) = true
          · rw [if_pos hbad]
            exact if_pos hbad
          · rw [if_neg hbad]
            exact if_neg hbad
  rw [getDepthInMainChain, getDepthInMainChain, hinternal]
  dsimp only [markDirty]
  split <;> rfl

theorem getBlocksToMaturity_markDirty (C : Crypto) (s : NodeState) :
    (wtx.markDirty.getBlocksToMaturity C s).1 = (wtx.getBlocksToMaturity C s).1 := by
  have hdepth := wtx.getDepthInMainChain_markDirty C s
  rw [getBlocksToMaturity, getBlocksToMaturity]
  by_cases hplain : (!(wtx.tx.isCoinBase || wtx.tx.isCoinStake)) = true
  · rw [if_pos hplain]
    exact (congrArg Prod.fst (if_pos hplain)).trans rfl
  · rw [if_neg hplain]
    refine (congrArg Prod.fst (if_neg hplain)).trans ?_
    dsimp only
    rw [hdepth]

end CWalletTx

namespace CWallet

variable {w w' : CWallet}

/-- The caches of a transaction that are filled hold the amounts. -/
structure CacheCoherent (w : CWallet) (wtx : CWalletTx) : Prop where
  debit : Memo.Coherent wtx.nDebitCached (w.txDebit wtx.tx)
  credit : Memo.Coherent wtx.nCreditCached (w.keys.txCredit wtx.tx)
  available : Memo.Coherent wtx.nAvailableCreditCached (w.keys.availableCredit wtx)
  change : Memo.Coherent wtx.nChangeCached (w.txChange wtx.tx)

/-- The caches of all transactions do. -/
def CachesCoherent (w : CWallet) : Prop :=
  ∀ hash wtx, w.mapWallet.lookup hash = some wtx → w.CacheCoherent wtx

section Transaction

variable {wtx : CWalletTx}

theorem cacheCoherent_of_dirty (hdebit : wtx.nDebitCached = none) (hcredit : wtx.nCreditCached = none)
    (havailable : wtx.nAvailableCreditCached = none) (hchange : wtx.nChangeCached = none) :
    w.CacheCoherent wtx :=
  ⟨hdebit ▸ Memo.coherent_none, hcredit ▸ Memo.coherent_none, havailable ▸ Memo.coherent_none,
    hchange ▸ Memo.coherent_none⟩

theorem CacheCoherent.setSpent (h : w.CacheCoherent wtx) (n : Nat) (fSpent : Bool) :
    w.CacheCoherent (wtx.setSpent n fSpent) := by
  have htx : (wtx.setSpent n fSpent).tx = wtx.tx := wtx.tx_setSpent n fSpent
  by_cases hn : wtx.tx.vout.length ≤ n
  · rw [CWalletTx.setSpent, if_pos hn]
    exact h
  · have hset : wtx.setSpent n fSpent = _ := if_neg hn
    constructor
    · rw [htx, hset]
      exact h.debit
    · rw [htx, hset]
      exact h.credit
    · by_cases hsame : wtx.resizeSpent.getD n false = fSpent
      · -- the flag was so already
        have havailable : w.keys.availableCredit (wtx.setSpent n fSpent) =
            w.keys.availableCredit wtx := by
          refine OwnKeys.availableCredit_congr _ htx fun m hm => ?_
          rw [CWalletTx.isSpent_setSpent wtx (Nat.lt_of_not_le hn) hm]
          split
          · next hmn =>
            rw [hmn, ← hsame, CWalletTx.getD_resizeSpent wtx (Nat.lt_of_not_le hn)]
          · rfl
        rw [havailable, hset]
        dsimp only
        rw [if_pos hsame]
        exact h.available
      · rw [hset]
        dsimp only
        rw [if_neg hsame]
        exact Memo.coherent_none
    · rw [htx, hset]
      exact h.change

theorem CacheCoherent.updateSpent (h : w.CacheCoherent wtx) (vfNewSpent : List Bool) :
    w.CacheCoherent (wtx.updateSpent vfNewSpent).2 := by
  refine ⟨h.debit, h.credit, ?_, h.change⟩
  by_cases hsame : CWalletTx.updateFlags wtx.vfSpent vfNewSpent = wtx.vfSpent
  · have hunchanged : (wtx.updateSpent vfNewSpent).2 = wtx := by
      rw [CWalletTx.updateSpent]
      simp only [hsame, bne_self_eq_false, Bool.false_eq_true, if_false]
    rw [hunchanged]
    exact h.available
  · have hnone : (wtx.updateSpent vfNewSpent).2.nAvailableCreditCached = none :=
      if_pos (bne_iff_ne.2 hsame)
    rw [hnone]
    exact Memo.coherent_none

theorem cacheCoherent_markDirty (w : CWallet) (wtx : CWalletTx) : w.CacheCoherent wtx.markDirty :=
  cacheCoherent_of_dirty rfl rfl rfl rfl

theorem CacheCoherent.merge (h : w.CacheCoherent wtx) (wtxIn : CWalletTx) :
    w.CacheCoherent (wtx.merge wtxIn).2 := by
  have hplain (hashBlock : Uint256) (vMerkleBranch : List Uint256) (nIndex : Int) (fFromMe : Bool) :
      w.CacheCoherent { wtx with
        hashBlock := hashBlock
        vMerkleBranch := vMerkleBranch
        nIndex := nIndex
        fFromMe := fFromMe } := ⟨h.debit, h.credit, h.available, h.change⟩
  rw [CWalletTx.merge]
  refine CacheCoherent.updateSpent ?_ _
  split <;> split <;> split <;> exact hplain _ _ _ _

theorem CacheCoherent.getCredit (h : w.CacheCoherent wtx) (C : Crypto) (s : NodeState) :
    w.CacheCoherent (wtx.getCredit C s w.keys).2 := by
  obtain ⟨f, hf⟩ := wtx.getBlocksToMaturity_snd C s
  rw [CWalletTx.getCredit]
  dsimp only
  rw [hf]
  split
  · exact ⟨h.debit, h.credit, h.available, h.change⟩
  · exact ⟨h.debit, h.credit.get_snd, h.available, h.change⟩

theorem CacheCoherent.getAvailableCredit (h : w.CacheCoherent wtx) (C : Crypto) (s : NodeState) :
    w.CacheCoherent (wtx.getAvailableCredit C s w.keys).2 := by
  obtain ⟨f, hf⟩ := wtx.getBlocksToMaturity_snd C s
  rw [CWalletTx.getAvailableCredit]
  dsimp only
  rw [hf]
  split
  · exact ⟨h.debit, h.credit, h.available, h.change⟩
  · exact ⟨h.debit, h.credit, h.available.get_snd, h.change⟩

theorem CacheCoherent.getDebit (h : w.CacheCoherent wtx) : w.CacheCoherent (wtx.getDebit w).2 := by
  rw [CWalletTx.getDebit]
  split
  · exact h
  · exact ⟨h.debit.get_snd, h.credit, h.available, h.change⟩

theorem CacheCoherent.getChange (h : w.CacheCoherent wtx) : w.CacheCoherent (wtx.getChange w).2 :=
  ⟨h.debit, h.credit, h.available, h.change.get_snd⟩

end Transaction

/-! ## A transaction changes -/

/-- Wallets with the same keys, address book and transactions, up to what is known of these. -/
structure SameTxs (w w' : CWallet) : Prop where
  keys : w'.keys = w.keys
  mapAddressBook : w'.mapAddressBook = w.mapAddressBook
  tx : ∀ hash, (w'.mapWallet.lookup hash).map CWalletTx.tx = (w.mapWallet.lookup hash).map CWalletTx.tx

theorem SameTxs.ownOutput (h : SameTxs w w') (txin : CTxIn) : w'.ownOutput txin = w.ownOutput txin := by
  have hprev (w : CWallet) : ((w.mapWallet.lookup txin.prevout.hash).bind fun prev =>
      prev.tx.vout[txin.prevout.n]?) =
      ((w.mapWallet.lookup txin.prevout.hash).map CWalletTx.tx).bind fun tx =>
        tx.vout[txin.prevout.n]? := by
    cases w.mapWallet.lookup txin.prevout.hash <;> rfl
  rw [CWallet.ownOutput, CWallet.ownOutput, h.keys, hprev, hprev, h.tx]

theorem SameTxs.txDebit (h : SameTxs w w') (tx : CTransaction) : w'.txDebit tx = w.txDebit tx := by
  simp only [CWallet.txDebit, CWallet.inDebit, h.ownOutput]

theorem SameTxs.txChange (h : SameTxs w w') (tx : CTransaction) : w'.txChange tx = w.txChange tx := by
  have hbook : w'.bookName = w.bookName := by
    funext dest
    rw [bookName, bookName, h.mapAddressBook]
  have hchange : w'.isChange = w.isChange := by
    funext txout
    rw [isChange, isChange, h.keys, hbook]
  have hout : w'.outChange = w.outChange := by
    funext txout
    rw [outChange, outChange, hchange]
  rw [CWallet.txChange, CWallet.txChange, hout]

theorem SameTxs.cacheCoherent (h : SameTxs w w') {wtx : CWalletTx} (hwtx : w.CacheCoherent wtx) :
    w'.CacheCoherent wtx :=
  ⟨(h.txDebit wtx.tx).symm ▸ hwtx.debit, h.keys.symm ▸ hwtx.credit, h.keys.symm ▸ hwtx.available,
    (h.txChange wtx.tx).symm ▸ hwtx.change⟩

theorem sameTxs_setTx {hash : Uint256} {wtx wtx' : CWalletTx}
    (hlookup : w.mapWallet.lookup hash = some wtx) (htx : wtx'.tx = wtx.tx) :
    SameTxs w (w.setTx hash wtx') := by
  refine ⟨rfl, rfl, fun h => ?_⟩
  rw [CWallet.setTx]
  by_cases hh : h = hash
  · subst hh
    rw [AList.lookup_insert, hlookup, Option.map_some, Option.map_some, htx]
  · rw [AList.lookup_insert_ne hh]

theorem CachesCoherent.setTx (h : w.CachesCoherent) {hash : Uint256} {wtx wtx' : CWalletTx}
    (hlookup : w.mapWallet.lookup hash = some wtx) (htx : wtx'.tx = wtx.tx)
    (hwtx' : w.CacheCoherent wtx') : (w.setTx hash wtx').CachesCoherent := by
  have hsame := sameTxs_setTx hlookup htx
  intro h' wtx'' hlookup'
  rw [CWallet.setTx] at hlookup'
  by_cases hh : h' = hash
  · subst hh
    rw [AList.lookup_insert] at hlookup'
    obtain rfl := Option.some.inj hlookup'
    exact hsame.cacheCoherent hwtx'
  · rw [AList.lookup_insert_ne hh] at hlookup'
    exact hsame.cacheCoherent (h h' wtx'' hlookup')

theorem CachesCoherent.markInputs {vin : List CTxIn} (h : w.CachesCoherent) :
    (markInputs C env vin w).2.CachesCoherent := by
  induction vin generalizing w with
  | nil => exact h
  | cons txin vin ih =>
    rw [CWallet.markInputs]
    split
    · exact ih h
    · next wtx hlookup =>
      split
      · exact ih h
      · split
        · have hcredit := (h _ wtx hlookup).getCredit C env.node
          have htx := wtx.tx_getCredit C env.node w.keys
          dsimp only
          split
          · exact h.setTx hlookup htx hcredit
          · exact ih (h.setTx hlookup ((CWalletTx.tx_setSpent _ _ _).trans htx)
              (hcredit.setSpent _ _))
        · exact ih h

theorem CacheCoherent.markOutputs {wtx : CWalletTx} (h : w.CacheCoherent wtx) (keys : OwnKeys)
    (vout : List CTxOut) : w.CacheCoherent (markOutputs keys vout wtx) := by
  refine List.foldlRecOn (motive := w.CacheCoherent) _ _ h fun wtx' hwtx' p _ => ?_
  dsimp only
  split
  · exact hwtx'.setSpent _ _
  · exact hwtx'

theorem CachesCoherent.walletUpdateSpent (h : w.CachesCoherent) (tx : CTransaction) (fBlock : Bool) :
    (w.walletUpdateSpent C env tx fBlock).2.CachesCoherent := by
  have hinputs : (CWallet.markInputs C env tx.vin w).2.CachesCoherent := h.markInputs
  rw [CWallet.walletUpdateSpent]
  generalize CWallet.markInputs C env tx.vin w = r at hinputs
  obtain ⟨_ | _, w₁⟩ := r
  · exact hinputs
  · dsimp only at hinputs ⊢
    cases fBlock with
    | false => exact hinputs
    | true =>
      cases hfound : w₁.mapWallet.lookup (C.hashTx tx) with
      | none => exact hinputs
      | some wtx =>
        exact hinputs.setTx hfound (tx_markOutputs _ _ _) ((hinputs _ wtx hfound).markOutputs _ _)

/-! ## A transaction is added -/

/-- When no cache is stale after `AddToWallet`. -/
structure CacheOK (C : Crypto) (env : WalletEnv) (w : CWallet) (wtxIn : CWalletTx) : Prop where
  /-- No transaction with a cached debit spends an own output, which is worth something, of a
  transaction that is new. -/
  debit : C.hashTx wtxIn.tx ∉ w.mapWallet → ∀ hash wtx, w.mapWallet.lookup hash = some wtx →
    wtx.nDebitCached ≠ none → ∀ txin ∈ wtx.tx.vin, txin.prevout.hash = C.hashTx wtxIn.tx →
      ∀ txout, wtxIn.tx.vout[txin.prevout.n]? = some txout →
        w.keys.isMine txout.scriptPubKey = true → txout.nValue = 0
  /-- No transaction with a cached change has change, which is worth something, that is none any more
  once the default key is replaced. -/
  change : ¬((w.insertOrMerge C env wtxIn).1 = true ∧ env.fWritten = false) →
    ∀ hash wtx, (w.insertOrMerge C env wtxIn).2.2.mapWallet.lookup hash = some wtx →
      wtx.nChangeCached ≠ none → ∀ txout ∈ wtx.tx.vout,
        (w.insertOrMerge C env wtxIn).2.2.isChange txout = true → txout.nValue = 0 ∨
          ((w.insertOrMerge C env wtxIn).2.2.replaceDefaultKey env
            (w.insertOrMerge C env wtxIn).2.1.tx).isChange txout = true

/-- An input debits what it did before a transaction was inserted, unless it spends an own output of
that, which is worth something. -/
theorem inDebit_insert {hash : Uint256} (hnone : w.mapWallet.lookup hash = none) {tx : CTransaction}
    {txin : CTxIn} (hzero : txin.prevout.hash = hash → ∀ txout, tx.vout[txin.prevout.n]? = some txout →
      w.keys.isMine txout.scriptPubKey = true → txout.nValue = 0) (hkeys : w'.keys = w.keys)
    (hmap : ∃ wtx, w'.mapWallet = w.mapWallet.insert hash wtx ∧ wtx.tx = tx) :
    w'.inDebit txin = w.inDebit txin := by
  obtain ⟨wtx, hmap, rfl⟩ := hmap
  rw [inDebit, inDebit, ownOutput, ownOutput, hkeys, hmap]
  by_cases hh : txin.prevout.hash = hash
  · rw [hh, AList.lookup_insert, hnone, Option.bind_some, Option.bind_none, Option.filter_none,
      Option.map_none, Option.getD_none]
    cases hout : wtx.tx.vout[txin.prevout.n]? with
    | none => rfl
    | some txout =>
      by_cases hmine : w.keys.isMine txout.scriptPubKey = true
      · rw [Option.filter_some, if_pos hmine]
        exact hzero hh txout hout hmine
      · rw [Option.filter_some, if_neg hmine]
        rfl
  · rw [AList.lookup_insert_ne hh]

theorem CachesCoherent.insertOrMerge (h : w.CachesCoherent) {wtxIn : CWalletTx}
    (hok : CacheOK C env w wtxIn) : (w.insertOrMerge C env wtxIn).2.2.CachesCoherent := by
  have hdebit := hok.debit
  rw [CWallet.insertOrMerge]
  cases hlookup : w.mapWallet.lookup (C.hashTx wtxIn.tx) with
  | some wtx =>
    exact h.setTx hlookup (wtx.markDirty.tx_merge wtxIn) ((cacheCoherent_markDirty w wtx).merge wtxIn)
  | none =>
    have hnew : C.hashTx wtxIn.tx ∉ w.mapWallet := AList.lookup_eq_none.1 hlookup
    intro hash wtx hwtx
    dsimp only at hwtx ⊢
    rw [CWallet.setTx] at hwtx
    by_cases hh : hash = C.hashTx wtxIn.tx
    · -- the new transaction itself has no cached amounts
      subst hh
      rw [AList.lookup_insert] at hwtx
      obtain rfl := Option.some.inj hwtx
      exact cacheCoherent_of_dirty rfl rfl rfl rfl
    · rw [AList.lookup_insert_ne hh] at hwtx
      have hcoherent := h hash wtx hwtx
      refine ⟨hcoherent.debit.congr fun hcached => ?_, hcoherent.credit, hcoherent.available,
        hcoherent.change⟩
      rw [txDebit, txDebit]
      congr 1
      refine List.map_congr_left fun txin hmem => congrArg some ?_
      refine inDebit_insert hlookup (hdebit hnew hash wtx hwtx hcached txin hmem) ?_ ?_
      · rfl
      · exact ⟨_, rfl, rfl⟩

/-- What has no name in a larger address book has none in the smaller one. -/
theorem isChange_of_bookName {txout : CTxOut} (hkeys : w'.keys = w.keys)
    (hbook : ∀ dest, w'.bookName dest = none → w.bookName dest = none)
    (h : w'.isChange txout = true) : w.isChange txout = true := by
  rw [isChange, hkeys] at h
  rw [isChange]
  split at h
  · cases h
  · next address haddress =>
    rw [Bool.and_eq_true, Option.isNone_iff_eq_none] at h
    rw [h.1, hbook address h.2]
    rfl

theorem bookName_insert (dest dest' : CTxDestination) (strName : String)
    (hbook : w'.mapAddressBook = w.mapAddressBook.insert dest' strName)
    (h : w'.bookName dest = none) : w.bookName dest = none := by
  rw [bookName, hbook] at h
  rw [bookName]
  split at h
  · next hno => rw [if_pos hno]
  · next hno =>
    rw [if_neg hno]
    by_cases hdest : dest = dest'
    · rw [hdest, AList.lookup_insert] at h
      cases h
    · rw [AList.lookup_insert_ne hdest] at h
      exact h

/-- Where the default key is replaced, what was no change is none. -/
theorem isChange_replaceDefaultKey {tx : CTransaction} {txout : CTxOut}
    (h : (w.replaceDefaultKey env tx).isChange txout = true) : w.isChange txout = true := by
  have hbook : (w.replaceDefaultKey env tx).keys = w.keys ∧
      ∀ dest, (w.replaceDefaultKey env tx).bookName dest = none → w.bookName dest = none := by
    refine List.foldlRecOn (motive := fun w' : CWallet =>
      w'.keys = w.keys ∧ ∀ dest, w'.bookName dest = none → w.bookName dest = none) _ _
      ⟨rfl, fun _ => id⟩ fun w' hw' p _ => ?_
    dsimp only
    split
    · split
      · exact hw'
      · exact ⟨hw'.1, fun dest hdest => hw'.2 dest (bookName_insert dest _ _ rfl hdest)⟩
    · exact hw'
  exact isChange_of_bookName hbook.1 hbook.2 h

theorem CachesCoherent.addToWallet (h : w.CachesCoherent) {wtxIn : CWalletTx}
    (hok : CacheOK C env w wtxIn) : (w.addToWallet C env wtxIn).2.CachesCoherent := by
  have hins := h.insertOrMerge hok
  have hchange := hok.change
  rw [CWallet.addToWallet]
  generalize w.insertOrMerge C env wtxIn = r at hins hchange
  obtain ⟨fWrite, wtx, w₁⟩ := r
  dsimp only at hins hchange ⊢
  split
  · exact hins
  · next hwrite =>
    rw [Bool.and_eq_true, Bool.not_eq_true'] at hwrite
    refine CachesCoherent.walletUpdateSpent ?_ _ _
    obtain ⟨hkeys, hmap⟩ := replaceDefaultKey_frame env w₁ wtx.tx
    intro hash wtx' hlookup
    rw [hmap] at hlookup
    have hcoherent := hins hash wtx' hlookup
    refine ⟨?_, hkeys ▸ hcoherent.credit, hkeys ▸ hcoherent.available,
      hcoherent.change.congr fun hcached => ?_⟩
    · have hown (txin : CTxIn) : (w₁.replaceDefaultKey env wtx.tx).inDebit txin = w₁.inDebit txin := by
        rw [inDebit, inDebit, ownOutput, ownOutput, hkeys, hmap]
      rw [txDebit, funext hown]
      exact hcoherent.debit
    · rw [txChange, txChange]
      congr 1
      refine List.map_congr_left fun txout hmem => ?_
      rw [outChange, outChange]
      split
      · rfl
      · by_cases hwas : w₁.isChange txout = true
        · rcases hchange hwrite hash wtx' hlookup hcached txout hmem hwas with hzero | his
          · rw [hzero, ite_self, ite_self]
          · rw [hwas, his]
        · rw [if_neg hwas, if_neg fun his => hwas (isChange_replaceDefaultKey his)]

end CWallet

/-! ## Runs -/

/-- What adds or changes transactions of a wallet, and what reads their amounts. A transaction is
named by its hash. -/
inductive WalletOp where
  | addToWallet (env : WalletEnv) (wtxIn : CWalletTx)
  | markSpent (hash : Uint256) (n : Nat)
  | markUnspent (hash : Uint256) (n : Nat)
  | updateSpent (hash : Uint256) (vfNewSpent : List Bool)
  | markDirty (hash : Uint256)
  /-- `MarkDirty` of the wallet. -/
  | markAllDirty
  | getDebit (hash : Uint256)
  /-- With the chain and the pool as they are then. -/
  | getCredit (s : NodeState) (hash : Uint256)
  | getAvailableCredit (s : NodeState) (hash : Uint256)
  | getChange (hash : Uint256)

namespace CWallet

variable {w : CWallet}

/-- A transaction of the wallet changes. -/
def modifyTx (w : CWallet) (hash : Uint256) (f : CWalletTx → CWalletTx) : CWallet :=
  match w.mapWallet.lookup hash with
  | none => w
  | some wtx => w.setTx hash (f wtx)

/-- `MarkDirty` of the wallet. -/
def markAllDirty (w : CWallet) : CWallet :=
  w.mapWallet.keys.foldl (fun w hash => w.modifyTx hash CWalletTx.markDirty) w

/-- One operation. -/
def op (C : Crypto) (w : CWallet) : WalletOp → CWallet
  | .addToWallet env wtxIn => (w.addToWallet C env wtxIn).2
  | .markSpent hash n => w.modifyTx hash fun wtx => wtx.markSpent n
  | .markUnspent hash n => w.modifyTx hash fun wtx => wtx.markUnspent n
  | .updateSpent hash vfNewSpent => w.modifyTx hash fun wtx => (wtx.updateSpent vfNewSpent).2
  | .markDirty hash => w.modifyTx hash CWalletTx.markDirty
  | .markAllDirty => w.markAllDirty
  | .getDebit hash => w.modifyTx hash fun wtx => (wtx.getDebit w).2
  | .getCredit s hash => w.modifyTx hash fun wtx => (wtx.getCredit C s w.keys).2
  | .getAvailableCredit s hash => w.modifyTx hash fun wtx => (wtx.getAvailableCredit C s w.keys).2
  | .getChange hash => w.modifyTx hash fun wtx => (wtx.getChange w).2

/-- A sequence of operations. -/
def ops (C : Crypto) (w : CWallet) (l : List WalletOp) : CWallet := l.foldl (op C) w

/-- An operation that adds no transaction, or one after which no cache is stale. -/
def OpOK (C : Crypto) (w : CWallet) : WalletOp → Prop
  | .addToWallet env wtxIn => CacheOK C env w wtxIn
  | _ => True

/-- Every operation of a sequence is such an operation. -/
def OpsOK (C : Crypto) : CWallet → List WalletOp → Prop
  | _, [] => True
  | w, o :: l => w.OpOK C o ∧ OpsOK C (w.op C o) l

theorem CachesCoherent.modifyTx (h : w.CachesCoherent) (hash : Uint256) {f : CWalletTx → CWalletTx}
    (htx : ∀ wtx, (f wtx).tx = wtx.tx)
    (hf : ∀ wtx, w.CacheCoherent wtx → w.CacheCoherent (f wtx)) :
    (w.modifyTx hash f).CachesCoherent := by
  rw [CWallet.modifyTx]
  split
  · exact h
  · next wtx hlookup => exact h.setTx hlookup (htx wtx) (hf wtx (h hash wtx hlookup))

/-- An operation keeps the caches coherent. -/
theorem CachesCoherent.op (h : w.CachesCoherent) {o : WalletOp} (hok : w.OpOK C o) :
    (w.op C o).CachesCoherent := by
  cases o with
  | addToWallet env wtxIn => exact h.addToWallet hok
  | markSpent hash n =>
    exact h.modifyTx hash (fun wtx => wtx.tx_setSpent n true) fun _ hwtx => hwtx.setSpent n true
  | markUnspent hash n =>
    exact h.modifyTx hash (fun wtx => wtx.tx_setSpent n false) fun _ hwtx => hwtx.setSpent n false
  | updateSpent hash vfNewSpent =>
    exact h.modifyTx hash (fun _ => rfl) fun _ hwtx => hwtx.updateSpent vfNewSpent
  | markDirty hash =>
    exact h.modifyTx hash (fun _ => rfl) fun wtx _ => cacheCoherent_markDirty w wtx
  | markAllDirty =>
    refine List.foldlRecOn (motive := CachesCoherent) _ _ h fun w' hw' hash _ => ?_
    exact hw'.modifyTx hash (fun _ => rfl) fun wtx _ => cacheCoherent_markDirty w' wtx
  | getDebit hash =>
    exact h.modifyTx hash (fun wtx => wtx.tx_getDebit w) fun _ hwtx => hwtx.getDebit
  | getCredit s hash =>
    exact h.modifyTx hash (fun wtx => wtx.tx_getCredit C s w.keys) fun _ hwtx => hwtx.getCredit C s
  | getAvailableCredit s hash =>
    exact h.modifyTx hash (fun wtx => wtx.tx_getAvailableCredit C s w.keys) fun _ hwtx =>
      hwtx.getAvailableCredit C s
  | getChange hash => exact h.modifyTx hash (fun _ => rfl) fun _ hwtx => hwtx.getChange

theorem CachesCoherent.ops {l : List WalletOp} (h : w.CachesCoherent) (hok : OpsOK C w l) :
    (w.ops C l).CachesCoherent := by
  induction l generalizing w with
  | nil => exact h
  | cons o l ih => exact ih (h.op hok.1) hok.2

end CWallet

/-- What is read of a transaction is what is computed from the wallet, without the caches. -/
structure CWalletTx.ReadsFresh (C : Crypto) (w : CWallet) (wtx : CWalletTx) : Prop where
  debit : (wtx.getDebit w).1 = (wtx.markDirty.getDebit w).1
  credit : ∀ s, (wtx.getCredit C s w.keys).1 = (wtx.markDirty.getCredit C s w.keys).1
  availableCredit : ∀ s,
    (wtx.getAvailableCredit C s w.keys).1 = (wtx.markDirty.getAvailableCredit C s w.keys).1
  change : (wtx.getChange w).1 = (wtx.markDirty.getChange w).1

theorem CWallet.CacheCoherent.readsFresh {w : CWallet} {wtx : CWalletTx} (h : w.CacheCoherent wtx) :
    wtx.ReadsFresh C w := by
  constructor
  · rw [CWalletTx.getDebit, CWalletTx.getDebit]
    split
    · next hvin => rw [if_pos (show wtx.markDirty.tx.vin.isEmpty = true from hvin)]
    · next hvin =>
      rw [if_neg (show ¬wtx.markDirty.tx.vin.isEmpty = true from hvin)]
      exact h.debit.get_fst
  · intro s
    rw [CWalletTx.getCredit, CWalletTx.getCredit]
    dsimp only
    rw [wtx.getBlocksToMaturity_markDirty C s]
    split
    · rfl
    · obtain ⟨f, hf⟩ := wtx.getBlocksToMaturity_snd C s
      obtain ⟨f', hf'⟩ := wtx.markDirty.getBlocksToMaturity_snd C s
      rw [hf, hf']
      exact h.credit.get_fst
  · intro s
    rw [CWalletTx.getAvailableCredit, CWalletTx.getAvailableCredit]
    dsimp only
    rw [wtx.getBlocksToMaturity_markDirty C s]
    split
    · rfl
    · obtain ⟨f, hf⟩ := wtx.getBlocksToMaturity_snd C s
      obtain ⟨f', hf'⟩ := wtx.markDirty.getBlocksToMaturity_snd C s
      rw [hf, hf']
      exact h.available.get_fst
  · exact h.change.get_fst

open CWallet

/-- **No cached amount is stale** after a run in which no transaction is added that changes what a
cached debit sums up, and no change that is cached gets a name. -/
theorem readsFresh_ops {w : CWallet} (h : w.CachesCoherent) (l : List WalletOp) (hok : OpsOK C w l) :
    ∀ hash wtx, (w.ops C l).mapWallet.lookup hash = some wtx → wtx.ReadsFresh C (w.ops C l) :=
  fun hash wtx hlookup => ((h.ops hok) hash wtx hlookup).readsFresh

/-- Where no key is asked for, the default key stays. -/
theorem CWallet.replaceDefaultKey_of_none {w : CWallet} (henv : ∀ i, env.getKeyFromPool i = none)
    (tx : CTransaction) : w.replaceDefaultKey env tx = w := by
  refine List.foldlRecOn (motive := fun w' : CWallet => w' = w) _ _ rfl fun w' hw' p _ => ?_
  simp only [henv, ite_self]
  exact hw'

theorem newWallet_cachesCoherent : newWallet.CachesCoherent := fun _ _ => nofun

/-- The payment is added, then what the wallet makes of it, and the debit of that is read. -/
theorem readsFresh_ops_payment :
    ∃ wtx, (newWallet.ops incomeCrypto
      [.addToWallet quietEnv (.ofTx incomeTx), .addToWallet quietEnv (.ofTx purchaseTx),
        .getDebit 2]).mapWallet.lookup 2 = some wtx ∧
      wtx.ReadsFresh incomeCrypto (newWallet.ops incomeCrypto
        [.addToWallet quietEnv (.ofTx incomeTx), .addToWallet quietEnv (.ofTx purchaseTx),
          .getDebit 2]) := by
  have hfound : ((newWallet.ops incomeCrypto
      [.addToWallet quietEnv (.ofTx incomeTx), .addToWallet quietEnv (.ofTx purchaseTx),
        .getDebit 2]).mapWallet.lookup 2).isSome = true := by
    decide +kernel
  obtain ⟨wtx, hlookup⟩ := Option.isSome_iff_exists.1 hfound
  refine ⟨wtx, hlookup, readsFresh_ops newWallet_cachesCoherent _ ?_ 2 wtx hlookup⟩
  refine ⟨?_, ?_, trivial, trivial⟩
  · refine ⟨fun _ _ _ => nofun, fun _ _ _ _ _ txout _ hchange => .inr ?_⟩
    rw [replaceDefaultKey_of_none fun _ => rfl]
    exact hchange
  · refine ⟨fun _ hash wtx hlookup _ txin hmem hhash => ?_, fun _ _ _ _ _ txout _ hchange => .inr ?_⟩
    · exact absurd hhash (not_mem_paidWallet hlookup hmem)
    · rw [replaceDefaultKey_of_none fun _ => rfl]
      exact hchange

/-- What the wallet makes of a payment is added, its debit is read, and then the payment is added:
the debit is 50000, and is read as 0 from then on. -/
theorem not_readsFresh_payment :
    newWallet.CachesCoherent ∧ ¬∀ hash wtx, (newWallet.ops incomeCrypto
      [.addToWallet quietEnv (.ofTx purchaseTx), .getDebit 2,
        .addToWallet quietEnv (.ofTx incomeTx)]).mapWallet.lookup hash = some wtx →
      wtx.ReadsFresh incomeCrypto (newWallet.ops incomeCrypto
        [.addToWallet quietEnv (.ofTx purchaseTx), .getDebit 2,
          .addToWallet quietEnv (.ofTx incomeTx)]) := by
  refine ⟨newWallet_cachesCoherent, fun hfresh => ?_⟩
  set w := newWallet.ops incomeCrypto _ with hw
  have hdebits : (w.mapWallet.lookup 2).map (fun wtx =>
      ((wtx.getDebit w).1, (wtx.markDirty.getDebit w).1)) = some (some 0, some 50000) := by
    rw [hw]
    decide +kernel
  obtain ⟨wtx, hlookup, heq⟩ := Option.map_eq_some_iff.1 hdebits
  obtain ⟨hcached, hcomputed⟩ := Prod.mk.inj heq
  have hread := (hfresh 2 wtx hlookup).debit
  rw [hcached, hcomputed] at hread
  exact absurd hread (by decide)

end MotaCoin
