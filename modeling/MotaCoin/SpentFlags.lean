import MotaCoin.Wallet
import MotaCoin.Stored
import MotaCoin.Hashes

/-!
# The spent flags of a wallet

Flags are set when a transaction that spends an output is seen, and each call that sets one keeps
the others, up to where a transaction is seen in a block: then its own outputs are marked as not
spent.

## Main definitions

* `CWallet.SpendMarked`, `CWallet.SpendLaw`: what is asked of the spent flags
* `CWallet.KeepsMarks`: the same transactions, with at least the flags
* `WalletCall`, `CWallet.call`, `CWallet.run`: transactions are added
* `CWallet.CallOK`: a call after which the law still holds

## Main results

* `spendLaw_run`: the law holds after a run of such calls
-/

namespace MotaCoin

variable {C : Crypto} {env : WalletEnv}

/-! ## Flags of a transaction -/

namespace CWalletTx

variable (wtx : CWalletTx)

theorem length_resizeSpent : wtx.resizeSpent.length = wtx.tx.vout.length := by
  rw [resizeSpent, List.length_append, List.length_take, List.length_replicate]
  omega

theorem getD_resizeSpent {n : Nat} (hn : n < wtx.tx.vout.length) :
    wtx.resizeSpent.getD n false = wtx.isSpent n := by
  rw [resizeSpent, isSpent, List.getD_eq_getElem?_getD, List.getD_eq_getElem?_getD]
  by_cases hlt : n < wtx.vfSpent.length
  · rw [List.getElem?_append_left (by rw [List.length_take]; omega), List.getElem?_take_of_lt hn]
  · rw [List.getElem?_append_right (by rw [List.length_take]; omega), List.getElem?_replicate,
      List.getElem?_eq_none (Nat.le_of_not_lt hlt)]
    split <;> rfl

@[simp]
theorem tx_setSpent (n : Nat) (fSpent : Bool) : (wtx.setSpent n fSpent).tx = wtx.tx := by
  rw [setSpent]
  split <;> rfl

theorem isSpent_setSpent {n m : Nat} (hn : n < wtx.tx.vout.length) (hm : m < wtx.tx.vout.length)
    (fSpent : Bool) : (wtx.setSpent n fSpent).isSpent m = if m = n then fSpent else wtx.isSpent m := by
  rw [setSpent, if_neg (Nat.not_le.2 hn)]
  change (wtx.resizeSpent.set n fSpent).getD m false = _
  rw [List.getD_eq_getElem?_getD, List.getElem?_set]
  by_cases hmn : m = n
  · rw [if_pos hmn.symm, if_pos hmn, if_pos (by rw [length_resizeSpent]; exact hn), Option.getD_some]
  · rw [if_neg (Ne.symm hmn), if_neg hmn, ← List.getD_eq_getElem?_getD, getD_resizeSpent wtx hm]

theorem getD_updateFlags {vfSpent : List Bool} {n : Nat} (hn : vfSpent.getD n false = true)
    (vfNewSpent : List Bool) : (updateFlags vfSpent vfNewSpent).getD n false = true := by
  induction vfSpent generalizing n vfNewSpent with
  | nil => cases hn
  | cons f vfSpent ih =>
    cases vfNewSpent with
    | nil => exact hn
    | cons fNew vfNewSpent =>
      cases n with
      | zero =>
        rw [List.getD_cons_zero] at hn
        rw [updateFlags, List.getD_cons_zero, hn, Bool.true_or]
      | succ n => exact ih hn vfNewSpent

@[simp]
theorem tx_merge (wtxIn : CWalletTx) : (wtx.merge wtxIn).2.tx = wtx.tx := by
  simp only [merge, updateSpent]
  split <;> split <;> split <;> rfl

/-- A merge keeps the flags there are. -/
theorem isSpent_merge {n : Nat} (hn : wtx.isSpent n = true) (wtxIn : CWalletTx) :
    (wtx.merge wtxIn).2.isSpent n = true := by
  have hflags : (wtx.merge wtxIn).2.vfSpent = updateFlags wtx.vfSpent wtxIn.vfSpent := by
    simp only [merge, updateSpent]
    split <;> split <;> split <;> rfl
  rw [isSpent, hflags]
  exact getD_updateFlags hn _

@[simp]
theorem tx_getCredit (C : Crypto) (s : NodeState) (keys : OwnKeys) :
    (wtx.getCredit C s keys).2.tx = wtx.tx := by
  obtain ⟨f, c, heq⟩ := wtx.getCredit_snd C s keys
  rw [heq]

theorem isSpent_getCredit (C : Crypto) (s : NodeState) (keys : OwnKeys) (n : Nat) :
    (wtx.getCredit C s keys).2.isSpent n = wtx.isSpent n := by
  obtain ⟨f, c, heq⟩ := wtx.getCredit_snd C s keys
  rw [heq]
  rfl

end CWalletTx

namespace CWallet

/-- The own output that an input spends is marked as spent, if the transaction it is of is in the
wallet. -/
def SpendMarked (w : CWallet) (txin : CTxIn) : Prop :=
  ∀ wtx txout, w.mapWallet.lookup txin.prevout.hash = some wtx →
    wtx.tx.vout[txin.prevout.n]? = some txout → w.keys.isMine txout.scriptPubKey = true →
      wtx.isSpent txin.prevout.n = true

/-- What is asked of the spent flags: an own output that a transaction of the wallet spends is
marked. -/
def SpendLaw (w : CWallet) : Prop :=
  ∀ hash wtx, w.mapWallet.lookup hash = some wtx → ∀ txin ∈ wtx.tx.vin, w.SpendMarked txin

/-- The transactions are filed under their hashes. -/
def Keyed (C : Crypto) (w : CWallet) : Prop :=
  ∀ hash wtx, w.mapWallet.lookup hash = some wtx → C.hashTx wtx.tx = hash

/-- The same transactions, with at least the flags. -/
structure KeepsMarks (w w' : CWallet) : Prop where
  keys : w'.keys = w.keys
  lookup : ∀ hash wtx', w'.mapWallet.lookup hash = some wtx' →
    ∃ wtx, w.mapWallet.lookup hash = some wtx ∧ wtx'.tx = wtx.tx ∧
      ∀ n < wtx.tx.vout.length, wtx.isSpent n = true → wtx'.isSpent n = true

variable {w w' w'' : CWallet}

theorem KeepsMarks.refl (w : CWallet) : KeepsMarks w w :=
  ⟨rfl, fun _ wtx h => ⟨wtx, h, rfl, fun _ _ => id⟩⟩

theorem KeepsMarks.trans (h : KeepsMarks w w') (h' : KeepsMarks w' w'') : KeepsMarks w w'' := by
  refine ⟨h'.keys.trans h.keys, ?_⟩
  intro hash wtx'' hlookup
  obtain ⟨wtx', hlookup', htx', hmarks'⟩ := h'.lookup hash wtx'' hlookup
  obtain ⟨wtx, hlookup, htx, hmarks⟩ := h.lookup hash wtx' hlookup'
  refine ⟨wtx, hlookup, htx'.trans htx, fun n hn hspent => ?_⟩
  exact hmarks' n (htx ▸ hn) (hmarks n hn hspent)

theorem KeepsMarks.spendMarked (h : KeepsMarks w w') {txin : CTxIn} (hmarked : w.SpendMarked txin) :
    w'.SpendMarked txin := by
  intro wtx' txout hlookup hout hmine
  obtain ⟨wtx, hlookup, htx, hmarks⟩ := h.lookup _ wtx' hlookup
  rw [htx] at hout
  obtain ⟨hn, -⟩ := List.getElem?_eq_some_iff.1 hout
  exact hmarks _ hn (hmarked wtx txout hlookup hout (h.keys ▸ hmine))

theorem KeepsMarks.spendLaw (h : KeepsMarks w w') (hlaw : w.SpendLaw) : w'.SpendLaw := by
  intro hash wtx' hlookup txin hmem
  obtain ⟨wtx, hlookup, htx, -⟩ := h.lookup hash wtx' hlookup
  exact h.spendMarked (hlaw hash wtx hlookup txin (htx ▸ hmem))

theorem KeepsMarks.keyed (h : KeepsMarks w w') (hkeyed : w.Keyed C) : w'.Keyed C := by
  intro hash wtx' hlookup
  obtain ⟨wtx, hlookup, htx, -⟩ := h.lookup hash wtx' hlookup
  rw [htx]
  exact hkeyed hash wtx hlookup

/-- A transaction of the wallet changes, and keeps its flags. -/
theorem KeepsMarks.setTx {hash : Uint256} {wtx wtx' : CWalletTx}
    (hlookup : w.mapWallet.lookup hash = some wtx) (htx : wtx'.tx = wtx.tx)
    (hmarks : ∀ n < wtx.tx.vout.length, wtx.isSpent n = true → wtx'.isSpent n = true) :
    KeepsMarks w (w.setTx hash wtx') := by
  refine ⟨rfl, fun h wtx'' hlookup' => ?_⟩
  rw [CWallet.setTx] at hlookup'
  by_cases hh : h = hash
  · subst hh
    rw [AList.lookup_insert] at hlookup'
    obtain rfl := Option.some.inj hlookup'
    exact ⟨wtx, hlookup, htx, hmarks⟩
  · rw [AList.lookup_insert_ne hh] at hlookup'
    exact ⟨wtx'', hlookup', rfl, fun _ _ => id⟩

/-! ## Marking what is spent -/

theorem markInputs_keepsMarks (vin : List CTxIn) (w : CWallet) :
    KeepsMarks w (markInputs C env vin w).2 := by
  induction vin generalizing w with
  | nil => exact .refl w
  | cons txin vin ih =>
    rw [markInputs]
    split
    · exact ih w
    · next wtx hlookup =>
      split
      · exact ih w
      · next txout hout =>
        split
        · obtain ⟨hn, -⟩ := List.getElem?_eq_some_iff.1 hout
          have htx := wtx.tx_getCredit C env.node w.keys
          dsimp only
          split
          · refine .setTx hlookup htx fun m _ hspent => ?_
            rw [CWalletTx.isSpent_getCredit]
            exact hspent
          · refine KeepsMarks.trans (.setTx hlookup ?_ ?_) (ih _)
            · exact (CWalletTx.tx_setSpent _ _ _).trans htx
            · intro m hm hspent
              rw [← htx] at hn hm
              rw [CWalletTx.markSpent, CWalletTx.isSpent_setSpent _ hn hm]
              split
              · rfl
              · rw [CWalletTx.isSpent_getCredit]
                exact hspent
        · exact ih w

/-- The credit of a transaction can be told, where an input in `vin` spends an own output of it that
is not marked yet. -/
def CreditsOK (C : Crypto) (env : WalletEnv) (w : CWallet) (vin : List CTxIn) : Prop :=
  ∀ txin ∈ vin, ∀ wtx txout, w.mapWallet.lookup txin.prevout.hash = some wtx →
    wtx.tx.vout[txin.prevout.n]? = some txout → w.keys.isMine txout.scriptPubKey = true →
      wtx.isSpent txin.prevout.n = false → (wtx.getCredit C env.node w.keys).1 ≠ none

theorem CreditsOK.tail {txin : CTxIn} {vin : List CTxIn} (h : CreditsOK C env w (txin :: vin)) :
    CreditsOK C env w vin := fun txin' hmem => h txin' (List.mem_cons_of_mem _ hmem)

/-- After an output is marked, the credits that are still asked for can be told. -/
theorem CreditsOK.marked {vin : List CTxIn} (h : CreditsOK C env w vin) {hash : Uint256}
    {wtx : CWalletTx} {n : Nat} (hn : n < wtx.tx.vout.length)
    (hcredit : (wtx.getCredit C env.node w.keys).1 ≠ none) :
    CreditsOK C env (w.setTx hash ((wtx.getCredit C env.node w.keys).2.markSpent n)) vin := by
  obtain ⟨f, c, heq⟩ := wtx.getCredit_snd C env.node w.keys
  intro txin hmem wtx' txout hlookup' hout hmine hspent
  rw [CWallet.setTx] at hlookup'
  by_cases hh : txin.prevout.hash = hash
  · rw [hh, AList.lookup_insert] at hlookup'
    obtain rfl := Option.some.inj hlookup'
    refine CWalletTx.getCredit_again hcredit ?_ ?_ ?_ ?_ ?_ ?_ <;>
      rw [heq, CWalletTx.markSpent, CWalletTx.setSpent, if_neg (Nat.not_le.2 hn)]
  · rw [AList.lookup_insert_ne hh] at hlookup'
    exact h txin hmem wtx' txout hlookup' hout hmine hspent

/-- It is enough that all credits can be told. -/
theorem creditsOK_of_getCredit {vin : List CTxIn}
    (h : ∀ txin ∈ vin, ∀ wtx ∈ w.mapWallet.lookup txin.prevout.hash,
      (wtx.getCredit C env.node w.keys).1 ≠ none) : CreditsOK C env w vin :=
  fun txin hmem wtx _ hlookup _ _ _ => h txin hmem wtx hlookup

theorem markInputs_fst {vin : List CTxIn} (h : CreditsOK C env w vin) :
    (markInputs C env vin w).1 = true := by
  induction vin generalizing w with
  | nil => rfl
  | cons txin vin ih =>
    rw [markInputs]
    split
    · exact ih h.tail
    · next wtx hlookup =>
      split
      · exact ih h.tail
      · next txout hout =>
        split
        · next hmark =>
          rw [Bool.and_eq_true, Bool.not_eq_true'] at hmark
          have hcredit := h txin List.mem_cons_self wtx txout hlookup hout hmark.2 hmark.1
          obtain ⟨hn, -⟩ := List.getElem?_eq_some_iff.1 hout
          obtain ⟨nCredit, hnCredit⟩ := Option.ne_none_iff_exists'.1 hcredit
          simp only [hnCredit, Option.isNone_some, Bool.false_eq_true, if_false]
          exact ih (h.tail.marked hn hcredit)
        · exact ih h.tail

/-- After the loop, what the inputs spend is marked. -/
theorem markInputs_marks {vin : List CTxIn} (h : (markInputs C env vin w).1 = true) :
    ∀ txin ∈ vin, (markInputs C env vin w).2.SpendMarked txin := by
  induction vin generalizing w with
  | nil => exact fun _ => nofun
  | cons txin vin ih =>
    -- what is marked for this input stays marked in the rest of the loop
    have hrest {w' : CWallet} (hfst : (markInputs C env vin w').1 = true)
        (hmarked : w'.SpendMarked txin) :
        ∀ txin' ∈ txin :: vin, (markInputs C env vin w').2.SpendMarked txin' := by
      intro txin' hmem
      rcases List.mem_cons.1 hmem with rfl | hmem
      · exact (markInputs_keepsMarks vin w').spendMarked hmarked
      · exact ih hfst txin' hmem
    rw [markInputs] at h ⊢
    split at h
    · next hnone => exact hrest h fun wtx txout hlookup => by rw [hnone] at hlookup; cases hlookup
    · next wtx hlookup =>
      split at h
      · next hout =>
        refine hrest h fun wtx' txout hlookup' hout' => ?_
        obtain rfl := Option.some.inj (hlookup.symm.trans hlookup')
        rw [hout] at hout'
        cases hout'
      · next txout hout =>
        obtain ⟨hn, -⟩ := List.getElem?_eq_some_iff.1 hout
        split at h
        · next hmark =>
          rw [if_pos hmark]
          dsimp only at h ⊢
          split at h
          · cases h
          · next hcredit =>
            rw [if_neg hcredit]
            refine hrest h fun wtx' txout' hlookup' _ _ => ?_
            rw [CWallet.setTx, AList.lookup_insert] at hlookup'
            obtain rfl := Option.some.inj hlookup'
            rw [← wtx.tx_getCredit C env.node w.keys] at hn
            rw [CWalletTx.markSpent, CWalletTx.isSpent_setSpent _ hn hn, if_pos rfl]
        · next hmark =>
          rw [if_neg hmark]
          refine hrest h fun wtx' txout' hlookup' hout' hmine => ?_
          obtain rfl := Option.some.inj (hlookup.symm.trans hlookup')
          obtain rfl := Option.some.inj (hout.symm.trans hout')
          simpa [hmine] using hmark

/-! ## Adding a transaction -/

/-- Replacing the default key leaves the transactions alone. -/
theorem replaceDefaultKey_frame (env : WalletEnv) (w : CWallet) (tx : CTransaction) :
    (w.replaceDefaultKey env tx).keys = w.keys ∧
      (w.replaceDefaultKey env tx).mapWallet = w.mapWallet := by
  refine List.foldlRecOn (motive := fun w' : CWallet => w'.keys = w.keys ∧ w'.mapWallet = w.mapWallet)
    _ _ ⟨rfl, rfl⟩ fun w' hw' p _ => ?_
  dsimp only
  split
  · split
    · exact hw'
    · exact hw'
  · exact hw'

theorem tx_markOutputs (keys : OwnKeys) (vout : List CTxOut) (wtx : CWalletTx) :
    (markOutputs keys vout wtx).tx = wtx.tx := by
  refine List.foldlRecOn (motive := fun wtx' : CWalletTx => wtx'.tx = wtx.tx) _ _ rfl
    fun wtx' hwtx' p _ => ?_
  dsimp only
  split
  · exact (CWalletTx.tx_setSpent _ _ _).trans hwtx'
  · exact hwtx'

/-- What `AddToWallet` files first: a transaction that is new, or the one there is with at least its
flags. -/
structure Inserted (C : Crypto) (w : CWallet) (wtxIn wtx : CWalletTx) (w' : CWallet) : Prop where
  keys : w'.keys = w.keys
  lookup_self : w'.mapWallet.lookup (C.hashTx wtxIn.tx) = some wtx
  lookup_ne : ∀ hash ≠ C.hashTx wtxIn.tx, w'.mapWallet.lookup hash = w.mapWallet.lookup hash
  hash : C.hashTx wtx.tx = C.hashTx wtxIn.tx
  old : ∀ wtxOld, w.mapWallet.lookup (C.hashTx wtxIn.tx) = some wtxOld →
    wtx.tx = wtxOld.tx ∧ ∀ n, wtxOld.isSpent n = true → wtx.isSpent n = true
  new : C.hashTx wtxIn.tx ∉ w.mapWallet → wtx.tx = wtxIn.tx ∧ ∀ n, wtx.isSpent n = wtxIn.isSpent n

theorem insertOrMerge_inserted (hkeyed : w.Keyed C) (wtxIn : CWalletTx) :
    Inserted C w wtxIn (w.insertOrMerge C env wtxIn).2.1 (w.insertOrMerge C env wtxIn).2.2 := by
  rw [insertOrMerge]
  dsimp only
  split
  · next hnone =>
    exact {
      keys := rfl
      lookup_self := AList.lookup_insert _
      lookup_ne := fun hash hne => AList.lookup_insert_ne hne
      hash := rfl
      old := fun wtxOld hold => by rw [hnone] at hold; cases hold
      new := fun _ => ⟨rfl, fun _ => rfl⟩ }
  · next wtx hlookup =>
    have htx : (wtx.markDirty.merge wtxIn).2.tx = wtx.tx := wtx.markDirty.tx_merge wtxIn
    exact {
      keys := rfl
      lookup_self := AList.lookup_insert _
      lookup_ne := fun hash hne => AList.lookup_insert_ne hne
      hash := (congrArg C.hashTx htx).trans (hkeyed _ wtx hlookup)
      old := by
        intro wtxOld hold
        obtain rfl := Option.some.inj (hlookup.symm.trans hold)
        exact ⟨htx, fun n hn => wtx.markDirty.isSpent_merge hn wtxIn⟩
      new := fun hnew => absurd (AList.lookup_isSome.1 (hlookup ▸ rfl)) hnew }

/-- An own output of `vout`, the outputs of a transaction, that a transaction of the wallet spends. -/
def SpendsOwn (w : CWallet) (hash : Uint256) (vout : List CTxOut) (n : Nat) : Prop :=
  (∃ txout, vout[n]? = some txout ∧ w.keys.isMine txout.scriptPubKey = true) ∧
    ∃ h wtx, w.mapWallet.lookup h = some wtx ∧ ∃ txin ∈ wtx.tx.vin, txin.prevout = ⟨hash, n⟩

theorem SpendsOwn.of_keepsMarks {hash : Uint256} {vout : List CTxOut} {n : Nat}
    (h : w'.SpendsOwn hash vout n) (hkeeps : KeepsMarks w w') : w.SpendsOwn hash vout n := by
  obtain ⟨⟨txout, hout, hmine⟩, h, wtx', hlookup, txin, hmem, hprevout⟩ := h
  obtain ⟨wtx, hlookup₀, htx, -⟩ := hkeeps.lookup h wtx' hlookup
  exact ⟨⟨txout, hout, hkeeps.keys ▸ hmine⟩, h, wtx, hlookup₀, txin, htx ▸ hmem, hprevout⟩

section Inserted

variable {wtxIn wtx : CWalletTx}

theorem Inserted.keyed (h : Inserted C w wtxIn wtx w') (hkeyed : w.Keyed C) : w'.Keyed C := by
  intro hash wtx' hlookup
  by_cases hh : hash = C.hashTx wtxIn.tx
  · rw [hh, h.lookup_self] at hlookup
    obtain rfl := Option.some.inj hlookup
    rw [hh, h.hash]
  · rw [h.lookup_ne hash hh] at hlookup
    exact hkeyed hash wtx' hlookup

/-- The other transactions of the wallet spend what is marked, also in the one that is filed, if its
flags are right or it is not new. -/
theorem Inserted.spendMarked (h : Inserted C w wtxIn wtx w') (hlaw : w.SpendLaw) {hash : Uint256}
    {wtx' : CWalletTx} (hlookup : w.mapWallet.lookup hash = some wtx') {txin : CTxIn}
    (hmem : txin ∈ wtx'.tx.vin)
    (hchild : txin.prevout.hash = C.hashTx wtxIn.tx → C.hashTx wtxIn.tx ∉ w.mapWallet →
      ∀ n, w.SpendsOwn (C.hashTx wtxIn.tx) wtxIn.tx.vout n → wtxIn.isSpent n = true) :
    w'.SpendMarked txin := by
  intro prev txout hprev hout hmine
  rw [h.keys] at hmine
  by_cases hh : txin.prevout.hash = C.hashTx wtxIn.tx
  · rw [hh, h.lookup_self] at hprev
    obtain rfl := Option.some.inj hprev
    by_cases hnew : C.hashTx wtxIn.tx ∈ w.mapWallet
    · obtain ⟨wtxOld, hold⟩ := Option.isSome_iff_exists.1 (AList.lookup_isSome.2 hnew)
      obtain ⟨htx, hmarks⟩ := h.old wtxOld hold
      rw [htx] at hout
      exact hmarks _ (hlaw hash wtx' hlookup txin hmem wtxOld txout (hh ▸ hold) hout hmine)
    · obtain ⟨htx, hmarks⟩ := h.new hnew
      rw [htx] at hout
      rw [hmarks]
      refine hchild hh hnew _ ⟨⟨txout, hout, hmine⟩, hash, wtx', hlookup, txin, hmem, ?_⟩
      rw [← hh]
  · rw [h.lookup_ne _ hh] at hprev
    exact hlaw hash wtx' hlookup txin hmem prev txout hprev hout hmine

end Inserted

/-- When the law holds after `AddToWallet`. -/
structure AddOK (C : Crypto) (env : WalletEnv) (w : CWallet) (wtxIn : CWalletTx) : Prop where
  /-- A transaction is new, and its record is not written: the own outputs that it spends are marked
  already, and those of it that the wallet spends are marked in it. -/
  unwritten : (w.insertOrMerge C env wtxIn).1 = true → env.fWritten = false →
    C.hashTx wtxIn.tx ∉ w.mapWallet →
      (∀ n, w.SpendsOwn (C.hashTx wtxIn.tx) wtxIn.tx.vout n → wtxIn.isSpent n = true) ∧
        ∀ txin ∈ wtxIn.tx.vin, (w.insertOrMerge C env wtxIn).2.2.SpendMarked txin
  /-- Else the credits that are printed are in range. -/
  credits : ¬((w.insertOrMerge C env wtxIn).1 = true ∧ env.fWritten = false) →
    CreditsOK C env (w.insertOrMerge C env wtxIn).2.2 (w.insertOrMerge C env wtxIn).2.1.tx.vin
  /-- The wallet spends no own output of a transaction that is seen in a block. -/
  inBlock : ¬((w.insertOrMerge C env wtxIn).1 = true ∧ env.fWritten = false) → wtxIn.hashBlock ≠ 0 →
    ∀ n, ¬(w.insertOrMerge C env wtxIn).2.2.SpendsOwn (C.hashTx wtxIn.tx)
      (w.insertOrMerge C env wtxIn).2.1.tx.vout n
  /-- Those of a new transaction that is not in a block, which the wallet spends, are marked in it. -/
  loose : ¬((w.insertOrMerge C env wtxIn).1 = true ∧ env.fWritten = false) → wtxIn.hashBlock = 0 →
    C.hashTx wtxIn.tx ∉ w.mapWallet →
      ∀ n, w.SpendsOwn (C.hashTx wtxIn.tx) wtxIn.tx.vout n → wtxIn.isSpent n = true

/-- What calls keep: the law, and that the transactions are filed under their hashes. -/
structure SpendInv (C : Crypto) (w : CWallet) : Prop where
  keyed : w.Keyed C
  law : w.SpendLaw

/-- The law after the own outputs of a transaction are marked as not spent, where the wallet spends
none of them. -/
theorem spendLaw_markOutputs {hash : Uint256} {wtx : CWalletTx}
    (hlookup : w.mapWallet.lookup hash = some wtx) (hnone : ∀ n, ¬w.SpendsOwn hash wtx.tx.vout n)
    (hlaw : ∀ h B, w.mapWallet.lookup h = some B → ∀ txin ∈ B.tx.vin, txin.prevout.hash ≠ hash →
      w.SpendMarked txin) (vout : List CTxOut) :
    (w.setTx hash (markOutputs w.keys vout wtx)).SpendLaw := by
  intro h B hB txin hmem prev txout hprev hout hmine
  have hB' : ∃ B', w.mapWallet.lookup h = some B' ∧ txin ∈ B'.tx.vin := by
    rw [CWallet.setTx] at hB
    by_cases hh : h = hash
    · subst hh
      rw [AList.lookup_insert] at hB
      obtain rfl := Option.some.inj hB
      exact ⟨wtx, hlookup, tx_markOutputs w.keys vout wtx ▸ hmem⟩
    · rw [AList.lookup_insert_ne hh] at hB
      exact ⟨B, hB, hmem⟩
  obtain ⟨B', hB', hmem'⟩ := hB'
  rw [CWallet.setTx] at hprev
  by_cases hh : txin.prevout.hash = hash
  · rw [hh, AList.lookup_insert] at hprev
    obtain rfl := Option.some.inj hprev
    rw [tx_markOutputs] at hout
    exact absurd ⟨⟨txout, hout, hmine⟩, h, B', hB', txin, hmem', hh ▸ rfl⟩ (hnone txin.prevout.n)
  · rw [AList.lookup_insert_ne hh] at hprev
    exact hlaw h B' hB' txin hmem' hh prev txout hprev hout hmine

/-- `WalletUpdateSpent` for a transaction that is in the wallet, where what the others spend is
marked. -/
theorem walletUpdateSpent_law {wtx : CWalletTx} {hash : Uint256} {fBlock : Bool}
    (hlookup : w.mapWallet.lookup hash = some wtx) (hhash : C.hashTx wtx.tx = hash)
    (hcredits : CreditsOK C env w wtx.tx.vin)
    (hblock : fBlock = true → ∀ n, ¬w.SpendsOwn hash wtx.tx.vout n)
    (hothers : ∀ h B, h ≠ hash → w.mapWallet.lookup h = some B → ∀ txin ∈ B.tx.vin,
      fBlock = false ∨ txin.prevout.hash ≠ hash → w.SpendMarked txin) :
    (w.walletUpdateSpent C env wtx.tx fBlock).2.SpendLaw := by
  have hfst := markInputs_fst hcredits
  have hmarks := markInputs_marks hfst
  have hkeeps : KeepsMarks w (markInputs C env wtx.tx.vin w).2 := markInputs_keepsMarks _ w
  obtain ⟨w₁, hinputs⟩ : ∃ w₁, markInputs C env wtx.tx.vin w = (true, w₁) := ⟨_, Prod.ext hfst rfl⟩
  rw [hinputs] at hkeeps hmarks
  have hlaw : ∀ h B, w₁.mapWallet.lookup h = some B → ∀ txin ∈ B.tx.vin,
      fBlock = false ∨ txin.prevout.hash ≠ hash → w₁.SpendMarked txin := by
    intro h B hB txin hmem hside
    obtain ⟨B₀, hB₀, htx, -⟩ := hkeeps.lookup h B hB
    rw [htx] at hmem
    by_cases hh : h = hash
    · subst hh
      obtain rfl := Option.some.inj (hlookup.symm.trans hB₀)
      exact hmarks txin hmem
    · exact hkeeps.spendMarked (hothers h B₀ hh hB₀ txin hmem hside)
  rw [walletUpdateSpent, hinputs]
  cases fBlock with
  | false => exact fun h B hB txin hmem => hlaw h B hB txin hmem (.inl rfl)
  | true =>
    dsimp only
    rw [hhash]
    cases hfound : w₁.mapWallet.lookup hash with
    | none =>
      intro h B hB txin hmem
      by_cases hh : txin.prevout.hash = hash
      · intro prev txout hprev
        rw [hh] at hprev
        cases hfound.symm.trans hprev
      · exact hlaw h B hB txin hmem (.inr hh)
    | some wtx₁ =>
      obtain ⟨wtx₀, hlookup₀, htx, -⟩ := hkeeps.lookup hash _ hfound
      obtain rfl := Option.some.inj (hlookup.symm.trans hlookup₀)
      refine spendLaw_markOutputs hfound (fun n hspends => hblock rfl n ?_)
        (fun h B hB txin hmem hne => hlaw h B hB txin hmem (.inr hne)) _
      rw [htx] at hspends
      exact hspends.of_keepsMarks hkeeps

theorem walletUpdateSpent_keyed (hkeyed : w.Keyed C) (tx : CTransaction) (fBlock : Bool) :
    (w.walletUpdateSpent C env tx fBlock).2.Keyed C := by
  have hkeeps : KeepsMarks w (markInputs C env tx.vin w).2 := markInputs_keepsMarks _ w
  rw [walletUpdateSpent]
  generalize markInputs C env tx.vin w = r at hkeeps
  obtain ⟨_ | _, w₁⟩ := r
  · exact hkeeps.keyed hkeyed
  · cases fBlock with
    | false => exact hkeeps.keyed hkeyed
    | true =>
      dsimp only
      cases hfound : w₁.mapWallet.lookup (C.hashTx tx) with
      | none => exact hkeeps.keyed hkeyed
      | some wtx =>
        intro hash wtx' hlookup
        change (w₁.mapWallet.insert (C.hashTx tx) _).lookup hash = some wtx' at hlookup
        by_cases hh : hash = C.hashTx tx
        · subst hh
          rw [AList.lookup_insert] at hlookup
          obtain rfl := Option.some.inj hlookup
          rw [tx_markOutputs]
          exact hkeeps.keyed hkeyed _ wtx hfound
        · rw [AList.lookup_insert_ne hh] at hlookup
          exact hkeeps.keyed hkeyed hash wtx' hlookup

/-- `WalletUpdateSpent` for a transaction that is not added only marks. -/
theorem walletUpdateSpent_keepsMarks (tx : CTransaction) :
    KeepsMarks w (w.walletUpdateSpent C env tx false).2 := by
  have hkeeps : KeepsMarks w (markInputs C env tx.vin w).2 := markInputs_keepsMarks _ w
  rw [walletUpdateSpent]
  generalize markInputs C env tx.vin w = r at hkeeps
  obtain ⟨_ | _, w₁⟩ := r <;> exact hkeeps

/-- Where it is met, `AddToWallet` keeps the law. -/
theorem SpendInv.addToWallet {wtxIn : CWalletTx} (hinv : SpendInv C w) (hok : AddOK C env w wtxIn) :
    SpendInv C (w.addToWallet C env wtxIn).2 := by
  have hins : Inserted C w wtxIn (w.insertOrMerge C env wtxIn).2.1 (w.insertOrMerge C env wtxIn).2.2 :=
    insertOrMerge_inserted hinv.keyed wtxIn
  obtain ⟨hunwritten, hcredits, hinBlock, hloose⟩ := hok
  rw [CWallet.addToWallet]
  generalize w.insertOrMerge C env wtxIn = r at hins hunwritten hcredits hinBlock hloose
  obtain ⟨fWrite, wtx, w₁⟩ := r
  dsimp only at hins hunwritten hcredits hinBlock hloose ⊢
  have hkeyed : w₁.Keyed C := hins.keyed hinv.keyed
  split
  · next hfail =>
    rw [Bool.and_eq_true, Bool.not_eq_true'] at hfail
    refine ⟨hkeyed, fun hash wtx' hlookup txin hmem => ?_⟩
    by_cases hh : hash = C.hashTx wtxIn.tx
    · -- what the transaction itself spends
      rw [hh, hins.lookup_self] at hlookup
      obtain rfl := Option.some.inj hlookup
      by_cases hnew : C.hashTx wtxIn.tx ∈ w.mapWallet
      · obtain ⟨wtxOld, hold⟩ := Option.isSome_iff_exists.1 (AList.lookup_isSome.2 hnew)
        exact hins.spendMarked hinv.law hold ((hins.old wtxOld hold).1 ▸ hmem) fun _ hn =>
          absurd hnew hn
      · rw [(hins.new hnew).1] at hmem
        exact (hunwritten hfail.1 hfail.2 hnew).2 txin hmem
    · rw [hins.lookup_ne hash hh] at hlookup
      exact hins.spendMarked hinv.law hlookup hmem fun _ hnew =>
        (hunwritten hfail.1 hfail.2 hnew).1
  · next hwrite =>
    rw [Bool.and_eq_true, Bool.not_eq_true'] at hwrite
    obtain ⟨hkeys, hmap⟩ := replaceDefaultKey_frame env w₁ wtx.tx
    set w₂ := w₁.replaceDefaultKey env wtx.tx
    have hkeyed₂ : w₂.Keyed C := by
      intro hash wtx' hlookup
      rw [hmap] at hlookup
      exact hkeyed hash wtx' hlookup
    refine ⟨walletUpdateSpent_keyed hkeyed₂ _ _, ?_⟩
    have hself : w₂.mapWallet.lookup (C.hashTx wtxIn.tx) = some wtx := hmap ▸ hins.lookup_self
    refine walletUpdateSpent_law hself hins.hash ?_ ?_ ?_
    · intro txin hmem wtx' txout hlookup hout hmine hspent
      rw [hkeys] at hmine ⊢
      exact hcredits hwrite txin hmem wtx' txout (hmap ▸ hlookup) hout hmine hspent
    · intro hblock n hspends
      refine hinBlock hwrite (bne_iff_ne.1 hblock) n ?_
      rw [SpendsOwn, hkeys, hmap] at hspends
      exact hspends
    · intro h B hne hB txin hmem hside
      rw [hmap, hins.lookup_ne h hne] at hB
      have hmarked : w₁.SpendMarked txin := by
        refine hins.spendMarked hinv.law hB hmem fun hh hnew => ?_
        rcases hside with hblock | hother
        · exact hloose hwrite (by simpa using hblock) hnew
        · exact absurd hh hother
      intro prev txout hprev hout hmine
      rw [hmap] at hprev
      rw [hkeys] at hmine
      exact hmarked prev txout hprev hout hmine

end CWallet

/-! ## Runs -/

/-- The calls that add transactions, each with what it meets. -/
inductive WalletCall where
  | addToWallet (env : WalletEnv) (wtxIn : CWalletTx)
  | addToWalletIfInvolvingMe (env : WalletEnv) (tx : CTransaction) (pblock : Option CBlock)
      (fUpdate : Bool)

namespace CWallet

variable {w : CWallet}

/-- One call, also where it throws. -/
def call (C : Crypto) (w : CWallet) : WalletCall → CWallet
  | .addToWallet env wtxIn => (w.addToWallet C env wtxIn).2
  | .addToWalletIfInvolvingMe env tx pblock fUpdate =>
    (w.addToWalletIfInvolvingMe C env tx pblock fUpdate).2

/-- A run of calls. -/
def run (C : Crypto) (w : CWallet) (calls : List WalletCall) : CWallet := calls.foldl (call C) w

/-- A call that adds no transaction, or one after which the law holds. -/
def CallOK (C : Crypto) (w : CWallet) : WalletCall → Prop
  | .addToWallet env wtxIn => AddOK C env w wtxIn
  | .addToWalletIfInvolvingMe env tx pblock fUpdate =>
    ¬(C.hashTx tx ∈ w.mapWallet ∧ fUpdate = false) → w.involvesMe C env tx = some true →
      AddOK C env w (CWalletTx.ofBlockTx C tx pblock)

/-- Every call of a run is such a call. -/
def CallsOK (C : Crypto) : CWallet → List WalletCall → Prop
  | _, [] => True
  | w, c :: calls => w.CallOK C c ∧ CallsOK C (w.call C c) calls

theorem SpendInv.call (hinv : SpendInv C w) {c : WalletCall} (hok : w.CallOK C c) :
    SpendInv C (w.call C c) := by
  cases c with
  | addToWallet env wtxIn => exact hinv.addToWallet hok
  | addToWalletIfInvolvingMe env tx pblock fUpdate =>
    rw [CWallet.call, addToWalletIfInvolvingMe]
    split
    · exact hinv
    · next hadd =>
      split
      · exact hinv
      · next hinvolves => exact hinv.addToWallet (hok hadd hinvolves)
      · have hkeeps : KeepsMarks w (w.walletUpdateSpent C env tx false).2 :=
          walletUpdateSpent_keepsMarks tx
        exact ⟨hkeeps.keyed hinv.keyed, hkeeps.spendLaw hinv.law⟩

theorem SpendInv.run {calls : List WalletCall} (hinv : SpendInv C w) (hok : CallsOK C w calls) :
    SpendInv C (w.run C calls) := by
  induction calls generalizing w with
  | nil => exact hinv
  | cons c calls ih => exact ih (hinv.call hok.1) hok.2

end CWallet

open CWallet

/-- **The spent flags are right** after a run in which every transaction that is added leaves them
right: a new transaction comes with the flags of what the wallet spends of it already, one that is
seen in a block has no own output that the wallet spends, and what is new is written. -/
theorem spendLaw_run {w : CWallet} (hinv : SpendInv C w) (calls : List WalletCall)
    (hok : CallsOK C w calls) : (w.run C calls).SpendLaw :=
  (hinv.run hok).law

/-! ## A wallet that spends what it was paid -/

/-- A public key. -/
def ownPubKey : Valtype := List.replicate 33 2

/-- The script that pays to it. -/
def ownScript : CScript := pushData ownPubKey ++ ofOpcode OP_CHECKSIG

/-- An empty wallet with that key. -/
def newWallet : CWallet where
  keys := ⟨Wire.ofLE, fun id => id == Wire.ofLE ownPubKey, ∅⟩
  mapWallet := ∅
  mapAddressBook := ∅
  vchDefaultKey := []
  nOrderPosNext := 0

/-- A payment to the wallet. -/
def incomeTx : CTransaction := ⟨1, 1000, [⟨⟨7, 0⟩, [], 4294967295⟩], [⟨50000, ownScript⟩], 0⟩

/-- The wallet pays a part of it to somebody else and the rest to itself. -/
def purchaseTx : CTransaction :=
  ⟨1, 1100, [⟨⟨1, 0⟩, [], 4294967295⟩], [⟨20000, []⟩, ⟨29000, ownScript⟩], 0⟩

/-- A block with the payment. -/
def incomeBlock : CBlock where
  nVersion := 7
  hashPrevBlock := 0
  hashMerkleRoot := 1
  nTime := 1200
  nBits := 0
  nNonce := 0
  vtx := [incomeTx]
  vchBlockSig := []

noncomputable def incomeCrypto : Crypto :=
  labelCrypto [incomeTx, purchaseTx] [incomeBlock.getBlockHeader]

/-- What calls meet that write all records and ask for no new default key. -/
noncomputable def quietEnv : WalletEnv where
  node := storedNode incomeCrypto []
  adjustedTime := 1300
  nMinimumInputValue := 0
  fWritten := true
  getKeyFromPool _ := none

theorem newWallet_spendInv : SpendInv incomeCrypto newWallet :=
  ⟨fun _ _ => nofun, fun _ _ => nofun⟩

/-- The wallet after it was paid. -/
noncomputable def paidWallet : CWallet :=
  (newWallet.addToWallet incomeCrypto quietEnv (.ofTx incomeTx)).2

theorem entries_paidWallet : paidWallet.mapWallet.entries =
    [⟨1, { CWalletTx.ofTx incomeTx with nTimeReceived := 1300, nOrderPos := 0 }⟩] := by
  decide +kernel

/-- What it spends then is not of a transaction it makes itself. -/
theorem not_mem_paidWallet {hash : Uint256} {wtx : CWalletTx}
    (hlookup : paidWallet.mapWallet.lookup hash = some wtx) {txin : CTxIn} (hmem : txin ∈ wtx.tx.vin) :
    txin.prevout.hash ≠ incomeCrypto.hashTx purchaseTx := by
  have hhash : incomeCrypto.hashTx purchaseTx = 2 := by decide +kernel
  rw [← Option.mem_def, AList.mem_lookup_iff, entries_paidWallet, List.mem_singleton] at hlookup
  cases hlookup
  obtain rfl := List.mem_singleton.1 hmem
  rw [hhash]
  decide

/-- The payment and what the wallet makes of it are seen in this order. -/
theorem spendLaw_run_payment :
    (newWallet.run incomeCrypto
      [.addToWallet quietEnv (.ofTx incomeTx), .addToWallet quietEnv (.ofTx purchaseTx)]).SpendLaw := by
  refine spendLaw_run newWallet_spendInv _ ⟨?_, ?_, trivial⟩
  · exact {
      unwritten := fun _ => nofun
      credits := fun _ => creditsOK_of_getCredit (by decide +kernel)
      inBlock := fun _ hne => absurd rfl hne
      loose := fun _ _ _ n hspends => by
        obtain ⟨-, h, wtx, hlookup, -⟩ := hspends
        cases hlookup }
  · exact {
      unwritten := fun _ => nofun
      credits := fun _ => creditsOK_of_getCredit (by decide +kernel)
      inBlock := fun _ hne => absurd rfl hne
      loose := fun _ _ _ n hspends => by
        obtain ⟨-, h, wtx, hlookup, txin, hmem, hprevout⟩ := hspends
        exact absurd (congrArg COutPoint.hash hprevout) (not_mem_paidWallet hlookup hmem) }

/-- The payment is seen, what the wallet makes of it is seen, and then the payment is seen in a block:
its output is marked as not spent, though the wallet has spent it. -/
theorem not_spendLaw_payment :
    SpendInv incomeCrypto newWallet ∧
      ¬(newWallet.run incomeCrypto
        [.addToWalletIfInvolvingMe quietEnv incomeTx none true,
          .addToWalletIfInvolvingMe quietEnv purchaseTx none true,
          .addToWalletIfInvolvingMe quietEnv incomeTx (some incomeBlock) true]).SpendLaw := by
  refine ⟨newWallet_spendInv, fun hlaw => ?_⟩
  set w := newWallet.run incomeCrypto _ with hw
  have hstate : (w.mapWallet.lookup 2).map CWalletTx.tx = some purchaseTx ∧
      (w.mapWallet.lookup 1).map (fun wtx => (wtx.tx, wtx.isSpent 0)) = some (incomeTx, false) ∧
        w.keys.isMine ownScript = true := by
    rw [hw]
    decide +kernel
  obtain ⟨hspending, hpayment, hmine⟩ := hstate
  obtain ⟨wtx, hlookup, htx⟩ := Option.map_eq_some_iff.1 hspending
  obtain ⟨prev, hprev, hflags⟩ := Option.map_eq_some_iff.1 hpayment
  obtain ⟨hprevtx, hunspent⟩ := Prod.mk.inj hflags
  have hspent := hlaw 2 wtx hlookup ⟨⟨1, 0⟩, [], 4294967295⟩ (htx ▸ List.mem_cons_self) prev
    ⟨50000, ownScript⟩ hprev (hprevtx ▸ rfl) hmine
  exact absurd (hunspent.symm.trans hspent) Bool.false_ne_true

end MotaCoin
