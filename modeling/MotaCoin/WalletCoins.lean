import MotaCoin.CoinSelection
import MotaCoin.Wallet

/-!
# The coins of a wallet

`AvailableCoins`: the outputs of the transactions of a wallet that it can spend now, in the order of
the hashes of their transactions.

## Main definitions

* `CCoinControl`: what the user of the wallet chose
* `CoinView`: what the wallet finds when it looks for coins
* `CWallet.entriesByHash`, `CWallet.txsByHash`: the transactions in their order
* `CoinView.availableOutputs`, `CoinView.availableCoins`

## Main results

* `CoinView.mem_availableOutputs`: which outputs are available
* `CoinView.nodup_availableCoins`: no output is available twice
* `CoinView.availableCoins_sublist`: what is available is among all outputs of the wallet
-/

namespace MotaCoin

/-- `CCoinControl`. -/
structure CCoinControl where
  destChange : CTxDestination
  fReturnChange : Bool
  setSelected : List COutPoint
  deriving DecidableEq

namespace CCoinControl

/-- `HasSelected`. -/
def hasSelected (coinControl : CCoinControl) : Bool := !coinControl.setSelected.isEmpty

/-- `IsSelected`. -/
def isSelected (coinControl : CCoinControl) (hash : Uint256) (n : Nat) : Bool :=
  coinControl.setSelected.contains ⟨hash, n⟩

end CCoinControl

namespace CWallet

variable (w : CWallet)

/-- `mapWallet`, in the order of the hashes. -/
def entriesByHash : List (Uint256 × CWalletTx) :=
  (w.mapWallet.entries.insertionSort fun e₁ e₂ => e₁.1 ≤ e₂.1).map fun e => (e.1, e.2)

/-- The transactions of `mapWallet`, in the order of the hashes. -/
def txsByHash : List CWalletTx := w.entriesByHash.map Prod.snd

variable {w}

theorem mem_entriesByHash {hash : Uint256} {wtx : CWalletTx} :
    (hash, wtx) ∈ w.entriesByHash ↔ w.mapWallet.lookup hash = some wtx := by
  rw [entriesByHash, List.mem_map]
  constructor
  · rintro ⟨⟨h, x⟩, hmem, heq⟩
    obtain ⟨rfl, rfl⟩ := Prod.mk.inj heq
    exact AList.mem_lookup_iff.2 ((List.perm_insertionSort _ _).mem_iff.1 hmem)
  · intro hlookup
    exact ⟨⟨hash, wtx⟩, (List.perm_insertionSort _ _).mem_iff.2 (AList.mem_lookup_iff.1 hlookup), rfl⟩

/-- Every hash is there once. -/
theorem nodup_entriesByHash (w : CWallet) : (w.entriesByHash.map Prod.fst).Nodup := by
  have hperm := (List.perm_insertionSort (fun e₁ e₂ : Sigma fun _ : Uint256 => CWalletTx =>
    e₁.1 ≤ e₂.1) w.mapWallet.entries).map Sigma.fst
  rw [entriesByHash, List.map_map]
  exact hperm.nodup_iff.2 w.mapWallet.nodupKeys

/-- The outputs of the transactions of the wallet that are worth an amount. -/
def outputsFrom (w : CWallet) (nMinimumInputValue : Int) : List CTxOut :=
  w.entriesByHash.flatMap fun entry =>
    entry.2.tx.vout.filter fun txout => decide (nMinimumInputValue ≤ txout.nValue)

end CWallet

/-- What the wallet finds when it looks for coins. -/
structure CoinView where
  node : NodeState
  adjustedTime : Int
  nMinimumInputValue : Int

namespace CoinView

variable (C : Crypto) (v : CoinView) (w : CWallet)

/-- The tests of `AvailableCoins` for a transaction. `IsConfirmed` asks for nothing but the depth: of
a transaction that is not in a block it says no, whatever `IsFromMe` says. -/
def isAvailable (fOnlyConfirmed : Bool) (wtx : CWalletTx) : Bool :=
  wtx.tx.isFinal v.node.nBestHeight v.adjustedTime &&
    (!fOnlyConfirmed || decide (1 ≤ (wtx.getDepthInMainChain C v.node).1)) &&
    !((wtx.tx.isCoinBase || wtx.tx.isCoinStake) &&
      decide (0 < (wtx.getBlocksToMaturity C v.node).1)) &&
    decide (0 ≤ (wtx.getDepthInMainChain C v.node).1)

/-- The tests of `AvailableCoins` for an output of a transaction that `mapWallet` has under a hash. -/
def offers (coinControl : Option CCoinControl) (hash : Uint256) (wtx : CWalletTx) (i : Nat)
    (txout : CTxOut) : Bool :=
  !wtx.isSpent i && w.keys.isMine txout.scriptPubKey &&
    decide (v.nMinimumInputValue ≤ txout.nValue) &&
    match coinControl with
    | none => true
    | some coinControl => !coinControl.hasSelected || coinControl.isSelected hash i

/-- The outputs of a transaction that are available. -/
def outputsOf (coinControl : Option CCoinControl) (hash : Uint256) (wtx : CWalletTx) : List COutput :=
  (List.finRange wtx.tx.vout.length).filterMap fun i : Fin _ =>
    if v.offers w coinControl hash wtx i wtx.tx.vout[i] then
      some ⟨wtx.tx, i, (wtx.getDepthInMainChain C v.node).1, wtx.tx.vout[i],
        List.getElem?_eq_getElem i.isLt⟩
    else none

/-- **`AvailableCoins`**, with the transactions of the wallet. -/
def availableOutputs (fOnlyConfirmed : Bool) (coinControl : Option CCoinControl) :
    List ((Uint256 × CWalletTx) × COutput) :=
  (w.entriesByHash.filter fun entry => v.isAvailable C fOnlyConfirmed entry.2).flatMap fun entry =>
    (v.outputsOf C w coinControl entry.1 entry.2).map fun out => (entry, out)

/-- `vCoins`. -/
def availableCoins (fOnlyConfirmed : Bool) (coinControl : Option CCoinControl) : List COutput :=
  (v.availableOutputs C w fOnlyConfirmed coinControl).map Prod.snd

variable {C v w} {fOnlyConfirmed : Bool} {coinControl : Option CCoinControl}

theorem mem_outputsOf {hash : Uint256} {wtx : CWalletTx} {out : COutput} :
    out ∈ v.outputsOf C w coinControl hash wtx ↔
      out.tx = wtx.tx ∧ out.nDepth = (wtx.getDepthInMainChain C v.node).1 ∧
        v.offers w coinControl hash wtx out.i out.txout = true := by
  rw [outputsOf, List.mem_filterMap]
  constructor
  · rintro ⟨i, -, hi⟩
    split at hi
    · next hoffers =>
      obtain rfl := Option.some.inj hi
      exact ⟨rfl, rfl, hoffers⟩
    · cases hi
  · obtain ⟨tx, i, nDepth, txout, hvout⟩ := out
    rintro ⟨rfl, rfl, hoffers⟩
    obtain ⟨hlt, rfl⟩ := List.getElem?_eq_some_iff.1 hvout
    exact ⟨⟨i, hlt⟩, List.mem_finRange _, if_pos hoffers⟩

/-- **Which outputs are available.** -/
theorem mem_availableOutputs {hash : Uint256} {wtx : CWalletTx} {out : COutput} :
    ((hash, wtx), out) ∈ v.availableOutputs C w fOnlyConfirmed coinControl ↔
      w.mapWallet.lookup hash = some wtx ∧ v.isAvailable C fOnlyConfirmed wtx = true ∧
        out ∈ v.outputsOf C w coinControl hash wtx := by
  rw [availableOutputs, List.mem_flatMap]
  constructor
  · rintro ⟨entry, hentry, hout⟩
    obtain ⟨out', hout', heq⟩ := List.mem_map.1 hout
    obtain ⟨rfl, rfl⟩ := Prod.mk.inj heq
    obtain ⟨hmem, havailable⟩ := List.mem_filter.1 hentry
    exact ⟨CWallet.mem_entriesByHash.1 hmem, havailable, hout'⟩
  · rintro ⟨hlookup, havailable, hout⟩
    exact ⟨(hash, wtx), List.mem_filter.2 ⟨CWallet.mem_entriesByHash.2 hlookup, havailable⟩,
      List.mem_map_of_mem hout⟩

/-- **No output is available twice.** -/
theorem nodup_availableCoins (hkeyed : ∀ hash wtx, w.mapWallet.lookup hash = some wtx →
    C.hashTx wtx.tx = hash) :
    ((v.availableCoins C w fOnlyConfirmed coinControl).map fun out => out.coin.2).Nodup := by
  rw [availableCoins, availableOutputs, List.map_flatMap, List.map_flatMap, List.nodup_flatMap]
  constructor
  · -- within a transaction the places differ
    rintro ⟨hash, wtx⟩ -
    rw [List.map_map, List.map_map, outputsOf, List.map_filterMap]
    refine (List.nodup_finRange _).filterMap fun i j c hi hj => ?_
    obtain ⟨out, hout, rfl⟩ := Option.map_eq_some_iff.1 hi
    obtain ⟨out', hout', heq⟩ := Option.map_eq_some_iff.1 hj
    split at hout
    · split at hout'
      · obtain rfl := Option.some.inj hout
        obtain rfl := Option.some.inj hout'
        exact Fin.ext (Prod.mk.inj heq).2.symm
      · cases hout'
    · cases hout
  · -- two transactions have different hashes
    have hne : (w.entriesByHash.filter fun entry => v.isAvailable C fOnlyConfirmed entry.2).Pairwise
        fun e₁ e₂ => e₁.1 ≠ e₂.1 :=
      (List.pairwise_map.1 (CWallet.nodup_entriesByHash w)).filter _
    have htx : ∀ entry ∈ w.entriesByHash.filter fun entry => v.isAvailable C fOnlyConfirmed entry.2,
        ∀ c ∈ (((v.outputsOf C w coinControl entry.1 entry.2).map fun out => (entry, out)).map
          Prod.snd).map fun out => out.coin.2, C.hashTx c.1 = entry.1 := by
      rintro ⟨hash, wtx⟩ hentry c hc
      rw [List.map_map, List.map_map] at hc
      obtain ⟨out, hout, rfl⟩ := List.mem_map.1 hc
      have hlookup := CWallet.mem_entriesByHash.1 (List.mem_filter.1 hentry).1
      have hoff := (mem_outputsOf.1 hout).1
      exact (congrArg C.hashTx hoff).trans (hkeyed hash wtx hlookup)
    refine hne.imp_of_mem fun {e₁ e₂} h₁ h₂ hdiffer => ?_
    exact fun c hc₁ hc₂ => hdiffer ((htx e₁ h₁ c hc₁).symm.trans (htx e₂ h₂ c hc₂))

theorem filterMap_sublist_filter {α β : Type*} {p : α → Bool} {q : β → Bool} {g : α → β}
    (l : List α) (h : ∀ a, p a = true → q (g a) = true) :
    (l.filterMap fun a => if p a then some (g a) else none).Sublist ((l.map g).filter q) := by
  induction l with
  | nil => exact List.Sublist.slnil
  | cons a l ih =>
    rw [List.filterMap_cons, List.map_cons, List.filter_cons]
    by_cases hp : p a = true
    · rw [if_pos hp, if_pos (h a hp)]
      exact ih.cons_cons _
    · rw [if_neg hp]
      dsimp only
      split
      · exact ih.cons _
      · exact ih

/-- What is available is among all outputs, whatever keys the wallet has. -/
theorem availableCoins_sublist :
    ((v.availableCoins C w fOnlyConfirmed coinControl).map COutput.txout).Sublist
      (w.outputsFrom v.nMinimumInputValue) := by
  rw [availableCoins, availableOutputs, List.map_flatMap, List.map_flatMap, CWallet.outputsFrom]
  refine (List.Sublist.flatMap List.filter_sublist _).trans
    (List.Sublist.flatMap_right _ fun entry _ => ?_)
  have hvout : (List.finRange entry.2.tx.vout.length).map (fun i => entry.2.tx.vout[i]) =
      entry.2.tx.vout := List.map_getElem_finRange _
  have hsub := filterMap_sublist_filter (List.finRange entry.2.tx.vout.length)
    (p := fun i : Fin _ => v.offers w coinControl entry.1 entry.2 i entry.2.tx.vout[i])
    (q := fun txout => decide (v.nMinimumInputValue ≤ txout.nValue))
    (g := fun i : Fin _ => entry.2.tx.vout[i]) fun i hi => by
      rw [offers.eq_def, Bool.and_eq_true, Bool.and_eq_true] at hi
      exact hi.1.2
  rw [hvout] at hsub
  rw [List.map_map, List.map_map, outputsOf, List.map_filterMap]
  convert hsub using 2
  ext i
  split
  · rfl
  · rfl

end CoinView

end MotaCoin
