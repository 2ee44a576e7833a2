import MotaCoin.Accounts
import MotaCoin.Retarget
import MotaCoin.WalletCoins

/-!
# Listing transactions

`listtransactions` goes over the transactions of the wallet and the accounting entries, the newest
first, until there are as many entries as its caller asked for, and cuts a window out of them. The
numbers are `int`s. A sum of them that is not in range wraps, and a place outside of the list that is
cut has no behaviour.

## Main definitions

* `TxPair`, `CWallet.orderedTxItems`: the items in their order
* `ListEntry`, `TxLister.itemEntries`: what an item is listed as
* `TxLister.listTransactions`: the call
* `TxLister.history`: all entries, the newest first

## Main results

* `TxLister.listTransactions_iff`: when the call returns the window that was asked for
-/

namespace MotaCoin

/-! ## Items -/

/-- `CAccountingEntry`, with what is listed of it. -/
structure CAccountingItem extends CAccountingEntry where
  nTime : Int
  strOtherAccount : String
  strComment : String
  nOrderPos : Int
  nEntryNo : Nat
  deriving DecidableEq

/-- `TxPair`: one of the two pointers is there. -/
abbrev TxPair := CWalletTx ⊕ CAccountingItem

/-- The position of an item. -/
def TxPair.nOrderPos : TxPair → Int
  | .inl wtx => wtx.nOrderPos
  | .inr entry => entry.nOrderPos

/-- `ListAccountCreditDebit`, for the records of the database in the order of their keys. -/
def listAccountItems (acentries : List CAccountingItem) (strAccount : String) :
    List CAccountingItem :=
  acentries.filter fun acentry => strAccount = "*" || acentry.strAccount = strAccount

namespace CWallet

/-- `OrderedTxItems`: a multimap, where items with one position are in the order of insertion. -/
def orderedTxItems (w : CWallet) (acentries : List CAccountingItem) (strAccount : String) :
    List TxPair :=
  (w.txsByHash.map Sum.inl ++ (listAccountItems acentries strAccount).map Sum.inr).insertionSort
    fun p₁ p₂ => TxPair.nOrderPos p₁ ≤ TxPair.nOrderPos p₂

end CWallet

/-! ## Entries -/

/-- `WalletTxToJSON`, as far as the wallet has it here. -/
structure WalletTxJSON where
  confirmations : Int
  generated : Bool
  /-- `blockhash` and `blockindex`. -/
  block : Option (Uint256 × Int)
  txid : Uint256
  timereceived : Int
  deriving DecidableEq

/-- `category`. -/
inductive TxCategory where
  | immature
  | orphan
  | generate
  | send
  | receive
  deriving DecidableEq

/-- An object that is listed. -/
inductive ListEntry where
  | tx (account : String) (address : Option CTxDestination) (category : TxCategory) (amount : Int)
      (fee : Option Int) (json : WalletTxJSON)
  | move (acentry : CAccountingItem)
  deriving DecidableEq

/-- What a call throws or runs into. -/
inductive RpcError where
  /-- `JSONRPCError(RPC_INVALID_PARAMETER, …)`. -/
  | invalidParameter (message : String)
  /-- The amounts of a transaction are not in range. -/
  | amounts
  /-- An iterator is moved out of the list. -/
  | outOfRange
  deriving DecidableEq

/-- What the call finds: the wallet, the records of its database, and the chain. -/
structure TxLister where
  wallet : CWallet
  acentries : List CAccountingItem
  node : NodeState

namespace TxLister

variable (C : Crypto) (v : TxLister)

/-- `WalletTxToJSON`. -/
def walletTxToJSON (wtx : CWalletTx) : WalletTxJSON :=
  let confirms := (wtx.getDepthInMainChain C v.node).1
  { confirmations := confirms
    generated := wtx.tx.isCoinBase || wtx.tx.isCoinStake
    block := if 0 < confirms then some (wtx.hashBlock, wtx.nIndex) else none
    txid := C.hashTx wtx.tx
    timereceived := wtx.nTimeReceived }

/-- `MaybePushAddress`. -/
def maybePushAddress (dest : CTxDestination) : Option CTxDestination :=
  if dest = .noDestination then none else some dest

/-- The category of what is received. -/
def receivedCategory (wtx : CWalletTx) : TxCategory :=
  if wtx.tx.isCoinBase || wtx.tx.isCoinStake then
    if (wtx.getDepthInMainChain C v.node).1 < 1 then .orphan
    else if 0 < (wtx.getBlocksToMaturity C v.node).1 then .immature
    else .generate
  else .receive

/-- The loop over what is received; of a coin stake, one output is listed, with what it earned. -/
def receivedEntries (strAccount : String) (wtx : CWalletTx) (nFee : Int) :
    List (CTxDestination × Int) → List ListEntry
  | [] => []
  | r :: listReceived =>
    let account := (v.wallet.bookName r.1).getD ""
    if strAccount = "*" ∨ account = strAccount then
      .tx account (maybePushAddress r.1) (v.receivedCategory C wtx)
          (if wtx.tx.isCoinStake then -nFee else r.2) none (v.walletTxToJSON C wtx) ::
        (if wtx.tx.isCoinStake then [] else receivedEntries strAccount wtx nFee listReceived)
    else receivedEntries strAccount wtx nFee listReceived

/-- What `ListTransactions` lists of amounts that were generated. -/
def generatedEntries (strAccount : String) (wtx : CWalletTx) (amounts : TxAmounts) :
    List ListEntry :=
  if amounts.nGeneratedMature + amounts.nGeneratedImmature ≠ 0 ∧
      (strAccount = "*" ∨ strAccount = "") then
    [if amounts.nGeneratedImmature ≠ 0 then
      .tx "" none (if (wtx.getDepthInMainChain C v.node).1 ≠ 0 then .immature else .orphan)
        amounts.nGeneratedImmature none (v.walletTxToJSON C wtx)
    else .tx "" none .generate amounts.nGeneratedMature none (v.walletTxToJSON C wtx)]
  else []

/-- What `ListTransactions` lists of what was sent. -/
def sentEntries (strAccount : String) (wtx : CWalletTx) (amounts : TxAmounts) : List ListEntry :=
  if wtx.tx.isCoinStake = false ∧ (amounts.listSent ≠ [] ∨ amounts.nFee ≠ 0) ∧
      (strAccount = "*" ∨ strAccount = amounts.strSentAccount) then
    amounts.listSent.map fun s => .tx amounts.strSentAccount (maybePushAddress s.1) .send (-s.2)
      (some (-amounts.nFee)) (v.walletTxToJSON C wtx)
  else []

/-- `ListTransactions`, in full; none where it throws. -/
def txEntries (strAccount : String) (nMinDepth : Int) (wtx : CWalletTx) : Option (List ListEntry) :=
  (wtx.getAmounts v.wallet).map fun amounts =>
    v.generatedEntries C strAccount wtx amounts ++ v.sentEntries C strAccount wtx amounts ++
      if nMinDepth ≤ (wtx.getDepthInMainChain C v.node).1 then
        v.receivedEntries C strAccount wtx amounts.nFee amounts.listReceived
      else []

/-- `AcentryToJSON`. -/
def acentryToJSON (acentry : CAccountingItem) (strAccount : String) : List ListEntry :=
  if strAccount = "*" ∨ acentry.strAccount = strAccount then [.move acentry] else []

/-- What an item is listed as; none where that throws. -/
def itemEntries (strAccount : String) : TxPair → Option (List ListEntry)
  | .inl wtx => v.txEntries C strAccount 0 wtx
  | .inr acentry => some (acentryToJSON acentry strAccount)

/-! ## The call -/

/-- The items, the newest first. -/
def newestFirst (strAccount : String) : List TxPair :=
  (v.wallet.orderedTxItems v.acentries strAccount).reverse

/-- The loop of `listtransactions`: it ends when there are `nEnd` entries. -/
def gather (strAccount : String) (nEnd : Int) :
    List TxPair → List ListEntry → Option (List ListEntry)
  | [], ret => some ret
  | item :: items, ret => (v.itemEntries C strAccount item).bind fun entries =>
    let ret := ret ++ entries
    if nEnd ≤ toInt32 ret.length then some ret else gather strAccount nEnd items ret

/-- How `listtransactions` ends: the window is cut out of the entries and turned around. -/
def cutOut (ret : List ListEntry) (nCount nFrom : Int) : Except RpcError (List ListEntry) :=
  let nFrom := if toInt32 ret.length < nFrom then toInt32 ret.length else nFrom
  let nCount := if toInt32 ret.length < toInt32 (nFrom + nCount) then toInt32 (ret.length - nFrom)
    else nCount
  let nLast := toInt32 (nFrom + nCount)
  if 0 ≤ nFrom ∧ nFrom ≤ nLast ∧ nLast ≤ ret.length then
    .ok ((ret.take nLast.toNat).drop nFrom.toNat).reverse
  else .error .outOfRange

/-- **`listtransactions`.** -/
def listTransactions (strAccount : String) (nCount nFrom : Int) : Except RpcError (List ListEntry) :=
  if nCount < 0 then .error (.invalidParameter "Negative count")
  else if nFrom < 0 then .error (.invalidParameter "Negative from")
  else match v.gather C strAccount (toInt32 (nCount + nFrom)) (v.newestFirst strAccount) [] with
    | none => .error .amounts
    | some ret => cutOut ret nCount nFrom

/-! ## The window -/

/-- **All entries**, the newest first; none where one of them throws. -/
def history (strAccount : String) : Option (List ListEntry) :=
  ((v.newestFirst strAccount).mapM (v.itemEntries C strAccount)).map List.flatten

/-- The entries of the newest item. -/
def newestEntries (strAccount : String) : List ListEntry :=
  ((v.newestFirst strAccount).head?.bind (v.itemEntries C strAccount)).getD []

/-- The entries from `nFrom` on, `nCount` of them, the oldest first. -/
def page (all : List ListEntry) (nCount nFrom : Nat) : List ListEntry :=
  ((all.drop nFrom).take nCount).reverse

variable {C v} {strAccount : String} {nCount nFrom : Nat} {nEnd : Int} {ret : List ListEntry}

/-- A number of entries that fits an `int`. -/
theorem toInt32_length (h : ret.length < 2 ^ 31) : toInt32 ret.length = ret.length :=
  toInt32_of_lt (by omega) (by omega)

/-- A sum of two `int`s that does not fit is negative. -/
theorem toInt32_overflow (hcount : nCount < 2 ^ 31) (hfrom : nFrom < 2 ^ 31)
    (hover : 2 ^ 31 ≤ nCount + nFrom) : toInt32 (nCount + nFrom : Int) < 0 := by
  rw [toInt32]
  omega

/-- The loop gathers the first entries, as many as were asked for or all. -/
theorem gather_spec {items : List TxPair} {lists : List (List ListEntry)}
    (h : items.mapM (v.itemEntries C strAccount) = some lists) :
    ∃ ret' rest, v.gather C strAccount nEnd items ret = some ret' ∧
      ret ++ lists.flatten = ret' ++ rest ∧ (rest = [] ∨ nEnd ≤ toInt32 ret'.length) := by
  induction items generalizing ret lists with
  | nil =>
    obtain rfl := Option.some.inj h
    exact ⟨ret, [], rfl, rfl, Or.inl rfl⟩
  | cons item items ih =>
    rw [List.mapM_cons] at h
    obtain ⟨entries, hentries, hrest⟩ := Option.bind_eq_some_iff.1 h
    obtain ⟨lists', hlists', hcons⟩ := Option.bind_eq_some_iff.1 hrest
    obtain rfl := Option.some.inj hcons
    rw [gather, hentries, Option.bind_some, List.flatten_cons, ← List.append_assoc]
    dsimp only
    split
    · next hend => exact ⟨ret ++ entries, lists'.flatten, rfl, rfl, Or.inr hend⟩
    · exact ih hlists'

/-- The two numbers of a window, brought into the list. -/
theorem cutOut_eq (hlen : ret.length < 2 ^ 31) (hcount : nCount < 2 ^ 31) :
    cutOut ret nCount nFrom =
      if nCount + min nFrom ret.length < 2 ^ 31 then .ok (page ret nCount nFrom)
      else .error .outOfRange := by
  have hfrom : (if (ret.length : Int) < nFrom then (ret.length : Int) else nFrom) =
      (min nFrom ret.length : Nat) := by
    split <;> omega
  rw [cutOut, toInt32_length hlen, hfrom]
  have hle : min nFrom ret.length ≤ ret.length := Nat.min_le_right ..
  have hpage : page ret nCount nFrom = ((ret.drop (min nFrom ret.length)).take nCount).reverse := by
    rcases Nat.le_total nFrom ret.length with h | h
    · rw [Nat.min_eq_left h, page]
    · rw [Nat.min_eq_right h, page, List.drop_eq_nil_of_le h, List.drop_length]
  rw [hpage]
  generalize min nFrom ret.length = f at hle
  by_cases hfits : nCount + f < 2 ^ 31
  · rw [if_pos hfits]
    -- the last place is that of the last entry of the window, or the end
    have hcut : (if (ret.length : Int) < toInt32 (f + nCount) then toInt32 (ret.length - f)
        else nCount) = (min nCount (ret.length - f) : Nat) := by
      rw [toInt32_of_lt (by omega) (by omega), toInt32_of_lt (by omega) (by omega)]
      split <;> omega
    have hlast : toInt32 (f + (min nCount (ret.length - f) : Nat)) =
        (f + min nCount (ret.length - f) : Nat) := by
      rw [toInt32_of_lt (by omega) (by omega), Nat.cast_add]
    rw [hcut, hlast, if_pos (by omega), Int.toNat_natCast, Int.toNat_natCast, List.drop_take,
      Nat.add_sub_cancel_left, ← List.length_drop, ← List.take_eq_take_min]
  · rw [if_neg hfits]
    have hneg : toInt32 (f + nCount) < 0 := by
      rw [add_comm]
      exact toInt32_overflow hcount (by omega) (by omega)
    rw [if_neg (show ¬ (ret.length : Int) < toInt32 (f + nCount) by omega), if_neg (by omega)]

/-- Entries behind those that a window asks for. -/
theorem page_append {rest : List ListEntry} (h : rest = [] ∨ nCount + nFrom ≤ ret.length) :
    page (ret ++ rest) nCount nFrom = page ret nCount nFrom := by
  rcases h with rfl | hle
  · rw [List.append_nil]
  · rw [page, page, List.take_drop, List.take_drop, List.take_append_of_le_length (by omega)]

variable {all : List ListEntry}

theorem history_eq (h : v.history C strAccount = some all) :
    ∃ lists, (v.newestFirst strAccount).mapM (v.itemEntries C strAccount) = some lists ∧
      all = lists.flatten := by
  obtain ⟨lists, hlists, rfl⟩ := Option.map_eq_some_iff.1 h
  exact ⟨lists, hlists, rfl⟩

/-- The newest entries are among all. -/
theorem length_newestEntries_le (h : v.history C strAccount = some all) :
    (v.newestEntries C strAccount).length ≤ all.length := by
  obtain ⟨lists, hlists, rfl⟩ := history_eq h
  rw [newestEntries]
  cases hitems : v.newestFirst strAccount with
  | nil => exact Nat.zero_le _
  | cons item items =>
    rw [hitems, List.mapM_cons] at hlists
    obtain ⟨entries, hentries, hrest⟩ := Option.bind_eq_some_iff.1 hlists
    obtain ⟨lists', -, hcons⟩ := Option.bind_eq_some_iff.1 hrest
    obtain rfl := Option.some.inj hcons
    rw [List.head?_cons, Option.bind_some, hentries, Option.getD_some, List.flatten_cons,
      List.length_append]
    exact Nat.le_add_right ..

/-- A loop that is to end at a negative number ends with the newest entries. -/
theorem gather_of_neg (h : v.history C strAccount = some all) (hlen : all.length < 2 ^ 31)
    (hneg : nEnd < 0) :
    v.gather C strAccount nEnd (v.newestFirst strAccount) [] =
      some (v.newestEntries C strAccount) := by
  have hle := length_newestEntries_le h
  obtain ⟨lists, hlists, rfl⟩ := history_eq h
  rw [newestEntries] at hle ⊢
  cases hitems : v.newestFirst strAccount with
  | nil => rfl
  | cons item items =>
    rw [hitems, List.mapM_cons] at hlists
    obtain ⟨entries, hentries, -⟩ := Option.bind_eq_some_iff.1 hlists
    rw [hitems, List.head?_cons, Option.bind_some, hentries, Option.getD_some] at hle
    rw [gather, hentries, Option.bind_some, List.head?_cons, Option.bind_some, hentries,
      Option.getD_some, List.nil_append]
    dsimp only
    rw [if_pos]
    rw [toInt32_length (by omega)]
    omega

/-- **When the call returns the window** of a history that it can list. -/
theorem listTransactions_iff (h : v.history C strAccount = some all) (hlen : all.length < 2 ^ 31)
    (hcount : nCount < 2 ^ 31) (hfrom : nFrom < 2 ^ 31) :
    v.listTransactions C strAccount nCount nFrom = .ok (page all nCount nFrom) ↔
      nCount + nFrom < 2 ^ 31 ∨
        all.length ≤ nFrom ∧ nCount + (v.newestEntries C strAccount).length < 2 ^ 31 := by
  have hle := length_newestEntries_le h
  rw [listTransactions, if_neg (by omega), if_neg (by omega)]
  by_cases hfits : nCount + nFrom < 2 ^ 31
  · -- the sum is in range
    refine iff_of_true ?_ (Or.inl hfits)
    obtain ⟨lists, hlists, rfl⟩ := history_eq h
    obtain ⟨ret, rest, hgather, happend, hend⟩ := @gather_spec C v strAccount
      (toInt32 (nCount + nFrom)) [] _ _ hlists
    rw [List.nil_append] at happend
    have hsub : ret.length ≤ lists.flatten.length := by
      rw [happend, List.length_append]
      exact Nat.le_add_right ..
    rw [hgather]
    dsimp only
    rw [cutOut_eq (by omega) hcount, if_pos (by omega), happend, page_append]
    rw [toInt32_length (by omega), toInt32_of_lt (by omega) (by omega)] at hend
    exact hend.imp_right fun hend => by omega
  · rw [gather_of_neg h hlen (toInt32_overflow hcount hfrom (by omega))]
    dsimp only
    rw [cutOut_eq (by omega) hcount]
    generalize v.newestEntries C strAccount = ret at hle ⊢
    constructor
    · intro hok
      split at hok
      · next hlt =>
        -- the window lies behind the newest entries, so it is empty
        have hbehind : ret.length < nFrom := by omega
        have hsame := congrArg List.length (Except.ok.inj hok)
        rw [page, page, List.drop_eq_nil_of_le hbehind.le, List.take_nil, List.length_reverse,
          List.length_reverse, List.length_take, List.length_drop, List.length_nil] at hsame
        exact Or.inr ⟨by omega, by omega⟩
      · cases hok
    · rintro (hlt | ⟨hall, hnewest⟩)
      · exact absurd hlt hfits
      · rw [if_pos (by omega), page, page, List.drop_eq_nil_of_le (by omega),
          List.drop_eq_nil_of_le hall]

/-! ### A wallet with two entries -/

/-- The wallet that paid somebody, with what it got and what it sent. -/
noncomputable def shopLister : TxLister := ⟨shopView.wallet, [], shopView.node⟩

theorem history_shopLister : ∃ all, shopLister.history shopCrypto "*" = some all ∧ all.length = 2 := by
  have h : (shopLister.history shopCrypto "*").map List.length = some 2 := by
    decide +kernel
  exact Option.map_eq_some_iff.1 h

/-- The older entry is listed alone. -/
theorem listTransactions_shopLister : ∃ all, shopLister.history shopCrypto "*" = some all ∧
    shopLister.listTransactions shopCrypto "*" (1 : Nat) (1 : Nat) = .ok (page all 1 1) := by
  obtain ⟨all, h, hlen⟩ := history_shopLister
  exact ⟨all, h, (listTransactions_iff h (by omega) (by decide) (by decide)).2 (Or.inl (by decide))⟩

/-- All entries but the newest, without a limit to their number: the sum of the two wraps. -/
theorem not_listTransactions_page :
    ¬ ∀ (C : Crypto) (v : TxLister) (strAccount : String) (all : List ListEntry) (nCount nFrom : Nat),
      v.history C strAccount = some all → nCount < 2 ^ 31 → nFrom < 2 ^ 31 →
      v.listTransactions C strAccount nCount nFrom = .ok (page all nCount nFrom) := by
  intro hall
  obtain ⟨all, h, -⟩ := history_shopLister
  have hpage := hall shopCrypto shopLister "*" all 2147483647 1 h (by decide) (by decide)
  have hcode : shopLister.listTransactions shopCrypto "*" (2147483647 : Nat) (1 : Nat) =
      .error .outOfRange := by
    decide +kernel
  rw [hcode] at hpage
  cases hpage

end TxLister

end MotaCoin
