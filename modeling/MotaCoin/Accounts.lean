import MotaCoin.SpentFlags
import MotaCoin.Ledger
import MotaCoin.Lib.Postings

/-!
# Balances of accounts

What `listaccounts` and `GetAccountBalance` make of a wallet. Both go over its transactions; the
first posts what it finds to all accounts at once, the second adds it up for one.

## Main definitions

* `TxAmounts`, `CWalletTx.getAmounts`, `CWalletTx.getAccountAmounts`
* `CAccountingEntry`, `listAccountCreditDebit`, `getAccountCreditDebit`
* `AccountView`: what the two calls find
* `AccountView.getAccountBalance`, `AccountView.listAccounts`
* `CWalletTx.outflow`, `AccountView.settledOutflow`: what is taken of an account

## Main results

* `AccountView.balanceLoop_eq`, `AccountView.total_postings`: the two calls on one transaction
* `AccountView.listAccounts_agrees`: when they report the same for an account
-/

namespace MotaCoin

/-- What `GetAmounts` finds. -/
structure TxAmounts where
  nGeneratedImmature : Int
  nGeneratedMature : Int
  listReceived : List (CTxDestination × Int)
  listSent : List (CTxDestination × Int)
  nFee : Int
  strSentAccount : String

/-- What `GetAccountAmounts` finds. -/
structure AccountAmounts where
  nGeneratedImmature : Int
  nGeneratedMature : Int
  nReceived : Int
  nSent : Int
  nFee : Int

namespace CWallet

variable (w : CWallet)

/-- Whether `GetAmounts` looks at an output: not at a stake marker, of what is sent not at change, and
else at what is received. -/
def countsOutput (nDebit : Int) (txout : CTxOut) : Bool :=
  if txout.scriptPubKey.isEmpty then false
  else if 0 < nDebit then !w.isChange txout
  else w.keys.isMine txout.scriptPubKey

/-- The destination of an output with its value. -/
def outputEntry (txout : CTxOut) : CTxDestination × Int :=
  ((extractDestination w.keys.hash160 txout.scriptPubKey).getD .noDestination, txout.nValue)

end CWallet

namespace CWalletTx

variable (w : CWallet) (wtx : CWalletTx)

/-- `GetAmounts`; none where it throws. -/
def getAmounts : Option TxAmounts :=
  (wtx.getDebit w).1.bind fun nDebit =>
    (if 0 < nDebit then wtx.tx.getValueOut.map fun nValueOut => nDebit - nValueOut else some 0).map
      fun nFee =>
        let vout := wtx.tx.vout.filter (w.countsOutput nDebit)
        { nGeneratedImmature := 0
          nGeneratedMature := 0
          listReceived := (vout.filter fun txout => w.keys.isMine txout.scriptPubKey).map w.outputEntry
          listSent := if 0 < nDebit then vout.map w.outputEntry else []
          nFee := nFee
          strSentAccount := wtx.strFromAccount }

/-- `GetAccountAmounts`; none where it throws. -/
def getAccountAmounts (strAccount : String) : Option AccountAmounts :=
  (wtx.getAmounts w).map fun amounts =>
    let own := strAccount = amounts.strSentAccount
    { nGeneratedImmature := if own then amounts.nGeneratedImmature else 0
      nGeneratedMature := if own then amounts.nGeneratedMature else 0
      nReceived := Int64.wrapSum ((amounts.listReceived.filter fun r =>
        match w.bookName r.1 with
        | some strName => strName = strAccount
        | none => strAccount.isEmpty).map Prod.snd)
      nSent := if own then Int64.wrapSum (amounts.listSent.map Prod.snd) else 0
      nFee := if own then amounts.nFee else 0 }

end CWalletTx

/-! ## Accounting entries -/

/-- `CAccountingEntry`, as far as balances go. -/
structure CAccountingEntry where
  strAccount : String
  nCreditDebit : Int
  deriving DecidableEq, Repr

/-- `ListAccountCreditDebit`: the entries of an account, or all of them. -/
def listAccountCreditDebit (acentries : List CAccountingEntry) (strAccount : String) :
    List CAccountingEntry :=
  acentries.filter fun acentry => strAccount = "*" || acentry.strAccount = strAccount

/-- `GetAccountCreditDebit`. -/
def getAccountCreditDebit (acentries : List CAccountingEntry) (strAccount : String) : Int :=
  Int64.wrapSum ((listAccountCreditDebit acentries strAccount).map CAccountingEntry.nCreditDebit)

/-! ## Balances -/

/-- What the calls find: the wallet, the entries of its database, the chain and the time. -/
structure AccountView where
  wallet : CWallet
  acentries : List CAccountingEntry
  node : NodeState
  adjustedTime : Int

namespace AccountView

variable (C : Crypto) (v : AccountView)

/-- The transactions of the wallet. -/
def walletTxs : List CWalletTx := v.wallet.mapWallet.entries.map Sigma.snd

/-- `IsFinal()` and a depth that is not negative. -/
def isTallied (wtx : CWalletTx) : Bool :=
  wtx.tx.isFinal v.node.nBestHeight v.adjustedTime && decide (0 ≤ (wtx.getDepthInMainChain C v.node).1)

/-- A depth of `nMinDepth`, and no blocks to maturity. -/
def isSettled (nMinDepth : Int) (wtx : CWalletTx) : Bool :=
  decide (nMinDepth ≤ (wtx.getDepthInMainChain C v.node).1) &&
    decide ((wtx.getBlocksToMaturity C v.node).1 = 0)

/-- The loop of `GetAccountBalance`. -/
def balanceLoop (strAccount : String) (nMinDepth : Int) (nBalance : Int) :
    List CWalletTx → Option Int
  | [] => some nBalance
  | wtx :: wtxs =>
    if !v.isTallied C wtx then balanceLoop strAccount nMinDepth nBalance wtxs
    else (wtx.getAccountAmounts v.wallet strAccount).bind fun amounts =>
      let nBalance := if amounts.nReceived ≠ 0 ∧ v.isSettled C nMinDepth wtx = true then
        Int64.wrap (nBalance + amounts.nReceived) else nBalance
      balanceLoop strAccount nMinDepth
        (Int64.wrap (nBalance + Int64.wrap (Int64.wrap (amounts.nGeneratedMature - amounts.nSent) -
          amounts.nFee))) wtxs

/-- `GetAccountBalance`; none where it throws. -/
def getAccountBalance (strAccount : String) (nMinDepth : Int) : Option Int :=
  (v.balanceLoop C strAccount nMinDepth 0 v.walletTxs).map fun nBalance =>
    Int64.wrap (nBalance + getAccountCreditDebit v.acentries strAccount)

/-- What `listaccounts` adds to the accounts for a transaction, in its order. -/
def txPostings (amounts : TxAmounts) (fSettled : Bool) : List (String × Int) :=
  (amounts.strSentAccount, -amounts.nFee) ::
    (amounts.listSent.map fun s => (amounts.strSentAccount, -s.2)) ++
    (if fSettled then amounts.listReceived.map fun r => ((v.wallet.bookName r.1).getD "", r.2)
      else []) ++
    (if fSettled then
      (amounts.strSentAccount, -amounts.nFee) :: ("", amounts.nGeneratedMature) ::
        amounts.listSent.map fun s => (amounts.strSentAccount, -s.2)
      else [])

/-- The loop of `listaccounts` over the transactions. -/
def accountsLoop (nMinDepth : Int) (mapAccountBalances : AList fun _ : String => Int) :
    List CWalletTx → Option (AList fun _ : String => Int)
  | [] => some mapAccountBalances
  | wtx :: wtxs =>
    if !v.isTallied C wtx then accountsLoop nMinDepth mapAccountBalances wtxs
    else (wtx.getAmounts v.wallet).bind fun amounts =>
      accountsLoop nMinDepth (Postings.postAll mapAccountBalances
        (v.txPostings amounts (v.isSettled C nMinDepth wtx))) wtxs

/-- The accounts `listaccounts` starts with: those that own addresses are named after. -/
def ownAccounts : AList fun _ : String => Int :=
  v.wallet.mapAddressBook.entries.foldl (fun mapAccountBalances entry =>
    if v.wallet.keys.isMineDestination entry.1 then mapAccountBalances.insert entry.2 0
    else mapAccountBalances) ∅

/-- `listaccounts`: the accounts with what it reports for them; none where it throws. -/
def listAccounts (nMinDepth : Int) : Option (AList fun _ : String => Int) :=
  (v.accountsLoop C nMinDepth v.ownAccounts v.walletTxs).map fun mapAccountBalances =>
    Postings.postAll mapAccountBalances ((listAccountCreditDebit v.acentries "*").map fun entry =>
      (entry.strAccount, entry.nCreditDebit))

/-! ## What the two calls make of a transaction -/

/-- What an account receives. -/
def received (amounts : TxAmounts) (strAccount : String) : Int :=
  Postings.total (amounts.listReceived.map fun r => ((v.wallet.bookName r.1).getD "", r.2)) strAccount

/-- What an account sends, with the fee. -/
def sent (amounts : TxAmounts) (strAccount : String) : Int :=
  if amounts.strSentAccount = strAccount then
    amounts.nFee + (amounts.listSent.map Prod.snd).sum else 0

/-- What a transaction adds to the balance of an account. -/
def txBalance (nMinDepth : Int) (strAccount : String) (wtx : CWalletTx) : Int :=
  if v.isTallied C wtx then ((wtx.getAmounts v.wallet).map fun amounts =>
    (if v.isSettled C nMinDepth wtx then v.received amounts strAccount else 0) -
      sent amounts strAccount).getD 0
  else 0

/-- What `listaccounts` posts for a transaction of the wallet. -/
def postings (nMinDepth : Int) (wtx : CWalletTx) : List (String × Int) :=
  if v.isTallied C wtx then ((wtx.getAmounts v.wallet).map fun amounts =>
    v.txPostings amounts (v.isSettled C nMinDepth wtx)).getD []
  else []

variable {C v}

theorem total_neg_sent (amounts : TxAmounts) (strAccount : String) :
    Postings.total (amounts.listSent.map fun s => (amounts.strSentAccount, -s.2)) strAccount =
      if amounts.strSentAccount = strAccount then -(amounts.listSent.map Prod.snd).sum else 0 := by
  have hmap : (amounts.listSent.map fun s => (amounts.strSentAccount, -s.2)) =
      ((amounts.listSent.map fun s => -s.2).map fun n => (amounts.strSentAccount, n)) := by
    rw [List.map_map]
    rfl
  rw [hmap, Postings.total_map_const, List.sum_neg, List.map_map]
  rfl

/-- **What is posted for a transaction** is what it adds to the balance, with what is sent taken off
once more if the transaction is settled. -/
theorem total_txPostings {amounts : TxAmounts} (hmature : amounts.nGeneratedMature = 0)
    (fSettled : Bool) (strAccount : String) :
    Postings.total (v.txPostings amounts fSettled) strAccount =
      (if fSettled then v.received amounts strAccount else 0) - sent amounts strAccount -
        if fSettled then sent amounts strAccount else 0 := by
  cases fSettled with
  | false =>
    simp only [txPostings, Bool.false_eq_true, if_false, List.append_nil,
      Postings.total_cons, total_neg_sent, sent]
    split <;> omega
  | true =>
    simp only [txPostings, if_true, List.cons_append, Postings.total_cons, Postings.total_append,
      total_neg_sent, sent, received, hmature, ite_self]
    split <;> omega

end AccountView

namespace CWalletTx

variable {w : CWallet} {wtx : CWalletTx} {amounts : TxAmounts}

theorem getAmounts_cases (h : wtx.getAmounts w = some amounts) :
    amounts.nGeneratedMature = 0 ∧ amounts.strSentAccount = wtx.strFromAccount ∧
      ∃ nDebit, (wtx.getDebit w).1 = some nDebit ∧
        ((0 < nDebit ∧ ∃ nValueOut, wtx.tx.getValueOut = some nValueOut ∧
            amounts.nFee = nDebit - nValueOut ∧
            amounts.listSent = (wtx.tx.vout.filter (w.countsOutput nDebit)).map w.outputEntry) ∨
          (nDebit ≤ 0 ∧ amounts.nFee = 0 ∧ amounts.listSent = [])) := by
  rw [getAmounts] at h
  obtain ⟨nDebit, hdebit, hrest⟩ := Option.bind_eq_some_iff.1 h
  obtain ⟨nFee, hfee, rfl⟩ := Option.map_eq_some_iff.1 hrest
  refine ⟨rfl, rfl, nDebit, hdebit, ?_⟩
  by_cases hpos : 0 < nDebit
  · rw [if_pos hpos] at hfee
    obtain ⟨nValueOut, hout, rfl⟩ := Option.map_eq_some_iff.1 hfee
    exact Or.inl ⟨hpos, nValueOut, hout, rfl, if_pos hpos⟩
  · rw [if_neg hpos] at hfee
    exact Or.inr ⟨not_lt.1 hpos, (Option.some.inj hfee).symm, if_neg hpos⟩

variable (w wtx)

/-- What a transaction takes of the account it is from: what it spends of the wallet, less what it
returns as change. -/
def outflow : Int :=
  let nDebit := ((wtx.getDebit w).1).getD 0
  if 0 < nDebit then
    nDebit - ((wtx.tx.vout.filter fun txout =>
      txout.scriptPubKey.isEmpty || w.isChange txout).map CTxOut.nValue).sum
  else 0

variable {w wtx}

/-- The fee and what is sent to the outputs are what is spent less the change. -/
theorem outflow_eq (h : wtx.getAmounts w = some amounts) :
    amounts.nFee + (amounts.listSent.map Prod.snd).sum = wtx.outflow w := by
  obtain ⟨-, -, nDebit, hdebit, hcases⟩ := getAmounts_cases h
  rw [outflow, hdebit, Option.getD_some]
  rcases hcases with ⟨hpos, nValueOut, hout, hfee, hsent⟩ | ⟨hle, hfee, hsent⟩
  · have hskipped : (wtx.tx.vout.filter fun txout => !w.countsOutput nDebit txout) =
        wtx.tx.vout.filter fun txout => txout.scriptPubKey.isEmpty || w.isChange txout := by
      congr 1
      funext txout
      rw [CWallet.countsOutput, if_pos hpos]
      cases txout.scriptPubKey.isEmpty <;> simp
    have hsplit := Postings.sum_map_filter_add CTxOut.nValue (w.countsOutput nDebit) wtx.tx.vout
    have hvalues : ((wtx.tx.vout.filter (w.countsOutput nDebit)).map w.outputEntry).map Prod.snd =
        (wtx.tx.vout.filter (w.countsOutput nDebit)).map CTxOut.nValue := by
      rw [List.map_map]
      rfl
    rw [hfee, hsent, hvalues, if_pos hpos, (CTransaction.getValueOut_eq hout).1, ← hskipped]
    omega
  · rw [hfee, hsent, if_neg (not_lt.2 hle)]
    rfl

end CWalletTx

namespace AccountView

variable {C : Crypto} {v : AccountView}

/-- What is received for one account, as a word. -/
theorem wrapSum_received (amounts : TxAmounts) (strAccount : String) :
    Int64.wrapSum ((amounts.listReceived.filter fun r =>
      match v.wallet.bookName r.1 with
      | some strName => strName = strAccount
      | none => strAccount.isEmpty).map Prod.snd) = Int64.wrap (v.received amounts strAccount) := by
  rw [Int64.wrapSum_eq, received]
  congr 1
  induction amounts.listReceived with
  | nil => rfl
  | cons r listReceived ih =>
    rw [List.map_cons, Postings.total_cons, ← ih, List.filter_cons]
    -- A destination that is not in the book belongs to the account without a name.
    cases v.wallet.bookName r.1 with
    | some strName => by_cases hname : strName = strAccount <;> simp [hname]
    | none =>
      by_cases hempty : strAccount = ""
      · simp [hempty]
      · simp [hempty, Ne.symm hempty]

/-- The words that `GetAccountBalance` adds for a transaction. -/
theorem wrap_accountAmounts {amounts : TxAmounts} (hmature : amounts.nGeneratedMature = 0)
    (strAccount : String) (nBalance nSent nFee nMature : Int)
    (hsent : nSent = if strAccount = amounts.strSentAccount then
      Int64.wrapSum (amounts.listSent.map Prod.snd) else 0)
    (hfee : nFee = if strAccount = amounts.strSentAccount then amounts.nFee else 0)
    (hmine : nMature = if strAccount = amounts.strSentAccount then amounts.nGeneratedMature else 0) :
    Int64.wrap (nBalance + Int64.wrap (Int64.wrap (nMature - nSent) - nFee)) =
      Int64.wrap (nBalance - sent amounts strAccount) := by
  rw [hmature, ite_self] at hmine
  rw [Int64.wrap_eq_wrap_iff, hsent, hfee, hmine, sent]
  by_cases hown : amounts.strSentAccount = strAccount
  · rw [if_pos hown, if_pos hown.symm, if_pos hown.symm, Int64.wrapSum_eq]
    generalize (amounts.listSent.map Prod.snd).sum = nSum
    unfold Int64.wrap
    omega
  · rw [if_neg hown, if_neg (Ne.symm hown), if_neg (Ne.symm hown)]
    unfold Int64.wrap
    omega

/-- What is received counts as a word, and a word that is zero adds nothing. -/
theorem wrap_received (nBalance nReceived nSent : Int) (fSettled : Bool) :
    Int64.wrap ((if Int64.wrap nReceived ≠ 0 ∧ fSettled = true then
        Int64.wrap (Int64.wrap nBalance + Int64.wrap nReceived) else Int64.wrap nBalance) - nSent) =
      Int64.wrap (nBalance + ((if fSettled = true then nReceived else 0) - nSent)) := by
  rw [Int64.wrap_eq_wrap_iff]
  cases fSettled with
  | false =>
    rw [if_neg (fun h => Bool.false_ne_true h.2), if_neg Bool.false_ne_true]
    unfold Int64.wrap
    omega
  | true =>
    rw [if_pos rfl]
    by_cases hzero : Int64.wrap nReceived = 0
    · rw [if_neg (fun h => h.1 hzero)]
      unfold Int64.wrap at *
      omega
    · rw [if_pos ⟨hzero, rfl⟩]
      unfold Int64.wrap
      omega

/-- **`GetAccountBalance` adds up** what each transaction adds to the balance, where nothing throws. -/
theorem balanceLoop_eq {wtxs : List CWalletTx}
    (h : ∀ wtx ∈ wtxs, v.isTallied C wtx = true → ∃ amounts, wtx.getAmounts v.wallet = some amounts)
    (strAccount : String) (nMinDepth nBalance : Int) :
    v.balanceLoop C strAccount nMinDepth (Int64.wrap nBalance) wtxs =
      some (Int64.wrap (nBalance + (wtxs.map (v.txBalance C nMinDepth strAccount)).sum)) := by
  induction wtxs generalizing nBalance with
  | nil => rw [balanceLoop, List.map_nil, List.sum_nil, add_zero]
  | cons wtx wtxs ih =>
    have hrest := ih fun wtx' hmem => h wtx' (List.mem_cons_of_mem wtx hmem)
    rw [balanceLoop, List.map_cons, List.sum_cons]
    by_cases htally : v.isTallied C wtx = true
    · obtain ⟨amounts, hamounts⟩ := h wtx List.mem_cons_self htally
      obtain ⟨hmature, -⟩ := CWalletTx.getAmounts_cases hamounts
      rw [if_neg (by simp [htally]), CWalletTx.getAccountAmounts, hamounts, Option.map_some,
        Option.bind_some]
      dsimp only
      rw [wrapSum_received, wrap_accountAmounts hmature strAccount _ _ _ _ rfl rfl rfl, txBalance,
        if_pos htally, hamounts, Option.map_some, Option.getD_some]
      rw [wrap_received, hrest, add_assoc]
    · rw [if_pos (by simp [htally]), hrest, txBalance, if_neg htally, zero_add]

/-- **`listaccounts` posts** what there is to post for each transaction, and none throws. -/
theorem accountsLoop_eq {wtxs : List CWalletTx} {nMinDepth : Int}
    {mapAccountBalances balances : AList fun _ : String => Int}
    (h : v.accountsLoop C nMinDepth mapAccountBalances wtxs = some balances) :
    balances = Postings.postAll mapAccountBalances (wtxs.flatMap (v.postings C nMinDepth)) ∧
      ∀ wtx ∈ wtxs, v.isTallied C wtx = true →
        ∃ amounts, wtx.getAmounts v.wallet = some amounts := by
  induction wtxs generalizing mapAccountBalances with
  | nil =>
    rw [accountsLoop, Option.some_inj] at h
    exact ⟨h.symm, fun wtx hmem => absurd hmem List.not_mem_nil⟩
  | cons wtx wtxs ih =>
    rw [accountsLoop] at h
    by_cases htally : v.isTallied C wtx = true
    · rw [if_neg (by simp [htally])] at h
      obtain ⟨amounts, hamounts, hrest⟩ := Option.bind_eq_some_iff.1 h
      obtain ⟨rfl, hsome⟩ := ih hrest
      refine ⟨?_, ?_⟩
      · rw [List.flatMap_cons, Postings.postAll_append, postings, if_pos htally, hamounts,
          Option.map_some, Option.getD_some]
      · intro wtx' hmem htally'
        rcases List.mem_cons.1 hmem with rfl | hmem
        · exact ⟨amounts, hamounts⟩
        · exact hsome wtx' hmem htally'
    · rw [if_pos (by simp [htally])] at h
      obtain ⟨rfl, hsome⟩ := ih h
      refine ⟨?_, ?_⟩
      · rw [List.flatMap_cons, postings, if_neg htally, List.nil_append]
      · intro wtx' hmem htally'
        rcases List.mem_cons.1 hmem with rfl | hmem
        · exact absurd htally' htally
        · exact hsome wtx' hmem htally'

/-- **What is posted for a transaction of the wallet** is what it adds to the balance, with what is
sent taken off once more if the transaction is settled. -/
theorem total_postings {wtx : CWalletTx} {nMinDepth : Int} (strAccount : String)
    (hsome : v.isTallied C wtx = true → ∃ amounts, wtx.getAmounts v.wallet = some amounts) :
    Postings.total (v.postings C nMinDepth wtx) strAccount +
        (if (v.isTallied C wtx && v.isSettled C nMinDepth wtx &&
          decide (wtx.strFromAccount = strAccount)) = true then wtx.outflow v.wallet else 0) =
      v.txBalance C nMinDepth strAccount wtx := by
  by_cases htally : v.isTallied C wtx = true
  · obtain ⟨amounts, hamounts⟩ := hsome htally
    rw [postings, txBalance, if_pos htally, if_pos htally, hamounts, Option.map_some, Option.map_some,
      Option.getD_some, Option.getD_some, total_txPostings (CWalletTx.getAmounts_cases hamounts).1,
      htally, Bool.true_and, ← CWalletTx.outflow_eq hamounts, sent,
      (CWalletTx.getAmounts_cases hamounts).2.1]
    cases v.isSettled C nMinDepth wtx with
    | false => simp
    | true =>
      simp only [Bool.true_and, decide_eq_true_eq, if_true]
      omega
  · rw [postings, txBalance, if_neg htally, if_neg htally, Bool.eq_false_iff.2 htally]
    rfl

/-- The accounts that `listaccounts` starts with have nothing. -/
theorem amount_ownAccounts (strAccount : String) :
    Postings.amount v.ownAccounts strAccount = 0 := by
  rw [ownAccounts]
  refine List.foldlRecOn _ _ (motive := fun book => Postings.amount book strAccount = 0) rfl ?_
  intro book hbook entry _
  split
  · rw [Postings.amount]
    by_cases hname : strAccount = entry.2
    · rw [hname, AList.lookup_insert, Option.getD_some]
    · rw [AList.lookup_insert_ne hname]
      exact hbook
  · exact hbook

variable (C v)

/-- What settled transactions take of an account: what they spend of the wallet less its change. -/
def settledOutflow (nMinDepth : Int) (strAccount : String) : Int :=
  ((v.walletTxs.filter fun wtx => v.isTallied C wtx && v.isSettled C nMinDepth wtx &&
    decide (wtx.strFromAccount = strAccount)).map (CWalletTx.outflow v.wallet)).sum

/-- The entries of other accounts, for the name that stands for all of them. -/
def foreignEntries (strAccount : String) : Int :=
  if strAccount = "*" then
    ((v.acentries.filter fun acentry => acentry.strAccount ≠ "*").map CAccountingEntry.nCreditDebit).sum
  else 0

variable {C v}

/-- The words posted for the entries of an account, and those that `GetAccountBalance` adds. -/
theorem total_entries (strAccount : String) :
    ((listAccountCreditDebit v.acentries strAccount).map CAccountingEntry.nCreditDebit).sum =
      Postings.total ((listAccountCreditDebit v.acentries "*").map fun entry =>
        (entry.strAccount, entry.nCreditDebit)) strAccount + v.foreignEntries strAccount := by
  have hall : listAccountCreditDebit v.acentries "*" = v.acentries := by
    rw [listAccountCreditDebit]
    exact List.filter_eq_self.2 fun _ _ => rfl
  have htotal : Postings.total (v.acentries.map fun entry => (entry.strAccount, entry.nCreditDebit))
      strAccount = ((v.acentries.filter fun acentry => acentry.strAccount = strAccount).map
        CAccountingEntry.nCreditDebit).sum := by
    rw [Postings.total, List.map_map, Postings.sum_map_filter]
    simp [Function.comp_def]
  rw [hall, htotal, foreignEntries]
  split
  · next hstar =>
    -- The name stands for all entries, its own among them.
    subst hstar
    have hsplit := Postings.sum_map_filter_add CAccountingEntry.nCreditDebit
      (fun acentry => decide (acentry.strAccount = "*")) v.acentries
    rw [hall, ← hsplit]
    simp
  · next hname =>
    rw [add_zero, listAccountCreditDebit]
    simp [hname]

/-- **What `listaccounts` reports for an account is what `GetAccountBalance` gives** exactly if what
settled transactions take of it, and the entries of other accounts that its name stands for, come to
nothing. -/
theorem listAccounts_agrees {nMinDepth : Int} {balances : AList fun _ : String => Int}
    (h : v.listAccounts C nMinDepth = some balances) {strAccount : String} {nAmount : Int}
    (hamount : balances.lookup strAccount = some nAmount) :
    v.getAccountBalance C strAccount nMinDepth = some nAmount ↔
      (v.settledOutflow C nMinDepth strAccount + v.foreignEntries strAccount) % 2 ^ 64 = 0 := by
  obtain ⟨mapAccountBalances, hloop, hbalances⟩ := Option.map_eq_some_iff.1 h
  obtain ⟨hposted, hsome⟩ := accountsLoop_eq hloop
  set txs := v.walletTxs with htxs
  set entries := (listAccountCreditDebit v.acentries "*").map fun entry =>
    (entry.strAccount, entry.nCreditDebit) with hentries
  -- What is reported is the total of what is posted.
  have hown : ∀ a, Int64.InRange (Postings.amount v.ownAccounts a) := by
    intro a
    rw [amount_ownAccounts]
    decide
  have hreport : nAmount = Int64.wrap
      ((txs.map fun wtx => Postings.total (v.postings C nMinDepth wtx) strAccount).sum +
        Postings.total entries strAccount) := by
    have hget : Postings.amount balances strAccount = nAmount := by
      rw [Postings.amount, hamount, Option.getD_some]
    rw [← hget, ← hbalances, hposted, ← Postings.postAll_append, Postings.amount_postAll hown,
      amount_ownAccounts, zero_add, Postings.total_append, Postings.total_flatMap]
  have htwice : (txs.map fun wtx => Postings.total (v.postings C nMinDepth wtx) strAccount).sum +
      v.settledOutflow C nMinDepth strAccount =
        (txs.map (v.txBalance C nMinDepth strAccount)).sum := by
    rw [settledOutflow, Postings.sum_map_filter, ← List.sum_map_add]
    congr 1
    exact List.map_congr_left fun wtx hmem => total_postings strAccount (hsome wtx hmem)
  have hbalance := balanceLoop_eq hsome strAccount nMinDepth 0
  rw [Int64.wrap_zero, zero_add] at hbalance
  rw [getAccountBalance, hbalance, Option.map_some, Option.some_inj, getAccountCreditDebit,
    Int64.wrapSum_eq, Int64.wrap_add_wrap, add_comm, Int64.wrap_add_wrap, hreport,
    Int64.wrap_eq_wrap_iff, total_entries]
  rw [← hentries]
  constructor <;> intro hmod <;> omega

end AccountView

/-! ## A wallet that paid somebody -/

/-- A script of somebody else. -/
def shopScript : CScript := pushData (List.replicate 33 3) ++ ofOpcode OP_CHECKSIG

/-- The wallet pays to it, takes the rest as change and leaves a fee of 1000. -/
def shopTx : CTransaction :=
  ⟨1, 1100, [⟨⟨1, 0⟩, [], 4294967295⟩], [⟨20000, shopScript⟩, ⟨29000, ownScript⟩], 0⟩

/-- A block with the payment to the wallet and the one it makes. -/
def shopBlock : CBlock := { incomeBlock with vtx := [incomeTx, shopTx] }

noncomputable def shopCrypto : Crypto := labelCrypto [incomeTx, shopTx] [shopBlock.getBlockHeader]

/-- A transaction of the wallet that was seen in that block. -/
def shopWalletTx (tx : CTransaction) (nIndex : Int) : CWalletTx :=
  { CWalletTx.ofTx tx with hashBlock := 1, nIndex := nIndex, fMerkleVerified := true }

/-- The block is the only one, and the wallet has the two payments. -/
noncomputable def shopView : AccountView where
  wallet := { newWallet with
    mapWallet := (AList.insert 2 (shopWalletTx shopTx 1) ∅).insert 1 (shopWalletTx incomeTx 0) }
  acentries := []
  node := storedNode shopCrypto [⟨shopBlock, 0, 0⟩]
  adjustedTime := 1300

/-- With a depth of two, nothing is settled. -/
theorem listAccounts_agrees_shop : shopView.getAccountBalance shopCrypto "" 2 = some (-21000) := by
  have hlist : ((shopView.listAccounts shopCrypto 2).map fun balances => balances.lookup "") =
      some (some (-21000)) ∧ (shopView.settledOutflow shopCrypto 2 "" +
        shopView.foreignEntries "") % 2 ^ 64 = 0 := by
    decide +kernel
  obtain ⟨balances, hbalances, hlookup⟩ := Option.map_eq_some_iff.1 hlist.1
  have hiff := AccountView.listAccounts_agrees hbalances hlookup
  exact hiff.2 hlist.2

/-- With a depth of one, `listaccounts` takes the payment and its fee off twice. -/
theorem not_listAccounts_agrees_shop :
    ∃ balances, shopView.listAccounts shopCrypto 1 = some balances ∧
      balances.lookup "" = some 8000 ∧
        shopView.getAccountBalance shopCrypto "" 1 = some 29000 := by
  have hlist : ((shopView.listAccounts shopCrypto 1).map fun balances => balances.lookup "") =
      some (some 8000) ∧ shopView.getAccountBalance shopCrypto "" 1 = some 29000 := by
    decide +kernel
  obtain ⟨balances, hbalances, hlookup⟩ := Option.map_eq_some_iff.1 hlist.1
  exact ⟨balances, hbalances, hlookup, hlist.2⟩

end MotaCoin
