import MotaCoin.Ownership
import MotaCoin.Lib.Memo
import MotaCoin.Accept

/-!
# The wallet

The transactions of a wallet with what is known of them: which of their outputs are spent, and
cached amounts. They are added from outside and when they are seen in blocks, in any order.

## Main definitions

* `CMerkleTx` parts of `CWalletTx`: `setMerkleBranch`, `getDepthInMainChain`, `getBlocksToMaturity`
* `CWalletTx`: `isSpent`, `markSpent`, `markUnspent`, `updateSpent`, `markDirty`
* `CWallet`, and the amounts: `txDebit`, `txCredit`, `txChange`, `txAvailableCredit`
* `CWalletTx.getDebit`, `getCredit`, `getAvailableCredit`, `getChange`: the amounts through the caches
* `CWallet.walletUpdateSpent`, `CWallet.addToWallet`, `CWallet.addToWalletIfInvolvingMe`
-/

namespace MotaCoin

/-- `CBlock::CheckMerkleBranch`. -/
def checkMerkleBranch (C : Crypto) (hash : Uint256) (vMerkleBranch : List Uint256) (nIndex : Int) :
    Uint256 :=
  if nIndex = -1 then 0
  else (vMerkleBranch.foldl (fun (hash, nIndex) otherside =>
    (if nIndex % 2 = 1 then C.hashPair otherside hash else C.hashPair hash otherside, nIndex / 2))
    (hash, nIndex)).1

/-- The loop of `GetMerkleBranch`, from a level of the tree up; `fuel` bounds the levels. -/
def merkleBranchFrom (C : Crypto) : Nat → List Uint256 → Nat → List Uint256
  | 0, _, _ => []
  | fuel + 1, level, nIndex =>
    if level.length ≤ 1 then []
    else (level.getD (min (nIndex ^^^ 1) (level.length - 1)) 0) ::
      merkleBranchFrom C fuel (merkleLevel C level) (nIndex / 2)

/-- `CBlock::GetMerkleBranch`. -/
def CBlock.getMerkleBranch (C : Crypto) (b : CBlock) (nIndex : Nat) : List Uint256 :=
  merkleBranchFrom C b.vtx.length (b.vtx.map C.hashTx) nIndex

/-- `CWalletTx`, with the parts of `CMerkleTx`. A cache is none where its flag is not set. -/
structure CWalletTx where
  tx : CTransaction
  hashBlock : Uint256
  vMerkleBranch : List Uint256
  nIndex : Int
  fMerkleVerified : Bool
  nTimeReceived : Int
  fFromMe : Bool
  strFromAccount : String
  vfSpent : List Bool
  nOrderPos : Int
  nDebitCached : Option Int
  nCreditCached : Option Int
  nAvailableCreditCached : Option Int
  nChangeCached : Option Int
  deriving DecidableEq

namespace CWalletTx

/-- `CWalletTx(pwallet, tx)`. -/
def ofTx (tx : CTransaction) : CWalletTx where
  tx := tx
  hashBlock := 0
  vMerkleBranch := []
  nIndex := -1
  fMerkleVerified := false
  nTimeReceived := 0
  fFromMe := false
  strFromAccount := ""
  vfSpent := []
  nOrderPos := -1
  nDebitCached := none
  nCreditCached := none
  nAvailableCreditCached := none
  nChangeCached := none

/-- `SetMerkleBranch(pblock)`. -/
def setMerkleBranch (C : Crypto) (b : CBlock) (wtx : CWalletTx) : CWalletTx :=
  let nIndex := b.vtx.idxOf wtx.tx
  if nIndex = b.vtx.length then { wtx with hashBlock := b.getHash C, vMerkleBranch := [], nIndex := -1 }
  else { wtx with
    hashBlock := b.getHash C
    vMerkleBranch := b.getMerkleBranch C nIndex
    nIndex := nIndex }

/-- The transaction that `AddToWalletIfInvolvingMe` adds, with its place in the block if there is one. -/
def ofBlockTx (C : Crypto) (tx : CTransaction) (pblock : Option CBlock) : CWalletTx :=
  match pblock with
  | none => ofTx tx
  | some b => (ofTx tx).setMerkleBranch C b

/-- `GetDepthInMainChainINTERNAL`; the Merkle branch is looked at until it is found to be right. -/
def getDepthInMainChainINTERNAL (C : Crypto) (s : NodeState) (wtx : CWalletTx) : Int × CWalletTx :=
  if wtx.hashBlock = 0 ∨ wtx.nIndex = -1 then (0, wtx)
  else match s.mapBlockIndex wtx.hashBlock with
    | none => (0, wtx)
    | some pindex =>
      if !s.isInMainChain wtx.hashBlock then (0, wtx)
      else if !wtx.fMerkleVerified &&
          checkMerkleBranch C (C.hashTx wtx.tx) wtx.vMerkleBranch wtx.nIndex != pindex.hashMerkleRoot then
        (0, wtx)
      else
        let nBestHeight := (s.best.map CBlockIndex.nHeight).getD 0
        (nBestHeight - pindex.nHeight + 1, { wtx with fMerkleVerified := true })

/-- `GetDepthInMainChain`: `-1` where the transaction is neither in the chain nor in the pool. -/
def getDepthInMainChain (C : Crypto) (s : NodeState) (wtx : CWalletTx) : Int × CWalletTx :=
  let (nResult, wtx) := wtx.getDepthInMainChainINTERNAL C s
  if nResult = 0 ∧ C.hashTx wtx.tx ∉ s.mempool.mapTx then (-1, wtx) else (nResult, wtx)

/-- `GetBlocksToMaturity`. -/
def getBlocksToMaturity (C : Crypto) (s : NodeState) (wtx : CWalletTx) : Int × CWalletTx :=
  if !(wtx.tx.isCoinBase || wtx.tx.isCoinStake) then (0, wtx)
  else
    let (nDepth, wtx) := wtx.getDepthInMainChain C s
    (max 0 (nCoinbaseMaturity + 20 - nDepth), wtx)

/-! ## Spent flags -/

variable (wtx : CWalletTx)

/-- `IsSpent`, for an output there is. -/
def isSpent (n : Nat) : Bool := wtx.vfSpent.getD n false

/-- `vfSpent.resize(vout.size())`. -/
def resizeSpent : List Bool :=
  wtx.vfSpent.take wtx.tx.vout.length ++
    List.replicate (wtx.tx.vout.length - wtx.vfSpent.length) false

/-- `MarkSpent` and `MarkUnspent`; they throw, and leave things as they are, where there is no such
output. -/
def setSpent (n : Nat) (fSpent : Bool) : CWalletTx :=
  if wtx.tx.vout.length ≤ n then wtx
  else { wtx with
    vfSpent := wtx.resizeSpent.set n fSpent
    nAvailableCreditCached :=
      if wtx.resizeSpent.getD n false = fSpent then wtx.nAvailableCreditCached else none }

/-- `MarkSpent`. -/
def markSpent (n : Nat) : CWalletTx := wtx.setSpent n true

/-- `MarkUnspent`. -/
def markUnspent (n : Nat) : CWalletTx := wtx.setSpent n false

/-- The loop of `UpdateSpent`, which ends with the shorter of the two lists. -/
def updateFlags : List Bool → List Bool → List Bool
  | f :: vfSpent, fNew :: vfNewSpent => (f || fNew) :: updateFlags vfSpent vfNewSpent
  | vfSpent, _ => vfSpent

/-- `UpdateSpent`, with its result. -/
def updateSpent (vfNewSpent : List Bool) : Bool × CWalletTx :=
  let vfSpent := updateFlags wtx.vfSpent vfNewSpent
  let fReturn := vfSpent != wtx.vfSpent
  (fReturn, { wtx with
    vfSpent := vfSpent
    nAvailableCreditCached := if fReturn then none else wtx.nAvailableCreditCached })

/-- `MarkDirty`. -/
def markDirty : CWalletTx :=
  { wtx with
    nDebitCached := none
    nCreditCached := none
    nAvailableCreditCached := none
    nChangeCached := none }

/-- The merge of `AddToWallet`, and whether something changes. -/
def merge (wtxIn : CWalletTx) : Bool × CWalletTx :=
  let fBlock := wtxIn.hashBlock != 0 && wtxIn.hashBlock != wtx.hashBlock
  let wtx := if fBlock then { wtx with hashBlock := wtxIn.hashBlock } else wtx
  let fBranch := wtxIn.nIndex != -1 &&
    (wtxIn.vMerkleBranch != wtx.vMerkleBranch || wtxIn.nIndex != wtx.nIndex)
  let wtx := if fBranch then { wtx with vMerkleBranch := wtxIn.vMerkleBranch, nIndex := wtxIn.nIndex }
    else wtx
  let fFromMe := wtxIn.fFromMe && wtxIn.fFromMe != wtx.fFromMe
  let wtx := if fFromMe then { wtx with fFromMe := wtxIn.fFromMe } else wtx
  let (fSpent, wtx) := wtx.updateSpent wtxIn.vfSpent
  (fBlock || fBranch || fFromMe || fSpent, wtx)

end CWalletTx

/-- What a wallet keeps in memory. -/
structure CWallet where
  keys : OwnKeys
  mapWallet : AList fun _ : Uint256 => CWalletTx
  mapAddressBook : AList fun _ : CTxDestination => String
  vchDefaultKey : Valtype
  nOrderPosNext : Int

/-- What a call of the wallet meets. -/
structure WalletEnv where
  /-- The chain and the pool. -/
  node : NodeState
  adjustedTime : Int
  nMinimumInputValue : Int
  /-- Whether the record of the transaction that is added is written. -/
  fWritten : Bool
  /-- The key that `GetKeyFromPool` gives for an output of that transaction, which pays to the default
  key, and whether it is written as the default key. A build with the graphical interface does not
  ask. -/
  getKeyFromPool : Nat → Option (Valtype × Bool)

/-! ## Amounts -/

/-- A sum that throws as soon as it is not in range, or one of the amounts does. -/
def tally (nTotal : Int) : List (Option Int) → Option Int
  | [] => some nTotal
  | nValue :: nValues => nValue.bind fun nValue =>
    if moneyRange (nTotal + nValue) then tally (nTotal + nValue) nValues else none

namespace OwnKeys

variable (keys : OwnKeys)

/-- `CWallet::GetCredit` of an output. -/
def outCredit (txout : CTxOut) : Option Int :=
  if !moneyRange txout.nValue then none
  else some (if keys.isMine txout.scriptPubKey then txout.nValue else 0)

/-- `CWallet::GetCredit` of a transaction. -/
def txCredit (tx : CTransaction) : Option Int := tally 0 (tx.vout.map keys.outCredit)

/-- What `GetAvailableCredit` adds up. -/
def availableCredit (wtx : CWalletTx) : Option Int :=
  tally 0 (((wtx.tx.vout.zipIdx.filter fun (_, i) => !wtx.isSpent i).map fun (txout, _) =>
    keys.outCredit txout))

end OwnKeys

namespace CWallet

variable (w : CWallet)

/-- `IsMine` for an input, with the output it spends. -/
def ownOutput (txin : CTxIn) : Option CTxOut :=
  ((w.mapWallet.lookup txin.prevout.hash).bind fun prev => prev.tx.vout[txin.prevout.n]?).filter
    fun txout => w.keys.isMine txout.scriptPubKey

/-- `GetDebit` of an input. -/
def inDebit (txin : CTxIn) : Int := ((w.ownOutput txin).map CTxOut.nValue).getD 0

/-- `GetDebit` of a transaction. -/
def txDebit (tx : CTransaction) : Option Int := tally 0 (tx.vin.map fun txin => some (w.inDebit txin))

/-- What the address book says of a destination. A `CNoDestination` is less than itself, so that it
is never found. -/
def bookName (dest : CTxDestination) : Option String :=
  if dest = .noDestination then none else w.mapAddressBook.lookup dest

/-- `IsChange`. -/
def isChange (txout : CTxOut) : Bool :=
  match extractDestination w.keys.hash160 txout.scriptPubKey with
  | none => false
  | some address => w.keys.isMineDestination address && (w.bookName address).isNone

/-- `GetChange` of an output. -/
def outChange (txout : CTxOut) : Option Int :=
  if !moneyRange txout.nValue then none else some (if w.isChange txout then txout.nValue else 0)

/-- `GetChange` of a transaction. -/
def txChange (tx : CTransaction) : Option Int := tally 0 (tx.vout.map w.outChange)

/-- `IsMine` for a transaction. -/
def isMineTx (nMinimumInputValue : Int) (tx : CTransaction) : Bool :=
  tx.vout.any fun txout =>
    w.keys.isMine txout.scriptPubKey && decide (nMinimumInputValue ≤ txout.nValue)

end CWallet

namespace CWalletTx

variable (wtx : CWalletTx)

/-- `GetDebit`; none where it throws. -/
def getDebit (w : CWallet) : Option Int × CWalletTx :=
  if wtx.tx.vin.isEmpty then (some 0, wtx)
  else
    let (nDebit, cache) := Memo.get wtx.nDebitCached (w.txDebit wtx.tx)
    (nDebit, { wtx with nDebitCached := cache })

/-- `GetCredit`. -/
def getCredit (C : Crypto) (s : NodeState) (keys : OwnKeys) : Option Int × CWalletTx :=
  let (nBlocks, wtx) := wtx.getBlocksToMaturity C s
  if 0 < nBlocks then (some 0, wtx)
  else
    let (nCredit, cache) := Memo.get wtx.nCreditCached (keys.txCredit wtx.tx)
    (nCredit, { wtx with nCreditCached := cache })

/-- `GetAvailableCredit`. -/
def getAvailableCredit (C : Crypto) (s : NodeState) (keys : OwnKeys) : Option Int × CWalletTx :=
  let (nBlocks, wtx) := wtx.getBlocksToMaturity C s
  if 0 < nBlocks then (some 0, wtx)
  else
    let (nCredit, cache) := Memo.get wtx.nAvailableCreditCached (keys.availableCredit wtx)
    (nCredit, { wtx with nAvailableCreditCached := cache })

/-- `GetChange`. -/
def getChange (w : CWallet) : Option Int × CWalletTx :=
  let (nChange, cache) := Memo.get wtx.nChangeCached (w.txChange wtx.tx)
  (nChange, { wtx with nChangeCached := cache })

/-! ### What reading changes -/

theorem getDepthInMainChainINTERNAL_snd (C : Crypto) (s : NodeState) :
    ∃ f, (wtx.getDepthInMainChainINTERNAL C s).2 = { wtx with fMerkleVerified := f } := by
  rw [getDepthInMainChainINTERNAL]
  split
  · exact ⟨_, rfl⟩
  · split
    · exact ⟨_, rfl⟩
    · split
      · exact ⟨_, rfl⟩
      · split
        · exact ⟨_, rfl⟩
        · exact ⟨true, rfl⟩

theorem getBlocksToMaturity_snd (C : Crypto) (s : NodeState) :
    ∃ f, (wtx.getBlocksToMaturity C s).2 = { wtx with fMerkleVerified := f } := by
  rw [getBlocksToMaturity]
  split
  · exact ⟨_, rfl⟩
  · rw [getDepthInMainChain]
    dsimp only
    split <;> exact wtx.getDepthInMainChainINTERNAL_snd C s

/-- Asking for the credit changes the cache of it and the flag of the Merkle branch. -/
theorem getCredit_snd (C : Crypto) (s : NodeState) (keys : OwnKeys) :
    ∃ f c, (wtx.getCredit C s keys).2 = { wtx with fMerkleVerified := f, nCreditCached := c } := by
  obtain ⟨f, hf⟩ := wtx.getBlocksToMaturity_snd C s
  rw [getCredit]
  dsimp only
  rw [hf]
  split <;> exact ⟨_, _, rfl⟩

variable {wtx}

/-- A second look at the Merkle branch finds what the first one did. -/
theorem getDepthInMainChainINTERNAL_again {C : Crypto} {s : NodeState} {wtx' : CWalletTx}
    (htx : wtx'.tx = wtx.tx) (hhash : wtx'.hashBlock = wtx.hashBlock)
    (hbranch : wtx'.vMerkleBranch = wtx.vMerkleBranch) (hindex : wtx'.nIndex = wtx.nIndex)
    (hverified : wtx'.fMerkleVerified = (wtx.getDepthInMainChainINTERNAL C s).2.fMerkleVerified) :
    (wtx'.getDepthInMainChainINTERNAL C s).1 = (wtx.getDepthInMainChainINTERNAL C s).1 := by
  rw [getDepthInMainChainINTERNAL] at hverified
  rw [getDepthInMainChainINTERNAL, getDepthInMainChainINTERNAL, htx, hhash, hbranch, hindex]
  split at hverified
  · next hnone => rw [if_pos hnone, if_pos hnone]
  · next hsome =>
    rw [if_neg hsome, if_neg hsome]
    cases hblock : s.mapBlockIndex wtx.hashBlock with
    | none => rfl
    | some pindex =>
      rw [hblock] at hverified
      dsimp only at hverified ⊢
      split at hverified
      · next hmain => rw [if_pos hmain, if_pos hmain]
      · next hmain =>
        rw [if_neg hmain, if_neg hmain]
        split at hverified
        · next hbad =>
          dsimp only at hverified
          rw [hverified, if_pos hbad, if_pos hbad]
        · next hgood => rw [hverified, if_neg hgood, if_neg (by simp)]

theorem getBlocksToMaturity_again {C : Crypto} {s : NodeState} {wtx' : CWalletTx}
    (htx : wtx'.tx = wtx.tx) (hhash : wtx'.hashBlock = wtx.hashBlock)
    (hbranch : wtx'.vMerkleBranch = wtx.vMerkleBranch) (hindex : wtx'.nIndex = wtx.nIndex)
    (hverified : wtx'.fMerkleVerified = (wtx.getBlocksToMaturity C s).2.fMerkleVerified) :
    (wtx'.getBlocksToMaturity C s).1 = (wtx.getBlocksToMaturity C s).1 := by
  rw [getBlocksToMaturity] at hverified
  rw [getBlocksToMaturity, getBlocksToMaturity, htx]
  split at hverified
  · next hplain => rw [if_pos hplain, if_pos hplain]
  · next hstake =>
    rw [if_neg hstake, if_neg hstake]
    have hdepth : (wtx'.getDepthInMainChain C s).1 = (wtx.getDepthInMainChain C s).1 := by
      obtain ⟨f, hf⟩ := wtx.getDepthInMainChainINTERNAL_snd C s
      obtain ⟨f', hf'⟩ := wtx'.getDepthInMainChainINTERNAL_snd C s
      have hagain := getDepthInMainChainINTERNAL_again htx hhash hbranch hindex (s := s) (C := C) ?_
      · simp only [getDepthInMainChain, hf, hf', hagain, htx]
        split <;> rfl
      · rw [hverified, getDepthInMainChain]
        dsimp only
        split <;> rfl
    dsimp only
    rw [hdepth]

/-- What is asked for the second time does not throw where the first time it did not. -/
theorem getCredit_again {C : Crypto} {s : NodeState} {keys : OwnKeys}
    (hcredit : (wtx.getCredit C s keys).1 ≠ none) {wtx' : CWalletTx} (htx : wtx'.tx = wtx.tx)
    (hhash : wtx'.hashBlock = wtx.hashBlock) (hbranch : wtx'.vMerkleBranch = wtx.vMerkleBranch)
    (hindex : wtx'.nIndex = wtx.nIndex)
    (hverified : wtx'.fMerkleVerified = (wtx.getCredit C s keys).2.fMerkleVerified)
    (hcached : wtx'.nCreditCached = (wtx.getCredit C s keys).2.nCreditCached) :
    (wtx'.getCredit C s keys).1 ≠ none := by
  obtain ⟨f, hf⟩ := wtx.getBlocksToMaturity_snd C s
  obtain ⟨f', hf'⟩ := wtx'.getBlocksToMaturity_snd C s
  have hsame : (wtx.getCredit C s keys).2.fMerkleVerified =
      (wtx.getBlocksToMaturity C s).2.fMerkleVerified := by
    rw [getCredit]
    dsimp only
    split <;> rfl
  have hblocks := getBlocksToMaturity_again htx hhash hbranch hindex (hverified.trans hsame)
  rw [getCredit] at hcredit hcached
  rw [getCredit]
  dsimp only at hcredit hcached ⊢
  rw [hblocks]
  split at hcredit
  · next hyoung => rw [if_pos hyoung]; nofun
  · next hold =>
    rw [if_neg hold] at hcached ⊢
    rw [hf] at hcredit hcached
    rw [hf']
    dsimp only at hcredit hcached ⊢
    rw [hcached]
    cases hget : wtx.nCreditCached with
    | some v => exact Option.some_ne_none v
    | none =>
      rw [hget] at hcredit
      obtain ⟨v, hv⟩ := Option.ne_none_iff_exists'.1 hcredit
      change keys.txCredit wtx.tx = some v at hv
      simp only [Memo.get, hv]
      nofun

end CWalletTx

/-! ## Adding transactions -/

namespace CWallet

variable (C : Crypto) (env : WalletEnv) (w : CWallet)

/-- A transaction of `mapWallet` changes, or is inserted. -/
def setTx (hash : Uint256) (wtx : CWalletTx) : CWallet :=
  { w with mapWallet := w.mapWallet.insert hash wtx }

/-- The first loop of `WalletUpdateSpent`, and whether it does not throw: the credit is asked for to
be printed. -/
def markInputs : List CTxIn → CWallet → Bool × CWallet
  | [], w => (true, w)
  | txin :: vin, w =>
    match w.mapWallet.lookup txin.prevout.hash with
    | none => markInputs vin w
    | some wtx =>
      match wtx.tx.vout[txin.prevout.n]? with
      | none => markInputs vin w
      | some txout =>
        if !wtx.isSpent txin.prevout.n && w.keys.isMine txout.scriptPubKey then
          let (nCredit, wtx) := wtx.getCredit C env.node w.keys
          if nCredit.isNone then (false, w.setTx txin.prevout.hash wtx)
          else markInputs vin (w.setTx txin.prevout.hash (wtx.markSpent txin.prevout.n))
        else markInputs vin w

/-- The second loop of `WalletUpdateSpent`: the own outputs are marked as not spent. -/
def markOutputs (keys : OwnKeys) (vout : List CTxOut) (wtx : CWalletTx) : CWalletTx :=
  vout.zipIdx.foldl (fun wtx (txout, i) =>
    if keys.isMine txout.scriptPubKey then wtx.markUnspent i else wtx) wtx

/-- `WalletUpdateSpent`, and whether it does not throw. With `fBlock`, the transaction is in the
wallet. -/
def walletUpdateSpent (tx : CTransaction) (fBlock : Bool) : Bool × CWallet :=
  match markInputs C env tx.vin w with
  | (false, w) => (false, w)
  | (true, w) =>
    match fBlock, w.mapWallet.lookup (C.hashTx tx) with
    | true, some wtx => (true, w.setTx (C.hashTx tx) (markOutputs w.keys tx.vout wtx))
    | _, _ => (true, w)

/-- The default key is replaced by a new one, for each output that pays to it. -/
def replaceDefaultKey (tx : CTransaction) : CWallet :=
  let scriptDefaultKey := setDestination (.keyID (w.keys.hash160 w.vchDefaultKey))
  tx.vout.zipIdx.foldl (fun w (txout, i) =>
    if txout.scriptPubKey = scriptDefaultKey then
      match env.getKeyFromPool i with
      | none => w
      | some (vchPubKey, fWritten) =>
        let vchDefaultKey := if fWritten then vchPubKey else w.vchDefaultKey
        { w with
          vchDefaultKey := vchDefaultKey
          mapAddressBook := w.mapAddressBook.insert (.keyID (w.keys.hash160 vchDefaultKey)) "" }
    else w) w

/-- The first part of `AddToWallet`: the transaction is inserted, or merged into the one there is.
What it is then, and whether it is to be written. -/
def insertOrMerge (wtxIn : CWalletTx) : Bool × CWalletTx × CWallet :=
  let hash := C.hashTx wtxIn.tx
  match w.mapWallet.lookup hash with
  | none =>
    let wtx := { wtxIn.markDirty with nTimeReceived := env.adjustedTime, nOrderPos := w.nOrderPosNext }
    (true, wtx, { w.setTx hash wtx with nOrderPosNext := w.nOrderPosNext + 1 })
  | some wtx =>
    let (fUpdated, wtx) := wtx.markDirty.merge wtxIn
    (fUpdated, wtx, w.setTx hash wtx)

/-- `AddToWallet`; none where it throws. -/
def addToWallet (wtxIn : CWalletTx) : Option Bool × CWallet :=
  let (fWrite, wtx, w) := w.insertOrMerge C env wtxIn
  if fWrite && !env.fWritten then (some false, w)
  else
    let (ok, w) := (w.replaceDefaultKey env wtx.tx).walletUpdateSpent C env wtx.tx (wtxIn.hashBlock != 0)
    (if ok then some true else none, w)

/-- Whether a transaction involves the wallet: it is there already, pays to it or spends from it; none
where the sum of what it spends throws. -/
def involvesMe (tx : CTransaction) : Option Bool :=
  if C.hashTx tx ∈ w.mapWallet || w.isMineTx env.nMinimumInputValue tx then some true
  else (w.txDebit tx).map fun nDebit => decide (0 < nDebit)

/-- `AddToWalletIfInvolvingMe`; none where it throws. -/
def addToWalletIfInvolvingMe (tx : CTransaction) (pblock : Option CBlock) (fUpdate : Bool) :
    Option Bool × CWallet :=
  if C.hashTx tx ∈ w.mapWallet ∧ fUpdate = false then (some false, w)
  else match w.involvesMe C env tx with
    | none => (none, w)
    | some true => w.addToWallet C env (CWalletTx.ofBlockTx C tx pblock)
    | some false =>
      let (ok, w) := w.walletUpdateSpent C env tx false
      (if ok then some false else none, w)

end CWallet

end MotaCoin
