import MotaCoin.SpentFlags
import MotaCoin.WalletCoins

/-!
# MultiSend

`MultiSend` distributes a stake of the wallet once it is deep enough. It is called after every block
that `ProcessBlock` accepts. What `CreateTransaction` and `CommitTransaction` answer is part of what a
call finds.

## Main definitions

* `MultiSendView`, `MultiSendState`: what a call finds, and what it changes
* `MultiSendView.isDue`: the test for a transaction
* `MultiSendView.multiSend`: the call
* `MultiSendRun`: calls while blocks are connected
* `MultiSendRun.FiresOnce`: a stake is distributed at one height

## Main results

* `MultiSendRun.not_firesOnce`: no stake is
-/

namespace MotaCoin

/-- `Checkpoints::GetTotalBlocksEstimate`. -/
def getTotalBlocksEstimate : Int := ((mapCheckpoints.getLast?).map fun c => (c.1 : Int)).getD 0

/-! ## The call -/

/-- What a call finds. -/
structure MultiSendView extends CoinView where
  wallet : CWallet
  vMultiSend : List (String × Int)
  vDisabledAddresses : List String
  fLocked : Bool
  /-- `GetTime`. -/
  nTime : Int
  /-- When `IsInitialBlockDownload` saw the best block change. -/
  nLastUpdate : Int
  /-- `cPeerBlockCounts.median()`. -/
  nPeerBlocks : Int
  /-- `CBitcoinAddress(address).ToString()`. -/
  addressString : CTxDestination → String
  /-- `CBitcoinAddress(str).Get()`. -/
  addressDestination : String → CTxDestination
  /-- Whether `CreateTransaction` makes a transaction. -/
  createTransaction : List (CScript × Int) → CCoinControl → Bool
  /-- Whether `CommitTransaction` commits one. -/
  commitTransaction : Bool

/-- A distribution: the coin, what was to be sent, and what `CreateTransaction` answered before
`CommitTransaction` was called. -/
structure MultiSendAttempt where
  coin : COutPoint
  vecSend : List (CScript × Int)
  fCreated : Bool
  fCommitted : Bool

/-- What a call changes, with the distributions. -/
structure MultiSendState where
  nLastMultiSendHeight : Int
  attempts : List MultiSendAttempt

namespace MultiSendView

variable (C : Crypto) (v : MultiSendView)

/-- `IsInitialBlockDownload`. -/
def isInitialBlockDownload : Bool :=
  match v.node.best with
  | none => true
  | some pindexBest => decide (v.node.nBestHeight < getTotalBlocksEstimate) ||
      decide (v.nTime - v.nLastUpdate < 10 ∧ pindexBest.getBlockTime < v.nTime - 24 * 60 * 60)

/-- `GetNumBlocksOfPeers`. -/
def getNumBlocksOfPeers : Int := max v.nPeerBlocks getTotalBlocksEstimate

/-- The first test of `MultiSend`. -/
def isIdle : Bool :=
  v.isInitialBlockDownload || v.fLocked || decide (v.node.nBestHeight < v.getNumBlocksOfPeers)

/-- The test of `MultiSend` for the transaction of a coin. -/
def isDue (wtx : CWalletTx) : Bool :=
  wtx.tx.isCoinStake && decide ((wtx.getBlocksToMaturity C v.node).1 = 0) &&
    decide ((wtx.getDepthInMainChain C v.node).1 = nCoinbaseMaturity + 10)

/-- `vecSend`; none where the amounts of the transaction throw. -/
def vecSend (wtx : CWalletTx) : Option (List (CScript × Int)) :=
  v.vMultiSend.mapM fun (strAddress, nPercent) => do
    let nCredit ← (wtx.getCredit C v.node v.wallet.keys).1
    let nDebit ← (wtx.getDebit v.wallet).1
    some (setDestination (v.addressDestination strAddress),
      (Int64.wrap ((nCredit - nDebit) * nPercent)).tdiv 100)

/-- The distribution of a coin: `CommitTransaction` is called whatever `CreateTransaction` answers. -/
def distribute (wtx : CWalletTx) (out : COutput) : Option MultiSendAttempt :=
  (v.vecSend C wtx).map fun vecSend =>
    let coin : COutPoint := ⟨C.hashTx wtx.tx, out.i⟩
    { coin := coin
      vecSend := vecSend
      fCreated := v.createTransaction vecSend ⟨.noDestination, true, [coin]⟩
      fCommitted := v.commitTransaction }

/-- The loop of `MultiSend`, with its result; none where it throws. -/
def multiSendFrom : List ((Uint256 × CWalletTx) × COutput) → MultiSendState →
    Option (Bool × MultiSendState)
  | [], st => some (true, st)
  | ((_, wtx), out) :: coins, st =>
    match extractDestination v.wallet.keys.hash160 out.txout.scriptPubKey with
    | none => multiSendFrom coins st
    | some address =>
      if v.node.nBestHeight ≤ st.nLastMultiSendHeight then some (false, st)
      else if !v.isDue C wtx then multiSendFrom coins st
      else if v.vDisabledAddresses.contains (v.addressString address) then some (false, st)
      else (v.distribute C wtx out).bind fun attempt =>
        multiSendFrom coins ⟨v.node.nBestHeight, st.attempts ++ [attempt]⟩

/-- **`MultiSend`**, with its result; none where it throws. -/
def multiSend (st : MultiSendState) : Option (Bool × MultiSendState) :=
  if v.isIdle then some (false, st)
  else v.multiSendFrom C (v.availableOutputs C v.wallet true none) st

end MultiSendView

/-! ## Runs -/

/-- What is found after each of the blocks that are connected, and what was found before. -/
structure MultiSendRun where
  views : Nat → MultiSendView
  start : MultiSendState

namespace MultiSendRun

variable (C : Crypto) (r : MultiSendRun)

/-- The state before the `k`-th call; one that throws changes nothing that counts here. -/
def stateAt : Nat → MultiSendState
  | 0 => r.start
  | k + 1 => (((r.views k).multiSend C (stateAt k)).map Prod.snd).getD (stateAt k)

/-- The distributions of the `k`-th call. -/
def attemptsAt (k : Nat) : List MultiSendAttempt :=
  (r.stateAt C (k + 1)).attempts.drop (r.stateAt C k).attempts.length

/-- **Blocks are connected one at a time** on top of the block of a coin stake of the wallet, up to
`nBlocks` of them; the wallet is unlocked and synced, an output of the stake is unspent and its
address not disabled, and no other stake is as deep. -/
structure Connects (hash : Uint256) (n nBlocks : Nat) : Prop where
  deep : (nCoinbaseMaturity : Int) + 20 < nBlocks
  last : r.start.nLastMultiSendHeight < (r.views 0).node.nBestHeight
  height : ∀ k, (r.views k).node.nBestHeight = (r.views 0).node.nBestHeight + k
  synced : ∀ k < nBlocks, (r.views k).isIdle = false
  stake : ∀ k < nBlocks, ∃ wtx txout address, (r.views k).wallet.mapWallet.lookup hash = some wtx ∧
    C.hashTx wtx.tx = hash ∧ wtx.tx.isCoinStake = true ∧
    (wtx.getDepthInMainChain C (r.views k).node).1 = k + 1 ∧
    wtx.tx.vout[n]? = some txout ∧ (r.views k).offers (r.views k).wallet none hash wtx n txout = true ∧
    extractDestination (r.views k).wallet.keys.hash160 txout.scriptPubKey = some address ∧
    (r.views k).addressString address ∉ (r.views k).vDisabledAddresses
  alone : ∀ k < nBlocks, ∀ hash' wtx', (r.views k).wallet.mapWallet.lookup hash' = some wtx' →
    hash' ≠ hash → wtx'.tx.isCoinStake = true →
    (wtx'.getDepthInMainChain C (r.views k).node).1 ≠ k + 1

/-- The test holds for a stake after the `k`-th block, and a distribution of it is attempted. -/
def FiresAt (hash : Uint256) (k : Nat) : Prop :=
  (∃ wtx, (r.views k).wallet.mapWallet.lookup hash = some wtx ∧ (r.views k).isDue C wtx = true) ∧
    ∃ attempt ∈ r.attemptsAt C k, attempt.coin.hash = hash

/-- **The stake is distributed at one height**, and nothing is committed that was not created. -/
def FiresOnce (hash : Uint256) (nBlocks : Nat) : Prop :=
  (∃! k, k < nBlocks ∧ r.FiresAt C hash k) ∧
    ∀ k < nBlocks, ∀ attempt ∈ r.attemptsAt C k, attempt.fCreated = true

variable {C r}

/-- A transaction as deep as the test asks for is ten blocks from maturity. -/
theorem isDue_eq_false (v : MultiSendView) (wtx : CWalletTx) : v.isDue C wtx = false := by
  rw [MultiSendView.isDue, Bool.and_assoc, Bool.and_eq_false_iff]
  cases hstake : wtx.tx.isCoinStake with
  | false => exact Or.inl rfl
  | true =>
    right
    rw [CWalletTx.getBlocksToMaturity, hstake, Bool.or_true, Bool.not_true,
      if_neg Bool.false_ne_true]
    by_contra htrue
    rw [Bool.not_eq_false, Bool.and_eq_true, decide_eq_true_eq, decide_eq_true_eq] at htrue
    obtain ⟨hmature, hdepth⟩ := htrue
    dsimp only at hmature
    rw [hdepth, nCoinbaseMaturity] at hmature
    omega

/-- A call changes nothing. -/
theorem multiSendFrom_eq {v : MultiSendView} {coins : List ((Uint256 × CWalletTx) × COutput)}
    {st : MultiSendState} : ∃ fResult, v.multiSendFrom C coins st = some (fResult, st) := by
  induction coins with
  | nil => exact ⟨true, rfl⟩
  | cons coin coins ih =>
    obtain ⟨⟨hash, wtx⟩, out⟩ := coin
    rw [MultiSendView.multiSendFrom, isDue_eq_false]
    split
    · exact ih
    · split
      · exact ⟨false, rfl⟩
      · rw [Bool.not_false, if_pos rfl]
        exact ih

theorem multiSend_eq {v : MultiSendView} {st : MultiSendState} :
    ∃ fResult, v.multiSend C st = some (fResult, st) := by
  rw [MultiSendView.multiSend]
  split
  · exact ⟨false, rfl⟩
  · exact multiSendFrom_eq

/-- **No run distributes anything.** -/
theorem stateAt_eq (k : Nat) : r.stateAt C k = r.start := by
  induction k with
  | zero => rfl
  | succ k ih =>
    obtain ⟨fResult, hcall⟩ := @multiSend_eq C (r.views k) r.start
    rw [stateAt, ih, hcall]
    rfl

theorem attemptsAt_eq_nil (k : Nat) : r.attemptsAt C k = [] := by
  rw [attemptsAt, stateAt_eq, stateAt_eq, List.drop_length]

theorem not_firesAt (hash : Uint256) (k : Nat) : ¬ r.FiresAt C hash k := by
  rintro ⟨-, attempt, hattempt, -⟩
  rw [attemptsAt_eq_nil] at hattempt
  cases hattempt

/-- **No stake is distributed at one height.** -/
theorem not_firesOnce (C : Crypto) (r : MultiSendRun) (hash : Uint256) (nBlocks : Nat) :
    ¬ r.FiresOnce C hash nBlocks := by
  rintro ⟨⟨k, ⟨-, hfires⟩, -⟩, -⟩
  exact not_firesAt hash k hfires

/-! ### A stake of the wallet -/

/-- A coin stake that pays to the wallet. -/
def ownStakeTx : CTransaction :=
  ⟨1, 1000, [⟨⟨7, 0⟩, [], 4294967295⟩], [⟨0, []⟩, ⟨50000, ownScript⟩], 0⟩

noncomputable def ownStakeCrypto : Crypto := labelCrypto [ownStakeTx] []

/-- The entry of a block at a height, with the next one. -/
def heightEntry (hash : Uint256) (nHeight : Nat) (pnext : Option Uint256) : CBlockIndex where
  hash := hash
  pprev := none
  pnext := pnext
  nFile := 0
  nBlockPos := 0
  nChainTrust := 0
  nHeight := nHeight
  nMint := 0
  nMoneySupply := 0
  nFlags := 0
  nStakeModifier := 0
  nStakeModifierChecksum := 0
  prevoutStake := ⟨0, 0⟩
  nStakeTime := 0
  hashProofOfStake := 0
  nVersion := 7
  hashMerkleRoot := 0
  nTime := 5000
  nBits := 0
  nNonce := 0

/-- The block of the stake with `k` blocks on top of it. -/
noncomputable def ownStakeNode (k : Nat) : NodeState :=
  { storedNode ownStakeCrypto [] with
    mapBlockIndex := fun hash =>
      if hash = 1 then some (heightEntry 1 1000000 (if k = 0 then none else some 2))
      else if hash = 2 then some (heightEntry 2 (1000000 + k) none)
      else none
    pindexBest := if k = 0 then some 1 else some 2
    nBestHeight := 1000000 + k }

/-- The stake in the wallet. -/
def ownStakeWalletTx : CWalletTx :=
  { CWalletTx.ofTx ownStakeTx with hashBlock := 1, nIndex := 1, fMerkleVerified := true }

/-- A wallet with the stake. -/
def ownStakeWallet : CWallet :=
  { newWallet with mapWallet := AList.insert 1 ownStakeWalletTx ∅ }

/-- Everything of a stake is to be sent to one address. -/
noncomputable def ownStakeRun : MultiSendRun where
  views k := {
    node := ownStakeNode k
    adjustedTime := 5000
    nMinimumInputValue := 0
    wallet := ownStakeWallet
    vMultiSend := [("address", 100)]
    vDisabledAddresses := []
    fLocked := false
    nTime := 5000
    nLastUpdate := 5000
    nPeerBlocks := 1000000
    addressString _ := ""
    addressDestination _ := .keyID 9
    createTransaction _ _ := true
    commitTransaction := true }
  start := ⟨0, []⟩

theorem depth_ownStakeNode : ∀ k < 31,
    (ownStakeWalletTx.getDepthInMainChain ownStakeCrypto (ownStakeNode k)).1 = k + 1 := by
  decide +kernel

theorem isIdle_ownStakeRun : ∀ k < 31, (ownStakeRun.views k).isIdle = false := by
  decide +kernel

theorem extractDestination_ownScript :
    extractDestination newWallet.keys.hash160 ownScript = some (.keyID (Wire.ofLE ownPubKey)) := by
  decide +kernel

theorem connects_ownStakeRun : ownStakeRun.Connects ownStakeCrypto 1 1 31 where
  deep := by decide
  last := by decide
  height k := rfl
  synced := isIdle_ownStakeRun
  stake k hk := by
    refine ⟨ownStakeWalletTx, ⟨50000, ownScript⟩, _, AList.lookup_insert _, by decide +kernel,
      by decide, depth_ownStakeNode k hk, rfl, ?_, extractDestination_ownScript, List.not_mem_nil⟩
    -- the offer does not depend on the chain
    change CoinView.offers (ownStakeRun.views 0).toCoinView ownStakeWallet none 1 ownStakeWalletTx 1
      ⟨50000, ownScript⟩ = true
    decide +kernel
  alone k _ hash' wtx' hlookup hne := by
    have hnone : ownStakeWallet.mapWallet.lookup hash' = none := by
      rw [ownStakeWallet, AList.lookup_insert_ne hne]
      rfl
    exact absurd (hlookup.symm.trans hnone) (Option.some_ne_none _)

/-- The stake passes the depth, and is not distributed. -/
theorem not_firesOnce_of_connects :
    ¬ ∀ (C : Crypto) (r : MultiSendRun) (hash : Uint256) (n nBlocks : Nat),
      r.Connects C hash n nBlocks → r.FiresOnce C hash nBlocks := by
  intro hall
  obtain ⟨⟨k, ⟨-, hfires⟩, -⟩, -⟩ := hall ownStakeCrypto ownStakeRun 1 1 31 connects_ownStakeRun
  exact not_firesAt 1 k hfires

end MultiSendRun

end MotaCoin
