import MotaCoin.CoinAge
import MotaCoin.Inputs
import MotaCoin.KeyPool
import MotaCoin.Serialize
import MotaCoin.WalletCoins

/-!
# Making a transaction

`CreateTransaction`: it pays recipients with coins of the wallet and sends the change back, in rounds
with a growing fee until the fee is enough for the transaction of the round. The keys of the wallet are
those that its key pool knows. Signatures, the order of a set of coins and what is drawn at random are
parameters, and can differ from round to round.

## Main definitions

* `CreateEnv`, `CreateDraws`: what is found, and what is not determined in a round
* `selectCoins`: `SelectCoins`
* `paymentOutputs`, `changeScript`: the outputs to the recipients, and where the change goes
* `createRound`, `createRounds`, `createTransaction`
-/

namespace MotaCoin

/-- What `CreateTransaction` finds. -/
structure CreateEnv where
  node : NodeState
  nMinimumInputValue : Int
  /-- `IsFromMe`. -/
  isFromMe : CTransaction → Bool
  fSplitBlock : Bool
  fMinimizeCoinAge : Bool
  nTransactionFee : Int
  keyPool : KeyPoolEnv

/-- What is not determined in a round. -/
structure CreateDraws where
  adjustedTime : Int
  /-- What is drawn in the calls of `SelectCoinsMinConf`. -/
  coins : Nat → CoinDraws
  /-- What is not determined in the calls of `SelectCoinsMinConfByCoinAge`. -/
  ages : Nat → AgeDraws
  /-- The order of a set of coins, which is the one of their addresses. -/
  order : Finset WalletCoin → List WalletCoin
  nodup_order : ∀ s, (order s).Nodup
  mem_order : ∀ s c, c ∈ order s ↔ c ∈ s
  getRandInt : Nat → Nat
  getRandInt_lt : ∀ nMax, nMax ≠ 0 → getRandInt nMax < nMax
  /-- `SignSignature`: the script for an input, unless it fails. -/
  signSignature : CTransaction → CTransaction → Nat → Option CScript

/-- The wallet with the keys that its key pool knows. -/
def CWallet.withKeys (w : CWallet) (keys : List Valtype) : CWallet :=
  { w with
    keys := { w.keys with haveKey := fun id => keys.any fun vchPubKey => w.keys.hash160 vchPubKey == id } }

/-! ## The coins -/

/-- `f`, in its `k`-th call. -/
def selectMinConf (env : CreateEnv) (draws : CreateDraws) (k : Nat) (nConfMine nConfTheirs : Int)
    (nTargetValue : Int) (nSpendTime : Nat) (vCoins : List COutput) : Option CoinSelection :=
  let limits : CoinLimits := ⟨nSpendTime, nConfMine, nConfTheirs, env.isFromMe⟩
  if env.fMinimizeCoinAge then selectCoinsMinConfByCoinAge limits (draws.ages k) nTargetValue vCoins
  else some (selectCoinsMinConf limits (draws.coins k) nTargetValue vCoins)

/-- The coins that `AvailableCoins` finds in a round. -/
def CreateEnv.vCoins (C : Crypto) (env : CreateEnv) (draws : CreateDraws) (w : CWallet)
    (coinControl : Option CCoinControl) : List COutput :=
  CoinView.availableCoins C ⟨env.node, draws.adjustedTime, env.nMinimumInputValue⟩ w true coinControl

/-- `SelectCoins`: all coins that the user selected, or those that are deep enough, if need be with
fewer confirmations. -/
def selectCoins (C : Crypto) (env : CreateEnv) (draws : CreateDraws) (w : CWallet) (nTargetValue : Int)
    (nSpendTime : Nat) (coinControl : Option CCoinControl) : Option CoinSelection :=
  let vCoins := env.vCoins C draws w coinControl
  if (coinControl.map CCoinControl.hasSelected).getD false then
    let r := CoinSelection.ofCoins (vCoins.map COutput.coin)
    some { r with fSelected := decide (nTargetValue ≤ r.nValueRet) }
  else do
    let r ← selectMinConf env draws 0 1 10 nTargetValue nSpendTime vCoins
    if r.fSelected then some r
    else
      let r ← selectMinConf env draws 1 1 1 nTargetValue nSpendTime vCoins
      if r.fSelected then some r
      else selectMinConf env draws 2 0 1 nTargetValue nSpendTime vCoins

/-! ## The outputs -/

/-- The outputs to a recipient when a block is split: the remainder is paid by the last one. -/
def splitOutputs (nSplitBlock : Int) (s : CScript × Int) : List CTxOut :=
  (List.range nSplitBlock.toNat).map fun nCount : Nat =>
    if (nCount : Int) = nSplitBlock - 1 then
      ⟨Int64.wrap (s.2.tdiv nSplitBlock + s.2.tmod nSplitBlock), s.1⟩
    else ⟨s.2.tdiv nSplitBlock, s.1⟩

/-- The outputs to a recipient. -/
def recipientOutputs (fSplitBlock : Bool) (nSplitBlock : Int) (s : CScript × Int) : List CTxOut :=
  if !fSplitBlock then [⟨s.2, s.1⟩]
  else splitOutputs (if nSplitBlock < 1 then 1 else nSplitBlock) s

/-- The outputs to the payees. -/
def paymentOutputs (fSplitBlock : Bool) (nSplitBlock : Int) (vecSend : List (CScript × Int)) :
    List CTxOut :=
  vecSend.flatMap (recipientOutputs fSplitBlock nSplitBlock)

/-- `utxoAddress`: the last destination that a coin pays to. -/
def utxoAddress (hash160 : Valtype → Uint160) (coins : List WalletCoin) : CTxDestination :=
  coins.foldl (fun address coin => (((coin.1.vout[coin.2]?).bind fun txout =>
    extractDestination hash160 txout.scriptPubKey)).getD address) .noDestination

/-- `reservekey.GetReservedKey()` of a holder: the key, unless it throws. -/
def reservedKey (env : KeyPoolEnv) (h : Nat) (pool : KeyPoolRun) : Option Valtype × KeyPoolRun :=
  let pool := pool.getReservedKey env h
  (match pool.log.getLast? with
    | some (.handedOut vchPubKey) => some vchPubKey
    | _ => none, pool)

/-- `scriptChange`, with the key pool after it; `none` where it throws. -/
def changeScript (env : KeyPoolEnv) (h : Nat) (hash160 : Valtype → Uint160)
    (coinControl : Option CCoinControl) (address : CTxDestination) (pool : KeyPoolRun) :
    Option (CScript × KeyPoolRun) :=
  let reserved := match reservedKey env h pool with
    | (some vchPubKey, pool) => some (setDestination (.keyID (hash160 vchPubKey)), pool)
    | (none, _) => none
  match coinControl with
  | some coinControl =>
    if coinControl.fReturnChange then some (setDestination address, pool)
    else if coinControl.destChange ≠ .noDestination then
      some (setDestination coinControl.destChange, pool)
    else reserved
  | none => reserved

/-- The loop that signs the inputs, from the input `nIn` on. -/
def signInputs (signSignature : CTransaction → CTransaction → Nat → Option CScript) :
    List WalletCoin → Nat → CTransaction → Option CTransaction
  | [], _, wtxNew => some wtxNew
  | coin :: coins, nIn, wtxNew =>
    match signSignature coin.1 wtxNew nIn with
    | none => none
    | some scriptSig =>
      signInputs signSignature coins (nIn + 1) { wtxNew with
        vin := wtxNew.vin.modify nIn fun txin => { txin with scriptSig := scriptSig } }

/-! ## The rounds -/

/-- `nMoveToFee`: what is moved from the change to the fee. -/
def moveToFee (nFeeRet nChange : Int) : Int :=
  if nFeeRet < MIN_TX_FEE ∧ 0 < nChange ∧ nChange < CENT then min nChange (MIN_TX_FEE - nFeeRet) else 0

/-- A transaction that was made, with its fee, the coins it spends and its change. -/
structure CreatedTx where
  wtxNew : CTransaction
  nFeeRet : Int
  /-- The coins in the order of the inputs. -/
  coins : List WalletCoin
  /-- The place of the change, and the output there. -/
  change : Option (Nat × CTxOut)
  pool : KeyPoolRun

/-- What a round comes to. -/
inductive CreateResult where
  /-- The result is true. -/
  | created (r : CreatedTx)
  /-- The result is false. -/
  | failed
  /-- An exception is thrown, or a vector is read out of range. -/
  | threw
  /-- The fee is raised for another round. -/
  | again (nFeeRet : Int) (pool : KeyPoolRun)

section Rounds

variable (C : Crypto) (env : CreateEnv) (h : Nat) (w : CWallet) (vecSend : List (CScript × Int))
  (nSplitBlock : Int) (coinControl : Option CCoinControl)

/-- The end of a round: the transaction is signed, and its fee is compared with what it asks for. -/
def finishRound (draws : CreateDraws) (wtxNew : CTransaction) (coins : List WalletCoin)
    (nFeeRet : Int) (change : Option (Nat × CTxOut)) (pool : KeyPoolRun) : CreateResult :=
  match signInputs draws.signSignature coins 0 wtxNew with
  | none => .failed
  | some wtxNew =>
    let nBytes := wtxNew.getSerializeSize32
    if MAX_BLOCK_SIZE_GEN / 5 ≤ nBytes then .failed
    else
      let nPayFee := Int64.wrap (env.nTransactionFee * (1 + (nBytes : Int) / 1000))
      let nMinFee := wtxNew.getMinFee 1 .send nBytes
      if nFeeRet < max nPayFee nMinFee then .again (max nPayFee nMinFee) pool
      else .created ⟨wtxNew, nFeeRet, coins, change, pool⟩

/-- A round with a fee: coins are selected for it, and what is left is change, but for what is moved to
the fee. -/
def createRound (draws : CreateDraws) (wtxNew : CTransaction) (nValue nFeeRet : Int)
    (pool : KeyPoolRun) : CreateResult :=
  let w := w.withKeys pool.wallet.keys
  let vout := paymentOutputs env.fSplitBlock nSplitBlock vecSend
  match selectCoins C env draws w (Int64.wrap (nValue + nFeeRet)) wtxNew.nTime coinControl with
  | none => .threw
  | some r =>
    if !r.fSelected then .failed
    else
      let coins := draws.order r.setCoinsRet
      let nChange := Int64.wrap (r.nValueRet - nValue - nFeeRet)
      let nMoveToFee := moveToFee nFeeRet nChange
      let vin : List CTxIn := coins.map fun coin => ⟨⟨C.hashTx coin.1, coin.2⟩, [], 4294967295⟩
      if 0 < nChange - nMoveToFee then
        match changeScript env.keyPool h w.keys.hash160 coinControl (utxoAddress w.keys.hash160 coins)
          pool with
        | none => .threw
        | some (scriptChange, pool) =>
          let position := draws.getRandInt vout.length
          let txout : CTxOut := ⟨nChange - nMoveToFee, scriptChange⟩
          finishRound env draws { wtxNew with vin := vin, vout := vout.insertIdx position txout } coins
            (nFeeRet + nMoveToFee) (some (position, txout)) pool
      else
        finishRound env draws { wtxNew with vin := vin, vout := vout } coins (nFeeRet + nMoveToFee) none
          (pool.returnKey h)

/-- The rounds from one on, with the number that is allowed. -/
def createRounds (draws : Nat → CreateDraws) (wtxNew : CTransaction) (nValue : Int) :
    Nat → Nat → Int → KeyPoolRun → CreateResult
  | 0, _, nFeeRet, pool => .again nFeeRet pool
  | rounds + 1, round, nFeeRet, pool =>
    match createRound C env h w vecSend nSplitBlock coinControl (draws round) wtxNew nValue nFeeRet
      pool with
    | .again nFeeRet pool => createRounds draws wtxNew nValue rounds (round + 1) nFeeRet pool
    | result => result

/-- The sum of the amounts, unless it is negative before another one is added. -/
def addAmounts : Int → List (CScript × Int) → Option Int
  | nValue, [] => some nValue
  | nValue, s :: vecSend => if nValue < 0 then none else addAmounts (Int64.wrap (nValue + s.2)) vecSend

/-- **`CreateTransaction`**, with the number of rounds that is allowed. -/
def createTransaction (draws : Nat → CreateDraws) (wtxNew : CTransaction) (pool : KeyPoolRun)
    (rounds : Nat) : CreateResult :=
  match addAmounts 0 vecSend with
  | none => .failed
  | some nValue =>
    if vecSend.isEmpty || decide (nValue < 0) then .failed
    else createRounds C env h w vecSend nSplitBlock coinControl draws wtxNew nValue rounds 0
      (if env.fSplitBlock then COIN * 1 else env.nTransactionFee) pool

end Rounds

end MotaCoin
