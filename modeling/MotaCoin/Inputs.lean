import MotaCoin.TxDB

/-!
# Connecting and disconnecting the inputs of a transaction

`FetchInputs`, `GetValueMapIn`, `ConnectInputs`, `DisconnectInputs`, `GetMapTxInputs` and
`GetCoinAge` of `CTransaction`. What a function reads of the database, the block files and the
memory pool comes as a function argument, so that what it depends on can be read off its type; out
parameters that a caller looks at after a failure are returned on failure too.

## Main definitions

* `TxIndexQueue`: pending changes of the transaction index
* `Sources`: what a transaction check reads
* `fetchInputs`, `getOutputFor`, `getValueMapIn`, `getP2SHSigOpCount`
* `connectInputs`, `disconnectInputs`
* `getMapTxInputs`, `getCoinAge`
-/

namespace MotaCoin

/-- `map<uint256, CTxIndex>`: changes of the transaction index that are not written yet. -/
abbrev TxIndexQueue := AList fun _ : Uint256 => CTxIndex

/-- What a transaction check reads outside the transaction: `ReadTxIndex`, the transactions in the
block files, the block headers there, and the memory pool. -/
structure Sources where
  readTxIndex : TxIndexMap
  readTx : CDiskTxPos → Option CTransaction
  readHeader : Nat → Nat → Option CBlock
  memPool : Uint256 → Option CTransaction

namespace CTransaction

variable (src : Sources)

/-! ## Fetching -/

/-- The index record `FetchInputs` uses for a previous hash: the queued one when it may look
there, else the one of the database. -/
def lookupTxIndex (mapTestPool : TxIndexQueue) (fBlock fMiner : Bool) (hash : Uint256) :
    Option CTxIndex :=
  if (fBlock || fMiner) && (mapTestPool.lookup hash).isSome then mapTestPool.lookup hash
  else src.readTxIndex hash

/-- The entry `FetchInputs` leaves in `inputsRet` for a previous hash, and whether it goes on. The
entry exists also when the fetch fails: `operator[]` made it. -/
def fetchPrev (mapTestPool : TxIndexQueue) (fBlock fMiner : Bool) (hash : Uint256) :
    Bool × CTxIndex × CTransaction :=
  match lookupTxIndex src mapTestPool fBlock fMiner hash with
  | none =>
    if fBlock || fMiner then (false, CTxIndex.null, empty)
    else match src.memPool hash with
      | none => (false, CTxIndex.null, empty)
      | some txPrev => (true, CTxIndex.fresh CDiskTxPos.null txPrev.vout.length, txPrev)
  | some txindex =>
    if txindex.pos = CDiskTxPos.memPool then
      match src.memPool hash with
      | none => (false, txindex, empty)
      | some txPrev => (true, txindex, txPrev)
    else
      match src.readTx txindex.pos with
      | none => (false, txindex, empty)
      | some txPrev => (true, txindex, txPrev)

/-- The fetching loop of `FetchInputs`. -/
def fetchLoop (mapTestPool : TxIndexQueue) (fBlock fMiner : Bool) :
    List CTxIn → MapPrevTx → Bool × MapPrevTx
  | [], inputsRet => (true, inputsRet)
  | txin :: vin, inputsRet =>
    if (inputsRet txin.prevout.hash).isSome then fetchLoop mapTestPool fBlock fMiner vin inputsRet
    else
      let fetched := fetchPrev src mapTestPool fBlock fMiner txin.prevout.hash
      let inputsRet' := Function.update inputsRet txin.prevout.hash (some fetched.2)
      if fetched.1 then fetchLoop mapTestPool fBlock fMiner vin inputsRet' else (false, inputsRet')

/-- The range test of `FetchInputs` and of `ConnectInputs` for one input. -/
def inRange (inputs : MapPrevTx) (txin : CTxIn) : Bool :=
  match inputs txin.prevout.hash with
  | none => false
  | some (txindex, txPrev) =>
    decide (txin.prevout.n < txPrev.vout.length ∧ txin.prevout.n < txindex.vSpent.length)

/-- What `FetchInputs` returns: its result, `inputsRet` and `fInvalid`. -/
structure Fetched where
  ok : Bool
  inputsRet : MapPrevTx
  fInvalid : Bool

/-- `FetchInputs`, from an empty `inputsRet`. -/
def fetchInputs (tx : CTransaction) (mapTestPool : TxIndexQueue) (fBlock fMiner : Bool) : Fetched :=
  if tx.isCoinBase then ⟨true, fun _ => none, false⟩
  else
    let r := fetchLoop src mapTestPool fBlock fMiner tx.vin fun _ => none
    if !r.1 then ⟨false, r.2, false⟩
    else if tx.vin.all (inRange r.2) then ⟨true, r.2, false⟩ else ⟨false, r.2, true⟩

/-- `GetMapTxInputs`: fetch against an empty queue; only an out-of-range input is reported, any
other failure leaves a partial map. -/
def getMapTxInputs (tx : CTransaction) (fBlock fMiner : Bool) : Bool × MapPrevTx :=
  let r := tx.fetchInputs src ∅ fBlock fMiner
  if !r.ok && r.fInvalid then (false, r.inputsRet) else (true, r.inputsRet)

/-- `GetOutputFor`; `none` is the exception. -/
def getOutputFor (input : CTxIn) (inputs : MapPrevTx) : Option CTxOut :=
  match inputs input.prevout.hash with
  | none => none
  | some (_, txPrev) => txPrev.vout[input.prevout.n]?

/-- The loop of `GetValueMapIn`, from the running total `nResult`. -/
def getValueMapInFrom (inputs : MapPrevTx) (nResult : Int) : List CTxIn → Option Int
  | [] => some nResult
  | txin :: vin =>
    match getOutputFor txin inputs with
    | none => none
    | some txout => getValueMapInFrom inputs (Int64.wrap (nResult + txout.nValue)) vin

/-- `GetValueMapIn`; `none` is the exception. -/
def getValueMapIn (tx : CTransaction) (inputs : MapPrevTx) : Option Int :=
  if tx.isCoinBase then some 0 else getValueMapInFrom inputs 0 tx.vin

/-- The loop of `GetP2SHSigOpCount`, from the running total `nSigOps`. -/
def getP2SHSigOpCountFrom (C : Crypto) (inputs : MapPrevTx) (nSigOps : Nat) :
    List CTxIn → Option Nat
  | [] => some nSigOps
  | txin :: vin =>
    match getOutputFor txin inputs with
    | none => none
    | some prevout =>
      getP2SHSigOpCountFrom C inputs
        (nSigOps + C.getP2SHSigOpCount prevout.scriptPubKey txin.scriptSig) vin

/-- `GetP2SHSigOpCount`; `none` is the exception of `GetOutputFor`. -/
def getP2SHSigOpCount (C : Crypto) (tx : CTransaction) (inputs : MapPrevTx) : Option Nat :=
  if tx.isCoinBase then some 0 else getP2SHSigOpCountFrom C inputs 0 tx.vin

/-! ## Connecting -/

/-- `GetMinFee_mode`. -/
inductive GetMinFeeMode where
  | block
  | relay
  | send
deriving DecidableEq

/-- `GetMinFee`. -/
def getMinFee (tx : CTransaction) (nBlockSize : Nat) (mode : GetMinFeeMode) (nBytes : Nat) : Int :=
  let nBaseFee := if mode = .relay then MIN_RELAY_TX_FEE else MIN_TX_FEE
  let nNewBlockSize := nBlockSize + nBytes
  let nMinFee := (1 + (nBytes : Int) / 1000) * nBaseFee
  let nMinFee := if nMinFee < nBaseFee ∧ tx.vout.any (fun txout => decide (txout.nValue < CENT))
    then nBaseFee else nMinFee
  if nBlockSize ≠ 1 ∧ MAX_BLOCK_SIZE_GEN / 2 ≤ nNewBlockSize then
    if MAX_BLOCK_SIZE_GEN ≤ nNewBlockSize then MAX_MONEY
    else
      let nMinFee := nMinFee * (MAX_BLOCK_SIZE_GEN / (MAX_BLOCK_SIZE_GEN - nNewBlockSize) : Nat)
      if !moneyRange nMinFee then MAX_MONEY else nMinFee
  else if !moneyRange nMinFee then MAX_MONEY else nMinFee

/-- What `ConnectInputs` reads of the block it connects and of the node: whether a block position
lies in the last `nCoinbaseMaturity` blocks up to `pindexBlock`, and whether signatures are
checked. -/
structure ConnectCtx where
  immature : (nFile nBlockPos : Nat) → Bool
  checkSignatures : Bool

/-- The first loop of `ConnectInputs`: the inexpensive checks, summing the input values. -/
def checkInputs (ctx : ConnectCtx) (tx : CTransaction) (inputs : MapPrevTx) (nValueIn : Int) :
    List CTxIn → Option Int
  | [] => some nValueIn
  | txin :: vin =>
    match inputs txin.prevout.hash with
    | none => none
    | some (txindex, txPrev) =>
      match txPrev.vout[txin.prevout.n]? with
      | none => none
      | some txout =>
        if txindex.vSpent.length ≤ txin.prevout.n then none
        else if (txPrev.isCoinBase || txPrev.isCoinStake)
            && ctx.immature txindex.pos.nFile txindex.pos.nBlockPos then none
        else if tx.nTime < txPrev.nTime then none
        else
          let nValueIn' := Int64.wrap (nValueIn + txout.nValue)
          if !moneyRange txout.nValue || !moneyRange nValueIn' then none
          else checkInputs ctx tx inputs nValueIn' vin

/-- The second loop of `ConnectInputs`: refuse spent outputs and bad signatures, mark the outputs
spent in the copied `inputs` and queue the changed records. `i` is the index of the next input. -/
def spendInputs (C : Crypto) (ctx : ConnectCtx) (tx : CTransaction) (posThisTx : CDiskTxPos)
    (fBlock fMiner : Bool) :
    Nat → List CTxIn → MapPrevTx → TxIndexQueue → Option TxIndexQueue
  | _, [], _, mapTestPool => some mapTestPool
  | i, txin :: vin, inputs, mapTestPool =>
    match inputs txin.prevout.hash with
    | none => none
    | some (txindex, txPrev) =>
      match txindex.vSpent[txin.prevout.n]? with
      | none => none
      | some pos =>
        if !pos.isNull then none
        else if ctx.checkSignatures && !C.verifySignature txPrev tx i then none
        else
          let txindex' := { txindex with vSpent := txindex.vSpent.set txin.prevout.n posThisTx }
          spendInputs C ctx tx posThisTx fBlock fMiner (i + 1) vin
            (Function.update inputs txin.prevout.hash (some (txindex', txPrev)))
            (if fBlock || fMiner then mapTestPool.insert txin.prevout.hash txindex'
              else mapTestPool)

/-- The fee rules at the end of `ConnectInputs`, for a transaction that is no coinstake. -/
def checkFees (tx : CTransaction) (nValueIn : Int) : Bool :=
  match tx.getValueOut with
  | none => false
  | some nValueOut =>
    let nTxFee := Int64.wrap (nValueIn - nValueOut)
    decide (nValueOut ≤ nValueIn) && decide (0 ≤ nTxFee)
      && decide (tx.getMinFee 1 .block 0 ≤ nTxFee) && moneyRange nTxFee

/-- `ConnectInputs`; the queue is only read by the caller on success. -/
def connectInputs (C : Crypto) (ctx : ConnectCtx) (tx : CTransaction) (inputs : MapPrevTx)
    (mapTestPool : TxIndexQueue) (posThisTx : CDiskTxPos) (fBlock fMiner : Bool) :
    Option TxIndexQueue :=
  if tx.isCoinBase then some mapTestPool
  else
    match checkInputs ctx tx inputs 0 tx.vin with
    | none => none
    | some nValueIn =>
      match spendInputs C ctx tx posThisTx fBlock fMiner 0 tx.vin inputs mapTestPool with
      | none => none
      | some mapTestPool' =>
        if !tx.isCoinStake && !tx.checkFees nValueIn then none else some mapTestPool'

/-! ## Disconnecting -/

/-- The loop of `DisconnectInputs`: mark each spent output as not spent. -/
def unspendInputs : List CTxIn → CTxDB → Bool × CTxDB
  | [], txdb => (true, txdb)
  | txin :: vin, txdb =>
    match txdb.readTxIndex txin.prevout.hash with
    | none => (false, txdb)
    | some txindex =>
      if txindex.vSpent.length ≤ txin.prevout.n then (false, txdb)
      else
        unspendInputs vin (txdb.updateTxIndex txin.prevout.hash
          { txindex with vSpent := txindex.vSpent.set txin.prevout.n CDiskTxPos.null })

/-- `DisconnectInputs`. -/
def disconnectInputs (C : Crypto) (tx : CTransaction) (txdb : CTxDB) : Bool × CTxDB :=
  if tx.isCoinBase then (true, txdb.eraseTxIndex (C.hashTx tx))
  else
    let r := unspendInputs tx.vin txdb
    if r.1 then (true, r.2.eraseTxIndex (C.hashTx tx)) else (false, r.2)

/-! ## Coin age -/

/-- `CTransaction::ReadFromDisk(txdb, prevout, txindexRet)`. -/
def readFromDisk (prevout : COutPoint) : Option (CTxIndex × CTransaction × CTxOut) :=
  match src.readTxIndex prevout.hash with
  | none => none
  | some txindex =>
    match src.readTx txindex.pos with
    | none => none
    | some txPrev => (txPrev.vout[prevout.n]?).map fun txout => (txindex, txPrev, txout)

/-- The loop of `GetCoinAge`, from the running total `bnCentSecond`. -/
def getCoinAgeFrom (tx : CTransaction) (bnCentSecond : Int) : List CTxIn → Option Int
  | [] => some bnCentSecond
  | txin :: vin =>
    match readFromDisk src txin.prevout with
    | none => getCoinAgeFrom tx bnCentSecond vin
    | some (txindex, txPrev, txout) =>
      if tx.nTime < txPrev.nTime then none
      else
        match src.readHeader txindex.pos.nFile txindex.pos.nBlockPos with
        | none => none
        | some block =>
          if (tx.nTime : Int) < block.getBlockTime + nStakeMinAge then
            getCoinAgeFrom tx bnCentSecond vin
          else
            getCoinAgeFrom tx
              (bnCentSecond + (txout.nValue * ((tx.nTime - txPrev.nTime : Nat) : Int)).tdiv CENT) vin

/-- `CBigNum::getuint64`: the low 64 bits of the magnitude. -/
def getuint64 (bn : Int) : Int := ((bn.natAbs % 2 ^ 64 : Nat) : Int)

/-- `GetCoinAge`: the coin age as `uint64_t`; `none` is the result false. -/
def getCoinAge (tx : CTransaction) : Option Int :=
  if tx.isCoinBase then some 0
  else (getCoinAgeFrom src tx 0 tx.vin).map fun bnCentSecond =>
    getuint64 ((bnCentSecond * CENT).tdiv (24 * 60 * 60))

end CTransaction

end MotaCoin
