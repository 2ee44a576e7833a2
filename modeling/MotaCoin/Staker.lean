import MotaCoin.Accept
import MotaCoin.Miner
import MotaCoin.Ownership
import MotaCoin.StakeSearch

/-!
# The proof-of-stake miner

`CreateNewBlock` for a proof-of-stake block, `CreateCoinStake`, which looks for a kernel among the
coins of the wallet and spends it to the wallet, and `SignBlock`, which makes a block of the template
and the coinstake. Which coins the wallet chooses, and how it signs, are parameters.

## Main definitions

* `NodeState.createStakeTemplate`: the template
* `StakeWallet`, `StakeCoin`: the wallet, and the coins it chooses
* `StakeWallet.findKernel`, `StakeWallet.addInputs`, `StakeWallet.signInputs`: the loops of
  `CreateCoinStake`
* `StakeWallet.createCoinStake`, `CBlock.signBlock`
-/

namespace MotaCoin

variable (C : Crypto)

/-! ## The template -/

/-- The time that a new transaction has: the clock in an `unsigned int`. -/
def Env.transactionTime (env : Env) : Nat := (env.adjustedTime % 2 ^ 32).toNat

/-- `SetEmpty`. -/
def CTxOut.empty : CTxOut := ⟨0, []⟩

namespace NodeState

variable (env : Env) (s : NodeState) (m : Miner)

/-- The coinbase of the template: the height and `COINBASE_FLAGS`, and two empty outputs. -/
def stakeCoinbase (COINBASE_FLAGS : CScript) (pindexPrev : CBlockIndex) : CTransaction where
  nVersion := 1
  nTime := env.transactionTime
  vin := [⟨COutPoint.null, pushHeight (pindexPrev.nHeight + 1) ++ COINBASE_FLAGS, 4294967295⟩]
  vout := [CTxOut.empty, CTxOut.empty]
  nLockTime := 0

/-- **`CreateNewBlock(pwallet, true)`**, with the fees; `none` is an exception, or no tip. The loop
that collects transactions passes over the ones later than the coinbase. -/
def createStakeTemplate (COINBASE_FLAGS : CScript) : Option (CBlock × Int) :=
  match s.best with
  | none => none
  | some pindexPrev =>
    let coinbase := stakeCoinbase env COINBASE_FLAGS pindexPrev
    let vecPriority := s.candidates env
    if vecPriority.any fun tx => tx.getValueOut.isNone then none
    else
      let timely := (m.order vecPriority).filter fun tx => !decide (coinbase.nTime < tx.nTime)
      (s.collectTxs C env m pindexPrev timely Template.init).map fun t =>
        ({  nVersion := 6
            hashPrevBlock := pindexPrev.hash
            hashMerkleRoot := 0
            nTime := coinbase.nTime
            nBits := s.getNextTargetRequired pindexPrev true
            nNonce := 0
            vtx := coinbase :: t.vtx
            vchBlockSig := [] }, t.nFees)

end NodeState

/-! ## The wallet -/

/-- A coin of the wallet: an output of one of its transactions, whose index `COutput` has as an
`int`. -/
structure StakeCoin where
  pcoin : CTransaction
  n : Nat
  txout : CTxOut
  vout_eq : pcoin.vout[n]? = some txout
  n_lt : n < 2 ^ 31

/-- `COutPoint(pcoin.first->GetHash(), pcoin.second)`. -/
def StakeCoin.prevout (coin : StakeCoin) : COutPoint := ⟨C.hashTx coin.pcoin, coin.n⟩

/-- What the search for a coinstake uses of the wallet and its settings. -/
structure StakeWallet where
  /-- `GetBalance`. -/
  nBalance : Int
  /-- `-reservebalance`: none where it is no amount. -/
  nReserveBalance : Option Int
  /-- `setCoins` of `SelectCoinsSimple`, for a target and a time to spend at. -/
  selectCoinsSimple : Int → Nat → List StakeCoin
  /-- `GetKey`. -/
  getKey : Uint160 → Option PrivateKey
  /-- `SignSignature`: the input script for an input that spends an output of a transaction. -/
  signSignature : CTransaction → CTransaction → Nat → Option CScript
  /-- `CKey::Sign`. -/
  sign : PrivateKey → Uint256 → Option Valtype
  nHashDrift : Nat
  /-- `hashsettings` refuses more. -/
  nHashDrift_le : nHashDrift ≤ 60
  nStakeSplitThreshold : Nat
  nCombineThreshold : Int

/-- `nStakeCombineAge`. -/
def nStakeCombineAge : Int := 14 * 24 * 60 * 60

/-- A kernel that was found, with its key and the script of the outputs of the coinstake. -/
structure StakeKernel where
  coin : StakeCoin
  block : CBlock
  nTime : Nat
  key : PrivateKey
  scriptPubKeyOut : CScript

namespace StakeWallet

variable (P : KeyCrypto) (env : Env) (s : NodeState) (w : StakeWallet)

/-- The key that the coinstake is signed with, and the script of its outputs: pay to public key. -/
def kernelKey (scriptPubKeyKernel : CScript) : Option (PrivateKey × CScript) :=
  let solution := solver scriptPubKeyKernel
  let vch := solution.vSolutions.headD []
  if !solution.solved then none
  else match solution.type with
    | .pubKeyHash =>
      (w.getKey (Wire.ofLE vch)).map fun key =>
        (key, pushData (key.pubKey P) ++ ofOpcode OP_CHECKSIG)
    | .pubKey =>
      match w.getKey (P.hash160 vch) with
      | none => none
      | some key => if key.pubKey P ≠ vch then none else some (key, scriptPubKeyKernel)
    | .nonstandard | .scriptHash | .multiSig => none

/-- The loop over the coins that looks for a kernel, up to the first that hits. It goes no further when
nothing can be paid to the wallet with that one. -/
def findKernel (nBits nTime : Nat) : List StakeCoin → Option StakeKernel
  | [] => none
  | coin :: setCoins =>
    match s.txdb.readTxIndex (C.hashTx coin.pcoin) with
    | none => findKernel nBits nTime setCoins
    | some txindex =>
      match s.readBlockAt env txindex.pos.nFile txindex.pos.nBlockPos with
      | none => findKernel nBits nTime setCoins
      | some block =>
        if (nTime : Int) < block.getBlockTime + nStakeMinAge then findKernel nBits nTime setCoins
        else
          let search := s.searchStakeKernelHash C nBits block
            (txindex.pos.nTxPos - txindex.pos.nBlockPos) coin.pcoin (coin.prevout C) nTime w.nHashDrift 0
          if !search.fSuccess then findKernel nBits nTime setCoins
          else
            (w.kernelKey P coin.txout.scriptPubKey).map fun (key, scriptPubKeyOut) =>
              ⟨coin, block, search.nTimeTx, key, scriptPubKeyOut⟩

/-- The outputs before their amounts are set: the mark of a coinstake, and one output, or two where the
stake is to be split. -/
def kernelOutputs (kernel : StakeKernel) : List CTxOut :=
  let nTotalSize := Int64.wrap (kernel.coin.txout.nValue *
    (1 + (kernel.nTime - kernel.block.getBlockTime).tdiv (60 * 60 * 24) *
      (MAX_MINT_PROOF_OF_STAKE.tdiv COIN).tdiv 365)) % 2 ^ 64
  let txout : CTxOut := ⟨0, kernel.scriptPubKeyOut⟩
  if w.nStakeSplitThreshold * COIN % 2 ^ 64 < nTotalSize / 2 then [CTxOut.empty, txout, txout]
  else [CTxOut.empty, txout]

/-- The inputs, what they are worth and the transactions they spend from. -/
structure Inputs where
  vin : List CTxIn
  nCredit : Int
  vwtxPrev : List CTransaction

/-- The loop that attempts to add more inputs, of the same key as the kernel. -/
def addInputs (kernel : StakeKernel) (nLimit : Int) : List StakeCoin → Inputs → Inputs
  | [], inputs => inputs
  | coin :: setCoins, inputs =>
    if (w.kernelOutputs kernel).length = 2 ∧
        (coin.txout.scriptPubKey = kernel.coin.txout.scriptPubKey ∨
          coin.txout.scriptPubKey = kernel.scriptPubKeyOut) ∧
        C.hashTx coin.pcoin ≠ C.hashTx kernel.coin.pcoin then
      let nTimeWeight := NodeState.getWeight coin.pcoin.nTime kernel.nTime
      if 100 ≤ inputs.vin.length then inputs
      else if w.nCombineThreshold ≤ inputs.nCredit then inputs
      else if nLimit < Int64.wrap (inputs.nCredit + coin.txout.nValue) then inputs
      else if w.nCombineThreshold ≤ coin.txout.nValue then addInputs kernel nLimit setCoins inputs
      else if nTimeWeight < nStakeCombineAge then addInputs kernel nLimit setCoins inputs
      else
        addInputs kernel nLimit setCoins {
          vin := inputs.vin ++ [⟨coin.prevout C, [], 4294967295⟩]
          nCredit := Int64.wrap (inputs.nCredit + coin.txout.nValue)
          vwtxPrev := inputs.vwtxPrev ++ [coin.pcoin] }
    else addInputs kernel nLimit setCoins inputs

/-- The outputs with their amounts. -/
def setAmounts (nCredit : Int) : List CTxOut → List CTxOut
  | [mark, o₁, o₂] =>
    let nValue := (nCredit.tdiv 2).tdiv CENT * CENT
    [mark, { o₁ with nValue := nValue }, { o₂ with nValue := Int64.wrap (nCredit - nValue) }]
  | mark :: o₁ :: vout => mark :: { o₁ with nValue := nCredit } :: vout
  | vout => vout

/-- The loop that signs the inputs, from the input `nIn` on. -/
def signInputs : List CTransaction → Nat → CTransaction → Option CTransaction
  | [], _, txNew => some txNew
  | pcoin :: vwtxPrev, nIn, txNew =>
    match w.signSignature pcoin txNew nIn with
    | none => none
    | some scriptSig =>
      signInputs vwtxPrev (nIn + 1) { txNew with
        vin := txNew.vin.modify nIn fun txin => { txin with scriptSig := scriptSig } }

/-- **`CreateCoinStake`**: the coinstake and the key of its kernel; `none` is the result false. -/
def createCoinStake (pindexBest : CBlockIndex) (nBits : Nat) (nFees : Int) (nTime : Nat) :
    Option (CTransaction × PrivateKey) :=
  match w.nReserveBalance with
  | none => none
  | some nReserveBalance =>
    let nLimit := Int64.wrap (w.nBalance - nReserveBalance)
    if w.nBalance ≤ nReserveBalance then none
    else
      let setCoins := w.selectCoinsSimple nLimit nTime
      match w.findKernel C P env s nBits nTime setCoins with
      | none => none
      | some kernel =>
        let nValue := kernel.coin.txout.nValue
        if nValue = 0 ∨ nLimit < nValue then none
        else
          let inputs := w.addInputs C kernel nLimit setCoins
            ⟨[⟨kernel.coin.prevout C, [], 4294967295⟩], nValue, [kernel.coin.pcoin]⟩
          let txNew : CTransaction := ⟨1, kernel.nTime, inputs.vin, w.kernelOutputs kernel, 0⟩
          let prevHash := if pindexBest.pprev.isSome then pindexBest.hash else 0
          match txNew.getCoinAge (s.sources env) with
          | none => none
          | some nCoinAge =>
            let nReward :=
              getProofOfStakeReward C (Int64.wrap nCoinAge) nFees inputs.nCredit prevHash
            if nReward ≤ 0 then none
            else
              let vout := setAmounts (Int64.wrap (inputs.nCredit + nReward)) txNew.vout
              match w.signInputs inputs.vwtxPrev 0 { txNew with vout := vout } with
              | none => none
              | some txNew =>
                if MAX_BLOCK_SIZE_GEN / 5 ≤ txNew.getSerializeSize then none
                else some (txNew, kernel.key)

end StakeWallet

/-! ## Signing a block -/

namespace CBlock

/-- `GetMaxTransactionTime`. -/
def getMaxTransactionTime (b : CBlock) : Int :=
  b.vtx.foldl (fun (maxTransactionTime : Int) (tx : CTransaction) => max maxTransactionTime tx.nTime) 0

/-- The assignment of an `int64_t` to `nTime`. -/
def withTime (nTime : Int) (b : CBlock) : CBlock := { b with nTime := (nTime % 2 ^ 32).toNat }

variable (P : KeyCrypto) (env : Env) (s : NodeState) (w : StakeWallet)

/-- The block with a coinstake: its times are moved, the transactions that are later are erased, and
the coinstake is inserted after the coinbase. -/
def withCoinStake (pindexBest : CBlockIndex) (txCoinStake : CTransaction) (b : CBlock) : CBlock :=
  let nPastTimeLimit := s.getMedianTimePast pindexBest
  let nTimeBest := pindexBest.getBlockTime
  let b := { b with
    nTime := txCoinStake.nTime
    vtx := b.vtx.modifyHead fun coinbase => { coinbase with nTime := txCoinStake.nTime } }
  let b := b.withTime (max (nPastTimeLimit + 1) b.getMaxTransactionTime)
  let b := b.withTime (max b.getBlockTime (nTimeBest - getClockDrift nTimeBest))
  let b := { b with
    vtx := (b.vtx.filter fun (tx : CTransaction) => !decide (b.nTime < tx.nTime)).insertIdx 1 txCoinStake }
  { b with hashMerkleRoot := b.buildMerkleTree C }

/-- **`SignBlock`**: the result, and the block as it leaves it. `none` is a block without a coinbase
output, or no tip. The static `nLastCoinStakeSearchTime` is a parameter. -/
def signBlock (nFees nLastCoinStakeSearchTime : Int) (b : CBlock) : Option (Bool × CBlock) :=
  match b.vtx.head?.bind fun coinbase => coinbase.vout.head?, s.best with
  | some txout, some pindexBest =>
    if !txout.isEmpty then some (false, b)
    else if b.isProofOfStake then some (true, b)
    else
      let nSearchTime := env.transactionTime
      if (nSearchTime : Int) ≤ nLastCoinStakeSearchTime then some (false, b)
      else
        match w.createCoinStake C P env s pindexBest b.nBits nFees nSearchTime with
        | none => some (false, b)
        | some (txCoinStake, key) =>
          if (txCoinStake.nTime : Int) < max (s.getMedianTimePast pindexBest + 1)
              (pindexBest.getBlockTime - getClockDrift pindexBest.getBlockTime) then some (false, b)
          else
            let b := b.withCoinStake C s pindexBest txCoinStake
            match w.sign key (b.getHash C) with
            | none => some (false, b)
            | some vchBlockSig => some (true, { b with vchBlockSig := vchBlockSig })
  | _, _ => none

end CBlock

end MotaCoin
