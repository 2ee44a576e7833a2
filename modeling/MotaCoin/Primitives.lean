import Mathlib.Data.List.AList
import MotaCoin.Lib.Int64
import MotaCoin.Lib.SpendIndex

/-!
# Transactions, blocks and block index entries

The data types of `main.h`, with the constants and the small member functions the rest of the
development reads. Pointers to block index entries are the hashes they are keyed by in
`mapBlockIndex`; `unsigned int` fields are natural numbers; amounts are integers and every
addition the source makes in `int64_t` is wrapped with `Int64.wrap` where it is made. The model is
of the main network (`fTestNet` is false).

## Main definitions

* `CDiskTxPos`, `COutPoint`, `CTxIn`, `CTxOut`, `CTransaction`, `CTxIndex`
* `CBlock`, `CBlockIndex`
* `getSerializeSize` of transactions and blocks, `txPositions`: where `ConnectBlock` puts the
  transactions of a block
* `Crypto`: the hash functions and the script interpreter, as parameters
-/

namespace MotaCoin

/-- `uint256`. Hashes are compared and stored, never bounded, so that an injective hash exists. -/
abbrev Uint256 := Nat

/-- `CScript`: the bytes of a script. -/
abbrev CScript := List UInt8

/-! ## Constants -/

/-- `COIN`. -/
def COIN : Int := 100000000

/-- `CENT`. -/
def CENT : Int := 1000000

/-- `MAX_BLOCK_SIZE`. -/
def MAX_BLOCK_SIZE : Nat := 1000000

/-- `MAX_BLOCK_SIZE_GEN`. -/
def MAX_BLOCK_SIZE_GEN : Nat := MAX_BLOCK_SIZE / 2

/-- `MAX_BLOCK_SIGOPS`. -/
def MAX_BLOCK_SIGOPS : Nat := MAX_BLOCK_SIZE / 50

/-- `MIN_TX_FEE`: `0.0000002 * COIN`. -/
def MIN_TX_FEE : Int := 20

/-- `MIN_RELAY_TX_FEE`. -/
def MIN_RELAY_TX_FEE : Int := MIN_TX_FEE

/-- `MAX_MONEY`. -/
def MAX_MONEY : Int := 90 * 1000000 * COIN

/-- `MAX_MINT_PROOF_OF_STAKE`. -/
def MAX_MINT_PROOF_OF_STAKE : Int := 12 * CENT

/-- `LAST_POW_BLOCK`. -/
def LAST_POW_BLOCK : Nat := 978420

/-- `MODIFIER_INTERVAL_SWITCH`. -/
def MODIFIER_INTERVAL_SWITCH : Nat := 100

/-- `nStakeMinAge`. -/
def nStakeMinAge : Nat := 15 * 60

/-- `nStakeMaxAge`. -/
def nStakeMaxAge : Nat := 25 * 24 * 60 * 60

/-- `nTargetSpacing` and `nStakeTargetSpacing`: `4.3 * 60` seconds. -/
def nTargetSpacing : Nat := 258

/-- `nTargetTimespan`. -/
def nTargetTimespan : Nat := 60 * 60

/-- `nModifierInterval`. -/
def nModifierInterval : Nat := 10 * 60

/-- `MODIFIER_INTERVAL_RATIO`. -/
def MODIFIER_INTERVAL_RATIO : Nat := 3

/-- `nCoinbaseMaturity`. -/
def nCoinbaseMaturity : Nat := 10

/-- `MoneyRange`. -/
def moneyRange (nValue : Int) : Bool := decide (0 ≤ nValue ∧ nValue ≤ MAX_MONEY)

theorem moneyRange_iff {nValue : Int} :
    moneyRange nValue = true ↔ 0 ≤ nValue ∧ nValue ≤ 9000000000000000 := by
  rw [moneyRange, decide_eq_true_iff]
  exact Iff.rfl

/-- `GetClockDrift`: half an hour before `BLOCK_SWITCH_TIME`, a minute from then on. -/
def getClockDrift (nTime : Int) : Int := if nTime < 1521572400 then 30 * 60 else 60

/-! ## Transactions -/

/-- `CDiskTxPos`: the place of a transaction in the block files. -/
structure CDiskTxPos where
  nFile : Nat
  nBlockPos : Nat
  nTxPos : Nat
deriving DecidableEq, Repr

namespace CDiskTxPos

/-- The null position, `SetNull`. -/
def null : CDiskTxPos := ⟨4294967295, 0, 0⟩

/-- `IsNull` reads only the file number. -/
def isNull (pos : CDiskTxPos) : Bool := pos.nFile == 4294967295

@[simp] theorem isNull_null : null.isNull = true := rfl

/-- `CDiskTxPos(1,1,1)`: the mark for "refer to the memory pool". -/
def memPool : CDiskTxPos := ⟨1, 1, 1⟩

end CDiskTxPos

/-- `COutPoint`. -/
structure COutPoint where
  hash : Uint256
  n : Nat
deriving DecidableEq, Repr

/-- `COutPoint::SetNull`. -/
def COutPoint.null : COutPoint := ⟨0, 4294967295⟩

/-- `COutPoint::IsNull`. -/
def COutPoint.isNull (o : COutPoint) : Bool := o.hash == 0 && o.n == 4294967295

/-- `CTxIn`. -/
structure CTxIn where
  prevout : COutPoint
  scriptSig : CScript
  nSequence : Nat
deriving DecidableEq

/-- `CTxOut`. -/
structure CTxOut where
  nValue : Int
  scriptPubKey : CScript
deriving DecidableEq

/-- `CTxOut::IsEmpty`. -/
def CTxOut.isEmpty (o : CTxOut) : Bool := o.nValue == 0 && o.scriptPubKey.isEmpty

/-- `CTransaction`. -/
structure CTransaction where
  nVersion : Int
  nTime : Nat
  vin : List CTxIn
  vout : List CTxOut
  nLockTime : Nat
deriving DecidableEq

namespace CTransaction

/-- A transaction no field of which was read: what `inputsRet[hash].second` holds before
`ReadFromDisk` fills it. The clock `SetNull` puts into `nTime` is never read from it. -/
def empty : CTransaction := ⟨1, 0, [], [], 0⟩

/-- `IsCoinBase`. -/
def isCoinBase (tx : CTransaction) : Bool :=
  match tx.vin with
  | [txin] => txin.prevout.isNull && decide (1 ≤ tx.vout.length)
  | _ => false

/-- `IsCoinStake`: the first output is empty. -/
def isCoinStake (tx : CTransaction) : Bool :=
  match tx.vin, tx.vout with
  | txin :: _, txout :: _ :: _ => !txin.prevout.isNull && txout.isEmpty
  | _, _ => false

/-- The loop of `GetValueOut`, from the running total `nValueOut`; `none` is the exception. -/
def getValueOutFrom (nValueOut : Int) : List CTxOut → Option Int
  | [] => some nValueOut
  | txout :: vout =>
    let nValueOut' := Int64.wrap (nValueOut + txout.nValue)
    if !moneyRange txout.nValue || !moneyRange nValueOut' then none
    else getValueOutFrom nValueOut' vout

/-- `GetValueOut`; `none` is the exception "value out of range". -/
def getValueOut (tx : CTransaction) : Option Int := getValueOutFrom 0 tx.vout

/-- `IsFinal` with a height and a time that are not zero. -/
def isFinal (tx : CTransaction) (nBlockHeight nBlockTime : Int) : Bool :=
  tx.nLockTime == 0
    || decide ((tx.nLockTime : Int) < if tx.nLockTime < 500000000 then nBlockHeight else nBlockTime)
    || tx.vin.all fun txin => txin.nSequence == 4294967295

/-- The outpoints a transaction spends: none for a coinbase. -/
def spends (tx : CTransaction) : List COutPoint :=
  if tx.isCoinBase then [] else tx.vin.map CTxIn.prevout

end CTransaction

/-- `CTxIndex`: where a transaction is (`pos`), and where each of its outputs was spent
(`vSpent`). -/
abbrev CTxIndex := SpendIndex.Record CDiskTxPos

/-- `CTxIndex(posIn, nOutputs)`: no output is spent. -/
def CTxIndex.fresh (pos : CDiskTxPos) (nOutputs : Nat) : CTxIndex :=
  ⟨pos, List.replicate nOutputs CDiskTxPos.null⟩

/-- `SetNull`. -/
def CTxIndex.null : CTxIndex := ⟨CDiskTxPos.null, []⟩

/-! ## Blocks -/

/-- `CBlock`: the header fields, the transactions and the block signature. -/
structure CBlock where
  nVersion : Int
  hashPrevBlock : Uint256
  hashMerkleRoot : Uint256
  nTime : Nat
  nBits : Nat
  nNonce : Nat
  vtx : List CTransaction
  vchBlockSig : List UInt8
deriving DecidableEq

/-- The header of a block: what `CBlockHeader::GetHash` hashes. -/
structure CBlockHeader where
  nVersion : Int
  hashPrevBlock : Uint256
  hashMerkleRoot : Uint256
  nTime : Nat
  nBits : Nat
  nNonce : Nat
deriving DecidableEq

namespace CBlock

/-- `GetBlockHeader`. -/
def getBlockHeader (b : CBlock) : CBlockHeader :=
  ⟨b.nVersion, b.hashPrevBlock, b.hashMerkleRoot, b.nTime, b.nBits, b.nNonce⟩

/-- `GetBlockTime`. -/
def getBlockTime (b : CBlock) : Int := b.nTime

/-- `IsProofOfStake`: the second transaction is a coinstake. -/
def isProofOfStake (b : CBlock) : Bool :=
  match b.vtx with
  | _ :: tx :: _ => tx.isCoinStake
  | _ => false

/-- `IsProofOfWork`. -/
def isProofOfWork (b : CBlock) : Bool := !b.isProofOfStake

end CBlock

/-- `CBlockIndex`, with `*phashBlock` as the field `hash` and pointers as hashes. -/
structure CBlockIndex where
  hash : Uint256
  pprev : Option Uint256
  pnext : Option Uint256
  nFile : Nat
  nBlockPos : Nat
  nChainTrust : Uint256
  nHeight : Nat
  nMint : Int
  nMoneySupply : Int
  nFlags : Nat
  nStakeModifier : Nat
  nStakeModifierChecksum : Nat
  prevoutStake : COutPoint
  nStakeTime : Nat
  hashProofOfStake : Uint256
  nVersion : Int
  hashMerkleRoot : Uint256
  nTime : Nat
  nBits : Nat
  nNonce : Nat
deriving DecidableEq

namespace CBlockIndex

/-- `GetBlockTime`. -/
def getBlockTime (pindex : CBlockIndex) : Int := pindex.nTime

/-- `IsProofOfStake`: the flag `BLOCK_PROOF_OF_STAKE`. -/
def isProofOfStake (pindex : CBlockIndex) : Bool := pindex.nFlags.testBit 0

/-- `GetStakeEntropyBit`: the flag `BLOCK_STAKE_ENTROPY`. -/
def getStakeEntropyBit (pindex : CBlockIndex) : Nat := (pindex.nFlags.testBit 1).toNat

/-- `GeneratedStakeModifier`: the flag `BLOCK_STAKE_MODIFIER`. -/
def generatedStakeModifier (pindex : CBlockIndex) : Bool := pindex.nFlags.testBit 2

end CBlockIndex

/-- `CDiskBlockIndex(pindex)`: the record kept in the database, with the link `hashNext`. -/
structure CDiskBlockIndex where
  index : CBlockIndex
  hashPrev : Uint256
  hashNext : Uint256
deriving DecidableEq

/-- The constructor of `CDiskBlockIndex`: null links become the zero hash. -/
def CDiskBlockIndex.ofIndex (pindex : CBlockIndex) : CDiskBlockIndex :=
  ⟨pindex, pindex.pprev.getD 0, pindex.pnext.getD 0⟩

/-! ## Serialized sizes and positions -/

/-- `GetSizeOfCompactSize`. -/
def getSizeOfCompactSize (nSize : Nat) : Nat :=
  if nSize < 253 then 1 else if nSize ≤ 65535 then 3 else if nSize ≤ 4294967295 then 5 else 9

/-- The serialized size of a byte vector. -/
def bytesSize (vch : List UInt8) : Nat := getSizeOfCompactSize vch.length + vch.length

/-- `GetSerializeSize` of a `CTxIn`: outpoint, script, sequence number. -/
def CTxIn.getSerializeSize (txin : CTxIn) : Nat := 36 + bytesSize txin.scriptSig + 4

/-- `GetSerializeSize` of a `CTxOut`: value, script. -/
def CTxOut.getSerializeSize (txout : CTxOut) : Nat := 8 + bytesSize txout.scriptPubKey

/-- `GetSerializeSize` of a `CTransaction`: version, time, inputs, outputs, lock time. -/
def CTransaction.getSerializeSize (tx : CTransaction) : Nat :=
  4 + 4 + (getSizeOfCompactSize tx.vin.length + (tx.vin.map CTxIn.getSerializeSize).sum)
    + (getSizeOfCompactSize tx.vout.length + (tx.vout.map CTxOut.getSerializeSize).sum) + 4

/-- `GetSerializeSize` of a `CBlock`: the 80 bytes of the header, transactions, signature. -/
def CBlock.getSerializeSize (b : CBlock) : Nat :=
  80 + (getSizeOfCompactSize b.vtx.length + (b.vtx.map CTransaction.getSerializeSize).sum)
    + bytesSize b.vchBlockSig

theorem CTransaction.getSerializeSize_pos (tx : CTransaction) : 0 < tx.getSerializeSize := by
  unfold CTransaction.getSerializeSize
  omega

/-- The running `nTxPos` of `ConnectBlock`: each transaction with the offset it starts at. -/
def txOffsets (nTxPos : Nat) : List CTransaction → List (CTransaction × Nat)
  | [] => []
  | tx :: vtx => (tx, nTxPos) :: txOffsets (nTxPos + tx.getSerializeSize) vtx

/-- The first `nTxPos` of `ConnectBlock`: past the header and the count of transactions. The
empty block serializes to the header and two empty vectors. -/
def firstTxPos (nBlockPos : Nat) (b : CBlock) : Nat :=
  nBlockPos + (80 + 2 * getSizeOfCompactSize 0) - 2 * getSizeOfCompactSize 0
    + getSizeOfCompactSize b.vtx.length

/-- The transactions of a block with the positions `ConnectBlock` records for them. -/
def txPositions (nFile nBlockPos : Nat) (b : CBlock) : List (CTransaction × CDiskTxPos) :=
  (txOffsets (firstTxPos nBlockPos b) b.vtx).map fun p => (p.1, ⟨nFile, nBlockPos, p.2⟩)

/-! ## Hashes and scripts -/

/-- `MapPrevTx`: the index record and the transaction fetched for each previous hash. -/
abbrev MapPrevTx := Uint256 → Option (CTxIndex × CTransaction)

/-- The functions the chain logic calls and does not look into: the hashes, the script
interpreter, the signature-operation counts and the random generator of the superblock bonus.
Every statement below holds for all of them. -/
structure Crypto where
  /-- `CTransaction::GetHash`. -/
  hashTx : CTransaction → Uint256
  /-- `CBlockHeader::GetHash`. -/
  hashBlock : CBlockHeader → Uint256
  /-- `Hash` of two concatenated hashes, the inner node of a Merkle tree. -/
  hashPair : Uint256 → Uint256 → Uint256
  /-- `stakeHash` on the stream that starts with the stake modifier. -/
  stakeHash : (nStakeModifier nTimeBlockFrom nTxPrevOffset nTxPrevTime nPrevout nTimeTx : Nat) →
    Uint256
  /-- `Hash` of a proof hash and the previous stake modifier, in `SelectBlockFromCandidates`. -/
  hashSelection : (hashProof : Uint256) → (nStakeModifierPrev : Nat) → Uint256
  /-- The top 32 bits of `Hash` of a previous checksum, flags, proof hash and stake modifier. -/
  hashChecksum : Option Nat → (nFlags : Nat) → Uint256 → (nStakeModifier : Nat) → Nat
  /-- `VerifySignature(txFrom, txTo, nIn, 0)`. -/
  verifySignature : CTransaction → CTransaction → Nat → Bool
  /-- `CScript::GetSigOpCount(false)`. -/
  getSigOpCount : CScript → Nat
  /-- The pay-to-script-hash count of an output script and the script that spends it. -/
  getP2SHSigOpCount : CScript → CScript → Nat
  /-- `CTransaction::IsStandard`. -/
  isStandard : CTransaction → Bool
  /-- `CTransaction::AreInputsStandard`. -/
  areInputsStandard : CTransaction → MapPrevTx → Bool
  /-- `CBlock::CheckBlockSignature`. -/
  checkBlockSignature : CBlock → Bool
  /-- `generateMTRandom(seed, range)`. -/
  generateMTRandom : Int → Int → Int

variable (C : Crypto)

/-- `CBlock::GetHash`. -/
def CBlock.getHash (b : CBlock) : Uint256 := C.hashBlock b.getBlockHeader

/-- `CTransaction::GetLegacySigOpCount`. -/
def CTransaction.getLegacySigOpCount (tx : CTransaction) : Nat :=
  (tx.vin.map fun txin => C.getSigOpCount txin.scriptSig).sum
    + (tx.vout.map fun txout => C.getSigOpCount txout.scriptPubKey).sum

end MotaCoin
