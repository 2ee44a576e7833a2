import MotaCoin.Lib.Wire
import MotaCoin.Primitives

/-!
# Serialization of transactions and blocks

`serialize.h` and the `IMPLEMENT_SERIALIZE` statements of `main.h`: what `Serialize` writes, what
`Unserialize` reads and what `GetSerializeSize` counts. A stream is the list of the bytes still to
be read, and a thrown exception is a failed read. Reading takes the largest size it accepts as a
parameter, which is `MAX_SIZE` in the code; with no limit to speak of it shows that nothing two
objects write can be confused, whatever their sizes.

## Main definitions

* `writeCompactSize`, `readCompactSize`, `serializeVector`, `unserializeVector`
* `serialize`, `unserialize` of outpoints, inputs, outputs, transactions, headers and blocks
* `CTransaction.Fits`, `CBlock.Fits`: every field is a value of its machine type
* `CTransaction.Sized`, `CBlock.Sized`: no script or vector is longer than a limit
* `CTransaction.getSerializeSize32`, `CBlock.getSerializeSize32`: the sizes, in an `unsigned int`

## Main results

* `CTransaction.reads_unserialize`, `CBlock.reads_unserialize`: what was written is read back
* `CTransaction.length_serialize`, `CBlock.length_serialize`: how many bytes are written
* `unserialize_serialize`: the round trip and what follows from it
-/

namespace MotaCoin

open Wire

/-- `MAX_SIZE`, `0x02000000`. -/
def MAX_SIZE : Nat := 33554432

/-- `SER_DISK`. -/
def SER_DISK : Nat := 2

/-- `SER_GETHASH`. -/
def SER_GETHASH : Nat := 4

/-- `SER_BLOCKHEADERONLY`, `1 << 17`. -/
def SER_BLOCKHEADERONLY : Nat := 131072

/-! ## Compact sizes -/

/-- `WriteCompactSize`. -/
def writeCompactSize (nSize : Nat) : List UInt8 :=
  if nSize < 253 then leBytes 1 nSize
  else if nSize ≤ 65535 then leBytes 1 253 ++ leBytes 2 nSize
  else if nSize ≤ 4294967295 then leBytes 1 254 ++ leBytes 4 nSize
  else leBytes 1 255 ++ leBytes 8 nSize

/-- The size that follows the first byte `chSize` of a compact size. -/
def readSizeAfter (chSize : Nat) : Reader Nat :=
  if chSize < 253 then pure chSize
  else if chSize = 253 then readLE 2
  else if chSize = 254 then readLE 4
  else readLE 8

/-- `ReadCompactSize`, with the limit `nMax`. -/
def readCompactSizeUpTo (nMax : Nat) : Reader Nat := do
  let chSize ← readLE 1
  let nSizeRet ← readSizeAfter chSize
  if nMax < nSizeRet then failure else pure nSizeRet

/-- `ReadCompactSize`. -/
def readCompactSize : Reader Nat := readCompactSizeUpTo MAX_SIZE

@[simp] theorem length_writeCompactSize (nSize : Nat) :
    (writeCompactSize nSize).length = getSizeOfCompactSize nSize := by
  unfold writeCompactSize getSizeOfCompactSize
  split_ifs <;> simp

theorem getSizeOfCompactSize_of_lt {nSize : Nat} (h : nSize < 253) :
    getSizeOfCompactSize nSize = 1 :=
  if_pos h

/-- The four forms are told apart by the first byte, so any size within the limit is read back. -/
theorem reads_readCompactSizeUpTo {nMax nSize : Nat} (hmax : nMax < 2 ^ 64) (h : nSize ≤ nMax) :
    Reads (readCompactSizeUpTo nMax) (writeCompactSize nSize) nSize := by
  -- a first byte that announces the bytes `more` of the size
  have hform : ∀ (chSize : Nat) (more : List UInt8), chSize < 256 →
      Reads (readSizeAfter chSize) more nSize →
      Reads (readCompactSizeUpTo nMax) (leBytes 1 chSize ++ more) nSize := by
    intro chSize more hch hmore
    refine Reads.bind (reads_readLE (by simpa using hch)) ?_
    rw [← List.append_nil more]
    refine Reads.bind hmore ?_
    rw [if_neg (by omega)]
    exact Reads.pure nSize
  unfold writeCompactSize
  split_ifs with h₁ h₂ h₃
  · rw [← List.append_nil (leBytes 1 nSize)]
    refine hform nSize [] (by omega) ?_
    rw [readSizeAfter, if_pos h₁]
    exact Reads.pure nSize
  · exact hform 253 _ (by decide) (reads_readLE (by omega))
  · exact hform 254 _ (by decide) (reads_readLE (by omega))
  · exact hform 255 _ (by decide) (reads_readLE (by omega))

/-! ## Vectors -/

/-- `Serialize` of a vector of bytes. -/
def serializeBytes (v : List UInt8) : List UInt8 := writeCompactSize v.length ++ v

/-- `Unserialize` of a vector of bytes: blocks of at most `1 + 4999999 / sizeof(T)` bytes. -/
def unserializeBytesUpTo (nMax : Nat) : Reader (List UInt8) := do
  let nSize ← readCompactSizeUpTo nMax
  inBlocks read (1 + 4999999 / 1) (by decide) nSize

variable {α : Type}

/-- `Serialize` of a vector whose elements are not of a fundamental type. -/
def serializeVector (e : α → List UInt8) (v : List α) : List UInt8 :=
  writeCompactSize v.length ++ v.flatMap e

/-- `Unserialize` of a vector whose elements are not of a fundamental type: the vector grows by
`5000000 / sizeof(T)` elements at a time. -/
def unserializeVectorUpTo (nMax : Nat) (r : Reader α) (sizeof : Nat)
    (hsizeof : 0 < 5000000 / sizeof) : Reader (List α) := do
  let nSize ← readCompactSizeUpTo nMax
  inBlocks (readN r) (5000000 / sizeof) hsizeof nSize

section Vectors

variable {nMax : Nat} (hmax : nMax < 2 ^ 64)

theorem length_serializeBytes (v : List UInt8) : (serializeBytes v).length = bytesSize v := by
  simp [serializeBytes, bytesSize]

theorem length_serializeVector {e : α → List UInt8} {size : α → Nat}
    (he : ∀ a, (e a).length = size a) (v : List α) :
    (serializeVector e v).length = getSizeOfCompactSize v.length + (v.map size).sum := by
  simp [serializeVector, List.length_flatMap, he]

include hmax

theorem reads_unserializeBytes {v : List UInt8} (h : v.length ≤ nMax) :
    Reads (unserializeBytesUpTo nMax) (serializeBytes v) v := by
  refine Reads.bind (reads_readCompactSizeUpTo hmax h) ?_
  have hblocks : Reads (Wire.inBlocks read (1 + 4999999 / 1) (by decide) v.length)
      (v.flatMap fun b => [b]) v :=
    Reads.inBlocks (P := fun _ => True) (fun as _ => by simpa using Reads.read as)
      (fun _ _ => trivial)
  rwa [List.flatMap_singleton'] at hblocks

theorem reads_unserializeVector {r : Reader α} {e : α → List UInt8} {sizeof : Nat}
    {hsizeof : 0 < 5000000 / sizeof} {v : List α} (h : v.length ≤ nMax)
    (hr : ∀ a ∈ v, Reads r (e a) a) :
    Reads (unserializeVectorUpTo nMax r sizeof hsizeof) (serializeVector e v) v := by
  refine Reads.bind (reads_readCompactSizeUpTo hmax h) ?_
  exact Reads.inBlocks (P := fun a => Reads r (e a) a) (fun as has => Reads.readN has) hr

end Vectors

/-! ## Transactions -/

/-- `Serialize` of a `COutPoint`: its 36 bytes as they are, the hash lowest byte first. -/
def COutPoint.serialize (prevout : COutPoint) : List UInt8 :=
  leBytes 32 prevout.hash ++ leBytes 4 prevout.n

/-- `Unserialize` of a `COutPoint`. -/
def COutPoint.unserialize : Reader COutPoint := do
  let hash ← readLE 32
  let n ← readLE 4
  pure ⟨hash, n⟩

/-- `Serialize` of a `CTxIn`. -/
def CTxIn.serialize (txin : CTxIn) : List UInt8 :=
  txin.prevout.serialize ++ (serializeBytes txin.scriptSig ++ leBytes 4 txin.nSequence)

/-- `Unserialize` of a `CTxIn`. -/
def CTxIn.unserializeUpTo (nMax : Nat) : Reader CTxIn := do
  let prevout ← COutPoint.unserialize
  let scriptSig ← unserializeBytesUpTo nMax
  let nSequence ← readLE 4
  pure ⟨prevout, scriptSig, nSequence⟩

/-- `Serialize` of a `CTxOut`. -/
def CTxOut.serialize (txout : CTxOut) : List UInt8 :=
  intBytes 8 txout.nValue ++ serializeBytes txout.scriptPubKey

/-- `Unserialize` of a `CTxOut`. -/
def CTxOut.unserializeUpTo (nMax : Nat) : Reader CTxOut := do
  let nValue ← readInt 8
  let scriptPubKey ← unserializeBytesUpTo nMax
  pure ⟨nValue, scriptPubKey⟩

/-- `Serialize` of a `CTransaction`. -/
def CTransaction.serialize (tx : CTransaction) : List UInt8 :=
  intBytes 4 tx.nVersion ++ (leBytes 4 tx.nTime ++ (serializeVector CTxIn.serialize tx.vin ++
    (serializeVector CTxOut.serialize tx.vout ++ leBytes 4 tx.nLockTime)))

/-- `Unserialize` of a `CTransaction`. A `CTxIn` takes 72 bytes of memory, a `CTxOut` 32. -/
def CTransaction.unserializeUpTo (nMax : Nat) : Reader CTransaction := do
  let nVersion ← readInt 4
  let nTime ← readLE 4
  let vin ← unserializeVectorUpTo nMax (CTxIn.unserializeUpTo nMax) 72 (by decide)
  let vout ← unserializeVectorUpTo nMax (CTxOut.unserializeUpTo nMax) 32 (by decide)
  let nLockTime ← readLE 4
  pure ⟨nVersion, nTime, vin, vout, nLockTime⟩

/-- `Unserialize` of a `CTransaction`, with the limit of the code. -/
def CTransaction.unserialize : Reader CTransaction := CTransaction.unserializeUpTo MAX_SIZE

/-- Every field of an input is a value of its machine type. -/
structure CTxIn.Fits (txin : CTxIn) : Prop where
  hash : txin.prevout.hash < 2 ^ 256
  n : txin.prevout.n < 2 ^ 32
  nSequence : txin.nSequence < 2 ^ 32

/-- Every field of a transaction is a value of its machine type. -/
structure CTransaction.Fits (tx : CTransaction) : Prop where
  nVersion : -2 ^ 31 ≤ tx.nVersion ∧ tx.nVersion < 2 ^ 31
  nTime : tx.nTime < 2 ^ 32
  vin : ∀ txin ∈ tx.vin, txin.Fits
  vout : ∀ txout ∈ tx.vout, Int64.InRange txout.nValue
  nLockTime : tx.nLockTime < 2 ^ 32

/-- No vector or script of a transaction is longer than `nMax`. -/
structure CTransaction.Sized (nMax : Nat) (tx : CTransaction) : Prop where
  vin : tx.vin.length ≤ nMax
  vout : tx.vout.length ≤ nMax
  scriptSig : ∀ txin ∈ tx.vin, txin.scriptSig.length ≤ nMax
  scriptPubKey : ∀ txout ∈ tx.vout, txout.scriptPubKey.length ≤ nMax

/-- The two's complement word of an integer in range is read back. -/
theorem reads_readInt_of_le {w : Nat} {x : Int} (hlo : -(256 ^ w) ≤ 2 * x)
    (hhi : 2 * x < 256 ^ w) : Reads (readInt w) (intBytes w x) x := by
  apply reads_readInt
  apply Int.bmod_eq_of_le_mul_two
  · push_cast
    omega
  · push_cast
    omega

section Transactions

variable {nMax : Nat} (hmax : nMax < 2 ^ 64)
include hmax

theorem CTxIn.reads_unserialize {txin : CTxIn} (hfits : txin.Fits)
    (hscript : txin.scriptSig.length ≤ nMax) :
    Reads (CTxIn.unserializeUpTo nMax) txin.serialize txin := by
  refine Reads.bind (a := txin.prevout) ?_ ?_
  · exact Reads.bind (reads_readLE hfits.hash) ((reads_readLE hfits.n).map _)
  · refine Reads.bind (reads_unserializeBytes hmax hscript) ?_
    exact (reads_readLE hfits.nSequence).map _

theorem CTxOut.reads_unserialize {txout : CTxOut} (hvalue : Int64.InRange txout.nValue)
    (hscript : txout.scriptPubKey.length ≤ nMax) :
    Reads (CTxOut.unserializeUpTo nMax) txout.serialize txout := by
  unfold Int64.InRange at hvalue
  refine Reads.bind (reads_readInt_of_le (by omega) (by omega)) ?_
  exact (reads_unserializeBytes hmax hscript).map _

/-- **A transaction is read back from what it wrote**, whatever follows. -/
theorem CTransaction.reads_unserialize {tx : CTransaction} (hfits : tx.Fits)
    (hsized : tx.Sized nMax) :
    Reads (CTransaction.unserializeUpTo nMax) tx.serialize tx := by
  have hversion := hfits.nVersion
  refine Reads.bind (reads_readInt_of_le (by omega) (by omega)) ?_
  refine Reads.bind (reads_readLE hfits.nTime) ?_
  refine Reads.bind (reads_unserializeVector hmax hsized.vin fun txin hin =>
    CTxIn.reads_unserialize hmax (hfits.vin txin hin) (hsized.scriptSig txin hin)) ?_
  refine Reads.bind (reads_unserializeVector hmax hsized.vout fun txout hout =>
    CTxOut.reads_unserialize hmax (hfits.vout txout hout) (hsized.scriptPubKey txout hout)) ?_
  exact (reads_readLE hfits.nLockTime).map _

end Transactions

theorem CTxIn.length_serialize (txin : CTxIn) :
    txin.serialize.length = txin.getSerializeSize := by
  simp only [CTxIn.serialize, COutPoint.serialize, CTxIn.getSerializeSize, List.length_append,
    length_leBytes, length_serializeBytes]
  omega

theorem CTxOut.length_serialize (txout : CTxOut) :
    txout.serialize.length = txout.getSerializeSize := by
  simp only [CTxOut.serialize, CTxOut.getSerializeSize, List.length_append, length_intBytes,
    length_serializeBytes]

theorem CTransaction.length_serialize (tx : CTransaction) :
    tx.serialize.length = tx.getSerializeSize := by
  simp only [CTransaction.serialize, CTransaction.getSerializeSize, List.length_append,
    length_intBytes, length_leBytes, length_serializeVector CTxIn.length_serialize,
    length_serializeVector CTxOut.length_serialize]
  omega

/-! ## Blocks -/

/-- `Serialize` of a `CBlockHeader`. -/
def CBlockHeader.serialize (header : CBlockHeader) : List UInt8 :=
  intBytes 4 header.nVersion ++ (leBytes 32 header.hashPrevBlock ++
    (leBytes 32 header.hashMerkleRoot ++ (leBytes 4 header.nTime ++
      (leBytes 4 header.nBits ++ leBytes 4 header.nNonce))))

/-- `Unserialize` of a `CBlockHeader`. -/
def CBlockHeader.unserialize : Reader CBlockHeader := do
  let nVersion ← readInt 4
  let hashPrevBlock ← readLE 32
  let hashMerkleRoot ← readLE 32
  let nTime ← readLE 4
  let nBits ← readLE 4
  let nNonce ← readLE 4
  pure ⟨nVersion, hashPrevBlock, hashMerkleRoot, nTime, nBits, nNonce⟩

/-- `CBlock(header)`, with the transactions and the signature filled in. -/
def CBlock.ofHeader (header : CBlockHeader) (vtx : List CTransaction) (vchBlockSig : List UInt8) :
    CBlock :=
  ⟨header.nVersion, header.hashPrevBlock, header.hashMerkleRoot, header.nTime, header.nBits,
    header.nNonce, vtx, vchBlockSig⟩

/-- The stream's type asks for the header only. -/
def headerOnly (nType : Nat) : Bool := nType &&& (SER_GETHASH ||| SER_BLOCKHEADERONLY) != 0

/-- `Serialize` of a `CBlock`. -/
def CBlock.serialize (nType : Nat) (b : CBlock) : List UInt8 :=
  b.getBlockHeader.serialize ++
    if headerOnly nType then []
    else serializeVector CTransaction.serialize b.vtx ++ serializeBytes b.vchBlockSig

/-- What `Unserialize` reads of a `CBlock` after its header, when it is not read alone. A
`CTransaction` takes 64 bytes of memory. -/
def CBlock.unserializeBodyUpTo (nMax : Nat) (header : CBlockHeader) : Reader CBlock := do
  let vtx ← unserializeVectorUpTo nMax (CTransaction.unserializeUpTo nMax) 64 (by decide)
  let vchBlockSig ← unserializeBytesUpTo nMax
  pure (CBlock.ofHeader header vtx vchBlockSig)

/-- `Unserialize` of a `CBlock`. -/
def CBlock.unserializeUpTo (nMax nType : Nat) : Reader CBlock := do
  let header ← CBlockHeader.unserialize
  if headerOnly nType then pure (CBlock.ofHeader header [] [])
  else CBlock.unserializeBodyUpTo nMax header

/-- `Unserialize` of a `CBlock`, with the limit of the code. -/
def CBlock.unserialize (nType : Nat) : Reader CBlock := CBlock.unserializeUpTo MAX_SIZE nType

/-- Every field of a header is a value of its machine type. -/
structure CBlockHeader.Fits (header : CBlockHeader) : Prop where
  nVersion : -2 ^ 31 ≤ header.nVersion ∧ header.nVersion < 2 ^ 31
  hashPrevBlock : header.hashPrevBlock < 2 ^ 256
  hashMerkleRoot : header.hashMerkleRoot < 2 ^ 256
  nTime : header.nTime < 2 ^ 32
  nBits : header.nBits < 2 ^ 32
  nNonce : header.nNonce < 2 ^ 32

/-- Every field of a block is a value of its machine type. -/
structure CBlock.Fits (b : CBlock) : Prop where
  header : b.getBlockHeader.Fits
  vtx : ∀ tx ∈ b.vtx, tx.Fits

/-- No vector or script of a block is longer than `nMax`. -/
structure CBlock.Sized (nMax : Nat) (b : CBlock) : Prop where
  vtx : b.vtx.length ≤ nMax
  txs : ∀ tx ∈ b.vtx, tx.Sized nMax
  vchBlockSig : b.vchBlockSig.length ≤ nMax

theorem CBlockHeader.reads_unserialize {header : CBlockHeader} (hfits : header.Fits) :
    Reads CBlockHeader.unserialize header.serialize header := by
  have hversion := hfits.nVersion
  refine Reads.bind (reads_readInt_of_le (by omega) (by omega)) ?_
  refine Reads.bind (reads_readLE hfits.hashPrevBlock) ?_
  refine Reads.bind (reads_readLE hfits.hashMerkleRoot) ?_
  refine Reads.bind (reads_readLE hfits.nTime) ?_
  refine Reads.bind (reads_readLE hfits.nBits) ?_
  exact (reads_readLE hfits.nNonce).map _

/-- **A block is read back from what it wrote**, whatever follows. -/
theorem CBlock.reads_unserialize {nMax nType : Nat} (hmax : nMax < 2 ^ 64)
    (htype : headerOnly nType = false) {b : CBlock} (hfits : b.Fits) (hsized : b.Sized nMax) :
    Reads (CBlock.unserializeUpTo nMax nType) (b.serialize nType) b := by
  unfold CBlock.serialize CBlock.unserializeUpTo
  refine Reads.bind (CBlockHeader.reads_unserialize hfits.header) ?_
  rw [htype]
  refine Reads.bind (reads_unserializeVector hmax hsized.vtx fun tx htx =>
    CTransaction.reads_unserialize hmax (hfits.vtx tx htx) (hsized.txs tx htx)) ?_
  exact (reads_unserializeBytes hmax hsized.vchBlockSig).map _

@[simp] theorem CBlockHeader.length_serialize (header : CBlockHeader) :
    header.serialize.length = 80 := by
  simp [CBlockHeader.serialize]

theorem CBlock.length_serialize {nType : Nat} (htype : headerOnly nType = false) (b : CBlock) :
    (b.serialize nType).length = b.getSerializeSize := by
  simp only [CBlock.serialize, CBlock.getSerializeSize, htype, List.length_append,
    CBlockHeader.length_serialize, length_serializeVector CTransaction.length_serialize,
    length_serializeBytes, Bool.false_eq_true, if_false]
  omega

/-! ## Sizes in an `unsigned int` -/

/-- `nSerSize += n`, in an `unsigned int`. -/
def addSize (nSerSize n : Nat) : Nat := (nSerSize + n) % 2 ^ 32

/-- `GetSerializeSize` of a vector of bytes. -/
def bytesSize32 (v : List UInt8) : Nat := addSize (getSizeOfCompactSize v.length) v.length

/-- `GetSerializeSize` of a vector whose elements are not of a fundamental type. -/
def vectorSize32 (size : α → Nat) (v : List α) : Nat :=
  v.foldl (fun nSize a => addSize nSize (size a)) (getSizeOfCompactSize v.length)

/-- `GetSerializeSize` of a `CTxIn`. -/
def CTxIn.getSerializeSize32 (txin : CTxIn) : Nat :=
  addSize (addSize (addSize 0 36) (bytesSize32 txin.scriptSig)) 4

/-- `GetSerializeSize` of a `CTxOut`. -/
def CTxOut.getSerializeSize32 (txout : CTxOut) : Nat :=
  addSize (addSize 0 8) (bytesSize32 txout.scriptPubKey)

/-- `GetSerializeSize` of a `CTransaction`. -/
def CTransaction.getSerializeSize32 (tx : CTransaction) : Nat :=
  addSize (addSize (addSize (addSize (addSize 0 4) 4)
    (vectorSize32 CTxIn.getSerializeSize32 tx.vin))
    (vectorSize32 CTxOut.getSerializeSize32 tx.vout)) 4

/-- `GetSerializeSize` of a `CBlock` whose transactions are written. -/
def CBlock.getSerializeSize32 (b : CBlock) : Nat :=
  addSize (addSize (addSize 0 80) (vectorSize32 CTransaction.getSerializeSize32 b.vtx))
    (bytesSize32 b.vchBlockSig)

@[simp] theorem addSize_mod (m n : Nat) : addSize (m % 2 ^ 32) (n % 2 ^ 32) = (m + n) % 2 ^ 32 :=
  (Nat.add_mod m n _).symm

theorem bytesSize32_eq (v : List UInt8) : bytesSize32 v = bytesSize v % 2 ^ 32 := rfl

theorem getSizeOfCompactSize_mod (nSize : Nat) :
    getSizeOfCompactSize nSize % 2 ^ 32 = getSizeOfCompactSize nSize := by
  unfold getSizeOfCompactSize
  split_ifs <;> rfl

/-- The running total of a vector's elements is their sum, modulo `2^32`. -/
theorem foldl_addSize {size32 size : α → Nat} (h : ∀ a, size32 a = size a % 2 ^ 32) (v : List α)
    (n : Nat) :
    v.foldl (fun nSize a => addSize nSize (size32 a)) (n % 2 ^ 32)
      = (n + (v.map size).sum) % 2 ^ 32 := by
  induction v generalizing n with
  | nil => simp
  | cons a v ih => rw [List.foldl_cons, h, addSize_mod, ih, List.map_cons, List.sum_cons, add_assoc]

theorem vectorSize32_eq {size32 size : α → Nat} (h : ∀ a, size32 a = size a % 2 ^ 32)
    (v : List α) :
    vectorSize32 size32 v = (getSizeOfCompactSize v.length + (v.map size).sum) % 2 ^ 32 := by
  have := foldl_addSize h v (getSizeOfCompactSize v.length)
  rwa [getSizeOfCompactSize_mod] at this

theorem CTxIn.getSerializeSize32_eq (txin : CTxIn) :
    txin.getSerializeSize32 = txin.getSerializeSize % 2 ^ 32 := by
  simp only [CTxIn.getSerializeSize32, CTxIn.getSerializeSize, addSize, bytesSize32_eq]
  omega

theorem CTxOut.getSerializeSize32_eq (txout : CTxOut) :
    txout.getSerializeSize32 = txout.getSerializeSize % 2 ^ 32 := by
  simp only [CTxOut.getSerializeSize32, CTxOut.getSerializeSize, addSize, bytesSize32_eq]
  omega

/-- `GetSerializeSize` counts modulo `2^32`. -/
theorem CTransaction.getSerializeSize32_eq (tx : CTransaction) :
    tx.getSerializeSize32 = tx.getSerializeSize % 2 ^ 32 := by
  simp only [CTransaction.getSerializeSize32, CTransaction.getSerializeSize, addSize,
    vectorSize32_eq CTxIn.getSerializeSize32_eq, vectorSize32_eq CTxOut.getSerializeSize32_eq]
  omega

theorem CBlock.getSerializeSize32_eq (b : CBlock) :
    b.getSerializeSize32 = b.getSerializeSize % 2 ^ 32 := by
  simp only [CBlock.getSerializeSize32, CBlock.getSerializeSize, addSize, bytesSize32_eq,
    vectorSize32_eq CTransaction.getSerializeSize32_eq]
  omega

/-! ## The round trip -/

/-- What is written for `a` is read back as `a` and nothing more, whatever follows, and its length
modulo `2^32` is `nSize`. -/
def RoundTrips (r : Reader α) (bytes : List UInt8) (a : α) (nSize : Nat) : Prop :=
  (∀ rest, r (bytes ++ rest) = some (a, rest)) ∧ bytes.length % 2 ^ 32 = nSize

/-- **Transactions and blocks round-trip**: `Unserialize` takes exactly the bytes `Serialize`
wrote and gives the object back, and `GetSerializeSize` is their number in an `unsigned int`.
Two objects are equal as soon as the bytes of one begin the bytes of the other. -/
theorem unserialize_serialize {nType : Nat} (htype : headerOnly nType = false) :
    (∀ tx : CTransaction, tx.Fits → tx.Sized MAX_SIZE →
      RoundTrips CTransaction.unserialize tx.serialize tx tx.getSerializeSize32) ∧
    (∀ b : CBlock, b.Fits → b.Sized MAX_SIZE →
      RoundTrips (CBlock.unserialize nType) (b.serialize nType) b b.getSerializeSize32) ∧
    (∀ tx tx' : CTransaction, tx.Fits → tx'.Fits → tx.Sized MAX_SIZE → tx'.Sized MAX_SIZE →
      tx.serialize <+: tx'.serialize → tx = tx') ∧
    ∀ b b' : CBlock, b.Fits → b'.Fits → b.Sized MAX_SIZE → b'.Sized MAX_SIZE →
      b.serialize nType <+: b'.serialize nType → b = b' := by
  have hmax : MAX_SIZE < 2 ^ 64 := by decide
  refine ⟨fun tx hfits hsized => ⟨?_, ?_⟩, fun b hfits hsized => ⟨?_, ?_⟩,
    fun tx tx' hfits hfits' hsized hsized' hp => ?_, fun b b' hfits hfits' hsized hsized' hp => ?_⟩
  · exact CTransaction.reads_unserialize hmax hfits hsized
  · rw [CTransaction.length_serialize, CTransaction.getSerializeSize32_eq]
  · exact CBlock.reads_unserialize hmax htype hfits hsized
  · rw [CBlock.length_serialize htype, CBlock.getSerializeSize32_eq]
  · exact (Reads.eq_of_isPrefix (CTransaction.reads_unserialize hmax hfits hsized)
      (CTransaction.reads_unserialize hmax hfits' hsized') hp).2
  · exact (Reads.eq_of_isPrefix (CBlock.reads_unserialize hmax htype hfits hsized)
      (CBlock.reads_unserialize hmax htype hfits' hsized') hp).2

/-- A transaction with one output and no input. -/
def sampleOutputTx : CTransaction := ⟨1, 0, [], [⟨5, [0x51]⟩], 0⟩

theorem unserialize_serialize_disk :
    headerOnly SER_DISK = false ∧ sampleOutputTx.Fits ∧ sampleOutputTx.Sized MAX_SIZE ∧
      RoundTrips CTransaction.unserialize sampleOutputTx.serialize sampleOutputTx 24 := by
  have hfits : sampleOutputTx.Fits := ⟨by decide, by decide, by simp [sampleOutputTx],
    by simp [sampleOutputTx, Int64.InRange], by decide⟩
  have hsized : sampleOutputTx.Sized MAX_SIZE := ⟨by decide, by decide, by simp [sampleOutputTx],
    by simp [sampleOutputTx, MAX_SIZE]⟩
  have hdisk : headerOnly SER_DISK = false := rfl
  exact ⟨hdisk, hfits, hsized, (unserialize_serialize hdisk).1 _ hfits hsized⟩

/-- A transaction with 129 outputs, each with a script of `n` bytes. -/
def bigScriptsTx (n : Nat) : CTransaction :=
  ⟨1, 0, [], List.replicate 129 ⟨0, List.replicate n 0⟩, 0⟩

theorem bigScriptsTx_fits (n : Nat) : (bigScriptsTx n).Fits :=
  ⟨by simp [bigScriptsTx], by simp [bigScriptsTx], by simp [bigScriptsTx],
    by simp [bigScriptsTx, Int64.InRange], by simp [bigScriptsTx]⟩

theorem bigScriptsTx_sized {n : Nat} (hn : 129 ≤ n) : (bigScriptsTx n).Sized n :=
  ⟨by simp [bigScriptsTx], by simpa [bigScriptsTx] using hn, by simp [bigScriptsTx],
    by simp [bigScriptsTx]⟩

theorem bigScriptsTx_getSerializeSize (n : Nat) :
    (bigScriptsTx n).getSerializeSize = 14 + 129 * (8 + (getSizeOfCompactSize n + n)) := by
  simp only [bigScriptsTx, CTransaction.getSerializeSize, CTxOut.getSerializeSize, bytesSize,
    List.map_replicate, List.sum_replicate_nat, List.length_replicate, List.map_nil, List.sum_nil,
    List.length_nil, getSizeOfCompactSize_of_lt (show 0 < 253 by decide),
    getSizeOfCompactSize_of_lt (show 129 < 253 by decide)]
  omega

/-- Past `2^32` bytes, `GetSerializeSize` is not the number of bytes written and read: 129 scripts
of the largest size are enough. -/
theorem not_forall_length_eq_getSerializeSize :
    ¬ ∀ tx : CTransaction, tx.Fits → tx.Sized MAX_SIZE →
      (∀ rest, CTransaction.unserialize (tx.serialize ++ rest) = some (tx, rest)) ∧
        tx.serialize.length = tx.getSerializeSize32 := by
  intro h
  have hlen := (h (bigScriptsTx MAX_SIZE) (bigScriptsTx_fits _) (bigScriptsTx_sized (by decide))).2
  rw [CTransaction.length_serialize, CTransaction.getSerializeSize32_eq,
    bigScriptsTx_getSerializeSize] at hlen
  exact absurd hlen (by decide)

end MotaCoin
