import Mathlib.Data.Finmap
import MotaCoin.Check
import MotaCoin.Serialize

/-!
# Reading into an object

`Unserialize` reads into an object that is there, and throws when the stream ends. What is kept here
is the object as it is left then: a part of it is new and the rest is as before.

## Main definitions

* `Fill`: reading into an object
* `fillString`, `fillBytes`, `fillVector`, `fillMap`
* `CWalletTxRecord.fill`: a transaction of the wallet with all that its record has
-/

namespace MotaCoin

open Wire

/-- Reading into an object: what it is then, and what is left of the stream unless that throws. -/
abbrev Fill (α : Type) := α → List UInt8 → α × Option (List UInt8)

/-- A string or a vector of bytes. -/
abbrev ByteString := List UInt8

/-! ## Numbers, strings, vectors and maps -/

section Fill

variable {α σ : Type}

/-- What is read as a whole is left alone where that throws. -/
def fillWith (r : Reader α) : Fill α := fun a bytes =>
  match r bytes with
  | some (a, rest) => (a, some rest)
  | none => (a, none)

/-- A part of an object is read into. -/
def fillField (get : σ → α) (set : σ → α → σ) (f : Fill α) : Fill σ := fun s bytes =>
  let (a, rest) := f (get s) bytes
  (set s a, rest)

/-- Parts are read into one after the other, until one throws. -/
def fillAll : List (Fill σ) → Fill σ
  | [], s, bytes => (s, some bytes)
  | f :: fs, s, bytes =>
    match f s bytes with
    | (s, none) => (s, none)
    | (s, some rest) => fillAll fs s rest

/-- `str.resize(nSize)`. -/
def resizeBytes (str : ByteString) (nSize : Nat) : ByteString :=
  str.take nSize ++ List.replicate (nSize - str.length) 0

/-- `Unserialize` of a string, which gets its size before it is read. -/
def fillString : Fill ByteString := fun str bytes =>
  match readCompactSize bytes with
  | none => (str, none)
  | some (nSize, rest) =>
    if nSize = 0 then (resizeBytes str nSize, some rest)
    else fillWith (read nSize) (resizeBytes str nSize) rest

/-- The blocks of a vector of bytes, at most `1 + 4999999 / sizeof(T)` at a time. -/
def fillBlocks : Nat → Nat → List UInt8 → ByteString × Option (List UInt8)
  | 0, _, bytes => ([], some bytes)
  | fuel + 1, left, bytes =>
    if left = 0 then ([], some bytes)
    else
      let blk := min left (1 + 4999999 / 1)
      match fillWith (read blk) (List.replicate blk 0) bytes with
      | (v, none) => (v, none)
      | (v, some rest) =>
        let (v', rest) := fillBlocks fuel (left - blk) rest
        (v ++ v', rest)

/-- `Unserialize` of a vector of bytes, which is cleared first. -/
def fillBytes : Fill ByteString := fun _ bytes =>
  match readCompactSize bytes with
  | none => ([], none)
  | some (nSize, rest) => fillBlocks nSize nSize rest

/-- The elements of a vector that are there are read into, until one throws. -/
def fillElems (f : Fill α) : List α → List UInt8 → List α × Option (List UInt8)
  | [], bytes => ([], some bytes)
  | a :: v, bytes =>
    match f a bytes with
    | (a, none) => (a :: v, none)
    | (a, some rest) =>
      let (v, rest) := fillElems f v rest
      (a :: v, rest)

/-- The vector grows by `nMid` elements at a time. -/
def fillGrowing (f : Fill α) (fresh : α) (nMid : Nat) :
    Nat → Nat → List UInt8 → List α × Option (List UInt8)
  | 0, _, bytes => ([], some bytes)
  | fuel + 1, left, bytes =>
    if left = 0 then ([], some bytes)
    else
      match fillElems f (List.replicate (min nMid left) fresh) bytes with
      | (v, none) => (v, none)
      | (v, some rest) =>
        let (v', rest) := fillGrowing f fresh nMid fuel (left - min nMid left) rest
        (v ++ v', rest)

/-- `Unserialize` of a vector whose elements are not of a fundamental type. -/
def fillVector (f : Fill α) (fresh : α) (sizeof : Nat) : Fill (List α) := fun _ bytes =>
  match readCompactSize bytes with
  | none => ([], none)
  | some (nSize, rest) => fillGrowing f fresh (5000000 / sizeof) nSize nSize rest

end Fill

/-- `mapValue_t`. -/
abbrev MapValue := Finmap fun _ : ByteString => ByteString

/-- `Unserialize` of a pair of strings. -/
def fillStringPair : Fill (ByteString × ByteString) :=
  fillAll [fillField Prod.fst (fun item str => (str, item.2)) fillString,
    fillField Prod.snd (fun item str => (item.1, str)) fillString]

/-- The entries of a map; one that is there already stays. -/
def fillEntries : Nat → MapValue → List UInt8 → MapValue × Option (List UInt8)
  | 0, m, bytes => (m, some bytes)
  | nSize + 1, m, bytes =>
    match fillStringPair ([], []) bytes with
    | (_, none) => (m, none)
    | (item, some rest) =>
      fillEntries nSize (if (m.lookup item.1).isSome then m else m.insert item.1 item.2) rest

/-- `Unserialize` of a map. -/
def fillMap : Fill MapValue := fun _ bytes =>
  match readCompactSize bytes with
  | none => (∅, none)
  | some (nSize, rest) => fillEntries nSize ∅ rest

/-! ## Transactions -/

/-- `Unserialize` of a `CTxIn`. -/
def CTxIn.fill : Fill CTxIn :=
  fillAll [
    fillField CTxIn.prevout (fun txin x => { txin with prevout := x })
      (fillWith COutPoint.unserialize),
    fillField CTxIn.scriptSig (fun txin x => { txin with scriptSig := x }) fillBytes,
    fillField CTxIn.nSequence (fun txin x => { txin with nSequence := x }) (fillWith (readLE 4))]

/-- `Unserialize` of a `CTxOut`. -/
def CTxOut.fill : Fill CTxOut :=
  fillAll [
    fillField CTxOut.nValue (fun txout x => { txout with nValue := x }) (fillWith (readInt 8)),
    fillField CTxOut.scriptPubKey (fun txout x => { txout with scriptPubKey := x }) fillBytes]

/-- `CTxIn()`. -/
def CTxIn.fresh : CTxIn := ⟨COutPoint.null, [], 4294967295⟩

/-- `CTxOut()`. -/
def CTxOut.fresh : CTxOut := ⟨-1, []⟩

/-- `CTransaction()`, at a time. -/
def CTransaction.fresh (adjustedTime : Nat) : CTransaction := ⟨1, adjustedTime, [], [], 0⟩

/-- `Unserialize` of a `CTransaction`. A `CTxIn` takes 72 bytes of memory, a `CTxOut` 32. -/
def CTransaction.fill : Fill CTransaction :=
  fillAll [
    fillField CTransaction.nVersion (fun tx x => { tx with nVersion := x }) (fillWith (readInt 4)),
    fillField CTransaction.nTime (fun tx x => { tx with nTime := x }) (fillWith (readLE 4)),
    fillField CTransaction.vin (fun tx x => { tx with vin := x }) (fillVector CTxIn.fill .fresh 72),
    fillField CTransaction.vout (fun tx x => { tx with vout := x })
      (fillVector CTxOut.fill .fresh 32),
    fillField CTransaction.nLockTime (fun tx x => { tx with nLockTime := x }) (fillWith (readLE 4))]

/-- `CMerkleTx`. -/
structure CMerkleTx where
  tx : CTransaction
  hashBlock : Uint256
  vMerkleBranch : List Uint256
  nIndex : Int
  fMerkleVerified : Bool

namespace CMerkleTx

/-- `CMerkleTx()`. -/
def fresh (adjustedTime : Nat) : CMerkleTx := ⟨.fresh adjustedTime, 0, [], -1, false⟩

/-- `Unserialize`. -/
def fill : Fill CMerkleTx :=
  fillAll [
    fillField CMerkleTx.tx (fun m x => { m with tx := x }) CTransaction.fill,
    fillField CMerkleTx.hashBlock (fun m x => { m with hashBlock := x }) (fillWith (readLE 32)),
    fillField CMerkleTx.vMerkleBranch (fun m x => { m with vMerkleBranch := x })
      (fillVector (fillWith (readLE 32)) 0 32),
    fillField CMerkleTx.nIndex (fun m x => { m with nIndex := x }) (fillWith (readInt 4))]

end CMerkleTx

/-- What `strtoll` reads of a string, which ends at a zero byte. -/
def atoi64 (str : ByteString) : Int :=
  let str := (str.takeWhile fun b => b != 0).dropWhile fun b => b == 32 || (9 ≤ b && b ≤ 13)
  let (fNegative, str) := match str with
    | 45 :: str => (true, str)
    | 43 :: str => (false, str)
    | str => (false, str)
  let n : Int := (str.takeWhile fun b => 48 ≤ b && b ≤ 57).foldl (fun n b => 10 * n + (b.toNat - 48)) 0
  max (-2 ^ 63) (min (2 ^ 63 - 1) (if fNegative then -n else n))

/-- The bytes of a name. -/
def ascii (name : String) : ByteString := name.toList.map fun c => UInt8.ofNat c.toNat

/-- `CWalletTx`, with all that its record has. -/
structure CWalletTxRecord extends CMerkleTx where
  /-- `pwallet` is not `NULL`. -/
  fBound : Bool
  vtxPrev : List CMerkleTx
  mapValue : MapValue
  vOrderForm : List (ByteString × ByteString)
  fTimeReceivedIsTxTime : Nat
  nTimeReceived : Nat
  nTimeSmart : Nat
  fFromMe : UInt8
  strFromAccount : ByteString
  vfSpent : List UInt8
  nOrderPos : Int
  nDebitCached : Option Int
  nCreditCached : Option Int
  nAvailableCreditCached : Option Int
  nChangeCached : Option Int

namespace CWalletTxRecord

/-- `Init(NULL)`. -/
def init (m : CMerkleTx) : CWalletTxRecord where
  toCMerkleTx := m
  fBound := false
  vtxPrev := []
  mapValue := ∅
  vOrderForm := []
  fTimeReceivedIsTxTime := 0
  nTimeReceived := 0
  nTimeSmart := 0
  fFromMe := 0
  strFromAccount := []
  vfSpent := []
  nOrderPos := -1
  nDebitCached := none
  nCreditCached := none
  nAvailableCreditCached := none
  nChangeCached := none

/-- `CWalletTx()`. -/
def fresh (adjustedTime : Nat) : CWalletTxRecord := init (.fresh adjustedTime)

/-- The first part of `Unserialize`, which reads, with the local `fSpent`. -/
def fillParts (adjustedTime : Nat) : Fill (CWalletTxRecord × UInt8) :=
  fillAll [
    fillField (fun s => s.1.toCMerkleTx) (fun s x => ({ s.1 with toCMerkleTx := x }, s.2)) CMerkleTx.fill,
    -- a `CMerkleTx` takes 128 bytes of memory, a pair of strings 64
    fillField (fun s => s.1.vtxPrev) (fun s x => ({ s.1 with vtxPrev := x }, s.2))
      (fillVector CMerkleTx.fill (.fresh adjustedTime) 128),
    fillField (fun s => s.1.mapValue) (fun s x => ({ s.1 with mapValue := x }, s.2)) fillMap,
    fillField (fun s => s.1.vOrderForm) (fun s x => ({ s.1 with vOrderForm := x }, s.2))
      (fillVector fillStringPair ([], []) 64),
    fillField (fun s => s.1.fTimeReceivedIsTxTime)
      (fun s x => ({ s.1 with fTimeReceivedIsTxTime := x }, s.2)) (fillWith (readLE 4)),
    fillField (fun s => s.1.nTimeReceived) (fun s x => ({ s.1 with nTimeReceived := x }, s.2))
      (fillWith (readLE 4)),
    fillField (fun s => s.1.fFromMe.toNat) (fun s x => ({ s.1 with fFromMe := UInt8.ofNat x }, s.2))
      (fillWith (readLE 1)),
    fillField (fun s => s.2.toNat) (fun s x => (s.1, UInt8.ofNat x)) (fillWith (readLE 1))]

/-- The second part, which takes from `mapValue` what was put there. -/
def takeValues (wtx : CWalletTxRecord) (fSpent : UInt8) : CWalletTxRecord :=
  let m := wtx.mapValue
  { wtx with
    strFromAccount := (m.lookup (ascii "fromaccount")).getD []
    vfSpent := match m.lookup (ascii "spent") with
      | some str => str.map fun c => if c != 48 then 1 else 0
      | none => List.replicate wtx.tx.vout.length fSpent
    nOrderPos := match m.lookup (ascii "n") with
      | some str => atoi64 str
      | none => -1
    nTimeSmart := match m.lookup (ascii "timesmart") with
      | some str => (atoi64 str % 2 ^ 32).toNat
      | none => 0
    mapValue := ((((m.erase (ascii "fromaccount")).erase (ascii "version")).erase
      (ascii "spent")).erase (ascii "n")).erase (ascii "timesmart") }

/-- `Unserialize`. -/
def fill (adjustedTime : Nat) : Fill CWalletTxRecord := fun wtx bytes =>
  match fillParts adjustedTime (init wtx.toCMerkleTx, 0) bytes with
  | ((wtx, _), none) => (wtx, none)
  | ((wtx, fSpent), some rest) => (wtx.takeValues fSpent, some rest)

/-- `BindWallet`. -/
def bindWallet (wtx : CWalletTxRecord) : CWalletTxRecord :=
  { wtx with
    fBound := true
    nDebitCached := none
    nCreditCached := none
    nAvailableCreditCached := none
    nChangeCached := none }

end CWalletTxRecord

end MotaCoin
