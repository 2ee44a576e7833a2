import MotaCoin.Serialize
import MotaCoin.Solver

/-!
# Bloom filters of peers

`CBloomFilter` with the hash it uses, and the messages that install and change the filter of a
peer. Every element of a vector that is read or written and every reduction is checked: a fault is
an index past the end or a division by zero.

## Main definitions

* `BloomFault`, `Faulty`: computations that may fault
* `murmurHash3`: `MurmurHash3`
* `CBloomFilter`, with `hash`, `insert`, `contains`, `isRelevantAndUpdate`, `updateEmptyFull`
* `FilterCall`, `PeerFilter.call`, `runFilter`: what a peer and the relay do to its filter
-/

namespace MotaCoin

open Wire

/-- What must not happen. -/
inductive BloomFault where
  | outOfRange | divisionByZero
  deriving DecidableEq, Repr

/-- A computation that may fault. -/
abbrev Faulty := Except BloomFault

/-- `v[i]`. -/
def byteAt (v : Valtype) (i : Nat) : Faulty UInt8 :=
  match v[i]? with
  | none => .error .outOfRange
  | some byte => pure byte

/-- `a % b` of unsigned numbers. -/
def modulo (a b : Nat) : Faulty Nat := if b = 0 then .error .divisionByZero else pure (a % b)

/-! ## The hash -/

/-- `ROTL32`. -/
def rotl32 (x r : UInt32) : UInt32 := (x <<< r) ||| (x >>> (32 - r))

/-- The block of four bytes at `4 * j`, lowest byte first. -/
def readBlock (vDataToHash : Valtype) (j : Nat) : Faulty UInt32 := do
  let b0 ← byteAt vDataToHash (4 * j)
  let b1 ← byteAt vDataToHash (4 * j + 1)
  let b2 ← byteAt vDataToHash (4 * j + 2)
  let b3 ← byteAt vDataToHash (4 * j + 3)
  pure (UInt32.ofNat (ofLE [b0, b1, b2, b3]))

/-- `c1` and `c2` mixed into a block. -/
def mixBlock (k1 : UInt32) : UInt32 := rotl32 (k1 * 0xcc9e2d51) 15 * 0x1b873593

/-- The body: one round for each block. -/
def murmurBody (vDataToHash : Valtype) : List Nat → UInt32 → Faulty UInt32
  | [], h1 => pure h1
  | j :: js, h1 => do
    let k1 ← readBlock vDataToHash j
    murmurBody vDataToHash js (rotl32 (h1 ^^^ mixBlock k1) 13 * 5 + 0xe6546b64)

/-- The tail: the last bytes, fewer than four, from `tail` on. -/
def murmurTail (vDataToHash : Valtype) (tail : Nat) (h1 : UInt32) : Faulty UInt32 := do
  let size := vDataToHash.length % 4
  let k1 ← if 3 ≤ size then pure ((← byteAt vDataToHash (tail + 2)).toUInt32 <<< 16) else pure 0
  let k1 ← if 2 ≤ size then pure (k1 ^^^ (← byteAt vDataToHash (tail + 1)).toUInt32 <<< 8) else pure k1
  if 1 ≤ size then
    let k1 := k1 ^^^ (← byteAt vDataToHash tail).toUInt32
    pure (h1 ^^^ mixBlock k1)
  else pure h1

/-- The finalization. -/
def murmurFinal (h1 : UInt32) : UInt32 :=
  let h1 := (h1 ^^^ h1 >>> 16) * 0x85ebca6b
  let h1 := (h1 ^^^ h1 >>> 13) * 0xc2b2ae35
  h1 ^^^ h1 >>> 16

/-- `MurmurHash3`. The address `&vDataToHash[0]` of an empty vector is formed but not read. -/
def murmurHash3 (nHashSeed : UInt32) (vDataToHash : Valtype) : Faulty UInt32 := do
  let nblocks := vDataToHash.length / 4
  let h1 ← murmurBody vDataToHash (List.range nblocks) nHashSeed
  let h1 ← murmurTail vDataToHash (4 * nblocks) h1
  pure (murmurFinal (h1 ^^^ UInt32.ofNat vDataToHash.length))

/-! ## The filter -/

/-- `MAX_BLOOM_FILTER_SIZE`. -/
def MAX_BLOOM_FILTER_SIZE : Nat := 36000

/-- `MAX_HASH_FUNCS`. -/
def MAX_HASH_FUNCS : Nat := 50

/-- `MAX_SCRIPT_ELEMENT_SIZE`. -/
def MAX_SCRIPT_ELEMENT_SIZE : Nat := 520

/-- `BLOOM_UPDATE_ALL`. -/
def BLOOM_UPDATE_ALL : UInt8 := 1

/-- `BLOOM_UPDATE_P2PUBKEY_ONLY`. -/
def BLOOM_UPDATE_P2PUBKEY_ONLY : UInt8 := 2

/-- `BLOOM_UPDATE_MASK`. -/
def BLOOM_UPDATE_MASK : UInt8 := 3

/-- `bit_mask`. -/
def bitMask : Valtype := [0x01, 0x02, 0x04, 0x08, 0x10, 0x20, 0x40, 0x80]

/-- `CBloomFilter`. -/
structure CBloomFilter where
  vData : Valtype
  isFull : Bool
  isEmpty : Bool
  nHashFuncs : Nat
  nTweak : UInt32
  nFlags : UInt8
  deriving DecidableEq, Repr

namespace CBloomFilter

variable (f : CBloomFilter)

/-- `Hash`. -/
def hash (nHashNum : Nat) (vDataToHash : Valtype) : Faulty Nat := do
  let h ← murmurHash3 (UInt32.ofNat nHashNum * 0xFBA4C795 + f.nTweak) vDataToHash
  modulo h.toNat (f.vData.length * 8)

/-- `vData[nIndex >> 3] |= bit_mask[7 & nIndex]`. -/
def setBit (nIndex : Nat) : Faulty CBloomFilter := do
  let byte ← byteAt f.vData (nIndex >>> 3)
  let mask ← byteAt bitMask (7 &&& nIndex)
  pure { f with vData := f.vData.set (nIndex >>> 3) (byte ||| mask) }

/-- `vData[nIndex >> 3] & bit_mask[7 & nIndex]`. -/
def testBit (nIndex : Nat) : Faulty Bool := do
  let byte ← byteAt f.vData (nIndex >>> 3)
  let mask ← byteAt bitMask (7 &&& nIndex)
  pure (byte &&& mask != 0)

/-- The loop of `insert`, over the numbers of the hash functions. -/
def insertLoop (vKey : Valtype) : List Nat → CBloomFilter → Faulty CBloomFilter
  | [], f => pure f
  | i :: is, f => do
    let nIndex ← f.hash i vKey
    let f ← f.setBit nIndex
    insertLoop vKey is f

/-- `insert`. -/
def insert (vKey : Valtype) : Faulty CBloomFilter :=
  if f.isFull then pure f
  else do
    let f ← insertLoop vKey (List.range f.nHashFuncs) f
    pure { f with isEmpty := false }

/-- The loop of `contains`. -/
def containsLoop (vKey : Valtype) : List Nat → Faulty Bool
  | [] => pure true
  | i :: is => do
    let nIndex ← f.hash i vKey
    if ← f.testBit nIndex then containsLoop vKey is else pure false

/-- `contains`. -/
def contains (vKey : Valtype) : Faulty Bool :=
  if f.isFull then pure true
  else if f.isEmpty then pure false
  else f.containsLoop vKey (List.range f.nHashFuncs)

/-- `UpdateEmptyFull`. -/
def updateEmptyFull : CBloomFilter :=
  { f with
    isFull := f.vData.all fun byte => byte == 0xff
    isEmpty := f.vData.all fun byte => byte == 0 }

/-- The scan of one script for an element that the filter contains. -/
def matchesScript (pc : CScript) : Faulty Bool :=
  if pc = [] then pure false
  else
    match _ : getOp2 pc with
    | none => pure false
    | some (_, data, pc') => do
      if data.length ≠ 0 then
        if ← f.contains data then pure true else matchesScript pc'
      else matchesScript pc'
termination_by pc.length
decreasing_by all_goals exact getOp2_length_lt ‹_›

/-- Whether the flags ask for the outpoint of a matching output. -/
def wantsOutPoint (scriptPubKey : CScript) : Bool :=
  if f.nFlags &&& BLOOM_UPDATE_MASK = BLOOM_UPDATE_ALL then true
  else if f.nFlags &&& BLOOM_UPDATE_MASK = BLOOM_UPDATE_P2PUBKEY_ONLY then
    let solution := solver scriptPubKey
    solution.solved && (solution.type == .pubKey || solution.type == .multiSig)
  else false

end CBloomFilter

/-- What the scan of the outputs comes to. -/
structure OutputScan where
  /-- The filter, updated. -/
  filter : CBloomFilter
  /-- The outputs that matched. -/
  matched : List COutPoint
  /-- The outpoints that were inserted. -/
  inserted : List COutPoint

namespace CBloomFilter

/-- The loop of `IsRelevantAndUpdate` over the outputs from the `i`-th on. -/
def scanOutputs (hash : Uint256) (i : Nat) : List CTxOut → OutputScan → Faulty OutputScan
  | [], scan => pure scan
  | txout :: vout, scan => do
    if ← scan.filter.matchesScript txout.scriptPubKey then
      let outpoint : COutPoint := ⟨hash, i⟩
      let matched := scan.matched ++ [outpoint]
      if scan.filter.wantsOutPoint txout.scriptPubKey then
        let filter ← scan.filter.insert outpoint.serialize
        scanOutputs hash (i + 1) vout ⟨filter, matched, scan.inserted ++ [outpoint]⟩
      else scanOutputs hash (i + 1) vout ⟨scan.filter, matched, scan.inserted⟩
    else scanOutputs hash (i + 1) vout scan

/-- The loop of `IsRelevantAndUpdate` over the inputs. -/
def scanInputs (f : CBloomFilter) : List CTxIn → Faulty Bool
  | [] => pure false
  | txin :: vin => do
    if ← f.contains txin.prevout.serialize then pure true
    else if ← f.matchesScript txin.scriptSig then pure true
    else scanInputs f vin

/-- `IsRelevantAndUpdate`: its result, with the filter and what matched. A full filter matches
every output. -/
def isRelevantAndUpdate (f : CBloomFilter) (tx : CTransaction) (hash : Uint256) :
    Faulty (Bool × OutputScan) :=
  if f.isFull then
    pure (true, ⟨f, (List.range tx.vout.length).map fun i => ⟨hash, i⟩, []⟩)
  else if f.isEmpty then pure (false, ⟨f, [], []⟩)
  else do
    let fFound ← f.contains (leBytes 32 hash)
    let scan ← scanOutputs hash 0 tx.vout ⟨f, [], []⟩
    if fFound || !scan.matched.isEmpty then pure (true, scan)
    else
      let fFound ← scan.filter.scanInputs tx.vin
      pure (fFound, scan)

end CBloomFilter

/-! ## The filter of a peer -/

/-- The serialized fields of a filter: what a `filterload` message carries, and what the default
constructor leaves uninitialized. -/
structure BloomFields where
  vData : Valtype
  nHashFuncs : Nat
  nTweak : UInt32
  nFlags : UInt8

/-- `IsWithinSizeConstraints`. -/
def BloomFields.isWithinSizeConstraints (m : BloomFields) : Bool :=
  decide (m.vData.length ≤ MAX_BLOOM_FILTER_SIZE ∧ m.nHashFuncs ≤ MAX_HASH_FUNCS)

/-- The filter a `filterload` message installs; the flags are what `UpdateEmptyFull` makes them. -/
def CBloomFilter.load (m : BloomFields) : CBloomFilter :=
  CBloomFilter.updateEmptyFull
    { vData := m.vData
      isFull := true
      isEmpty := false
      nHashFuncs := m.nHashFuncs
      nTweak := m.nTweak
      nFlags := m.nFlags }

/-- `CBloomFilter()`: the vector is empty and the filter full; the other fields hold anything. -/
def CBloomFilter.default (isEmpty : Bool) (junk : BloomFields) : CBloomFilter where
  vData := []
  isFull := true
  isEmpty := isEmpty
  nHashFuncs := junk.nHashFuncs
  nTweak := junk.nTweak
  nFlags := junk.nFlags

/-- What happens to the filter of a peer: a message of it, or a transaction that is relayed. -/
inductive FilterCall where
  | filterLoad (m : BloomFields)
  | filterAdd (vData : Valtype)
  | filterClear (isEmpty : Bool) (junk : BloomFields)
  | relay (tx : CTransaction) (hash : Uint256)

/-- The filter of a peer, with what happened since it was loaded. -/
structure PeerFilter where
  /-- `pfilter`. -/
  pfilter : CBloomFilter
  /-- The elements inserted since the last load. -/
  inserted : List Valtype
  /-- The outputs that matched since the last load, under `BLOOM_UPDATE_ALL`. -/
  matched : List COutPoint

/-- One message or transaction. A message over a limit changes nothing. -/
def PeerFilter.call (st : PeerFilter) : FilterCall → Faulty PeerFilter
  | .filterLoad m =>
    if m.isWithinSizeConstraints then pure ⟨.load m, [], []⟩ else pure st
  | .filterAdd vData =>
    if MAX_SCRIPT_ELEMENT_SIZE < vData.length then pure st
    else do
      let pfilter ← st.pfilter.insert vData
      pure { st with pfilter := pfilter, inserted := st.inserted ++ [vData] }
  | .filterClear isEmpty junk => pure { st with pfilter := .default isEmpty junk }
  | .relay tx hash => do
    let r ← st.pfilter.isRelevantAndUpdate tx hash
    let fAll := st.pfilter.nFlags &&& BLOOM_UPDATE_MASK = BLOOM_UPDATE_ALL
    pure
      { pfilter := r.2.filter
        inserted := st.inserted ++ r.2.inserted.map COutPoint.serialize
        matched := if fAll then st.matched ++ r.2.matched else st.matched }

/-- A run of messages and transactions. -/
def runFilter : List FilterCall → PeerFilter → Faulty PeerFilter
  | [], st => pure st
  | call :: calls, st => do
    let st ← st.call call
    runFilter calls st

end MotaCoin
