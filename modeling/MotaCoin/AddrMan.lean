import MotaCoin.NetAddr
import MotaCoin.Serialize
import MotaCoin.Lib.Bins
import Mathlib.Data.Finset.Sort
import Mathlib.Data.List.AList

/-!
# The address manager

The table of peers of `addrman.h`. An entry has an id. Ids are found by address and in a vector in
random order, and they lie in buckets: those of entries that were reached in one of the tried
buckets, those of the others in one or more of the new buckets. An assertion that fails is a call
without a result.

## Main definitions

* `CAddrInfo`, with the buckets that its hashes select and `isTerrible`
* `CAddrMan`, and its parts: `find`, `create`, `swapRandom`, `selectTried`, `shrinkNew`, `makeTried`
* `CAddrMan.good_`, `add_`, `attempt_`, `connected_`, `select_`, `getAddr_`
* `CAddrMan.check_`: the check of the whole table
-/

namespace MotaCoin

open Wire

abbrev ADDRMAN_TRIED_BUCKET_COUNT : Nat := 64

def ADDRMAN_TRIED_BUCKET_SIZE : Nat := 64

abbrev ADDRMAN_NEW_BUCKET_COUNT : Nat := 256

def ADDRMAN_NEW_BUCKET_SIZE : Nat := 64

def ADDRMAN_TRIED_BUCKETS_PER_GROUP : Nat := 4

def ADDRMAN_NEW_BUCKETS_PER_SOURCE_GROUP : Nat := 32

def ADDRMAN_NEW_BUCKETS_PER_ADDRESS : Int := 4

def ADDRMAN_TRIED_ENTRIES_INSPECT_ON_EVICT : Nat := 4

def ADDRMAN_HORIZON_DAYS : Int64 := 30

def ADDRMAN_RETRIES : Int32 := 3

def ADDRMAN_MAX_FAILURES : Int32 := 10

def ADDRMAN_MIN_FAIL_DAYS : Int64 := 7

def ADDRMAN_GETADDR_MAX_PCT : Nat := 23

def ADDRMAN_GETADDR_MAX : Nat := 2500

/-- `GetRandInt`, for what the random source gives. -/
def getRandInt (nRand nMax : Nat) : Nat := if nMax = 0 then 0 else nRand % nMax

/-- An `unsigned int` as an `int64_t`. -/
def toInt64 (nTime : UInt32) : Int64 := Int64.ofNat nTime.toNat

/-- An `int64_t` as an `unsigned int`. -/
def toUnsigned (nTime : Int64) : UInt32 := UInt32.ofInt nTime.toInt

/-! ## Entries -/

/-- `CAddrInfo`. -/
structure CAddrInfo extends CAddress where
  source : CNetAddr
  nLastSuccess : Int64
  nAttempts : Int32
  nRefCount : Int
  fInTried : Bool
  nRandomPos : Int
  deriving DecidableEq

namespace CAddrInfo

/-- `CAddrInfo(addrIn, addrSource)`. -/
def ofAddress (addrIn : CAddress) (addrSource : CNetAddr) : CAddrInfo where
  toCAddress := { addrIn with nLastTry := 0 }
  source := addrSource
  nLastSuccess := 0
  nAttempts := 0
  nRefCount := 0
  fInTried := false
  nRandomPos := -1

variable (info : CAddrInfo)

/-- `GetTriedBucket`, for the hash that selects buckets. -/
def getTriedBucket (hash64 : List UInt8 → UInt64) (nKey : List UInt8) :
    Fin ADDRMAN_TRIED_BUCKET_COUNT :=
  let hash1 := hash64 (serializeBytes nKey ++ serializeBytes info.getKey)
  let hash2 := hash64 (serializeBytes nKey ++ serializeBytes info.getGroup ++
    leBytes 8 (hash1.toNat % ADDRMAN_TRIED_BUCKETS_PER_GROUP))
  Fin.ofNat ADDRMAN_TRIED_BUCKET_COUNT hash2.toNat

/-- `GetNewBucket` for a source. -/
def getNewBucketFrom (hash64 : List UInt8 → UInt64) (nKey : List UInt8) (src : CNetAddr) :
    Fin ADDRMAN_NEW_BUCKET_COUNT :=
  let hash1 := hash64 (serializeBytes nKey ++ serializeBytes info.getGroup ++
    serializeBytes src.getGroup)
  let hash2 := hash64 (serializeBytes nKey ++ serializeBytes src.getGroup ++
    leBytes 8 (hash1.toNat % ADDRMAN_NEW_BUCKETS_PER_SOURCE_GROUP))
  Fin.ofNat ADDRMAN_NEW_BUCKET_COUNT hash2.toNat

/-- `GetNewBucket` for the source of the entry. -/
def getNewBucket (hash64 : List UInt8 → UInt64) (nKey : List UInt8) : Fin ADDRMAN_NEW_BUCKET_COUNT :=
  info.getNewBucketFrom hash64 nKey info.source

/-- `IsTerrible`. -/
def isTerrible (nNow : Int64) : Bool :=
  if info.nLastTry ≠ 0 ∧ nNow - 60 ≤ info.nLastTry then false
  else if nNow + 10 * 60 < toInt64 info.nTime then true
  else if info.nTime = 0 ∨ ADDRMAN_HORIZON_DAYS * 86400 < nNow - toInt64 info.nTime then true
  else if info.nLastSuccess = 0 ∧ ADDRMAN_RETRIES ≤ info.nAttempts then true
  else if ADDRMAN_MIN_FAIL_DAYS * 86400 < nNow - info.nLastSuccess ∧
      ADDRMAN_MAX_FAILURES ≤ info.nAttempts then true
  else false

end CAddrInfo

/-! ## The manager -/

/-- `CAddrMan`. -/
structure CAddrMan where
  nKey : List UInt8
  nIdCount : Int
  mapInfo : AList fun _ : Int => CAddrInfo
  mapAddr : AList fun _ : CNetAddr => Int
  vRandom : List Int
  nTried : Int
  vvTried : Fin ADDRMAN_TRIED_BUCKET_COUNT → List Int
  nNew : Int
  vvNew : Fin ADDRMAN_NEW_BUCKET_COUNT → Finset Int

/-- What a call meets: the hash that selects buckets, the adjusted time, and what the random source
gives for the calls of `GetRandInt`, in order. -/
structure AddrEnv where
  hash64 : List UInt8 → UInt64
  adjustedTime : Int64
  rand : Nat → Nat

namespace CAddrMan

/-- `CAddrMan()`, with its key. -/
def empty (nKey : List UInt8) : CAddrMan where
  nKey := nKey
  nIdCount := 0
  mapInfo := ∅
  mapAddr := ∅
  vRandom := []
  nTried := 0
  vvTried _ := []
  nNew := 0
  vvNew _ := ∅

variable (am : CAddrMan)

/-- `Find`, with the id. -/
def find (addr : CNetAddr) : Option (Int × CAddrInfo) :=
  (am.mapAddr.lookup addr).bind fun nId => (am.mapInfo.lookup nId).map fun info => (nId, info)

/-- An entry is written. -/
def setInfo (nId : Int) (info : CAddrInfo) : CAddrMan :=
  { am with mapInfo := am.mapInfo.insert nId info }

/-- `Create`, with the id. -/
def create (addr : CAddress) (addrSource : CNetAddr) : Int × CAddrMan :=
  let nId := am.nIdCount
  (nId, { am with
    nIdCount := am.nIdCount + 1
    mapInfo := am.mapInfo.insert nId
      { CAddrInfo.ofAddress addr addrSource with nRandomPos := am.vRandom.length }
    mapAddr := am.mapAddr.insert addr.toCNetAddr nId
    vRandom := am.vRandom ++ [nId] })

/-- `SwapRandom`. -/
def swapRandom (nRndPos1 nRndPos2 : Nat) : Option CAddrMan :=
  if nRndPos1 = nRndPos2 then some am
  else do
    let nId1 ← am.vRandom[nRndPos1]?
    let nId2 ← am.vRandom[nRndPos2]?
    let info1 ← am.mapInfo.lookup nId1
    let info2 ← am.mapInfo.lookup nId2
    some { am with
      mapInfo := (am.mapInfo.insert nId1 { info1 with nRandomPos := nRndPos2 }).insert nId2
        { info2 with nRandomPos := nRndPos1 }
      vRandom := (am.vRandom.set nRndPos1 nId2).set nRndPos2 nId1 }

/-- The loop of `SelectTried` from position `i` on, with the bucket as it is shuffled and the oldest
entry so far, if there is one, and its position. -/
def selectTriedFrom (rand : Nat → Nat) :
    Nat → Nat → List Int → Option (Int × Nat) → Option (List Int × Option (Int × Nat))
  | 0, _, vTried, oldest => some (vTried, oldest)
  | fuel + 1, i, vTried, oldest =>
    if vTried.length ≤ i then some (vTried, oldest)
    else do
      let nPos := getRandInt (rand i) (vTried.length - i) + i
      let nTemp ← vTried[nPos]?
      let nFirst ← vTried[i]?
      let vTried := (vTried.set nPos nFirst).set i nTemp
      match oldest with
      | none => selectTriedFrom rand fuel (i + 1) vTried (some (nTemp, nPos))
      | some (nOldest, nOldestPos) =>
        let info ← am.mapInfo.lookup nTemp
        let infoOldest ← am.mapInfo.lookup nOldest
        selectTriedFrom rand fuel (i + 1) vTried
          (if info.nLastSuccess < infoOldest.nLastSuccess then some (nTemp, nPos)
          else some (nOldest, nOldestPos))

/-- `SelectTried`: the position it returns, if any. -/
def selectTried (rand : Nat → Nat) (nKBucket : Fin ADDRMAN_TRIED_BUCKET_COUNT) :
    Option (Option Nat × CAddrMan) :=
  (am.selectTriedFrom rand ADDRMAN_TRIED_ENTRIES_INSPECT_ON_EVICT 0 (am.vvTried nKBucket) none).map
    fun (vTried, oldest) =>
      (oldest.map Prod.snd, { am with vvTried := Function.update am.vvTried nKBucket vTried })

/-- An entry is deleted. -/
def delete (nId : Int) (info : CAddrInfo) : Option CAddrMan :=
  if info.nRandomPos < 0 then none
  else (am.swapRandom info.nRandomPos.toNat (am.vRandom.length - 1)).map fun am =>
    { am with
      vRandom := am.vRandom.dropLast
      mapAddr := am.mapAddr.erase info.toCNetAddr
      mapInfo := am.mapInfo.erase nId
      nNew := am.nNew - 1 }

/-- An id is taken out of a new bucket, and its entry is deleted if it is in no other: how both parts
of `ShrinkNew` end. -/
def unref (nUBucket : Fin ADDRMAN_NEW_BUCKET_COUNT) (nId : Int) : Option CAddrMan := do
  let info ← am.mapInfo.lookup nId
  let info := { info with nRefCount := info.nRefCount - 1 }
  let am := am.setInfo nId info
  let am ← if info.nRefCount = 0 then am.delete nId info else some am
  some { am with
    vvNew := Function.update am.vvNew nUBucket ((am.vvNew nUBucket).erase nId) }

/-- The search of `ShrinkNew` for an entry that can be deleted. -/
def findTerrible (nNow : Int64) : List Int → Option (Option Int)
  | [] => some none
  | nId :: vNew => (am.mapInfo.lookup nId).bind fun info =>
    if info.isTerrible nNow then some (some nId) else findTerrible nNow vNew

/-- The search of `ShrinkNew` for the oldest of the entries at the positions that were picked. -/
def findOldest (picked : Nat → Bool) : Nat → Option Int → List Int → Option (Option Int)
  | _, nOldest, [] => some nOldest
  | nI, nOldest, nId :: vNew =>
    if !picked nI then findOldest picked (nI + 1) nOldest vNew
    else match nOldest with
      | none => findOldest picked (nI + 1) (some nId) vNew
      | some nOld => do
        let info ← am.mapInfo.lookup nId
        let infoOld ← am.mapInfo.lookup nOld
        findOldest picked (nI + 1) (if info.nTime < infoOld.nTime then some nId else some nOld) vNew

/-- `ShrinkNew`, with its result. The random source is asked from its first number on. -/
def shrinkNew (nNow : Int64) (rand : Nat → Nat) (nUBucket : Fin ADDRMAN_NEW_BUCKET_COUNT) :
    Option (Int × CAddrMan) := do
  let vNew := (am.vvNew nUBucket).sort
  match ← am.findTerrible nNow vNew with
  | some nId => (am.unref nUBucket nId).map fun am => (0, am)
  | none =>
    let n := (List.range 4).map fun i => getRandInt (rand i) vNew.length
    let nOldest ← am.findOldest (fun nI => n.contains nI) 0 none vNew
    let nId ← nOldest
    (am.unref nUBucket nId).map fun am => (1, am)

/-- `MakeTried`. -/
def makeTried (hash64 : List UInt8 → UInt64) (rand : Nat → Nat) (nId : Int)
    (nOrigin : Fin ADDRMAN_NEW_BUCKET_COUNT) : Option CAddrMan := do
  let info ← am.mapInfo.lookup nId
  if nId ∉ am.vvNew nOrigin then none
  else
    -- The entry is taken out of all new buckets.
    let info := { info with nRefCount := info.nRefCount - Bins.refs am.vvNew nId }
    let am := { am with
      vvNew := fun nUBucket => (am.vvNew nUBucket).erase nId
      nNew := am.nNew - 1 }
    if info.nRefCount ≠ 0 then none
    else
      let nKBucket := info.getTriedBucket hash64 am.nKey
      if (am.vvTried nKBucket).length < ADDRMAN_TRIED_BUCKET_SIZE then
        some { am.setInfo nId { info with fInTried := true } with
          vvTried := Function.update am.vvTried nKBucket (am.vvTried nKBucket ++ [nId])
          nTried := am.nTried + 1 }
      else
        let (nPos, am) ← am.selectTried rand nKBucket
        let nPos ← nPos
        let nOld ← (am.vvTried nKBucket)[nPos]?
        let infoOld ← am.mapInfo.lookup nOld
        let nUBucket := infoOld.getNewBucket hash64 am.nKey
        -- What is evicted goes to its own new bucket or, if that is full, to the one just left.
        let nTo := if (am.vvNew nUBucket).card < ADDRMAN_NEW_BUCKET_SIZE then nUBucket else nOrigin
        let am := am.setInfo nOld { infoOld with fInTried := false, nRefCount := 1 }
        some { am.setInfo nId { info with fInTried := true } with
          vvNew := Function.update am.vvNew nTo (insert nOld (am.vvNew nTo))
          nNew := am.nNew + 1
          vvTried := Function.update am.vvTried nKBucket ((am.vvTried nKBucket).set nPos nId) }

/-! ## Calls -/

/-- `Good_`. -/
def good_ (env : AddrEnv) (addr : CService) (nTime : Int64) : Option CAddrMan :=
  match am.find addr.toCNetAddr with
  | none => some am
  | some (nId, info) =>
    if info.toCService ≠ addr then some am
    else
      let am := am.setInfo nId { info with
        nLastSuccess := nTime
        nLastTry := nTime
        nTime := toUnsigned nTime
        nAttempts := 0 }
      if info.fInTried then some am
      else
        let nRnd := getRandInt (env.rand 0) ADDRMAN_NEW_BUCKET_COUNT
        let nUBucket := (List.range ADDRMAN_NEW_BUCKET_COUNT).findSome? fun n =>
          let nB := Fin.ofNat ADDRMAN_NEW_BUCKET_COUNT (n + nRnd)
          if nId ∈ am.vvNew nB then some nB else none
        match nUBucket with
        | none => some am
        | some nUBucket => am.makeTried env.hash64 (fun i => env.rand (1 + i)) nId nUBucket

/-- The end of `Add_`: one more new bucket for an entry. -/
def addRef (env : AddrEnv) (nId : Int) (source : CNetAddr) : Option CAddrMan := do
  let info ← am.mapInfo.lookup nId
  let nUBucket := info.getNewBucketFrom env.hash64 am.nKey source
  if nId ∈ am.vvNew nUBucket then some am
  else
    let am := am.setInfo nId { info with nRefCount := info.nRefCount + 1 }
    let am ← if (am.vvNew nUBucket).card = ADDRMAN_NEW_BUCKET_SIZE then
        (am.shrinkNew env.adjustedTime (fun i => env.rand (1 + i)) nUBucket).map Prod.snd
      else some am
    some { am with vvNew := Function.update am.vvNew nUBucket (insert nId (am.vvNew nUBucket)) }

/-- `max(0, nTime - nTimePenalty)`, as an `unsigned int`. -/
def penalized (nTime : UInt32) (nTimePenalty : Int64) : UInt32 :=
  toUnsigned (max 0 (toInt64 nTime - nTimePenalty))

/-- What `Add_` writes to an entry that is there: its time from time to time, and its services. -/
def refreshed (env : AddrEnv) (info : CAddrInfo) (addr : CAddress) (nTimePenalty : Int64) :
    CAddrInfo :=
  let fCurrentlyOnline := env.adjustedTime - toInt64 addr.nTime < 24 * 60 * 60
  let nUpdateInterval : Int64 := if fCurrentlyOnline then 60 * 60 else 24 * 60 * 60
  { info with
    nTime := if addr.nTime ≠ 0 ∧ (info.nTime = 0 ∨
        toInt64 info.nTime < toInt64 addr.nTime - nUpdateInterval - nTimePenalty) then
      penalized addr.nTime nTimePenalty else info.nTime
    nServices := info.nServices ||| addr.nServices }

/-- `Add_`, with its result. -/
def add_ (env : AddrEnv) (addr : CAddress) (source : CNetAddr) (nTimePenalty : Int64) :
    Option (Bool × CAddrMan) :=
  if !addr.isRoutable then some (false, am)
  else match am.find addr.toCNetAddr with
    | some (nId, info) =>
      let info := refreshed env info addr nTimePenalty
      let am := am.setInfo nId info
      if addr.nTime = 0 ∨ info.nTime ≠ 0 ∧ addr.nTime ≤ info.nTime then some (false, am)
      else if info.fInTried then some (false, am)
      else if info.nRefCount = ADDRMAN_NEW_BUCKETS_PER_ADDRESS then some (false, am)
      else
        let nFactor := 2 ^ info.nRefCount.toNat
        if 1 < nFactor ∧ getRandInt (env.rand 0) nFactor ≠ 0 then some (false, am)
        else (am.addRef env nId source).map fun am => (false, am)
    | none =>
      let (nId, am) := am.create { addr with nTime := penalized addr.nTime nTimePenalty } source
      ({ am with nNew := am.nNew + 1 }.addRef env nId source).map fun am => (true, am)

/-- `Attempt_`. -/
def attempt_ (addr : CService) (nTime : Int64) : CAddrMan :=
  match am.find addr.toCNetAddr with
  | none => am
  | some (nId, info) =>
    if info.toCService ≠ addr then am
    else am.setInfo nId { info with nLastTry := nTime, nAttempts := info.nAttempts + 1 }

/-- `Connected_`. -/
def connected_ (addr : CService) (nTime : Int64) : CAddrMan :=
  match am.find addr.toCNetAddr with
  | none => am
  | some (nId, info) =>
    if info.toCService ≠ addr then am
    else if 20 * 60 < nTime - toInt64 info.nTime then
      am.setInfo nId { info with nTime := toUnsigned nTime }
    else am

/-- The loop of `Select_` over buckets with entries, some rounds of it: it ends with an entry whose
chance comes true. `rand` is for the two numbers of a round, `chance` for the comparison with
`GetChance`. -/
def selectFrom {n : Nat} [NeZero n] (buckets : Fin n → List Int) (rand : Nat → Nat)
    (chance : Nat → CAddrInfo → Bool) : Nat → Nat → Option (Option CAddrInfo)
  | 0, _ => some none
  | rounds + 1, k =>
    let bucket := buckets (Fin.ofNat n (getRandInt (rand (2 * k)) n))
    if bucket.isEmpty then selectFrom buckets rand chance rounds (k + 1)
    else do
      let nId ← bucket[getRandInt (rand (2 * k + 1)) bucket.length]?
      let info ← am.mapInfo.lookup nId
      if chance k info then some (some info) else selectFrom buckets rand chance rounds (k + 1)

/-- `Select_`, for the outcome of its comparisons of floating-point numbers and a bound on the rounds
it takes: the address, if there is one by then. -/
def select_ (env : AddrEnv) (fTried : Bool) (chance : Nat → CAddrInfo → Bool) (rounds : Nat) :
    Option (Option CAddress) :=
  if am.vRandom.isEmpty then
    some (some ⟨⟨⟨List.replicate 16 0, rfl⟩, 0⟩, 1, 100000000, 0⟩)
  else
    (if fTried then am.selectFrom am.vvTried env.rand chance rounds 0
    else am.selectFrom (fun nUBucket => (am.vvNew nUBucket).sort) env.rand chance rounds 0).map
      (Option.map CAddrInfo.toCAddress)

/-- The loop of `GetAddr_` from `n` on. -/
def getAddrFrom (rand : Nat → Nat) : Nat → Nat → CAddrMan → List CAddress →
    Option (List CAddress × CAddrMan)
  | 0, _, am, vAddr => some (vAddr, am)
  | nNodes + 1, n, am, vAddr => do
    let am ← am.swapRandom n (getRandInt (rand n) (am.vRandom.length - n) + n)
    let nId ← am.vRandom[n]?
    let info ← am.mapInfo.lookup nId
    getAddrFrom rand nNodes (n + 1) am (vAddr ++ [info.toCAddress])

/-- How many addresses `GetAddr_` returns. -/
def nNodes : Nat := min (ADDRMAN_GETADDR_MAX_PCT * am.vRandom.length / 100) ADDRMAN_GETADDR_MAX

/-- `GetAddr_`, with the addresses. -/
def getAddr_ (env : AddrEnv) : Option (List CAddress × CAddrMan) :=
  getAddrFrom env.rand am.nNodes 0 am []

/-! ## The check -/

/-- The ids of a map, in order. -/
def ids : List Int := am.mapInfo.keys.toFinset.sort

/-- The first loop of `Check_`, over the entries: what it puts into `setTried` and `mapNew`, or an error
code. -/
def checkInfos : List Int → Finset Int × (AList fun _ : Int => Int) →
    Except Int (Finset Int × (AList fun _ : Int => Int))
  | [], sets => .ok sets
  | n :: ids, (setTried, mapNew) =>
    match am.mapInfo.lookup n with
    | none => checkInfos ids (setTried, mapNew)
    | some info => do
      let sets ←
        if info.fInTried then
          if info.nLastSuccess = 0 then .error (-1)
          else if info.nRefCount ≠ 0 then .error (-2)
          else .ok (insert n setTried, mapNew)
        else if info.nRefCount < 0 ∨ ADDRMAN_NEW_BUCKETS_PER_ADDRESS < info.nRefCount then .error (-3)
        else if info.nRefCount = 0 then .error (-4)
        else .ok (setTried, mapNew.insert n info.nRefCount)
      if (am.mapAddr.lookup info.toCNetAddr).getD 0 ≠ n then .error (-5)
      else if info.nRandomPos < 0 ∨ am.vRandom[info.nRandomPos.toNat]? ≠ some n then .error (-14)
      else if info.nLastTry < 0 then .error (-6)
      else if info.nLastSuccess < 0 then .error (-8)
      else checkInfos ids sets

/-- The loop of `Check_` over the tried buckets, with the ids one after the other. -/
def checkTried : List Int → Finset Int → Except Int (Finset Int)
  | [], setTried => .ok setTried
  | nId :: nIds, setTried =>
    if nId ∉ setTried then .error (-11) else checkTried nIds (setTried.erase nId)

/-- The loop of `Check_` over the new buckets, with the ids one after the other. -/
def checkNew : List Int → (AList fun _ : Int => Int) → Except Int (AList fun _ : Int => Int)
  | [], mapNew => .ok mapNew
  | nId :: nIds, mapNew =>
    match mapNew.lookup nId with
    | none => .error (-12)
    | some nRefCount =>
      checkNew nIds (if nRefCount - 1 = 0 then mapNew.erase nId else mapNew.insert nId (nRefCount - 1))

/-- `Check_`, as far as it comes without an error. -/
def checkAll : Except Int Unit := do
  if (am.vRandom.length : Int) ≠ am.nTried + am.nNew then .error (-7)
  else
    let (setTried, mapNew) ← am.checkInfos am.ids (∅, ∅)
    if (setTried.card : Int) ≠ am.nTried then .error (-9)
    else if (mapNew.keys.length : Int) ≠ am.nNew then .error (-10)
    else
      let setTried ← checkTried ((List.finRange ADDRMAN_TRIED_BUCKET_COUNT).flatMap am.vvTried) setTried
      let mapNew ← checkNew
        ((List.finRange ADDRMAN_NEW_BUCKET_COUNT).flatMap fun n => (am.vvNew n).sort) mapNew
      if setTried ≠ ∅ then .error (-13) else if mapNew.keys ≠ [] then .error (-15) else .ok ()

/-- `Check_`: an error code, or zero. -/
def check_ : Int :=
  match am.checkAll with
  | .error err => err
  | .ok _ => 0

end CAddrMan

/-! ## Runs -/

/-- A call of the manager. -/
inductive AddrManCall where
  | add (addr : CAddress) (source : CNetAddr) (nTimePenalty : Int64)
  | good (addr : CService) (nTime : Int64)
  | attempt (addr : CService) (nTime : Int64)
  | connected (addr : CService) (nTime : Int64)
  | select (fTried : Bool) (chance : Nat → CAddrInfo → Bool) (rounds : Nat)
  | getAddr

namespace CAddrMan

/-- What a call does; none where an assertion fails. -/
def call (am : CAddrMan) (env : AddrEnv) : AddrManCall → Option CAddrMan
  | .add addr source nTimePenalty => (am.add_ env addr source nTimePenalty).map Prod.snd
  | .good addr nTime => am.good_ env addr nTime
  | .attempt addr nTime => some (am.attempt_ addr nTime)
  | .connected addr nTime => some (am.connected_ addr nTime)
  | .select fTried chance rounds => (am.select_ env fTried chance rounds).map fun _ => am
  | .getAddr => (am.getAddr_ env).map Prod.snd

/-- Calls one after the other. -/
def run (am : CAddrMan) : List (AddrEnv × AddrManCall) → Option CAddrMan
  | [] => some am
  | (env, c) :: calls => (am.call env c).bind fun am => am.run calls

end CAddrMan

end MotaCoin
