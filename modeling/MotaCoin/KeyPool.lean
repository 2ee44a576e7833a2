import MotaCoin.Script
import Mathlib.Data.Finset.Max

/-!
# The key pool

`setKeyPool` with the records of the wallet database behind it, and `CReserveKey`, whose holders
take keys out and keep or return them. An index is taken out of the set when it is reserved, and its
record stays until it is kept.

## Main definitions

* `KeyPoolEnv`: the keys that are generated, which records are written, and `-keypool`
* `PoolWallet`, with `newKeyPool`, `topUpKeyPool`, `reserveKeyFromKeyPool`, `keepKey`, `returnKey`
* `KeyPoolRun`, `PoolCall`, `KeyPoolRun.call`, `KeyPoolRun.run`: the holders and what they do
* `KeyPoolRun.PoolSafe`: what is asked of a key pool
-/

namespace MotaCoin

/-- What the key pool finds outside of it. -/
structure KeyPoolEnv where
  /-- What `GenerateNewKey` returns when it is called for the `n`-th time. -/
  generateNewKey : Nat → Valtype
  /-- Whether the record of that key is written. -/
  fWritten : Nat → Bool
  /-- `GetArg("-keypool", 100)`. -/
  keyPoolArg : Int

/-- What the key pool needs of a wallet. -/
structure PoolWallet where
  setKeyPool : Finset Int
  /-- The pool records of the wallet database. -/
  records : Int → Option Valtype
  /-- `IsLocked()`. -/
  fLocked : Bool
  vchDefaultKey : Valtype
  /-- The keys that `HaveKey` knows. -/
  keys : List Valtype
  /-- How often `GenerateNewKey` was called. -/
  nGenerated : Nat

/-- `CPubKey::IsValid`. -/
def isValidPubKey (vchPubKey : Valtype) : Bool := vchPubKey.length == 33 || vchPubKey.length == 65

namespace PoolWallet

variable (env : KeyPoolEnv)

/-- `walletdb.WritePool(nIndex, CKeyPool(GenerateNewKey()))`, with its result. -/
def writeNewKey (nIndex : Int) (w : PoolWallet) : Bool × PoolWallet :=
  let vchPubKey := env.generateNewKey w.nGenerated
  let fWritten := env.fWritten w.nGenerated
  (fWritten,
    { w with
      records := if fWritten then Function.update w.records nIndex (some vchPubKey) else w.records
      keys := vchPubKey :: w.keys
      nGenerated := w.nGenerated + 1 })

/-- `setKeyPool.insert(nIndex)`. -/
def insertIndex (nIndex : Int) (w : PoolWallet) : PoolWallet :=
  { w with setKeyPool := insert nIndex w.setKeyPool }

/-- `walletdb.ErasePool(nIndex)`. -/
def erasePool (nIndex : Int) (w : PoolWallet) : PoolWallet :=
  { w with records := Function.update w.records nIndex none }

/-- The loop of `NewKeyPool`; whether a record is written is not looked at. -/
def newKeyLoop : List Nat → PoolWallet → PoolWallet
  | [], w => w
  | i :: is, w => newKeyLoop is ((w.writeNewKey env (i + 1)).2.insertIndex (i + 1))

/-- The first lines of `NewKeyPool`: the indices of the set are erased, with their records. -/
def clearPool (w : PoolWallet) : PoolWallet :=
  { w with
    setKeyPool := ∅
    records := fun nIndex => if nIndex ∈ w.setKeyPool then none else w.records nIndex }

/-- `NewKeyPool`. -/
def newKeyPool (w : PoolWallet) : PoolWallet :=
  let w := w.clearPool
  if w.fLocked then w
  else
    let nKeys := (max env.keyPoolArg 0).toNat
    newKeyLoop env (List.range nKeys) w

/-- `nEnd` of `TopUpKeyPool`: one past the largest index of the set. -/
def nEnd (w : PoolWallet) : Int :=
  if h : w.setKeyPool.Nonempty then w.setKeyPool.max' h + 1 else 1

/-- `n` rounds of the loop of `TopUpKeyPool`, each of which adds an index; it throws where a record
is not written. -/
def topUpLoop : Nat → PoolWallet → Bool × PoolWallet
  | 0, w => (true, w)
  | n + 1, w =>
    let nEnd := w.nEnd
    match w.writeNewKey env nEnd with
    | (false, w) => (false, w)
    | (true, w) => topUpLoop n (w.insertIndex nEnd)

/-- How many indices `TopUpKeyPool` adds: the size it aims at is an `unsigned int`. -/
def topUpRounds (nSize : Nat) (w : PoolWallet) : Nat :=
  let nTargetSize := if 0 < nSize then nSize else (max env.keyPoolArg 0).toNat % 2 ^ 32
  (nTargetSize + 1) % 2 ^ 32 - w.setKeyPool.card

/-- `TopUpKeyPool`, and whether it did not throw. -/
def topUpKeyPool (nSize : Nat) (w : PoolWallet) : Bool × PoolWallet :=
  if w.fLocked then (true, w) else topUpLoop env (w.topUpRounds env nSize) w

/-- What `ReserveKeyFromKeyPool` comes to. -/
inductive Reserved where
  /-- The pool is empty: `nIndex` is `-1`. -/
  | none
  /-- `nIndex`, with the key of its record. -/
  | key (nIndex : Int) (vchPubKey : Valtype)
  /-- It throws, or an assertion fails, with `nIndex` as it is then. -/
  | threw (nIndex : Int)
  deriving DecidableEq, Repr

/-- The part of `ReserveKeyFromKeyPool` after the pool is topped up. -/
def takeOldest (w : PoolWallet) : Reserved × PoolWallet :=
  if h : w.setKeyPool.Nonempty then
    let nIndex := w.setKeyPool.min' h
    let w := { w with setKeyPool := w.setKeyPool.erase nIndex }
    match w.records nIndex with
    | none => (.threw nIndex, w)
    | some vchPubKey =>
      if !w.keys.contains vchPubKey then (.threw nIndex, w)
      else if !isValidPubKey vchPubKey then (.threw nIndex, w)
      else (.key nIndex vchPubKey, w)
  else (.none, w)

/-- `ReserveKeyFromKeyPool`. -/
def reserveKeyFromKeyPool (w : PoolWallet) : Reserved × PoolWallet :=
  if !w.fLocked then
    match w.topUpKeyPool env 0 with
    | (false, w) => (.threw (-1), w)
    | (true, w) => w.takeOldest
  else w.takeOldest

end PoolWallet

/-! ## Holders -/

/-- `CReserveKey`. -/
structure CReserveKey where
  nIndex : Int
  vchPubKey : Valtype
  deriving DecidableEq, Repr

/-- `CReserveKey(pwallet)`, and what `KeepKey` and `ReturnKey` leave. -/
def CReserveKey.none : CReserveKey := ⟨-1, []⟩

/-- What is seen of the key pool. -/
inductive PoolEvent where
  /-- A caller is given a key. -/
  | handedOut (vchPubKey : Valtype)
  /-- `KeepKey` is called for the index of a key. -/
  | kept (vchPubKey : Valtype)
  /-- A call throws, or an assertion fails. -/
  | threw
  deriving DecidableEq, Repr

/-- A wallet, all `CReserveKey` there are, and what was seen so far. -/
structure KeyPoolRun where
  wallet : PoolWallet
  holders : Nat → CReserveKey
  log : List PoolEvent

/-- The calls. -/
inductive PoolCall where
  | newKeyPool
  | topUpKeyPool (nSize : Nat)
  /-- `GetReservedKey` of a holder. -/
  | getReservedKey (h : Nat)
  /-- `KeepKey` of a holder. -/
  | keepKey (h : Nat)
  /-- `ReturnKey` of a holder, also called when it is destroyed. -/
  | returnKey (h : Nat)
  | getKeyFromPool (fAllowReuse : Bool)
  /-- The wallet is locked or unlocked. -/
  | setLocked (fLocked : Bool)
  deriving DecidableEq, Repr

namespace KeyPoolRun

variable (env : KeyPoolEnv)

/-- Something is seen. -/
def seen (st : KeyPoolRun) (events : List PoolEvent) : KeyPoolRun :=
  { st with log := st.log ++ events }

/-- A holder changes. -/
def setHolder (st : KeyPoolRun) (h : Nat) (key : CReserveKey) : KeyPoolRun :=
  { st with holders := Function.update st.holders h key }

/-- `assert(vchPubKey.IsValid()); return vchPubKey;` of a holder. -/
def returnReserved (st : KeyPoolRun) (vchPubKey : Valtype) : KeyPoolRun :=
  st.seen [if isValidPubKey vchPubKey then .handedOut vchPubKey else .threw]

/-- `CReserveKey::GetReservedKey`. -/
def getReservedKey (h : Nat) (st : KeyPoolRun) : KeyPoolRun :=
  if (st.holders h).nIndex = -1 then
    match st.wallet.reserveKeyFromKeyPool env with
    | (.none, w) =>
      let vchPubKey := w.vchDefaultKey
      ({ st with wallet := w }.setHolder h ⟨-1, vchPubKey⟩).returnReserved vchPubKey
    | (.key nIndex vchPubKey, w) =>
      ({ st with wallet := w }.setHolder h ⟨nIndex, vchPubKey⟩).returnReserved vchPubKey
    | (.threw nIndex, w) =>
      ({ st with wallet := w }.setHolder h { st.holders h with nIndex := nIndex }).seen [.threw]
  else st.returnReserved (st.holders h).vchPubKey

/-- `CReserveKey::KeepKey`. -/
def keepKey (h : Nat) (st : KeyPoolRun) : KeyPoolRun :=
  let key := st.holders h
  if key.nIndex = -1 then st.setHolder h .none
  else
    ({ st with wallet := st.wallet.erasePool key.nIndex }.setHolder h .none).seen
      [.kept key.vchPubKey]

/-- `CReserveKey::ReturnKey`. -/
def returnKey (h : Nat) (st : KeyPoolRun) : KeyPoolRun :=
  let key := st.holders h
  if key.nIndex = -1 then st.setHolder h .none
  else { st with wallet := st.wallet.insertIndex key.nIndex }.setHolder h .none

/-- `GetKeyFromPool`. -/
def getKeyFromPool (fAllowReuse : Bool) (st : KeyPoolRun) : KeyPoolRun :=
  match st.wallet.reserveKeyFromKeyPool env with
  | (.none, w) =>
    if fAllowReuse && isValidPubKey w.vchDefaultKey then
      { st with wallet := w }.seen [.handedOut w.vchDefaultKey]
    else if w.fLocked then { st with wallet := w }
    else
      let vchPubKey := env.generateNewKey w.nGenerated
      let w := { w with keys := vchPubKey :: w.keys, nGenerated := w.nGenerated + 1 }
      { st with wallet := w }.seen [.handedOut vchPubKey]
  | (.key nIndex vchPubKey, w) =>
    { st with wallet := w.erasePool nIndex }.seen [.handedOut vchPubKey, .kept vchPubKey]
  | (.threw _, w) => { st with wallet := w }.seen [.threw]

/-- One call. -/
def call (st : KeyPoolRun) : PoolCall → KeyPoolRun
  | .newKeyPool => { st with wallet := st.wallet.newKeyPool env }
  | .topUpKeyPool nSize =>
    let r := st.wallet.topUpKeyPool env nSize
    { st with wallet := r.2 }.seen (if r.1 then [] else [.threw])
  | .getReservedKey h => st.getReservedKey env h
  | .keepKey h => st.keepKey h
  | .returnKey h => st.returnKey h
  | .getKeyFromPool fAllowReuse => st.getKeyFromPool env fAllowReuse
  | .setLocked fLocked => { st with wallet := { st.wallet with fLocked := fLocked } }

/-- A run of calls, in the order in which they take the lock. -/
def run (st : KeyPoolRun) (calls : List PoolCall) : KeyPoolRun := calls.foldl (fun st c => st.call env c) st

/-- What is asked of a key pool: every index of the set has a record, no two holders have one index,
and a key that was kept is not handed out after that. -/
structure PoolSafe (st : KeyPoolRun) : Prop where
  recorded : ∀ nIndex ∈ st.wallet.setKeyPool, st.wallet.records nIndex ≠ none
  distinct : ∀ h h', (st.holders h).nIndex ≠ -1 →
    (st.holders h).nIndex = (st.holders h').nIndex → h = h'
  fresh : ∀ l₁ vchPubKey l₂, st.log = l₁ ++ .handedOut vchPubKey :: l₂ → .kept vchPubKey ∉ l₁

/-- A wallet as it is loaded: the set is the indices of the records, whose keys are known, valid and
different; nothing is reserved yet. -/
structure Loaded (st : KeyPoolRun) : Prop where
  setKeyPool : ∀ nIndex, nIndex ∈ st.wallet.setKeyPool ↔ st.wallet.records nIndex ≠ none
  pos : ∀ nIndex ∈ st.wallet.setKeyPool, 0 < nIndex
  record : ∀ nIndex vchPubKey, st.wallet.records nIndex = some vchPubKey →
    vchPubKey ∈ st.wallet.keys ∧ isValidPubKey vchPubKey = true ∧ vchPubKey ≠ st.wallet.vchDefaultKey
  record_inj : ∀ i j, st.wallet.records i ≠ none → st.wallet.records i = st.wallet.records j → i = j
  holders : st.holders = fun _ => .none
  log : st.log = []

end KeyPoolRun

/-- The keys up to the `n`-th that are generated are valid, and different from each other and from
those there are. -/
structure KeyPoolEnv.Fresh (env : KeyPoolEnv) (w : PoolWallet) (n : Nat) : Prop where
  ne : ∀ i j, w.nGenerated ≤ i → i < j → j < n → env.generateNewKey i ≠ env.generateNewKey j
  isValid : ∀ i, w.nGenerated ≤ i → i < n → isValidPubKey (env.generateNewKey i) = true
  not_mem : ∀ i, w.nGenerated ≤ i → i < n → env.generateNewKey i ∉ w.keys
  ne_default : ∀ i, w.nGenerated ≤ i → i < n → env.generateNewKey i ≠ w.vchDefaultKey

end MotaCoin
