import MotaCoin.Lib.KVStore
import MotaCoin.Primitives

/-!
# The transaction database

`CTxDB`: the committed records and, inside a database transaction, the write batch. A write inside
a transaction only grows the batch and cannot fail; `TxnCommit` applies the batch as a whole or not
at all; `TxnAbort` drops it. Reads scan the batch first.

## Main definitions

* `DbKey`, `CTxDB`: the records and the database
* `CTxDB.view`: the records as `Read` sees them
* `txnBegin`, `txnCommit`, `txnAbort`, `readTxIndex`, `updateTxIndex`, `eraseTxIndex`,
  `writeBlockIndex`, `writeHashBestChain`

## Main results

* `read_eq_view`: reads are consistent with the batch
* `view_write`, `view_erase`, `content_write_of_batch`: a write changes the view at its key, and
  inside a transaction not the committed records
-/

namespace MotaCoin

open KVStore (Store Op)

/-- The keys of the database that the chain state is kept under. -/
inductive DbKey where
  | tx (hash : Uint256)
  | blockindex (hash : Uint256)
  | hashBestChain
  | bnBestInvalidTrust
  | hashSyncCheckpoint
deriving DecidableEq

/-- The type of the record under a key. -/
@[reducible] def DbKey.Value : DbKey → Type
  | .tx _ => CTxIndex
  | .blockindex _ => CDiskBlockIndex
  | .hashBestChain => Uint256
  | .bnBestInvalidTrust => Uint256
  | .hashSyncCheckpoint => Uint256

/-- The transaction index: the record kept for each transaction id. -/
abbrev TxIndexMap := Uint256 → Option CTxIndex

/-- `CTxDB`: the committed records and the active batch. -/
structure CTxDB where
  content : Store DbKey DbKey.Value
  activeBatch : Option (List (Op DbKey DbKey.Value))

namespace CTxDB

variable (db : CTxDB)

/-- The records with the active batch applied. -/
def view : Store DbKey DbKey.Value := KVStore.applyOps db.content (db.activeBatch.getD [])

/-- `Read`: the batch first, then the committed records. -/
def read (k : DbKey) : Option k.Value :=
  match db.activeBatch with
  | some batch => KVStore.readThrough db.content batch k
  | none => db.content k

/-- A write: into the batch when there is one, else into the committed records. -/
def exec (op : Op DbKey DbKey.Value) : CTxDB :=
  match db.activeBatch with
  | some batch => { db with activeBatch := some (batch ++ [op]) }
  | none => { db with content := KVStore.applyOp db.content op }

/-- `TxnBegin`. -/
def txnBegin : CTxDB := { db with activeBatch := some [] }

/-- `TxnCommit`, with the answer `ok` of leveldb: the batch is applied as a whole or dropped. -/
def txnCommit (ok : Bool) : CTxDB :=
  { content := if ok then db.view else db.content, activeBatch := none }

/-- `TxnAbort`. -/
def txnAbort : CTxDB := { db with activeBatch := none }

/-- `ReadTxIndex`. -/
def readTxIndex (hash : Uint256) : Option CTxIndex := db.read (.tx hash)

/-- `UpdateTxIndex`. -/
def updateTxIndex (hash : Uint256) (txindex : CTxIndex) : CTxDB := db.exec (.put (.tx hash) txindex)

/-- `EraseTxIndex`. -/
def eraseTxIndex (hash : Uint256) : CTxDB := db.exec (.delete (.tx hash))

/-- `WriteBlockIndex`, under the hash of the index entry. -/
def writeBlockIndex (blockindex : CDiskBlockIndex) : CTxDB :=
  db.exec (.put (.blockindex blockindex.index.hash) blockindex)

/-- `WriteHashBestChain`. -/
def writeHashBestChain (hash : Uint256) : CTxDB := db.exec (.put .hashBestChain hash)

/-- `WriteBestInvalidTrust`, by a database object of its own that has no batch. -/
def writeBestInvalidTrust (nTrust : Uint256) : CTxDB :=
  { db with content := KVStore.applyOp db.content (.put .bnBestInvalidTrust nTrust) }

/-- The transaction index a reader sees. -/
def txIndex : TxIndexMap := fun hash => db.view (.tx hash)

/-- The committed transaction index. -/
def committedTxIndex : TxIndexMap := fun hash => db.content (.tx hash)

/-! ## Reads and writes in terms of the view -/

/-- **Reads are consistent with the batch.** -/
theorem read_eq_view (k : DbKey) : db.read k = db.view k := by
  unfold read view
  cases db.activeBatch with
  | none => rfl
  | some batch => exact KVStore.readThrough_eq db.content batch k

@[simp] theorem readTxIndex_eq (hash : Uint256) : db.readTxIndex hash = db.txIndex hash :=
  db.read_eq_view _

theorem view_exec (op : Op DbKey DbKey.Value) : (db.exec op).view = KVStore.applyOp db.view op := by
  unfold exec view
  cases h : db.activeBatch with
  | none => rfl
  | some batch => simp

/-- Inside a transaction a write leaves the committed records alone. -/
theorem content_exec_of_batch (op : Op DbKey DbKey.Value) (h : db.activeBatch.isSome) :
    (db.exec op).content = db.content := by
  unfold exec
  cases hb : db.activeBatch with
  | none => rw [hb] at h; cases h
  | some batch => rfl

@[simp] theorem isSome_activeBatch_exec (op : Op DbKey DbKey.Value) :
    (db.exec op).activeBatch.isSome = db.activeBatch.isSome := by
  unfold exec
  cases h : db.activeBatch with
  | none => rfl
  | some batch => rfl

/-- Inside a transaction, the committed records are as before and the transaction is still on. -/
def InBatch (db db' : CTxDB) : Prop :=
  db.activeBatch.isSome → db'.activeBatch.isSome ∧ db'.content = db.content

theorem InBatch.refl (db : CTxDB) : InBatch db db := fun h => ⟨h, rfl⟩

theorem InBatch.trans {db db' db'' : CTxDB} (h : InBatch db db') (h' : InBatch db' db'') :
    InBatch db db'' := fun hb =>
  ⟨(h' (h hb).1).1, (h' (h hb).1).2.trans (h hb).2⟩

/-- A write inside a transaction stays in the batch. -/
theorem inBatch_exec (op : Op DbKey DbKey.Value) : InBatch db (db.exec op) := fun hb =>
  ⟨(db.isSome_activeBatch_exec op).trans hb, db.content_exec_of_batch op hb⟩

@[simp] theorem content_txnBegin : db.txnBegin.content = db.content := rfl

@[simp] theorem view_txnBegin : db.txnBegin.view = db.content := rfl

@[simp] theorem content_txnAbort : db.txnAbort.content = db.content := rfl

@[simp] theorem txIndex_updateTxIndex (hash : Uint256) (txindex : CTxIndex) :
    (db.updateTxIndex hash txindex).txIndex = Function.update db.txIndex hash (some txindex) := by
  funext h
  simp only [txIndex, updateTxIndex, view_exec, KVStore.applyOp]
  by_cases hh : h = hash
  · subst hh
    simp
  · rw [Function.update_of_ne hh, Function.update_of_ne (by simpa using hh)]
    rfl

@[simp] theorem txIndex_eraseTxIndex (hash : Uint256) :
    (db.eraseTxIndex hash).txIndex = Function.update db.txIndex hash none := by
  funext h
  simp only [txIndex, eraseTxIndex, view_exec, KVStore.applyOp]
  by_cases hh : h = hash
  · subst hh
    simp
  · rw [Function.update_of_ne hh, Function.update_of_ne (by simpa using hh)]
    rfl

@[simp] theorem txIndex_writeBlockIndex (blockindex : CDiskBlockIndex) :
    (db.writeBlockIndex blockindex).txIndex = db.txIndex := by
  funext h
  simp only [txIndex, writeBlockIndex, view_exec, KVStore.applyOp]
  rw [Function.update_of_ne (by simp)]

@[simp] theorem txIndex_writeHashBestChain (hash : Uint256) :
    (db.writeHashBestChain hash).txIndex = db.txIndex := by
  funext h
  simp only [txIndex, writeHashBestChain, view_exec, KVStore.applyOp]
  rw [Function.update_of_ne (by simp)]

@[simp] theorem view_writeHashBestChain (hash : Uint256) :
    (db.writeHashBestChain hash).view .hashBestChain = some hash := by
  simp [writeHashBestChain, view_exec, KVStore.applyOp]

end CTxDB

end MotaCoin
