import MotaCoin.TxDB

/-!
# The database below its records

`CTxDB` as it stands on leveldb: keys and values are serialized streams, a read replays the pending
batch with a scanner before it asks leveldb, and `Read` and `Exists` each have their own logic over
what the scanner says.

## Main definitions

* `Codec`, `RawTxDB`: serialization, and the database over serialized keys and values
* `CBatchScanner`, `scanBatch`: the replay of the batch
* `read`, `existsKey`, `write`, `erase`, `txnBegin`, `txnCommit`, `txnAbort`
* `Call`, `run`: a sequence of `Write` and `Erase` calls
* `Consistent`: the database answers as the content with the calls applied

## Main results

* `scanBatch_spec`: the scanner finds the last write at the key
* `read_eq`, `existsKey_eq`: what `Read` and `Exists` answer inside a transaction
* `consistent_iff_erase_absent`: the database is consistent at every point of a sequence of calls
  iff no call erases a key of the committed content
-/

namespace MotaCoin

open KVStore (Store Op)

/-- The bytes of a `CDataStream`. -/
abbrev Bytes := List UInt8

/-- How the values of a type are put on a stream and read back. -/
structure Codec (α : Type) where
  serialize : α → Bytes
  unserialize : Bytes → Option α
  unserialize_serialize : ∀ a, unserialize (serialize a) = some a

/-- The content of leveldb. -/
abbrev RawStore := Store Bytes fun _ => Bytes

/-- One entry of a leveldb `WriteBatch`. -/
abbrev RawOp := Op Bytes fun _ => Bytes

/-- The kinds of `leveldb::Status` the code tells apart. -/
inductive Status where
  | ok
  | notFound
  | failure
deriving DecidableEq

/-- `leveldb::DB::Get`. -/
def RawStore.get (content : RawStore) (key : Bytes) : Status × Bytes :=
  match content key with
  | some value => (.ok, value)
  | none => (.notFound, [])

/-! ## The scanner -/

/-- `CBatchScanner`, with the two variables it points to. -/
structure CBatchScanner where
  needle : Bytes
  deleted : Bool
  foundValue : Bytes
  foundEntry : Bool

namespace CBatchScanner

/-- `Put` and `Delete` of the scanner. -/
def handle (scanner : CBatchScanner) : RawOp → CBatchScanner
  | .put key value =>
    if key = scanner.needle then
      { scanner with foundEntry := true, deleted := false, foundValue := value }
    else scanner
  | .delete key =>
    -- a deletion leaves the value of an earlier put in `foundValue`
    if key = scanner.needle then { scanner with foundEntry := true, deleted := true } else scanner

/-- `WriteBatch::Iterate`: the handler is given the entries in order. -/
def iterate (scanner : CBatchScanner) (batch : List RawOp) : CBatchScanner :=
  batch.foldl handle scanner

/-- What the scanner knows about its needle. -/
def told (scanner : CBatchScanner) : Option (Option Bytes) :=
  if scanner.foundEntry then
    some (if scanner.deleted then none else some scanner.foundValue)
  else none

@[simp] theorem needle_handle (scanner : CBatchScanner) (op : RawOp) :
    (scanner.handle op).needle = scanner.needle := by
  cases op <;> simp only [handle] <;> split <;> rfl

theorem told_handle (scanner : CBatchScanner) (op : RawOp) :
    (scanner.handle op).told = (op.at scanner.needle).or scanner.told := by
  cases op with
  | put key value =>
    by_cases h : key = scanner.needle <;> simp [handle, Op.at, told, h]
  | delete key =>
    by_cases h : key = scanner.needle <;> simp [handle, Op.at, told, h]

/-- The scanner knows the last entry at its needle, and else what it knew before. -/
theorem told_iterate (scanner : CBatchScanner) (batch : List RawOp) :
    (scanner.iterate batch).told = (KVStore.scan scanner.needle batch).or scanner.told := by
  induction batch generalizing scanner with
  | nil => rfl
  | cons op batch ih =>
    have hstep : scanner.iterate (op :: batch) = (scanner.handle op).iterate batch := rfl
    rw [hstep, ih, needle_handle, told_handle, KVStore.scan, Option.or_assoc]

/-- A scanner that says deleted has found an entry. -/
theorem foundEntry_iterate_of_deleted (scanner : CBatchScanner) (batch : List RawOp)
    (h : scanner.deleted = true → scanner.foundEntry = true) :
    (scanner.iterate batch).deleted = true → (scanner.iterate batch).foundEntry = true := by
  induction batch generalizing scanner with
  | nil => exact h
  | cons op batch ih =>
    apply ih (scanner.handle op)
    cases op <;> simp only [handle] <;> split <;> simp_all

end CBatchScanner

/-- `ScanBatch` on a value string: whether an entry was found, the string, and `deleted`. -/
def scanBatch (batch : List RawOp) (key value : Bytes) : Bool × Bytes × Bool :=
  let scanner := CBatchScanner.iterate ⟨key, false, value, false⟩ batch
  (scanner.foundEntry, scanner.foundValue, scanner.deleted)

/-- **The scanner finds the last write at the key.** -/
theorem scanBatch_spec (batch : List RawOp) (key value : Bytes) :
    match KVStore.scan key batch with
    | none => (scanBatch batch key value).1 = false ∧ (scanBatch batch key value).2.2 = false
    | some none => (scanBatch batch key value).1 = true ∧ (scanBatch batch key value).2.2 = true
    | some (some v) => scanBatch batch key value = (true, v, false) := by
  have htold := CBatchScanner.told_iterate ⟨key, false, value, false⟩ batch
  have hfound := CBatchScanner.foundEntry_iterate_of_deleted ⟨key, false, value, false⟩ batch
    (by simp)
  simp only [scanBatch]
  generalize CBatchScanner.iterate ⟨key, false, value, false⟩ batch = scanner at htold hfound
  rw [show CBatchScanner.told ⟨key, false, value, false⟩ = none from rfl, Option.or_none] at htold
  rcases scanner with ⟨needle, deleted, foundValue, foundEntry⟩
  rcases hs : KVStore.scan key batch with _ | _ | v
  all_goals
    rw [hs] at htold
    cases deleted <;> cases foundEntry <;> simp_all [CBatchScanner.told]

/-! ## The database -/

/-- `CTxDB` over serialized keys and values. -/
structure RawTxDB where
  content : RawStore
  activeBatch : Option (List RawOp)
  fReadOnly : Bool

namespace RawTxDB

variable (db : RawTxDB) {K T : Type} (cK : Codec K) (cT : Codec T)

/-- The read from leveldb that ends `Read`: a status other than `ok` fails the read. -/
def readFromDb (ssKey : Bytes) : Option Bytes :=
  match db.content.get ssKey with
  | (.ok, strValue) => some strValue
  | (.notFound, _) => none
  | (.failure, _) => none

/-- `Read`: the batch first, then leveldb, then the value is unserialized. -/
def read (key : K) : Option T :=
  let ssKey := cK.serialize key
  match db.activeBatch with
  | some batch =>
    let (found, strValue, deleted) := scanBatch batch ssKey []
    if deleted then none
    else if found then cT.unserialize strValue
    else (db.readFromDb ssKey).bind cT.unserialize
  | none => (db.readFromDb ssKey).bind cT.unserialize

/-- `Exists`: a found entry that is not a deletion answers, everything else is left to leveldb. -/
def existsKey (key : K) : Bool :=
  let ssKey := cK.serialize key
  let fromDb := decide ((db.content.get ssKey).1 ≠ .notFound)
  match db.activeBatch with
  | some batch =>
    let (found, _, deleted) := scanBatch batch ssKey []
    if found && !deleted then true else fromDb
  | none => fromDb

/-- A leveldb entry put into the batch when there is one, else applied to the content. -/
def put (op : RawOp) : RawTxDB :=
  match db.activeBatch with
  | some batch => { db with activeBatch := some (batch ++ [op]) }
  | none => { db with content := KVStore.applyOp db.content op }

/-- `Write`; `none` is the failed assertion of a read-only database. -/
def write (key : K) (value : T) : Option RawTxDB :=
  if db.fReadOnly then none else some (db.put (.put (cK.serialize key) (cT.serialize value)))

/-- `Erase`; `none` is the failed assertion of a read-only database. -/
def erase (key : K) : Option RawTxDB :=
  if db.fReadOnly then none else some (db.put (.delete (cK.serialize key)))

/-- `TxnBegin`; `none` is the failed assertion that no batch is active. -/
def txnBegin : Option RawTxDB :=
  match db.activeBatch with
  | some _ => none
  | none => some { db with activeBatch := some [] }

/-- `TxnCommit` with the status `ok` of leveldb; `none` is the failed assertion that a batch is
active. Leveldb applies a batch in order, as a whole or not at all. -/
def txnCommit (ok : Bool) : Option (Bool × RawTxDB) :=
  match db.activeBatch with
  | none => none
  | some batch =>
    let content := if ok then KVStore.applyOps db.content batch else db.content
    some (ok, { db with content := content, activeBatch := none })

/-- `TxnAbort`. -/
def txnAbort : RawTxDB := { db with activeBatch := none }

/-! ## Sequences of calls -/

/-- One call of `Write` or `Erase`, on keys and values of any type. -/
inductive Call : Type 1 where
  | write {K T : Type} (cK : Codec K) (cT : Codec T) (key : K) (value : T)
  | erase {K : Type} (cK : Codec K) (key : K)

/-- The change of the content a call stands for. -/
def Call.op : Call → RawOp
  | .write cK cT key value => .put (cK.serialize key) (cT.serialize value)
  | .erase cK key => .delete (cK.serialize key)

/-- One call on the database. -/
def call : Call → Option RawTxDB
  | .write cK cT key value => db.write cK cT key value
  | .erase cK key => db.erase cK key

/-- The calls in order, on a database that may refuse them. -/
def run (db : RawTxDB) : List Call → Option RawTxDB
  | [] => some db
  | c :: calls => (db.call c).bind fun db' => db'.run calls

/-- The content with the calls applied in order. -/
def applyCalls (content : RawStore) (calls : List Call) : RawStore :=
  KVStore.applyOps content (calls.map Call.op)

/-- The database `db` answers as `content` with the calls applied, commits that and aborts to
`content`. -/
structure Consistent (content : RawStore) (calls : List Call) (db : RawTxDB) : Prop where
  read : ∀ {K T : Type} (cK : Codec K) (cT : Codec T) (key : K) (value : T),
    db.read cK cT key = some value ↔
      ∃ s, applyCalls content calls (cK.serialize key) = some s ∧ cT.unserialize s = some value
  existsKey : ∀ {K : Type} (cK : Codec K) (key : K),
    db.existsKey cK key = true ↔ (applyCalls content calls (cK.serialize key)).isSome = true
  commit : ∃ db', db.txnCommit true = some (true, db') ∧ db'.content = applyCalls content calls
  abort : db.txnAbort.content = content

/-! ## What the database answers inside a transaction -/

theorem readFromDb_eq (ssKey : Bytes) : db.readFromDb ssKey = db.content ssKey := by
  unfold readFromDb RawStore.get
  cases db.content ssKey <;> rfl

theorem decide_get_ne_notFound (content : RawStore) (key : Bytes) :
    decide ((content.get key).1 ≠ .notFound) = (content key).isSome := by
  unfold RawStore.get
  cases content key <;> rfl

variable {db} {batch : List RawOp}

/-- `Read` gives what the content holds with the batch applied. -/
theorem read_eq (hbatch : db.activeBatch = some batch) (key : K) :
    db.read cK cT key =
      (KVStore.applyOps db.content batch (cK.serialize key)).bind cT.unserialize := by
  have hscan := scanBatch_spec batch (cK.serialize key) []
  rw [← KVStore.readThrough_eq]
  simp only [RawTxDB.read, hbatch, KVStore.readThrough]
  rcases hs : KVStore.scan (cK.serialize key) batch with _ | _ | v
  · -- no entry of the batch is at the key: leveldb answers
    rw [hs] at hscan
    simp [hscan.1, hscan.2, readFromDb_eq]
  · rw [hs] at hscan
    simp [hscan.2]
  · rw [hs] at hscan
    simp [hscan]

/-- `Exists` gives what the content holds with the batch applied, unless the last entry at the key
is a deletion: then it gives what the content holds without the batch. -/
theorem existsKey_eq (hbatch : db.activeBatch = some batch) (key : K) :
    db.existsKey cK key =
      if KVStore.scan (cK.serialize key) batch = some none then
        (db.content (cK.serialize key)).isSome
      else (KVStore.applyOps db.content batch (cK.serialize key)).isSome := by
  have hscan := scanBatch_spec batch (cK.serialize key) []
  rw [← KVStore.readThrough_eq]
  simp only [RawTxDB.existsKey, hbatch, KVStore.readThrough, decide_get_ne_notFound]
  rcases hs : KVStore.scan (cK.serialize key) batch with _ | _ | v
  · rw [hs] at hscan
    simp [hscan.1]
  · -- the deletion is found, but the answer is left to leveldb, which does not know of it
    rw [hs] at hscan
    simp [hscan.1, hscan.2]
  · rw [hs] at hscan
    simp [hscan]

/-! ## Runs of calls -/

theorem call_eq (hbatch : db.activeBatch = some batch) (hrw : db.fReadOnly = false) (c : Call) :
    db.call c = some { db with activeBatch := some (batch ++ [c.op]) } := by
  cases c <;> simp [call, write, erase, put, Call.op, hbatch, hrw]

/-- Inside a transaction a sequence of calls only grows the batch. -/
theorem run_eq (hbatch : db.activeBatch = some batch) (hrw : db.fReadOnly = false)
    (calls : List Call) :
    db.run calls = some { db with activeBatch := some (batch ++ calls.map Call.op) } := by
  induction calls generalizing db batch with
  | nil => simp [run, ← hbatch]
  | cons c calls ih =>
    rw [run, call_eq hbatch hrw, Option.bind_some]
    have hrest := @ih { db with activeBatch := some (batch ++ [c.op]) } (batch ++ [c.op]) rfl hrw
    simpa using hrest

/-- The batch has the deletion of a key as its last entry there only when a call erased it. -/
theorem exists_erase_of_scan {calls : List Call} {ssKey : Bytes}
    (h : KVStore.scan ssKey (calls.map Call.op) = some none) :
    ∃ (K : Type) (cK : Codec K) (key : K), Call.erase cK key ∈ calls ∧ cK.serialize key = ssKey := by
  induction calls with
  | nil => simp [KVStore.scan] at h
  | cons c calls ih =>
    rw [List.map_cons, KVStore.scan, Option.or_eq_some_iff] at h
    rcases h with h | ⟨-, h⟩
    · obtain ⟨K, cK, key, hmem, heq⟩ := ih h
      exact ⟨K, cK, key, List.mem_cons_of_mem _ hmem, heq⟩
    · cases c with
      | write cK cT key value =>
        simp only [Call.op, Op.at] at h
        split at h <;> simp at h
      | erase cK key =>
        simp only [Call.op, Op.at] at h
        split at h
        · exact ⟨_, cK, key, List.mem_cons_self, ‹_›⟩
        · simp at h

theorem scan_append_delete (ops : List RawOp) (ssKey : Bytes) :
    KVStore.scan ssKey (ops ++ [.delete ssKey]) = some none := by
  induction ops with
  | nil => simp [KVStore.scan, Op.at]
  | cons op ops ih => simp [KVStore.scan, ih]

/-- The database after the calls, in a transaction begun on `content`. -/
def pending (content : RawStore) (calls : List Call) : RawTxDB :=
  ⟨content, some (calls.map Call.op), false⟩

/-- `Exists` is right at every key iff the batch deletes no key that the content holds. -/
theorem consistent_pending_iff (content : RawStore) (calls : List Call) :
    Consistent content calls (pending content calls) ↔
      ∀ {K : Type} (cK : Codec K) (key : K),
        KVStore.scan (cK.serialize key) (calls.map Call.op) = some none →
        content (cK.serialize key) = none := by
  have hbatch : (pending content calls).activeBatch = some (calls.map Call.op) := rfl
  constructor
  · intro h K cK key hscan
    have hexists := h.existsKey cK key
    have habsent : applyCalls content calls (cK.serialize key) = none := by
      rw [applyCalls, ← KVStore.readThrough_eq, KVStore.readThrough, hscan]
      rfl
    rw [existsKey_eq cK hbatch, if_pos hscan, habsent] at hexists
    simpa [pending] using hexists
  · intro h
    refine ⟨fun cK cT key value => ?_, fun cK key => ?_, ⟨_, rfl, rfl⟩, rfl⟩
    · rw [read_eq cK cT hbatch, Option.bind_eq_some_iff]
      rfl
    · rw [existsKey_eq cK hbatch]
      split
      case isTrue hscan =>
        have habsent := h cK key hscan
        rw [applyCalls, ← KVStore.readThrough_eq, KVStore.readThrough, hscan]
        simp [pending, habsent]
      case isFalse => rfl

/-- **`Read`, `Exists`, `TxnCommit` and `TxnAbort` follow the calls made so far, at every point of a
transaction, iff no call erases a key of the committed content.** -/
theorem consistent_iff_erase_absent (db : RawTxDB) (calls : List Call)
    (hbatch : db.activeBatch = none) (hrw : db.fReadOnly = false) :
    (∀ calls', calls' <+: calls →
        ∃ db', (db.txnBegin.bind fun db₀ => db₀.run calls') = some db' ∧
          Consistent db.content calls' db') ↔
      ∀ {K : Type} (cK : Codec K) (key : K),
        Call.erase cK key ∈ calls → db.content (cK.serialize key) = none := by
  have hrun : ∀ calls', (db.txnBegin.bind fun db₀ => db₀.run calls') =
      some (pending db.content calls') := by
    intro calls'
    have hbegin : db.txnBegin = some ⟨db.content, some [], false⟩ := by
      simp [txnBegin, hbatch, ← hrw]
    rw [hbegin, Option.bind_some, run_eq rfl rfl]
    rfl
  simp only [hrun, Option.some.injEq, exists_eq_left', consistent_pending_iff]
  constructor
  · -- the point right after the erase is the one that tells
    intro h K cK key hmem
    obtain ⟨before, after, rfl⟩ := List.append_of_mem hmem
    apply h (before ++ [.erase cK key]) ⟨after, by simp⟩ cK key
    rw [List.map_append]
    exact scan_append_delete _ _
  · intro h calls' hinit K cK key hscan
    obtain ⟨K', cK', key', hmem, heq⟩ := exists_erase_of_scan hscan
    rw [← heq]
    exact h cK' key' (hinit.subset hmem)

/-- Streams that are their own serialization. -/
def bytesCodec : Codec Bytes := ⟨id, some, fun _ => rfl⟩

/-- The content that holds the value `[7]` under the key `[1]`. -/
def oneEntry : RawStore := fun key => if key = [1] then some [7] else none

theorem consistent_after_write :
    ∃ db', (RawTxDB.txnBegin ⟨oneEntry, none, false⟩).bind
        (fun db₀ => db₀.run [.write bytesCodec bytesCodec [2] [8]]) = some db' ∧
      Consistent oneEntry [.write bytesCodec bytesCodec [2] [8]] db' :=
  (consistent_iff_erase_absent ⟨oneEntry, none, false⟩ [.write bytesCodec bytesCodec [2] [8]]
    rfl rfl).mpr (by simp) _ (List.prefix_refl _)

/-- A key that was committed and is erased in the transaction still exists for `Exists`. -/
theorem existsKey_of_erased :
    ∃ db', (RawTxDB.txnBegin ⟨oneEntry, none, false⟩).bind
        (fun db₀ => db₀.run [.erase bytesCodec [1]]) = some db' ∧
      db'.existsKey bytesCodec [1] = true ∧
      (applyCalls oneEntry [.erase bytesCodec [1]] [1]).isSome = false ∧
      ¬ Consistent oneEntry [.erase bytesCodec [1]] db' := by
  refine ⟨pending oneEntry [.erase bytesCodec [1]], rfl, rfl, rfl, fun h => ?_⟩
  have hexists := (h.existsKey bytesCodec [1]).mp rfl
  cases hexists

end RawTxDB

end MotaCoin
