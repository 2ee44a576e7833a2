import Mathlib.Data.List.Sort
import MotaCoin.Lib.AssocFold
import MotaCoin.MemPool

/-!
# Orphan transactions and the `tx` message

Transactions whose inputs are not known wait in `mapOrphanTransactions`;
`mapOrphanTransactionsByPrev` says which of them wait for a previous transaction. The handler of a
`tx` message offers its transaction to the memory pool and, when it is accepted, walks through the
orphans it wakes. The relay to peers, the inventory and the misbehaviour score are left out.

## Main definitions

* `OrphanTxs`: the two maps
* `addOrphanTx`, `eraseOrphanTx`, `limitOrphanTxSize`
* `RelayState`, `TxMessage`: the node with its orphans, and a `tx` message
* `TxWork`, `tryOrphan`, `workStep`, `workLoop`: the walk through the orphans
* `RelayState.processTx`: the handler

## Main results

* `size_eraseOrphanTx`, `mem_evicted`: what makes the loop of `LimitOrphanTxSize` end
-/

namespace MotaCoin

variable (C : Crypto)

/-- `MAX_ORPHAN_TRANSACTIONS`. -/
def MAX_ORPHAN_TRANSACTIONS : Nat := MAX_BLOCK_SIZE / 100

/-! ## Sets of hashes -/

/-- `set<uint256>::insert`, on the elements in increasing order. -/
def setInsert (hash : Uint256) (set : List Uint256) : List Uint256 :=
  if hash ∈ set then set else set.orderedInsert (· ≤ ·) hash

/-- `set<uint256>::erase`. -/
def setErase (hash : Uint256) (set : List Uint256) : List Uint256 := set.filter (· ≠ hash)

@[simp] theorem mem_setInsert {hash h : Uint256} {set : List Uint256} :
    h ∈ setInsert hash set ↔ h = hash ∨ h ∈ set := by
  unfold setInsert
  split
  · rename_i hmem
    exact ⟨Or.inr, fun h' => h'.elim (fun heq => heq ▸ hmem) id⟩
  · exact List.mem_orderedInsert _

@[simp] theorem mem_setErase {hash h : Uint256} {set : List Uint256} :
    h ∈ setErase hash set ↔ h ∈ set ∧ h ≠ hash := by
  simp [setErase]

/-! ## The orphan maps -/

/-- `mapOrphanTransactions` and `mapOrphanTransactionsByPrev`. -/
structure OrphanTxs where
  mapOrphanTransactions : AList fun _ : Uint256 => CTransaction
  mapOrphanTransactionsByPrev : AList fun _ : Uint256 => List Uint256

namespace OrphanTxs

/-- `mapOrphanTransactions.size()`. -/
def size (o : OrphanTxs) : Nat := o.mapOrphanTransactions.entries.length

/-- The set `mapOrphanTransactionsByPrev[hashPrev]`; `operator[]` gives an empty one for a key that
is not there. -/
def waiting (o : OrphanTxs) (hashPrev : Uint256) : List Uint256 :=
  (o.mapOrphanTransactionsByPrev.lookup hashPrev).getD []

/-- `operator[]` on `mapOrphanTransactionsByPrev` leaves an empty set under a key that was not
there. -/
def touchPrev (o : OrphanTxs) (hashPrev : Uint256) : OrphanTxs :=
  { o with mapOrphanTransactionsByPrev :=
      o.mapOrphanTransactionsByPrev.insert hashPrev (o.waiting hashPrev) }

/-- `operator[]` on `mapOrphanTransactions` leaves an empty transaction under a key that was not
there. -/
def touchTx (o : OrphanTxs) (hash : Uint256) : OrphanTxs :=
  match o.mapOrphanTransactions.lookup hash with
  | some _ => o
  | none => { o with
      mapOrphanTransactions := o.mapOrphanTransactions.insert hash CTransaction.empty }

/-- `mapOrphanTransactionsByPrev[hashPrev].insert(hash)`. -/
def link (hash hashPrev : Uint256) (m : AList fun _ : Uint256 => List Uint256) :
    AList fun _ : Uint256 => List Uint256 :=
  m.insert hashPrev (setInsert hash ((m.lookup hashPrev).getD []))

/-- The round of `EraseOrphanTx` for one input: the hash leaves the set, an empty set leaves the
map. -/
def unlink (hash hashPrev : Uint256) (m : AList fun _ : Uint256 => List Uint256) :
    AList fun _ : Uint256 => List Uint256 :=
  let set := setErase hash ((m.lookup hashPrev).getD [])
  if set.isEmpty then m.erase hashPrev else m.insert hashPrev set

/-- `AddOrphanTx`: whether the transaction was stored, and the maps. -/
def addOrphanTx (tx : CTransaction) (o : OrphanTxs) : Bool × OrphanTxs :=
  let hash := C.hashTx tx
  if (o.mapOrphanTransactions.lookup hash).isSome then (false, o)
  else if 5000 < tx.getSerializeSize then (false, o)
  else (true, {
    mapOrphanTransactions := o.mapOrphanTransactions.insert hash tx
    mapOrphanTransactionsByPrev :=
      tx.vin.foldl (fun m txin => link hash txin.prevout.hash m) o.mapOrphanTransactionsByPrev })

/-- `EraseOrphanTx`. -/
def eraseOrphanTx (hash : Uint256) (o : OrphanTxs) : OrphanTxs :=
  match o.mapOrphanTransactions.lookup hash with
  | none => o
  | some tx => {
    mapOrphanTransactions := o.mapOrphanTransactions.erase hash
    mapOrphanTransactionsByPrev :=
      tx.vin.foldl (fun m txin => unlink hash txin.prevout.hash m) o.mapOrphanTransactionsByPrev }

/-- The loop of the handler over `vEraseQueue`. -/
def eraseOrphanTxs (hashes : List Uint256) (o : OrphanTxs) : OrphanTxs :=
  hashes.foldl (fun o hash => o.eraseOrphanTx hash) o

/-- The key `LimitOrphanTxSize` evicts for a random hash: `lower_bound`, and `begin()` when that is
the end. -/
def evicted (o : OrphanTxs) (randomhash : Uint256) : Uint256 :=
  let keys := o.mapOrphanTransactions.keys
  ((keys.filter (randomhash ≤ ·)).min?.or keys.min?).getD 0

theorem mem_evicted {o : OrphanTxs} (h : 0 < o.size) (randomhash : Uint256) :
    o.evicted randomhash ∈ o.mapOrphanTransactions := by
  have hkeys : o.mapOrphanTransactions.keys ≠ [] := by
    intro hnil
    have hlen := congrArg List.length hnil
    simp only [AList.keys, List.keys, List.length_map, List.length_nil] at hlen
    exact h.ne' hlen
  rw [AList.mem_keys, evicted]
  rcases hmin : (o.mapOrphanTransactions.keys.filter (randomhash ≤ ·)).min? with _ | k
  · -- past the last key: the first one
    obtain ⟨k, hk⟩ := Option.isSome_iff_exists.mp (List.isSome_min?_of_ne_nil hkeys)
    simpa [hk] using List.min?_mem hk
  · have hmem : k ∈ o.mapOrphanTransactions.keys := List.mem_of_mem_filter (List.min?_mem hmin)
    simpa using hmem

theorem size_eraseOrphanTx {o : OrphanTxs} {hash : Uint256} (h : hash ∈ o.mapOrphanTransactions) :
    (o.eraseOrphanTx hash).size + 1 = o.size := by
  obtain ⟨tx, htx⟩ := Option.isSome_iff_exists.mp (AList.lookup_isSome.mpr h)
  simp only [eraseOrphanTx, htx, size]
  exact AList.length_erase h

/-- `LimitOrphanTxSize`, from the count `nEvicted`; the random hashes are those `GetRandHash` gives.
The map shrinks in every round, so the loop ends. -/
def limitOrphanTxSize (nMaxOrphans : Nat) (randomhash : Nat → Uint256) (nEvicted : Nat)
    (o : OrphanTxs) : Nat × OrphanTxs :=
  if h : nMaxOrphans < o.size then
    limitOrphanTxSize nMaxOrphans randomhash (nEvicted + 1)
      (o.eraseOrphanTx (o.evicted (randomhash nEvicted)))
  else (nEvicted, o)
termination_by o.size
decreasing_by
  have hsize := size_eraseOrphanTx (mem_evicted (Nat.zero_lt_of_lt h) (randomhash nEvicted))
  omega

end OrphanTxs

/-! ## The `tx` message -/

/-- A node with its orphan transactions, and the calls `SyncWithWallets(tx, NULL, true)` made for
them. -/
structure RelayState where
  node : NodeState
  orphans : OrphanTxs
  walletTxs : List CTransaction

/-- A `tx` message with what its handling meets: the environment and the random hashes. -/
structure TxMessage where
  env : Env
  randomhash : Nat → Uint256
  tx : CTransaction

/-- The variables of the handler while it walks through the orphans. -/
structure TxWork where
  state : RelayState
  vWorkQueue : List Uint256
  vEraseQueue : List Uint256

namespace TxWork

variable (env : Env) (tx : CTransaction)

/-- The inner loop of the handler for one orphan. The wallets are told of the transaction of the
message, not of the orphan. -/
def tryOrphan (w : TxWork) (orphanTxHash : Uint256) : TxWork :=
  let orphans := w.state.orphans.touchTx orphanTxHash
  let orphanTx := (orphans.mapOrphanTransactions.lookup orphanTxHash).getD CTransaction.empty
  let r := w.state.node.acceptToMemoryPool C env orphanTx true
  if r.1 then
    { state := ⟨r.2.2, orphans, w.state.walletTxs ++ [tx]⟩
      vWorkQueue := w.vWorkQueue ++ [orphanTxHash]
      vEraseQueue := w.vEraseQueue ++ [orphanTxHash] }
  else if !r.2.1 then
    { w with
      state := { w.state with orphans := orphans }
      vEraseQueue := w.vEraseQueue ++ [orphanTxHash] }
  else { w with state := { w.state with orphans := orphans } }

/-- The round of the handler for one entry of `vWorkQueue`. -/
def workStep (w : TxWork) (hashPrev : Uint256) : TxWork :=
  let orphans := w.state.orphans.touchPrev hashPrev
  (orphans.waiting hashPrev).foldl (tryOrphan C env tx)
    { w with state := { w.state with orphans := orphans } }

/-- The loop over `vWorkQueue` from the index `i`; `none` when it has not ended after `fuel`
rounds. -/
def workLoop : Nat → Nat → TxWork → Option TxWork
  | 0, _, _ => none
  | fuel + 1, i, w =>
    match w.vWorkQueue[i]? with
    | none => some w
    | some hashPrev => workLoop fuel (i + 1) (w.workStep C env tx hashPrev)

end TxWork

namespace RelayState

/-- The walk through the orphans after the transaction of the message was accepted, which left the
node `node`. Each round but the first is for an orphan that was accepted, and no orphan is accepted
twice. -/
def walk (s : RelayState) (m : TxMessage) (node : NodeState) : Option TxWork :=
  TxWork.workLoop C m.env m.tx (s.orphans.size + 2) 0
    { state := ⟨node, s.orphans, s.walletTxs ++ [m.tx]⟩
      vWorkQueue := [C.hashTx m.tx]
      vEraseQueue := [C.hashTx m.tx] }

/-- The `tx` branch of `ProcessMessage`; `none` when its loop does not end. -/
def processTx (s : RelayState) (m : TxMessage) : Option RelayState :=
  let r := s.node.acceptToMemoryPool C m.env m.tx true
  if r.1 then
    (s.walk C m r.2.2).map fun w =>
      { w.state with orphans := w.state.orphans.eraseOrphanTxs w.vEraseQueue }
  else if r.2.1 then
    let orphans := (s.orphans.addOrphanTx C m.tx).2
    some { s with
      orphans := (orphans.limitOrphanTxSize MAX_ORPHAN_TRANSACTIONS m.randomhash 0).2 }
  else some s

end RelayState

end MotaCoin
