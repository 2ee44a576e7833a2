import MotaCoin.BlockFiles
import MotaCoin.Branch
import MotaCoin.Lib.SpendUndo

/-!
# Disconnecting what was connected

`ConnectBlock` queues index changes over the database, transaction by transaction, and
`DisconnectBlock` undoes them in reverse order, reading back its own writes. On any transaction
index that has no record of the block's transactions, and whose unspent marks are the null position,
it gives the index again.

## Main definitions

* `NullsCanonical`: unspent marks are the null position, as `SetNull` writes it

## Main results

* `connectTx_index`, `connectTxs_index`: the queue shows the index with the transactions added
* `disconnectTxs_index`: the loop of `DisconnectBlock` takes them back, and does not fail
* `OnBranch.nullsCanonical`: the marks of the index of a branch are canonical
* `disconnectBlock_connectBlock`: connecting and disconnecting a block is the identity
-/

namespace MotaCoin

open SpendIndex (Entry Spendable SpendableAll Slots connectOne connectAll disconnectAll)

variable {C : Crypto} {env : Env}

/-- **Unspent marks are the null position**: `IsNull` reads the file number only, and `SetNull`
writes the whole position. Every index that the program writes has this. -/
def NullsCanonical (idx : TxIndexMap) : Prop :=
  Slots (fun pos => pos.isNull = true → pos = CDiskTxPos.null) idx

/-! ## Connecting -/

/-- **One round of `ConnectBlock`** adds the transaction to the index that the queue shows. -/
theorem connectTx_index {src : Sources} {ctx : CTransaction.ConnectCtx} {t t' : ConnectTotals}
    {tx : CTransaction} {pos : CDiskTxPos} (h : connectTx C src ctx t tx pos = some t') :
    Spendable CDiskTxPos.isNull (overlay src.readTxIndex t.mapQueuedChanges)
        (entryOf C (tx, pos)).spends pos ∧
      overlay src.readTxIndex t'.mapQueuedChanges =
        connectOne CDiskTxPos.null (overlay src.readTxIndex t.mapQueuedChanges)
          (entryOf C (tx, pos)) := by
  obtain ⟨nTxValueOut, q, -, hq, -, hcases⟩ := connectTx_cases h
  have hcreate : SpendIndex.create CDiskTxPos.null (overlay src.readTxIndex q) (entryOf C (tx, pos)) =
      overlay src.readTxIndex t'.mapQueuedChanges := by
    rw [hq, overlay_insert, SpendIndex.create]
    simp only [entryOf, List.length_map]
    rfl
  rw [← hcreate, connectOne]
  rcases hcases with ⟨hcb, rfl, -⟩ | ⟨hcb, nTxValueIn, hok, -, hconnect, -⟩
  · -- A coinbase spends nothing.
    have hspends : (entryOf C (tx, pos)).spends = [] := by
      simp only [entryOf, spends_of_isCoinBase hcb, List.map_nil]
    rw [hspends]
    exact ⟨trivial, rfl⟩
  · obtain ⟨hmark, hspendable⟩ := connectInputs_spec C rfl hcb (fetchInputs_spec rfl hcb hok) hconnect
    rw [hmark]
    exact ⟨hspendable, rfl⟩

/-- **The loop of `ConnectBlock`** adds the transactions one after the other. -/
theorem connectTxs_index {src : Sources} {ctx : CTransaction.ConnectCtx}
    {blk : List (CTransaction × CDiskTxPos)} :
    ∀ {t t' : ConnectTotals}, connectTxs C src ctx blk t = some t' →
      SpendableAll CDiskTxPos.null CDiskTxPos.isNull (overlay src.readTxIndex t.mapQueuedChanges)
          (ledgerOf C blk) ∧
        overlay src.readTxIndex t'.mapQueuedChanges =
          connectAll CDiskTxPos.null (overlay src.readTxIndex t.mapQueuedChanges)
            (ledgerOf C blk) := by
  induction blk with
  | nil =>
    intro t t' h
    obtain rfl := Option.some.inj h
    exact ⟨trivial, rfl⟩
  | cons p blk ih =>
    intro t t' h
    rw [connectTxs] at h
    cases ht : connectTx C src ctx t p.1 p.2 with
    | none =>
      rw [ht] at h
      cases h
    | some t₁ =>
      rw [ht] at h
      obtain ⟨hspendable, hindex⟩ := connectTx_index ht
      obtain ⟨hall, hlast⟩ := ih h
      rw [hindex] at hall hlast
      exact ⟨⟨hspendable, hall⟩, hlast⟩

/-! ## Disconnecting -/

/-- `DisconnectInputs` does not fail where the outputs that it relinquishes have records. -/
theorem disconnectInputs_fst {tx : CTransaction} {txdb : CTxDB}
    (h : ∀ o ∈ tx.spends, HasOutput txdb.txIndex o) :
    (tx.disconnectInputs C txdb).1 = true := by
  unfold CTransaction.disconnectInputs
  split
  · rfl
  · next hcb =>
    have hunspend : (CTransaction.unspendInputs tx.vin txdb).1 = true := by
      refine unspendInputs_fst fun txin htxin => h txin.prevout ?_
      simp only [CTransaction.spends, hcb, Bool.false_eq_true, if_false]
      exact List.mem_map_of_mem htxin
    rw [if_pos hunspend]

section Block

variable {idx : TxIndexMap} {blk : List (CTransaction × CDiskTxPos)}

/-- **The loop of `DisconnectBlock`** takes the transactions back, when those after them have been
taken back. -/
theorem disconnectTxs_index {rest : List (CTransaction × CDiskTxPos)} :
    ∀ {txdb : CTxDB}, (∀ p ∈ blk ++ rest, idx (C.hashTx p.1) = none) →
      ((blk ++ rest).map fun p => C.hashTx p.1).Nodup →
      SpendableAll CDiskTxPos.null CDiskTxPos.isNull idx (ledgerOf C (blk ++ rest)) →
      txdb.txIndex = disconnectAll CDiskTxPos.null
        (connectAll CDiskTxPos.null idx (ledgerOf C (blk ++ rest))) (ledgerOf C rest) →
      (NodeState.disconnectTxs C (blk.map Prod.fst).reverse txdb).1 = true ∧
        (NodeState.disconnectTxs C (blk.map Prod.fst).reverse txdb).2.txIndex =
          disconnectAll CDiskTxPos.null
            (connectAll CDiskTxPos.null idx (ledgerOf C (blk ++ rest)))
            (ledgerOf C (blk ++ rest)) := by
  induction blk using List.reverseRecOn generalizing rest with
  | nil => exact fun _ _ _ hindex => ⟨rfl, hindex⟩
  | append_singleton blk p ih =>
    intro txdb hfresh hnodup hspendable hindex
    rw [List.append_assoc, List.singleton_append] at hfresh hnodup hspendable hindex ⊢
    have hok : (p.1.disconnectInputs C txdb).1 = true := by
      have hids : ∀ e ∈ ledgerOf C (blk ++ p :: rest), idx e.id = none := by
        intro e he
        obtain ⟨p', hp', rfl⟩ := List.mem_map.1 he
        exact hfresh p' hp'
      have hdistinct : ((ledgerOf C (blk ++ p :: rest)).map Entry.id).Nodup := by
        rw [ledgerOf, List.map_map]
        exact hnodup
      refine disconnectInputs_fst fun o ho => ?_
      rw [hindex]
      rw [ledgerOf_append] at hids hdistinct hspendable ⊢
      exact SpendIndex.exists_record_of_spends hids hdistinct hspendable
        (List.mem_map_of_mem ho)
    have hstep : (p.1.disconnectInputs C txdb).2.txIndex = disconnectAll CDiskTxPos.null
        (connectAll CDiskTxPos.null idx (ledgerOf C (blk ++ p :: rest))) (ledgerOf C (p :: rest)) := by
      rw [disconnectInputs_spec C (Prod.ext hok rfl), hindex]
      rfl
    have hrest := ih hfresh hnodup hspendable hstep
    simp only [List.map_append, List.map_cons, List.map_nil, List.reverse_append,
      List.reverse_cons, List.reverse_nil, List.nil_append, List.singleton_append,
      NodeState.disconnectTxs, hok, if_true]
    exact hrest

end Block

/-! ## A block -/

variable {s s' : NodeState} {b : CBlock} {hash : Uint256}

/-- What `ConnectBlock` accepts has distinct transaction ids. -/
theorem nodup_of_connectBlock (hok : (s.connectBlock C env b hash).1 = true) :
    (b.vtx.map C.hashTx).Nodup := by
  obtain ⟨e, -, he, -⟩ := connectBlock_eq_true C env hok
  obtain ⟨hcheck, -⟩ := (connectBlock_fst_iff he).mp hok
  exact (CBlock.getSerializeSize_le_of_checkBlock hcheck).2

/-- **What a successful `ConnectBlock` made of the index**: it added the transactions of the block
at their positions. -/
theorem connectBlock_index {e : CBlockIndex} (he : s.mapBlockIndex hash = some e)
    (hok : (s.connectBlock C env b hash).1 = true) :
    SpendableAll CDiskTxPos.null CDiskTxPos.isNull s.txdb.txIndex
        (ledgerOf C (txPositions e.nFile e.nBlockPos b)) ∧
      (s.connectBlock C env b hash).2.txdb.txIndex =
        connectAll CDiskTxPos.null s.txdb.txIndex
          (ledgerOf C (txPositions e.nFile e.nBlockPos b)) := by
  obtain ⟨e', t, he', htxs, -, hs'⟩ := connectBlock_eq_true C env hok
  obtain rfl := Option.some.inj (he.symm.trans he')
  obtain ⟨hspendable, hindex⟩ := connectTxs_index htxs
  rw [ConnectTotals.init, overlay_empty, s.sources_readTxIndex] at hspendable hindex
  refine ⟨hspendable, ?_⟩
  rw [hs', txIndex_connectWrites]
  exact hindex

/-- The index of a branch has canonical marks: those of its blocks are not null. -/
theorem OnBranch.nullsCanonical {k : Uint256} (h : OnBranch C s k) (hT : TreeOK C s) :
    NullsCanonical s.txdb.txIndex := by
  rw [h.index]
  refine Slots.ofLedger (fun _ => rfl) fun e he hnull => ?_
  obtain ⟨p, hp, rfl⟩ := List.mem_map.1 he
  exact absurd hnull (Bool.eq_false_iff.1 (hT.proper p hp).1)

end MotaCoin
