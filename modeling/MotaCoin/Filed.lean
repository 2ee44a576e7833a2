import MotaCoin.Accept
import MotaCoin.Run

/-!
# Where the transaction index points

`FetchInputs` takes the transaction at the position of an index record for the one with the hash it
looked up, without hashing it. This module shows that it may: in every state the chain logic gets
to, in the middle of a reorganization and after failures too, the record of a hash points at a
transaction with that hash in a block of the tree.

## Main definitions

* `FiledAt`, `IndexFiled`: the position of a record holds a transaction with its hash
* `Filed`: both the committed index and the one with the batch are filed
* `Reached`: the states the steps of the chain logic lead to, in any order

## Main results

* `connectTxs_filed`, `disconnectTxs_filed`: the loops over the transactions
* `Reached.filed`: every reached state is filed
* `Reached.setBestChain`, `Run.reached`: calls of `SetBestChain` are made of such steps
* `Reached.acceptBlock`: calls of `AcceptBlock` are, too
-/

namespace MotaCoin

/-! ## Filed records -/

/-- Every record of an index has a position and a number of outputs that `F` allows for its
hash. -/
def IndexFiled (F : Uint256 → CDiskTxPos → Nat → Prop) (idx : TxIndexMap) : Prop :=
  ∀ hash r, idx hash = some r → F hash r.pos r.vSpent.length

section Index

variable {F : Uint256 → CDiskTxPos → Nat → Prop} {idx : TxIndexMap}

theorem IndexFiled.update (h : IndexFiled F idx) {hash : Uint256} {r : CTxIndex}
    (hr : F hash r.pos r.vSpent.length) : IndexFiled F (Function.update idx hash (some r)) := by
  intro hash' r' h'
  by_cases hh : hash' = hash
  · subst hh
    rw [Function.update_self] at h'
    obtain rfl := Option.some.inj h'
    exact hr
  · rw [Function.update_of_ne hh] at h'
    exact h hash' r' h'

theorem IndexFiled.erase (h : IndexFiled F idx) (hash : Uint256) :
    IndexFiled F (Function.update idx hash none) := by
  intro hash' r' h'
  by_cases hh : hash' = hash
  · subst hh
    rw [Function.update_self] at h'
    cases h'
  · rw [Function.update_of_ne hh] at h'
    exact h hash' r' h'

theorem IndexFiled.mono {F' : Uint256 → CDiskTxPos → Nat → Prop} (h : IndexFiled F idx)
    (hF : ∀ hash pos n, F hash pos n → F' hash pos n) : IndexFiled F' idx :=
  fun hash r hr => hF _ _ _ (h hash r hr)

/-! ## Connecting -/

variable {C : Crypto} {src : Sources} {ctx : CTransaction.ConnectCtx}

/-- Spending changes where outputs were spent, not where transactions are. -/
theorem spendInputs_filed {tx : CTransaction} {posThisTx : CDiskTxPos} {fBlock fMiner : Bool}
    (hf : (fBlock || fMiner) = true) {vin : List CTxIn} :
    ∀ {i : Nat} {inputs : MapPrevTx} {q q' : TxIndexQueue},
      (∀ hash r, inputs hash = some r → F hash r.1.pos r.1.vSpent.length) →
      IndexFiled F (overlay idx q) →
      CTransaction.spendInputs C ctx tx posThisTx fBlock fMiner i vin inputs q = some q' →
      IndexFiled F (overlay idx q') := by
  induction vin with
  | nil =>
    intro i inputs q q' _ hq h
    obtain rfl := Option.some.inj h
    exact hq
  | cons txin vin ih =>
    intro i inputs q q' hin hq h
    rw [CTransaction.spendInputs] at h
    split at h
    · cases h
    · next txindex txPrev hprev =>
      have hpos : F txin.prevout.hash txindex.pos
          (txindex.vSpent.set txin.prevout.n posThisTx).length := by
        rw [List.length_set]
        exact hin _ _ hprev
      split at h
      · cases h
      · split at h
        · cases h
        · split at h
          · cases h
          · refine ih ?_ ?_ h
            · intro hash r hr
              by_cases hh : hash = txin.prevout.hash
              · subst hh
                rw [Function.update_self] at hr
                obtain rfl := Option.some.inj hr
                exact hpos
              · rw [Function.update_of_ne hh] at hr
                exact hin hash r hr
            · rw [overlay_insert]
              exact hq.update hpos

theorem connectInputs_filed {tx : CTransaction} {inputs : MapPrevTx} {posThisTx : CDiskTxPos}
    {fBlock fMiner : Bool} (hf : (fBlock || fMiner) = true) {q q' : TxIndexQueue}
    (hin : ∀ hash r, inputs hash = some r → F hash r.1.pos r.1.vSpent.length)
    (hq : IndexFiled F (overlay idx q))
    (h : tx.connectInputs C ctx inputs q posThisTx fBlock fMiner = some q') :
    IndexFiled F (overlay idx q') := by
  unfold CTransaction.connectInputs at h
  split at h
  · obtain rfl := Option.some.inj h
    exact hq
  · split at h
    · cases h
    · split at h
      · cases h
      · next q'' hspend =>
        split at h
        · cases h
        · obtain rfl := Option.some.inj h
          exact spendInputs_filed hf hin hq hspend

/-- **What a round of the loop of `ConnectBlock` did**: a coinbase only adds to the outputs; any
other transaction had its inputs fetched, valued and connected. -/
theorem connectTx_cases {t t' : ConnectTotals} {tx : CTransaction} {posThisTx : CDiskTxPos}
    (h : connectTx C src ctx t tx posThisTx = some t') :
    ∃ nTxValueOut q, tx.getValueOut = some nTxValueOut ∧
      t'.mapQueuedChanges = q.insert (C.hashTx tx) (CTxIndex.fresh posThisTx tx.vout.length) ∧
      t'.nValueOut = Int64.wrap (t.nValueOut + nTxValueOut) ∧
      (tx.isCoinBase = true ∧ q = t.mapQueuedChanges ∧ t'.nValueIn = t.nValueIn ∧
          t'.nFees = t.nFees ∧ t'.nStakeReward = t.nStakeReward ∨
        tx.isCoinBase = false ∧ ∃ nTxValueIn,
          (tx.fetchInputs src t.mapQueuedChanges true false).ok = true ∧
          tx.getValueMapIn (tx.fetchInputs src t.mapQueuedChanges true false).inputsRet =
            some nTxValueIn ∧
          tx.connectInputs C ctx (tx.fetchInputs src t.mapQueuedChanges true false).inputsRet
            t.mapQueuedChanges posThisTx true false = some q ∧
          t'.nValueIn = Int64.wrap (t.nValueIn + nTxValueIn) ∧
          t'.nFees = (if tx.isCoinStake then t.nFees
            else Int64.wrap (t.nFees + Int64.wrap (nTxValueIn - nTxValueOut))) ∧
          t'.nStakeReward = if tx.isCoinStake then Int64.wrap (nTxValueOut - nTxValueIn)
            else t.nStakeReward) := by
  simp only [connectTx] at h
  split at h
  · cases h
  · split at h
    · cases h
    · split at h
      · cases h
      · next nTxValueOut hout =>
        split at h
        · next hcb =>
          obtain rfl := Option.some.inj h
          exact ⟨nTxValueOut, _, hout, rfl, rfl, .inl ⟨hcb, rfl, rfl, rfl, rfl⟩⟩
        · next hcb =>
          split at h
          · cases h
          · next hok =>
            split at h
            · next nP2SH nTxValueIn _ hin =>
              split at h
              · cases h
              · split at h
                · cases h
                · next q hq =>
                  obtain rfl := Option.some.inj h
                  exact ⟨nTxValueOut, q, hout, rfl, rfl, .inr ⟨by simpa using hcb, nTxValueIn,
                    by simpa using hok, hin, hq, rfl, rfl, rfl⟩⟩
            · cases h

/-- One round of the loop of `ConnectBlock` files the new transaction at its position. -/
theorem connectTx_filed {t t' : ConnectTotals} {tx : CTransaction} {posThisTx : CDiskTxPos}
    (hq : IndexFiled F (overlay src.readTxIndex t.mapQueuedChanges))
    (htx : F (C.hashTx tx) posThisTx tx.vout.length) (h : connectTx C src ctx t tx posThisTx = some t') :
    IndexFiled F (overlay src.readTxIndex t'.mapQueuedChanges) := by
  obtain ⟨_, q, -, hqueue, -, hcases⟩ := connectTx_cases h
  have hq' : IndexFiled F (overlay src.readTxIndex q) := by
    rcases hcases with ⟨-, rfl, -⟩ | ⟨hcb, _, hok, -, hconnect, -⟩
    · exact hq
    · refine connectInputs_filed rfl (fun hash r hr => ?_) hq hconnect
      exact hq hash r.1 (fetchInputs_spec rfl hcb hok hash r.1 r.2 hr).1
  rw [hqueue, overlay_insert]
  refine hq'.update ?_
  rw [CTxIndex.fresh, List.length_replicate]
  exact htx

/-- **The loop of `ConnectBlock`** files every transaction of the block at its position. -/
theorem connectTxs_filed {txs : List (CTransaction × CDiskTxPos)} :
    ∀ {t t' : ConnectTotals}, IndexFiled F (overlay src.readTxIndex t.mapQueuedChanges) →
      (∀ p ∈ txs, F (C.hashTx p.1) p.2 p.1.vout.length) → connectTxs C src ctx txs t = some t' →
      IndexFiled F (overlay src.readTxIndex t'.mapQueuedChanges) := by
  induction txs with
  | nil =>
    intro t t' hq _ h
    obtain rfl := Option.some.inj h
    exact hq
  | cons p txs ih =>
    intro t t' hq htxs h
    rw [connectTxs] at h
    split at h
    · cases h
    · next t₁ ht₁ =>
      exact ih (connectTx_filed hq (htxs p List.mem_cons_self) ht₁)
        (fun p' hp' => htxs p' (List.mem_cons_of_mem _ hp')) h

/-! ## Disconnecting -/

theorem unspendInputs_filed (vin : List CTxIn) {txdb : CTxDB} (h : IndexFiled F txdb.txIndex) :
    IndexFiled F (CTransaction.unspendInputs vin txdb).2.txIndex := by
  induction vin generalizing txdb with
  | nil => exact h
  | cons txin vin ih =>
    rw [CTransaction.unspendInputs]
    split
    · exact h
    · next txindex hread =>
      split
      · exact h
      · refine ih ?_
        rw [CTxDB.readTxIndex_eq] at hread
        have hpos : F txin.prevout.hash txindex.pos
            (txindex.vSpent.set txin.prevout.n CDiskTxPos.null).length := by
          rw [List.length_set]
          exact h _ _ hread
        rw [CTxDB.txIndex_updateTxIndex]
        exact h.update hpos

theorem disconnectInputs_filed (tx : CTransaction) {txdb : CTxDB} (h : IndexFiled F txdb.txIndex) :
    IndexFiled F (tx.disconnectInputs C txdb).2.txIndex := by
  unfold CTransaction.disconnectInputs
  split
  · rw [CTxDB.txIndex_eraseTxIndex]
    exact h.erase _
  · have hun := unspendInputs_filed tx.vin h
    simp only
    split
    · rw [CTxDB.txIndex_eraseTxIndex]
      exact hun.erase _
    · exact hun

theorem disconnectTxs_filed (vtx : List CTransaction) {txdb : CTxDB}
    (h : IndexFiled F txdb.txIndex) : IndexFiled F (NodeState.disconnectTxs C vtx txdb).2.txIndex := by
  induction vtx generalizing txdb with
  | nil => exact h
  | cons tx vtx ih =>
    have htx := disconnectInputs_filed (C := C) tx h
    simp only [NodeState.disconnectTxs]
    split
    · exact ih htx
    · exact htx

end Index

/-! ## Filed states -/

variable {C : Crypto} {env : Env}

variable (C) in
/-- A position holds a transaction with the given hash and number of outputs, in a block of the
tree. -/
def FiledAt (s : NodeState) (hash : Uint256) (pos : CDiskTxPos) (nOutputs : Nat) : Prop :=
  ∃ h, ∃ p ∈ s.blockTxs h, p.2 = pos ∧ C.hashTx p.1 = hash ∧ p.1.vout.length = nOutputs

variable (C) in
/-- **The transaction index is filed**, and so is the index with the batch. -/
structure Filed (s : NodeState) : Prop where
  position : ∀ {h e}, s.mapBlockIndex h = some e → 8 ≤ e.nBlockPos
  view : IndexFiled (FiledAt C s) s.txdb.txIndex
  committed : IndexFiled (FiledAt C s) s.txdb.committedTxIndex

theorem NodeState.isSome_of_mem_blockTxs {s : NodeState} {h : Uint256}
    {p : CTransaction × CDiskTxPos} (hp : p ∈ s.blockTxs h) : (s.mapBlockIndex h).isSome := by
  unfold NodeState.blockTxs at hp
  split at hp
  · cases hp
  · next e he => simp [he]

theorem FiledAt.mono {s s' : NodeState} (htree : TreeLe s s') {hash : Uint256} {pos : CDiskTxPos}
    {nOutputs : Nat} (h : FiledAt C s hash pos nOutputs) : FiledAt C s' hash pos nOutputs := by
  obtain ⟨k, p, hp, hpos, hhash⟩ := h
  refine ⟨k, p, ?_, hpos, hhash⟩
  rwa [htree.blockTxs (NodeState.isSome_of_mem_blockTxs hp)]

/-- **What a filed position holds**: it is not the mark of the memory pool, and the transaction
read there has the hash and the number of outputs it is filed under. -/
theorem Filed.readTx {s : NodeState} (env : Env) (hs : Filed C s) {hash : Uint256}
    {pos : CDiskTxPos} {nOutputs : Nat} (h : FiledAt C s hash pos nOutputs) :
    pos ≠ CDiskTxPos.memPool ∧
      ∀ tx, s.readTx env pos = some tx → C.hashTx tx = hash ∧ tx.vout.length = nOutputs := by
  obtain ⟨k, p, hp, rfl, rfl, rfl⟩ := h
  unfold NodeState.blockTxs at hp
  split at hp
  · cases hp
  · next e he =>
    split at hp
    · cases hp
    · next b hb =>
      refine ⟨?_, fun tx htx => by rw [readTx_of_mem_txPositions env hb hp htx]; exact ⟨rfl, rfl⟩⟩
      intro heq
      obtain ⟨q, -, rfl⟩ := List.mem_map.mp hp
      have hpos := hs.position he
      have : e.nBlockPos = 1 := congrArg CDiskTxPos.nBlockPos heq
      omega

theorem NodeState.sources_readTxIndex (s : NodeState) (env : Env) :
    (s.sources env).readTxIndex = s.txdb.txIndex :=
  funext fun hash => s.txdb.readTxIndex_eq hash

/-- **Between the writes to the transaction index**: the tree grows, and links, globals, the memory
pool and the other records of the database change. -/
structure Extends (s s' : NodeState) : Prop where
  tree : TreeLe s s'
  position : ∀ {h e}, s'.mapBlockIndex h = some e → 8 ≤ e.nBlockPos
  view : s'.txdb.txIndex = s.txdb.txIndex
  committed : s'.txdb.committedTxIndex = s.txdb.committedTxIndex

theorem Filed.extends {s s' : NodeState} (hs : Filed C s) (h : Extends s s') : Filed C s' where
  position := h.position
  view := h.view ▸ hs.view.mono fun _ _ _ hpos => hpos.mono h.tree
  committed := h.committed ▸ hs.committed.mono fun _ _ _ hpos => hpos.mono h.tree

/-- A step that keeps the tree and leaves a filed index behind. -/
theorem Filed.of_sameTree {s s' : NodeState} (hs : Filed C s) (htree : SameTree s s')
    (hview : IndexFiled (FiledAt C s) s'.txdb.txIndex)
    (hcommitted : IndexFiled (FiledAt C s) s'.txdb.committedTxIndex) : Filed C s' where
  position := by
    intro h e' he'
    obtain ⟨e, he, hsk⟩ := htree.symm.exists_entry he'
    rw [← (CBlockIndex.eq_of_skeleton hsk).2.2.2.1]
    exact hs.position he
  view := hview.mono fun _ _ _ hpos => hpos.mono htree.treeLe
  committed := hcommitted.mono fun _ _ _ hpos => hpos.mono htree.treeLe

/-- A step inside a batch that leaves a filed view behind. -/
theorem Filed.of_frame {s s' : NodeState} (hs : Filed C s) (hframe : Frame s s')
    (hbatch : s.txdb.activeBatch.isSome)
    (hview : IndexFiled (FiledAt C s) s'.txdb.txIndex) : Filed C s' := by
  refine hs.of_sameTree hframe.tree hview ?_
  have hcontent := (hframe.batch hbatch).2
  unfold CTxDB.committedTxIndex
  rw [hcontent]
  exact hs.committed

theorem Filed.connectBlock {s : NodeState} (hs : Filed C s) (hbatch : s.txdb.activeBatch.isSome)
    {b : CBlock} {h : Uint256} (hb : s.blockOf h = some b) :
    Filed C (s.connectBlock C env b h).2 := by
  refine hs.of_frame (connectBlock_frame C env s b h) hbatch ?_
  by_cases hok : (s.connectBlock C env b h).1 = true
  · obtain ⟨e, t, he, hconnect, -, hs'⟩ := connectBlock_eq_true C env hok
    obtain ⟨e', he', hfile⟩ := NodeState.blockOf_eq_some hb
    obtain rfl := Option.some.inj (he.symm.trans he')
    have hread := s.sources_readTxIndex env
    have hfiled := connectTxs_filed (F := FiledAt C s) ?_ ?_ hconnect
    · rw [hs', txIndex_connectWrites, ← hread]
      exact hfiled
    · rw [ConnectTotals.init, overlay_empty, hread]
      exact hs.view
    · intro p hp
      exact ⟨h, p, by rwa [NodeState.blockTxs_eq he hfile], rfl, rfl, rfl⟩
  · rw [connectBlock_of_failed (by simpa using hok)]
    exact hs.view

theorem Filed.disconnectBlock {s : NodeState} (hs : Filed C s)
    (hbatch : s.txdb.activeBatch.isSome) (b : CBlock) (h : Uint256) :
    Filed C (s.disconnectBlock C b h).2 := by
  refine hs.of_frame (disconnectBlock_frame C s b h) hbatch ?_
  unfold NodeState.disconnectBlock
  split
  · exact hs.view
  · have hdis := disconnectTxs_filed (C := C) b.vtx.reverse hs.view
    simp only
    split
    · rw [txIndex_writePrevLink]
      exact hdis
    · exact hdis

theorem Filed.txnBegin {s : NodeState} (hs : Filed C s) : Filed C s.txnBegin :=
  hs.of_sameTree (sameTree_withTxdb _ _) hs.committed hs.committed

theorem Filed.txnAbort {s : NodeState} (hs : Filed C s) : Filed C (s.withTxdb s.txdb.txnAbort) :=
  hs.of_sameTree (sameTree_withTxdb _ _) hs.committed hs.committed

theorem CTxDB.committedTxIndex_writeHashBestChain (db : CTxDB) (hash : Uint256) :
    (db.writeHashBestChain hash).committedTxIndex = db.committedTxIndex := by
  funext txid
  unfold committedTxIndex writeHashBestChain exec
  cases db.activeBatch with
  | none =>
    simp only [KVStore.applyOp]
    rw [Function.update_of_ne (by simp)]
  | some batch => rfl

theorem Filed.commitBest {s : NodeState} (hs : Filed C s) (hash : Uint256) :
    Filed C (s.commitBest env hash).2 := by
  have hcontent : IndexFiled (FiledAt C s) (s.commitBest env hash).2.txdb.committedTxIndex := by
    unfold NodeState.commitBest
    cases env.commitFails hash with
    | false =>
      intro txid r hr
      exact hs.view txid r (s.txdb.txIndex_writeHashBestChain hash ▸ hr)
    | true =>
      intro txid r hr
      exact hs.committed txid r (s.txdb.committedTxIndex_writeHashBestChain hash ▸ hr)
  exact hs.of_sameTree (sameTree_withTxdb _ _) hcontent hcontent

/-! ## Reached states -/

/-- **The states the chain logic gets to**, between the steps of its functions as well as between
calls: from a node without transaction records by new blocks and changes outside the transaction
index, transactions of the database, and `ConnectBlock` and `DisconnectBlock` inside one. -/
inductive Reached (C : Crypto) : NodeState → Prop
  | init {s : NodeState} : (∀ {h e}, s.mapBlockIndex h = some e → 8 ≤ e.nBlockPos) →
      s.txdb.activeBatch = none → (∀ txid, s.txdb.committedTxIndex txid = none) → Reached C s
  | change {s s' : NodeState} : Reached C s → Extends s s' → Reached C s'
  | txnBegin {s : NodeState} : Reached C s → Reached C s.txnBegin
  | txnAbort {s : NodeState} : Reached C s → Reached C (s.withTxdb s.txdb.txnAbort)
  | commitBest {s : NodeState} (env : Env) (hash : Uint256) : Reached C s →
      Reached C (s.commitBest env hash).2
  | connectBlock {s : NodeState} (env : Env) {b : CBlock} {h : Uint256} : Reached C s →
      s.txdb.activeBatch.isSome → s.blockOf h = some b → Reached C (s.connectBlock C env b h).2
  | disconnectBlock {s : NodeState} (b : CBlock) (h : Uint256) : Reached C s →
      s.txdb.activeBatch.isSome → Reached C (s.disconnectBlock C b h).2

/-- **Every reached state is filed.** -/
theorem Reached.filed {s : NodeState} (h : Reached C s) : Filed C s := by
  induction h with
  | init hpos hbatch hempty =>
    refine ⟨hpos, ?_, ?_⟩
    · intro txid r hr
      rw [CTxDB.txIndex_of_noBatch hbatch, hempty] at hr
      cases hr
    · intro txid r hr
      rw [hempty] at hr
      cases hr
  | change _ hext ih => exact ih.extends hext
  | txnBegin _ ih => exact ih.txnBegin
  | txnAbort _ ih => exact ih.txnAbort
  | commitBest env hash _ ih => exact ih.commitBest hash
  | connectBlock env _ hbatch hb ih => exact ih.connectBlock hbatch hb
  | disconnectBlock b h _ hbatch ih => exact ih.disconnectBlock hbatch b h

/-! ## Calls are made of steps -/

/-- Changes outside the entries, the files and the database. -/
theorem Reached.of_mapBlockIndex {s s' : NodeState} (h : Reached C s)
    (hmap : s'.mapBlockIndex = s.mapBlockIndex) (hfiles : s'.blkFiles = s.blkFiles)
    (htxdb : s'.txdb = s.txdb) : Reached C s' := by
  refine h.change ⟨fun k e he => ⟨e, hmap ▸ he, rfl, by rw [hfiles]⟩, ?_, by rw [htxdb],
    by rw [htxdb]⟩
  rw [hmap]
  exact h.filed.position

theorem Reached.of_sameTree {s s' : NodeState} (h : Reached C s) (htree : SameTree s s')
    (hview : s'.txdb.txIndex = s.txdb.txIndex)
    (hcommitted : s'.txdb.committedTxIndex = s.txdb.committedTxIndex) : Reached C s' :=
  h.change ⟨htree.treeLe, (h.filed.of_sameTree htree (hview ▸ h.filed.view)
    (hcommitted ▸ h.filed.committed)).position, hview, hcommitted⟩

theorem Reached.abortInvalid {s : NodeState} (h : Reached C s) (k : Uint256) :
    Reached C (s.abortInvalid k) := by
  have habort := h.txnAbort
  unfold NodeState.abortInvalid NodeState.invalidChainFound
  split
  · refine habort.of_sameTree ⟨fun _ => rfl, rfl, rfl⟩ ?_ ?_
    all_goals
      funext txid
      simp only [CTxDB.txIndex, CTxDB.view, CTxDB.committedTxIndex, CTxDB.writeBestInvalidTrust,
        NodeState.withTxdb, CTxDB.txnAbort, KVStore.applyOp, Option.getD_none, KVStore.applyOps,
        List.foldl_nil]
      rw [Function.update_of_ne (by simp)]
  · exact habort

theorem Reached.setPrevNext {s : NodeState} (h : Reached C s) (k : Uint256)
    (pnext : Option Uint256) : Reached C (s.setPrevNext k pnext) := by
  have hrel := setPrevNext_relinked (C := C) s k pnext
  exact h.of_sameTree hrel.keeps.tree (by rw [hrel.txdb]) (by rw [hrel.txdb])

theorem Reached.setBestChainInner {s : NodeState} (env : Env) (h : Reached C s)
    (hbatch : s.txdb.activeBatch.isSome) {b : CBlock} {k : Uint256} (hb : s.blockOf k = some b) :
    Reached C (s.setBestChainInner C env b k).2 := by
  have hconnect := h.connectBlock env hbatch hb
  unfold NodeState.setBestChainInner
  simp only
  split
  · exact hconnect.abortInvalid k
  · have hcommit := hconnect.commitBest env (b.getHash C)
    split
    · exact hcommit
    · exact (hcommit.setPrevNext k (some k)).of_mapBlockIndex rfl rfl rfl

theorem Reached.disconnectLoop (env : Env) (vDisconnect : List Uint256) {s : NodeState}
    (vResurrect : List CTransaction) (h : Reached C s) (hbatch : s.txdb.activeBatch.isSome) :
    Reached C (NodeState.disconnectLoop C env vDisconnect s vResurrect).2.1 := by
  induction vDisconnect generalizing s vResurrect with
  | nil => exact h
  | cons k vDisconnect ih =>
    rw [NodeState.disconnectLoop]
    split
    · exact h
    · next b _ =>
      have hdis := h.disconnectBlock b k hbatch
      have hbatch' := ((disconnectBlock_frame C s b k).batch hbatch).1
      simp only
      split
      · exact ih _ hdis hbatch'
      · exact hdis

theorem Reached.connectLoop (env : Env) (vConnect : List Uint256) {s : NodeState}
    (vDelete : List CTransaction) (h : Reached C s) (hbatch : s.txdb.activeBatch.isSome) :
    Reached C (NodeState.connectLoop C env vConnect s vDelete).2.1 := by
  induction vConnect generalizing s vDelete with
  | nil => exact h
  | cons k vConnect ih =>
    rw [NodeState.connectLoop]
    split
    · exact h
    · next b hread =>
      have hconnect := h.connectBlock env hbatch (readFromDisk_eq_some C env hread)
      have hbatch' := ((connectBlock_frame C env s b k).batch hbatch).1
      simp only
      split
      · exact ih _ hconnect hbatch'
      · exact hconnect

theorem Reached.relink {s : NodeState} (h : Reached C s) (vDisconnect vConnect : List Uint256) :
    Reached C (s.relink vDisconnect vConnect) := by
  unfold NodeState.relink
  simp only
  refine List.foldlRecOn vConnect _ ?_ fun s hs k _ => hs.setPrevNext k (some k)
  exact List.foldlRecOn vDisconnect _ h fun s hs k _ => hs.setPrevNext k none

theorem Reached.reorganize {s : NodeState} (env : Env) (h : Reached C s)
    (hbatch : s.txdb.activeBatch.isSome) (k : Uint256) :
    Reached C (s.reorganize C env k).2 := by
  unfold NodeState.reorganize
  split
  · exact h
  · split
    · exact h
    · split
      · next vDisconnect walk _ _ =>
        have hdis := h.disconnectLoop env vDisconnect [] hbatch
        have hbatch' :=
          ((disconnectLoop_frame C env vDisconnect s []).batch hbatch).1
        have hcon := hdis.connectLoop env walk.reverse [] hbatch'
        simp only
        split
        · exact hdis
        · split
          · exact hcon
          · have hcommit := hcon.commitBest env k
            split
            · exact hcommit
            · obtain ⟨m, hm⟩ := exists_mempool_resurrect
                (NodeState.disconnectLoop C env vDisconnect s []).2.2 _ _
              rw [hm]
              exact (hcommit.relink _ _).of_mapBlockIndex rfl rfl rfl
      · exact h

theorem Reached.connectFurther (env : Env) (vpindexSecondary : List Uint256) {s : NodeState}
    (h : Reached C s) : Reached C (NodeState.connectFurther C env vpindexSecondary s).2 := by
  induction vpindexSecondary generalizing s with
  | nil => exact h
  | cons k vpindexSecondary ih =>
    rw [NodeState.connectFurther]
    split
    · exact h
    · next b hread =>
      have hb : s.txnBegin.blockOf k = some b := readFromDisk_eq_some C env hread
      have hinner := h.txnBegin.setBestChainInner env rfl hb
      simp only
      split
      · exact ih hinner
      · exact hinner

/-- **A call of `SetBestChain` is made of steps.** -/
theorem Reached.setBestChain {s : NodeState} (env : Env) (h : Reached C s) {b : CBlock} {k : Uint256}
    (hb : s.blockOf k = some b) : Reached C (s.setBestChain C env b k).2 := by
  have hbranches : Reached C (s.txnBegin.setBestChainBranches C env b k).2 := by
    have hbegin := h.txnBegin
    unfold NodeState.setBestChainBranches
    split
    · have hcommit := hbegin.commitBest env (b.getHash C)
      unfold NodeState.setBestChainGenesis
      simp only
      split
      · exact hcommit.of_mapBlockIndex rfl rfl rfl
      · exact hcommit
    · split
      · exact hbegin.setBestChainInner env rfl hb
      · unfold NodeState.setBestChainReorganize
        split
        · exact hbegin
        · next t _ =>
          have hreorg := hbegin.reorganize env rfl (s.txnBegin.postpone t k).1
          simp only
          split
          · exact hreorg.abortInvalid k
          · exact hreorg.connectFurther env _
  unfold NodeState.setBestChain
  simp only
  split
  · exact hbranches.of_mapBlockIndex rfl rfl rfl
  · exact hbranches

/-- The states of runs are reached. -/
theorem Run.reached {Call : Env → NodeState → CBlock → Uint256 → Prop} {s : NodeState}
    (h : Run C Call s) : Reached C s := by
  induction h with
  | genesis hg => exact Reached.init (fun he => (hg.tree.position he).2) hg.batch hg.txIndex
  | grow _ hgrow ih =>
    -- there is no batch to abort between calls
    refine ih.txnAbort.change ⟨hgrow.treeLe, fun he => (hgrow.tree.position he).2, ?_,
      hgrow.txIndex⟩
    rw [CTxDB.txIndex_of_noBatch hgrow.batch]
    exact hgrow.txIndex
  | call _ hb _ ih => exact ih.setBestChain _ hb

/-! ## AcceptBlock -/

/-- The block file is appended to: no entry has the position a block is written at. -/
def Env.Appends (env : Env) (s : NodeState) : Prop :=
  ∀ nFile nBlockPos, env.writeToDisk = some (nFile, nBlockPos) → 8 ≤ nBlockPos ∧
    ∀ h e, s.mapBlockIndex h = some e → ¬(e.nFile = nFile ∧ e.nBlockPos = nBlockPos)

/-- Committing a record other than that of a transaction keeps the transaction index. -/
theorem CTxDB.committedTxIndex_commitRecord (db : CTxDB) {k : DbKey} (v : k.Value)
    (hk : ∀ txid, DbKey.tx txid ≠ k) (ok : Bool) :
    ((db.txnBegin.exec (.put k v)).txnCommit ok).committedTxIndex = db.committedTxIndex := by
  funext txid
  cases ok with
  | false => rfl
  | true => exact Function.update_of_ne (hk txid) _ _

theorem Reached.commitRecord {s : NodeState} (h : Reached C s) {k : DbKey} (v : k.Value)
    (hk : ∀ txid, DbKey.tx txid ≠ k) (ok : Bool) :
    Reached C (s.withTxdb ((s.txdb.txnBegin.exec (.put k v)).txnCommit ok)) := by
  have hcommitted := s.txdb.committedTxIndex_commitRecord v hk ok
  refine h.txnAbort.change ⟨(sameTree_withTxdb s _).treeLe, h.filed.position, ?_, hcommitted⟩
  rw [CTxDB.txIndex_of_noBatch rfl]
  exact hcommitted

theorem NodeState.newBlockIndex_eq_some {s : NodeState} {b : CBlock} {nFile nBlockPos : Nat}
    {hashProofOfStake : Uint256} {e : CBlockIndex}
    (h : s.newBlockIndex C b nFile nBlockPos hashProofOfStake = some e) :
    e.hash = b.getHash C ∧ e.nFile = nFile ∧ e.nBlockPos = nBlockPos := by
  simp only [NodeState.newBlockIndex] at h
  split at h
  · cases h
  · split at h
    · obtain rfl := Option.some.inj h
      exact ⟨rfl, rfl, rfl⟩
    · cases h

/-- Writing a block where no entry is keeps the tree. -/
theorem treeLe_writeBlock {s : NodeState} {nFile nBlockPos : Nat}
    (hnew : ∀ k e, s.mapBlockIndex k = some e → ¬(e.nFile = nFile ∧ e.nBlockPos = nBlockPos))
    (b : CBlock) : TreeLe s (s.writeBlock b nFile nBlockPos) := by
  intro k e he
  refine ⟨e, he, rfl, ?_⟩
  have hne := hnew k e he
  unfold NodeState.writeBlock
  by_cases hf : e.nFile = nFile
  · rw [hf]
    simp only [Function.update_self]
    exact Function.update_of_ne (fun hp => hne ⟨hf, hp⟩) _ _
  · simp only [Function.update_of_ne hf]

/-- A new entry keeps the tree. -/
theorem treeLe_insertIndex {s : NodeState} {e : CBlockIndex}
    (hnone : s.mapBlockIndex e.hash = none) : TreeLe s (s.insertIndex e) := by
  intro k e' he'
  have hne : k ≠ e.hash := by
    rintro rfl
    rw [hnone] at he'
    cases he'
  refine ⟨e', ?_, rfl, rfl⟩
  unfold NodeState.insertIndex
  simpa only [Function.update_of_ne hne] using he'

theorem Reached.writeBlock {s : NodeState} (h : Reached C s) {nFile nBlockPos : Nat}
    (hnew : ∀ k e, s.mapBlockIndex k = some e → ¬(e.nFile = nFile ∧ e.nBlockPos = nBlockPos))
    (b : CBlock) : Reached C (s.writeBlock b nFile nBlockPos) :=
  h.change ⟨treeLe_writeBlock hnew b, h.filed.position, rfl, rfl⟩

/-- A new entry at a position past the magic bytes. -/
theorem Reached.insertIndex {s : NodeState} (h : Reached C s) {e : CBlockIndex}
    (hnone : s.mapBlockIndex e.hash = none) (hpos : 8 ≤ e.nBlockPos) :
    Reached C (s.insertIndex e) := by
  refine h.change ⟨treeLe_insertIndex hnone, ?_, rfl, rfl⟩
  intro k e' he'
  unfold NodeState.insertIndex at he'
  by_cases hk : k = e.hash
  · subst hk
    simp only [Function.update_self] at he'
    obtain rfl := Option.some.inj he'
    exact hpos
  · simp only [Function.update_of_ne hk] at he'
    exact h.filed.position he'

theorem Reached.addToBlockIndex {s : NodeState} (env : Env) (h : Reached C s) {b : CBlock}
    {nFile nBlockPos : Nat} (hfile : s.blkFiles nFile nBlockPos = some b) (hpos : 8 ≤ nBlockPos)
    (hashProofOfStake : Uint256) :
    Reached C (s.addToBlockIndex C env b nFile nBlockPos hashProofOfStake).2 := by
  unfold NodeState.addToBlockIndex
  split
  · exact h
  · next hunknown =>
    split
    · exact h
    · next e he =>
      obtain ⟨hhash, hf, hp⟩ := NodeState.newBlockIndex_eq_some he
      have hnone : s.mapBlockIndex e.hash = none := by
        rw [hhash]
        simpa using hunknown
      have hindex := h.insertIndex hnone (hp ▸ hpos)
      have hcommit := hindex.commitRecord (k := .blockindex e.hash) (CDiskBlockIndex.ofIndex e)
        (by simp) (!env.indexCommitFails)
      simp only
      split
      · exact hcommit
      · split
        · refine hcommit.setBestChain env ?_
          have hentry : (s.insertIndex e).mapBlockIndex e.hash = some e := Function.update_self ..
          simp only [NodeState.blockOf, NodeState.withTxdb, hentry, Option.bind_some, hf, hp]
          exact hfile
        · exact hcommit

theorem Reached.writeSyncCheckpoint {s : NodeState} (env : Env) (h : Reached C s)
    (hash : Uint256) : Reached C (s.writeSyncCheckpoint env hash) := by
  have hcommit := h.commitRecord (k := .hashSyncCheckpoint) hash (by simp)
    (!env.indexCommitFails)
  unfold NodeState.writeSyncCheckpoint
  simp only
  split
  · exact hcommit
  · exact hcommit.of_mapBlockIndex rfl rfl rfl

theorem Reached.acceptPendingSyncCheckpoint {s : NodeState} (env : Env) (h : Reached C s) :
    Reached C (s.acceptPendingSyncCheckpoint C env) := by
  unfold NodeState.acceptPendingSyncCheckpoint
  simp only
  split
  · exact h
  · split
    · exact h.of_mapBlockIndex rfl rfl rfl
    · split
      · exact h.writeSyncCheckpoint env _
      · split
        · exact h
        · next b hread =>
          have hset := h.setBestChain env (readFromDisk_eq_some C env hread)
          split
          · exact hset.writeSyncCheckpoint env _
          · exact hset

/-- **A call of `AcceptBlock` is made of steps.** -/
theorem Reached.acceptBlock {s : NodeState} (h : Reached C s) (henv : env.Appends s) (b : CBlock) :
    Reached C (s.acceptBlock C env b).2 := by
  unfold NodeState.acceptBlock
  split
  · exact h
  · split
    · exact h
    · next nFile nBlockPos hwrite =>
      obtain ⟨hpos, hnew⟩ := henv nFile nBlockPos hwrite
      have hfile : (s.writeBlock b nFile nBlockPos).blkFiles nFile nBlockPos = some b := by
        simp [NodeState.writeBlock]
      have hadd := (h.writeBlock hnew b).addToBlockIndex env hfile hpos
      simp only
      split
      · exact (hadd _).acceptPendingSyncCheckpoint env
      · exact hadd _

end MotaCoin
