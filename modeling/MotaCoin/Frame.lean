import MotaCoin.Tree

/-!
# What a batch leaves alone

Until its commit, everything `Reorganize` and `SetBestChainInner` do goes into the write batch and
into the minted amounts of index entries: the tree, its forward links, the globals of the tip and
the memory pool are as before. So a call that fails leaves no trace in them.

## Main definitions

* `SameTip`: the globals of the tip are the same
* `Frame`: what is unchanged inside a batch
* `Unchanged`: what is unchanged by a failed call

## Main results

* `connectBlock_frame`, `disconnectBlock_frame`, `connectLoop_frame`, `disconnectLoop_frame`
* `setBestChainBranches_unchanged`: what fails leaves no trace
-/

namespace MotaCoin

variable (C : Crypto) (env : Env)

/-- The globals `SetBestChain` sets at its end are the same. -/
structure SameTip (s s' : NodeState) : Prop where
  pindexBest : s'.pindexBest = s.pindexBest
  hashBestChain : s'.hashBestChain = s.hashBestChain
  nBestHeight : s'.nBestHeight = s.nBestHeight
  nBestChainTrust : s'.nBestChainTrust = s.nBestChainTrust

theorem SameTip.refl (s : NodeState) : SameTip s s := ⟨rfl, rfl, rfl, rfl⟩

theorem SameTip.trans {s s' s'' : NodeState} (h : SameTip s s') (h' : SameTip s' s'') :
    SameTip s s'' :=
  ⟨h'.1.trans h.1, h'.2.trans h.2, h'.3.trans h.3, h'.4.trans h.4⟩

/-- **What is unchanged inside a batch.** -/
structure Frame (s s' : NodeState) : Prop where
  tree : SameTree s s'
  tip : SameTip s s'
  next : s'.nextOf = s.nextOf
  mempool : s'.mempool = s.mempool
  batch : s.txdb.InBatch s'.txdb

namespace Frame

variable {s s' s'' : NodeState}

theorem refl (s : NodeState) : Frame s s :=
  ⟨SameTree.refl s, SameTip.refl s, rfl, rfl, CTxDB.InBatch.refl _⟩

theorem trans (h : Frame s s') (h' : Frame s' s'') : Frame s s'' :=
  ⟨h.tree.trans h'.tree, h.tip.trans h'.tip, h'.next.trans h.next, h'.mempool.trans h.mempool,
    h.batch.trans h'.batch⟩

/-- Writes into the database and messages to the wallets. -/
theorem of_txdb {txdb : CTxDB} {walletSyncs : List WalletSync} (h : s.txdb.InBatch txdb) :
    Frame s { s with txdb := txdb, walletSyncs := walletSyncs } :=
  ⟨⟨fun _ => rfl, rfl, rfl⟩, ⟨rfl, rfl, rfl, rfl⟩, rfl, rfl, h⟩

end Frame

theorem writePrevLink_inBatch (s : NodeState) (pindex : CBlockIndex) (hashNext : Uint256)
    (txdb : CTxDB) : txdb.InBatch (s.writePrevLink pindex hashNext txdb) := by
  unfold NodeState.writePrevLink
  split
  · exact CTxDB.InBatch.refl _
  · exact txdb.inBatch_exec _

@[simp] theorem txIndex_writePrevLink (s : NodeState) (pindex : CBlockIndex) (hashNext : Uint256)
    (txdb : CTxDB) : (s.writePrevLink pindex hashNext txdb).txIndex = txdb.txIndex := by
  unfold NodeState.writePrevLink
  split
  · rfl
  · exact txdb.txIndex_writeBlockIndex _

/-! ## Connecting and disconnecting -/

theorem connectWrites_frame {s : NodeState} {hash : Uint256} {pindex : CBlockIndex}
    (he : s.mapBlockIndex hash = some pindex) (b : CBlock) (t : ConnectTotals) :
    Frame s (s.connectWrites b hash pindex t) where
  tree := by
    refine ⟨fun k => ?_, rfl, rfl⟩
    by_cases hk : k = hash
    · subst hk
      simp only [NodeState.connectWrites, Function.update_self, he, Option.map_some]
      rfl
    · simp only [NodeState.connectWrites, Function.update_of_ne hk]
  tip := ⟨rfl, rfl, rfl, rfl⟩
  next := by
    funext k
    by_cases hk : k = hash
    · subst hk
      simp only [NodeState.nextOf, NodeState.connectWrites, Function.update_self, he,
        Option.bind_some]
    · simp only [NodeState.nextOf, NodeState.connectWrites, Function.update_of_ne hk]
  mempool := rfl
  batch := ((s.txdb.inBatch_exec _).trans (writeQueue_inBatch _ _)).trans
    (writePrevLink_inBatch _ _ _ _)

theorem connectBlock_frame (s : NodeState) (b : CBlock) (hash : Uint256) :
    Frame s (s.connectBlock C env b hash).2 := by
  unfold NodeState.connectBlock
  split
  · exact Frame.refl s
  · next pindex he =>
    split
    · exact Frame.refl s
    · exact connectWrites_frame he b _

theorem disconnectBlock_frame (s : NodeState) (b : CBlock) (hash : Uint256) :
    Frame s (s.disconnectBlock C b hash).2 := by
  unfold NodeState.disconnectBlock
  split
  · exact Frame.refl s
  · have hbatch := disconnectTxs_inBatch C b.vtx.reverse s.txdb
    simp only
    split
    · exact Frame.of_txdb (hbatch.trans (writePrevLink_inBatch _ _ _ _))
    · exact Frame.of_txdb hbatch

theorem disconnectLoop_frame (vDisconnect : List Uint256) (s : NodeState)
    (vResurrect : List CTransaction) :
    Frame s (NodeState.disconnectLoop C env vDisconnect s vResurrect).2.1 := by
  induction vDisconnect generalizing s vResurrect with
  | nil => exact Frame.refl s
  | cons hash vDisconnect ih =>
    simp only [NodeState.disconnectLoop]
    split
    · exact Frame.refl s
    · next b _ =>
      split
      · exact (disconnectBlock_frame C s b hash).trans (ih _ _)
      · exact disconnectBlock_frame C s b hash

theorem connectLoop_frame (vConnect : List Uint256) (s : NodeState)
    (vDelete : List CTransaction) :
    Frame s (NodeState.connectLoop C env vConnect s vDelete).2.1 := by
  induction vConnect generalizing s vDelete with
  | nil => exact Frame.refl s
  | cons hash vConnect ih =>
    simp only [NodeState.connectLoop]
    split
    · exact Frame.refl s
    · next b _ =>
      split
      · exact (connectBlock_frame C env s b hash).trans (ih _ _)
      · exact connectBlock_frame C env s b hash

/-! ## Failed calls -/

/-- **What a failed call leaves alone**: the committed transaction index and best chain, the
forward links, the globals of the tip and the memory pool. -/
structure Unchanged (s s' : NodeState) : Prop where
  txIndex : s'.txdb.committedTxIndex = s.txdb.committedTxIndex
  best : s'.txdb.content .hashBestChain = s.txdb.content .hashBestChain
  next : s'.nextOf = s.nextOf
  tip : SameTip s s'
  mempool : s'.mempool = s.mempool

namespace Unchanged

variable {s s' s'' : NodeState}

theorem trans (h : Unchanged s s') (h' : Unchanged s' s'') : Unchanged s s'' :=
  ⟨h'.txIndex.trans h.txIndex, h'.best.trans h.best, h'.next.trans h.next, h.tip.trans h'.tip,
    h'.mempool.trans h.mempool⟩

/-- The database may change in any way that keeps the committed records. -/
theorem of_content {txdb : CTxDB} (h : txdb.content = s.txdb.content) :
    Unchanged s (s.withTxdb txdb) where
  txIndex := funext fun hash => congrFun h (.tx hash)
  best := congrFun h .hashBestChain
  next := rfl
  tip := ⟨rfl, rfl, rfl, rfl⟩
  mempool := rfl

end Unchanged

theorem Frame.unchanged {s s' : NodeState} (h : Frame s s') (hb : s.txdb.activeBatch.isSome) :
    Unchanged s s' where
  txIndex := by
    unfold CTxDB.committedTxIndex
    rw [(h.batch hb).2]
  best := by rw [(h.batch hb).2]
  next := h.next
  tip := h.tip
  mempool := h.mempool

theorem invalidChainFound_unchanged (s : NodeState) (pindexNew : Uint256) :
    Unchanged s (s.invalidChainFound pindexNew) := by
  unfold NodeState.invalidChainFound
  split
  · refine ⟨?_, ?_, rfl, ⟨rfl, rfl, rfl, rfl⟩, rfl⟩
    · funext hash
      simp only [CTxDB.committedTxIndex, CTxDB.writeBestInvalidTrust, KVStore.applyOp]
      rw [Function.update_of_ne (by simp)]
    · simp only [CTxDB.writeBestInvalidTrust, KVStore.applyOp]
      rw [Function.update_of_ne (by simp)]
  · exact Unchanged.of_content rfl

theorem abortInvalid_unchanged (s : NodeState) (pindexNew : Uint256) :
    Unchanged s (s.abortInvalid pindexNew) := by
  have habort : Unchanged s (s.withTxdb s.txdb.txnAbort) := Unchanged.of_content rfl
  exact habort.trans (invalidChainFound_unchanged _ _)

/-- A commit that fails drops the batch. -/
theorem commitBest_unchanged {s : NodeState} (hb : s.txdb.activeBatch.isSome) {hash : Uint256}
    (h : (s.commitBest env hash).1 = false) : Unchanged s (s.commitBest env hash).2 := by
  refine Unchanged.of_content ?_
  have hok : (!env.commitFails hash) = false := h
  simp only [CTxDB.txnCommit, hok, Bool.false_eq_true, if_false]
  exact s.txdb.content_exec_of_batch _ hb

theorem setBestChainInner_unchanged {s : NodeState} (hb : s.txdb.activeBatch.isSome) {b : CBlock}
    {pindexNew : Uint256} (h : (s.setBestChainInner C env b pindexNew).1 = false) :
    Unchanged s (s.setBestChainInner C env b pindexNew).2 := by
  have hframe := connectBlock_frame C env s b pindexNew
  unfold NodeState.setBestChainInner at h ⊢
  simp only at h ⊢
  split at h
  · next hc =>
    rw [if_pos hc]
    exact (hframe.unchanged hb).trans (abortInvalid_unchanged _ _)
  · next hc =>
    rw [if_neg hc]
    split at h
    · next hr =>
      rw [if_pos hr]
      exact (hframe.unchanged hb).trans
        (commitBest_unchanged env (hframe.batch hb).1 (by simpa using hr))
    · cases h

theorem reorganize_unchanged {s : NodeState} (hb : s.txdb.activeBatch.isSome)
    {pindexNew : Uint256} (h : (s.reorganize C env pindexNew).1 = false) :
    Unchanged s (s.reorganize C env pindexNew).2 := by
  have hself : Unchanged s s := Unchanged.of_content rfl
  unfold NodeState.reorganize at h ⊢
  split
  · exact hself
  · next pindexBest hbest =>
    simp only [hbest] at h
    split
    · exact hself
    · next pfork hfork =>
      simp only [hfork] at h
      split
      · next vDisconnect walk hw₁ hw₂ =>
        simp only [hw₁, hw₂] at h
        have hd := disconnectLoop_frame C env vDisconnect s []
        have hc := hd.trans (connectLoop_frame C env walk.reverse _ [])
        split at h
        · next hd₁ =>
          rw [if_pos hd₁]
          exact hd.unchanged hb
        · next hd₁ =>
          rw [if_neg hd₁]
          split at h
          · next hc₁ =>
            rw [if_pos hc₁]
            exact hc.unchanged hb
          · next hc₁ =>
            rw [if_neg hc₁]
            split at h
            · next hr =>
              rw [if_pos hr]
              exact (hc.unchanged hb).trans
                (commitBest_unchanged env (hc.batch hb).1 (by simpa using hr))
            · cases h
      · exact hself

theorem setBestChainReorganize_unchanged {s : NodeState} (hb : s.txdb.activeBatch.isSome)
    {pindexNew : Uint256} (h : (s.setBestChainReorganize C env pindexNew).1 = false) :
    Unchanged s (s.setBestChainReorganize C env pindexNew).2 := by
  unfold NodeState.setBestChainReorganize at h ⊢
  split
  · exact Unchanged.of_content rfl
  · next pindexBest hbest =>
    simp only [hbest] at h ⊢
    split at h
    · next hr =>
      rw [if_pos hr]
      exact (reorganize_unchanged C env hb (by simpa using hr)).trans (abortInvalid_unchanged _ _)
    · cases h

theorem setBestChainGenesis_unchanged {s : NodeState} (hb : s.txdb.activeBatch.isSome) {b : CBlock}
    {pindexNew : Uint256} (h : (s.setBestChainGenesis C env b pindexNew).1 = false) :
    Unchanged s (s.setBestChainGenesis C env b pindexNew).2 := by
  unfold NodeState.setBestChainGenesis at h ⊢
  simp only at h ⊢
  split at h
  · cases h
  · next hr =>
    rw [if_neg hr]
    exact commitBest_unchanged env hb (by simpa using hr)

theorem setBestChainBranches_unchanged {s : NodeState} (hb : s.txdb.activeBatch.isSome)
    {b : CBlock} {pindexNew : Uint256}
    (h : (s.setBestChainBranches C env b pindexNew).1 = false) :
    Unchanged s (s.setBestChainBranches C env b pindexNew).2 := by
  unfold NodeState.setBestChainBranches at h ⊢
  split at h
  · next hg =>
    rw [if_pos hg]
    exact setBestChainGenesis_unchanged C env hb h
  · next hg =>
    rw [if_neg hg]
    split at h
    · next hd =>
      rw [if_pos hd]
      exact setBestChainInner_unchanged C env hb h
    · next hd =>
      rw [if_neg hd]
      exact setBestChainReorganize_unchanged C env hb h

/-- What `SetBestChain` answers is what its branches answer. -/
theorem setBestChain_fst (s : NodeState) (b : CBlock) (pindexNew : Uint256) :
    (s.setBestChain C env b pindexNew).1 =
      (s.txnBegin.setBestChainBranches C env b pindexNew).1 := by
  unfold NodeState.setBestChain
  simp only
  split
  · next h => exact h.symm
  · next h => simpa using h

theorem setBestChain_of_failed {s : NodeState} {b : CBlock} {pindexNew : Uint256}
    (h : (s.setBestChain C env b pindexNew).1 = false) :
    (s.setBestChain C env b pindexNew).2 =
      (s.txnBegin.setBestChainBranches C env b pindexNew).2 := by
  rw [setBestChain_fst] at h
  simp only [NodeState.setBestChain, h, Bool.false_eq_true, if_false]

theorem setBestChain_of_ok {s : NodeState} {b : CBlock} {pindexNew : Uint256}
    (h : (s.setBestChain C env b pindexNew).1 = true) :
    (s.setBestChain C env b pindexNew).2 = NodeState.newBestBlock C
      (s.txnBegin.setBestChainBranches C env b pindexNew).2 b
      pindexNew := by
  rw [setBestChain_fst] at h
  simp only [NodeState.setBestChain, h, if_true]

end MotaCoin
