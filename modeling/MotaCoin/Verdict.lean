import MotaCoin.Branch

/-!
# What the verdict of `ConnectBlock` depends on

On the index of a branch no record points into the memory pool, so `ConnectBlock` reads the index,
the block files, the fixed part of the tree and the globals of the tip, and nothing else. Two nodes
that agree on these accept the same blocks.

## Main definitions

* `SameReads`: two sources that differ in the memory pool only
* `NodeState.withIndex`: a node with another transaction index

## Main results

* `connectTxs_congr`: the loop of `ConnectBlock` does not read the memory pool
* `connectBlock_fst_congr`: the verdict depends on the index, the tree and the tip
-/

namespace MotaCoin

open SpendIndex (Valid unspentValue)

variable {C : Crypto} {env : Env}

/-- The sources agree on everything but the memory pool. -/
structure SameReads (src src' : Sources) : Prop where
  readTxIndex : src'.readTxIndex = src.readTxIndex
  readTx : src'.readTx = src.readTx
  readHeader : src'.readHeader = src.readHeader

section Reads

variable {src src' : Sources} (hsrc : SameReads src src')
include hsrc

/-- No record the queue shows points into the memory pool. -/
theorem fetchPrev_congr {q : TxIndexQueue}
    (hq : ∀ hash txindex, overlay src.readTxIndex q hash = some txindex →
      txindex.pos ≠ CDiskTxPos.memPool) (hash : Uint256) :
    CTransaction.fetchPrev src' q true false hash = CTransaction.fetchPrev src q true false hash := by
  unfold CTransaction.fetchPrev
  rw [lookupTxIndex_eq src q rfl hash, lookupTxIndex_eq src' q rfl hash, hsrc.readTxIndex]
  cases ho : overlay src.readTxIndex q hash with
  | none => rfl
  | some txindex => simp only [hq hash txindex ho, if_false, hsrc.readTx]

theorem fetchLoop_congr {q : TxIndexQueue}
    (hq : ∀ hash txindex, overlay src.readTxIndex q hash = some txindex →
      txindex.pos ≠ CDiskTxPos.memPool) (vin : List CTxIn) (inputs : MapPrevTx) :
    CTransaction.fetchLoop src' q true false vin inputs =
      CTransaction.fetchLoop src q true false vin inputs := by
  induction vin generalizing inputs with
  | nil => rfl
  | cons txin vin ih =>
    simp only [CTransaction.fetchLoop, fetchPrev_congr hsrc hq, ih]

/-- One round of `ConnectBlock` does not read the memory pool. -/
theorem connectTx_congr {t : ConnectTotals}
    (hq : ∀ hash txindex, overlay src.readTxIndex t.mapQueuedChanges hash = some txindex →
      txindex.pos ≠ CDiskTxPos.memPool) (ctx : CTransaction.ConnectCtx) (tx : CTransaction)
    (pos : CDiskTxPos) : connectTx C src' ctx t tx pos = connectTx C src ctx t tx pos := by
  have hfetch : tx.fetchInputs src' t.mapQueuedChanges true false =
      tx.fetchInputs src t.mapQueuedChanges true false := by
    simp only [CTransaction.fetchInputs, fetchLoop_congr hsrc hq]
  simp only [connectTx, hfetch, hsrc.readTxIndex]

theorem getCoinAgeFrom_congr (tx : CTransaction) (vin : List CTxIn) (bnCentSecond : Int) :
    tx.getCoinAgeFrom src' bnCentSecond vin = tx.getCoinAgeFrom src bnCentSecond vin := by
  have hread : CTransaction.readFromDisk src' = CTransaction.readFromDisk src := by
    funext prevout
    simp only [CTransaction.readFromDisk, hsrc.readTxIndex, hsrc.readTx]
  induction vin generalizing bnCentSecond with
  | nil => rfl
  | cons txin vin ih => simp only [CTransaction.getCoinAgeFrom, hread, hsrc.readHeader, ih]

end Reads

/-- The index of a chain of proper positions has no mark of the memory pool. -/
theorem pos_ne_memPool {txs : List (CTransaction × CDiskTxPos)} (hproper : ∀ p ∈ txs, p.2.Proper)
    {hash : Uint256} {txindex : CTxIndex} (h : indexOf C txs hash = some txindex) :
    txindex.pos ≠ CDiskTxPos.memPool := by
  obtain ⟨e, he, -, rfl⟩ := SpendIndex.exists_of_ofLedger CDiskTxPos.null h
  obtain ⟨p, hp, rfl⟩ := mem_ledgerOf.mp he
  exact (hproper p hp).2

/-- **The loop of `ConnectBlock` does not read the memory pool.** -/
theorem connectTxs_congr {src src' : Sources} (hsrc : SameReads src src')
    {ctx : CTransaction.ConnectCtx} {base : Int} {blk : List (CTransaction × CDiskTxPos)} :
    ∀ {txs : List (CTransaction × CDiskTxPos)} {t : ConnectTotals},
      ConnectInv C src base txs t → (∀ p ∈ txs ++ blk, p.2.Proper) →
      ReadsBack src.readTx (txs ++ blk) → ((txs ++ blk).map fun p => C.hashTx p.1).Nodup →
      connectTxs C src' ctx blk t = connectTxs C src ctx blk t := by
  induction blk with
  | nil => exact fun _ _ _ _ => rfl
  | cons p blk ih =>
    intro txs t hinv hproper hdisk hnd
    have hstep : connectTx C src' ctx t p.1 p.2 = connectTx C src ctx t p.1 p.2 := by
      refine connectTx_congr hsrc (fun hash txindex ho => ?_) ctx p.1 p.2
      rw [hinv.index] at ho
      exact pos_ne_memPool (fun p' hp' => hproper p' (List.mem_append_left _ hp')) ho
    have hassoc : txs ++ p :: blk = (txs ++ [p]) ++ blk := by simp
    rw [hassoc] at hproper hdisk hnd
    simp only [connectTxs, hstep]
    cases ht : connectTx C src ctx t p.1 p.2 with
    | none => rfl
    | some t' =>
      have hone : connectTxs C src ctx [p] t = some t' := by simp [connectTxs, ht]
      refine ih (connectTxs_spec C hinv ?_ ?_ ?_ hone) hproper hdisk hnd
      · exact fun p' hp' => hproper p' (List.mem_append_left _ hp')
      · exact fun p' hp' => hdisk p' (List.mem_append_left _ hp')
      · rw [List.map_append] at hnd
        exact (List.nodup_append.mp hnd).1

/-! ## Two nodes -/

/-- A node with another transaction index, and no batch. -/
def NodeState.withIndex (s : NodeState) (idx : TxIndexMap) : NodeState :=
  { s with txdb := ⟨fun
    | .tx hash => idx hash
    | k => s.txdb.content k, none⟩ }

@[simp] theorem txIndex_withIndex (s : NodeState) (idx : TxIndexMap) :
    (s.withIndex idx).txdb.txIndex = idx := rfl

section TwoNodes

variable {s s' : NodeState}

theorem immatureFrom_congr (htree : SameTree s s') {e e' : CBlockIndex}
    (he : e'.nHeight = e.nHeight) (nFile nBlockPos fuel : Nat) (pindex : Option Uint256) :
    s'.immatureFrom e' nFile nBlockPos fuel pindex = s.immatureFrom e nFile nBlockPos fuel pindex := by
  induction fuel generalizing pindex with
  | zero => rfl
  | succ fuel ih =>
    cases pindex with
    | none => rfl
    | some hash =>
      simp only [NodeState.immatureFrom]
      cases hk : s.mapBlockIndex hash with
      | none =>
        have hk' : s'.mapBlockIndex hash = none := by
          have := htree.isSome hash
          rw [hk] at this
          simpa using this
        simp only [hk']
      | some f =>
        obtain ⟨f', hf', hsk⟩ := htree.exists_entry hk
        obtain ⟨-, hpp, hfile, hpos, hheight, -⟩ := CBlockIndex.eq_of_skeleton hsk
        simp only [hf', he, hheight, hfile, hpos, hpp, ih]

theorem connectCtx_congr (htree : SameTree s s') (htip : SameTip s s') {e e' : CBlockIndex}
    (he : e'.skeleton = e.skeleton) : s'.connectCtx e' true = s.connectCtx e true := by
  obtain ⟨hhash, -, -, -, hheight, -⟩ := CBlockIndex.eq_of_skeleton he
  simp only [NodeState.connectCtx, htip.nBestHeight, hhash, hheight]
  congr 1
  funext nFile nBlockPos
  exact immatureFrom_congr htree hheight nFile nBlockPos _ _

theorem sameReads_sources (htree : SameTree s s') (hidx : s'.txdb.txIndex = s.txdb.txIndex) :
    SameReads (s.sources env) (s'.sources env) where
  readTxIndex := by
    funext hash
    simp only [NodeState.sources, CTxDB.readTxIndex_eq, hidx]
  readTx := by
    funext pos
    simp only [NodeState.sources, NodeState.readTx, htree.blkFiles]
  readHeader := by
    funext nFile nBlockPos
    simp only [NodeState.sources, NodeState.readBlockAt, htree.blkFiles]

theorem checkRewards_congr (htree : SameTree s s') (htip : SameTip s s')
    (hidx : s'.txdb.txIndex = s.txdb.txIndex) {e e' : CBlockIndex}
    (he : e'.skeleton = e.skeleton) (b : CBlock) (t : ConnectTotals) :
    s'.checkRewards C env b e' t = s.checkRewards C env b e t := by
  have hpp := (CBlockIndex.eq_of_skeleton he).2.1
  have hage : ∀ tx : CTransaction, tx.getCoinAge (s'.sources env) = tx.getCoinAge (s.sources env) := by
    intro tx
    simp only [CTransaction.getCoinAge, getCoinAgeFrom_congr (sameReads_sources htree hidx)]
  have hbest : s'.best.map CBlockIndex.nHeight = s.best.map CBlockIndex.nHeight := by
    unfold NodeState.best
    rw [htip.pindexBest]
    cases s.pindexBest with
    | none => rfl
    | some k => exact htree.map_eq CBlockIndex.nHeight (fun _ => rfl) k
  have hcoinbase : s'.checkCoinbaseReward b t.nFees = s.checkCoinbaseReward b t.nFees := by
    unfold NodeState.checkCoinbaseReward
    cases hs : s.best with
    | none =>
      rw [hs] at hbest
      simp only [Option.map_none, Option.map_eq_none_iff] at hbest
      simp only [hbest]
    | some k =>
      rw [hs, Option.map_some, Option.map_eq_some_iff] at hbest
      obtain ⟨k', hk', hheight⟩ := hbest
      cases b.vtx with
      | nil => simp only [hk']
      | cons tx vtx => simp only [hk', hheight]
  simp only [NodeState.checkRewards, hcoinbase, NodeState.checkStakeReward, hage, hpp]

/-- **The verdict of `ConnectBlock` depends on the index, the tree and the tip**, when the index is
the one of the parent. -/
theorem connectBlock_fst_congr (hT : TreeOK C s) (htree : SameTree s s') (htip : SameTip s s')
    (hidx : s'.txdb.txIndex = s.txdb.txIndex) {h p : Uint256} {b : CBlock}
    (hp : s.parentOf h = some p) (hb : s.blockOf h = some b)
    (hindex : s.txdb.txIndex = indexOf C (s.pathTxs p)) (hv : Valid (ledgerOf C (s.pathTxs p))) :
    (s'.connectBlock C env b h).1 = (s.connectBlock C env b h).1 := by
  obtain ⟨e, he, hfile⟩ := NodeState.blockOf_eq_some hb
  obtain ⟨e', he', hsk⟩ := htree.exists_entry he
  obtain ⟨-, -, hf, hpos, -, -⟩ := CBlockIndex.eq_of_skeleton hsk
  have hpath : s.pathTxs h = s.pathTxs p ++ txPositions e.nFile e.nBlockPos b := by
    rw [hT.pathTxs_of_parent hp, NodeState.blockTxs_eq he hfile]
  have hsrc : (s.sources env).readTxIndex = s.txdb.txIndex :=
    funext fun hash => s.txdb.readTxIndex_eq hash
  have htxs : connectTxs C (s'.sources env) (s.connectCtx e true)
      (txPositions e.nFile e.nBlockPos b) ConnectTotals.init =
      connectTxs C (s.sources env) (s.connectCtx e true) (txPositions e.nFile e.nBlockPos b)
        ConnectTotals.init :=
    connectTxs_congr (sameReads_sources htree hidx) (ConnectInv.init C hv (hsrc.trans hindex))
      (hpath ▸ hT.proper) (hpath ▸ s.readsBack env h) (hpath ▸ hT.distinct h)
  have hchecks : s'.connectChecks C env b e' = s.connectChecks C env b e := by
    simp only [NodeState.connectChecks, connectCtx_congr htree htip hsk, hf, hpos, htxs,
      checkRewards_congr htree htip hidx hsk]
  simp only [NodeState.connectBlock, he, he', hchecks]
  cases s.connectChecks C env b e with
  | none => rfl
  | some t => rfl

end TwoNodes

end MotaCoin
