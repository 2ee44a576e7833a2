import MotaCoin.Verdict

/-!
# Committed chains

`CommittedAt C s k` says that the database is committed at the block `k`: no batch is open,
`hashBestChain` is `k`, the transaction index is that of the branch of `k`, and the forward links
lead to `k`. `SetBestChainInner` moves a committed chain to a child, `Reorganize` to any block of
the tree, and both leave it where it is when they fail.

## Main definitions

* `CommittedAt`: the invariant between database transactions
* `Keeps`: what no step loses: the tree, and the blocks whose supply is recorded
* `ConnectsNext`: a block is read, accepted on its own branch, and committed

## Main results

* `setBestChainInner_committed`, `setBestChainInner_fst_iff`
* `reorganize_committed`, `reorganize_keeps`
* `connectFurther_spec`, `connectFurther_fst_iff`: the loop "Connect further blocks"
-/

namespace MotaCoin

open Ancestry (Walk Climb)
open SpendIndex (Valid unspentValue)

variable {C : Crypto} {env : Env}

/-- The forward links lead to `k`. -/
def NodeState.Linked (s : NodeState) (k : Uint256) : Prop :=
  ∀ j ∈ s.path k, ∀ p, s.parentOf j = some p → s.nextOf p = some j

variable (C) in
/-- **The database is committed at `k`.** -/
structure CommittedAt (s : NodeState) (k : Uint256) : Prop where
  tree : TreeOK C s
  genesis : ∃ g, s.pindexGenesisBlock = some g ∧ (s.mapBlockIndex g).isSome ∧ s.parentOf g = none
  known : (s.mapBlockIndex k).isSome
  batch : s.txdb.activeBatch = none
  best : s.txdb.content .hashBestChain = some k
  branch : OnBranch C s k
  linked : s.Linked k

variable (C) in
/-- The tree is the same, and supplied blocks stay supplied. -/
structure Keeps (s s' : NodeState) : Prop where
  tree : SameTree s s'
  supplied : ∀ {j}, Supplied C s j → Supplied C s' j

theorem Keeps.trans {s s' s'' : NodeState} (h : Keeps C s s') (h' : Keeps C s' s'') :
    Keeps C s s'' :=
  ⟨h.tree.trans h'.tree, fun hj => h'.supplied (h.supplied hj)⟩

/-- Steps that change no entry in memory. -/
theorem Keeps.of_mapBlockIndex {s s' : NodeState} (hmap : s'.mapBlockIndex = s.mapBlockIndex)
    (hfiles : s'.blkFiles = s.blkFiles) (hgen : s'.pindexGenesisBlock = s.pindexGenesisBlock) :
    Keeps C s s' := by
  have htree : SameTree s s' := ⟨fun h => by rw [hmap], hfiles, hgen⟩
  exact ⟨htree, supplied_of_mapBlockIndex_eq htree hmap⟩

theorem CommittedAt.genesis_of_sameTree {s s' : NodeState} {k : Uint256} (h : CommittedAt C s k)
    (htree : SameTree s s') :
    ∃ g, s'.pindexGenesisBlock = some g ∧ (s'.mapBlockIndex g).isSome ∧ s'.parentOf g = none := by
  obtain ⟨g, hg, hsome, hroot⟩ := h.genesis
  exact ⟨g, htree.pindexGenesisBlock.trans hg, (htree.isSome g).trans hsome,
    (congrFun htree.parentOf g).trans hroot⟩

theorem CTxDB.txIndex_of_noBatch {db : CTxDB} (h : db.activeBatch = none) :
    db.txIndex = db.committedTxIndex := by
  funext hash
  simp [CTxDB.txIndex, CTxDB.view, CTxDB.committedTxIndex, h]

/-- A failed step leaves a committed chain where it is. -/
theorem CommittedAt.of_unchanged {s s' : NodeState} {k : Uint256} (h : CommittedAt C s k)
    (hkeep : Keeps C s s') (hun : Unchanged s s') (hb : s'.txdb.activeBatch = none) :
    CommittedAt C s' k where
  tree := hkeep.tree.treeOK h.tree
  genesis := h.genesis_of_sameTree hkeep.tree
  known := (hkeep.tree.isSome k).trans h.known
  batch := hb
  best := hun.best.trans h.best
  branch := by
    refine h.branch.congr hkeep.tree ?_ fun j hj => hkeep.supplied hj
    rw [CTxDB.txIndex_of_noBatch hb, CTxDB.txIndex_of_noBatch h.batch, hun.txIndex]
  linked := by
    intro j hj p hp
    rw [hkeep.tree.path] at hj
    rw [hkeep.tree.parentOf] at hp
    rw [hun.next]
    exact h.linked j hj p hp

/-- Beginning a transaction changes nothing a reader sees. -/
theorem txIndex_txnBegin {s : NodeState} {k : Uint256} (h : CommittedAt C s k) :
    s.txdb.txnBegin.txIndex = s.txdb.txIndex := by
  rw [CTxDB.txIndex_of_noBatch h.batch]
  rfl

theorem OnBranch.txnBegin {s : NodeState} {k : Uint256} (h : CommittedAt C s k) :
    OnBranch C s.txnBegin k :=
  h.branch.congr (sameTree_withTxdb s _) (txIndex_txnBegin h) fun _ hj => hj

theorem OnBranch.keeps {s s' : NodeState} {k : Uint256} (h : OnBranch C s k)
    (hkeep : Keeps C s s') (hidx : s'.txdb.txIndex = s.txdb.txIndex) : OnBranch C s' k :=
  h.congr hkeep.tree hidx fun _ hj => hkeep.supplied hj

/-- A chain committed on a branch, once its links are set. -/
theorem CommittedAt.of_onBranch {s s' : NodeState} {t k : Uint256} (hs : CommittedAt C s t)
    (htree : SameTree s s') (hk : (s.mapBlockIndex k).isSome)
    (hbatch : s'.txdb.activeBatch = none) (hbest : s'.txdb.content .hashBestChain = some k)
    (hbr : OnBranch C s' k) (hl : s'.Linked k) : CommittedAt C s' k :=
  ⟨htree.treeOK hs.tree, hs.genesis_of_sameTree htree, (htree.isSome k).trans hk, hbatch, hbest,
    hbr, hl⟩

/-- The memory pool is no part of a committed chain. -/
theorem CommittedAt.withMempool {s : NodeState} {k : Uint256} (h : CommittedAt C s k)
    (m : CTxMemPool) : CommittedAt C { s with mempool := m } k := by
  have hkeep : Keeps C s { s with mempool := m } := Keeps.of_mapBlockIndex rfl rfl rfl
  exact h.of_onBranch hkeep.tree h.known h.batch h.best (h.branch.keeps hkeep rfl) h.linked

/-! ## Commits and links -/

theorem commitBest_fst (s : NodeState) (hash : Uint256) :
    (s.commitBest env hash).1 = true ↔ env.commitFails hash = false := by
  simp [NodeState.commitBest]

/-- A commit makes what the batch shows durable. -/
theorem commitBest_spec {s : NodeState} {hash : Uint256} (h : (s.commitBest env hash).1 = true) :
    ∃ txdb, (s.commitBest env hash).2 = s.withTxdb txdb ∧ txdb.activeBatch = none ∧
      txdb.content .hashBestChain = some hash ∧ txdb.txIndex = s.txdb.txIndex := by
  rw [commitBest_fst] at h
  refine ⟨_, rfl, rfl, ?_, ?_⟩
  · simp [CTxDB.txnCommit, h]
  · rw [← s.txdb.txIndex_writeHashBestChain hash]
    funext hash'
    simp [CTxDB.txIndex, CTxDB.txnCommit, CTxDB.view, h]

theorem modifyIndex_sameTree (s : NodeState) (hash : Uint256) (pnext : Option Uint256) :
    SameTree s (s.modifyIndex hash fun pindex => { pindex with pnext := pnext }) := by
  refine ⟨fun k => ?_, rfl, rfl⟩
  by_cases hk : k = hash
  · subst hk
    simp only [NodeState.modifyIndex, Function.update_self, Option.map_map]
    rfl
  · simp only [NodeState.modifyIndex, Function.update_of_ne hk]

theorem modifyIndex_keeps (s : NodeState) (hash : Uint256) (pnext : Option Uint256) :
    Keeps C s (s.modifyIndex hash fun pindex => { pindex with pnext := pnext }) := by
  have htree := modifyIndex_sameTree s hash pnext
  refine ⟨htree, fun {j} hj => ?_⟩
  unfold Supplied at hj ⊢
  rw [htree.pathTxs, ← hj]
  unfold NodeState.supplyOf
  by_cases hk : j = hash
  · subst hk
    simp only [NodeState.modifyIndex, Function.update_self, Option.map_map]
    rfl
  · simp only [NodeState.modifyIndex, Function.update_of_ne hk]

theorem setPrevNext_sameTree (s : NodeState) (hash : Uint256) (pnext : Option Uint256) :
    SameTree s (s.setPrevNext hash pnext) := by
  unfold NodeState.setPrevNext
  split
  · exact SameTree.refl s
  · exact modifyIndex_sameTree s _ pnext

theorem setPrevNext_keeps (s : NodeState) (hash : Uint256) (pnext : Option Uint256) :
    Keeps C s (s.setPrevNext hash pnext) := by
  unfold NodeState.setPrevNext
  split
  · exact Keeps.of_mapBlockIndex rfl rfl rfl
  · exact modifyIndex_keeps s _ pnext

theorem setPrevNext_txdb (s : NodeState) (hash : Uint256) (pnext : Option Uint256) :
    (s.setPrevNext hash pnext).txdb = s.txdb := by
  unfold NodeState.setPrevNext
  split
  · rfl
  · rfl

theorem setPrevNext_tip (s : NodeState) (hash : Uint256) (pnext : Option Uint256) :
    SameTip s (s.setPrevNext hash pnext) := by
  unfold NodeState.setPrevNext
  split
  · exact SameTip.refl s
  · exact ⟨rfl, rfl, rfl, rfl⟩

theorem nextOf_setPrevNext {s : NodeState} {hash p : Uint256} (hR : s.Rises)
    (hp : s.parentOf hash = some p) (pnext : Option Uint256) :
    (s.setPrevNext hash pnext).nextOf = Function.update s.nextOf p pnext := by
  obtain ⟨e, he⟩ := Option.isSome_iff_exists.mp (hR _ _ hp).1
  unfold NodeState.setPrevNext
  rw [show (s.mapBlockIndex hash).bind CBlockIndex.pprev = some p from hp]
  funext k
  by_cases hk : k = p
  · subst hk
    simp [NodeState.nextOf, NodeState.modifyIndex, he]
  · simp only [NodeState.nextOf, NodeState.modifyIndex, Function.update_of_ne hk]

/-- Linking the parent to a child extends the links. -/
theorem NodeState.Linked.push {s : NodeState} {h p : Uint256} (hT : TreeOK C s)
    (hl : s.Linked p) (hp : s.parentOf h = some p) : (s.setPrevNext h (some h)).Linked h := by
  have htree := (setPrevNext_keeps (C := C) s h (some h)).tree
  intro j hj q hq
  rw [htree.path] at hj
  rw [htree.parentOf] at hq
  rw [nextOf_setPrevNext hT.rises hp]
  exact Ancestry.Tree.Linked.push (T := hT.tree) hl hp j hj q hq

/-- Cutting the link of the parent shortens the links. -/
theorem NodeState.Linked.pop {s : NodeState} {h p : Uint256} (hT : TreeOK C s)
    (hl : s.Linked h) (hp : s.parentOf h = some p) : (s.setPrevNext h none).Linked p := by
  have htree := (setPrevNext_keeps (C := C) s h none).tree
  intro j hj q hq
  rw [htree.path] at hj
  rw [htree.parentOf] at hq
  rw [nextOf_setPrevNext hT.rises hp]
  exact Ancestry.Tree.Linked.pop (T := hT.tree) hl hp none j hj q hq

/-! ## SetBestChainInner -/

section Inner

variable {s : NodeState} {h p : Uint256} {b : CBlock}

theorem abortInvalid_keeps (s : NodeState) (pindexNew : Uint256) :
    Keeps C s (s.abortInvalid pindexNew) := by
  unfold NodeState.abortInvalid NodeState.invalidChainFound
  split
  · exact Keeps.of_mapBlockIndex rfl rfl rfl
  · exact Keeps.of_mapBlockIndex rfl rfl rfl

theorem activeBatch_abortInvalid (s : NodeState) (pindexNew : Uint256) :
    (s.abortInvalid pindexNew).txdb.activeBatch = none := by
  unfold NodeState.abortInvalid NodeState.invalidChainFound
  split
  · rfl
  · rfl

theorem connectBlock_keeps (hT : TreeOK C s) (hbr : OnBranch C s p) (hp : s.parentOf h = some p)
    (hb : s.blockOf h = some b) : Keeps C s (s.connectBlock C env b h).2 := by
  cases hok : (s.connectBlock C env b h).1 with
  | false =>
    rw [connectBlock_of_failed hok]
    exact Keeps.of_mapBlockIndex rfl rfl rfl
  | true =>
    exact ⟨(connectBlock_frame C env s b h).tree,
      fun hj => supplied_connectBlock hT hbr hp hb hok (.inr hj)⟩

theorem activeBatch_setBestChainInner (s : NodeState) (b : CBlock) (h : Uint256) :
    (s.setBestChainInner C env b h).2.txdb.activeBatch = none := by
  unfold NodeState.setBestChainInner
  simp only
  split
  · exact activeBatch_abortInvalid _ _
  · split
    · rfl
    · exact congrArg CTxDB.activeBatch (setPrevNext_txdb _ h (some h))

/-- When `SetBestChainInner` succeeds. -/
theorem setBestChainInner_fst_iff :
    (s.setBestChainInner C env b h).1 = true ↔
      (s.connectBlock C env b h).1 = true ∧ env.commitFails (b.getHash C) = false := by
  unfold NodeState.setBestChainInner
  cases hc : (s.connectBlock C env b h).1 with
  | false => simp [hc]
  | true =>
    rw [← commitBest_fst (s.connectBlock C env b h).2]
    cases hr : ((s.connectBlock C env b h).2.commitBest env (b.getHash C)).1 with
    | false => simp [hc, hr]
    | true => simp [hc, hr]

/-- The globals of the tip are not set by `SetBestChainInner`. -/
theorem setBestChainInner_tip : SameTip s (s.setBestChainInner C env b h).2 := by
  have hframe := (connectBlock_frame C env s b h).tip
  unfold NodeState.setBestChainInner
  simp only
  split
  · exact hframe.trans (abortInvalid_unchanged _ _).tip
  · split
    · exact hframe.trans ⟨rfl, rfl, rfl, rfl⟩
    · refine hframe.trans ?_
      have hlink := setPrevNext_tip ((s.connectBlock C env b h).2.commitBest env (b.getHash C)).2 h
        (some h)
      exact ⟨hlink.1, hlink.2, hlink.3, hlink.4⟩

theorem setBestChainInner_keeps (hT : TreeOK C s) (hbr : OnBranch C s p)
    (hp : s.parentOf h = some p) (hb : s.blockOf h = some b) :
    Keeps C s (s.setBestChainInner C env b h).2 := by
  have hconnect : Keeps C s (s.connectBlock C env b h).2 := connectBlock_keeps hT hbr hp hb
  unfold NodeState.setBestChainInner
  simp only
  split
  · exact hconnect.trans (abortInvalid_keeps _ _)
  · have hcommit : Keeps C s ((s.connectBlock C env b h).2.commitBest env (b.getHash C)).2 :=
      hconnect.trans (Keeps.of_mapBlockIndex rfl rfl rfl)
    split
    · exact hcommit
    · exact hcommit.trans ((setPrevNext_keeps _ h (some h)).trans
        (Keeps.of_mapBlockIndex rfl rfl rfl))

/-- **`SetBestChainInner` moves a committed chain to a child.** -/
theorem setBestChainInner_committed (hs : CommittedAt C s p) (hp : s.parentOf h = some p)
    (hb : s.blockOf h = some b) (hhash : b.getHash C = h)
    (hok : (s.txnBegin.setBestChainInner C env b h).1 = true) :
    CommittedAt C (s.txnBegin.setBestChainInner C env b h).2 h := by
  have hT₀ : TreeOK C s.txnBegin := (sameTree_withTxdb s _).treeOK hs.tree
  obtain ⟨hc, hcommit⟩ := setBestChainInner_fst_iff.mp hok
  have hbr := OnBranch.connectBlock hT₀ (OnBranch.txnBegin hs) hp hb hc
  have hframe := connectBlock_frame C env s.txnBegin b h
  generalize hs₁ : s.txnBegin.connectBlock C env b h = c at *
  have hr : (c.2.commitBest env (b.getHash C)).1 = true := (commitBest_fst _ _).mpr hcommit
  obtain ⟨txdb, heq, hbatch, hbest, hidx⟩ := commitBest_spec hr
  have hlinked : NodeState.Linked (c.2.withTxdb txdb) p := by
    intro j hj q hq
    have hj : j ∈ s.path p := hframe.tree.path ▸ hj
    have hq : s.parentOf j = some q := (congrFun hframe.tree.parentOf j).symm.trans hq
    exact (congrFun hframe.next q).trans (hs.linked j hj q hq)
  have hT₂ : TreeOK C (c.2.withTxdb txdb) :=
    (sameTree_withTxdb _ _).treeOK (hframe.tree.treeOK hT₀)
  have hp₂ : NodeState.parentOf (c.2.withTxdb txdb) h = some p :=
    (congrFun hframe.tree.parentOf h).trans hp
  have hkeep := setPrevNext_keeps (C := C) (c.2.withTxdb txdb) h (some h)
  have htree : SameTree s (NodeState.setPrevNext (c.2.withTxdb txdb) h (some h)) :=
    (((sameTree_withTxdb s _).trans hframe.tree).trans (sameTree_withTxdb _ _)).trans hkeep.tree
  have hbr₂ : OnBranch C (c.2.withTxdb txdb) h :=
    hbr.keeps (Keeps.of_mapBlockIndex rfl rfl rfl) hidx
  have hfinal : CommittedAt C (NodeState.setPrevNext (c.2.withTxdb txdb) h (some h)) h := by
    have htxdb := setPrevNext_txdb (c.2.withTxdb txdb) h (some h)
    refine hs.of_onBranch htree (NodeState.isSome_of_parentOf_eq hp) ?_ ?_
      (hbr₂.keeps hkeep (congrArg CTxDB.txIndex htxdb)) (hlinked.push hT₂ hp₂)
    · rw [htxdb]
      exact hbatch
    · rw [htxdb, ← hhash]
      exact hbest
  simp only [NodeState.setBestChainInner, hs₁, hc, hr, heq, Bool.not_true, Bool.false_eq_true,
    if_false]
  exact hfinal.withMempool _

end Inner

/-! ## Reorganize -/

section Reorganize

variable {s : NodeState}

variable (C) in
/-- What relinking entries leaves alone. -/
structure Relinked (s s' : NodeState) : Prop where
  keeps : Keeps C s s'
  txdb : s'.txdb = s.txdb
  tip : SameTip s s'

theorem Relinked.refl (s : NodeState) : Relinked C s s :=
  ⟨Keeps.of_mapBlockIndex rfl rfl rfl, rfl, SameTip.refl s⟩

theorem Relinked.trans {s s' s'' : NodeState} (h : Relinked C s s') (h' : Relinked C s' s'') :
    Relinked C s s'' :=
  ⟨h.keeps.trans h'.keeps, h'.txdb.trans h.txdb, h.tip.trans h'.tip⟩

theorem setPrevNext_relinked (s : NodeState) (hash : Uint256) (pnext : Option Uint256) :
    Relinked C s (s.setPrevNext hash pnext) :=
  ⟨setPrevNext_keeps s hash pnext, setPrevNext_txdb s hash pnext, setPrevNext_tip s hash pnext⟩

section Links

variable {L : NodeState → Uint256 → Prop} {T : NodeState → Prop}
  (hkeep : ∀ {s s' : NodeState}, SameTree s s' → T s → T s')
include hkeep

/-- Cutting the links of the disconnected blocks moves back whatever cutting one link moves back. -/
theorem unlink_spec (hpop : ∀ {s : NodeState} {h p : Uint256}, T s → L s h →
      s.parentOf h = some p → L (s.setPrevNext h none) p) {w : List Uint256} :
    ∀ {s : NodeState} {a f : Uint256}, T s → L s a → Walk s.parentOf a w f →
      Relinked C s (w.foldl (fun s hash => s.setPrevNext hash none) s) ∧
        L (w.foldl (fun s hash => s.setPrevNext hash none) s) f := by
  induction w with
  | nil =>
    intro s a f _ hl hw
    obtain rfl : a = f := hw
    exact ⟨Relinked.refl s, hl⟩
  | cons x w ih =>
    intro s a f hT hl hw
    obtain ⟨rfl, p, hp, hw'⟩ := hw
    have hstep := setPrevNext_relinked (C := C) s x none
    have htree := hstep.keeps.tree
    obtain ⟨hrel, hl'⟩ := ih (hkeep htree hT) (hpop hT hl hp) (htree.parentOf ▸ hw')
    exact ⟨hstep.trans hrel, hl'⟩

/-- Linking the connected blocks moves on whatever setting one link moves on. -/
theorem link_spec (hpush : ∀ {s : NodeState} {h p : Uint256}, T s → L s p →
      s.parentOf h = some p → L (s.setPrevNext h (some h)) h) {v : List Uint256} :
    ∀ {s : NodeState} {f a : Uint256}, T s → L s f → Climb s.parentOf f v a →
      Relinked C s (v.foldl (fun s hash => s.setPrevNext hash (some hash)) s) ∧
        L (v.foldl (fun s hash => s.setPrevNext hash (some hash)) s) a := by
  induction v with
  | nil =>
    intro s f a _ hl hc
    obtain rfl : f = a := hc
    exact ⟨Relinked.refl s, hl⟩
  | cons k v ih =>
    intro s f a hT hl hc
    obtain ⟨hp, hc'⟩ := hc
    have hstep := setPrevNext_relinked (C := C) s k (some k)
    have htree := hstep.keeps.tree
    obtain ⟨hrel, hl'⟩ := ih (hkeep htree hT) (hpush hT hl hp) (htree.parentOf ▸ hc')
    exact ⟨hstep.trans hrel, hl'⟩

/-- The links of a reorganization lead from one tip over the fork to the other. -/
theorem relink_spec (hpop : ∀ {s : NodeState} {h p : Uint256}, T s → L s h →
      s.parentOf h = some p → L (s.setPrevNext h none) p)
    (hpush : ∀ {s : NodeState} {h p : Uint256}, T s → L s p →
      s.parentOf h = some p → L (s.setPrevNext h (some h)) h) (hT : T s)
    {t f a : Uint256} {w v : List Uint256} (hl : L s t) (hw : Walk s.parentOf t w f)
    (hc : Climb s.parentOf f v a) : Relinked C s (s.relink w v) ∧ L (s.relink w v) a := by
  obtain ⟨hrel₁, hl₁⟩ := unlink_spec (C := C) hkeep hpop hT hl hw
  have htree := hrel₁.keeps.tree
  obtain ⟨hrel₂, hl₂⟩ := link_spec (C := C) hkeep hpush (hkeep htree hT) hl₁ (htree.parentOf ▸ hc)
  exact ⟨hrel₁.trans hrel₂, hl₂⟩

end Links

/-- Resurrecting and deleting transactions only touches the memory pool. -/
theorem exists_mempool_resurrect (vResurrect vDelete : List CTransaction) (s : NodeState) :
    ∃ m, (s.resurrect C env vResurrect).deleteRedundant C vDelete = { s with mempool := m } := by
  have hres : ∃ m, s.resurrect C env vResurrect = { s with mempool := m } := by
    unfold NodeState.resurrect
    induction vResurrect generalizing s with
    | nil => exact ⟨s.mempool, rfl⟩
    | cons tx vResurrect ih =>
      obtain ⟨m, hm⟩ := NodeState.exists_mempool_accept C env s tx false
      obtain ⟨m', hm'⟩ := ih { s with mempool := m }
      exact ⟨m', by rw [List.foldl_cons, hm, hm']⟩
  obtain ⟨m, hm⟩ := hres
  exact ⟨_, by rw [hm]; rfl⟩

/-- What a successful `Reorganize` did. -/
theorem reorganize_eq_true {a : Uint256} (hok : (s.reorganize C env a).1 = true) :
    ∃ t f vDisconnect walk, s.pindexBest = some t ∧ s.findFork t a = some f ∧
      s.walkTo f t = some vDisconnect ∧ s.walkTo f a = some walk ∧
      (NodeState.disconnectLoop C env vDisconnect s []).1 = true ∧
      (NodeState.connectLoop C env walk.reverse
        (NodeState.disconnectLoop C env vDisconnect s []).2.1 []).1 = true ∧
      env.commitFails a = false ∧
      ∃ m, (s.reorganize C env a).2 = { ((NodeState.connectLoop C env walk.reverse
        (NodeState.disconnectLoop C env vDisconnect s []).2.1 []).2.1.commitBest env a).2.relink
          vDisconnect walk.reverse with mempool := m } := by
  unfold NodeState.reorganize at hok ⊢
  split at hok
  · cases hok
  · next t ht =>
    split at hok
    · cases hok
    · next f hf =>
      split at hok
      · next vDisconnect walk hw₁ hw₂ =>
        simp only at hok ⊢
        split at hok
        · cases hok
        · next hd =>
          split at hok
          · cases hok
          · next hc =>
            split at hok
            · cases hok
            · next hr =>
              refine ⟨t, f, vDisconnect, walk, ht, hf, hw₁, hw₂, by simpa using hd,
                by simpa using hc, (commitBest_fst _ _).mp (by simpa using hr), ?_⟩
              rw [if_neg hd, if_neg hc, if_neg hr]
              exact exists_mempool_resurrect _ _ _
      · cases hok

theorem TreeOK.isSome_of_walk (hT : TreeOK C s) {w : List Uint256} :
    ∀ {a f : Uint256}, (s.mapBlockIndex a).isSome → Walk s.parentOf a w f →
      (s.mapBlockIndex f).isSome := by
  induction w with
  | nil =>
    intro a f ha hw
    obtain rfl : a = f := hw
    exact ha
  | cons x w ih =>
    intro a f ha hw
    obtain ⟨rfl, p, hp, hw'⟩ := hw
    exact ih (hT.isSome_of_parentOf hp) hw'

theorem isSome_of_walk_to {w : List Uint256} {a f : Uint256} (hw : Walk s.parentOf a w f)
    (hf : (s.mapBlockIndex f).isSome) : (s.mapBlockIndex a).isSome := by
  cases w with
  | nil =>
    obtain rfl : a = f := hw
    exact hf
  | cons x w =>
    obtain ⟨rfl, p, hp, -⟩ := hw
    exact NodeState.isSome_of_parentOf_eq hp

/-- **`Reorganize` moves a committed chain** to any block it succeeds for. -/
theorem reorganize_committed {t a : Uint256} (hs : CommittedAt C s t)
    (hbest : s.pindexBest = some t) (hok : (s.txnBegin.reorganize C env a).1 = true) :
    CommittedAt C (s.txnBegin.reorganize C env a).2 a ∧
      SameTree s (s.txnBegin.reorganize C env a).2 ∧
      SameTip s (s.txnBegin.reorganize C env a).2 := by
  have hT₀ : TreeOK C s.txnBegin := (sameTree_withTxdb s _).treeOK hs.tree
  obtain ⟨t', f, vDisconnect, walk, hbest', -, hw₁, hw₂, hd, hc, hcommit, m, hres⟩ :=
    reorganize_eq_true hok
  obtain rfl : t = t' := Option.some.inj (hbest.symm.trans hbest')
  have hwalk : Walk s.parentOf t vDisconnect f := walkTo_spec (s := s.txnBegin) hw₁
  have hwalk_new : Walk s.parentOf a walk f := walkTo_spec (s := s.txnBegin) hw₂
  have hclimb := hwalk_new.climb
  have hknown : (s.mapBlockIndex a).isSome :=
    isSome_of_walk_to hwalk_new (hs.tree.isSome_of_walk hs.known hwalk)
  -- down to the fork, then up to the new tip, inside the batch
  have hbr_fork := OnBranch.disconnectLoop hT₀ (OnBranch.txnBegin hs) hwalk hd
  have hframe_fork := disconnectLoop_frame C env vDisconnect s.txnBegin []
  generalize (NodeState.disconnectLoop C env vDisconnect s.txnBegin []) = d at *
  have hT_fork := hframe_fork.tree.treeOK hT₀
  have hclimb_fork : Climb d.2.1.parentOf f walk.reverse a := hframe_fork.tree.parentOf ▸ hclimb
  have hbr_new := OnBranch.connectLoop hT_fork hbr_fork hclimb_fork hc
  have hframe_new := hframe_fork.trans (connectLoop_frame C env walk.reverse d.2.1 [])
  generalize (NodeState.connectLoop C env walk.reverse d.2.1 []) = c at *
  -- the commit
  obtain ⟨txdb, heq, hbatch, hbestdb, hidx⟩ := commitBest_spec ((commitBest_fst c.2.1 a).mpr hcommit)
  rw [heq] at hres
  have htree₂ : SameTree s (c.2.1.withTxdb txdb) :=
    ((sameTree_withTxdb s _).trans hframe_new.tree).trans (sameTree_withTxdb _ _)
  have hT₂ : TreeOK C (c.2.1.withTxdb txdb) := htree₂.treeOK hs.tree
  have hbr₂ : OnBranch C (c.2.1.withTxdb txdb) a :=
    hbr_new.keeps (Keeps.of_mapBlockIndex rfl rfl rfl) hidx
  have hlinked : (c.2.1.withTxdb txdb).Linked t := by
    intro j hj q hq
    have hj : j ∈ s.path t := htree₂.path ▸ hj
    have hq : s.parentOf j = some q := (congrFun htree₂.parentOf j).symm.trans hq
    exact (congrFun hframe_new.next q).trans (hs.linked j hj q hq)
  -- the links
  obtain ⟨hrel, hl₂⟩ := relink_spec (C := C) (fun htree hT => htree.treeOK hT)
    (fun hT hl hp => NodeState.Linked.pop hT hl hp)
    (fun hT hl hp => NodeState.Linked.push hT hl hp) hT₂ hlinked (htree₂.parentOf ▸ hwalk)
    (htree₂.parentOf ▸ hclimb)
  have hfinal : CommittedAt C ((c.2.1.withTxdb txdb).relink vDisconnect walk.reverse) a := by
    refine hs.of_onBranch (htree₂.trans hrel.keeps.tree) hknown ?_ ?_
      (hbr₂.keeps hrel.keeps (congrArg CTxDB.txIndex hrel.txdb)) hl₂
    · exact (congrArg CTxDB.activeBatch hrel.txdb).trans hbatch
    · exact (congrArg (fun db => CTxDB.content db .hashBestChain) hrel.txdb).trans hbestdb
  have htip₂ : SameTip s (c.2.1.withTxdb txdb) := ⟨hframe_new.tip.1, hframe_new.tip.2,
    hframe_new.tip.3, hframe_new.tip.4⟩
  have htip := htip₂.trans hrel.tip
  rw [hres]
  refine ⟨hfinal.withMempool m, ?_, htip.1, htip.2, htip.3, htip.4⟩
  exact (htree₂.trans hrel.keeps.tree).trans ⟨fun _ => rfl, rfl, rfl⟩

/-- `Reorganize` keeps the tree and the recorded supplies also where it fails. -/
theorem reorganize_keeps {t a : Uint256} (hT : TreeOK C s) (hbr : OnBranch C s t)
    (hbest : s.pindexBest = some t) (hfail : (s.reorganize C env a).1 = false) :
    Keeps C s (s.reorganize C env a).2 := by
  have hself : Keeps C s s := Keeps.of_mapBlockIndex rfl rfl rfl
  unfold NodeState.reorganize at hfail ⊢
  simp only [hbest] at hfail ⊢
  split
  · exact hself
  · next f hf =>
    simp only [hf] at hfail
    split
    · next vDisconnect walk hw₁ hw₂ =>
      simp only [hw₁, hw₂] at hfail
      have hwalk := walkTo_spec hw₁
      have hframe := disconnectLoop_frame C env vDisconnect s []
      have hkeep_fork : Keeps C s (NodeState.disconnectLoop C env vDisconnect s []).2.1 :=
        Keeps.of_mapBlockIndex (mapBlockIndex_disconnectLoop vDisconnect s [])
          hframe.tree.blkFiles hframe.tree.pindexGenesisBlock
      split at hfail
      · next hd =>
        rw [if_pos hd]
        exact hkeep_fork
      · next hd =>
        rw [if_neg hd]
        have hbr_fork := OnBranch.disconnectLoop hT hbr hwalk (by simpa using hd)
        have hclimb : Climb (NodeState.disconnectLoop C env vDisconnect s []).2.1.parentOf f
            walk.reverse a := hframe.tree.parentOf ▸ (walkTo_spec hw₂).climb
        have hkeep_new : Keeps C s (NodeState.connectLoop C env walk.reverse
            (NodeState.disconnectLoop C env vDisconnect s []).2.1 []).2.1 :=
          hkeep_fork.trans ⟨(connectLoop_frame C env walk.reverse _ []).tree,
            supplied_connectLoop (hframe.tree.treeOK hT) hbr_fork hclimb⟩
        split at hfail
        · next hc =>
          rw [if_pos hc]
          exact hkeep_new
        · next hc =>
          rw [if_neg hc]
          split at hfail
          · next hr =>
            rw [if_pos hr]
            exact hkeep_new.trans (Keeps.of_mapBlockIndex rfl rfl rfl)
          · cases hfail
    · exact hself

end Reorganize

/-! ## Connect further blocks -/

section Further

variable (C env) in
/-- **A block is read, accepted on its own branch, and committed**: what each postponed block needs.
The verdict is the one of `ConnectBlock` on the index of the parent's path. -/
def ConnectsNext (s : NodeState) (j : Uint256) : Prop :=
  ∃ b p, s.readFromDisk C env j = some b ∧ s.parentOf j = some p ∧
    ((s.withIndex (indexOf C (s.pathTxs p))).connectBlock C env b j).1 = true ∧
    env.commitFails j = false

theorem readFromDisk_congr {s s' : NodeState} (htree : SameTree s s') (j : Uint256) :
    s'.readFromDisk C env j = s.readFromDisk C env j := by
  unfold NodeState.readFromDisk
  cases hj : s.mapBlockIndex j with
  | none =>
    have hj' : s'.mapBlockIndex j = none := by
      have := htree.isSome j
      rw [hj] at this
      simpa using this
    simp only [hj']
  | some e =>
    obtain ⟨e', he', hsk⟩ := htree.exists_entry hj
    obtain ⟨hhash, -, hfile, hpos, -, -⟩ := CBlockIndex.eq_of_skeleton hsk
    simp only [he', NodeState.readBlockAt, htree.blkFiles, hfile, hpos, hhash]

theorem getHash_of_readFromDisk {s : NodeState} (hT : TreeOK C s) {j : Uint256} {b : CBlock}
    (hr : s.readFromDisk C env j = some b) : b.getHash C = j := by
  obtain ⟨e, he, hfile⟩ := NodeState.blockOf_eq_some (readFromDisk_eq_some C env hr)
  obtain ⟨b', hb', hhash, -⟩ := hT.stored he
  obtain rfl := Option.some.inj (hfile.symm.trans hb')
  exact hhash

variable {s₀ s : NodeState}

/-- On the branch of the parent, the verdict on a block is the one of any state with this tree and
this tip, on the index of the parent's path. -/
theorem connectBlock_fst_onBranch {j p : Uint256} {b : CBlock} (hT : TreeOK C s)
    (hbr : OnBranch C s p) (htree : SameTree s₀ s) (htip : SameTip s₀ s)
    (hp : s.parentOf j = some p) (hb : s.blockOf j = some b) :
    (s.connectBlock C env b j).1 =
      ((s₀.withIndex (indexOf C (s₀.pathTxs p))).connectBlock C env b j).1 := by
  refine connectBlock_fst_congr (C := C) (p := p) ?_ ?_ ?_ ?_
    ((congrFun htree.parentOf j).symm.trans hp) ((congrFun htree.blockOf j).symm.trans hb) rfl ?_
  · exact (sameTree_withTxdb s₀ _).treeOK (htree.symm.treeOK hT)
  · exact (sameTree_withTxdb s₀ _).symm.trans htree
  · exact ⟨htip.1, htip.2, htip.3, htip.4⟩
  · rw [hbr.index, htree.pathTxs]
    rfl
  · have hv := hbr.valid hT
    rw [htree.pathTxs] at hv
    exact hv

/-- The next postponed block is connected exactly when `ConnectsNext` says so, of any state with
this tree and this tip. -/
theorem setBestChainInner_fst_iff_connectsNext {j p : Uint256} {b : CBlock}
    (hs : CommittedAt C s p) (htree : SameTree s₀ s) (htip : SameTip s₀ s)
    (hp : s.parentOf j = some p) (hr : s.readFromDisk C env j = some b) :
    (s.txnBegin.setBestChainInner C env b j).1 = true ↔ ConnectsNext C env s₀ j := by
  have hr₀ : s₀.readFromDisk C env j = some b := (readFromDisk_congr htree j).symm.trans hr
  have hp₀ : s₀.parentOf j = some p := (congrFun htree.parentOf j).symm.trans hp
  have hverdict : (s.txnBegin.connectBlock C env b j).1 =
      ((s₀.withIndex (indexOf C (s₀.pathTxs p))).connectBlock C env b j).1 :=
    connectBlock_fst_onBranch ((sameTree_withTxdb s _).treeOK hs.tree) (OnBranch.txnBegin hs)
      (htree.trans (sameTree_withTxdb s _)) ⟨htip.1, htip.2, htip.3, htip.4⟩ hp
      (readFromDisk_eq_some C env hr)
  rw [setBestChainInner_fst_iff, hverdict, getHash_of_readFromDisk hs.tree hr]
  constructor
  · rintro ⟨hok, hcommit⟩
    exact ⟨b, p, hr₀, hp₀, hok, hcommit⟩
  · rintro ⟨b', p', hr', hp', hok, hcommit⟩
    obtain rfl := Option.some.inj (hr₀.symm.trans hr')
    obtain rfl := Option.some.inj (hp₀.symm.trans hp')
    exact ⟨hok, hcommit⟩

/-- A block connected by the loop, or a failure of the loop, leaves a committed chain. -/
theorem setBestChainInner_step {j p : Uint256} {b : CBlock} (hs : CommittedAt C s p)
    (hp : s.parentOf j = some p) (hr : s.readFromDisk C env j = some b) :
    SameTree s (s.txnBegin.setBestChainInner C env b j).2 ∧
      SameTip s (s.txnBegin.setBestChainInner C env b j).2 ∧
      CommittedAt C (s.txnBegin.setBestChainInner C env b j).2
        (if (s.txnBegin.setBestChainInner C env b j).1 = true then j else p) := by
  have hb := readFromDisk_eq_some C env hr
  have hT₀ : TreeOK C s.txnBegin := (sameTree_withTxdb s _).treeOK hs.tree
  have hbegin : Keeps C s s.txnBegin := Keeps.of_mapBlockIndex rfl rfl rfl
  have hkeep : Keeps C s (s.txnBegin.setBestChainInner C env b j).2 :=
    hbegin.trans (setBestChainInner_keeps hT₀ (OnBranch.txnBegin hs) hp hb)
  have htip : SameTip s s.txnBegin := ⟨rfl, rfl, rfl, rfl⟩
  refine ⟨hkeep.tree, htip.trans setBestChainInner_tip, ?_⟩
  split
  · next hok => exact setBestChainInner_committed hs hp hb (getHash_of_readFromDisk hs.tree hr) hok
  · next hok =>
    have hun : Unchanged s s.txnBegin := Unchanged.of_content rfl
    exact hs.of_unchanged hkeep
      (hun.trans (setBestChainInner_unchanged C env rfl (by simpa using hok)))
      (activeBatch_setBestChainInner _ _ _)

/-- **The loop "Connect further blocks"** ends on a committed chain: at the last block when it gets
to the end, else at a lower one. -/
theorem connectFurther_spec {v : List Uint256} :
    ∀ {s : NodeState} {f a : Uint256}, CommittedAt C s f → Climb s.parentOf f v a →
      SameTree s (NodeState.connectFurther C env v s).2 ∧
      SameTip s (NodeState.connectFurther C env v s).2 ∧
      ∃ k, CommittedAt C (NodeState.connectFurther C env v s).2 k ∧
        ((NodeState.connectFurther C env v s).1 = true ↔ k = a) := by
  induction v with
  | nil =>
    intro s f a hs hc
    obtain rfl : f = a := hc
    exact ⟨SameTree.refl s, SameTip.refl s, f, hs, by simp [NodeState.connectFurther]⟩
  | cons j v ih =>
    intro s f a hs hc
    have hlow : f ≠ a := by
      rintro rfl
      have := Ancestry.Tree.height_of_climb (T := hs.tree.tree) hc
      rw [List.length_cons] at this
      omega
    obtain ⟨hp, hc'⟩ := hc
    simp only [NodeState.connectFurther]
    split
    · exact ⟨SameTree.refl s, SameTip.refl s, f, hs, by simp [hlow]⟩
    · next b hr =>
      obtain ⟨htree, htip, hcom⟩ := setBestChainInner_step hs hp hr
      split
      · next hok =>
        rw [if_pos hok] at hcom
        obtain ⟨htree', htip', hrest⟩ := ih hcom (htree.parentOf ▸ hc')
        exact ⟨htree.trans htree', htip.trans htip', hrest⟩
      · next hok =>
        rw [if_neg hok] at hcom
        exact ⟨htree, htip, f, hcom, by simp [hlow]⟩

/-- The loop gets to the end exactly when every postponed block can be connected. -/
theorem connectFurther_fst_iff {v : List Uint256} :
    ∀ {s : NodeState} {f a : Uint256}, CommittedAt C s f → Climb s.parentOf f v a →
      SameTree s₀ s → SameTip s₀ s →
      ((NodeState.connectFurther C env v s).1 = true ↔ ∀ j ∈ v, ConnectsNext C env s₀ j) := by
  induction v with
  | nil => simp [NodeState.connectFurther]
  | cons j v ih =>
    intro s f a hs hc htree₀ htip₀
    obtain ⟨hp, hc'⟩ := hc
    simp only [NodeState.connectFurther, List.forall_mem_cons]
    split
    · next hr =>
      have hno : ¬ ConnectsNext C env s₀ j := by
        rintro ⟨b, p, hr', -⟩
        rw [← readFromDisk_congr htree₀, hr] at hr'
        cases hr'
      simp [hno]
    · next b hr =>
      obtain ⟨htree, htip, hcom⟩ := setBestChainInner_step hs hp hr
      rw [← setBestChainInner_fst_iff_connectsNext hs htree₀ htip₀ hp hr]
      split
      · next hok =>
        rw [if_pos hok] at hcom
        rw [ih hcom (htree.parentOf ▸ hc') (htree₀.trans htree) (htip₀.trans htip)]
        simp [hok]
      · next hok => simp [hok]

end Further

end MotaCoin
