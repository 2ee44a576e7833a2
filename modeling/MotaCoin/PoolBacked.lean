import MotaCoin.Consistency
import MotaCoin.PoolRefresh

/-!
# The memory pool beside the best chain

A pool transaction is backed when each of its inputs is an unspent output of the transaction index
or an output of another pool transaction. Beside a committed chain that is a statement about
transactions as entries. A successful call of `SetBestChain` moves blocks off the chain and onto it,
and this file says what it leaves of the pool.

## Main definitions

* `NodeState.PoolBacked`: every input of every pool transaction is backed
* `NodeState.callMoves`: the blocks a call disconnects, reorganizes to, and connects further
* `Called`: what a successful call does to the chain and to the pool

## Main results

* `CommittedAt.poolBacked_iff`: backed pools beside a committed chain
* `setBestChain_called`: every successful call does that
* `Called.txs_eq`: the pool after a call, when it was backed before
-/

namespace MotaCoin

open Ancestry (Walk Climb)
open SpendIndex (Valid)
open Pending (Shape)

variable {C : Crypto} {env : Env}

/-- **Every input of every pool transaction is backed**: it is an unspent output of the transaction
index, or an output of another pool transaction. -/
def NodeState.PoolBacked (s : NodeState) : Prop :=
  ∀ hash tx, s.mempool.mapTx.lookup hash = some tx → ∀ txin ∈ tx.vin,
    isUnspent s.txdb.readTxIndex txin.prevout = true ∨
      txin.prevout.hash ≠ hash ∧ ∃ tx', s.mempool.mapTx.lookup txin.prevout.hash = some tx' ∧
        txin.prevout.n < tx'.vout.length

instance (s : NodeState) : Decidable s.PoolBacked :=
  decidable_of_iff
    (∀ e ∈ s.mempool.mapTx.entries, ∀ txin ∈ e.2.vin,
      isUnspent s.txdb.readTxIndex txin.prevout = true ∨
        txin.prevout.hash ≠ e.1 ∧ (s.mempool.mapTx.lookup txin.prevout.hash).any
          (fun tx' => decide (txin.prevout.n < tx'.vout.length)) = true) <| by
    simp only [NodeState.PoolBacked, Sigma.forall, ← AList.mem_lookup_iff, Option.mem_def,
      Option.any_eq_true, decide_eq_true_eq]

/-- The transactions of the block of an entry. -/
def NodeState.vtxOf (s : NodeState) (hash : Uint256) : List CTransaction :=
  (s.blockTxs hash).map Prod.fst

/-- The transactions of a list of blocks. -/
def NodeState.txsOf (s : NodeState) (v : List Uint256) : Set CTransaction :=
  {tx | ∃ j ∈ v, tx ∈ s.vtxOf j}

/-- What `Reorganize` offers to the pool again: no coinbase and no coinstake. -/
def NodeState.vResurrect (s : NodeState) (vDisconnect : List Uint256) : List CTransaction :=
  vDisconnect.flatMap fun j => (s.vtxOf j).filter fun tx => !(tx.isCoinBase || tx.isCoinStake)

/-! ## The index and the transactions of a chain -/

section Chain

variable {txs : List (CTransaction × CDiskTxPos)}

/-- The transactions of a list with positions. -/
def chainSet (txs : List (CTransaction × CDiskTxPos)) : Set CTransaction :=
  {tx | ∃ p ∈ txs, p.1 = tx}

theorem sound_of_valid (hv : Valid (ledgerOf C txs)) : (txShape C).Sound (chainSet txs) where
  resolves := by
    rintro _ ⟨p, hp, rfl⟩ o ho
    obtain ⟨e, he, hid, hn⟩ := hv.resolves _ (mem_ledgerOf.mpr ⟨p, hp, rfl⟩) o.toPair
      (toPair_mem_spends.mpr ho)
    obtain ⟨q, hq, rfl⟩ := mem_ledgerOf.mp he
    have hlt : o.n < q.1.vout.length := by simpa [entryOf, COutPoint.toPair] using hn
    exact ⟨q.1, ⟨q, hq, rfl⟩, hid, hlt⟩
  once := by
    rintro _ ⟨p, hp, rfl⟩ _ ⟨q, hq, rfl⟩ o ho ho'
    rw [eq_of_spends hv hp hq ho ho']

/-- What the index of a chain shows as unspent. -/
theorem isUnspent_iff (hv : Valid (ledgerOf C txs)) (hproper : ∀ p ∈ txs, p.2.Proper)
    (o : COutPoint) : isUnspent (indexOf C txs) o = true ↔
      (txShape C).Provides (chainSet txs) o ∧ ¬ (txShape C).Spent (chainSet txs) o := by
  have hdesc := indexOf_describes hv hproper
  have hspent : (txShape C).Spent (chainSet txs) o ↔ ∃ p ∈ txs, o ∈ p.1.spends := by
    constructor
    · rintro ⟨_, ⟨p, hp, rfl⟩, ho⟩
      exact ⟨p, hp, ho⟩
    · rintro ⟨p, hp, ho⟩
      exact ⟨p.1, ⟨p, hp, rfl⟩, ho⟩
  rw [hspent]
  unfold isUnspent
  rw [Option.any_eq_true]
  constructor
  · rintro ⟨r, hr, hany⟩
    obtain ⟨q, hq, hnull⟩ := (Option.any_eq_true _ _).mp hany
    obtain ⟨p, hp, hid⟩ := (hdesc.has o.hash).mp (by rw [hr]; rfl)
    rw [← hid] at hr
    refine ⟨⟨p.1, ⟨p, hp, rfl⟩, hid, ?_⟩, fun hsp => ?_⟩
    · change o.n < p.1.vout.length
      rw [← hdesc.length p hp r hr]
      exact (List.getElem?_eq_some_iff.mp hq).1
    · have hfalse := (hdesc.spent_iff p hp r hr o.n q hq).mpr (by rw [hid]; exact hsp)
      rw [hnull] at hfalse
      cases hfalse
  · rintro ⟨⟨_, ⟨p, hp, rfl⟩, hid, hn⟩, hsp⟩
    have hid : C.hashTx p.1 = o.hash := hid
    obtain ⟨r, hr⟩ := Option.isSome_iff_exists.mp ((hdesc.has o.hash).mpr ⟨p, hp, hid⟩)
    rw [← hid] at hr
    have hlt : o.n < r.vSpent.length := by
      rw [hdesc.length p hp r hr]
      exact hn
    refine ⟨r, hid ▸ hr, (Option.any_eq_true _ _).mpr ⟨_, List.getElem?_eq_getElem hlt, ?_⟩⟩
    by_contra hnull
    have hq := List.getElem?_eq_getElem hlt
    have hspent := (hdesc.spent_iff p hp r hr o.n _ hq).mp (by simpa using hnull)
    rw [hid] at hspent
    exact hsp hspent

end Chain

section Tip

variable {s s' : NodeState} {k : Uint256}

theorem NodeState.chainSet_pathTxs (s : NodeState) (k : Uint256) :
    chainSet (s.pathTxs k) = s.txsOf (s.path k) := by
  ext tx
  simp only [chainSet, NodeState.txsOf, NodeState.vtxOf, NodeState.pathTxs, List.mem_flatMap,
    List.mem_map, Set.mem_ofPred_eq]
  constructor
  · rintro ⟨p, ⟨j, hj, hp⟩, rfl⟩
    exact ⟨j, hj, p, hp, rfl⟩
  · rintro ⟨j, hj, p, hp, rfl⟩
    exact ⟨p, ⟨j, hj, hp⟩, rfl⟩

theorem NodeState.txsOf_append (s : NodeState) (v w : List Uint256) :
    s.txsOf (v ++ w) = s.txsOf v ∪ s.txsOf w := by
  ext tx
  simp only [NodeState.txsOf, List.mem_append, Set.mem_union, Set.mem_ofPred_eq, or_and_right,
    exists_or]

theorem NodeState.txsOf_reverse (s : NodeState) (v : List Uint256) :
    s.txsOf v.reverse = s.txsOf v := by
  ext tx
  simp only [NodeState.txsOf, List.mem_reverse]

theorem SameTree.vtxOf (h : SameTree s s') : s'.vtxOf = s.vtxOf := by
  funext j
  simp only [NodeState.vtxOf, h.blockTxs]

theorem SameTree.txsOf (h : SameTree s s') : s'.txsOf = s.txsOf := by
  funext v
  simp only [NodeState.txsOf, h.vtxOf]

theorem NodeState.vtxOf_eq {b : CBlock} (hb : s.blockOf k = some b) : s.vtxOf k = b.vtx :=
  NodeState.map_fst_blockTxs hb

/-- The transaction index of a committed chain. -/
theorem CommittedAt.readTxIndex_eq (h : CommittedAt C s k) :
    s.txdb.readTxIndex = indexOf C (s.pathTxs k) := by
  rw [← h.branch.index]
  exact funext fun hash => s.txdb.readTxIndex_eq hash

theorem CommittedAt.sound (h : CommittedAt C s k) : (txShape C).Sound (s.txsOf (s.path k)) := by
  rw [← s.chainSet_pathTxs]
  exact sound_of_valid (h.branch.valid h.tree)

/-- The transactions of a block are not among those of the blocks before it. -/
theorem CommittedAt.not_mem_of_path (h : CommittedAt C s k) {v w : List Uint256}
    (hpath : s.path k = v ++ w) : ∀ tx ∈ s.txsOf w, tx ∉ s.txsOf v := by
  have hids : ((s.pathTxs k).map fun p => C.hashTx p.1).Nodup := h.tree.distinct k
  rw [NodeState.pathTxs, hpath, List.flatMap_append, List.map_append, List.nodup_append'] at hids
  have hmem : ∀ {u : List Uint256} {tx : CTransaction}, tx ∈ s.txsOf u →
      C.hashTx tx ∈ (u.flatMap s.blockTxs).map fun p => C.hashTx p.1 := by
    rintro u tx ⟨j, hj, htx⟩
    obtain ⟨p, hp, rfl⟩ := List.mem_map.mp htx
    exact List.mem_map.mpr ⟨p, List.mem_flatMap.mpr ⟨j, hj, hp⟩, rfl⟩
  intro tx hw hv
  exact hids.2.2 (hmem hv) (hmem hw)

/-- A pool is backed by a committed chain iff its transactions are, as entries. -/
theorem CommittedAt.poolBacked_iff (hacyclic : HashAcyclic C) (h : CommittedAt C s k)
    (hclean : s.mempool.Clean C) :
    s.PoolBacked ↔ (txShape C).Backed (s.txsOf (s.path k)) (s.mempool.txs C) := by
  have hunspent : ∀ o, isUnspent s.txdb.readTxIndex o = true ↔
      (txShape C).Provides (s.txsOf (s.path k)) o ∧
        ¬ (txShape C).Spent (s.txsOf (s.path k)) o := fun o => by
    rw [h.readTxIndex_eq, ← s.chainSet_pathTxs]
    exact isUnspent_iff (h.branch.valid h.tree) h.tree.proper o
  constructor
  · intro hback tx htx o ho
    obtain ⟨txin, hin, rfl⟩ := (CTransaction.mem_spends (hclean.notCoinBase tx htx)).mp ho
    rcases hback _ tx htx txin hin with hchain | ⟨-, tx', hlook, hn⟩
    · exact .inl ((hunspent _).mp hchain)
    · exact .inr ⟨tx', hclean.indexed.mem_txs hlook, hclean.indexed.named _ tx' hlook, hn⟩
  · intro hback hash tx hlook txin hin
    have htx := hclean.indexed.mem_txs hlook
    have ho := (CTransaction.mem_spends (hclean.notCoinBase tx htx)).mpr ⟨txin, hin, rfl⟩
    rcases hback tx htx txin.prevout ho with hchain | ⟨tx', htx', hid, hn⟩
    · exact .inl ((hunspent _).mpr hchain)
    · have hid : C.hashTx tx' = txin.prevout.hash := hid
      refine .inr ⟨fun hself => ?_, tx', hid ▸ htx', hn⟩
      exact hacyclic hash (.single ⟨tx, hclean.indexed.named _ tx hlook, txin, hin, hself⟩)

end Tip

/-! ## What the loops collect -/

section Loops

variable {s : NodeState}

/-- `vResurrect` is what of the disconnected blocks is neither a coinbase nor a coinstake. -/
theorem disconnectLoop_vResurrect {w : List Uint256} :
    ∀ {s : NodeState} {vResurrect : List CTransaction},
      (NodeState.disconnectLoop C env w s vResurrect).1 = true →
      (NodeState.disconnectLoop C env w s vResurrect).2.2 = vResurrect ++ s.vResurrect w := by
  induction w with
  | nil => exact fun _ => (List.append_nil _).symm
  | cons x w ih =>
    intro s vResurrect hok
    simp only [NodeState.disconnectLoop] at hok ⊢
    split at hok
    · cases hok
    · next b hr =>
      split at hok
      · next hd =>
        have htree := (disconnectBlock_frame C s b x).tree
        rw [if_pos hd, ih hok, NodeState.vResurrect, NodeState.vResurrect, List.flatMap_cons,
          NodeState.vtxOf_eq (readFromDisk_eq_some C env hr), List.append_assoc, htree.vtxOf]
      · cases hok

/-- `vDelete` is what the connected blocks hold. -/
theorem connectLoop_vDelete {v : List Uint256} :
    ∀ {s : NodeState} {vDelete : List CTransaction},
      (NodeState.connectLoop C env v s vDelete).1 = true →
      (NodeState.connectLoop C env v s vDelete).2.2 = vDelete ++ v.flatMap s.vtxOf := by
  induction v with
  | nil => exact fun _ => (List.append_nil _).symm
  | cons x v ih =>
    intro s vDelete hok
    simp only [NodeState.connectLoop] at hok ⊢
    split at hok
    · cases hok
    · next b hr =>
      split at hok
      · next hd =>
        have htree := (connectBlock_frame C env s b x).tree
        rw [if_pos hd, ih hok, List.flatMap_cons, NodeState.vtxOf_eq (readFromDisk_eq_some C env hr),
          List.append_assoc, htree.vtxOf]
      · cases hok

theorem setPrevNext_mempool (s : NodeState) (hash : Uint256) (pnext : Option Uint256) :
    (s.setPrevNext hash pnext).mempool = s.mempool := by
  unfold NodeState.setPrevNext
  split
  · rfl
  · rfl

theorem relink_mempool (s : NodeState) (vDisconnect vConnect : List Uint256) :
    (s.relink vDisconnect vConnect).mempool = s.mempool := by
  have hloop : ∀ (v : List Uint256) (f : Uint256 → Option Uint256) (s : NodeState),
      (v.foldl (fun s hash => s.setPrevNext hash (f hash)) s).mempool = s.mempool := by
    intro v f
    induction v with
    | nil => exact fun _ => rfl
    | cons x v ih => exact fun s => (ih _).trans (setPrevNext_mempool s x (f x))
  exact (hloop vConnect some _).trans (hloop vDisconnect (fun _ => none) s)

/-- The pool after `SetBestChainInner`. -/
theorem setBestChainInner_mempool {b : CBlock} {h : Uint256}
    (hok : (s.setBestChainInner C env b h).1 = true) :
    (s.setBestChainInner C env b h).2.mempool =
      b.vtx.foldl (fun p tx => p.remove C tx false) s.mempool := by
  have hmem := (connectBlock_frame C env s b h).mempool
  unfold NodeState.setBestChainInner at hok ⊢
  simp only at hok ⊢
  split at hok
  · cases hok
  · next hc =>
    split at hok
    · cases hok
    · next hr =>
      rw [if_neg hc, if_neg hr]
      simp only [setPrevNext_mempool]
      rw [← hmem]
      rfl

/-- The pool after `Reorganize`, with the segments of the tree it moved along. -/
theorem reorganize_mempool {a : Uint256} (hok : (s.reorganize C env a).1 = true) :
    ∃ t f vDisconnect walk, s.pindexBest = some t ∧ s.findFork t a = some f ∧
      s.walkTo f t = some vDisconnect ∧ s.walkTo f a = some walk ∧
      ∃ s₁ : NodeState, s₁.mempool = s.mempool ∧ (s.reorganize C env a).2.mempool =
        ((s₁.resurrect C env (s.vResurrect vDisconnect)).deleteRedundant C
          (walk.reverse.flatMap s.vtxOf)).mempool := by
  unfold NodeState.reorganize at hok ⊢
  split at hok
  · cases hok
  · next t ht =>
    split at hok
    · cases hok
    · next f hf =>
      split at hok
      · next vDisconnect walk hw₁ hw₂ =>
        simp only at hok ⊢
        split at hok
        · cases hok
        · next hd =>
          split at hok
          · cases hok
          · next hc =>
            split at hok
            · cases hok
            · next hr =>
              refine ⟨t, f, vDisconnect, walk, ht, hf, hw₁, hw₂,
                ((NodeState.connectLoop C env walk.reverse (NodeState.disconnectLoop C env
                  vDisconnect s []).2.1 []).2.1.commitBest env a).2.relink vDisconnect
                    walk.reverse, ?_, ?_⟩
              · have hd := (disconnectLoop_frame C env vDisconnect s []).mempool
                have hc := (connectLoop_frame C env walk.reverse
                  (NodeState.disconnectLoop C env vDisconnect s []).2.1 []).mempool
                rw [relink_mempool]
                exact hc.trans hd
              · have htree := (disconnectLoop_frame C env vDisconnect s []).tree
                rw [if_neg hd, if_neg hc, if_neg hr, disconnectLoop_vResurrect (by simpa using hd),
                  connectLoop_vDelete (by simpa using hc), htree.vtxOf, List.nil_append,
                  List.nil_append]
      · cases hok

end Loops

/-! ## One call -/

/-- The blocks that a call takes off the chain, from the tip down, those that `Reorganize` puts in
their place, and those that are connected on top one by one. -/
structure CallMoves where
  disconnected : List Uint256
  connected : List Uint256
  further : List Uint256

open Classical in
variable (C env) in
/-- The blocks that a successful call of `SetBestChain` moves. A block on top of the tip is
connected by `SetBestChainInner`; so are the postponed blocks, up to the first that cannot be
connected. -/
noncomputable def NodeState.callMoves (s : NodeState) (b : CBlock) (h : Uint256) : CallMoves :=
  if b.hashPrevBlock = s.hashBestChain then ⟨[], [], [h]⟩
  else
    match s.pindexBest with
    | none => ⟨[], [], []⟩
    | some t =>
      let p := s.postpone t h
      let further := p.2.takeWhile fun j => decide (ConnectsNext C env s j)
      match s.findFork t p.1 with
      | none => ⟨[], [], further⟩
      | some f => ⟨(s.walkTo f t).getD [], ((s.walkTo f p.1).getD []).reverse, further⟩

variable (C env) in
/-- **What a successful call does** to a node `s` at `t`: the fork is `f`, `Reorganize` ends at `a`,
the last block connected is `k`. The pool is what the three loops leave of it. -/
structure Called (s s' : NodeState) (t f a k : Uint256) (m : CallMoves) : Prop where
  down : Climb s.parentOf f m.disconnected.reverse t
  up : Climb s.parentOf f m.connected a
  top : Climb s.parentOf a m.further k
  tree : SameTree s s'
  committed : CommittedAt C s' k
  pool : ∃ s₁ : NodeState, s₁.mempool = s.mempool ∧ s'.mempool =
    (m.further.flatMap s.vtxOf).foldl (fun p tx => p.remove C tx false)
      ((s₁.resurrect C env (s.vResurrect m.disconnected)).deleteRedundant C
        (m.connected.flatMap s.vtxOf)).mempool

section Call

variable {s s₀ : NodeState} {t : Uint256}

open Classical in
/-- **The loop "Connect further blocks"** deletes the transactions of the blocks it connects. -/
theorem connectFurther_pool {v : List Uint256} :
    ∀ {s : NodeState} {f a : Uint256}, CommittedAt C s f → Climb s.parentOf f v a →
      SameTree s₀ s → SameTip s₀ s →
      ∃ k, Climb s₀.parentOf f (v.takeWhile fun j => decide (ConnectsNext C env s₀ j)) k ∧
        CommittedAt C (NodeState.connectFurther C env v s).2 k ∧
        (NodeState.connectFurther C env v s).2.mempool =
          ((v.takeWhile fun j => decide (ConnectsNext C env s₀ j)).flatMap s₀.vtxOf).foldl
            (fun p tx => p.remove C tx false) s.mempool := by
  induction v with
  | nil => exact fun {s f a} hs _ _ _ => ⟨f, rfl, hs, rfl⟩
  | cons j v ih =>
    intro s f a hs hc htree₀ htip₀
    obtain ⟨hp, hc'⟩ := hc
    simp only [NodeState.connectFurther]
    split
    · next hr =>
      have hno : ¬ ConnectsNext C env s₀ j := by
        rintro ⟨b, p, hr', -⟩
        rw [← readFromDisk_congr htree₀, hr] at hr'
        cases hr'
      rw [List.takeWhile_cons_of_neg (by simpa using hno)]
      exact ⟨f, rfl, hs, rfl⟩
    · next b hr =>
      obtain ⟨htree, htip, hcom⟩ := setBestChainInner_step hs hp hr
      have hiff := setBestChainInner_fst_iff_connectsNext hs htree₀ htip₀ hp hr
      split
      · next hok =>
        rw [if_pos hok] at hcom
        obtain ⟨k, hk, hcomk, hpool⟩ := ih hcom (htree.parentOf ▸ hc') (htree₀.trans htree)
          (htip₀.trans htip)
        rw [List.takeWhile_cons_of_pos (by simpa using hiff.mp hok)]
        refine ⟨k, ⟨(congrFun htree₀.parentOf j).symm.trans hp, hk⟩, hcomk, ?_⟩
        rw [hpool, List.flatMap_cons, List.foldl_append, setBestChainInner_mempool hok,
          ← NodeState.vtxOf_eq (readFromDisk_eq_some C env hr), htree₀.vtxOf]
        rfl
      · next hok =>
        rw [if_neg hok] at hcom
        rw [List.takeWhile_cons_of_neg (by simpa using hiff.not.mp hok)]
        exact ⟨f, rfl, hcom, (setBestChainInner_unchanged C env rfl (by simpa using hok)).mempool⟩

/-- **A successful call**, in a synced node. -/
theorem setBestChain_called {b : CBlock} {h : Uint256} (hs : Synced C s t)
    (hb : s.blockOf h = some b) (hok : (s.setBestChain C env b h).1 = true) :
    ∃ f a k, Called C env s (s.setBestChain C env b h).2 t f a k (s.callMoves C env b h) := by
  obtain ⟨e, he, hfile⟩ := NodeState.blockOf_eq_some hb
  obtain ⟨b', hb', hhash, -⟩ := hs.committed.tree.stored he
  obtain rfl := Option.some.inj (hfile.symm.trans hb')
  rw [setBestChain_of_ok C env hok]
  rw [setBestChain_fst, setBestChainBranches_of_synced hs] at hok
  rw [setBestChainBranches_of_synced hs]
  unfold NodeState.callMoves
  rw [hs.hashBestChain]
  split at hok
  · next hprev =>
    rw [if_pos hprev, if_pos hprev]
    have hp : s.parentOf h = some t :=
      hs.committed.tree.parentOf_eq_of_hashPrevBlock he hfile hprev hs.committed.known
    have hT₀ : TreeOK C s.txnBegin := (sameTree_withTxdb s _).treeOK hs.committed.tree
    have hkeep : Keeps C s.txnBegin (s.txnBegin.setBestChainInner C env b h).2 :=
      setBestChainInner_keeps hT₀ (OnBranch.txnBegin hs.committed) hp hb
    refine ⟨t, t, h, rfl, rfl, ⟨hp, rfl⟩, ?_, ?_, s, rfl, ?_⟩
    · exact ((sameTree_withTxdb s _).trans hkeep.tree).trans ⟨fun _ => rfl, rfl, rfl⟩
    · exact (setBestChainInner_committed hs.committed hp hb hhash hok).newBestBlock b h
    · change (s.txnBegin.setBestChainInner C env b h).2.mempool = _
      rw [setBestChainInner_mempool hok, List.flatMap_singleton, NodeState.vtxOf_eq hb]
      rfl
  · next hprev =>
    rw [if_neg hprev, if_neg hprev]
    have hpost : s.txnBegin.postpone t h = s.postpone t h :=
      postpone_congr (sameTree_withTxdb s _) t h
    unfold NodeState.setBestChainReorganize at hok ⊢
    simp only [show s.txnBegin.pindexBest = some t from hs.pindexBest, hpost] at hok ⊢
    split at hok
    · cases hok
    · next hr =>
      rw [if_neg hr]
      have hr : (s.txnBegin.reorganize C env (s.postpone t h).1).1 = true := by simpa using hr
      obtain ⟨t', f, vDisconnect, walk, ht', hf, hw₁, hw₂, s₁, hs₁, hpool⟩ := reorganize_mempool hr
      obtain rfl : t = t' := Option.some.inj (hs.pindexBest.symm.trans ht')
      rw [findFork_txnBegin] at hf
      rw [walkTo_txnBegin] at hw₁ hw₂
      have hclimb : Climb s.parentOf (s.postpone t h).1 (s.postpone t h).2 h := postpone_spec t h
      obtain ⟨hcom, htree, htip⟩ := reorganize_committed hs.committed hs.pindexBest hr
      have hclimb' := htree.parentOf.symm ▸ hclimb
      obtain ⟨k, hk, hcomk, hpoolk⟩ := connectFurther_pool hcom hclimb' htree htip
      have htree' : SameTree _ (NodeState.connectFurther C env (s.postpone t h).2
          (s.txnBegin.reorganize C env (s.postpone t h).1).2).2 :=
        (connectFurther_spec hcom hclimb').1
      simp only [hs.pindexBest, hf, hw₁, hw₂, Option.getD_some]
      refine ⟨f, (s.postpone t h).1, k, ?_, (walkTo_spec hw₂).climb, hk, ?_, ?_, s₁, hs₁, ?_⟩
      · exact (walkTo_spec hw₁).climb
      · exact (htree.trans htree').trans ⟨fun _ => rfl, rfl, rfl⟩
      · exact hcomk.newBestBlock b h
      · change (NodeState.connectFurther C env _ _).2.mempool = _
        rw [hpoolk, hpool]
        rfl

end Call

section Called

variable {s s' : NodeState} {t f a k : Uint256} {m : CallMoves}

theorem mem_vResurrect {v : List Uint256} {tx : CTransaction} :
    tx ∈ s.vResurrect v ↔ tx ∈ s.txsOf v ∧ tx.isCoinBase = false ∧ tx.isCoinStake = false := by
  simp only [NodeState.vResurrect, NodeState.txsOf, List.mem_flatMap, List.mem_filter,
    Bool.not_eq_true', Bool.or_eq_false_iff, Set.mem_ofPred_eq]
  constructor
  · rintro ⟨j, hj, htx, hkind⟩
    exact ⟨⟨j, hj, htx⟩, hkind⟩
  · rintro ⟨⟨j, hj, htx⟩, hkind⟩
    exact ⟨j, hj, htx, hkind⟩

theorem mem_flatMap_vtxOf {v : List Uint256} {tx : CTransaction} :
    tx ∈ v.flatMap s.vtxOf ↔ tx ∈ s.txsOf v := by
  rw [List.mem_flatMap]
  rfl

namespace Called

/-- The chain before the call: the part below the fork, and what the call disconnects. -/
theorem txsOf_old (h : Called C env s s' t f a k m) (hT : TreeOK C s) :
    s.txsOf (s.path t) = s.txsOf (s.path f) ∪ s.txsOf m.disconnected := by
  have hpath : s.path t = s.path f ++ m.disconnected.reverse :=
    Ancestry.Tree.path_of_climb (T := hT.tree) h.down
  rw [hpath, s.txsOf_append, s.txsOf_reverse]

theorem path_new (h : Called C env s s' t f a k m) (hT : TreeOK C s) :
    s.path a = s.path f ++ m.connected ∧ s.path k = s.path a ++ m.further :=
  ⟨Ancestry.Tree.path_of_climb (T := hT.tree) h.up,
    Ancestry.Tree.path_of_climb (T := hT.tree) h.top⟩

/-- The chain after the call. -/
theorem txsOf_new (h : Called C env s s' t f a k m) (hT : TreeOK C s) :
    s'.txsOf (s'.path k) =
      s.txsOf (s.path f) ∪ s.txsOf m.connected ∪ s.txsOf m.further := by
  obtain ⟨ha, hk⟩ := h.path_new hT
  rw [h.tree.txsOf, h.tree.path, hk, ha, s.txsOf_append, s.txsOf_append]

/-- The chain that `Reorganize` ends at. -/
theorem sound_connected (h : Called C env s s' t f a k m) (hT : TreeOK C s) :
    (txShape C).Sound (s.txsOf (s.path f) ∪ s.txsOf m.connected) := by
  obtain ⟨ha, hk⟩ := h.path_new hT
  have hconnects : ∀ j ∈ s'.path a, Connects C s' j := fun j hj => by
    refine h.committed.branch.connects j ?_
    rw [h.tree.path] at hj ⊢
    rw [hk]
    exact List.mem_append_left _ hj
  have hsound := sound_of_valid (valid_of_connects h.committed.tree hconnects)
  rwa [s'.chainSet_pathTxs, h.tree.txsOf, h.tree.path, ha, s.txsOf_append] at hsound

theorem not_mem_of_disconnected (h : Called C env s s' t f a k m) (hs : CommittedAt C s t) :
    ∀ tx ∈ s.txsOf m.disconnected, tx ∉ s.txsOf (s.path f) := by
  have hpath : s.path t = s.path f ++ m.disconnected.reverse :=
    Ancestry.Tree.path_of_climb (T := hs.tree.tree) h.down
  rw [← s.txsOf_reverse]
  exact hs.not_mem_of_path hpath

/-- `vResurrect` has no transaction twice. -/
theorem nodup_vResurrect (h : Called C env s s' t f a k m) (hs : CommittedAt C s t) :
    (s.vResurrect m.disconnected).Nodup := by
  have hpath : s.path t = s.path f ++ m.disconnected.reverse :=
    Ancestry.Tree.path_of_climb (T := hs.tree.tree) h.down
  have hids : ((s.pathTxs t).map fun p => C.hashTx p.1).Nodup := hs.tree.distinct t
  rw [NodeState.pathTxs, hpath, List.flatMap_append, List.map_append, List.nodup_append'] at hids
  have hvtx : (m.disconnected.flatMap s.vtxOf).Nodup := by
    refine List.Nodup.of_map C.hashTx ?_
    have hperm := ((List.reverse_perm m.disconnected).flatMap_right s.blockTxs).map
      fun p => C.hashTx p.1
    have hnodup := hperm.nodup_iff.mp hids.2.1
    rw [List.map_flatMap] at hnodup ⊢
    simpa only [NodeState.vtxOf, List.map_map, Function.comp_def] using hnodup
  rw [NodeState.vResurrect, ← List.filter_flatMap]
  exact hvtx.filter _

variable (hinj : Function.Injective C.hashTx) (hacyclic : HashAcyclic C)
include hinj hacyclic

/-- A call leaves the pool clean, and without the transactions of the chain. -/
theorem clean_and_fresh (h : Called C env s s' t f a k m) (hs : CommittedAt C s t)
    (hclean : s.mempool.Clean C) (hfresh : ∀ tx ∈ s.mempool.txs C, tx ∉ s.txsOf (s.path t)) :
    s'.mempool.Clean C ∧ ∀ tx ∈ s'.mempool.txs C, tx ∉ s'.txsOf (s'.path k) := by
  obtain ⟨s₁, hs₁, hpool⟩ := h.pool
  obtain ⟨hclean₂, hmem₂⟩ := CTxMemPool.Clean.resurrect hinj env (s.vResurrect m.disconnected)
    (hs₁ ▸ hclean)
  obtain ⟨hclean₃, hmem₃⟩ := CTxMemPool.Clean.deleteRedundant hinj hacyclic
    (m.connected.flatMap s.vtxOf) hclean₂
  obtain ⟨hclean₄, htxs₄⟩ := hclean₃.foldl_remove hinj (m.further.flatMap s.vtxOf)
  rw [← hpool] at hclean₄ htxs₄
  refine ⟨hclean₄, fun tx htx => ?_⟩
  rw [htxs₄] at htx
  obtain ⟨htx₃, hfurther⟩ := htx
  obtain ⟨htx₂, hconnected⟩ := hmem₃ tx htx₃
  rw [h.txsOf_new hs.tree]
  rintro ((hF | hN) | hE)
  · rcases hmem₂ tx htx₂ with hold | hback
    · rw [h.txsOf_old hs.tree] at hfresh
      exact hfresh tx (hs₁ ▸ hold) (.inl hF)
    · exact h.not_mem_of_disconnected hs tx (mem_vResurrect.mp hback).1 hF
  · exact hconnected (mem_flatMap_vtxOf.mpr hN)
  · exact hfurther (mem_flatMap_vtxOf.mpr hE)

/-- **The pool after a call**, when it was backed before. -/
theorem txs_eq (h : Called C env s s' t f a k m) (hs : CommittedAt C s t)
    (hclean : s.mempool.Clean C) (hfresh : ∀ tx ∈ s.mempool.txs C, tx ∉ s.txsOf (s.path t))
    (hbacked : (txShape C).Backed (s.txsOf (s.path t)) (s.mempool.txs C)) :
    s'.mempool.txs C = (txShape C).kept
      (s.mempool.txs C ∪ {tx | tx ∈ s.txsOf m.disconnected ∧ Resurrectable C tx})
      (s.txsOf m.connected) (s.txsOf m.further) := by
  obtain ⟨s₁, hs₁, hpool⟩ := h.pool
  have hledger : ∀ {tx}, tx ∈ s.vResurrect m.disconnected → tx ∈ s.txsOf (s.path t) := by
    intro tx htx
    rw [h.txsOf_old hs.tree]
    exact .inr (mem_vResurrect.mp htx).1
  -- what is offered again is in conflict neither with the pool nor with each other
  have hfree : ∀ tx ∈ s.vResurrect m.disconnected, ∀ y ∈ s₁.mempool.txs C,
      ¬ (txShape C).Share y tx := by
    rintro tx htx y hy ⟨o, ho, ho'⟩
    exact hbacked.not_spent hinj hs.sound hfresh (hs₁ ▸ hy) ho ⟨tx, hledger htx, ho'⟩
  have hapart : ∀ tx ∈ s.vResurrect m.disconnected, ∀ y ∈ s.vResurrect m.disconnected, y ≠ tx →
      ¬ (txShape C).Share y tx := by
    rintro tx htx y hy hne ⟨o, ho, ho'⟩
    exact hne (hs.sound.once y (hledger hy) tx (hledger htx) o ho ho')
  obtain ⟨hclean₂, htxs₂⟩ := CTxMemPool.Clean.resurrect_spec hinj env
    (s.vResurrect m.disconnected) (hs₁ ▸ hclean) (h.nodup_vResurrect hs)
    (fun tx htx hmem => hfresh tx (hs₁ ▸ hmem) (hledger htx)) hfree hapart
  have hback : {tx | tx ∈ s.vResurrect m.disconnected ∧ Resurrectable C tx} =
      {tx | tx ∈ s.txsOf m.disconnected ∧ Resurrectable C tx} := by
    ext tx
    simp only [Set.mem_ofPred_eq, mem_vResurrect]
    constructor
    · exact fun ⟨hmem, hr⟩ => ⟨hmem.1, hr⟩
    · exact fun ⟨hmem, hr⟩ => ⟨⟨hmem, hr.notCoinBase, hr.notCoinStake⟩, hr⟩
  rw [hs₁, hback] at htxs₂
  have hdelete : {c | c ∈ m.connected.flatMap s.vtxOf} = s.txsOf m.connected := by
    ext tx
    exact mem_flatMap_vtxOf
  have hfork : ∀ tx ∈ (s₁.resurrect C env (s.vResurrect m.disconnected)).mempool.txs C,
      tx ∉ s.txsOf (s.path f) := by
    rw [htxs₂]
    rintro tx (hold | ⟨hmem, -⟩) hF
    · rw [h.txsOf_old hs.tree] at hfresh
      exact hfresh tx hold (.inl hF)
    · exact h.not_mem_of_disconnected hs tx hmem hF
  obtain ⟨hclean₃, htxs₃⟩ := CTxMemPool.Clean.deleteRedundant_spec hinj hacyclic
    (m.connected.flatMap s.vtxOf) hclean₂ (hdelete ▸ h.sound_connected hs.tree) hfork
  rw [htxs₂, hdelete] at htxs₃
  obtain ⟨-, htxs₄⟩ := hclean₃.foldl_remove hinj (m.further.flatMap s.vtxOf)
  rw [hpool, htxs₄, htxs₃]
  ext tx
  simp only [Shape.kept, Set.mem_ofPred_eq, Set.mem_empty_iff_false, not_false_eq_true, true_and,
    mem_flatMap_vtxOf]
  tauto

end Called

end Called

end MotaCoin
