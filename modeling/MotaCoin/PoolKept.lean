import MotaCoin.PoolBacked

/-!
# When the memory pool stays backed

`SetBestChain` does not keep the pool backed: `SetBestChainInner` deletes the transactions of its
block but not what is in conflict with them, and `Reorganize` leaves what spends from disconnected
transactions that do not return to the pool. This file says exactly when a call keeps the pool
backed, in any state of a run.

## Main definitions

* `PoolKept`: the condition under which a call keeps the pool backed
* `PoolSynced`: the invariant of runs
* `PoolRun`: runs of a node with its memory pool
* `deepNode₂`: a pool transaction that spends a mature coinbase

## Main results

* `PoolRun.poolSynced`: runs keep the pool clean and apart from the chain
* `poolBacked_iff_poolKept`: a call keeps the pool backed exactly under the condition
-/

namespace MotaCoin

open Pending (Shape)

variable {C : Crypto} {env : Env}

/-! ## When a call keeps the pool backed -/

variable (C env) in
/-- **The condition under which a call keeps the pool backed**, on the node before it. A transaction
that stays in the pool or returns to it spends no output that the blocks connected on top spend, and
no output of a disconnected transaction, unless this is connected again or returns to the pool. What
is in conflict with the branch of `Reorganize`, and what depends on that, does not stay. -/
def PoolKept (s : NodeState) (b : CBlock) (h : Uint256) : Prop :=
  ∀ tx ∈ (txShape C).kept
      (s.mempool.txs C ∪
        {y | y ∈ s.txsOf (s.callMoves C env b h).disconnected ∧ Resurrectable C y})
      (s.txsOf (s.callMoves C env b h).connected) (s.txsOf (s.callMoves C env b h).further),
    ∀ txin ∈ tx.vin,
      (∀ y ∈ s.txsOf (s.callMoves C env b h).further, txin.prevout ∉ y.spends) ∧
      ∀ y ∈ s.txsOf (s.callMoves C env b h).disconnected, C.hashTx y = txin.prevout.hash →
        y ∈ s.txsOf (s.callMoves C env b h).connected ∨
        y ∈ s.txsOf (s.callMoves C env b h).further ∨ Resurrectable C y

variable (C) in
/-- A synced node with a clean pool that holds no transaction of the chain. -/
structure PoolSynced (s : NodeState) (t : Uint256) : Prop where
  synced : Synced C s t
  clean : s.mempool.Clean C
  fresh : ∀ tx ∈ s.mempool.txs C, s.txdb.readTxIndex (C.hashTx tx) = none

section Kept

variable {s : NodeState} {t h : Uint256} {b : CBlock} {tx : CTransaction}

theorem CommittedAt.readTxIndex_eq_none_iff (hinj : Function.Injective C.hashTx)
    (hs : CommittedAt C s t) :
    s.txdb.readTxIndex (C.hashTx tx) = none ↔ tx ∉ s.txsOf (s.path t) := by
  have hdesc := indexOf_describes (hs.branch.valid hs.tree) hs.tree.proper
  rw [hs.readTxIndex_eq, ← s.chainSet_pathTxs, ← Option.not_isSome_iff_eq_none, hdesc.has]
  refine not_congr ⟨?_, ?_⟩
  · rintro ⟨p, hp, hid⟩
    exact ⟨p, hp, hinj hid⟩
  · rintro ⟨p, hp, rfl⟩
    exact ⟨p, hp, rfl⟩

theorem PoolSynced.not_mem (hinj : Function.Injective C.hashTx) (hs : PoolSynced C s t) :
    ∀ tx ∈ s.mempool.txs C, tx ∉ s.txsOf (s.path t) := fun tx htx =>
  (hs.synced.committed.readTxIndex_eq_none_iff hinj).mp (hs.fresh tx htx)

/-- The condition, as one on entries that spend outputs. -/
theorem poolKept_iff (hclean : s.mempool.Clean C) :
    PoolKept C env s b h ↔
      ∀ tx ∈ (txShape C).kept
          (s.mempool.txs C ∪
            {y | y ∈ s.txsOf (s.callMoves C env b h).disconnected ∧ Resurrectable C y})
          (s.txsOf (s.callMoves C env b h).connected) (s.txsOf (s.callMoves C env b h).further),
        ∀ o ∈ tx.spends, ¬ (txShape C).Spent (s.txsOf (s.callMoves C env b h).further) o ∧
          ∀ y ∈ s.txsOf (s.callMoves C env b h).disconnected, C.hashTx y = o.hash →
            y ∈ s.txsOf (s.callMoves C env b h).connected ∨
            y ∈ s.txsOf (s.callMoves C env b h).further ∨
            y ∈ s.txsOf (s.callMoves C env b h).disconnected ∧ Resurrectable C y := by
  refine forall₂_congr fun tx htx => ?_
  have hcb : tx.isCoinBase = false := by
    rcases htx.1 with hmem | hback
    · exact hclean.notCoinBase tx hmem
    · exact hback.2.notCoinBase
  constructor
  · intro hkept o ho
    obtain ⟨txin, hin, rfl⟩ := (CTransaction.mem_spends hcb).mp ho
    obtain ⟨hspent, hlost⟩ := hkept txin hin
    refine ⟨fun ⟨y, hy, hyo⟩ => hspent y hy hyo, fun y hy hid => ?_⟩
    exact (hlost y hy hid).imp_right fun hr => hr.imp_right fun hr => ⟨hy, hr⟩
  · intro hkept txin hin
    obtain ⟨hspent, hlost⟩ :=
      hkept txin.prevout ((CTransaction.mem_spends hcb).mpr ⟨txin, hin, rfl⟩)
    refine ⟨fun y hy hyo => hspent ⟨y, hy, hyo⟩, fun y hy hid => ?_⟩
    exact (hlost y hy hid).imp_right fun hr => hr.imp_right And.right

variable (hinj : Function.Injective C.hashTx) (hacyclic : HashAcyclic C)
include hinj hacyclic

/-- **A successful call keeps the pool backed exactly under the condition.** -/
theorem PoolSynced.poolBacked_iff (hs : PoolSynced C s t) (hback : s.PoolBacked)
    (hb : s.blockOf h = some b) (hok : (s.setBestChain C env b h).1 = true) :
    (s.setBestChain C env b h).2.PoolBacked ↔ PoolKept C env s b h := by
  have hcom := hs.synced.committed
  have hfresh := hs.not_mem hinj
  have hbacked := (hcom.poolBacked_iff hacyclic hs.clean).mp hback
  obtain ⟨f, a, k, hcall⟩ := setBestChain_called hs.synced hb hok
  obtain ⟨hclean', -⟩ := hcall.clean_and_fresh hinj hacyclic hcom hs.clean hfresh
  have hold := hcom.sound
  have hnew := hcall.committed.sound
  rw [hcall.committed.poolBacked_iff hacyclic hclean', hcall.txsOf_new hcom.tree,
    hcall.txs_eq hinj hacyclic hcom hs.clean hfresh hbacked, poolKept_iff hs.clean]
  rw [hcall.txsOf_old hcom.tree] at hold hfresh hbacked
  rw [hcall.txsOf_new hcom.tree] at hnew
  exact Shape.backed_kept_iff hinj hold hnew hfresh (hcall.not_mem_of_disconnected hcom)
    (fun _ hy => hy.1) hbacked

end Kept

/-! ## Runs with the memory pool -/

/-- **The states of a node with its memory pool**, from the genesis state with an empty pool. Blocks
are added to the tree, transactions are offered to `accept`, and `SetBestChain` is called for blocks
of the tree; every block a call postpones is connected. -/
inductive PoolRun (C : Crypto) : NodeState → Prop
  | genesis {s : NodeState} {g : Uint256} : GenesisState C s g → s.mempool = ⟨∅, ∅⟩ → PoolRun C s
  | grow {s s' : NodeState} : PoolRun C s → Grows C s s' → s'.mempool = s.mempool → PoolRun C s'
  | accept {s : NodeState} {env : Env} {tx : CTransaction} : PoolRun C s →
      PoolRun C (s.acceptToMemoryPool C env tx true).2.2
  | call {s : NodeState} {env : Env} {b : CBlock} {h : Uint256} : PoolRun C s →
      s.blockOf h = some b → PostponedOK C env s b h → PoolRun C (s.setBestChain C env b h).2

section Runs

variable {s s' : NodeState} {t h : Uint256} {b : CBlock}

theorem readTxIndex_of_noBatch {db : CTxDB} (h : db.activeBatch = none) :
    db.readTxIndex = db.committedTxIndex := by
  rw [← CTxDB.txIndex_of_noBatch h]
  exact funext fun hash => db.readTxIndex_eq hash

theorem GenesisState.poolSynced {g : Uint256} (hg : GenesisState C s g)
    (hpool : s.mempool = ⟨∅, ∅⟩) : PoolSynced C s g := by
  have hnone : ∀ tx, tx ∉ s.mempool.txs C := fun tx htx => by
    have htx : s.mempool.mapTx.lookup (C.hashTx tx) = some tx := htx
    rw [hpool] at htx
    cases htx
  have hindexed : s.mempool.Indexed C := hpool ▸ CTxMemPool.Indexed.clear s.mempool
  exact ⟨hg.synced, ⟨hindexed, fun tx htx => absurd htx (hnone tx),
    fun tx htx => absurd htx (hnone tx)⟩, fun tx htx => absurd htx (hnone tx)⟩

theorem PoolSynced.grow (hs : PoolSynced C s t) (hgrow : Grows C s s')
    (hpool : s'.mempool = s.mempool) : PoolSynced C s' t := by
  refine ⟨hs.synced.grow hgrow, hpool ▸ hs.clean, fun tx htx => ?_⟩
  rw [hpool] at htx
  have hnone := hs.fresh tx htx
  rwa [readTxIndex_of_noBatch hs.synced.committed.batch, ← hgrow.txIndex,
    ← readTxIndex_of_noBatch hgrow.batch] at hnone

/-- The memory pool is no part of a synced node. -/
theorem Synced.withMempool (hs : Synced C s t) (m : CTxMemPool) :
    Synced C { s with mempool := m } t :=
  ⟨hs.committed.withMempool m, hs.pindexBest, hs.hashBestChain, hs.nBestHeight, hs.nBestChainTrust⟩

variable (hinj : Function.Injective C.hashTx)
include hinj

/-- `accept` refuses the transactions of the chain. -/
theorem PoolSynced.accept (hs : PoolSynced C s t) (env : Env) (tx : CTransaction) :
    PoolSynced C (s.acceptToMemoryPool C env tx true).2.2 t := by
  obtain ⟨hclean, hmem⟩ := hs.clean.accept hinj env tx true
  obtain ⟨m, hm⟩ := NodeState.exists_mempool_accept C env s tx true
  rw [hm] at hclean hmem ⊢
  refine ⟨hs.synced.withMempool m, hclean, fun y hy => ?_⟩
  rcases hmem y hy with hold | ⟨rfl, hadm⟩
  · exact hs.fresh y hold
  · exact hadm.notInChain rfl

/-- A call whose postponed blocks are connected. -/
theorem PoolSynced.call (hacyclic : HashAcyclic C) (hs : PoolSynced C s t)
    (hb : s.blockOf h = some b) (hpost : PostponedOK C env s b h) :
    ∃ t', PoolSynced C (s.setBestChain C env b h).2 t' := by
  cases hok : (s.setBestChain C env b h).1 with
  | false =>
    have hsync := setBestChain_synced_of_failed hs.synced hb hok
    have hun := Unchanged.of_setBestChain hok
    refine ⟨t, hsync, hun.mempool ▸ hs.clean, fun tx htx => ?_⟩
    rw [hun.mempool] at htx
    have hnone := hs.fresh tx htx
    rwa [readTxIndex_of_noBatch hs.synced.committed.batch, ← hun.txIndex,
      ← readTxIndex_of_noBatch hsync.committed.batch] at hnone
  | true =>
    obtain ⟨t', hsync⟩ := setBestChain_synced hs.synced hb hpost
    obtain ⟨f, a, k, hcall⟩ := setBestChain_called hs.synced hb hok
    obtain ⟨hclean, hfresh⟩ := hcall.clean_and_fresh hinj hacyclic hs.synced.committed hs.clean
      (hs.not_mem hinj)
    exact ⟨t', hsync, hclean, fun tx htx =>
      (hcall.committed.readTxIndex_eq_none_iff hinj).mpr (hfresh tx htx)⟩

/-- **Runs keep the pool clean and apart from the chain.** -/
theorem PoolRun.poolSynced (hacyclic : HashAcyclic C) (hrun : PoolRun C s) :
    ∃ t, PoolSynced C s t := by
  induction hrun with
  | genesis hg hpool => exact ⟨_, hg.poolSynced hpool⟩
  | grow _ hgrow hpool ih =>
    obtain ⟨t, hs⟩ := ih
    exact ⟨t, hs.grow hgrow hpool⟩
  | accept _ ih =>
    obtain ⟨t, hs⟩ := ih
    exact ⟨t, hs.accept hinj _ _⟩
  | call _ hb hpost ih =>
    obtain ⟨t, hs⟩ := ih
    exact hs.call hinj hacyclic hb hpost

end Runs

/-- **After a successful call the pool is backed exactly under the condition**, in every state of a
run where it was backed before. -/
theorem poolBacked_iff_poolKept {s : NodeState} {h : Uint256} {b : CBlock} (hC : HashInjective C)
    (hacyclic : HashAcyclic C) (hrun : PoolRun C s) (hback : s.PoolBacked)
    (hb : s.blockOf h = some b) (hok : (s.setBestChain C env b h).1 = true) :
    (s.setBestChain C env b h).2.PoolBacked ↔ PoolKept C env s b h := by
  obtain ⟨t, hs⟩ := hrun.poolSynced hC.hashTx hacyclic
  exact hs.poolBacked_iff hC.hashTx hacyclic hback hb hok

/-! ## A sample run -/

/-- The block of height `n` in a chain of coinbases, with its height and its trust. -/
def deepBlock (n : Nat) : StoredBlock :=
  ⟨sampleBlock n ((n + 1) * (n + 1) + 1) (UInt8.ofNat n) 42000000, n, n + 1⟩

/-- A transaction that spends the coinbase of height one; `k` tells two of them apart. -/
def spendTx (k : UInt8) : CTransaction where
  nVersion := 1
  nTime := 1012
  vin := [⟨⟨5, 0⟩, [], 4294967295⟩]
  vout := [⟨41000000, [k]⟩]
  nLockTime := 0

/-- A block of height 12 that spends the coinbase of height one. -/
def conflictBlock : StoredBlock :=
  ⟨{ sampleBlock 12 53531 12 42000000 with
    vtx := [sampleCoinbase 12 42000000, spendTx 2] }, 12, 13⟩

/-- Eleven blocks after genesis, and on top of them a block with a coinbase alone and the one that
spends. -/
def deepChain : List StoredBlock :=
  (List.range 12).map (fun n => deepBlock (n + 1)) ++ [conflictBlock]

/-- Hashes without a cycle that number the sample blocks from one. -/
noncomputable def deepCrypto : Crypto :=
  rankedCrypto
    ((deepBlock 0 :: deepChain.take 12).flatMap (fun x => x.block.vtx) ++ [spendTx 1, spendTx 2])
    ((deepBlock 0 :: deepChain).map fun x => x.block.getBlockHeader)

/-- The node that stores the chain. -/
noncomputable def deepNode : NodeState := storedNode deepCrypto (deepBlock 0 :: deepChain)

theorem deepChain_storable : Storable deepCrypto (deepBlock 0) deepChain where
  nodup := by decide +kernel
  hash_ne_zero := by decide +kernel
  genesis := by decide +kernel
  parent := by decide +kernel
  distinct := by decide +kernel

/-- The node after a call for the block of height eleven. -/
noncomputable def deepNode₁ : NodeState :=
  (deepNode.setBestChain deepCrypto (sampleEnv false) (deepBlock 11).block 12).2

/-- That node after it accepted a transaction that spends the coinbase of height one. -/
noncomputable def deepNode₂ : NodeState :=
  (deepNode₁.acceptToMemoryPool deepCrypto (sampleEnv false) (spendTx 1) true).2.2

/-- A call postpones only blocks that can be connected when the committed best chain ends up at the
block it was called for. -/
theorem Synced.postponedOK {s : NodeState} {t h : Uint256} {b : CBlock} (hs : Synced C s t)
    (hb : s.blockOf h = some b) (hok : (s.setBestChain C env b h).1 = true)
    (hbest : (s.setBestChain C env b h).2.txdb.content .hashBestChain = some h) :
    PostponedOK C env s b h := by
  obtain ⟨k, hk, hiff, -⟩ := setBestChain_ok hs hb hok
  exact hiff.mpr (Option.some.inj (hk.best.symm.trans hbest))

theorem deepNode₂_run : PoolRun deepCrypto deepNode₂ := by
  have hgenesis : GenesisState deepCrypto deepNode 1 := deepChain_storable.genesisState
  have hpost : PostponedOK deepCrypto (sampleEnv false) deepNode (deepBlock 11).block 12 :=
    hgenesis.synced.postponedOK (by decide +kernel) (by decide +kernel) (by decide +kernel)
  exact ((PoolRun.genesis hgenesis rfl).call (by decide +kernel) hpost).accept

/-- The block with a coinbase alone keeps the pool backed, the one that spends the same coinbase as
the pool transaction does not. -/
theorem poolKept_deepNode :
    PoolKept deepCrypto (sampleEnv false) deepNode₂ (deepBlock 12).block 13 ∧
      ¬ PoolKept deepCrypto (sampleEnv false) deepNode₂ conflictBlock.block 14 := by
  have hC := rankedCrypto_hashInjective
    ((deepBlock 0 :: deepChain.take 12).flatMap (fun x => x.block.vtx) ++ [spendTx 1, spendTx 2])
    ((deepBlock 0 :: deepChain).map fun x => x.block.getBlockHeader)
  have hacyclic : HashAcyclic deepCrypto := rankedCrypto_hashAcyclic _ _
  constructor
  · exact (poolBacked_iff_poolKept hC hacyclic deepNode₂_run (by decide +kernel)
      (by decide +kernel) (by decide +kernel)).mp (by decide +kernel)
  · exact (poolBacked_iff_poolKept hC hacyclic deepNode₂_run (by decide +kernel)
      (by decide +kernel) (by decide +kernel)).not.mp (by decide +kernel)

/-- After the call for that block the pool transaction spends an outpoint that the chain has
spent. -/
theorem not_forall_poolBacked :
    ¬ ∀ (C : Crypto) (env : Env) (s : NodeState) (b : CBlock) (h : Uint256), HashInjective C →
      HashAcyclic C → PoolRun C s → s.PoolBacked → s.blockOf h = some b →
      (s.setBestChain C env b h).1 = true → (s.setBestChain C env b h).2.PoolBacked := by
  intro hall
  have hback : (deepNode₂.setBestChain deepCrypto (sampleEnv false)
      conflictBlock.block 14).2.PoolBacked :=
    hall _ _ _ _ _ (rankedCrypto_hashInjective _ _) (rankedCrypto_hashAcyclic _ _) deepNode₂_run
      (by decide +kernel) (by decide +kernel) (by decide +kernel)
  have hnot : ¬ (deepNode₂.setBestChain deepCrypto (sampleEnv false)
      conflictBlock.block 14).2.PoolBacked := by decide +kernel
  exact hnot hback

end MotaCoin
