import MotaCoin.Commit

/-!
# Runs of a node

A run starts at the genesis state; between calls of `SetBestChain` the block tree may grow and the
memory pool may change; a call may be made for any block of the tree, may fail, and meets any
failures of the disk. `SetBestChain` sets the globals from the block it was called for, whether or
not the blocks it postponed were connected: runs in which every postponed block is connected keep
the globals and the database together.

## Main definitions

* `PostponedOK`: every block a call postpones can be connected
* `TipAgrees`: the globals and the database name the same tip, linked from genesis
* `Synced`: the invariant between calls
* `GenesisState`, `Grows`, `Run`: runs, with a condition on calls

## Main results

* `tipAgrees_iff_postponedOK`: after a call the tip agrees exactly when no postponed block failed
* `run_synced`: runs whose postponed blocks are connected keep the node synced
-/

namespace MotaCoin

open Ancestry (Walk Climb)
open SpendIndex (Valid unspentValue)

variable {C : Crypto} {env : Env}

/-! ## One call -/

variable (C env) in
/-- **Every block the call postpones can be read, is accepted on its own branch, and is
committed.** A block on top of the tip postpones nothing. -/
def PostponedOK (s : NodeState) (b : CBlock) (pindexNew : Uint256) : Prop :=
  b.hashPrevBlock ≠ s.hashBestChain → ∀ t, s.pindexBest = some t →
    ∀ j ∈ (s.postpone t pindexNew).2, ConnectsNext C env s j

/-- **The tip agrees**: the globals name the committed best chain, and following `pnext` from the
genesis block reaches it. -/
structure TipAgrees (s : NodeState) : Prop where
  best : s.txdb.content .hashBestChain = some s.hashBestChain
  pindexBest : s.pindexBest = some s.hashBestChain
  known : (s.mapBlockIndex s.hashBestChain).isSome
  reached : ∃ g n, s.pindexGenesisBlock = some g ∧
    (fun o : Option Uint256 => o.bind s.nextOf)^[n] (some g) = s.pindexBest

variable (C) in
/-- **The node is synced at `t`**: the database is committed there, and the globals say so. -/
structure Synced (s : NodeState) (t : Uint256) : Prop where
  committed : CommittedAt C s t
  pindexBest : s.pindexBest = some t
  hashBestChain : s.hashBestChain = t
  nBestHeight : s.nBestHeight = s.heightOf t
  nBestChainTrust : s.nBestChainTrust = s.trustOf t

/-- The root a known block is climbed to from is the genesis block. -/
theorem TreeOK.genesis_of_climb {s : NodeState} (hT : TreeOK C s) {r t : Uint256}
    {v : List Uint256} (hr : s.parentOf r = none) (hc : Climb s.parentOf r v t)
    (ht : (s.mapBlockIndex t).isSome) : s.pindexGenesisBlock = some r := by
  have hknown : (s.mapBlockIndex r).isSome := by
    cases v with
    | nil =>
      obtain rfl : r = t := hc
      exact ht
    | cons k v => exact hT.isSome_of_parentOf hc.1
  obtain ⟨e, he⟩ := Option.isSome_iff_exists.mp hknown
  exact hT.root he (by simpa [NodeState.parentOf, he] using hr)

/-- The links of a committed chain lead from the genesis block to its tip. -/
theorem CommittedAt.reached {s : NodeState} {t : Uint256} (h : CommittedAt C s t) :
    ∃ g n, s.pindexGenesisBlock = some g ∧
      (fun o : Option Uint256 => o.bind s.nextOf)^[n] (some g) = some t := by
  obtain ⟨r, hr, hc⟩ := Ancestry.Tree.exists_root_climb (T := h.tree.tree) t
  exact ⟨r, _, h.tree.genesis_of_climb hr hc h.known,
    Ancestry.Tree.iterate_of_climb hc h.linked⟩

theorem Synced.tipAgrees {s : NodeState} {t : Uint256} (h : Synced C s t) : TipAgrees s where
  best := by rw [h.hashBestChain, h.committed.best]
  pindexBest := by rw [h.hashBestChain, h.pindexBest]
  known := by
    rw [h.hashBestChain]
    exact h.committed.known
  reached := by
    rw [h.pindexBest]
    exact h.committed.reached

section OneCall

variable {s : NodeState} {t h : Uint256} {b : CBlock}

/-- A synced node never takes the branch of the genesis block. -/
theorem setBestChainBranches_of_synced (hs : Synced C s t) :
    s.txnBegin.setBestChainBranches C env b h =
      if b.hashPrevBlock = t then s.txnBegin.setBestChainInner C env b h
      else s.txnBegin.setBestChainReorganize C env h := by
  obtain ⟨g, hg, -⟩ := hs.committed.genesis
  have hgen : s.txnBegin.pindexGenesisBlock ≠ none := by
    rw [show s.txnBegin.pindexGenesisBlock = some g from hg]
    simp
  unfold NodeState.setBestChainBranches
  rw [if_neg (fun hboth => hgen hboth.1), show s.txnBegin.hashBestChain = t from hs.hashBestChain]

/-- **What a successful call commits**: the chain of the block it was called for, exactly when no
postponed block failed. -/
theorem setBestChainBranches_ok (hs : Synced C s t) (hb : s.blockOf h = some b)
    (hok : (s.txnBegin.setBestChainBranches C env b h).1 = true) :
    SameTree s (s.txnBegin.setBestChainBranches C env b h).2 ∧
      ∃ k, CommittedAt C (s.txnBegin.setBestChainBranches C env b h).2 k ∧
        (PostponedOK C env s b h ↔ k = h) := by
  obtain ⟨e, he, hfile⟩ := NodeState.blockOf_eq_some hb
  obtain ⟨b', hb', hhash, -⟩ := hs.committed.tree.stored he
  obtain rfl := Option.some.inj (hfile.symm.trans hb')
  rw [setBestChainBranches_of_synced hs] at hok ⊢
  split at hok
  · next hprev =>
    rw [if_pos hprev]
    have hp : s.parentOf h = some t :=
      hs.committed.tree.parentOf_eq_of_hashPrevBlock he hfile hprev hs.committed.known
    have hT₀ : TreeOK C s.txnBegin := (sameTree_withTxdb s _).treeOK hs.committed.tree
    have hkeep : Keeps C s.txnBegin (s.txnBegin.setBestChainInner C env b h).2 :=
      setBestChainInner_keeps hT₀ (OnBranch.txnBegin hs.committed) hp hb
    refine ⟨(sameTree_withTxdb s _).trans hkeep.tree, h,
      setBestChainInner_committed hs.committed hp hb hhash hok, ?_⟩
    simp [PostponedOK, hprev, hs.hashBestChain]
  · next hprev =>
    rw [if_neg hprev]
    have hpost : s.txnBegin.postpone t h = s.postpone t h :=
      postpone_congr (sameTree_withTxdb s _) t h
    unfold NodeState.setBestChainReorganize at hok ⊢
    simp only [show s.txnBegin.pindexBest = some t from hs.pindexBest, hpost] at hok ⊢
    split at hok
    · cases hok
    · next hr =>
      rw [if_neg hr]
      have hclimb : Climb s.parentOf (s.postpone t h).1 (s.postpone t h).2 h := postpone_spec t h
      obtain ⟨hcom, htree, htip⟩ := reorganize_committed hs.committed hs.pindexBest
        (by simpa using hr)
      have hclimb' := htree.parentOf.symm ▸ hclimb
      obtain ⟨htree', -, k, hk, hiff⟩ := connectFurther_spec hcom hclimb'
      refine ⟨htree.trans htree', k, hk, ?_⟩
      rw [← hiff, connectFurther_fst_iff hcom hclimb' htree htip]
      simp [PostponedOK, hprev, hs.hashBestChain, hs.pindexBest]

/-- A failed call leaves the node synced where it was. -/
theorem setBestChain_synced_of_failed (hs : Synced C s t) (hb : s.blockOf h = some b)
    (hfail : (s.setBestChain C env b h).1 = false) : Synced C (s.setBestChain C env b h).2 t := by
  rw [setBestChain_of_failed C env hfail]
  rw [setBestChain_fst] at hfail
  have hbegin : Unchanged s s.txnBegin := Unchanged.of_content rfl
  have hun := hbegin.trans (setBestChainBranches_unchanged C env rfl hfail)
  have hT₀ : TreeOK C s.txnBegin := (sameTree_withTxdb s _).treeOK hs.committed.tree
  have hbr₀ := OnBranch.txnBegin hs.committed
  have hkeep₀ : Keeps C s s.txnBegin := Keeps.of_mapBlockIndex rfl rfl rfl
  obtain ⟨hkeep, hbatch⟩ : Keeps C s (s.txnBegin.setBestChainBranches C env b h).2 ∧
      (s.txnBegin.setBestChainBranches C env b h).2.txdb.activeBatch = none := by
    rw [setBestChainBranches_of_synced hs] at hfail ⊢
    split at hfail
    · next hprev =>
      rw [if_pos hprev]
      obtain ⟨e, he, hfile⟩ := NodeState.blockOf_eq_some hb
      have hp : s.parentOf h = some t :=
        hs.committed.tree.parentOf_eq_of_hashPrevBlock he hfile hprev hs.committed.known
      exact ⟨hkeep₀.trans (setBestChainInner_keeps hT₀ hbr₀ hp hb),
        activeBatch_setBestChainInner _ _ _⟩
    · next hprev =>
      rw [if_neg hprev]
      unfold NodeState.setBestChainReorganize at hfail ⊢
      simp only [show s.txnBegin.pindexBest = some t from hs.pindexBest] at hfail ⊢
      split at hfail
      · next hr =>
        rw [if_pos hr]
        exact ⟨(hkeep₀.trans (reorganize_keeps hT₀ hbr₀ hs.pindexBest (by simpa using hr))).trans
          (abortInvalid_keeps _ _), activeBatch_abortInvalid _ _⟩
      · cases hfail
  refine ⟨hs.committed.of_unchanged hkeep hun hbatch, ?_, ?_, ?_, ?_⟩
  · exact hun.tip.pindexBest.trans hs.pindexBest
  · exact hun.tip.hashBestChain.trans hs.hashBestChain
  · rw [hun.tip.nBestHeight, hs.nBestHeight, hkeep.tree.heightOf]
  · rw [hun.tip.nBestChainTrust, hs.nBestChainTrust, hkeep.tree.trustOf]

/-- Setting the globals leaves a committed chain where it is. -/
theorem CommittedAt.newBestBlock {k : Uint256} (hk : CommittedAt C s k) (b : CBlock) (h : Uint256) :
    CommittedAt C (s.newBestBlock C b h) k := by
  have hkeep : Keeps C s (s.newBestBlock C b h) := Keeps.of_mapBlockIndex rfl rfl rfl
  exact hk.of_onBranch hkeep.tree hk.known hk.batch hk.best (hk.branch.keeps hkeep rfl) hk.linked

/-- What a successful call leaves: the globals name the block it was called for, the database the
last block that was connected. -/
theorem setBestChain_ok (hs : Synced C s t) (hb : s.blockOf h = some b)
    (hok : (s.setBestChain C env b h).1 = true) :
    ∃ k, CommittedAt C (s.setBestChain C env b h).2 k ∧ (PostponedOK C env s b h ↔ k = h) ∧
      (s.setBestChain C env b h).2.pindexBest = some h ∧
      (s.setBestChain C env b h).2.hashBestChain = h ∧
      (s.setBestChain C env b h).2.nBestHeight = (s.setBestChain C env b h).2.heightOf h ∧
      (s.setBestChain C env b h).2.nBestChainTrust = (s.setBestChain C env b h).2.trustOf h := by
  obtain ⟨e, he, hfile⟩ := NodeState.blockOf_eq_some hb
  obtain ⟨b', hb', hhash, -⟩ := hs.committed.tree.stored he
  obtain rfl := Option.some.inj (hfile.symm.trans hb')
  rw [setBestChain_of_ok C env hok]
  rw [setBestChain_fst] at hok
  obtain ⟨-, k, hk, hiff⟩ := setBestChainBranches_ok hs hb hok
  exact ⟨k, hk.newBestBlock b h, hiff, rfl, hhash, rfl, rfl⟩

/-- A call in which every postponed block is connected leaves the node synced. -/
theorem setBestChain_synced (hs : Synced C s t) (hb : s.blockOf h = some b)
    (hpost : PostponedOK C env s b h) : ∃ t', Synced C (s.setBestChain C env b h).2 t' := by
  cases hok : (s.setBestChain C env b h).1 with
  | false => exact ⟨t, setBestChain_synced_of_failed hs hb hok⟩
  | true =>
    obtain ⟨k, hk, hiff, hbest, hhash, hheight, htrust⟩ := setBestChain_ok hs hb hok
    obtain rfl := hiff.mp hpost
    exact ⟨k, hk, hbest, hhash, hheight, htrust⟩

/-- After a successful call the tip agrees exactly when every postponed block was connected. -/
theorem tipAgrees_iff_postponedOK (hs : Synced C s t) (hb : s.blockOf h = some b)
    (hok : (s.setBestChain C env b h).1 = true) :
    TipAgrees (s.setBestChain C env b h).2 ↔ PostponedOK C env s b h := by
  constructor
  · intro hagree
    obtain ⟨k, hk, hiff, -, hhash, -, -⟩ := setBestChain_ok hs hb hok
    refine hiff.mpr (Option.some.inj ?_)
    rw [← hk.best, hagree.best, hhash]
  · intro hpost
    obtain ⟨k, hk, hiff, hbest, hhash, hheight, htrust⟩ := setBestChain_ok hs hb hok
    obtain rfl := hiff.mp hpost
    have hsync : Synced C (s.setBestChain C env b k).2 k := ⟨hk, hbest, hhash, hheight, htrust⟩
    exact hsync.tipAgrees

end OneCall

/-! ## Runs -/

variable (C) in
/-- The state after the genesis block was set: no transaction is connected. -/
structure GenesisState (s : NodeState) (g : Uint256) : Prop where
  tree : TreeOK C s
  root : s.parentOf g = none
  known : (s.mapBlockIndex g).isSome
  supply : s.supplyOf g = 0
  genesis : s.pindexGenesisBlock = some g
  pindexBest : s.pindexBest = some g
  hashBestChain : s.hashBestChain = g
  nBestHeight : s.nBestHeight = s.heightOf g
  nBestChainTrust : s.nBestChainTrust = s.trustOf g
  batch : s.txdb.activeBatch = none
  best : s.txdb.content .hashBestChain = some g
  txIndex : ∀ txid, s.txdb.committedTxIndex txid = none

variable (C) in
/-- **Between calls**: blocks are added to the tree and transactions come and go in the memory
pool; the entries that were there, the committed index and the tip are as before. -/
structure Grows (s s' : NodeState) : Prop where
  tree : TreeOK C s'
  entries : ∀ {h e}, s.mapBlockIndex h = some e → s'.mapBlockIndex h = some e
  files : ∀ {h e}, s.mapBlockIndex h = some e →
    s'.blkFiles e.nFile e.nBlockPos = s.blkFiles e.nFile e.nBlockPos
  genesis : s'.pindexGenesisBlock = s.pindexGenesisBlock
  tip : SameTip s s'
  batch : s'.txdb.activeBatch = none
  best : s'.txdb.content .hashBestChain = s.txdb.content .hashBestChain
  txIndex : s'.txdb.committedTxIndex = s.txdb.committedTxIndex

/-- **The states of runs** from the genesis state. Calls of `SetBestChain` are for blocks of the
tree, with any failures of the disk, as far as `Call` allows them; a call may return false. -/
inductive Run (C : Crypto) (Call : Env → NodeState → CBlock → Uint256 → Prop) : NodeState → Prop
  | genesis {s : NodeState} {g : Uint256} : GenesisState C s g → Run C Call s
  | grow {s s' : NodeState} : Run C Call s → Grows C s s' → Run C Call s'
  | call {s : NodeState} {env : Env} {b : CBlock} {h : Uint256} : Run C Call s →
      s.blockOf h = some b → Call env s b h → Run C Call (s.setBestChain C env b h).2

theorem GenesisState.synced {s : NodeState} {g : Uint256} (h : GenesisState C s g) :
    Synced C s g := by
  have hpath : s.path g = [] := h.tree.tree.path_of_root h.root
  have htxs : s.pathTxs g = [] := by rw [NodeState.pathTxs, hpath]; rfl
  refine ⟨⟨h.tree, ⟨g, h.genesis, h.known, h.root⟩, h.known, h.batch, h.best, ⟨?_, ?_, ?_⟩, ?_⟩,
    h.pindexBest, h.hashBestChain, h.nBestHeight, h.nBestChainTrust⟩
  · rw [htxs, CTxDB.txIndex_of_noBatch h.batch]
    funext txid
    exact h.txIndex txid
  · simp [hpath]
  · intro j hj
    rw [hpath] at hj
    have hroot : s.parentOf j = none := hj.resolve_right (by simp)
    have htxs : s.pathTxs j = [] := by
      rw [NodeState.pathTxs, show s.path j = [] from h.tree.tree.path_of_root hroot]
      rfl
    have hsup : s.supplyOf j = 0 := by
      cases he : s.mapBlockIndex j with
      | none => simp [NodeState.supplyOf, he]
      | some e =>
        have hgj := h.tree.root he (by simpa [NodeState.parentOf, he] using hroot)
        obtain rfl := Option.some.inj (hgj.symm.trans h.genesis)
        exact h.supply
    rw [Supplied, hsup, htxs]
    rfl
  · intro j hj
    rw [hpath] at hj
    cases hj

theorem Grows.treeLe {s s' : NodeState} (h : Grows C s s') : TreeLe s s' :=
  fun _ e he => ⟨e, h.entries he, rfl, h.files he⟩

theorem Grows.mapBlockIndex_eq {s s' : NodeState} (h : Grows C s s') {k : Uint256}
    (hk : (s.mapBlockIndex k).isSome) : s'.mapBlockIndex k = s.mapBlockIndex k := by
  obtain ⟨e, he⟩ := Option.isSome_iff_exists.mp hk
  rw [he, h.entries he]

/-- A chain stays committed while the tree grows. -/
theorem CommittedAt.grow {s s' : NodeState} {t : Uint256} (hs : CommittedAt C s t)
    (h : Grows C s s') : CommittedAt C s' t := by
  have hT := hs.tree
  have hpath := h.treeLe.path hT hs.known
  have htxs : ∀ {k}, (s.mapBlockIndex k).isSome → s'.pathTxs k = s.pathTxs k :=
    h.treeLe.pathTxs hT
  have hknown : ∀ j ∈ s.path t, (s.mapBlockIndex j).isSome := by
    intro j hj
    obtain ⟨p, hp, -⟩ := Ancestry.Tree.exists_parent_of_mem_path (T := hT.tree) hj
    exact NodeState.isSome_of_parentOf_eq hp
  have hsup : ∀ {j}, (s.mapBlockIndex j).isSome → Supplied C s j → Supplied C s' j := by
    intro j hj hsup
    unfold Supplied NodeState.supplyOf at hsup ⊢
    rwa [htxs hj, h.mapBlockIndex_eq hj]
  obtain ⟨g, hg, hgk, hgroot⟩ := hs.genesis
  refine ⟨h.tree, ⟨g, h.genesis.trans hg, h.treeLe.isSome hgk,
    (h.treeLe.parentOf hgk).trans hgroot⟩, h.treeLe.isSome hs.known, h.batch,
    h.best.trans hs.best, ⟨?_, ?_, ?_⟩, ?_⟩
  · rw [CTxDB.txIndex_of_noBatch h.batch, h.txIndex, htxs hs.known,
      ← hs.branch.index, CTxDB.txIndex_of_noBatch hs.batch]
  · rw [hpath]
    exact fun j hj => (hs.branch.connects j hj).mono h.treeLe
  · rw [hpath]
    rintro j (hroot | hj)
    · cases he : s'.mapBlockIndex j with
      | none =>
        have : s'.pathTxs j = [] := by
          rw [NodeState.pathTxs, show s'.path j = [] from h.tree.tree.path_of_root hroot]
          rfl
        rw [Supplied, NodeState.supplyOf, he, this]
        rfl
      | some e =>
        -- a root of the grown tree is the genesis block, which was there
        have hgj := h.tree.root he (by simpa [NodeState.parentOf, he] using hroot)
        obtain rfl := Option.some.inj (hgj.symm.trans (h.genesis.trans hg))
        exact hsup hgk (hs.branch.supplied j (.inl hgroot))
    · exact hsup (hknown j hj) (hs.branch.supplied j (.inr hj))
  · intro j hj p hp
    rw [hpath] at hj
    rw [h.treeLe.parentOf (hknown j hj)] at hp
    have hpk := hT.isSome_of_parentOf hp
    rw [NodeState.nextOf, h.mapBlockIndex_eq hpk]
    exact hs.linked j hj p hp

/-- A node stays synced while its tree grows. -/
theorem Synced.grow {s s' : NodeState} {t : Uint256} (hs : Synced C s t) (h : Grows C s s') :
    Synced C s' t := by
  refine ⟨hs.committed.grow h, ?_, ?_, ?_, ?_⟩
  · exact h.tip.pindexBest.trans hs.pindexBest
  · exact h.tip.hashBestChain.trans hs.hashBestChain
  · rw [h.tip.nBestHeight, hs.nBestHeight, NodeState.heightOf, NodeState.heightOf,
      h.mapBlockIndex_eq hs.committed.known]
  · rw [h.tip.nBestChainTrust, hs.nBestChainTrust, NodeState.trustOf, NodeState.trustOf,
      h.mapBlockIndex_eq hs.committed.known]

variable (C) in
/-- Runs in which every postponed block of every call is connected. -/
abbrev GoodRun : NodeState → Prop := Run C fun env s b h => PostponedOK C env s b h

/-- **Good runs keep the node synced.** -/
theorem run_synced {s : NodeState} (h : GoodRun C s) : ∃ t, Synced C s t := by
  induction h with
  | genesis hg => exact ⟨_, hg.synced⟩
  | grow _ hgrow ih =>
    obtain ⟨t, hs⟩ := ih
    exact ⟨t, hs.grow hgrow⟩
  | call _ hb hpost ih =>
    obtain ⟨t, hs⟩ := ih
    exact setBestChain_synced hs hb hpost

end MotaCoin
