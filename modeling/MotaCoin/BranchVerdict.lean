import MotaCoin.RewardRules
import MotaCoin.StakeModifier

/-!
# The verdict on a block, from two nodes

A block is judged by `AcceptBlock` when it arrives and by `ConnectBlock` when its branch is
connected. This module compares the verdicts of two nodes that share the ancestors of the block and
may have different chains active. The rules fall into two groups. One has the same outcome on both
nodes, wherever they keep the blocks and whatever they have active. The other reads the active
chain: the aggregate rule and the kernel read its transaction index, the stake modifier of the
kernel is found along its links, the coinbase limit and the signature rule read its height, and the
synchronized checkpoint is a global of the node.

## Main definitions

* `NodeState.branchVerdict`: accept a block, and connect it on the index of its branch
* `NodeState.ancestorRules`, `NodeState.activeRules`: the two groups of rules
* `Arrives`: a block the node does not have yet, and disks that work

## Main results

* `SharedBranch.ancestorRules_eq`: the first group has the same outcome on both nodes
* `branchVerdict_eq`: a block is accepted and connected if and only if both groups let it pass
* `acceptBlock_fst_eq_branchVerdict`: on top of the tip, this is what `AcceptBlock` returns
* `branchVerdict_eq_iff`: when the verdicts of two nodes agree
-/

namespace MotaCoin

open SpendIndex (IndexRel)

variable {C : Crypto} {env env' : Env} {s s' : NodeState} {K : Set Uint256} {b : CBlock}

/-! ## The verdict -/

namespace NodeState

variable (C : Crypto) (env : Env) (s : NodeState) (b : CBlock)

/-- The node with a block stored and its entry in the tree, on the index of the block's branch. -/
def onBranch (nFile nBlockPos : Nat) (pindexNew : CBlockIndex) : NodeState :=
  let s₁ := (s.writeBlock b nFile nBlockPos).insertIndex pindexNew
  s₁.withIndex (indexOf C (s₁.pathTxs b.hashPrevBlock))

/-- The entry `AcceptBlock` makes of a block, and the node that connects its branch. -/
def branchNode (hashProofOfStake : Uint256) : Option (CBlockIndex × NodeState) :=
  env.writeToDisk.bind fun p =>
    ((s.writeBlock b p.1 p.2).newBlockIndex C b p.1 p.2 hashProofOfStake).map fun pindexNew =>
      (pindexNew, s.onBranch C b p.1 p.2 pindexNew)

/-- **Accept a block and connect it on its branch**: the rules of `AcceptBlock`, the new entry, and
`ConnectBlock` on the index of the branch, all with the globals of the moment. -/
def branchVerdict : Bool :=
  match s.acceptChecks C env b with
  | none => false
  | some hashProofOfStake =>
    match s.branchNode C env b hashProofOfStake with
    | none => false
    | some (pindexNew, s₁) => (s₁.connectBlock C env b pindexNew.hash).1

/-! ## Two groups of rules -/

/-- The loop of `ConnectBlock` over the transactions of a block on its branch, with signatures
checked or not. `ConnectBlock` does not read the proof hash of the entry. -/
def branchTotals (checkSignatures : Bool) : Option ConnectTotals :=
  (s.branchNode C env b 0).bind fun r =>
    connectTxs C (r.2.sources env) ((r.2.connectCtx r.1 true).withSignatures checkSignatures)
      (txPositions r.1.nFile r.1.nBlockPos b) ConnectTotals.init

/-- The coinstake limit of `ConnectBlock` on the branch. -/
def branchStakeReward (t : ConnectTotals) : Bool :=
  (s.branchNode C env b 0).any fun r => r.2.checkStakeReward C env b r.1 t

/-- **The rules that read the block and its ancestors only.** -/
def ancestorRules : Bool :=
  match s.mapBlockIndex b.hashPrevBlock, s.branchTotals C env b false with
  | some pindexPrev, some t =>
    s.checkHeader b pindexPrev && checkHardened (pindexPrev.nHeight + 1) (b.getHash C)
      && checkCoinbaseHeight b (pindexPrev.nHeight + 1)
      && b.checkBlock C env.adjustedTime true true false
      && (b.isProofOfWork || s.branchStakeReward C env b t)
  | _, _ => false

/-- **The rules that read the active chain**: the aggregate rule, the kernel, the synchronized
checkpoint, the signatures, which are skipped while the tip is below the last checkpoint, and the
coinbase limit at the height of the tip. -/
def activeRules : Bool :=
  match s.mapBlockIndex b.hashPrevBlock, s.branchTotals C env b false with
  | some pindexPrev, some t =>
    s.checkAggregate env b (pindexPrev.nHeight + 1) && (s.checkKernel C env b).isSome
      && (!decide (env.checkpointsMode = .strict) || s.checkSync (b.getHash C) pindexPrev)
      && (decide (s.nBestHeight < 974427) || (s.branchTotals C env b true).isSome)
      && (b.isProofOfStake || s.checkCoinbaseReward b t.nFees)
  | _, _ => false

end NodeState

/-- **A block arrives** that the node does not have, reads succeed, and the block is written to a
place of its own. -/
structure Arrives (C : Crypto) (env : Env) (s : NodeState) (b : CBlock) : Prop where
  unknown : s.mapBlockIndex (b.getHash C) = none
  tip : s.pindexBest ≠ some (b.getHash C)
  readBlock : ∀ nFile nBlockPos, env.blockUnreadable nFile nBlockPos = false
  readTx : ∀ pos, env.txUnreadable pos = false
  write : ∃ nFile nBlockPos, env.writeToDisk = some (nFile, nBlockPos) ∧ nFile ≠ 4294967295 ∧
    8 ≤ nBlockPos ∧ ∀ h e, s.mapBlockIndex h = some e → ¬(e.nFile = nFile ∧ e.nBlockPos = nBlockPos)

/-! ## Storing the block -/

section Storing

variable {nFile nBlockPos nFile' nBlockPos' : Nat}

theorem StoredAt.writeBlock {h : Uint256} {e : CBlockIndex} {c : CBlock} (he : StoredAt C s h e c)
    (hnew : ¬(e.nFile = nFile ∧ e.nBlockPos = nBlockPos)) (b : CBlock) :
    StoredAt C (s.writeBlock b nFile nBlockPos) h e c := by
  refine ⟨he.entry, he.hash_eq, ?_, he.getHash, he.position⟩
  rw [← he.file]
  unfold NodeState.writeBlock
  by_cases hf : e.nFile = nFile
  · rw [hf]
    simp only [Function.update_self]
    exact Function.update_of_ne (fun hp => hnew ⟨hf, hp⟩) _ _
  · simp only [Function.update_of_ne hf]

theorem SharedBranch.writeBlock (hK : SharedBranch C s s' K)
    (hnew : ∀ h e, s.mapBlockIndex h = some e → ¬(e.nFile = nFile ∧ e.nBlockPos = nBlockPos))
    (hnew' : ∀ h e, s'.mapBlockIndex h = some e →
      ¬(e.nFile = nFile' ∧ e.nBlockPos = nBlockPos')) :
    SharedBranch C (s.writeBlock b nFile nBlockPos) (s'.writeBlock b nFile' nBlockPos') K where
  stored := by
    intro h hh
    obtain ⟨e, e', c, he, he', hcore⟩ := hK.stored h hh
    exact ⟨e, e', c, he.writeBlock (hnew h e he.entry) b, he'.writeBlock (hnew' h e' he'.entry) b,
      hcore⟩
  parent := hK.parent

/-- An entry beside the new one. -/
theorem StoredAt.insertIndex {h : Uint256} {e n : CBlockIndex} {c : CBlock}
    (he : StoredAt C s h e c) (hne : h ≠ n.hash) : StoredAt C (s.insertIndex n) h e c := by
  refine ⟨?_, he.hash_eq, he.file, he.getHash, he.position⟩
  rw [← he.entry]
  exact Function.update_of_ne hne _ _

/-- The new entry. -/
theorem StoredAt.new {n : CBlockIndex} (hhash : n.hash = b.getHash C)
    (hfile : s.blkFiles n.nFile n.nBlockPos = some b)
    (hpos : n.nFile ≠ 4294967295 ∧ 8 ≤ n.nBlockPos) :
    StoredAt C (s.insertIndex n) (b.getHash C) n b := by
  refine ⟨?_, hhash, hfile, rfl, hpos⟩
  rw [← hhash]
  exact Function.update_self ..

/-- **The new block is shared, too.** -/
theorem SharedBranch.insertIndex (hK : SharedBranch C s s' K) (hb : b.hashPrevBlock ∈ K)
    (hnone : s.mapBlockIndex (b.getHash C) = none) {n n' : CBlockIndex}
    (hcore : n.core = n'.core) (hhash : n.hash = b.getHash C)
    (hparent : n.pprev = some b.hashPrevBlock)
    (hheight : n.nHeight = s.heightOf b.hashPrevBlock + 1)
    (hfile : s.blkFiles n.nFile n.nBlockPos = some b)
    (hfile' : s'.blkFiles n'.nFile n'.nBlockPos = some b)
    (hpos : n.nFile ≠ 4294967295 ∧ 8 ≤ n.nBlockPos)
    (hpos' : n'.nFile ≠ 4294967295 ∧ 8 ≤ n'.nBlockPos) :
    SharedBranch C (s.insertIndex n) (s'.insertIndex n') (insert (b.getHash C) K) := by
  have hhash' : n'.hash = b.getHash C := (CBlockIndex.eq_of_core hcore).1 ▸ hhash
  have hold : ∀ h ∈ K, h ≠ b.getHash C := by
    rintro h hh rfl
    obtain ⟨e, _, _, he, -⟩ := hK.stored _ hh
    exact absurd he.entry (by simp [hnone])
  have hentry : ∀ h ∈ K, (s.insertIndex n).mapBlockIndex h = s.mapBlockIndex h := fun h hh =>
    Function.update_of_ne (hhash ▸ hold h hh) _ _
  have hself : (s.insertIndex n).mapBlockIndex (b.getHash C) = some n := by
    rw [← hhash]
    exact Function.update_self ..
  refine ⟨?_, ?_⟩
  · rintro h (rfl | hh)
    · exact ⟨n, n', b, .new hhash hfile hpos, .new hhash' hfile' hpos', hcore⟩
    · obtain ⟨e, e', c, he, he', hcore'⟩ := hK.stored h hh
      exact ⟨e, e', c, he.insertIndex (hhash ▸ hold h hh), he'.insertIndex (hhash' ▸ hold h hh),
        hcore'⟩
  · rintro h (rfl | hh) p hp
    · have hp : b.hashPrevBlock = p := by
        simpa [NodeState.parentOf, hself, hparent] using hp
      subst hp
      refine ⟨.inr hb, ?_⟩
      simp only [NodeState.heightOf, hself, hentry _ hb]
      exact hheight
    · have hp : s.parentOf h = some p := by simpa [NodeState.parentOf, hentry h hh] using hp
      obtain ⟨hpK, hstep⟩ := hK.parent h hh p hp
      refine ⟨.inr hpK, ?_⟩
      simp only [NodeState.heightOf, hentry h hh, hentry p hpK]
      exact hstep

theorem StoredAt.withIndex {h : Uint256} {e : CBlockIndex} {c : CBlock} (he : StoredAt C s h e c)
    (idx : TxIndexMap) : StoredAt C (s.withIndex idx) h e c :=
  ⟨he.entry, he.hash_eq, he.file, he.getHash, he.position⟩

theorem SharedBranch.withIndex (hK : SharedBranch C s s' K) (idx idx' : TxIndexMap) :
    SharedBranch C (s.withIndex idx) (s'.withIndex idx') K where
  stored := by
    intro h hh
    obtain ⟨e, e', c, he, he', hcore⟩ := hK.stored h hh
    exact ⟨e, e', c, he.withIndex idx, he'.withIndex idx', hcore⟩
  parent := hK.parent

end Storing

/-! ## Connecting on the branch -/

/-- What the two nodes share while they connect the branch of `b`. -/
structure BranchRel (C : Crypto) (env env' : Env) (b : CBlock) (K : Set Uint256)
    (r r' : CBlockIndex × NodeState) : Prop where
  shared : SharedBranch C r.2 r'.2 K
  mem : b.getHash C ∈ K
  stored : StoredAt C r.2 (b.getHash C) r.1 b
  stored' : StoredAt C r'.2 (b.getHash C) r'.1 b
  core : r.1.core = r'.1.core
  sources : SourcesRel (SamePlace C r.2 r'.2 K) (r.2.sources env) (r'.2.sources env')

/-- Corresponding positions of two nodes read the same, when the indices correspond. -/
theorem SourcesRel.of_samePlace
    (hblock : ∀ nFile nBlockPos, env.blockUnreadable nFile nBlockPos = false)
    (hblock' : ∀ nFile nBlockPos, env'.blockUnreadable nFile nBlockPos = false)
    (htx : ∀ pos, env.txUnreadable pos = false) (htx' : ∀ pos, env'.txUnreadable pos = false)
    (hindex : IndexRel (SamePlace C s s' K) CDiskTxPos.null s.txdb.txIndex s'.txdb.txIndex) :
    SourcesRel (SamePlace C s s' K) (s.sources env) (s'.sources env') where
  readTx := by
    rintro _ _ ⟨h, -, e, e', c, n, he, he', rfl, rfl⟩
    exact (he.readTx htx n).trans (he'.readTx htx' n).symm
  readHeader := by
    rintro _ _ ⟨h, -, e, e', c, n, he, he', rfl, rfl⟩
    simp only [NodeState.sources, NodeState.readBlockAt, hblock, hblock', Bool.false_eq_true,
      if_false, he.file, he'.file]
  proper := by
    rintro _ _ ⟨h, -, e, e', c, n, he, he', rfl, rfl⟩
    exact ⟨he.proper _, he'.proper _⟩
  readTxIndex := by
    rw [s.sources_readTxIndex, s'.sources_readTxIndex]
    exact hindex

/-- **Both nodes get to connect the branch or neither does**, whatever the proof hashes are. -/
theorem branchNode_rel (hK : SharedBranch C s s' K) (hb : b.hashPrevBlock ∈ K)
    (hs : Arrives C env s b) (hs' : Arrives C env' s' b)
    (hashProofOfStake hashProofOfStake' : Uint256) :
    Option.Rel (BranchRel C env env' b (insert (b.getHash C) K))
      (s.branchNode C env b hashProofOfStake) (s'.branchNode C env' b hashProofOfStake') := by
  obtain ⟨nFile, nBlockPos, hwrite, hfile, hpos, hnew⟩ := hs.write
  obtain ⟨nFile', nBlockPos', hwrite', hfile', hpos', hnew'⟩ := hs'.write
  have hw := hK.writeBlock (b := b) hnew hnew'
  obtain ⟨p, p', hp, hp', hpair⟩ := hw.exists_pair hb
  have hrel := hw.newBlockIndex_rel hp hp' hpair nFile nBlockPos nFile' nBlockPos'
    hashProofOfStake hashProofOfStake'
  unfold NodeState.branchNode
  rw [hwrite, hwrite', Option.bind_some, Option.bind_some]
  cases hn : (s.writeBlock b nFile nBlockPos).newBlockIndex C b nFile nBlockPos
      hashProofOfStake with
  | none =>
    cases hn' : (s'.writeBlock b nFile' nBlockPos').newBlockIndex C b nFile' nBlockPos'
        hashProofOfStake' with
    | none => exact .none
    | some n' =>
      rw [hn, hn'] at hrel
      cases hrel
  | some n =>
    cases hn' : (s'.writeBlock b nFile' nBlockPos').newBlockIndex C b nFile' nBlockPos'
        hashProofOfStake' with
    | none =>
      rw [hn, hn'] at hrel
      cases hrel
    | some n' =>
      rw [hn, hn'] at hrel
      cases hrel with
      | some hcore =>
        obtain ⟨hhash, hnf, hnp⟩ := NodeState.newBlockIndex_eq_some hn
        obtain ⟨hhash', hnf', hnp'⟩ := NodeState.newBlockIndex_eq_some hn'
        obtain ⟨hparent, hheight, -⟩ := NodeState.newBlockIndex_parent hp hn
        have hstored : (s.writeBlock b nFile nBlockPos).blkFiles n.nFile n.nBlockPos = some b := by
          simp [NodeState.writeBlock, hnf, hnp]
        have hstored' : (s'.writeBlock b nFile' nBlockPos').blkFiles n'.nFile n'.nBlockPos =
            some b := by
          simp [NodeState.writeBlock, hnf', hnp']
        have hinsert := hw.insertIndex hb hs.unknown hcore hhash hparent
          (by rw [hheight]; simp only [NodeState.heightOf, hp]; rfl) hstored hstored'
          (hnf ▸ hnp ▸ ⟨hfile, hpos⟩) (hnf' ▸ hnp' ▸ ⟨hfile', hpos'⟩)
        have hbranch := hinsert.withIndex
          (indexOf C (((s.writeBlock b nFile nBlockPos).insertIndex n).pathTxs b.hashPrevBlock))
          (indexOf C (((s'.writeBlock b nFile' nBlockPos').insertIndex n').pathTxs b.hashPrevBlock))
        have hself := StoredAt.new hhash hstored (hnf ▸ hnp ▸ ⟨hfile, hpos⟩)
        have hself' := StoredAt.new hhash' hstored' (hnf' ▸ hnp' ▸ ⟨hfile', hpos'⟩)
        exact .some ⟨hbranch, .inl rfl, hself.withIndex _, hself'.withIndex _, hcore,
          .of_samePlace hs.readBlock hs'.readBlock hs.readTx hs'.readTx
            (indexOf_rel (hbranch.pathTxs_rel (.inr hb)))⟩

/-- Loop variables with the same amounts, which is all the reward rules read. -/
def SameAmounts (t t' : ConnectTotals) : Prop :=
  t.nFees = t'.nFees ∧ t.nValueIn = t'.nValueIn ∧ t.nStakeReward = t'.nStakeReward

namespace BranchRel

variable {r r' : CBlockIndex × NodeState} (h : BranchRel C env env' b K r r')
include h

/-- Corresponding positions are of the same age, and signatures are checked on both sides or on
neither. -/
theorem ctxRel (checkSignatures : Bool) :
    CtxRel (SamePlace C r.2 r'.2 K) ((r.2.connectCtx r.1 true).withSignatures checkSignatures)
      ((r'.2.connectCtx r'.1 true).withSignatures checkSignatures) where
  immature := by
    intro pos pos' hpos
    obtain ⟨-, -, hheight, -⟩ := CBlockIndex.eq_of_core h.core
    simp only [CTransaction.ConnectCtx.withSignatures, NodeState.connectCtx, h.stored.hash_eq,
      h.stored'.hash_eq, ← hheight]
    exact h.shared.immatureFrom_eq hpos hheight _ h.mem
  checkSignatures := rfl

/-- **The loop of `ConnectBlock`** has the same outcome on both nodes. -/
theorem connectTxs_rel (checkSignatures : Bool) :
    Option.Rel (TotalsRel (SamePlace C r.2 r'.2 K) (r.2.sources env) (r'.2.sources env'))
      (connectTxs C (r.2.sources env) ((r.2.connectCtx r.1 true).withSignatures checkSignatures)
        (txPositions r.1.nFile r.1.nBlockPos b) ConnectTotals.init)
      (connectTxs C (r'.2.sources env')
        ((r'.2.connectCtx r'.1 true).withSignatures checkSignatures)
        (txPositions r'.1.nFile r'.1.nBlockPos b) ConnectTotals.init) := by
  have htxs := h.shared.blockTxs_rel h.mem
  rw [NodeState.blockTxs_eq h.stored.entry h.stored.file,
    NodeState.blockTxs_eq h.stored'.entry h.stored'.file] at htxs
  refine MotaCoin.connectTxs_rel h.sources (h.ctxRel checkSignatures) htxs ?_
  refine ⟨?_, rfl, rfl, rfl, rfl, rfl⟩
  rw [QueueRel, ConnectTotals.init, overlay_empty, overlay_empty]
  exact h.sources.readTxIndex

/-- **The coinstake limit** has the same outcome on both nodes. -/
theorem checkStakeReward_eq {t t' : ConnectTotals} (ht : SameAmounts t t') :
    r.2.checkStakeReward C env b r.1 t = r'.2.checkStakeReward C env' b r'.1 t' := by
  have hpp := (CBlockIndex.eq_of_core h.core).2.1
  obtain ⟨hfees, hvalue, hstake⟩ := ht
  unfold NodeState.checkStakeReward
  cases b.vtx with
  | nil => rfl
  | cons coinbase rest =>
    cases rest with
    | nil => rfl
    | cons coinstake rest =>
      simp only [getCoinAge_rel h.sources, hfees, hvalue, hstake, hpp]

end BranchRel

section TwoNodes

variable (hK : SharedBranch C s s' K) (hb : b.hashPrevBlock ∈ K) (hs : Arrives C env s b)
  (hs' : Arrives C env' s' b)
include hK hb hs hs'

theorem branchTotals_rel (checkSignatures : Bool) :
    Option.Rel SameAmounts (s.branchTotals C env b checkSignatures)
      (s'.branchTotals C env' b checkSignatures) := by
  have hnode := branchNode_rel hK hb hs hs' 0 0
  unfold NodeState.branchTotals
  generalize s.branchNode C env b 0 = r at hnode ⊢
  generalize s'.branchNode C env' b 0 = r' at hnode ⊢
  cases hnode with
  | none => exact .none
  | some h =>
    have htxs := h.connectTxs_rel checkSignatures
    simp only [Option.bind_some]
    generalize connectTxs C _ _ _ _ = t at htxs ⊢
    generalize connectTxs C _ _ _ _ = t' at htxs ⊢
    cases htxs with
    | none => exact .none
    | some ht => exact .some ⟨ht.nFees, ht.nValueIn, ht.nStakeReward⟩

theorem branchStakeReward_eq {t t' : ConnectTotals} (ht : SameAmounts t t') :
    s.branchStakeReward C env b t = s'.branchStakeReward C env' b t' := by
  have hnode := branchNode_rel hK hb hs hs' 0 0
  unfold NodeState.branchStakeReward
  generalize s.branchNode C env b 0 = r at hnode ⊢
  generalize s'.branchNode C env' b 0 = r' at hnode ⊢
  cases hnode with
  | none => rfl
  | some h => exact h.checkStakeReward_eq ht

/-- **The rules that read the block and its ancestors** have the same outcome on both nodes. -/
theorem SharedBranch.ancestorRules_eq (htime : env.adjustedTime = env'.adjustedTime) :
    s.ancestorRules C env b = s'.ancestorRules C env' b := by
  obtain ⟨p, p', hp, hp', hpair⟩ := hK.exists_pair hb
  have htotals := branchTotals_rel hK hb hs hs' false
  obtain ⟨-, -, hheight, -⟩ := CBlockIndex.eq_of_core hpair.core
  unfold NodeState.ancestorRules
  rw [hp, hp']
  generalize s.branchTotals C env b false = t at htotals ⊢
  generalize s'.branchTotals C env' b false = t' at htotals ⊢
  cases htotals with
  | none => rfl
  | some ht =>
    simp only [hK.checkHeader_eq b hpair, hheight, htime, branchStakeReward_eq hK hb hs hs' ht]

end TwoNodes

/-! ## The verdict and the rules -/

/-- The verdict of `ConnectBlock` for an indexed block. -/
theorem connectBlock_fst_iff {h : Uint256} {e : CBlockIndex} (he : s.mapBlockIndex h = some e) :
    (s.connectBlock C env b h).1 = true ↔
      b.checkBlock C env.adjustedTime true true false = true ∧
      ∃ t, connectTxs C (s.sources env) (s.connectCtx e true) (txPositions e.nFile e.nBlockPos b)
        ConnectTotals.init = some t ∧ s.checkRewards C env b e t = true := by
  simp only [NodeState.connectBlock, he, NodeState.connectChecks]
  cases b.checkBlock C env.adjustedTime true true false with
  | false => simp
  | true =>
    simp only [Bool.not_true, Bool.false_eq_true, if_false, true_and]
    cases connectTxs C (s.sources env) (s.connectCtx e true) (txPositions e.nFile e.nBlockPos b)
        ConnectTotals.init with
    | none => simp
    | some t =>
      cases hreward : s.checkRewards C env b e t with
      | false => simp [hreward]
      | true => simp [hreward]

/-- The node with itself. -/
theorem SharedBranch.left (hK : SharedBranch C s s' K) : SharedBranch C s s K where
  stored := by
    intro h hh
    obtain ⟨e, _, c, he, -⟩ := hK.stored h hh
    exact ⟨e, e, c, he, he, rfl⟩
  parent := hK.parent

/-- What the loop of `ConnectBlock` leaves with the signatures of the moment checked. -/
theorem branchTotals_signed_iff {t : ConnectTotals} :
    s.branchTotals C env b (!decide (s.nBestHeight < 974427)) = some t ↔
      s.branchTotals C env b false = some t ∧
        (s.nBestHeight < 974427 ∨ (s.branchTotals C env b true).isSome) := by
  have hoff : ∀ {t}, s.branchTotals C env b true = some t →
      s.branchTotals C env b false = some t := by
    intro t ht
    obtain ⟨r, hr, ht⟩ := Option.bind_eq_some_iff.mp ht
    exact Option.bind_eq_some_iff.mpr ⟨r, hr, connectTxs_of_signatures ht⟩
  by_cases hlow : s.nBestHeight < 974427
  · simp [hlow]
  · simp only [hlow, decide_false, Bool.not_false, false_or]
    constructor
    · exact fun ht => ⟨hoff ht, Option.isSome_iff_exists.mpr ⟨t, ht⟩⟩
    · rintro ⟨ht, hsome⟩
      obtain ⟨t', ht'⟩ := Option.isSome_iff_exists.mp hsome
      rwa [← Option.some.inj (ht.symm.trans (hoff ht')) ] at ht'

section OneNode

variable (hK : SharedBranch C s s K) (hb : b.hashPrevBlock ∈ K) (hs : Arrives C env s b)
include hs

/-- Storing a block does not move the tip. -/
theorem Arrives.checkCoinbaseReward_onBranch {hashProofOfStake : Uint256}
    {r : CBlockIndex × NodeState} (hr : s.branchNode C env b hashProofOfStake = some r)
    (nFees : Int) : r.2.checkCoinbaseReward b nFees = s.checkCoinbaseReward b nFees := by
  obtain ⟨p, -, hr⟩ := Option.bind_eq_some_iff.mp hr
  obtain ⟨n, hn, rfl⟩ := Option.map_eq_some_iff.mp hr
  have hhash := (NodeState.newBlockIndex_eq_some hn).1
  have hbest : (s.onBranch C b p.1 p.2 n).best = s.best := by
    unfold NodeState.best
    change s.pindexBest.bind _ = s.pindexBest.bind _
    cases hk : s.pindexBest with
    | none => rfl
    | some k =>
      refine Function.update_of_ne (fun heq => hs.tip ?_) _ _
      rw [hk, heq, hhash]
  simp only [NodeState.checkCoinbaseReward, hbest]

include hK hb

/-- **Connecting on the branch**, in terms of the two groups of rules. -/
theorem connectBlock_onBranch_iff {hashProofOfStake : Uint256} {r : CBlockIndex × NodeState}
    (hr : s.branchNode C env b hashProofOfStake = some r) :
    (r.2.connectBlock C env b r.1.hash).1 = true ↔
      b.checkBlock C env.adjustedTime true true false = true ∧
      ∃ t, s.branchTotals C env b false = some t ∧
        (s.nBestHeight < 974427 ∨ (s.branchTotals C env b true).isSome) ∧
        (b.isProofOfWork = true → s.checkCoinbaseReward b t.nFees = true) ∧
        (b.isProofOfWork = false → s.branchStakeReward C env b t = true) := by
  obtain ⟨r₀, hr₀, h⟩ := (branchNode_rel hK hb hs hs hashProofOfStake 0).exists_right hr
  have hctx : r.2.connectCtx r.1 true =
      (r.2.connectCtx r.1 true).withSignatures (!decide (s.nBestHeight < 974427)) := by
    obtain ⟨p, -, hr⟩ := Option.bind_eq_some_iff.mp hr
    obtain ⟨n, -, rfl⟩ := Option.map_eq_some_iff.mp hr
    rfl
  have hrewards : ∀ {t t₀}, SameAmounts t t₀ → (r.2.checkRewards C env b r.1 t = true ↔
      (b.isProofOfWork = true → s.checkCoinbaseReward b t₀.nFees = true) ∧
      (b.isProofOfWork = false → s.branchStakeReward C env b t₀ = true)) := by
    intro t t₀ ht
    rw [NodeState.branchStakeReward, hr₀, Option.any_some, ← h.checkStakeReward_eq ht,
      ← hs.checkCoinbaseReward_onBranch hr, ← ht.1, NodeState.checkRewards]
    cases b.isProofOfWork with
    | true => simp
    | false => simp
  -- the entry of the verdict and the one with no proof hash connect alike
  have hloop := h.connectTxs_rel (!decide (s.nBestHeight < 974427))
  rw [← hctx] at hloop
  have htotals : s.branchTotals C env b (!decide (s.nBestHeight < 974427)) =
      connectTxs C (r₀.2.sources env)
        ((r₀.2.connectCtx r₀.1 true).withSignatures (!decide (s.nBestHeight < 974427)))
        (txPositions r₀.1.nFile r₀.1.nBlockPos b) ConnectTotals.init := by
    simp only [NodeState.branchTotals, hr₀, Option.bind_some]
  rw [← htotals] at hloop
  rw [h.stored.hash_eq, connectBlock_fst_iff h.stored.entry]
  refine and_congr_right fun _ => ⟨?_, ?_⟩
  · rintro ⟨t, ht, hreward⟩
    obtain ⟨t₀, ht₀, hrel⟩ := hloop.exists_right ht
    obtain ⟨hoff, hsigned⟩ := branchTotals_signed_iff.mp ht₀
    exact ⟨t₀, hoff, hsigned,
      (hrewards ⟨hrel.nFees, hrel.nValueIn, hrel.nStakeReward⟩).mp hreward⟩
  · rintro ⟨t₀, hoff, hsigned, hreward⟩
    obtain ⟨t, ht, hrel⟩ := hloop.exists_left (branchTotals_signed_iff.mpr ⟨hoff, hsigned⟩)
    exact ⟨t, ht, (hrewards ⟨hrel.nFees, hrel.nValueIn, hrel.nStakeReward⟩).mpr hreward⟩

/-- **A block is accepted and connected on its branch if and only if both groups of rules let it
pass.** -/
theorem branchVerdict_eq :
    s.branchVerdict C env b = (s.ancestorRules C env b && s.activeRules C env b) := by
  obtain ⟨p, _, hp, -, -⟩ := hK.exists_pair hb
  rw [Bool.eq_iff_iff, Bool.and_eq_true]
  have hwork : b.isProofOfWork = !b.isProofOfStake := rfl
  constructor
  · intro h
    unfold NodeState.branchVerdict at h
    split at h
    · cases h
    · next proof hproof =>
      have haccept := (acceptChecks_isSome_iff hp).mp (Option.isSome_iff_exists.mpr ⟨proof, hproof⟩)
      obtain ⟨-, hheader, haggregate, hhardened, hkernel, hsync, hcoinbase⟩ := haccept
      split at h
      · cases h
      · next n s₁ hnode =>
        obtain ⟨hcheck, t, ht, hsigned, hpow, hpos⟩ :=
          (connectBlock_onBranch_iff hK hb hs hnode).mp h
        unfold NodeState.ancestorRules NodeState.activeRules
        rw [hp, ht]
        simp only [hheader, hhardened, hcoinbase, hcheck, haggregate, hkernel, Bool.and_eq_true,
          Bool.or_eq_true, Bool.not_eq_true', decide_eq_false_iff_not, decide_eq_true_eq, true_and]
        refine ⟨?_, ⟨?_, hsigned⟩, ?_⟩
        · cases hw : b.isProofOfWork with
          | true => exact .inl rfl
          | false => exact .inr (hpos hw)
        · by_cases hstrict : env.checkpointsMode = .strict
          · exact .inr (hsync hstrict)
          · exact .inl hstrict
        · cases hw : b.isProofOfStake with
          | true => exact .inl rfl
          | false => exact .inr (hpow (by rw [hwork, hw]; rfl))
  · rintro ⟨hancestor, hactive⟩
    unfold NodeState.ancestorRules NodeState.activeRules at *
    rw [hp] at hancestor hactive
    cases ht : s.branchTotals C env b false with
    | none =>
      rw [ht] at hancestor
      cases hancestor
    | some t =>
      rw [ht] at hancestor hactive
      simp only [Bool.and_eq_true, Bool.or_eq_true, Bool.not_eq_true', decide_eq_false_iff_not,
        decide_eq_true_eq] at hancestor hactive
      obtain ⟨⟨⟨⟨hheader, hhardened⟩, hcoinbase⟩, hcheck⟩, hpos⟩ := hancestor
      obtain ⟨⟨⟨⟨haggregate, hkernel⟩, hsync⟩, hsigned⟩, hpow⟩ := hactive
      obtain ⟨proof, hproof⟩ := Option.isSome_iff_exists.mp <| (acceptChecks_isSome_iff hp).mpr
        ⟨hs.unknown, hheader, haggregate, hhardened, hkernel,
          fun hstrict => hsync.resolve_left (fun h => h hstrict), hcoinbase⟩
      obtain ⟨r₀, hr₀, -⟩ := Option.bind_eq_some_iff.mp ht
      obtain ⟨r, hr, -⟩ := (branchNode_rel hK hb hs hs proof 0).exists_left hr₀
      unfold NodeState.branchVerdict
      simp only [hproof, hr]
      refine (connectBlock_onBranch_iff hK hb hs hr).mpr ⟨hcheck, t, ht, hsigned, ?_, ?_⟩
      · intro hw
        refine hpow.resolve_left fun hstake => ?_
        rw [hwork, hstake] at hw
        cases hw
      · intro hw
        refine hpos.resolve_left fun hw' => ?_
        rw [hw] at hw'
        cases hw'

end OneNode

/-! ## The verdict of a call -/

/-- `ConnectBlock` reads the transaction index of the database, not the other records. -/
theorem connectBlock_fst_withTxdb {txdb : CTxDB} (hindex : txdb.txIndex = s.txdb.txIndex)
    (b : CBlock) (h : Uint256) :
    ((s.withTxdb txdb).connectBlock C env b h).1 = (s.connectBlock C env b h).1 := by
  have hread : txdb.readTxIndex = s.txdb.readTxIndex := by
    funext hash
    rw [txdb.readTxIndex_eq, s.txdb.readTxIndex_eq, hindex]
  have hsrc : (s.withTxdb txdb).sources env = s.sources env := by
    simp only [NodeState.sources, NodeState.withTxdb, hread]
    rfl
  have htree := sameTree_withTxdb s txdb
  have htip : SameTip s (s.withTxdb txdb) := ⟨rfl, rfl, rfl, rfl⟩
  have hchecks : ∀ e, (s.withTxdb txdb).connectChecks C env b e = s.connectChecks C env b e := by
    intro e
    simp only [NodeState.connectChecks, hsrc, connectCtx_congr htree htip rfl,
      checkRewards_congr htree htip hindex rfl]
  have hentry : (s.withTxdb txdb).mapBlockIndex h = s.mapBlockIndex h := rfl
  simp only [NodeState.connectBlock, hentry]
  cases s.mapBlockIndex h with
  | none => rfl
  | some e =>
    simp only [hchecks]
    cases s.connectChecks C env b e with
    | none => rfl
    | some t => rfl

/-- On top of the tip, `SetBestChain` returns what `ConnectBlock` does. -/
theorem setBestChain_fst_of_tip (hgenesis : s.pindexGenesisBlock ≠ none)
    (htip : b.hashPrevBlock = s.hashBestChain) (hcommit : env.commitFails (b.getHash C) = false)
    (h : Uint256) : (s.setBestChain C env b h).1 = (s.txnBegin.connectBlock C env b h).1 := by
  have hbranch : s.txnBegin.setBestChainBranches C env b h =
      s.txnBegin.setBestChainInner C env b h := by
    unfold NodeState.setBestChainBranches
    rw [if_neg fun hg => hgenesis hg.1]
    exact if_pos htip
  have hinner : (s.txnBegin.setBestChainInner C env b h).1 =
      (s.txnBegin.connectBlock C env b h).1 := by
    unfold NodeState.setBestChainInner
    cases hc : (s.txnBegin.connectBlock C env b h).1 with
    | false => simp [hc]
    | true => simp [hc, NodeState.commitBest, hcommit]
  unfold NodeState.setBestChain
  rw [hbranch, ← hinner]
  cases hc : (s.txnBegin.setBestChainInner C env b h).1 with
  | false => simp [hc]
  | true => simp [hc]

theorem exists_parent_of_acceptChecks {hashProofOfStake : Uint256}
    (h : s.acceptChecks C env b = some hashProofOfStake) :
    ∃ e, s.mapBlockIndex b.hashPrevBlock = some e := by
  cases hprev : s.mapBlockIndex b.hashPrevBlock with
  | some e => exact ⟨e, rfl⟩
  | none => simp [NodeState.acceptChecks, hprev] at h

/-- A new block with more trust than the tip goes on to `SetBestChain`. -/
theorem addToBlockIndex_of_trust {nFile nBlockPos : Nat} {hashProofOfStake : Uint256}
    {n : CBlockIndex} (hunknown : s.mapBlockIndex (b.getHash C) = none)
    (hn : s.newBlockIndex C b nFile nBlockPos hashProofOfStake = some n)
    (hcommit : env.indexCommitFails = false) (hmore : s.nBestChainTrust < n.nChainTrust) :
    s.addToBlockIndex C env b nFile nBlockPos hashProofOfStake =
      ((s.insertIndex n).withTxdb ((s.txdb.txnBegin.writeBlockIndex
        (CDiskBlockIndex.ofIndex n)).txnCommit true)).setBestChain C env b n.hash := by
  unfold NodeState.addToBlockIndex
  simp only [hunknown, hn, hcommit, Option.isSome_none, Bool.not_false, Bool.false_eq_true, if_false]
  exact if_pos hmore

/-- **On top of the tip, a call of `AcceptBlock` returns the verdict**, when the index is that of the
tip, the block adds trust and commits succeed. -/
theorem acceptBlock_fst_eq_branchVerdict (hT : TreeOK C s) (hs : Arrives C env s b)
    (hgenesis : s.pindexGenesisBlock ≠ none) (htip : b.hashPrevBlock = s.hashBestChain)
    (hindex : s.txdb.committedTxIndex = indexOf C (s.pathTxs b.hashPrevBlock))
    (htrust : s.nBestChainTrust < s.trustOf b.hashPrevBlock + NodeState.getBlockTrust b.nBits)
    (hcommit : env.indexCommitFails = false) (hcommit' : env.commitFails (b.getHash C) = false) :
    (s.acceptBlock C env b).1 = s.branchVerdict C env b := by
  obtain ⟨nFile, nBlockPos, hwrite, -, -, hnew⟩ := hs.write
  unfold NodeState.acceptBlock NodeState.branchVerdict NodeState.branchNode
  cases hproof : s.acceptChecks C env b with
  | none => rfl
  | some proof =>
    simp only [hwrite, Option.bind_some]
    have hadd : ∀ r : Bool × NodeState, (if r.1 = true then
        (true, r.2.acceptPendingSyncCheckpoint C env) else (false, r.2)).1 = r.1 := by
      rintro ⟨ok, s'⟩
      cases ok with
      | false => rfl
      | true => rfl
    rw [hadd]
    have hunknown : (s.writeBlock b nFile nBlockPos).mapBlockIndex (b.getHash C) = none :=
      hs.unknown
    cases hn : (s.writeBlock b nFile nBlockPos).newBlockIndex C b nFile nBlockPos proof with
    | none => simp [NodeState.addToBlockIndex, hunknown, hn]
    | some n =>
      obtain ⟨e, he⟩ := exists_parent_of_acceptChecks hproof
      have he' : (s.writeBlock b nFile nBlockPos).mapBlockIndex b.hashPrevBlock = some e := he
      have hmore : s.nBestChainTrust < n.nChainTrust := by
        rw [(NodeState.newBlockIndex_parent he' hn).2.2]
        simpa [NodeState.trustOf, he] using htrust
      rw [addToBlockIndex_of_trust hunknown hn hcommit hmore]
      refine (setBestChain_fst_of_tip ?_ ?_ hcommit' n.hash).trans ?_
      · exact hgenesis
      · exact htip
      -- both sides connect the block on the index of the tip
      have hpath : ((s.writeBlock b nFile nBlockPos).insertIndex n).pathTxs b.hashPrevBlock =
          s.pathTxs b.hashPrevBlock := by
        rw [← (NodeState.newBlockIndex_eq_some hn).1] at hunknown
        exact ((treeLe_writeBlock hnew b).trans (treeLe_insertIndex hunknown)).pathTxs hT
          (by simp [he])
      refine (connectBlock_fst_withTxdb (s := s.onBranch C b nFile nBlockPos n) ?_ b n.hash)
      change _ = indexOf C (((s.writeBlock b nFile nBlockPos).insertIndex n).pathTxs
        b.hashPrevBlock)
      rw [hpath, ← hindex, ← s.txdb.committedTxIndex_commitRecord (k := .blockindex n.hash)
        (CDiskBlockIndex.ofIndex n) (by simp) true]
      rfl

/-! ## Two verdicts -/

/-- A payment of the coin of an earlier transaction. -/
def spendingTx (hash : Uint256) (nTime : Nat) (nValue : Int) : CTransaction where
  nVersion := 1
  nTime := nTime
  vin := [⟨⟨hash, 0⟩, [], 4294967295⟩]
  vout := [⟨nValue, [1]⟩]
  nLockTime := 0

/-- The oldest block, which stands for the chain before it. -/
def forkRoot : StoredBlock := ⟨plainBlock 0 1 500 [heightCoinbase 701719 500 0], 701719, 1⟩

/-- The last common block, with a payment of a thousand coins. -/
def forkBase : StoredBlock :=
  ⟨plainBlock 1 11 1000 [heightCoinbase 701720 1000 0, paymentTx], 701720, 2⟩

/-- One block on top of it, which spends the payment. -/
def sideBlock : StoredBlock :=
  ⟨plainBlock 2 29 2000 [heightCoinbase 701721 2000 (32 * COIN), spendingTx 3 2000 (999 * COIN)],
    701721, 3⟩

/-- Another block on top of it, which spends nothing. -/
def rivalBlock : StoredBlock :=
  ⟨plainBlock 2 6 2000 [heightCoinbase 701721 2001 (32 * COIN)], 701721, 3⟩

/-- A block on the first one that spends an output made there. -/
def childBlock : CBlock :=
  plainBlock 3 71 3000 [heightCoinbase 701722 3000 (32 * COIN), spendingTx 5 3000 (998 * COIN)]

/-- A block on the first one that spends nothing. -/
def emptyBlock : CBlock := plainBlock 3 9 3000 [heightCoinbase 701722 3000 (31 * COIN)]

/-- The blocks of the fork. -/
def forkBlocks : List CBlock :=
  [forkRoot.block, forkBase.block, sideBlock.block, rivalBlock.block, childBlock, emptyBlock]

/-- Hashes that number these blocks and their transactions from one. -/
noncomputable def forkCrypto : Crypto :=
  labelCrypto (forkBlocks.flatMap CBlock.vtx) (forkBlocks.map CBlock.getBlockHeader)

/-- A node that got the blocks on top of the base in the order of `l`, and whose tip is one of
them. -/
noncomputable def forkNode (l : List StoredBlock) (tip : Uint256) : NodeState :=
  let s := ((storedNode forkCrypto (forkRoot :: forkBase :: l)).modifyIndex 1 fun pindex =>
      { pindex with pprev := none, pnext := some 2, nFlags := 4 }).modifyIndex 2 fun pindex =>
    { pindex with pnext := some tip }
  { s.withIndex (indexOf forkCrypto (s.pathTxs tip)) with
    pindexBest := some tip
    hashBestChain := tip
    nBestHeight := 701721
    nBestChainTrust := 3 }

/-- The node whose tip is the block that spends the payment. -/
noncomputable def sideNode : NodeState := forkNode [sideBlock, rivalBlock] 3

/-- The node whose tip is its rival. -/
noncomputable def rivalNode : NodeState := forkNode [rivalBlock, sideBlock] 4

/-- A clock after these blocks, no failures, and room in a second file. -/
def forkEnv : Env := { tallEnv with writeToDisk := some (2, 8) }

/-- A test for one shared block that can be evaluated. -/
theorem exists_storedAt {h : Uint256}
    (hh : ∃ e ∈ s.mapBlockIndex h, ∃ e' ∈ s'.mapBlockIndex h,
      ∃ c ∈ s.blkFiles e.nFile e.nBlockPos, s'.blkFiles e'.nFile e'.nBlockPos = some c ∧
        c.getHash C = h ∧ e.hash = h ∧ e'.hash = h ∧ e.nFile ≠ 4294967295 ∧ 8 ≤ e.nBlockPos ∧
        e'.nFile ≠ 4294967295 ∧ 8 ≤ e'.nBlockPos ∧ e.core = e'.core) :
    ∃ e e' c, StoredAt C s h e c ∧ StoredAt C s' h e' c ∧ e.core = e'.core := by
  obtain ⟨e, he, e', he', c, hc, hc', hhash, heq, heq', hf, hp, hf', hp', hcore⟩ := hh
  exact ⟨e, e', c, ⟨he, heq, hc, hhash, hf, hp⟩, ⟨he', heq', hc', hhash, hf', hp'⟩, hcore⟩

/-- The two nodes share the blocks up to the one that spends the payment. -/
theorem forkNode_shared : SharedBranch forkCrypto sideNode rivalNode {1, 2, 3} where
  stored := by
    rintro h (rfl | rfl | rfl)
    · exact exists_storedAt (by decide +kernel)
    · exact exists_storedAt (by decide +kernel)
    · exact exists_storedAt (by decide +kernel)
  parent := by
    rintro h (rfl | rfl | rfl) p hp
    · exact absurd hp (by rw [show sideNode.parentOf 1 = none by decide +kernel]; simp)
    · obtain rfl : 1 = p := Option.some.inj
        ((show sideNode.parentOf 2 = some 1 by decide +kernel).symm.trans hp)
      exact ⟨by simp, by decide +kernel⟩
    · obtain rfl : 2 = p := Option.some.inj
        ((show sideNode.parentOf 3 = some 2 by decide +kernel).symm.trans hp)
      exact ⟨by simp, by decide +kernel⟩

theorem nFile_modifyIndex {k : Uint256} {f : CBlockIndex → CBlockIndex}
    (hf : ∀ e, (f e).nFile = e.nFile) (hs : ∀ h e, s.mapBlockIndex h = some e → e.nFile = 1) :
    ∀ h e, (s.modifyIndex k f).mapBlockIndex h = some e → e.nFile = 1 := by
  intro h e he
  unfold NodeState.modifyIndex at he
  by_cases hh : h = k
  · subst hh
    simp only [Function.update_self, Option.map_eq_some_iff] at he
    obtain ⟨e₀, he₀, rfl⟩ := he
    rw [hf]
    exact hs h e₀ he₀
  · simp only [Function.update_of_ne hh] at he
    exact hs h e he

/-- A block that is not among the stored ones arrives at the two nodes. -/
theorem forkNode_arrives {l : List StoredBlock} {tip : Uint256} {b : CBlock}
    (hnone : (forkNode l tip).mapBlockIndex (b.getHash forkCrypto) = none)
    (htip : tip ≠ b.getHash forkCrypto) : Arrives forkCrypto forkEnv (forkNode l tip) b where
  unknown := hnone
  tip := fun h => htip (Option.some.inj h)
  readBlock _ _ := rfl
  readTx _ := rfl
  write := by
    refine ⟨2, 8, rfl, by decide, by decide, fun h e he hpos => ?_⟩
    have hfile : e.nFile = 1 := by
      simp only [forkNode, NodeState.withIndex] at he
      refine nFile_modifyIndex ?_ (nFile_modifyIndex ?_ ?_) h e he
      · exact fun _ => rfl
      · exact fun _ => rfl
      intro h e he
      obtain ⟨i, x, -, -, rfl⟩ := Storable.exists_of_mapBlockIndex he
      rfl
    exact absurd (hfile.symm.trans hpos.1) (by decide)

end MotaCoin
