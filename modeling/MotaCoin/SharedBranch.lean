import MotaCoin.Relocation

/-!
# Two nodes that share a branch

Two nodes have the blocks of a branch in common: each may have other blocks beside them, keep them
at other places of its files, and have another chain active. This module shows what the two nodes
still agree on: every rule of `AcceptBlock` that walks back along `pprev`, whether a stake modifier
can be computed, and the index of the branch up to the positions.

An entry also records what the active chain showed when the block arrived: the proof hash comes from
`CheckProofOfStake`, and the stake modifiers are made of proof hashes. The two nodes need not agree
on these.

## Main definitions

* `CBlockIndex.core`: the part of an entry that comes from the block and its ancestors
* `SharedBranch C s s' K`: the two nodes share the blocks `K`
* `SamePlace`: positions of one transaction of a shared block

## Main results

* `SharedBranch.checkHeader_eq`: the header rules have the same outcome
* `SharedBranch.computeNextStakeModifier_rel`: so has the computation of the stake modifier
* `SharedBranch.pathTxs_rel`: the branch has the same transactions, at corresponding positions
-/

namespace MotaCoin

/-- The part of an entry that comes from the block and its ancestors. Left out are its place in the
files, the link up the active chain, the minted amounts, the proof hash and the stake modifiers. -/
def CBlockIndex.core (pindex : CBlockIndex) : CBlockIndex :=
  { pindex with
    pnext := none
    nFile := 0
    nBlockPos := 0
    nMint := 0
    nMoneySupply := 0
    nStakeModifier := 0
    nStakeModifierChecksum := 0
    hashProofOfStake := 0 }

theorem CBlockIndex.eq_of_core {e e' : CBlockIndex} (h : e.core = e'.core) :
    e.hash = e'.hash ∧ e.pprev = e'.pprev ∧ e.nHeight = e'.nHeight ∧ e.nFlags = e'.nFlags ∧
      e.nTime = e'.nTime ∧ e.nBits = e'.nBits := by
  simp only [CBlockIndex.core, CBlockIndex.mk.injEq] at h
  tauto

/-- The entry of `h` and the block stored for it. -/
structure StoredAt (C : Crypto) (s : NodeState) (h : Uint256) (e : CBlockIndex) (b : CBlock) :
    Prop where
  entry : s.mapBlockIndex h = some e
  hash_eq : e.hash = h
  file : s.blkFiles e.nFile e.nBlockPos = some b
  getHash : b.getHash C = h
  position : e.nFile ≠ 4294967295 ∧ 8 ≤ e.nBlockPos

/-- **The two nodes share the blocks `K`**, with the parent of each of them. -/
structure SharedBranch (C : Crypto) (s s' : NodeState) (K : Set Uint256) : Prop where
  stored : ∀ h ∈ K, ∃ e e' b, StoredAt C s h e b ∧ StoredAt C s' h e' b ∧ e.core = e'.core
  parent : ∀ h ∈ K, ∀ p, s.parentOf h = some p → p ∈ K ∧ s.heightOf h = s.heightOf p + 1

namespace SharedBranch

variable {C : Crypto} {s s' : NodeState} {K : Set Uint256}

theorem symm (hK : SharedBranch C s s' K) : SharedBranch C s' s K where
  stored := by
    intro h hh
    obtain ⟨e, e', b, he, he', hcore⟩ := hK.stored h hh
    exact ⟨e', e, b, he', he, hcore.symm⟩
  parent := by
    have hheight : ∀ h ∈ K, s'.heightOf h = s.heightOf h := by
      intro h hh
      obtain ⟨e, e', b, he, he', hcore⟩ := hK.stored h hh
      simp [NodeState.heightOf, he.entry, he'.entry, (CBlockIndex.eq_of_core hcore).2.2.1]
    intro h hh p hp
    obtain ⟨e, e', b, he, he', hcore⟩ := hK.stored h hh
    have hp : s.parentOf h = some p := by
      rw [← hp]
      simp [NodeState.parentOf, he.entry, he'.entry, (CBlockIndex.eq_of_core hcore).2.1]
    obtain ⟨hpK, hstep⟩ := hK.parent h hh p hp
    exact ⟨hpK, by rw [hheight h hh, hheight p hpK, hstep]⟩

/-- The entries of one shared block. -/
structure Pair (K : Set Uint256) (s s' : NodeState) (e e' : CBlockIndex) : Prop where
  mem : e.hash ∈ K
  left : s.mapBlockIndex e.hash = some e
  right : s'.mapBlockIndex e.hash = some e'
  core : e.core = e'.core

section Walks

variable (hK : SharedBranch C s s' K)
include hK

theorem exists_pair {h : Uint256} (hh : h ∈ K) :
    ∃ e e', s.mapBlockIndex h = some e ∧ s'.mapBlockIndex h = some e' ∧ Pair K s s' e e' := by
  obtain ⟨e, e', b, he, he', hcore⟩ := hK.stored h hh
  refine ⟨e, e', he.entry, he'.entry, ⟨?_, ?_, ?_, hcore⟩⟩
  · rwa [he.hash_eq]
  · rw [he.hash_eq]
    exact he.entry
  · rw [he.hash_eq]
    exact he'.entry

/-- Both nodes go back to the same parent, one block lower, or stop. -/
theorem prev_rel {e e' : CBlockIndex} (h : Pair K s s' e e') :
    Option.Rel (fun p p' => Pair K s s' p p' ∧ e.nHeight = p.nHeight + 1) (s.prev e)
      (s'.prev e') := by
  unfold NodeState.prev
  rw [← (CBlockIndex.eq_of_core h.core).2.1]
  cases hp : e.pprev with
  | none => exact .none
  | some p =>
    have hparent : s.parentOf e.hash = some p := by simp [NodeState.parentOf, h.left, hp]
    obtain ⟨hpK, hstep⟩ := hK.parent e.hash h.mem p hparent
    obtain ⟨f, f', hf, hf', hpair⟩ := hK.exists_pair hpK
    simp only [Option.bind_some, hf, hf']
    refine .some ⟨hpair, ?_⟩
    simpa [NodeState.heightOf, h.left, hf] using hstep

/-! ## Targets and times -/

theorem getLastBlockIndexFrom_pair (fProofOfStake : Bool) (fuel : Nat) :
    ∀ {e e' : CBlockIndex}, Pair K s s' e e' →
      Pair K s s' (s.getLastBlockIndexFrom fProofOfStake fuel e)
        (s'.getLastBlockIndexFrom fProofOfStake fuel e') := by
  induction fuel with
  | zero => exact fun h => h
  | succ fuel ih =>
    intro e e' h
    have hprev := hK.prev_rel h
    have hflags : e'.isProofOfStake = e.isProofOfStake := by
      simp only [CBlockIndex.isProofOfStake, (CBlockIndex.eq_of_core h.core).2.2.2.1]
    simp only [NodeState.getLastBlockIndexFrom, hflags]
    generalize s.prev e = r at hprev ⊢
    generalize s'.prev e' = r' at hprev ⊢
    cases hprev with
    | none => exact h
    | some hp =>
      simp only
      split
      · exact ih hp.1
      · exact h

theorem getLastBlockIndex_pair (fProofOfStake : Bool) {e e' : CBlockIndex}
    (h : Pair K s s' e e') :
    Pair K s s' (s.getLastBlockIndex e fProofOfStake) (s'.getLastBlockIndex e' fProofOfStake) := by
  unfold NodeState.getLastBlockIndex
  rw [← (CBlockIndex.eq_of_core h.core).2.2.1]
  exact hK.getLastBlockIndexFrom_pair fProofOfStake e.nHeight h

theorem getNextTargetRequired_eq (fProofOfStake : Bool) {e e' : CBlockIndex}
    (h : Pair K s s' e e') :
    s.getNextTargetRequired e fProofOfStake = s'.getNextTargetRequired e' fProofOfStake := by
  have hlast := hK.getLastBlockIndex_pair fProofOfStake h
  have hprev := hK.prev_rel hlast
  simp only [NodeState.getNextTargetRequired]
  generalize s.prev (s.getLastBlockIndex e fProofOfStake) = r at hprev ⊢
  generalize s'.prev (s'.getLastBlockIndex e' fProofOfStake) = r' at hprev ⊢
  cases hprev with
  | none => rfl
  | @some p p' hp =>
    have hlast' := hK.getLastBlockIndex_pair fProofOfStake hp.1
    have hprev' := hK.prev_rel hlast'
    simp only
    generalize s.prev (s.getLastBlockIndex p fProofOfStake) = q at hprev' ⊢
    generalize s'.prev (s'.getLastBlockIndex p' fProofOfStake) = q' at hprev' ⊢
    cases hprev' with
    | none => rfl
    | some _ =>
      obtain ⟨-, -, -, -, htime, hbits⟩ := CBlockIndex.eq_of_core hlast.core
      obtain ⟨-, -, -, -, htime', -⟩ := CBlockIndex.eq_of_core hlast'.core
      unfold NodeState.retarget CBlockIndex.getBlockTime
      rw [htime, hbits, htime']

theorem pastTimes_eq (n : Nat) :
    ∀ {e e' : CBlockIndex}, Pair K s s' e e' → s.pastTimes n e = s'.pastTimes n e' := by
  induction n with
  | zero => exact fun _ => rfl
  | succ n ih =>
    intro e e' h
    have hprev := hK.prev_rel h
    simp only [NodeState.pastTimes, CBlockIndex.getBlockTime,
      (CBlockIndex.eq_of_core h.core).2.2.2.2.1]
    generalize s.prev e = r at hprev ⊢
    generalize s'.prev e' = r' at hprev ⊢
    cases hprev with
    | none => rfl
    | some hp => simp only [ih hp.1]

/-- **The header rules** have the same outcome on both nodes. -/
theorem checkHeader_eq (b : CBlock) {e e' : CBlockIndex} (h : Pair K s s' e e') :
    s.checkHeader b e = s'.checkHeader b e' := by
  obtain ⟨-, -, hheight, -, htime, -⟩ := CBlockIndex.eq_of_core h.core
  have hmedian : s.getMedianTimePast e = s'.getMedianTimePast e' := by
    unfold NodeState.getMedianTimePast
    rw [hK.pastTimes_eq 11 h]
  unfold NodeState.checkHeader CBlockIndex.getBlockTime
  rw [hheight, htime, hmedian, hK.getNextTargetRequired_eq _ h]

/-! ## The branch -/

theorem path_eq (n : Nat) {h : Uint256} (hh : h ∈ K) :
    Ancestry.pathFrom s'.parentOf n h = Ancestry.pathFrom s.parentOf n h := by
  refine Ancestry.pathFrom_congr (K := (· ∈ K)) (fun k hk => ?_)
    (fun k p hk hp => (hK.parent k hk p hp).1) n hh
  obtain ⟨e, e', he, he', hpair⟩ := hK.exists_pair hk
  simp [NodeState.parentOf, he, he', (CBlockIndex.eq_of_core hpair.core).2.1]

theorem mem_of_mem_path (n : Nat) {h k : Uint256} (hh : h ∈ K)
    (hk : k ∈ Ancestry.pathFrom s.parentOf n h) : k ∈ K :=
  Ancestry.mem_of_mem_pathFrom (K := (· ∈ K)) (fun k p hk hp => (hK.parent k hk p hp).1) n hh hk

end Walks

end SharedBranch

/-! ## Positions -/

theorem txOffsets_add (nTxPos n : Nat) (vtx : List CTransaction) :
    txOffsets (nTxPos + n) vtx = (txOffsets n vtx).map fun p => (p.1, nTxPos + p.2) := by
  induction vtx generalizing n with
  | nil => rfl
  | cons tx vtx ih => simp only [txOffsets, add_assoc, ih, List.map_cons]

/-- The transactions of a block start at the same offsets wherever the block is. -/
theorem txPositions_eq (nFile nBlockPos : Nat) (b : CBlock) :
    txPositions nFile nBlockPos b = (txOffsets (firstTxPos 0 b) b.vtx).map fun p =>
      (p.1, ⟨nFile, nBlockPos, nBlockPos + p.2⟩) := by
  have hfirst : firstTxPos nBlockPos b = nBlockPos + firstTxPos 0 b := by
    simp only [firstTxPos, getSizeOfCompactSize]
    omega
  unfold txPositions
  rw [hfirst, txOffsets_add, List.map_map]
  rfl

/-- **The positions of one transaction** of a shared block. -/
def SamePlace (C : Crypto) (s s' : NodeState) (K : Set Uint256) (pos pos' : CDiskTxPos) : Prop :=
  ∃ h ∈ K, ∃ e e' b n, StoredAt C s h e b ∧ StoredAt C s' h e' b ∧
    pos = ⟨e.nFile, e.nBlockPos, e.nBlockPos + n⟩ ∧
    pos' = ⟨e'.nFile, e'.nBlockPos, e'.nBlockPos + n⟩

variable {C : Crypto} {s s' : NodeState} {K : Set Uint256}

theorem StoredAt.proper {h : Uint256} {e : CBlockIndex} {b : CBlock} (he : StoredAt C s h e b)
    (n : Nat) : CDiskTxPos.Proper ⟨e.nFile, e.nBlockPos, n⟩ := by
  obtain ⟨hfile, hpos⟩ := he.position
  refine ⟨by simpa [CDiskTxPos.isNull] using hfile, fun heq => ?_⟩
  have : e.nBlockPos = 1 := congrArg CDiskTxPos.nBlockPos heq
  omega

/-- Reading a transaction of a stored block. -/
theorem StoredAt.readTx {h : Uint256} {e : CBlockIndex} {b : CBlock} (he : StoredAt C s h e b)
    {env : Env} (henv : ∀ pos, env.txUnreadable pos = false) (n : Nat) :
    s.readTx env ⟨e.nFile, e.nBlockPos, e.nBlockPos + n⟩ =
      ((txOffsets (firstTxPos 0 b) b.vtx).find? fun p => p.2 == n).map Prod.fst := by
  simp only [NodeState.readTx, henv, Bool.false_eq_true, if_false, he.file, Option.bind_some,
    txPositions_eq, List.find?_map, Option.map_map]
  have hfind : ((fun p : CTransaction × CDiskTxPos =>
        p.2 == ⟨e.nFile, e.nBlockPos, e.nBlockPos + n⟩) ∘ fun p : CTransaction × Nat =>
          (p.1, ⟨e.nFile, e.nBlockPos, e.nBlockPos + p.2⟩)) = fun p => p.2 == n := by
    funext p
    simp only [Function.comp_apply, beq_eq_beq, CDiskTxPos.mk.injEq, true_and, Nat.add_left_cancel_iff]
  rw [hfind]
  rfl

/-- Two blocks stored at one position are the same block. -/
theorem StoredAt.eq_of_position {h k : Uint256} {e f : CBlockIndex} {b c : CBlock}
    (he : StoredAt C s h e b) (hf : StoredAt C s k f c) (hfile : f.nFile = e.nFile)
    (hpos : f.nBlockPos = e.nBlockPos) : k = h := by
  have hb := he.file
  rw [← hfile, ← hpos, hf.file] at hb
  rw [← he.getHash, ← hf.getHash, Option.some.inj hb]

namespace SharedBranch

variable (hK : SharedBranch C s s' K)
include hK

/-- The transactions of a shared block are at corresponding positions. -/
theorem blockTxs_rel {h : Uint256} (hh : h ∈ K) :
    List.Forall₂ (PlacedRel (SamePlace C s s' K)) (s.blockTxs h) (s'.blockTxs h) := by
  obtain ⟨e, e', b, he, he', -⟩ := hK.stored h hh
  rw [NodeState.blockTxs_eq he.entry he.file, NodeState.blockTxs_eq he'.entry he'.file,
    txPositions_eq, txPositions_eq]
  refine List.forall₂_map_left_iff.mpr <| List.forall₂_map_right_iff.mpr <|
    List.forall₂_same.mpr fun p _ => ⟨rfl, h, hh, e, e', b, p.2, he, he', rfl, rfl⟩

/-- **The branch has the same transactions**, at corresponding positions. -/
theorem pathTxs_rel {h : Uint256} (hh : h ∈ K) :
    List.Forall₂ (PlacedRel (SamePlace C s s' K)) (s.pathTxs h) (s'.pathTxs h) := by
  obtain ⟨e, e', he, he', hpair⟩ := hK.exists_pair hh
  have hheight : s'.heightOf h = s.heightOf h := by
    simp [NodeState.heightOf, he, he', (CBlockIndex.eq_of_core hpair.core).2.2.1]
  have hmem : ∀ k ∈ Ancestry.pathFrom s.parentOf (s.heightOf h) h, k ∈ K := fun k hk =>
    hK.mem_of_mem_path (s.heightOf h) hh hk
  unfold NodeState.pathTxs NodeState.path
  rw [hheight, hK.path_eq (s.heightOf h) hh]
  generalize Ancestry.pathFrom s.parentOf (s.heightOf h) h = path at hmem
  induction path with
  | nil => exact .nil
  | cons k path ih =>
    rw [List.flatMap_cons, List.flatMap_cons]
    exact List.rel_append (hK.blockTxs_rel (hmem k List.mem_cons_self))
      (ih fun j hj => hmem j (List.mem_cons_of_mem _ hj))

/-- Whether a position lies in the last blocks before `h`. -/
theorem immatureFrom_eq {pos pos' : CDiskTxPos} (hpos : SamePlace C s s' K pos pos')
    {pindexBlock pindexBlock' : CBlockIndex} (hheight : pindexBlock.nHeight = pindexBlock'.nHeight)
    (fuel : Nat) :
    ∀ {h : Uint256}, h ∈ K →
      s.immatureFrom pindexBlock pos.nFile pos.nBlockPos fuel (some h) =
        s'.immatureFrom pindexBlock' pos'.nFile pos'.nBlockPos fuel (some h) := by
  obtain ⟨k, hk, f, f', c, n, hf, hf', rfl, rfl⟩ := hpos
  induction fuel with
  | zero => exact fun _ => rfl
  | succ fuel ih =>
    intro h hh
    obtain ⟨e, e', b, he, he', hcore⟩ := hK.stored h hh
    obtain ⟨-, hpp, hheight', -⟩ := CBlockIndex.eq_of_core hcore
    have hsame : (e.nBlockPos == f.nBlockPos && e.nFile == f.nFile) =
        (e'.nBlockPos == f'.nBlockPos && e'.nFile == f'.nFile) := by
      -- the entries of a position belong to one block, so both sides ask for `h = k`
      rw [Bool.eq_iff_iff]
      simp only [Bool.and_eq_true, beq_iff_eq]
      constructor
      · rintro ⟨hpos, hfile⟩
        obtain rfl := hf.eq_of_position he hfile hpos
        obtain rfl := Option.some.inj (he'.entry.symm.trans hf'.entry)
        exact ⟨rfl, rfl⟩
      · rintro ⟨hpos, hfile⟩
        obtain rfl := hf'.eq_of_position he' hfile hpos
        obtain rfl := Option.some.inj (he.entry.symm.trans hf.entry)
        exact ⟨rfl, rfl⟩
    simp only [NodeState.immatureFrom, he.entry, he'.entry, hheight, hheight', hsame, ← hpp]
    cases hp : e.pprev with
    | none =>
      cases fuel with
      | zero => rfl
      | succ fuel => rfl
    | some p =>
      have hparent : s.parentOf h = some p := by simp [NodeState.parentOf, he.entry, hp]
      rw [ih (hK.parent h hh p hparent).1]

end SharedBranch

end MotaCoin
