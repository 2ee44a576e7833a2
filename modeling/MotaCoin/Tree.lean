import MotaCoin.Chain
import MotaCoin.Ledger
import MotaCoin.Lib.Ancestry

/-!
# The block tree

The entries of `mapBlockIndex` form a tree along `pprev`. `TreeOK` says what `AddToBlockIndex`
makes true of it, and what the chain logic never changes: an entry is kept under its own hash, one
above its parent, at a position of the block files that holds the block it was made from.
`SameTree` compares two states by that part of the entries.

## Main definitions

* `NodeState.path`, `NodeState.pathTxs`: the blocks after genesis up to a block, and their
  transactions
* `TreeOK`: the invariant of the block tree
* `TreeLe`, `SameTree`: a tree that has grown, and a tree that has not

## Main results

* `NodeState.readsBack`: the positions of a path hold its transactions
* `walkTo_spec`, `postpone_spec`: the lists `Reorganize` and `SetBestChain` build are segments of
  paths
-/

namespace MotaCoin

open Ancestry (Walk Climb)

namespace NodeState

variable (s : NodeState)

/-- `pprev` of the entry of a hash. -/
def parentOf (hash : Uint256) : Option Uint256 := (s.mapBlockIndex hash).bind CBlockIndex.pprev

/-- `pnext` of the entry of a hash. -/
def nextOf (hash : Uint256) : Option Uint256 := (s.mapBlockIndex hash).bind CBlockIndex.pnext

/-- The blocks after genesis up to `hash`. -/
def path (hash : Uint256) : List Uint256 :=
  Ancestry.pathFrom s.parentOf (s.heightOf hash) hash

/-- The block an entry was made from. -/
def blockOf (hash : Uint256) : Option CBlock :=
  (s.mapBlockIndex hash).bind fun pindex => s.blkFiles pindex.nFile pindex.nBlockPos

/-- The transactions of the block of an entry, with their positions. -/
def blockTxs (hash : Uint256) : List (CTransaction × CDiskTxPos) :=
  match s.mapBlockIndex hash with
  | none => []
  | some pindex =>
    match s.blkFiles pindex.nFile pindex.nBlockPos with
    | none => []
    | some b => txPositions pindex.nFile pindex.nBlockPos b

/-- The transactions of the blocks after genesis up to `hash`. -/
def pathTxs (hash : Uint256) : List (CTransaction × CDiskTxPos) := (s.path hash).flatMap s.blockTxs

variable {s}

theorem blockTxs_eq {h : Uint256} {e : CBlockIndex} {b : CBlock} (he : s.mapBlockIndex h = some e)
    (hb : s.blkFiles e.nFile e.nBlockPos = some b) :
    s.blockTxs h = txPositions e.nFile e.nBlockPos b := by
  simp [NodeState.blockTxs, he, hb]

theorem mem_pathTxs {h : Uint256} {p : CTransaction × CDiskTxPos} (hp : p ∈ s.pathTxs h) :
    ∃ k e b, s.mapBlockIndex k = some e ∧ s.blkFiles e.nFile e.nBlockPos = some b ∧
      p ∈ txPositions e.nFile e.nBlockPos b := by
  obtain ⟨k, -, hk⟩ := List.mem_flatMap.mp hp
  unfold NodeState.blockTxs at hk
  split at hk
  · cases hk
  · next e he =>
    split at hk
    · cases hk
    · next b hb => exact ⟨k, e, b, he, hb, hk⟩

end NodeState

/-! ## Positions in a block -/

theorem lt_of_mem_txOffsets {vtx : List CTransaction} :
    ∀ {nTxPos : Nat} {p : CTransaction × Nat}, p ∈ txOffsets nTxPos vtx → nTxPos ≤ p.2 := by
  induction vtx with
  | nil => simp [txOffsets]
  | cons tx vtx ih =>
    intro nTxPos p hp
    rcases List.mem_cons.mp hp with rfl | hp
    · exact Nat.le_refl _
    · exact Nat.le_trans (Nat.le_add_right _ _) (ih hp)

/-- No two transactions of a block start at the same offset. -/
theorem pairwise_txOffsets (vtx : List CTransaction) :
    ∀ nTxPos : Nat, (txOffsets nTxPos vtx).Pairwise fun p q => p.2 < q.2 := by
  induction vtx with
  | nil => simp [txOffsets]
  | cons tx vtx ih =>
    intro nTxPos
    refine List.pairwise_cons.mpr ⟨fun q hq => ?_, ih _⟩
    have := lt_of_mem_txOffsets hq
    have := tx.getSerializeSize_pos
    simp only
    omega

/-- The transaction read from a position of a block is the one `ConnectBlock` put there. -/
theorem find?_txPositions {nFile nBlockPos : Nat} {b : CBlock} {p : CTransaction × CDiskTxPos}
    (hp : p ∈ txPositions nFile nBlockPos b) :
    (txPositions nFile nBlockPos b).find? (fun q => q.2 == p.2) = some p := by
  have hpair : (txPositions nFile nBlockPos b).Pairwise fun p q => p.2 ≠ q.2 := by
    refine List.pairwise_map.mpr ((pairwise_txOffsets b.vtx _).imp fun {p q} hlt heq => ?_)
    have : p.2 = q.2 := congrArg CDiskTxPos.nTxPos heq
    omega
  generalize txPositions nFile nBlockPos b = l at hp hpair
  induction l with
  | nil => cases hp
  | cons q l ih =>
    obtain ⟨hq, hl⟩ := List.pairwise_cons.mp hpair
    rcases List.mem_cons.mp hp with rfl | hmem
    · simp
    · rw [List.find?_cons_of_neg (by simpa using hq p hmem)]
      exact ih hmem hl

theorem readTx_of_mem_txPositions {s : NodeState} (env : Env) {nFile nBlockPos : Nat} {b : CBlock}
    (hb : s.blkFiles nFile nBlockPos = some b) {p : CTransaction × CDiskTxPos}
    (hp : p ∈ txPositions nFile nBlockPos b) {tx : CTransaction}
    (h : s.readTx env p.2 = some tx) : tx = p.1 := by
  have hfind := find?_txPositions hp
  obtain ⟨q, -, rfl⟩ := List.mem_map.mp hp
  unfold NodeState.readTx at h
  split at h
  · cases h
  · rw [hb, Option.bind_some, hfind] at h
    exact (Option.some.inj h).symm

/-- **The positions of a path hold its transactions.** -/
theorem NodeState.readsBack (s : NodeState) (env : Env) (h : Uint256) :
    ReadsBack (s.readTx env) (s.pathTxs h) := by
  intro p hp tx htx
  obtain ⟨k, e, b, -, hb, hmem⟩ := NodeState.mem_pathTxs hp
  exact readTx_of_mem_txPositions env hb hmem htx

/-! ## The invariant -/

/-- The entries as a tree of parent links. -/
def NodeState.treeOf (s : NodeState)
    (hparent : ∀ {h p : Uint256}, s.parentOf h = some p → s.heightOf h = s.heightOf p + 1) :
    Ancestry.Tree Uint256 := ⟨s.parentOf, s.heightOf, hparent⟩

/-- The part of an entry that is fixed when it is made. -/
def CBlockIndex.skeleton (pindex : CBlockIndex) : CBlockIndex :=
  { pindex with pnext := none, nMint := 0, nMoneySupply := 0 }

/-- The previous entry of each entry is known and one lower. -/
def NodeState.Rises (s : NodeState) : Prop :=
  ∀ h p, s.parentOf h = some p → (s.mapBlockIndex p).isSome ∧ s.heightOf h = s.heightOf p + 1

/-- The entries as a tree, where they rise. -/
def NodeState.Rises.tree {s : NodeState} (hR : s.Rises) : Ancestry.Tree Uint256 :=
  s.treeOf fun hp => (hR _ _ hp).2

/-- **The invariant of the block tree.** No block has the null hash, and transaction ids on a path
are distinct. -/
structure TreeOK (C : Crypto) (s : NodeState) : Prop where
  hash_eq : ∀ {h e}, s.mapBlockIndex h = some e → e.hash = h
  zero : s.mapBlockIndex 0 = none
  parent : ∀ {h e p}, s.mapBlockIndex h = some e → e.pprev = some p →
    ∃ e', s.mapBlockIndex p = some e' ∧ e.nHeight = e'.nHeight + 1
  root : ∀ {h e}, s.mapBlockIndex h = some e → e.pprev = none → s.pindexGenesisBlock = some h
  stored : ∀ {h e}, s.mapBlockIndex h = some e →
    ∃ b, s.blkFiles e.nFile e.nBlockPos = some b ∧ b.getHash C = h ∧
      b.hashPrevBlock = e.pprev.getD 0
  position : ∀ {h e}, s.mapBlockIndex h = some e → e.nFile ≠ 4294967295 ∧ 8 ≤ e.nBlockPos
  distinct : ∀ h, ((s.pathTxs h).map fun p => C.hashTx p.1).Nodup

namespace TreeOK

variable {C : Crypto} {s : NodeState} (hT : TreeOK C s)
include hT

theorem heightOf_of_parentOf {h p : Uint256} (hp : s.parentOf h = some p) :
    s.heightOf h = s.heightOf p + 1 := by
  obtain ⟨e, he, hpe⟩ := Option.bind_eq_some_iff.mp hp
  obtain ⟨e', he', hheight⟩ := hT.parent he hpe
  simpa [NodeState.heightOf, he, he'] using hheight

/-- The block tree of a node as a tree of parent links. -/
def tree : Ancestry.Tree Uint256 := s.treeOf hT.heightOf_of_parentOf

theorem path_of_parent {h p : Uint256} (hp : s.parentOf h = some p) :
    s.path h = s.path p ++ [h] := hT.tree.path_of_parent hp

theorem pathTxs_of_parent {h p : Uint256} (hp : s.parentOf h = some p) :
    s.pathTxs h = s.pathTxs p ++ s.blockTxs h := by
  simp [NodeState.pathTxs, hT.path_of_parent hp]

/-- The hash of the parent is the previous hash of the stored block. -/
theorem parentOf_eq_of_hashPrevBlock {h p : Uint256} {e : CBlockIndex} {b : CBlock}
    (he : s.mapBlockIndex h = some e) (hb : s.blkFiles e.nFile e.nBlockPos = some b)
    (hprev : b.hashPrevBlock = p) (hp : (s.mapBlockIndex p).isSome) : s.parentOf h = some p := by
  obtain ⟨b', hb', -, hprev'⟩ := hT.stored he
  obtain rfl := Option.some.inj (hb.symm.trans hb')
  cases hpe : e.pprev with
  | some q => simpa [NodeState.parentOf, he, hpe, hprev] using hprev'.symm
  | none =>
    have hzero : p = 0 := by simpa [hpe, hprev] using hprev'
    rw [hzero, hT.zero] at hp
    cases hp

/-- The positions of a path are proper. -/
theorem proper {h : Uint256} : ∀ p ∈ s.pathTxs h, p.2.Proper := by
  intro p hp
  obtain ⟨k, e, b, he, -, hmem⟩ := NodeState.mem_pathTxs hp
  obtain ⟨q, -, rfl⟩ := List.mem_map.mp hmem
  obtain ⟨hfile, hpos⟩ := hT.position he
  refine ⟨by simpa [CDiskTxPos.isNull] using hfile, ?_⟩
  intro heq
  have : e.nBlockPos = 1 := congrArg CDiskTxPos.nBlockPos heq
  omega

end TreeOK

/-! ## Comparing trees -/

/-- Every entry of the first state is in the second, with its block. -/
def TreeLe (s s' : NodeState) : Prop :=
  ∀ h e, s.mapBlockIndex h = some e → ∃ e', s'.mapBlockIndex h = some e' ∧
    e'.skeleton = e.skeleton ∧ s'.blkFiles e.nFile e.nBlockPos = s.blkFiles e.nFile e.nBlockPos

/-- The two states have the same block tree. -/
structure SameTree (s s' : NodeState) : Prop where
  skeleton : ∀ h, (s'.mapBlockIndex h).map CBlockIndex.skeleton =
    (s.mapBlockIndex h).map CBlockIndex.skeleton
  blkFiles : s'.blkFiles = s.blkFiles
  pindexGenesisBlock : s'.pindexGenesisBlock = s.pindexGenesisBlock

theorem CBlockIndex.eq_of_skeleton {e e' : CBlockIndex} (h : e'.skeleton = e.skeleton) :
    e'.hash = e.hash ∧ e'.pprev = e.pprev ∧ e'.nFile = e.nFile ∧ e'.nBlockPos = e.nBlockPos ∧
      e'.nHeight = e.nHeight ∧ e'.nChainTrust = e.nChainTrust := by
  simp only [CBlockIndex.skeleton, CBlockIndex.mk.injEq] at h
  tauto

theorem TreeLe.trans {s s' s'' : NodeState} (h : TreeLe s s') (h' : TreeLe s' s'') :
    TreeLe s s'' := by
  intro k e he
  obtain ⟨e', he', hsk, hfile⟩ := h _ _ he
  obtain ⟨e'', he'', hsk', hfile'⟩ := h' _ _ he'
  obtain ⟨-, -, hf, hb, -, -⟩ := CBlockIndex.eq_of_skeleton hsk
  rw [hf, hb] at hfile'
  exact ⟨e'', he'', hsk'.trans hsk, hfile'.trans hfile⟩

namespace TreeLe

variable {C : Crypto} {s s' : NodeState} (h : TreeLe s s') {k : Uint256}
  (hk : (s.mapBlockIndex k).isSome)
include h hk

theorem isSome : (s'.mapBlockIndex k).isSome := by
  obtain ⟨e, he⟩ := Option.isSome_iff_exists.mp hk
  obtain ⟨e', he', -⟩ := h _ _ he
  exact Option.isSome_iff_exists.mpr ⟨e', he'⟩

theorem parentOf : s'.parentOf k = s.parentOf k := by
  obtain ⟨e, he⟩ := Option.isSome_iff_exists.mp hk
  obtain ⟨e', he', hsk, -⟩ := h _ _ he
  simp [NodeState.parentOf, he, he', (CBlockIndex.eq_of_skeleton hsk).2.1]

theorem blockTxs : s'.blockTxs k = s.blockTxs k := by
  obtain ⟨e, he⟩ := Option.isSome_iff_exists.mp hk
  obtain ⟨e', he', hsk, hfile⟩ := h _ _ he
  obtain ⟨-, -, hf, hb, -, -⟩ := CBlockIndex.eq_of_skeleton hsk
  simp [NodeState.blockTxs, he, he', hf, hb, hfile]

end TreeLe

theorem TreeOK.isSome_of_parentOf {C : Crypto} {s : NodeState} (hT : TreeOK C s) {h p : Uint256}
    (hp : s.parentOf h = some p) : (s.mapBlockIndex p).isSome := by
  obtain ⟨e, he, hpe⟩ := Option.bind_eq_some_iff.mp hp
  obtain ⟨e', he', -⟩ := hT.parent he hpe
  exact Option.isSome_iff_exists.mpr ⟨e', he'⟩

theorem TreeOK.rises {C : Crypto} {s : NodeState} (hT : TreeOK C s) : s.Rises :=
  fun _ _ hp => ⟨hT.isSome_of_parentOf hp, hT.heightOf_of_parentOf hp⟩

theorem NodeState.isSome_of_parentOf_eq {s : NodeState} {h p : Uint256}
    (hp : s.parentOf h = some p) : (s.mapBlockIndex h).isSome := by
  obtain ⟨e, he, -⟩ := Option.bind_eq_some_iff.mp hp
  exact Option.isSome_iff_exists.mpr ⟨e, he⟩

/-- Growing the tree leaves the paths that were there alone. -/
theorem TreeLe.path {C : Crypto} {s s' : NodeState} (h : TreeLe s s') (hT : TreeOK C s)
    {k : Uint256} (hk : (s.mapBlockIndex k).isSome) : s'.path k = s.path k := by
  have hheight : s'.heightOf k = s.heightOf k := by
    obtain ⟨e, he⟩ := Option.isSome_iff_exists.mp hk
    obtain ⟨e', he', hsk, -⟩ := h k e he
    simp [NodeState.heightOf, he, he', (CBlockIndex.eq_of_skeleton hsk).2.2.2.2.1]
  unfold NodeState.path
  rw [hheight]
  exact Ancestry.pathFrom_congr (K := fun k => (s.mapBlockIndex k).isSome)
    (fun _ hk => h.parentOf hk) (fun _ _ _ hp => hT.isSome_of_parentOf hp) _ hk

theorem TreeLe.pathTxs {C : Crypto} {s s' : NodeState} (h : TreeLe s s') (hT : TreeOK C s)
    {k : Uint256} (hk : (s.mapBlockIndex k).isSome) : s'.pathTxs k = s.pathTxs k := by
  unfold NodeState.pathTxs
  rw [h.path hT hk]
  refine List.flatMap_congr fun j hj => h.blockTxs ?_
  obtain ⟨p, hp, -⟩ := Ancestry.Tree.exists_parent_of_mem_path (T := hT.tree) hj
  exact NodeState.isSome_of_parentOf_eq hp

namespace SameTree

variable {C : Crypto} {s s' s'' : NodeState}

theorem refl (s : NodeState) : SameTree s s := ⟨fun _ => rfl, rfl, rfl⟩

theorem trans (h : SameTree s s') (h' : SameTree s' s'') : SameTree s s'' :=
  ⟨fun k => (h'.skeleton k).trans (h.skeleton k), h'.blkFiles.trans h.blkFiles,
    h'.pindexGenesisBlock.trans h.pindexGenesisBlock⟩

theorem symm (h : SameTree s s') : SameTree s' s :=
  ⟨fun k => (h.skeleton k).symm, h.blkFiles.symm, h.pindexGenesisBlock.symm⟩

theorem exists_entry (h : SameTree s s') {k : Uint256} {e : CBlockIndex}
    (he : s.mapBlockIndex k = some e) :
    ∃ e', s'.mapBlockIndex k = some e' ∧ e'.skeleton = e.skeleton := by
  have := h.skeleton k
  rw [he, Option.map_some, Option.map_eq_some_iff] at this
  exact this

theorem treeLe (h : SameTree s s') : TreeLe s s' := by
  intro k e he
  obtain ⟨e', he', hsk⟩ := h.exists_entry he
  exact ⟨e', he', hsk, by rw [h.blkFiles]⟩

/-- Reading a fixed part of the entries gives the same in both states. -/
theorem map_eq (h : SameTree s s') {β : Type} (f : CBlockIndex → β)
    (hf : ∀ e, f e.skeleton = f e) (k : Uint256) :
    (s'.mapBlockIndex k).map f = (s.mapBlockIndex k).map f := by
  have hcomp : f = f ∘ CBlockIndex.skeleton := funext fun e => (hf e).symm
  rw [hcomp, ← Option.map_map, ← Option.map_map, h.skeleton]

theorem bind_eq (h : SameTree s s') {β : Type} (f : CBlockIndex → Option β)
    (hf : ∀ e, f e.skeleton = f e) (k : Uint256) :
    (s'.mapBlockIndex k).bind f = (s.mapBlockIndex k).bind f := by
  have hcomp : f = f ∘ CBlockIndex.skeleton := funext fun e => (hf e).symm
  rw [hcomp, ← Option.bind_map, ← Option.bind_map, h.skeleton]

theorem parentOf (h : SameTree s s') : s'.parentOf = s.parentOf :=
  funext (h.bind_eq _ fun _ => rfl)

theorem heightOf (h : SameTree s s') : s'.heightOf = s.heightOf :=
  funext fun k => congrArg (Option.getD · 0) (h.map_eq CBlockIndex.nHeight (fun _ => rfl) k)

theorem trustOf (h : SameTree s s') : s'.trustOf = s.trustOf :=
  funext fun k => congrArg (Option.getD · 0) (h.map_eq CBlockIndex.nChainTrust (fun _ => rfl) k)

theorem path (h : SameTree s s') : s'.path = s.path := by
  funext k
  rw [NodeState.path, NodeState.path, h.parentOf, h.heightOf]

theorem blockOf (h : SameTree s s') : s'.blockOf = s.blockOf := by
  funext k
  rw [NodeState.blockOf, h.blkFiles]
  exact h.bind_eq (fun e => s.blkFiles e.nFile e.nBlockPos) (fun _ => rfl) k

theorem isSome (h : SameTree s s') (k : Uint256) :
    (s'.mapBlockIndex k).isSome = (s.mapBlockIndex k).isSome := by
  simpa using congrArg Option.isSome (h.skeleton k)

theorem blockTxs (h : SameTree s s') : s'.blockTxs = s.blockTxs := by
  funext k
  cases hk : s.mapBlockIndex k with
  | none =>
    have hk' : s'.mapBlockIndex k = none := by
      rw [← Option.not_isSome_iff_eq_none, h.isSome, hk]
      simp
    simp [NodeState.blockTxs, hk, hk']
  | some e => exact h.treeLe.blockTxs (by simp [hk])

theorem pathTxs (h : SameTree s s') : s'.pathTxs = s.pathTxs := by
  funext k
  rw [NodeState.pathTxs, NodeState.pathTxs, h.path, h.blockTxs]

theorem rises (h : SameTree s s') (hR : s.Rises) : s'.Rises := by
  intro k p hp
  rw [h.parentOf] at hp
  rw [h.isSome, h.heightOf]
  exact hR k p hp

/-- The invariant of the tree only reads what `SameTree` compares. -/
theorem treeOK (h : SameTree s s') (hT : TreeOK C s) : TreeOK C s' where
  hash_eq := by
    intro k e' he'
    obtain ⟨e, he, hsk⟩ := h.symm.exists_entry he'
    rw [← (CBlockIndex.eq_of_skeleton hsk).1, hT.hash_eq he]
  zero := by
    rw [← Option.not_isSome_iff_eq_none, h.isSome, hT.zero]
    simp
  parent := by
    intro k e' p he' hp
    obtain ⟨e, he, hsk⟩ := h.symm.exists_entry he'
    obtain ⟨-, hpp, -, -, hh, -⟩ := CBlockIndex.eq_of_skeleton hsk
    obtain ⟨f, hf, hheight⟩ := hT.parent he (hpp.trans hp)
    obtain ⟨f', hf', hskf⟩ := h.exists_entry hf
    have hhf := (CBlockIndex.eq_of_skeleton hskf).2.2.2.2.1
    exact ⟨f', hf', by omega⟩
  root := by
    intro k e' he' hp
    obtain ⟨e, he, hsk⟩ := h.symm.exists_entry he'
    rw [h.pindexGenesisBlock]
    exact hT.root he ((CBlockIndex.eq_of_skeleton hsk).2.1.trans hp)
  stored := by
    intro k e' he'
    obtain ⟨e, he, hsk⟩ := h.symm.exists_entry he'
    obtain ⟨-, hpp, hf, hb, -, -⟩ := CBlockIndex.eq_of_skeleton hsk
    rw [h.blkFiles, ← hf, ← hb, ← hpp]
    exact hT.stored he
  position := by
    intro k e' he'
    obtain ⟨e, he, hsk⟩ := h.symm.exists_entry he'
    obtain ⟨-, -, hf, hb, -, -⟩ := CBlockIndex.eq_of_skeleton hsk
    rw [← hf, ← hb]
    exact hT.position he
  distinct := by
    rw [h.pathTxs]
    exact hT.distinct

end SameTree

theorem sameTree_withTxdb (s : NodeState) (txdb : CTxDB) : SameTree s (s.withTxdb txdb) :=
  ⟨fun _ => rfl, rfl, rfl⟩

/-! ## Segments of paths -/

section Segments

variable {s : NodeState}

theorem walkToFrom_spec {pfork : Uint256} :
    ∀ {fuel : Nat} {pindex : Uint256} {w : List Uint256},
      s.walkToFrom pfork fuel pindex = some w → Walk s.parentOf pindex w pfork := by
  intro fuel
  induction fuel with
  | zero =>
    intro pindex w h
    simp only [NodeState.walkToFrom] at h
    split at h
    · next heq =>
      obtain rfl := Option.some.inj h
      exact heq
    · cases h
  | succ fuel ih =>
    intro pindex w h
    simp only [NodeState.walkToFrom] at h
    split at h
    · next heq =>
      obtain rfl := Option.some.inj h
      exact heq
    · split at h
      · cases h
      · next pprev hp =>
        obtain ⟨w', hw', rfl⟩ := Option.map_eq_some_iff.mp h
        exact ⟨rfl, pprev, hp, ih hw'⟩

/-- The loops of `Reorganize` that collect entries walk along `pprev`. -/
theorem walkTo_spec {pfork pindex : Uint256} {w : List Uint256}
    (h : s.walkTo pfork pindex = some w) : Walk s.parentOf pindex w pfork := walkToFrom_spec h

/-- The fork and the segments are read off the index alone. -/
theorem findFork_txnBegin (t a : Uint256) : s.txnBegin.findFork t a = s.findFork t a := by
  have hfrom : ∀ (fuel : Nat) (t a : Uint256),
      s.txnBegin.findForkFrom fuel t a = s.findForkFrom fuel t a := by
    intro fuel
    induction fuel with
    | zero => exact fun _ _ => rfl
    | succ fuel ih =>
      intro t a
      simp only [NodeState.findForkFrom, ih]
      rfl
  exact hfrom _ t a

theorem walkTo_txnBegin (f a : Uint256) : s.txnBegin.walkTo f a = s.walkTo f a := by
  have hfrom : ∀ (fuel : Nat) (a : Uint256),
      s.txnBegin.walkToFrom f fuel a = s.walkToFrom f fuel a := by
    intro fuel
    induction fuel with
    | zero => exact fun _ => rfl
    | succ fuel ih =>
      intro a
      simp only [NodeState.walkToFrom, ih]
      rfl
  exact hfrom _ a

/-- **The fork is above every common block** of the two paths. -/
theorem findFork_spec
    (hparent : ∀ {h p : Uint256}, s.parentOf h = some p → s.heightOf h = s.heightOf p + 1)
    {t a f : Uint256} (h : s.findFork t a = some f) {k : Uint256} (ht : k ∈ s.path t)
    (ha : k ∈ s.path a) : s.heightOf k ≤ s.heightOf f := by
  have hmem := fun {j p} (hj : s.parentOf j = some p) =>
    Ancestry.Tree.mem_path_of_parent (T := s.treeOf hparent) (k := k) hj
  have hstep : ∀ {j p : Uint256} {e : CBlockIndex}, s.mapBlockIndex j = some e →
      e.pprev = some p → k ∈ s.path j → k ≠ j → k ∈ s.path p := by
    intro j p e he hp hk hne
    have hj : s.parentOf j = some p := by simp [NodeState.parentOf, he, hp]
    exact ((hmem hj).mp hk).resolve_right hne
  have hend := fun {j} (hj : k ∈ s.path j) =>
    Ancestry.Tree.height_le_of_mem_path (T := s.treeOf hparent) hj
  unfold NodeState.findFork at h
  generalize s.heightOf t + s.heightOf a = fuel at h
  -- both sides stay above `k`: a side that steps back is not `k` itself
  induction fuel generalizing t a with
  | zero =>
    simp only [NodeState.findForkFrom] at h
    split at h
    · obtain rfl := Option.some.inj h
      exact (hend ht).1
    · cases h
  | succ fuel ih =>
    simp only [NodeState.findForkFrom] at h
    split at h
    · obtain rfl := Option.some.inj h
      exact (hend ht).1
    · next hne =>
      split at h
      · next et ea het hea =>
        have hheight : s.heightOf t = et.nHeight ∧ s.heightOf a = ea.nHeight := by
          simp [NodeState.heightOf, het, hea]
        have hkt := hend ht
        have hka := hend ha
        simp only [show (s.treeOf hparent).height = s.heightOf from rfl] at hkt hka
        split at h
        · next hlt =>
          split at h
          · cases h
          · next p hp =>
            refine ih ht (hstep hea hp ha ?_) h
            rintro rfl
            omega
        · next hle =>
          split at h
          · cases h
          · next p hp =>
            refine ih (hstep het hp ht ?_) ha h
            rintro rfl
            exact hne (hka.2 (by omega))
      · cases h

theorem postponeFrom_spec {nBestTrust : Uint256} {pindexNew : Uint256} :
    ∀ {fuel : Nat} {pindex : Uint256} {acc : List Uint256},
      Climb s.parentOf pindex acc pindexNew →
      Climb s.parentOf (s.postponeFrom nBestTrust fuel pindex acc).1
        (s.postponeFrom nBestTrust fuel pindex acc).2 pindexNew := by
  intro fuel
  induction fuel with
  | zero => exact fun h => h
  | succ fuel ih =>
    intro pindex acc h
    simp only [NodeState.postponeFrom]
    split
    · exact h
    · next pprev hp =>
      split
      · exact ih ⟨hp, h⟩
      · exact h

/-- The postponed blocks lead from the intermediate block to the new one. -/
theorem postpone_spec (pindexBest pindexNew : Uint256) :
    Climb s.parentOf (s.postpone pindexBest pindexNew).1 (s.postpone pindexBest pindexNew).2
      pindexNew :=
  postponeFrom_spec rfl

/-- Which blocks are postponed only depends on the tree. -/
theorem postpone_congr {s' : NodeState} (htree : SameTree s s') (pindexBest pindexNew : Uint256) :
    s'.postpone pindexBest pindexNew = s.postpone pindexBest pindexNew := by
  have hfrom : ∀ (nBestTrust : Uint256) (fuel : Nat) (pindex : Uint256) (acc : List Uint256),
      s'.postponeFrom nBestTrust fuel pindex acc = s.postponeFrom nBestTrust fuel pindex acc := by
    intro nBestTrust fuel
    induction fuel with
    | zero => exact fun _ _ => rfl
    | succ fuel ih =>
      intro pindex acc
      have hparent : (s'.mapBlockIndex pindex).bind CBlockIndex.pprev =
          (s.mapBlockIndex pindex).bind CBlockIndex.pprev := congrFun htree.parentOf pindex
      simp only [NodeState.postponeFrom, hparent, htree.trustOf, ih]
  simp only [NodeState.postpone, htree.trustOf, htree.heightOf, hfrom]

end Segments

end MotaCoin
