import MotaCoin.BlockTree
import MotaCoin.LoadIndex
import MotaCoin.Serialize

/-!
# Synchronized checkpoints

A signed `checkpoint` message names a block that every node has to keep. The node holds the last one
in `hashSyncCheckpoint`; a message for a block that has not come in waits in
`hashPendingCheckpoint` and is tried again after every accepted block. Whether one block descends
from the other is decided by walking back from the higher one.

## Main definitions

* `NodeState.Descends`, `NodeState.Divergent`: how two blocks of the tree lie to each other
* `NodeState.validateSyncCheckpointInvalid`: `ValidateSyncCheckpoint` with `hashInvalidCheckpoint`
* `CheckpointState.processSyncCheckpoint`, `CheckpointState.resetSyncCheckpoint`
* `NodeState.SyncOK`: the tree is well formed and the checkpoint is in it
* `CheckpointStep`, `CheckpointRun`: checkpoint messages and blocks in any order

## Main results

* `SyncOK.traceBack`: the walk back ends at the ancestor of the wanted height
* `SyncOK.validateSyncCheckpointInvalid_iff`: what `ValidateSyncCheckpoint` decides
* `SyncOK.checkSync_imp`: what passes `CheckSync`
* `checkpointRun_safe`: the checkpoint along every run
-/

namespace MotaCoin

variable (C : Crypto)

namespace NodeState

/-! ## The relation of two blocks -/

/-- The block `b` is a strict descendant of the block `a`. -/
def Descends (s : NodeState) (a b : Uint256) : Prop := Ancestry.Below s.parentOf a b

/-- The two blocks are known, and neither is the other or descends from it. -/
def Divergent (s : NodeState) (a b : Uint256) : Prop :=
  (s.mapBlockIndex a).isSome ∧ (s.mapBlockIndex b).isSome ∧ a ≠ b ∧ ¬ s.Descends a b ∧
    ¬ s.Descends b a

/-! ## The functions -/

/-- `Checkpoints::ValidateSyncCheckpoint`: its answer, and what it sets `hashInvalidCheckpoint`
to. -/
def validateSyncCheckpointInvalid (s : NodeState) (hashCheckpoint : Uint256) :
    Bool × Option Uint256 :=
  match s.mapBlockIndex s.hashSyncCheckpoint, s.mapBlockIndex hashCheckpoint with
  | some pindexSyncCheckpoint, some pindexCheckpointRecv =>
    if pindexCheckpointRecv.nHeight ≤ pindexSyncCheckpoint.nHeight then
      -- an older checkpoint: trace back from the current one
      match s.traceBack pindexCheckpointRecv.nHeight pindexSyncCheckpoint.nHeight
          pindexSyncCheckpoint with
      | none => (false, none)
      | some pindex => (false, if pindex.hash ≠ hashCheckpoint then some hashCheckpoint else none)
    else
      match s.traceBack pindexSyncCheckpoint.nHeight pindexCheckpointRecv.nHeight
          pindexCheckpointRecv with
      | none => (false, none)
      | some pindex =>
        if pindex.hash ≠ s.hashSyncCheckpoint then (false, some hashCheckpoint) else (true, none)
  | _, _ => (false, none)

theorem validateSyncCheckpointInvalid_fst (s : NodeState) (hashCheckpoint : Uint256) :
    (s.validateSyncCheckpointInvalid hashCheckpoint).1 =
      s.validateSyncCheckpoint hashCheckpoint := by
  unfold validateSyncCheckpointInvalid validateSyncCheckpoint
  rcases s.mapBlockIndex s.hashSyncCheckpoint with _ | sync
  · rfl
  · rcases s.mapBlockIndex hashCheckpoint with _ | recv
    · rfl
    · simp only
      split
      · next hle =>
        rw [decide_eq_false (by omega), Bool.false_and]
        split <;> rfl
      · next hlt =>
        rw [decide_eq_true (by omega), Bool.true_and]
        rcases s.traceBack sync.nHeight recv.nHeight recv with _ | pindex
        · rfl
        · by_cases heq : pindex.hash = s.hashSyncCheckpoint <;> simp [heq]

/-- `Checkpoints::CheckSync` with its first line: the test network has no checkpoints. -/
def checkSyncOn (fTestNet : Bool) (s : NodeState) (hashBlock : Uint256)
    (pindexPrev : CBlockIndex) : Bool :=
  fTestNet || s.checkSync hashBlock pindexPrev

end NodeState

/-- A `checkpoint` message. -/
structure CSyncCheckpoint where
  vchMsg : List UInt8
  vchSig : List UInt8

/-- `CUnsignedSyncCheckpoint`: its version and `hashCheckpoint`. -/
def CSyncCheckpoint.unserialize : Wire.Reader (Int × Uint256) := do
  let nVersion ← Wire.readInt 4
  let hashCheckpoint ← Wire.readLE 32
  pure (nVersion, hashCheckpoint)

/-- A node with its orphan blocks, and `Checkpoints::hashInvalidCheckpoint`. -/
structure CheckpointState where
  state : BlockState
  hashInvalidCheckpoint : Uint256

namespace CheckpointState

variable (verify : List UInt8 → List UInt8 → Bool) (env : Env)

/-- The node of the state. -/
abbrev node (s : CheckpointState) : NodeState := s.state.node

/-- The state with another node. -/
def withNode (s : CheckpointState) (node : NodeState) : CheckpointState :=
  { s with state := { s.state with node := node } }

/-- The state after an assignment to `hashInvalidCheckpoint`. -/
def setInvalid (s : CheckpointState) (hash : Option Uint256) : CheckpointState :=
  { s with hashInvalidCheckpoint := hash.getD s.hashInvalidCheckpoint }

@[simp] theorem withNode_node (s : CheckpointState) (n : NodeState) : (s.withNode n).node = n := rfl

@[simp] theorem setInvalid_state (s : CheckpointState) (hash : Option Uint256) :
    (s.setInvalid hash).state = s.state := rfl

/-- `CSyncCheckpoint::CheckSignature`: `hashCheckpoint` of a signed message. The master key and its
signatures are `verify`; a message that does not unserialize throws. -/
def checkSignature (msg : CSyncCheckpoint) : Option Uint256 :=
  if verify msg.vchMsg msg.vchSig then
    (CSyncCheckpoint.unserialize.run msg.vchMsg).map fun r => r.1.2
  else none

/-- The end of `ProcessSyncCheckpoint`, for a valid checkpoint. -/
def enforceSyncCheckpoint (s : CheckpointState) (hashCheckpoint : Uint256) :
    Bool × CheckpointState :=
  if s.node.isInMainChain hashCheckpoint then
    (!env.indexCommitFails, s.withNode (s.node.writeSyncCheckpoint env hashCheckpoint))
  else
    match s.node.readFromDisk C env hashCheckpoint with
    | none => (false, s)
    | some b =>
      let r := s.node.setBestChain C env b hashCheckpoint
      if r.1 then
        (!env.indexCommitFails, s.withNode (r.2.writeSyncCheckpoint env hashCheckpoint))
      else (false, (s.withNode r.2).setInvalid (some hashCheckpoint))

/-- **`CSyncCheckpoint::ProcessSyncCheckpoint`**: whether the checkpoint was taken, and the state;
`none` when the node stops, on a null entry of `mapBlockIndex`. -/
def processSyncCheckpoint (s : CheckpointState) (msg : CSyncCheckpoint) :
    Option (Bool × CheckpointState) :=
  match checkSignature verify msg with
  | none => some (false, s)
  | some hashCheckpoint =>
    if !s.state.hasIndex hashCheckpoint then
      some (false, s.withNode { s.node with hashPendingCheckpoint := hashCheckpoint })
    else if (s.node.mapBlockIndex hashCheckpoint).isNone then none
    else
      let r := s.node.validateSyncCheckpointInvalid hashCheckpoint
      if !r.1 then some (false, s.setInvalid r.2)
      else some ((s.setInvalid r.2).enforceSyncCheckpoint C env hashCheckpoint)

/-- `Checkpoints::WriteSyncCheckpoint` by itself. -/
def writeSyncCheckpoint (s : CheckpointState) (hashCheckpoint : Uint256) : CheckpointState :=
  s.withNode { s.node.writeSyncCheckpoint env hashCheckpoint with
    hashPendingCheckpoint := s.node.hashPendingCheckpoint }

/-- The loop of `ResetSyncCheckpoint`: the last hardened checkpoint of the main chain. -/
def resetLoop (s : CheckpointState) : List (Nat × Uint256) → Bool × CheckpointState
  | [] => (false, s)
  | (_, hash) :: rest =>
    if (s.node.mapBlockIndex hash).isSome && s.node.isInMainChain hash then
      (!env.indexCommitFails, s.writeSyncCheckpoint env hash)
    else resetLoop s rest

/-- `Checkpoints::ResetSyncCheckpoint`, which runs when the blocks have been loaded and the master
key has changed. -/
def resetSyncCheckpoint (s : CheckpointState) : Bool × CheckpointState :=
  let hash := (mapCheckpoints.getLast?.map Prod.snd).getD 0
  if (s.node.mapBlockIndex hash).isNone then
    (s.withNode { s.node with hashPendingCheckpoint := hash }).resetLoop env mapCheckpoints.reverse
  else if s.node.isInMainChain hash then s.resetLoop env mapCheckpoints.reverse
  else
    match s.node.readFromDisk C env hash with
    | none => (false, s)
    | some b =>
      let r := s.node.setBestChain C env b hash
      if r.1 then (s.withNode r.2).resetLoop env mapCheckpoints.reverse else (false, s.withNode r.2)

end CheckpointState

/-! ## Walking back -/

variable {C}

/-- **The tree is well formed below the genesis block `g`, and the synchronized checkpoint is in
it.** -/
structure NodeState.SyncOK (g : Uint256) (s : NodeState) : Prop extends IndexOK g s where
  root : ∃ e, s.mapBlockIndex g = some e ∧ e.pprev = none ∧ e.nHeight = 0
  checkpoint : (s.mapBlockIndex s.hashSyncCheckpoint).isSome

namespace NodeState.SyncOK

variable {g : Uint256} {s : NodeState}

/-- An entry has a parent one lower, or is that of the genesis block. -/
theorem prev_cases (h : s.SyncOK g) {k : Uint256} {e : CBlockIndex}
    (he : s.mapBlockIndex k = some e) :
    (e.pprev = none ∧ e.nHeight = 0) ∨ ∃ p pprev, e.pprev = some p ∧
      s.mapBlockIndex p = some pprev ∧ e.nHeight = pprev.nHeight + 1 := by
  by_cases hk : k = g
  · obtain ⟨e', he', hroot⟩ := h.root
    rw [hk, he'] at he
    exact Or.inl (Option.some.inj he ▸ hroot)
  · obtain ⟨p, pprev, hp, hpprev, hheight, -⟩ := h.parent he hk
    exact Or.inr ⟨p, pprev, hp, hpprev, hheight⟩

theorem heightOf_of_parentOf (h : s.SyncOK g) {k p : Uint256} (hp : s.parentOf k = some p) :
    s.heightOf k = s.heightOf p + 1 := by
  obtain ⟨e, he, hpe⟩ := Option.bind_eq_some_iff.mp hp
  rcases h.prev_cases he with ⟨hnone, -⟩ | ⟨p', pprev, hp', hpprev, hheight⟩
  · rw [hnone] at hpe
    cases hpe
  · obtain rfl := Option.some.inj (hp'.symm.trans hpe)
    simpa [heightOf, he, hpprev] using hheight

/-- The entries as a tree of parent links. -/
def tree (h : s.SyncOK g) : Ancestry.Tree Uint256 := s.treeOf h.heightOf_of_parentOf

/-- **The walk back from an entry ends at its ancestor of the wanted height.** -/
theorem traceBack (h : s.SyncOK g) (nHeight : Nat) {k : Uint256} {e : CBlockIndex}
    (he : s.mapBlockIndex k = some e) (hle : nHeight ≤ e.nHeight) :
    ∃ k' e', s.traceBack nHeight e.nHeight e = some e' ∧ s.mapBlockIndex k' = some e' ∧
      e'.hash = k' ∧ e'.nHeight = nHeight ∧ Ancestry.BelowEq s.parentOf k' k := by
  generalize hn : e.nHeight = n
  induction n generalizing k e with
  | zero =>
    have hzero : nHeight = 0 := by omega
    refine ⟨k, e, ?_, he, h.hash_eq he, hn.trans hzero.symm, .refl⟩
    rw [NodeState.traceBack, if_neg (by omega)]
  | succ n ih =>
    by_cases hlt : nHeight < n + 1
    · rcases h.prev_cases he with ⟨-, hroot⟩ | ⟨p, pprev, hp, hpprev, hheight⟩
      · omega
      · obtain ⟨k', e', htrace, he', hname, hheight', hbelow⟩ := ih hpprev (by omega) (by omega)
        refine ⟨k', e', ?_, he', hname, hheight', hbelow.tail ?_⟩
        · rw [NodeState.traceBack, hn, if_pos hlt, prev, hp, Option.bind_some, hpprev]
          exact htrace
        · rw [parentOf, he, Option.bind_some, hp]
    · refine ⟨k, e, ?_, he, h.hash_eq he, by omega, .refl⟩
      rw [NodeState.traceBack, hn, if_neg hlt]

/-- Descending is decided by the walk back to the height of the ancestor. -/
theorem descends_iff (h : s.SyncOK g) {a b : Uint256} {ea eb : CBlockIndex}
    (ha : s.mapBlockIndex a = some ea) (hb : s.mapBlockIndex b = some eb)
    (hle : ea.nHeight ≤ eb.nHeight) :
    ∃ e, s.traceBack ea.nHeight eb.nHeight eb = some e ∧
      (s.Descends a b ↔ ea.nHeight < eb.nHeight ∧ e.hash = a) ∧
      (e.hash = a ↔ Ancestry.BelowEq s.parentOf a b) := by
  obtain ⟨k, e, htrace, he, hname, hheight, hbelow⟩ := h.traceBack ea.nHeight hb hle
  have hsame : s.heightOf k = s.heightOf a := by simp [heightOf, he, ha, hheight]
  have hiff := Ancestry.Tree.below_iff (T := h.tree) hbelow hsame
  have hea : s.heightOf a = ea.nHeight := by simp [heightOf, ha]
  have heb : s.heightOf b = eb.nHeight := by simp [heightOf, hb]
  refine ⟨e, htrace, ?_, ?_⟩
  · rw [← hea, ← heb, hname]
    exact hiff
  · rw [hname]
    constructor
    · rintro rfl
      exact hbelow
    · intro hbelow'
      exact Ancestry.Tree.eq_of_belowEq (T := h.tree) hbelow hbelow' hsame

theorem isSome_of_descends {a b : Uint256} (h : s.Descends a b) : (s.mapBlockIndex b).isSome := by
  obtain ⟨p, -, hp⟩ := Relation.TransGen.tail'_iff.mp h
  obtain ⟨e, he, -⟩ := Option.bind_eq_some_iff.mp hp
  rw [he]
  rfl

theorem heightOf_lt_of_descends (h : s.SyncOK g) {a b : Uint256} (hab : s.Descends a b) :
    s.heightOf a < s.heightOf b := Ancestry.Tree.height_lt_of_below (T := h.tree) hab

/-- **`ValidateSyncCheckpoint` accepts the strict descendants of the checkpoint, and marks the blocks
of other branches as invalid.** -/
theorem validateSyncCheckpointInvalid_iff (h : s.SyncOK g) (hashCheckpoint : Uint256) :
    ((s.validateSyncCheckpointInvalid hashCheckpoint).1 = true ↔
        s.Descends s.hashSyncCheckpoint hashCheckpoint) ∧
      ((s.validateSyncCheckpointInvalid hashCheckpoint).2 = some hashCheckpoint ↔
        s.Divergent s.hashSyncCheckpoint hashCheckpoint) ∧
      ((s.validateSyncCheckpointInvalid hashCheckpoint).2 = none ↔
        ¬ s.Divergent s.hashSyncCheckpoint hashCheckpoint) := by
  obtain ⟨sync, hsync⟩ := Option.isSome_iff_exists.mp h.checkpoint
  rcases hrecv : s.mapBlockIndex hashCheckpoint with _ | recv
  · -- an unknown block descends from none and is on no branch
    have hno : ¬ s.Descends s.hashSyncCheckpoint hashCheckpoint := fun hd => by
      have hsome := isSome_of_descends hd
      rw [hrecv] at hsome
      cases hsome
    have hno' : ¬ s.Divergent s.hashSyncCheckpoint hashCheckpoint := fun hd => by
      have hsome := hd.2.1
      rw [hrecv] at hsome
      cases hsome
    simp [validateSyncCheckpointInvalid, hsync, hrecv, hno, hno']
  · have hknown : s.Divergent s.hashSyncCheckpoint hashCheckpoint ↔
        s.hashSyncCheckpoint ≠ hashCheckpoint ∧ ¬ s.Descends s.hashSyncCheckpoint hashCheckpoint ∧
          ¬ s.Descends hashCheckpoint s.hashSyncCheckpoint := by
      simp [Divergent, hsync, hrecv]
    have hs : s.heightOf s.hashSyncCheckpoint = sync.nHeight := by simp [heightOf, hsync]
    have hr : s.heightOf hashCheckpoint = recv.nHeight := by simp [heightOf, hrecv]
    by_cases hle : recv.nHeight ≤ sync.nHeight
    · obtain ⟨e, htrace, -, hbelow⟩ := h.descends_iff hrecv hsync hle
      have hno : ¬ s.Descends s.hashSyncCheckpoint hashCheckpoint := fun hd => by
        have := h.heightOf_lt_of_descends hd
        omega
      have hdiv : s.Divergent s.hashSyncCheckpoint hashCheckpoint ↔ e.hash ≠ hashCheckpoint := by
        rw [hknown, Ne, Ne, hbelow, Ancestry.BelowEq, Relation.reflTransGen_iff_eq_or_transGen,
          not_or, and_iff_right hno]
        rfl
      simp only [validateSyncCheckpointInvalid, hsync, hrecv, if_pos hle, htrace, hdiv]
      by_cases heq : e.hash = hashCheckpoint <;> simp [heq, hno]
    · obtain ⟨e, htrace, hdesc, -⟩ := h.descends_iff hsync hrecv (by omega)
      have hno : ¬ s.Descends hashCheckpoint s.hashSyncCheckpoint := fun hd => by
        have := h.heightOf_lt_of_descends hd
        omega
      have hne : s.hashSyncCheckpoint ≠ hashCheckpoint := fun heq => by
        rw [heq, hr] at hs
        omega
      have hdesc' : s.Descends s.hashSyncCheckpoint hashCheckpoint ↔
          e.hash = s.hashSyncCheckpoint := hdesc.trans (and_iff_right (by omega))
      have hdiv : s.Divergent s.hashSyncCheckpoint hashCheckpoint ↔
          e.hash ≠ s.hashSyncCheckpoint := by
        rw [hknown, and_iff_right hne, and_iff_left hno, hdesc']
      simp only [validateSyncCheckpointInvalid, hsync, hrecv, if_neg hle, htrace, hdiv, hdesc']
      by_cases heq : e.hash = s.hashSyncCheckpoint <;> simp [heq]

/-- **A block on top of a known one passes `CheckSync` only when it is known and not higher than the
checkpoint, or when it comes to descend from it.** -/
theorem checkSync_imp (h : s.SyncOK g) {hashBlock : Uint256} {pindexPrev : CBlockIndex}
    (hprev : s.mapBlockIndex pindexPrev.hash = some pindexPrev)
    (hpass : s.checkSync hashBlock pindexPrev = true) :
    (pindexPrev.nHeight + 1 ≤ s.heightOf s.hashSyncCheckpoint ∧
        (s.mapBlockIndex hashBlock).isSome) ∨
      Ancestry.BelowEq s.parentOf s.hashSyncCheckpoint pindexPrev.hash := by
  obtain ⟨sync, hsync⟩ := Option.isSome_iff_exists.mp h.checkpoint
  have hs : s.heightOf s.hashSyncCheckpoint = sync.nHeight := by simp [heightOf, hsync]
  simp only [checkSync, hsync, Bool.and_eq_true, Bool.or_eq_true, Bool.not_eq_true',
    decide_eq_false_iff_not, Bool.and_eq_false_iff] at hpass
  obtain ⟨⟨habove, hsame⟩, hlower⟩ := hpass
  rw [hs]
  rcases lt_trichotomy (pindexPrev.nHeight + 1) sync.nHeight with hlt | heq | hgt
  · -- lower than the checkpoint
    rcases hlower with hno | hknown
    · exact absurd hlt hno
    · exact Or.inl ⟨hlt.le, by simpa using hknown⟩
  · -- at its height: the checkpoint itself
    rcases hsame with hno | hbest
    · simp [heq] at hno
    · obtain rfl : hashBlock = s.hashSyncCheckpoint := by simpa using hbest
      exact Or.inl ⟨heq.le, h.checkpoint⟩
  · obtain ⟨e, htrace, -, hbelow⟩ := h.descends_iff hsync hprev (by omega)
    rw [htrace] at habove
    simp only [Bool.and_eq_true, beq_iff_eq] at habove
    rcases habove with hno | ⟨-, heq⟩
    · omega
    · exact Or.inr (hbelow.mp heq)

end NodeState.SyncOK

/-! ## What the operations keep -/

namespace NodeState

variable {g : Uint256} {s s' s'' : NodeState} (env : Env)

/-- The tree only grows, and the checkpoint stays or moves to a strict descendant. -/
structure Advances (s s' : NodeState) : Prop where
  descends : ∀ {a b}, s.Descends a b → s'.Descends a b
  checkpoint : s'.hashSyncCheckpoint = s.hashSyncCheckpoint ∨
    s'.Descends s.hashSyncCheckpoint s'.hashSyncCheckpoint

theorem Advances.refl (s : NodeState) : Advances s s := ⟨id, Or.inl rfl⟩

theorem Advances.trans (h : Advances s s') (h' : Advances s' s'') : Advances s s'' := by
  refine ⟨fun hd => h'.descends (h.descends hd), ?_⟩
  rcases h.checkpoint with heq | hd
  · rw [← heq]
    exact h'.checkpoint
  · rcases h'.checkpoint with heq' | hd'
    · rw [heq']
      exact Or.inr (h'.descends hd)
    · exact Or.inr ((h'.descends hd).trans hd')

theorem descends_iff_of_sameIndex (h : SameIndex s s') {a b : Uint256} :
    s'.Descends a b ↔ s.Descends a b := by
  have hparent : s'.parentOf = s.parentOf := by
    funext k
    have hk := h.skeleton k
    simpa [parentOf, Option.map_bind, Function.comp_def, CBlockIndex.skeleton, Option.bind_map]
      using congrArg (Option.bind · CBlockIndex.pprev) hk
  rw [Descends, Descends, hparent]

theorem SyncOK.of_sameIndex (h : s.SyncOK g) (hindex : SameIndex s s')
    (hcheck : (s.mapBlockIndex s'.hashSyncCheckpoint).isSome) : s'.SyncOK g := by
  refine ⟨h.toIndexOK.of_sameIndex hindex, ?_, ?_⟩
  · obtain ⟨e, he, hprev, hheight⟩ := h.root
    obtain ⟨e', he', hsk⟩ := hindex.symm.exists_entry he
    obtain ⟨-, hprev', -, -, hheight', -⟩ := CBlockIndex.eq_of_skeleton hsk
    exact ⟨e', he', hprev'.symm.trans hprev, hheight'.symm.trans hheight⟩
  · rw [hindex.isSome]
    exact hcheck

/-- Steps that keep the entries and the checkpoint keep all of it. -/
theorem SyncOK.of_same (h : s.SyncOK g) (hindex : SameIndex s s') (hcheck : SameCheckpoints s s') :
    s'.SyncOK g ∧ Advances s s' := by
  refine ⟨h.of_sameIndex hindex ?_, fun hd => (descends_iff_of_sameIndex hindex).mpr hd,
    Or.inl hcheck.hashSyncCheckpoint⟩
  rw [hcheck.hashSyncCheckpoint]
  exact h.checkpoint

theorem SyncOK.insertIndex (h : s.SyncOK g) {b : CBlock} {e : CBlockIndex}
    (he : NewEntry C s b e) : (s.insertIndex e).SyncOK g ∧ Advances s (s.insertIndex e) := by
  have hne : ∀ {k e'}, s.mapBlockIndex k = some e' → k ≠ e.hash := by
    rintro k e' hk rfl
    rw [he.hash, he.unknown] at hk
    cases hk
  have hkeep : ∀ {k e'}, s.mapBlockIndex k = some e' →
      (s.insertIndex e).mapBlockIndex k = some e' := by
    intro k e' hk
    rw [insertIndex_mapBlockIndex, Function.update_of_ne (hne hk)]
    exact hk
  refine ⟨⟨h.toIndexOK.insertIndex he, ?_, ?_⟩, fun hd => ?_, Or.inl rfl⟩
  · obtain ⟨e', he', hroot⟩ := h.root
    exact ⟨e', hkeep he', hroot⟩
  · obtain ⟨sync, hsync⟩ := Option.isSome_iff_exists.mp h.checkpoint
    exact Option.isSome_iff_exists.mpr ⟨sync, hkeep hsync⟩
  · -- the links of the old entries stay
    refine Relation.TransGen.mono (fun a b hab => ?_) _ _ hd
    obtain ⟨e', he', hp⟩ := Option.bind_eq_some_iff.mp hab
    rw [parentOf, hkeep he', Option.bind_some]
    exact hp

/-- Writing a checkpoint that descends from the one before. -/
theorem SyncOK.writeSyncCheckpoint (h : s.SyncOK g) {hash : Uint256}
    (hd : s.Descends s.hashSyncCheckpoint hash) :
    (s.writeSyncCheckpoint env hash).SyncOK g ∧ Advances s (s.writeSyncCheckpoint env hash) := by
  unfold NodeState.writeSyncCheckpoint
  simp only
  split
  · exact h.of_same ⟨fun _ => rfl, rfl⟩ ⟨rfl, rfl⟩
  · exact ⟨h.of_sameIndex ⟨fun _ => rfl, rfl⟩ (SyncOK.isSome_of_descends hd), id, Or.inr hd⟩

variable (C) in
theorem SyncOK.setBestChain (h : s.SyncOK g) (b : CBlock) (hash : Uint256) :
    (s.setBestChain C env b hash).2.SyncOK g ∧ Advances s (s.setBestChain C env b hash).2 ∧
      (s.setBestChain C env b hash).2.hashSyncCheckpoint = s.hashSyncCheckpoint := by
  obtain ⟨hindex, hcheck⟩ := (setBestChain_chainSteps C env s b hash).sameIndex
  obtain ⟨hok, hadv⟩ := h.of_same hindex hcheck
  exact ⟨hok, hadv, hcheck.hashSyncCheckpoint⟩

variable (C) in
theorem SyncOK.acceptPendingSyncCheckpoint (h : s.SyncOK g) :
    (s.acceptPendingSyncCheckpoint C env).SyncOK g ∧
      Advances s (s.acceptPendingSyncCheckpoint C env) := by
  unfold NodeState.acceptPendingSyncCheckpoint
  simp only
  split
  · exact ⟨h, Advances.refl s⟩
  · split
    · exact ⟨h.of_sameIndex ⟨fun _ => rfl, rfl⟩ h.checkpoint, id, Or.inl rfl⟩
    · next hvalid =>
      have hd : s.Descends s.hashSyncCheckpoint s.hashPendingCheckpoint := by
        rw [← (h.validateSyncCheckpointInvalid_iff _).1, validateSyncCheckpointInvalid_fst]
        simpa using hvalid
      split
      · exact h.writeSyncCheckpoint env hd
      · split
        · exact ⟨h, Advances.refl s⟩
        · next b _ =>
          obtain ⟨hok, hadv, hsame⟩ := h.setBestChain C env b s.hashPendingCheckpoint
          split
          · obtain ⟨hok', hadv'⟩ := hok.writeSyncCheckpoint env (by
              rw [hsame]
              exact hadv.descends hd)
            exact ⟨hok', hadv.trans hadv'⟩
          · exact ⟨hok, hadv⟩

variable (C) in
theorem SyncOK.acceptBlock (h : s.SyncOK g) (b : CBlock) :
    (s.acceptBlock C env b).2.SyncOK g ∧ Advances s (s.acceptBlock C env b).2 := by
  unfold NodeState.acceptBlock
  rcases hchecks : s.acceptChecks C env b with _ | hashProofOfStake
  · exact ⟨h, Advances.refl s⟩
  · rcases env.writeToDisk with _ | ⟨nFile, nBlockPos⟩
    · exact ⟨h, Advances.refl s⟩
    · simp only
      obtain ⟨hfile, hadvFile⟩ : (s.writeBlock b nFile nBlockPos).SyncOK g ∧
          Advances s (s.writeBlock b nFile nBlockPos) :=
        h.of_same ⟨fun _ => rfl, rfl⟩ ⟨rfl, rfl⟩
      rcases addToBlockIndex_cases C env (s.writeBlock b nFile nBlockPos) b nFile nBlockPos
        hashProofOfStake with hnone | ⟨e, -, hnew, hindex, hcheck⟩
      · rw [hnone]
        exact ⟨hfile, hadvFile⟩
      · obtain ⟨hunknown, pprev, hprev⟩ := exists_of_acceptChecks hchecks
        have hentry := newEntry_of_newBlockIndex (s := s.writeBlock b nFile nBlockPos) hunknown
          hprev hnew
        obtain ⟨hins, hadvIns⟩ := hfile.insertIndex hentry
        obtain ⟨hadd, hadvAdd⟩ := hins.of_same hindex ⟨hcheck.1, hcheck.2⟩
        have hadv := (hadvFile.trans hadvIns).trans hadvAdd
        split
        · obtain ⟨hpend, hadvPend⟩ := hadd.acceptPendingSyncCheckpoint C env
          exact ⟨hpend, hadv.trans hadvPend⟩
        · exact ⟨hadd, hadv⟩

theorem SyncOK.acceptSteps {env : Uint256 → Env} {bs : List CBlock} (h : s.SyncOK g)
    (hsteps : AcceptSteps C env bs s s') : s'.SyncOK g ∧ Advances s s' := by
  induction hsteps with
  | refl => exact ⟨h, Advances.refl s⟩
  | tail _ hstep ih =>
    obtain ⟨b, -, rfl⟩ := hstep
    obtain ⟨hok, hadv⟩ := ih.1.acceptBlock C (env (b.getHash C)) b
    exact ⟨hok, ih.2.trans hadv⟩

end NodeState

/-- With debug output every block is refused: the log line has entered its hash. -/
theorem processBlock_debug_node {env : Uint256 → Env} {s s' : BlockState} {b : CBlock} {ok : Bool}
    (h : s.processBlock C true env b = some (ok, s')) : s'.node = s.node := by
  have hhas : (s.touchIndex (b.getHash C)).hasIndex (b.getHash C) = true := by
    unfold BlockState.touchIndex
    split
    · assumption
    · simp [BlockState.hasIndex]
  unfold BlockState.processBlock at h
  simp only [if_true, BlockState.processChecks, hhas, Bool.not_true, Bool.false_and,
    Bool.not_false] at h
  obtain ⟨-, rfl⟩ := Prod.mk.inj (Option.some.inj h)
  unfold BlockState.touchIndex
  split <;> rfl

theorem NodeState.SyncOK.processBlock {g : Uint256} {fDebug : Bool} {env : Uint256 → Env}
    {s s' : BlockState} {b : CBlock} {ok : Bool} (h : s.node.SyncOK g)
    (hrun : s.processBlock C fDebug env b = some (ok, s')) :
    s'.node.SyncOK g ∧ Advances s.node s'.node := by
  cases fDebug with
  | true =>
    rw [processBlock_debug_node hrun]
    exact ⟨h, Advances.refl _⟩
  | false =>
    obtain ⟨hok, hadv⟩ := h.acceptBlock C (env (b.getHash C)) b
    rcases (BlockState.processBlock_acceptSteps C env hrun).2 with
      hsame | ⟨-, -, ⟨hnode, -⟩ | ⟨-, hsteps⟩⟩
    · rw [hsame]
      exact ⟨h, Advances.refl _⟩
    · rw [hnode]
      exact ⟨hok, hadv⟩
    · obtain ⟨hok', hadv'⟩ := hok.acceptSteps hsteps
      exact ⟨hok', hadv.trans hadv'⟩

namespace CheckpointState

variable {g : Uint256} {s s' : CheckpointState}

theorem enforceSyncCheckpoint_spec (env : Env) (h : s.node.SyncOK g) {hash : Uint256}
    (hd : s.node.Descends s.node.hashSyncCheckpoint hash) :
    (s.enforceSyncCheckpoint C env hash).2.node.SyncOK g ∧
      s.node.Advances (s.enforceSyncCheckpoint C env hash).2.node := by
  unfold enforceSyncCheckpoint
  split
  · exact h.writeSyncCheckpoint env hd
  · split
    · exact ⟨h, NodeState.Advances.refl _⟩
    · next b _ =>
      obtain ⟨hok, hadv, hsame⟩ := h.setBestChain C env b hash
      simp only
      split
      · have hd' : (s.node.setBestChain C env b hash).2.Descends
            (s.node.setBestChain C env b hash).2.hashSyncCheckpoint hash := by
          rw [hsame]
          exact hadv.descends hd
        obtain ⟨hok', hadv'⟩ := hok.writeSyncCheckpoint env hd'
        exact ⟨hok', hadv.trans hadv'⟩
      · exact ⟨hok, hadv⟩

/-- A checkpoint message keeps the checkpoint in the tree and only moves it forward. -/
theorem processSyncCheckpoint_spec {verify : List UInt8 → List UInt8 → Bool} {env : Env}
    {msg : CSyncCheckpoint} {ok : Bool} (h : s.node.SyncOK g)
    (hrun : s.processSyncCheckpoint C verify env msg = some (ok, s')) :
    s'.node.SyncOK g ∧ s.node.Advances s'.node := by
  unfold processSyncCheckpoint at hrun
  split at hrun
  · obtain ⟨-, rfl⟩ := Prod.mk.inj (Option.some.inj hrun)
    exact ⟨h, NodeState.Advances.refl _⟩
  · next hash _ =>
    split at hrun
    · -- the block has not come in: the checkpoint waits
      obtain ⟨-, rfl⟩ := Prod.mk.inj (Option.some.inj hrun)
      exact ⟨h.of_sameIndex ⟨fun _ => rfl, rfl⟩ h.checkpoint, id, Or.inl rfl⟩
    · split at hrun
      · cases hrun
      · simp only at hrun
        split at hrun
        · obtain ⟨-, rfl⟩ := Prod.mk.inj (Option.some.inj hrun)
          exact ⟨h, NodeState.Advances.refl _⟩
        · next hvalid =>
          have hd := (h.validateSyncCheckpointInvalid_iff hash).1.mp (by simpa using hvalid)
          have hspec := enforceSyncCheckpoint_spec (C := C) (s := s.setInvalid
            (s.node.validateSyncCheckpointInvalid hash).2) env h hd
          rw [Option.some.inj hrun] at hspec
          exact hspec

theorem resetLoop_spec (env : Env) (h : s.node.SyncOK g) (l : List (Nat × Uint256)) :
    (s.resetLoop env l).2.node.SyncOK g := by
  induction l with
  | nil => exact h
  | cons p rest ih =>
    obtain ⟨n, hash⟩ := p
    unfold resetLoop
    split
    · next hfound =>
      rw [Bool.and_eq_true] at hfound
      have hwrite : (s.node.writeSyncCheckpoint env hash).SyncOK g := by
        unfold NodeState.writeSyncCheckpoint
        simp only
        split
        · exact h.of_sameIndex ⟨fun _ => rfl, rfl⟩ h.checkpoint
        · exact h.of_sameIndex ⟨fun _ => rfl, rfl⟩ hfound.1
      exact hwrite.of_sameIndex ⟨fun _ => rfl, rfl⟩ hwrite.checkpoint
    · exact ih

theorem resetSyncCheckpoint_spec (env : Env) (h : s.node.SyncOK g) :
    (s.resetSyncCheckpoint C env).2.node.SyncOK g := by
  unfold resetSyncCheckpoint
  simp only
  split
  · refine resetLoop_spec env ?_ _
    exact h.of_sameIndex ⟨fun _ => rfl, rfl⟩ h.checkpoint
  · split
    · exact resetLoop_spec env h _
    · split
      · exact h
      · next b _ =>
        obtain ⟨hset, -⟩ := h.setBestChain C env b ((mapCheckpoints.getLast?.map Prod.snd).getD 0)
        split
        · exact resetLoop_spec env hset _
        · exact hset

end CheckpointState

/-! ## Runs -/

section Run

variable (C) (verify : List UInt8 → List UInt8 → Bool) (fDebug : Bool)

/-- A checkpoint message, a block, or another change of the node that keeps its entries and its
checkpoints. A block may also change `hashInvalidCheckpoint`, which no step reads. -/
inductive CheckpointStep : CheckpointState → CheckpointState → Prop
  | checkpoint (env : Env) (s s' : CheckpointState) (msg : CSyncCheckpoint) (ok : Bool)
    (h : s.processSyncCheckpoint C verify env msg = some (ok, s')) : CheckpointStep s s'
  | block (env : Uint256 → Env) (s : CheckpointState) (state : BlockState) (b : CBlock) (ok : Bool)
    (hashInvalidCheckpoint : Uint256)
    (h : s.state.processBlock C fDebug env b = some (ok, state)) :
    CheckpointStep s ⟨state, hashInvalidCheckpoint⟩
  | other (s : CheckpointState) (node : NodeState) (hindex : SameIndex s.node node)
    (hcheck : SameCheckpoints s.node node) : CheckpointStep s (s.withNode node)

/-- The states reached from `s₀` by such steps, and by resets of the checkpoint. -/
def CheckpointRun (s₀ s : CheckpointState) : Prop :=
  Relation.ReflTransGen (fun s s' => CheckpointStep C verify fDebug s s' ∨
    ∃ env, s' = (s.resetSyncCheckpoint C env).2) s₀ s

variable {C verify fDebug}

theorem CheckpointStep.syncOK {g : Uint256} {s s' : CheckpointState}
    (hstep : CheckpointStep C verify fDebug s s') (h : s.node.SyncOK g) :
    s'.node.SyncOK g ∧ s.node.Advances s'.node := by
  cases hstep with
  | checkpoint env _ _ msg ok hrun => exact CheckpointState.processSyncCheckpoint_spec h hrun
  | block env _ state b ok hashInvalidCheckpoint hrun => exact h.processBlock hrun
  | other _ node hindex hcheck => exact h.of_same hindex hcheck

theorem CheckpointRun.syncOK {g : Uint256} {s₀ s : CheckpointState}
    (hrun : CheckpointRun C verify fDebug s₀ s) (h : s₀.node.SyncOK g) : s.node.SyncOK g := by
  induction hrun with
  | refl => exact h
  | tail _ hstep ih =>
    rcases hstep with hstep | ⟨env, rfl⟩
    · exact (hstep.syncOK ih).1
    · exact CheckpointState.resetSyncCheckpoint_spec env ih

/-- **Synchronized checkpoints are safe along every run**: the checkpoint is a known block, and only a
reset moves it to another than a strict descendant; `ValidateSyncCheckpoint` accepts the strict
descendants and sets `hashInvalidCheckpoint` for the blocks of another branch; on the main network a
block on top of a known one passes `CheckSync` only when it is known and not above the checkpoint, or
when it comes to descend from it. -/
theorem checkpointRun_safe {g : Uint256} {s₀ s : CheckpointState} (h₀ : s₀.node.SyncOK g)
    (hrun : CheckpointRun C verify fDebug s₀ s) :
    (s.node.mapBlockIndex s.node.hashSyncCheckpoint).isSome ∧
    (∀ s', CheckpointStep C verify fDebug s s' →
      s'.node.hashSyncCheckpoint = s.node.hashSyncCheckpoint ∨
        s'.node.Descends s.node.hashSyncCheckpoint s'.node.hashSyncCheckpoint) ∧
    (∀ hash,
      ((s.node.validateSyncCheckpointInvalid hash).1 = true ↔
        s.node.Descends s.node.hashSyncCheckpoint hash) ∧
      ((s.node.validateSyncCheckpointInvalid hash).2 = some hash ↔
        s.node.Divergent s.node.hashSyncCheckpoint hash) ∧
      ((s.node.validateSyncCheckpointInvalid hash).2 = none ↔
        ¬ s.node.Divergent s.node.hashSyncCheckpoint hash)) ∧
    ∀ hashBlock pindexPrev, s.node.mapBlockIndex pindexPrev.hash = some pindexPrev →
      s.node.checkSyncOn false hashBlock pindexPrev = true →
        (pindexPrev.nHeight + 1 ≤ s.node.heightOf s.node.hashSyncCheckpoint ∧
          (s.node.mapBlockIndex hashBlock).isSome) ∨
        Ancestry.BelowEq s.node.parentOf s.node.hashSyncCheckpoint pindexPrev.hash := by
  have h := hrun.syncOK h₀
  refine ⟨h.checkpoint, fun s' hstep => (hstep.syncOK h).2.checkpoint,
    h.validateSyncCheckpointInvalid_iff, fun hashBlock pindexPrev hprev hpass => ?_⟩
  exact h.checkSync_imp hprev hpass

end Run

/-! ### Samples

A node with the genesis block 1, which waits for the checkpoint 2; then the block 2 comes in. -/

/-- The node that waits for the checkpoint 2. -/
noncomputable def pendingStart : CheckpointState where
  state := { treeStart with node := { treeStart.node with hashPendingCheckpoint := 2 } }
  hashInvalidCheckpoint := 0

theorem pendingStart_syncOK : pendingStart.node.SyncOK 1 := by
  have hg : treeGenesis.hash treeCrypto = 1 := by decide +kernel
  obtain ⟨e, he⟩ := Option.isSome_iff_exists.mp
    (by decide +kernel : (pendingStart.node.mapBlockIndex 1).isSome)
  have hheight : (pendingStart.node.mapBlockIndex 1).map CBlockIndex.nHeight = some 0 := by
    decide +kernel
  rw [he, Option.map_some, Option.some.injEq] at hheight
  refine ⟨⟨treeStart_indexOK.hash_eq, treeStart_indexOK.parent⟩, ⟨e, he, ?_, hheight⟩, ?_⟩
  · have hstart : (freshState treeCrypto [treeGenesis]).node.mapBlockIndex 1 = some e := he
    exact (entry_of_freshState hg hstart).2.2
  · decide +kernel

/-- The node after the block 2: the checkpoint is there. -/
theorem exists_processBlock_pendingStart :
    ∃ state, pendingStart.state.processBlock treeCrypto false treeEnv treeBlock =
        some (true, state) ∧ state.node.hashSyncCheckpoint = 2 ∧
      state.node.heightOf 1 = 0 ∧ state.node.heightOf 2 = 1 ∧
      (state.node.mapBlockIndex 9).isSome = false ∧ (state.node.mapBlockIndex 1).isSome := by
  obtain ⟨⟨ok, state⟩, hs⟩ := Option.isSome_iff_exists.mp
    (pendingStart.state.processBlock_isSome treeCrypto false treeEnv treeBlock)
  have hend : (pendingStart.state.processBlock treeCrypto false treeEnv treeBlock).map (fun r =>
      (r.1, r.2.node.hashSyncCheckpoint, r.2.node.heightOf 1, r.2.node.heightOf 2,
        (r.2.node.mapBlockIndex 9).isSome, (r.2.node.mapBlockIndex 1).isSome)) =
      some (true, 2, 0, 1, false, true) := by decide +kernel
  rw [hs, Option.map_some, Option.some.injEq] at hend
  simp only [Prod.mk.injEq] at hend
  obtain ⟨rfl, hrest⟩ := hend
  exact ⟨state, hs, hrest⟩

/-- A message with a wrong signature changes nothing; the block 2 moves the checkpoint from the
block 1 to its child. -/
theorem checkpointRun_safe_pending :
    ∃ s, CheckpointStep treeCrypto (fun _ _ => false) false pendingStart s ∧
      pendingStart.node.hashSyncCheckpoint = 1 ∧ s.node.hashSyncCheckpoint = 2 ∧
      s.node.Descends 1 2 := by
  obtain ⟨state, hs, hsync, -⟩ := exists_processBlock_pendingStart
  have hblock : CheckpointStep treeCrypto (fun _ _ => false) false pendingStart ⟨state, 0⟩ :=
    .block treeEnv _ state treeBlock true 0 hs
  have hmessage : CheckpointStep treeCrypto (fun _ _ => false) false pendingStart pendingStart :=
    .checkpoint (treeEnv 0) _ _ ⟨[], []⟩ false rfl
  have hstart : pendingStart.node.hashSyncCheckpoint = 1 := by decide +kernel
  have hsafe := checkpointRun_safe pendingStart_syncOK
    (Relation.ReflTransGen.single (Or.inl hmessage))
  refine ⟨⟨state, 0⟩, hblock, hstart, hsync, ?_⟩
  have hmove := hsafe.2.1 _ hblock
  rw [hstart, show (⟨state, 0⟩ : CheckpointState).node.hashSyncCheckpoint = 2 from hsync] at hmove
  exact hmove.resolve_left (by decide)

/-- On the test network an unknown block on top of the block 1 passes, at the height of the checkpoint
2 and next to it. -/
theorem not_checkSync_imp_testNet :
    ∃ s, pendingStart.node.SyncOK 1 ∧
      CheckpointRun treeCrypto (fun _ _ => false) false pendingStart s ∧
      ∃ pindexPrev, s.node.mapBlockIndex pindexPrev.hash = some pindexPrev ∧
        s.node.checkSyncOn true 9 pindexPrev = true ∧
        ¬ ((pindexPrev.nHeight + 1 ≤ s.node.heightOf s.node.hashSyncCheckpoint ∧
            (s.node.mapBlockIndex 9).isSome) ∨
          Ancestry.BelowEq s.node.parentOf s.node.hashSyncCheckpoint pindexPrev.hash) := by
  obtain ⟨state, hs, hsync, hone, htwo, hnine, hknown⟩ := exists_processBlock_pendingStart
  have hrun : CheckpointRun treeCrypto (fun _ _ => false) false pendingStart ⟨state, 0⟩ :=
    Relation.ReflTransGen.single (Or.inl (.block treeEnv _ state treeBlock true 0 hs))
  have hok := hrun.syncOK pendingStart_syncOK
  obtain ⟨pindexPrev, hprev⟩ := Option.isSome_iff_exists.mp hknown
  have hname : pindexPrev.hash = 1 := hok.hash_eq hprev
  refine ⟨⟨state, 0⟩, pendingStart_syncOK, hrun, pindexPrev, by rw [hname]; exact hprev, rfl, ?_⟩
  rintro (⟨-, hsome⟩ | hbelow)
  · exact Bool.false_ne_true (hnine.symm.trans hsome)
  · -- the checkpoint is higher than the block 1
    have hle : state.node.heightOf state.node.hashSyncCheckpoint ≤
        state.node.heightOf pindexPrev.hash :=
      Ancestry.Tree.height_le_of_belowEq (T := hok.tree) hbelow
    rw [hsync, hname, hone, htwo] at hle
    omega

end MotaCoin
