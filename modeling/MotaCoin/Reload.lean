import MotaCoin.BlockTree
import MotaCoin.LoadIndex

/-!
# What the records rebuild

A node is recorded when every entry of its tree has the record `CDiskBlockIndex` makes of it, and
there are no others. Scanning the records then gives the entries back without their scores, in
whatever order the records come; and scoring them by height gives the scores back, since the parent
of an entry is lower.

## Main definitions

* `Entered`: what `AddToBlockIndex` makes true of the entries, and nothing changes
* `OnDisk`, `TipRecorded`, `Recorded`: the entries, the tip and the committed records agree
* `Enumerates`: the order of a scan
* `Rebuilt`: a loaded node has the tree and the tip of another

## Main results

* `foldl_loadRecord_spec`: the scan
* `loadScores_spec`: the scores
* `Recorded.loadBlockIndex`: `LoadBlockIndex` rebuilds a recorded node
-/

namespace MotaCoin

variable {C : Crypto}

/-! ## Recorded nodes -/

variable (C) in
/-- **The entries as `AddToBlockIndex` makes them**: filed under the hash of their header, on top of
another entry unless of the genesis block, scored from it, and with a stake only when it is a
proof-of-stake block. -/
structure Entered (s : NodeState) : Prop where
  zero : s.mapBlockIndex 0 = none
  hash_eq : ∀ {h e}, s.mapBlockIndex h = some e → e.hash = h
  header : ∀ {h e}, s.mapBlockIndex h = some e → (CDiskBlockIndex.ofIndex e).getBlockHash C = h
  parent : ∀ {h e p}, s.mapBlockIndex h = some e → e.pprev = some p →
    ∃ e', s.mapBlockIndex p = some e' ∧ e.nHeight = e'.nHeight + 1
  root : ∀ {h e}, s.mapBlockIndex h = some e → e.pprev = none → h = NodeState.hashGenesisBlock
  nChainTrust : ∀ {h e}, s.mapBlockIndex h = some e →
    e.nChainTrust = ((e.pprev.bind s.mapBlockIndex).map CBlockIndex.nChainTrust).getD 0 +
      NodeState.getBlockTrust e.nBits
  checksum : ∀ {h e}, s.mapBlockIndex h = some e → e.nStakeModifierChecksum =
    C.hashChecksum ((e.pprev.bind s.mapBlockIndex).map CBlockIndex.nStakeModifierChecksum) e.nFlags
      e.hashProofOfStake e.nStakeModifier
  checkpoint : ∀ {h e}, s.mapBlockIndex h = some e →
    NodeState.checkStakeModifierCheckpoints e.nHeight e.nStakeModifierChecksum = true
  stake : ∀ {h e}, s.mapBlockIndex h = some e → e.isProofOfStake = false →
    e.prevoutStake = COutPoint.null ∧ e.nStakeTime = 0 ∧ e.hashProofOfStake = 0
  seen : ∀ x, x ∈ s.setStakeSeen ↔ ∃ h e, s.mapBlockIndex h = some e ∧
    e.isProofOfStake = true ∧ (e.prevoutStake, e.nStakeTime) = x

/-- The globals of the tip are set from an entry, or not yet. -/
structure TipSet (s : NodeState) : Prop where
  some : ∀ {t}, s.pindexBest = some t → ∃ e, s.mapBlockIndex t = some e ∧ s.hashBestChain = t ∧
    s.nBestHeight = e.nHeight ∧ s.nBestChainTrust = e.nChainTrust
  none : s.pindexBest = none → s.pindexGenesisBlock = none ∧ s.hashBestChain = 0 ∧
    s.nBestHeight = -1 ∧ s.nBestChainTrust = 0

/-- What is written of a record. -/
def CDiskBlockIndex.serialized (d : CDiskBlockIndex) : CDiskBlockIndex :=
  ⟨d.read, d.hashPrev, d.hashNext⟩

/-- The record of an entry with the forward link `pnext`, as it is written. -/
def CBlockIndex.record (pindex : CBlockIndex) (pnext : Option Uint256) : CDiskBlockIndex :=
  ⟨(CDiskBlockIndex.ofIndex pindex).read, pindex.pprev.getD 0, pnext.getD 0⟩

variable (C) in
/-- **The entries and the committed records agree**: every entry has its record, with its forward
link, and there are no others. -/
structure OnDisk (s : NodeState) : Prop where
  entered : Entered C s
  next : ∀ {h k}, s.nextOf h = some k → (s.mapBlockIndex k).isSome
  batch : s.txdb.activeBatch = none
  records : ∀ h, (s.txdb.content (.blockindex h)).map CDiskBlockIndex.serialized =
    (s.mapBlockIndex h).map fun e => e.record (s.nextOf h)

variable (C) in
/-- **The entries, the tip and the committed records agree.** -/
structure TipRecorded (s : NodeState) : Prop where
  disk : OnDisk C s
  genesis : s.pindexGenesisBlock =
    if (s.mapBlockIndex NodeState.hashGenesisBlock).isSome then some NodeState.hashGenesisBlock
    else none
  best : s.txdb.content .hashBestChain = s.pindexBest
  tip : TipSet s

variable (C) in
/-- **The committed records are those of the node**: with a tip comes a synchronized checkpoint. -/
structure Recorded (s : NodeState) : Prop extends TipRecorded C s where
  syncCheckpoint : s.pindexBest.isSome → (s.txdb.content .hashSyncCheckpoint).isSome

/-- The keys of a scan are those with a record. -/
def Enumerates (s : NodeState) (keys : List Uint256) : Prop :=
  ∀ h, h ∈ keys ↔ (s.txdb.content (.blockindex h)).isSome

/-- **The loaded node has the tree and the tip of the other**: the same entries, with the same
links, heights, positions, flags, modifiers, stakes, amounts, trust and checksums, the same stakes
seen, and the same globals. -/
structure Rebuilt (s s' : NodeState) : Prop where
  mapBlockIndex : s'.mapBlockIndex = s.mapBlockIndex
  setStakeSeen : ∀ x, x ∈ s'.setStakeSeen ↔ x ∈ s.setStakeSeen
  pindexGenesisBlock : s'.pindexGenesisBlock = s.pindexGenesisBlock
  pindexBest : s'.pindexBest = s.pindexBest
  hashBestChain : s'.hashBestChain = s.hashBestChain
  nBestHeight : s'.nBestHeight = s.nBestHeight
  nBestChainTrust : s'.nBestChainTrust = s.nBestChainTrust

/-! ## The scan -/

/-- An entry before it is scored. -/
def CBlockIndex.unscored (pindex : CBlockIndex) : CBlockIndex :=
  { pindex with nChainTrust := 0, nStakeModifierChecksum := 0 }

theorem CBlockIndex.eq_of_unscored {e e' : CBlockIndex} (h : e'.unscored = e.unscored) :
    e'.pprev = e.pprev ∧ e'.nHeight = e.nHeight ∧ e'.nFlags = e.nFlags ∧ e'.nBits = e.nBits ∧
      e'.nStakeModifier = e.nStakeModifier ∧ e'.hashProofOfStake = e.hashProofOfStake := by
  simp only [CBlockIndex.unscored, CBlockIndex.mk.injEq] at h
  tauto

/-- An entry is made of its other fields and its scores. -/
theorem CBlockIndex.eq_of_scores {e e' : CBlockIndex} (h : e'.unscored = e.unscored)
    {nChainTrust : Uint256} {nStakeModifierChecksum : Nat} (htrust : nChainTrust = e.nChainTrust)
    (hsum : nStakeModifierChecksum = e.nStakeModifierChecksum) :
    { e' with nChainTrust := nChainTrust, nStakeModifierChecksum := nStakeModifierChecksum } = e := by
  subst htrust hsum
  exact congrArg (fun y : CBlockIndex => { y with
    nChainTrust := e.nChainTrust
    nStakeModifierChecksum := e.nStakeModifierChecksum }) h

theorem NodeState.pointerTo_getD {o : Option Uint256} (h : o ≠ some 0) :
    pointerTo (o.getD 0) = o := by
  cases o with
  | none => rfl
  | some k =>
    have : k ≠ 0 := fun hk => h (congrArg some hk)
    simp [pointerTo, this]

theorem NodeState.insertBlockIndex_apply (s : NodeState) (hash k : Uint256) :
    (s.insertBlockIndex hash).mapBlockIndex k =
      if k = hash ∧ hash ≠ 0 ∧ s.mapBlockIndex hash = none then some (CBlockIndex.blank hash)
      else s.mapBlockIndex k := by
  unfold NodeState.insertBlockIndex
  by_cases hk : k = hash
  · subst hk
    cases hs : s.mapBlockIndex k with
    | none =>
      by_cases hz : k = 0
      · subst hz
        simp [hs]
      · simp [hz]
    | some e => simp [hs]
  · split
    · simp [hk]
    · simp [hk]

/-- What the scan leaves of the fields that are not of the tree. -/
structure SameOutside (s s' : NodeState) : Prop where
  txdb : s'.txdb = s.txdb
  pindexBest : s'.pindexBest = s.pindexBest
  hashBestChain : s'.hashBestChain = s.hashBestChain
  nBestHeight : s'.nBestHeight = s.nBestHeight
  nBestChainTrust : s'.nBestChainTrust = s.nBestChainTrust

/-- The scan has read the records of `P`: their entries are there unscored, and of the others at
most a blank. -/
structure Scanned (s : NodeState) (P : List Uint256) (m : NodeState) : Prop where
  done : ∀ {h}, h ∈ P → m.mapBlockIndex h = (s.mapBlockIndex h).map CBlockIndex.unscored
  todo : ∀ {h}, h ∉ P → m.mapBlockIndex h = none ∨
    m.mapBlockIndex h = some (CBlockIndex.blank h) ∧ (s.mapBlockIndex h).isSome
  seen : ∀ x, x ∈ m.setStakeSeen ↔ ∃ h ∈ P, ∃ e, s.mapBlockIndex h = some e ∧
    e.isProofOfStake = true ∧ (e.prevoutStake, e.nStakeTime) = x
  genesis : m.pindexGenesisBlock =
    if NodeState.hashGenesisBlock ∈ P then some NodeState.hashGenesisBlock else none

theorem loadRecord_eq {m m₃ : NodeState} {d : CDiskBlockIndex} {blockHash : Uint256}
    (hhash : d.getBlockHash C = blockHash)
    (hm₃ : ((m.insertBlockIndex blockHash).insertBlockIndex d.hashPrev).insertBlockIndex d.hashNext =
      m₃) :
    (m.loadRecord C d).mapBlockIndex = Function.update m₃.mapBlockIndex blockHash
        ((m₃.mapBlockIndex blockHash).map fun pindexNew => { d.read with
          hash := pindexNew.hash
          pprev := NodeState.pointerTo d.hashPrev
          pnext := NodeState.pointerTo d.hashNext
          nChainTrust := pindexNew.nChainTrust
          nStakeModifierChecksum := pindexNew.nStakeModifierChecksum }) ∧
      (m.loadRecord C d).pindexGenesisBlock =
        (if m₃.pindexGenesisBlock = none ∧ blockHash = NodeState.hashGenesisBlock then
          some blockHash else m₃.pindexGenesisBlock) ∧
      (m.loadRecord C d).setStakeSeen =
        if d.read.isProofOfStake then (d.read.prevoutStake, d.read.nStakeTime) :: m₃.setStakeSeen
        else m₃.setStakeSeen := by
  subst hhash hm₃
  exact ⟨rfl, rfl, rfl⟩

namespace Scanned

variable {s m : NodeState} {P : List Uint256}

theorem insertBlockIndex (hm : Scanned s P m) {hash : Uint256}
    (hknown : hash = 0 ∨ (s.mapBlockIndex hash).isSome) : Scanned s P (m.insertBlockIndex hash) where
  done := by
    intro h hP
    rw [m.insertBlockIndex_apply, hm.done hP, if_neg]
    rintro ⟨rfl, hz, hnone⟩
    obtain ⟨e, he⟩ := Option.isSome_iff_exists.mp (hknown.resolve_left hz)
    rw [hm.done hP, he] at hnone
    cases hnone
  todo := by
    intro h hP
    rw [m.insertBlockIndex_apply]
    split
    · next hcond =>
      obtain ⟨rfl, hz, -⟩ := hcond
      exact .inr ⟨rfl, hknown.resolve_left hz⟩
    · exact hm.todo hP
  seen := by
    rw [show (m.insertBlockIndex hash).setStakeSeen = m.setStakeSeen by
      unfold NodeState.insertBlockIndex
      split
      · rfl
      · rfl]
    exact hm.seen
  genesis := by
    rw [show (m.insertBlockIndex hash).pindexGenesisBlock = m.pindexGenesisBlock by
      unfold NodeState.insertBlockIndex
      split
      · rfl
      · rfl]
    exact hm.genesis

/-- What is filed under a scanned or a blank hash has no scores. -/
theorem scores_eq_zero (hm : Scanned s P m) (hhash : ∀ {h e}, s.mapBlockIndex h = some e → e.hash = h)
    {h : Uint256} {x : CBlockIndex} (hx : m.mapBlockIndex h = some x) :
    x.hash = h ∧ x.nChainTrust = 0 ∧ x.nStakeModifierChecksum = 0 := by
  by_cases hP : h ∈ P
  · rw [hm.done hP] at hx
    obtain ⟨e, he, rfl⟩ := Option.map_eq_some_iff.mp hx
    have heh : e.hash = h := hhash he
    exact ⟨heh, rfl, rfl⟩
  · rcases hm.todo hP with hnone | ⟨hblank, -⟩
    · rw [hnone] at hx
      cases hx
    · obtain rfl := Option.some.inj (hblank.symm.trans hx)
      exact ⟨rfl, rfl, rfl⟩

/-- The entry a round of the scan makes of the record of `e`. -/
theorem read_eq_unscored (hs : Entered C s) {h : Uint256} {e x : CBlockIndex}
    (he : s.mapBlockIndex h = some e) (hprev : e.pprev ≠ some 0) (hnext : e.pnext ≠ some 0)
    (hx : x.hash = h ∧ x.nChainTrust = 0 ∧ x.nStakeModifierChecksum = 0) :
    { (CDiskBlockIndex.ofIndex e).read with
      hash := x.hash
      pprev := NodeState.pointerTo (CDiskBlockIndex.ofIndex e).hashPrev
      pnext := NodeState.pointerTo (CDiskBlockIndex.ofIndex e).hashNext
      nChainTrust := x.nChainTrust
      nStakeModifierChecksum := x.nStakeModifierChecksum } = e.unscored := by
  have hhash := hs.hash_eq he
  simp only [CDiskBlockIndex.read, CDiskBlockIndex.ofIndex, CBlockIndex.unscored, hx.1, hx.2.1,
    hx.2.2, NodeState.pointerTo_getD hprev, NodeState.pointerTo_getD hnext, ← hhash]
  by_cases hpos : e.isProofOfStake = true
  · simp only [hpos, if_true]
  · obtain ⟨hprevout, htime, hproof⟩ := hs.stake he (by simpa using hpos)
    simp only [if_neg hpos, hprevout, htime, hproof]

/-- **One round of the scan** files the entry of its record. -/
theorem loadRecord (hs : Entered C s)
    (hnext : ∀ {h k}, s.nextOf h = some k → (s.mapBlockIndex k).isSome)
    (hm : Scanned s P m) {h : Uint256} {e : CBlockIndex} (he : s.mapBlockIndex h = some e) :
    Scanned s (h :: P) (m.loadRecord C (CDiskBlockIndex.ofIndex e)) := by
  have hne : ∀ k, (s.mapBlockIndex k).isSome → k ≠ 0 := by
    rintro k hk rfl
    rw [hs.zero] at hk
    cases hk
  have hlink : ∀ {o : Option Uint256}, (∀ k, o = some k → (s.mapBlockIndex k).isSome) →
      o ≠ some 0 ∧ (o.getD 0 = 0 ∨ (s.mapBlockIndex (o.getD 0)).isSome) := by
    intro o ho
    cases o with
    | none => exact ⟨by simp, .inl rfl⟩
    | some k => exact ⟨fun hk => hne k (ho k rfl) (Option.some.inj hk), .inr (ho k rfl)⟩
  obtain ⟨hprev0, hprev⟩ := hlink (o := e.pprev) fun k hk => by
    obtain ⟨e', he', -⟩ := hs.parent he hk
    exact Option.isSome_iff_exists.mpr ⟨e', he'⟩
  obtain ⟨hnext0, hnextk⟩ := hlink (o := e.pnext) fun k hk => by
    refine hnext (h := h) ?_
    rw [NodeState.nextOf, he]
    exact hk
  have hh : (s.mapBlockIndex h).isSome := Option.isSome_iff_exists.mpr ⟨e, he⟩
  -- the three entries the round may make
  have hm₁ := hm.insertBlockIndex (.inr hh)
  have hsome₁ : ((m.insertBlockIndex h).mapBlockIndex h).isSome := by
    rw [m.insertBlockIndex_apply]
    cases hmh : m.mapBlockIndex h with
    | none => simp [hne h hh]
    | some x => simp
  have hm₃ := (hm₁.insertBlockIndex hprev).insertBlockIndex hnextk
  have hkeep : ∀ (m' : NodeState) (hash : Uint256), (m'.mapBlockIndex h).isSome →
      ((m'.insertBlockIndex hash).mapBlockIndex h).isSome := by
    intro m' hash hsome
    rw [m'.insertBlockIndex_apply]
    split
    · rfl
    · exact hsome
  have hsome₃ := hkeep _ (e.pnext.getD 0) (hkeep _ (e.pprev.getD 0) hsome₁)
  generalize hm₃eq : ((m.insertBlockIndex h).insertBlockIndex (e.pprev.getD 0)).insertBlockIndex
    (e.pnext.getD 0) = m₃ at hm₃ hsome₃
  obtain ⟨hmap, hgen, hseen⟩ := loadRecord_eq (hs.header he) hm₃eq
  obtain ⟨x, hx⟩ := Option.isSome_iff_exists.mp hsome₃
  rw [hx, Option.map_some,
    read_eq_unscored hs he hprev0 hnext0 (hm₃.scores_eq_zero hs.hash_eq hx)] at hmap
  refine ⟨?_, ?_, ?_, ?_⟩
  · intro k hk
    rw [hmap]
    by_cases hkh : k = h
    · subst hkh
      rw [Function.update_self, he, Option.map_some]
    · rw [Function.update_of_ne hkh]
      exact hm₃.done ((List.mem_cons.mp hk).resolve_left hkh)
  · intro k hk
    obtain ⟨hkh, hkP⟩ := not_or.mp (fun hor => hk (List.mem_cons.mpr hor))
    rw [hmap, Function.update_of_ne hkh]
    exact hm₃.todo hkP
  · intro y
    have hread : (CDiskBlockIndex.ofIndex e).read.isProofOfStake = e.isProofOfStake := rfl
    rw [hseen, hread]
    cases hpos : e.isProofOfStake with
    | true =>
      have hstake : ((CDiskBlockIndex.ofIndex e).read.prevoutStake,
          (CDiskBlockIndex.ofIndex e).read.nStakeTime) = (e.prevoutStake, e.nStakeTime) := by
        simp [CDiskBlockIndex.read, CDiskBlockIndex.ofIndex, hpos]
      rw [if_pos rfl, hstake, List.mem_cons, hm₃.seen, List.exists_mem_cons_iff]
      simp only [he, Option.some.injEq, exists_eq_left', hpos, true_and, eq_comm (a := y)]
    | false =>
      rw [if_neg (by simp), hm₃.seen, List.exists_mem_cons_iff]
      simp only [he, Option.some.injEq, exists_eq_left', hpos, Bool.false_eq_true, false_and,
        false_or]
  · rw [hgen, hm₃.genesis]
    by_cases hG : NodeState.hashGenesisBlock ∈ P
    · simp [hG]
    · by_cases hhG : h = NodeState.hashGenesisBlock
      · simp [hG, hhG]
      · simp [hG, hhG, Ne.symm hhG]

end Scanned

theorem SameOutside.refl (s : NodeState) : SameOutside s s := ⟨rfl, rfl, rfl, rfl, rfl⟩

theorem SameOutside.trans {s s' s'' : NodeState} (h : SameOutside s s') (h' : SameOutside s' s'') :
    SameOutside s s'' :=
  ⟨h'.1.trans h.1, h'.2.trans h.2, h'.3.trans h.3, h'.4.trans h.4, h'.5.trans h.5⟩

theorem insertBlockIndex_sameOutside (m : NodeState) (hash : Uint256) :
    SameOutside m (m.insertBlockIndex hash) := by
  unfold NodeState.insertBlockIndex
  split
  · exact SameOutside.refl m
  · exact ⟨rfl, rfl, rfl, rfl, rfl⟩

theorem loadRecord_sameOutside (m : NodeState) (d : CDiskBlockIndex) :
    SameOutside m (m.loadRecord C d) := by
  have hinsert := ((insertBlockIndex_sameOutside m (d.getBlockHash C)).trans
    (insertBlockIndex_sameOutside _ d.hashPrev)).trans (insertBlockIndex_sameOutside _ d.hashNext)
  exact hinsert.trans ⟨rfl, rfl, rfl, rfl, rfl⟩

/-- **The scan** files the entry of every record. -/
theorem foldl_loadRecord_spec {s : NodeState} (hs : Entered C s)
    (hnext : ∀ {h k}, s.nextOf h = some k → (s.mapBlockIndex k).isSome)
    (keys : List Uint256) {P : List Uint256} {m : NodeState} (hm : Scanned s P m) :
    (∃ P', (∀ h, (s.mapBlockIndex h).isSome → (h ∈ P' ↔ h ∈ P ∨ h ∈ keys)) ∧
      (∀ h, h ∈ P' → h ∈ P ∨ (s.mapBlockIndex h).isSome) ∧
      Scanned s P' ((keys.filterMap fun h => (s.mapBlockIndex h).map
        CDiskBlockIndex.ofIndex).foldl (NodeState.loadRecord C) m)) ∧
      SameOutside m ((keys.filterMap fun h => (s.mapBlockIndex h).map
        CDiskBlockIndex.ofIndex).foldl (NodeState.loadRecord C) m) := by
  induction keys generalizing P m with
  | nil => exact ⟨⟨P, by simp, fun h hP => .inl hP, hm⟩, SameOutside.refl m⟩
  | cons h keys ih =>
    cases he : s.mapBlockIndex h with
    | none =>
      obtain ⟨⟨P', hmem, hsub, hscan⟩, hout⟩ := ih hm
      refine ⟨⟨P', fun k hk => ?_, hsub, by simpa [he] using hscan⟩, by simpa [he] using hout⟩
      have hkh : k ≠ h := by
        rintro rfl
        rw [he] at hk
        cases hk
      rw [hmem k hk, List.mem_cons, or_iff_right hkh]
    | some e =>
      obtain ⟨⟨P', hmem, hsub, hscan⟩, hout⟩ := ih (hm.loadRecord hs hnext he)
      refine ⟨⟨P', fun k hk => ?_, fun k hk => ?_, by simpa [he] using hscan⟩, ?_⟩
      · rw [hmem k hk, List.mem_cons, List.mem_cons]
        tauto
      · rcases hsub k hk with hP | hknown
        · rcases List.mem_cons.mp hP with rfl | hP
          · exact .inr (by rw [he]; rfl)
          · exact .inl hP
        · exact .inr hknown
      · have := (loadRecord_sameOutside (C := C) m (CDiskBlockIndex.ofIndex e)).trans hout
        simpa [he] using this

/-! ## The scores -/

/-- Scoring has reached the entries of `P`. -/
structure Scored (s : NodeState) (P : List Uint256) (m : NodeState) : Prop where
  done : ∀ {h}, h ∈ P → m.mapBlockIndex h = s.mapBlockIndex h
  todo : ∀ {h}, h ∉ P → m.mapBlockIndex h = (s.mapBlockIndex h).map CBlockIndex.unscored

/-- **Scoring by height** gives the scores back: the parent of an entry is lower, so its turn has
come. -/
theorem loadScores_spec {s : NodeState} (hs : Entered C s) (v : List Uint256) :
    ∀ {P : List Uint256} {m : NodeState}, Scored s P m →
      (∀ h, (s.mapBlockIndex h).isSome → h ∈ P ∨ h ∈ v) →
      v.Pairwise (fun a b => s.heightOf a ≤ s.heightOf b) →
      (m.loadScores C v).1 = true ∧
        (m.loadScores C v).2.mapBlockIndex = s.mapBlockIndex ∧
        (m.loadScores C v).2.setStakeSeen = m.setStakeSeen ∧
        (m.loadScores C v).2.pindexGenesisBlock = m.pindexGenesisBlock ∧
        SameOutside m (m.loadScores C v).2 := by
  induction v with
  | nil =>
    intro P m hm hall _
    refine ⟨rfl, funext fun h => ?_, rfl, rfl, SameOutside.refl m⟩
    by_cases hP : h ∈ P
    · exact hm.done hP
    · have hnone : s.mapBlockIndex h = none := by
        rw [← Option.not_isSome_iff_eq_none]
        exact fun hsome => hP ((hall h hsome).resolve_right (by simp))
      simp only [NodeState.loadScores, hm.todo hP, hnone, Option.map_none]
  | cons h v ih =>
    intro P m hm hall hsorted
    obtain ⟨hlow, hsorted'⟩ := List.pairwise_cons.mp hsorted
    cases he : s.mapBlockIndex h with
    | none =>
      have hmh : m.mapBlockIndex h = none := by
        by_cases hP : h ∈ P
        · rw [hm.done hP, he]
        · rw [hm.todo hP, he, Option.map_none]
      simp only [NodeState.loadScores, hmh]
      refine ih hm (fun k hk => ?_) hsorted'
      have hkh : k ≠ h := by
        rintro rfl
        rw [he] at hk
        cases hk
      rcases hall k hk with hP | hv
      · exact .inl hP
      · exact .inr ((List.mem_cons.mp hv).resolve_left hkh)
    | some e =>
      obtain ⟨x, hx, hun⟩ : ∃ x, m.mapBlockIndex h = some x ∧ x.unscored = e.unscored := by
        by_cases hP : h ∈ P
        · exact ⟨e, by rw [hm.done hP, he], rfl⟩
        · exact ⟨e.unscored, by rw [hm.todo hP, he, Option.map_some], rfl⟩
      obtain ⟨hpprev, hheight, hflags, hbits, hmodifier, hproof⟩ := CBlockIndex.eq_of_unscored hun
      -- the parent of the entry has been scored
      have hparent : x.pprev.bind m.mapBlockIndex = e.pprev.bind s.mapBlockIndex := by
        rw [hpprev]
        cases hp : e.pprev with
        | none => rfl
        | some p =>
          obtain ⟨e', he', habove⟩ := hs.parent he hp
          have hlt : s.heightOf p < s.heightOf h := by
            simp only [NodeState.heightOf, he, he', Option.map_some, Option.getD_some]
            omega
          have hpP : p ∈ P := by
            refine (hall p (by rw [he']; rfl)).resolve_right fun hv => ?_
            rcases List.mem_cons.mp hv with rfl | hv
            · exact Nat.lt_irrefl _ hlt
            · exact Nat.not_lt.mpr (hlow p hv) hlt
          exact hm.done hpP
      have hroot : ¬ (x.pprev = none ∧ h ≠ NodeState.hashGenesisBlock) := by
        rintro ⟨hnone, hne⟩
        exact hne (hs.root he (hpprev.symm.trans hnone))
      have hsum : C.hashChecksum ((x.pprev.bind m.mapBlockIndex).map
          CBlockIndex.nStakeModifierChecksum) x.nFlags x.hashProofOfStake x.nStakeModifier =
          e.nStakeModifierChecksum := by
        rw [hparent, hflags, hmodifier, hproof, hs.checksum he]
      have hcheck : NodeState.checkStakeModifierCheckpoints x.nHeight e.nStakeModifierChecksum =
          true := by
        rw [hheight]
        exact hs.checkpoint he
      have hentry : { x with
          nChainTrust := ((x.pprev.bind m.mapBlockIndex).map CBlockIndex.nChainTrust).getD 0 +
            NodeState.getBlockTrust x.nBits
          nStakeModifierChecksum := e.nStakeModifierChecksum } = e := by
        refine CBlockIndex.eq_of_scores hun ?_ rfl
        rw [hparent, hbits, ← hs.nChainTrust he]
      simp only [NodeState.loadScores, hx, if_neg hroot, hsum, hcheck, if_true]
      have hmap : (m.modifyIndex h fun pindex => { pindex with
          nChainTrust := ((x.pprev.bind m.mapBlockIndex).map CBlockIndex.nChainTrust).getD 0 +
            NodeState.getBlockTrust pindex.nBits
          nStakeModifierChecksum := e.nStakeModifierChecksum }).mapBlockIndex =
          Function.update m.mapBlockIndex h (some e) := by
        simp only [NodeState.modifyIndex, hx, Option.map_some, hentry]
      have hstep : Scored s (h :: P) (m.modifyIndex h fun pindex => { pindex with
          nChainTrust := ((x.pprev.bind m.mapBlockIndex).map CBlockIndex.nChainTrust).getD 0 +
            NodeState.getBlockTrust pindex.nBits
          nStakeModifierChecksum := e.nStakeModifierChecksum }) := by
        constructor
        · intro k hk
          rw [hmap]
          by_cases hkh : k = h
          · subst hkh
            rw [Function.update_self, he]
          · rw [Function.update_of_ne hkh]
            exact hm.done ((List.mem_cons.mp hk).resolve_left hkh)
        · intro k hk
          obtain ⟨hkh, hkP⟩ := not_or.mp (fun hor => hk (List.mem_cons.mpr hor))
          rw [hmap, Function.update_of_ne hkh]
          exact hm.todo hkP
      obtain ⟨hok, hfinal, hseen, hgen, hout⟩ := ih hstep (fun k hk => by
        rcases hall k hk with hP | hv
        · exact .inl (List.mem_cons_of_mem _ hP)
        · rcases List.mem_cons.mp hv with rfl | hv
          · exact .inl List.mem_cons_self
          · exact .inr hv) hsorted'
      exact ⟨hok, hfinal, hseen, hgen, hout.1, hout.2, hout.3, hout.4, hout.5⟩

/-! ## LoadBlockIndex -/

theorem heightOf_unscored {s m : NodeState}
    (h : ∀ k, m.mapBlockIndex k = (s.mapBlockIndex k).map CBlockIndex.unscored) :
    m.heightOf = s.heightOf := by
  funext k
  simp only [NodeState.heightOf, h k, Option.map_map]
  rfl

/-- A read gives what was written. -/
theorem read_serialized (d : CDiskBlockIndex) : d.serialized.read = d.read := by
  have hpos : d.serialized.index.isProofOfStake = d.index.isProofOfStake := rfl
  cases h : d.index.isProofOfStake with
  | true =>
    rw [h] at hpos
    simp only [CDiskBlockIndex.read, hpos, h, if_true]
    simp [CDiskBlockIndex.serialized, CDiskBlockIndex.read, h]
  | false =>
    rw [h] at hpos
    simp only [CDiskBlockIndex.read, hpos, h]
    simp [CDiskBlockIndex.serialized, CDiskBlockIndex.read]

theorem loadRecord_serialized (m : NodeState) (d : CDiskBlockIndex) :
    m.loadRecord C d.serialized = m.loadRecord C d := by
  unfold NodeState.loadRecord
  rw [read_serialized]
  rfl

/-- The scan depends on what is written of the records. -/
theorem foldl_loadRecord_congr {records records' : List CDiskBlockIndex}
    (h : records.map CDiskBlockIndex.serialized = records'.map CDiskBlockIndex.serialized)
    (m : NodeState) :
    records.foldl (NodeState.loadRecord C) m = records'.foldl (NodeState.loadRecord C) m := by
  have hmap : ∀ l : List CDiskBlockIndex, (l.map CDiskBlockIndex.serialized).foldl
      (NodeState.loadRecord C) m = l.foldl (NodeState.loadRecord C) m := by
    intro l
    simp only [List.foldl_map, loadRecord_serialized]
  rw [← hmap records, ← hmap records', h]

theorem loadedKeys_congr {records records' : List CDiskBlockIndex}
    (h : records.map CDiskBlockIndex.serialized = records'.map CDiskBlockIndex.serialized) :
    NodeState.loadedKeys C records = NodeState.loadedKeys C records' := by
  have hmap : ∀ l : List CDiskBlockIndex,
      NodeState.loadedKeys C (l.map CDiskBlockIndex.serialized) = NodeState.loadedKeys C l := by
    intro l
    unfold NodeState.loadedKeys
    rw [List.flatMap_map]
    rfl
  rw [← hmap records, ← hmap records', h]

/-- The keys after the scan are those of the entries. -/
theorem mem_loadedKeys {s : NodeState} (hs : Entered C s) {keys : List Uint256}
    (hkeys : ∀ {h}, (s.mapBlockIndex h).isSome → h ∈ keys) {h : Uint256}
    (hh : (s.mapBlockIndex h).isSome) :
    h ∈ NodeState.loadedKeys C (keys.filterMap fun h => (s.mapBlockIndex h).map
      CDiskBlockIndex.ofIndex) := by
  obtain ⟨e, he⟩ := Option.isSome_iff_exists.mp hh
  have hne : h ≠ 0 := by
    rintro rfl
    rw [hs.zero] at he
    cases he
  have hmem : h ∈ keys := hkeys hh
  unfold NodeState.loadedKeys
  rw [List.mem_dedup, List.mem_filter]
  refine ⟨List.mem_flatMap.mpr ⟨CDiskBlockIndex.ofIndex e, ?_, ?_⟩, by simpa using hne⟩
  · exact List.mem_filterMap.mpr ⟨h, hmem, by rw [he]; rfl⟩
  · rw [hs.header he]
    exact List.mem_cons_self

theorem restart_read {s : NodeState} (k : DbKey) : s.restart.txdb.read k = s.txdb.content k := rfl

/-- **`LoadBlockIndex` rebuilds a recorded node** from its committed records, in whatever order they
are scanned. -/
theorem Recorded.loadBlockIndex {s : NodeState} (hs : Recorded C s) {keys : List Uint256}
    (hkeys : Enumerates s keys) :
    (s.restart.loadBlockIndex C keys).1 = true ∧ Rebuilt s (s.restart.loadBlockIndex C keys).2 := by
  have hentered := hs.disk.entered
  have hrecords : (keys.filterMap fun h => s.restart.txdb.read (.blockindex h)).map
      CDiskBlockIndex.serialized = (keys.filterMap fun h => (s.mapBlockIndex h).map
        CDiskBlockIndex.ofIndex).map CDiskBlockIndex.serialized := by
    rw [List.map_filterMap, List.map_filterMap]
    refine List.filterMap_congr fun h _ => ?_
    rw [restart_read, hs.disk.records h, Option.map_map]
    cases he : s.mapBlockIndex h with
    | none => rfl
    | some e => simp [NodeState.nextOf, he, CBlockIndex.record, CDiskBlockIndex.serialized,
        CDiskBlockIndex.ofIndex]
  have hknown : ∀ {h}, h ∈ keys ↔ (s.mapBlockIndex h).isSome := by
    intro h
    rw [hkeys h, ← Option.isSome_map (f := CDiskBlockIndex.serialized), hs.disk.records h,
      Option.isSome_map]
  have hstart : Scanned s [] s.restart := by
    refine ⟨by simp, fun _ => .inl rfl, ?_, rfl⟩
    simp [NodeState.restart]
  obtain ⟨⟨P, hP, hPsub, hscan⟩, hout⟩ := foldl_loadRecord_spec hentered hs.disk.next keys hstart
  unfold NodeState.loadBlockIndex
  simp only [foldl_loadRecord_congr hrecords, loadedKeys_congr hrecords]
  have hsorted := fun {h} (hh : (s.mapBlockIndex h).isSome) =>
    mem_loadedKeys hentered hknown.mpr hh
  generalize NodeState.loadedKeys C (keys.filterMap fun h => (s.mapBlockIndex h).map
    CDiskBlockIndex.ofIndex) = v at hsorted
  generalize (keys.filterMap fun h => (s.mapBlockIndex h).map CDiskBlockIndex.ofIndex).foldl
    (NodeState.loadRecord C) s.restart = m at hscan hout
  have hmem : ∀ {h}, h ∈ P ↔ (s.mapBlockIndex h).isSome := by
    intro h
    constructor
    · exact fun h' => (hPsub h h').resolve_left (by simp)
    · exact fun h' => (hP h h').mpr (.inr (hknown.mpr h'))
  have hmap : ∀ h, m.mapBlockIndex h = (s.mapBlockIndex h).map CBlockIndex.unscored := by
    intro h
    by_cases hh : h ∈ P
    · exact hscan.done hh
    · rcases hscan.todo hh with hnone | ⟨-, hsome⟩
      · have hs' : s.mapBlockIndex h = none := by
          rw [← Option.not_isSome_iff_eq_none]
          exact fun hsome => hh (hmem.mpr hsome)
        rw [hnone, hs', Option.map_none]
      · exact absurd (hmem.mpr hsome) hh
  have hpair : (v.insertionSort fun a b => m.heightOf a ≤ m.heightOf b).Pairwise
      fun a b => s.heightOf a ≤ s.heightOf b := by
    rw [heightOf_unscored hmap]
    have : Std.Total fun a b => s.heightOf a ≤ s.heightOf b := ⟨fun a b => Nat.le_total _ _⟩
    have : IsTrans Uint256 fun a b => s.heightOf a ≤ s.heightOf b :=
      ⟨fun _ _ _ => Nat.le_trans⟩
    exact List.pairwise_insertionSort _ v
  obtain ⟨hok, hentries, hseen, hgen, hout'⟩ := loadScores_spec hentered
    (v.insertionSort fun a b => m.heightOf a ≤ m.heightOf b) (P := [])
    ⟨by simp, fun _ => hmap _⟩ (fun h hh => .inr ((List.mem_insertionSort _).mpr (hsorted hh))) hpair
  have hseen' : ∀ x, x ∈ (m.loadScores C (v.insertionSort fun a b =>
      m.heightOf a ≤ m.heightOf b)).2.setStakeSeen ↔ x ∈ s.setStakeSeen := by
    intro x
    rw [hseen, hscan.seen, hentered.seen]
    constructor
    · rintro ⟨h, -, e, he, hrest⟩
      exact ⟨h, e, he, hrest⟩
    · rintro ⟨h, e, he, hrest⟩
      exact ⟨h, hmem.mpr (by rw [he]; rfl), e, he, hrest⟩
  have hgen' : (m.loadScores C (v.insertionSort fun a b =>
      m.heightOf a ≤ m.heightOf b)).2.pindexGenesisBlock = s.pindexGenesisBlock := by
    rw [hgen, hscan.genesis, hs.genesis, if_congr hmem rfl rfl]
  have hout₂ := hout.trans hout'
  rw [if_pos hok]
  generalize (m.loadScores C (v.insertionSort fun a b => m.heightOf a ≤ m.heightOf b)).2 = r at *
  have hread : ∀ k, r.txdb.read k = s.txdb.content k := fun k => by
    rw [hout₂.txdb]
    exact restart_read k
  unfold NodeState.loadBest
  simp only [hread, hs.best]
  cases hbest : s.pindexBest with
  | none =>
    obtain ⟨hnogen, hhash, hheight, htrust⟩ := hs.tip.none hbest
    refine ⟨by simp [hgen', hnogen], hentries, hseen', hgen', ?_, ?_, ?_, ?_⟩
    · rw [hout₂.pindexBest, hbest]
      rfl
    · rw [hout₂.hashBestChain, hhash]
      rfl
    · rw [hout₂.nBestHeight, hheight]
      rfl
    · rw [hout₂.nBestChainTrust, htrust]
      rfl
  | some t =>
    obtain ⟨e, he, hhash, hheight, htrust⟩ := hs.tip.some hbest
    obtain ⟨c, hc⟩ := Option.isSome_iff_exists.mp (hs.syncCheckpoint (by rw [hbest]; rfl))
    simp only [hentries, he, hc]
    exact ⟨trivial, rfl, hseen', hgen', hbest.symm, hhash.symm, hheight.symm, htrust.symm⟩

end MotaCoin
