import MotaCoin.BlockTree
import MotaCoin.Lib.AssocFold

/-!
# The books of the orphan blocks

`ProcessBlock` keeps the orphans in two maps and their stakes in a set. The maps hold the same blocks
along every run, and no orphan is in the block tree. The set loses a stake when one of two orphans
that share it leaves the maps, so it is only right as long as no orphan that waits for an accepted
block shares its stake with another one.

## Main definitions

* `BlockState.Booked`: the two maps, the set of stakes and the block tree fit together
* `BlockState.Awaits`: an orphan waits for a block, through other orphans
* `BlockState.Unshared`: no orphan that waits for the block shares its stake

## Main results

* `Booked.drainStep`, `Booked.processBlock`: what a round and a call preserve
* `blockRun_booked`: the books along runs
-/

namespace MotaCoin

variable {C : Crypto} {env : Uint256 → Env}

/-! ## The books -/

namespace BlockState

/-- The block is stored as an orphan. -/
def Stored (s : BlockState) (b : CBlock) : Prop := (b.hashPrevBlock, b) ∈ s.mapOrphanBlocksByPrev

variable (C) in
/-- **The books are kept**: the two maps hold the same blocks, each under its own hash and its own
previous hash, the set has the stakes of the stored proof-of-stake orphans, and no orphan is in the
block tree. -/
structure Booked (s : BlockState) : Prop where
  lookup_iff : ∀ h b, s.mapOrphanBlocks.lookup h = some b ↔ b.getHash C = h ∧ s.Stored b
  keyed : ∀ p ∈ s.mapOrphanBlocksByPrev, p.1 = p.2.hashPrevBlock
  nodup : s.mapOrphanBlocksByPrev.Nodup
  stake_iff : ∀ x, x ∈ s.setStakeSeenOrphan ↔
    ∃ b, s.Stored b ∧ b.isProofOfStake = true ∧ b.getProofOfStake = x
  unindexed : ∀ h, (s.mapOrphanBlocks.lookup h).isSome → s.hasIndex h = false

/-- There is no orphan. -/
structure NoOrphans (s : BlockState) : Prop where
  byHash : ∀ h, s.mapOrphanBlocks.lookup h = none
  byPrev : s.mapOrphanBlocksByPrev = []
  stakes : s.setStakeSeenOrphan = ∅

variable (C) in
/-- The stored block `b` waits for the block `hash`, directly or through other orphans. -/
inductive Awaits (s : BlockState) (hash : Uint256) : CBlock → Prop
  | child {b : CBlock} : s.Stored b → b.hashPrevBlock = hash → Awaits s hash b
  | step {b b' : CBlock} : Awaits s hash b → s.Stored b' → b'.hashPrevBlock = b.getHash C →
    Awaits s hash b'

variable (C) in
/-- If the call goes on to accept the block, no orphan that waits for it shares its stake with
another one. -/
def Unshared (env : Uint256 → Env) (s : BlockState) (b : CBlock) : Prop :=
  s.processChecks C env b = true → s.hasIndex b.hashPrevBlock = true →
    ∀ o o', s.Awaits C (b.getHash C) o → s.Stored o' → o.isProofOfStake = true →
      o'.isProofOfStake = true → o.getProofOfStake = o'.getProofOfStake → o = o'

theorem hasIndex_eq_false_iff {s : BlockState} {h : Uint256} :
    s.hasIndex h = false ↔ s.node.mapBlockIndex h = none ∧ h ∉ s.nullIndex := by
  simp [hasIndex]

theorem mem_orphansOf {s : BlockState}
    (hkeyed : ∀ p ∈ s.mapOrphanBlocksByPrev, p.1 = p.2.hashPrevBlock) {hashPrev : Uint256} {b : CBlock} :
    b ∈ s.orphansOf hashPrev ↔ s.Stored b ∧ b.hashPrevBlock = hashPrev := by
  simp only [orphansOf, List.mem_map, List.mem_filter, beq_iff_eq]
  constructor
  · rintro ⟨p, ⟨hp, rfl⟩, rfl⟩
    have hkey := hkeyed p hp
    refine ⟨?_, hkey.symm⟩
    rw [Stored, ← hkey]
    exact hp
  · rintro ⟨hstored, hprev⟩
    exact ⟨(b.hashPrevBlock, b), ⟨hstored, hprev⟩, rfl⟩

theorem NoOrphans.booked {s : BlockState} (h : s.NoOrphans) : s.Booked C where
  lookup_iff := by simp [h.byHash, h.byPrev, Stored]
  keyed := by simp [h.byPrev]
  nodup := by simp [h.byPrev]
  stake_iff := by simp [h.stakes, h.byPrev, Stored]
  unindexed := by simp [h.byHash]

end BlockState

/-- A proof-of-stake block has a stake, which no proof-of-work block has. -/
theorem CBlock.getProofOfStake_ne {b b' : CBlock} (h : b.isProofOfStake = true)
    (h' : b'.isProofOfStake = false) : b.getProofOfStake ≠ b'.getProofOfStake := by
  have hwork : b'.getProofOfStake = (COutPoint.null, 0) := by
    unfold CBlock.getProofOfStake
    rw [h']
  rw [hwork]
  unfold CBlock.getProofOfStake
  rw [h]
  unfold CBlock.isProofOfStake at h
  split at h
  · next coinbase coinstake rest hvtx =>
    rw [hvtx]
    unfold CTransaction.isCoinStake at h
    split at h
    · next txin vin o₀ o₁ vout hvin hvout =>
      simp only [Bool.and_eq_true, Bool.not_eq_true'] at h
      intro heq
      have hnull : txin.prevout = COutPoint.null := by simpa [hvin] using congrArg Prod.fst heq
      rw [hnull] at h
      exact absurd h.1 (by decide)
    · cases h
  · cases h

/-! ## Storing an orphan -/

namespace BlockState

variable {s : BlockState}

theorem Booked.storeOrphan (h : s.Booked C) {b : CBlock} (hindex : s.hasIndex (b.getHash C) = false)
    (hnew : s.mapOrphanBlocks.lookup (b.getHash C) = none) : (s.storeOrphan C b).2.Booked C := by
  have hstored : ¬ s.Stored b := by
    intro hb
    rw [(h.lookup_iff _ b).mpr ⟨rfl, hb⟩] at hnew
    cases hnew
  unfold BlockState.storeOrphan
  simp only
  split
  · exact h
  · have hmem : ∀ b', (b'.hashPrevBlock, b') ∈ s.mapOrphanBlocksByPrev ++ [(b.hashPrevBlock, b)] ↔
        s.Stored b' ∨ b' = b := by
      intro b'
      simp only [List.mem_append, List.mem_singleton, Prod.mk.injEq]
      exact or_congr Iff.rfl ⟨fun h => h.2, fun h => ⟨by rw [h], h⟩⟩
    constructor
    · intro k b'
      simp only [Stored]
      rw [hmem]
      by_cases hk : k = b.getHash C
      · subst hk
        rw [AList.lookup_insert, Option.some.injEq]
        constructor
        · rintro rfl
          exact ⟨rfl, Or.inr rfl⟩
        · rintro ⟨heq, hb' | rfl⟩
          · rw [← heq, (h.lookup_iff _ b').mpr ⟨rfl, hb'⟩] at hnew
            cases hnew
          · rfl
      · rw [AList.lookup_insert_ne hk, h.lookup_iff]
        refine and_congr_right fun heq => ⟨Or.inl, fun hb' => hb'.resolve_right ?_⟩
        rintro rfl
        exact hk heq.symm
    · intro p hp
      rcases List.mem_append.mp hp with hp | hp
      · exact h.keyed p hp
      · rw [List.mem_singleton.mp hp]
    · refine List.nodup_append.mpr ⟨h.nodup, List.nodup_singleton _, ?_⟩
      rintro p hp q hq rfl
      rw [List.mem_singleton.mp hq] at hp
      exact hstored hp
    · intro x
      have hsplit : (∃ b', (b'.hashPrevBlock, b') ∈ s.mapOrphanBlocksByPrev ++
          [(b.hashPrevBlock, b)] ∧ b'.isProofOfStake = true ∧ b'.getProofOfStake = x) ↔
          x ∈ s.setStakeSeenOrphan ∨ b.isProofOfStake = true ∧ b.getProofOfStake = x := by
        simp only [hmem, h.stake_iff]
        constructor
        · rintro ⟨b', hb' | rfl, hpos⟩
          · exact Or.inl ⟨b', hb', hpos⟩
          · exact Or.inr hpos
        · rintro (⟨b', hb', hpos⟩ | hpos)
          · exact ⟨b', Or.inl hb', hpos⟩
          · exact ⟨b, Or.inr rfl, hpos⟩
      refine Iff.trans ?_ hsplit.symm
      split
      · next hpos =>
        rw [Finset.mem_insert, hpos, or_comm, eq_comm (a := x)]
        simp
      · next hwork => simp [hwork]
    · intro k hk
      by_cases hkb : k = b.getHash C
      · rw [hkb]
        exact hindex
      · rw [AList.lookup_insert_ne hkb] at hk
        exact h.unindexed k hk

end BlockState

/-! ## Draining -/

namespace BlockWork

variable (C env) in
/-- The inner loop takes the blocks out of the map and their stakes out of the set. -/
theorem foldl_drainOrphan_books (bs : List CBlock) (w : BlockWork) :
    (∀ h, (bs.foldl (drainOrphan C env) w).state.mapOrphanBlocks.lookup h =
      if h ∈ bs.map (CBlock.getHash C) then none else w.state.mapOrphanBlocks.lookup h) ∧
    (∀ x, x ∈ (bs.foldl (drainOrphan C env) w).state.setStakeSeenOrphan ↔
      x ∈ w.state.setStakeSeenOrphan ∧ ∀ b ∈ bs, b.getProofOfStake ≠ x) ∧
    ∀ h ∈ (bs.foldl (drainOrphan C env) w).vWorkQueue,
      h ∈ w.vWorkQueue ∨ h ∈ bs.map (CBlock.getHash C) := by
  induction bs generalizing w with
  | nil => simp
  | cons b bs ih =>
    obtain ⟨hlook, hstake, hqueue⟩ := ih (drainOrphan C env w b)
    refine ⟨fun h => ?_, fun x => ?_, fun h hh => ?_⟩
    · rw [List.foldl_cons, hlook]
      by_cases hb : h = b.getHash C
      · subst hb
        simp [drainOrphan]
      · simp [drainOrphan, hb, AList.lookup_erase_ne hb]
    · rw [List.foldl_cons, hstake, List.forall_mem_cons]
      simp only [drainOrphan, Finset.mem_erase]
      rw [ne_comm]
      tauto
    · rcases hqueue h hh with hmem | hmem
      · unfold drainOrphan at hmem
        simp only at hmem
        split at hmem
        · rcases List.mem_append.mp hmem with hmem | hmem
          · exact Or.inl hmem
          · exact Or.inr (by simp [List.mem_singleton.mp hmem])
        · exact Or.inl hmem
      · exact Or.inr (List.mem_cons_of_mem _ hmem)

/-- **A round of the drain keeps the books**, if no orphan it takes out shares its stake with one
that stays. -/
theorem drainStep_booked {w : BlockWork} {hashPrev : Uint256} (h : w.state.Booked C)
    (hshare : ∀ o o', w.state.Stored o → w.state.Stored o' → o.hashPrevBlock = hashPrev →
      o.isProofOfStake = true → o'.isProofOfStake = true →
      o.getProofOfStake = o'.getProofOfStake → o = o') :
    (w.drainStep C env hashPrev).state.Booked C ∧
      (∀ b, (w.drainStep C env hashPrev).state.Stored b ↔
        w.state.Stored b ∧ b.hashPrevBlock ≠ hashPrev) ∧
      ∀ k ∈ (w.drainStep C env hashPrev).vWorkQueue, k ∈ w.vWorkQueue ∨
        ∃ o, w.state.Stored o ∧ o.hashPrevBlock = hashPrev ∧ o.getHash C = k := by
  obtain ⟨hprev, hnull, hsteps, -, -⟩ := foldl_drainOrphan C env (w.state.orphansOf hashPrev) w
  obtain ⟨hlook, hstake, hqueue⟩ :=
    foldl_drainOrphan_books C env (w.state.orphansOf hashPrev) w
  have hof : ∀ b, b ∈ w.state.orphansOf hashPrev ↔
      w.state.Stored b ∧ b.hashPrevBlock = hashPrev := fun b => BlockState.mem_orphansOf h.keyed
  have hstored : ∀ b, (w.drainStep C env hashPrev).state.Stored b ↔
      w.state.Stored b ∧ b.hashPrevBlock ≠ hashPrev := by
    intro b
    unfold drainStep
    simp [BlockState.Stored, hprev]
  -- the hashes that leave are those of the stored blocks on top of the entry
  have hhashes : ∀ b, w.state.Stored b →
      (b.getHash C ∈ (w.state.orphansOf hashPrev).map (CBlock.getHash C) ↔
        b.hashPrevBlock = hashPrev) := by
    intro b hb
    rw [List.mem_map]
    constructor
    · rintro ⟨b', hb', heq⟩
      obtain ⟨hb'stored, hb'prev⟩ := (hof b').mp hb'
      have h₁ := (h.lookup_iff _ b').mpr ⟨rfl, hb'stored⟩
      rw [heq, (h.lookup_iff _ b).mpr ⟨rfl, hb⟩] at h₁
      rw [Option.some.inj h₁]
      exact hb'prev
    · exact fun hbprev => ⟨b, (hof b).mpr ⟨hb, hbprev⟩, rfl⟩
  refine ⟨⟨?_, ?_, ?_, ?_, ?_⟩, hstored, ?_⟩
  · intro k b
    rw [hstored]
    change (List.foldl _ w _).state.mapOrphanBlocks.lookup k = some b ↔ _
    rw [hlook]
    split
    · next hmem =>
      constructor
      · intro hnone
        cases hnone
      · rintro ⟨rfl, hb, hne⟩
        exact absurd ((hhashes b hb).mp hmem) hne
    · next hmem =>
      rw [h.lookup_iff]
      constructor
      · rintro ⟨rfl, hb⟩
        exact ⟨rfl, hb, fun heq => hmem ((hhashes b hb).mpr heq)⟩
      · rintro ⟨rfl, hb, -⟩
        exact ⟨rfl, hb⟩
  · intro p hp
    have hp' : p ∈ w.state.mapOrphanBlocksByPrev := by
      rw [(drainStep_spec C env w hashPrev).1] at hp
      exact List.mem_of_mem_filter hp
    exact h.keyed p hp'
  · rw [(drainStep_spec C env w hashPrev).1]
    exact h.nodup.filter _
  · intro x
    change x ∈ (List.foldl _ w _).state.setStakeSeenOrphan ↔ _
    rw [hstake, h.stake_iff]
    simp only [hstored]
    constructor
    · rintro ⟨⟨b, hb, hpos, rfl⟩, hgone⟩
      exact ⟨b, ⟨hb, fun heq => hgone b ((hof b).mpr ⟨hb, heq⟩) rfl⟩, hpos, rfl⟩
    · rintro ⟨b, ⟨hb, hne⟩, hpos, rfl⟩
      refine ⟨⟨b, hb, hpos, rfl⟩, fun o ho heq => ?_⟩
      obtain ⟨hostored, hoprev⟩ := (hof o).mp ho
      rcases hopos : o.isProofOfStake with _ | _
      · exact CBlock.getProofOfStake_ne hpos hopos heq.symm
      · rw [hshare o b hostored hb hoprev hopos hpos heq] at hoprev
        exact hne hoprev
  · intro k hk
    change ((List.foldl _ w _).state.mapOrphanBlocks.lookup k).isSome at hk
    rw [hlook] at hk
    split at hk
    · cases hk
    · next hmem =>
      have hbefore := BlockState.hasIndex_eq_false_iff.mp (h.unindexed k hk)
      rw [BlockState.hasIndex_eq_false_iff, (drainStep_spec C env w hashPrev).2.1]
      refine ⟨?_, hbefore.2⟩
      by_contra hsome
      rcases hsteps.exists_of_isSome (Option.isSome_iff_ne_none.mpr hsome) with
        hold | ⟨b, hb, heq, -⟩
      · rw [hbefore.1] at hold
        cases hold
      · exact hmem (List.mem_map.mpr ⟨b, hb, heq⟩)
  · intro k hk
    rcases hqueue k hk with hmem | hmem
    · exact Or.inl hmem
    · obtain ⟨o, ho, rfl⟩ := List.mem_map.mp hmem
      exact Or.inr ⟨o, ((hof o).mp ho).1, ((hof o).mp ho).2, rfl⟩

variable (C) in
/-- The invariant of the drain: the books are kept, and each entry of the queue is the accepted block
or an orphan of the start that waits for it. -/
structure DrainOK (s₀ : BlockState) (hash : Uint256) (w : BlockWork) : Prop where
  booked : w.state.Booked C
  stored : ∀ b, w.state.Stored b → s₀.Stored b
  queue : ∀ q ∈ w.vWorkQueue, q = hash ∨ ∃ o, s₀.Awaits C hash o ∧ o.getHash C = q

namespace DrainOK

variable {s₀ : BlockState} {hash : Uint256} {w w' : BlockWork}
  (hshare : ∀ o o', s₀.Awaits C hash o → s₀.Stored o' → o.isProofOfStake = true →
    o'.isProofOfStake = true → o.getProofOfStake = o'.getProofOfStake → o = o')

/-- An orphan on top of an entry of the queue waits for the accepted block. -/
theorem awaits (h : DrainOK C s₀ hash w) {hashPrev : Uint256} (hq : hashPrev ∈ w.vWorkQueue)
    {o : CBlock} (ho : w.state.Stored o) (hprev : o.hashPrevBlock = hashPrev) :
    s₀.Awaits C hash o := by
  rcases h.queue hashPrev hq with rfl | ⟨o', ho', rfl⟩
  · exact .child (h.stored o ho) hprev
  · exact .step ho' (h.stored o ho) hprev

include hshare

theorem drainStep (h : DrainOK C s₀ hash w) {hashPrev : Uint256} (hq : hashPrev ∈ w.vWorkQueue) :
    DrainOK C s₀ hash (w.drainStep C env hashPrev) := by
  obtain ⟨hbooked, hstored, hqueue⟩ := drainStep_booked (C := C) (w := w) h.booked
    fun o o' ho ho' hprev => hshare o o' (h.awaits hq ho hprev) (h.stored o' ho')
  refine ⟨hbooked, fun b hb => h.stored b ((hstored b).mp hb).1, fun q hq' => ?_⟩
  rcases hqueue q hq' with hold | ⟨o, ho, hprev, rfl⟩
  · exact h.queue q hold
  · exact Or.inr ⟨o, h.awaits hq ho hprev, rfl⟩

/-- The whole drain keeps the books. -/
theorem drainLoop {fuel i : Nat} (h : DrainOK C s₀ hash w)
    (hloop : w.drainLoop C env fuel i = some w') : DrainOK C s₀ hash w' := by
  induction fuel generalizing i w with
  | zero => cases hloop
  | succ fuel ih =>
    rw [BlockWork.drainLoop] at hloop
    split at hloop
    · obtain rfl := Option.some.inj hloop
      exact h
    · next hashPrev hi => exact ih (h.drainStep hshare (List.mem_of_getElem? hi)) hloop

end DrainOK

end BlockWork

/-! ## Runs -/

namespace BlockState

variable {s s' : BlockState} {b : CBlock} {ok : Bool}

theorem processChecks_spec (h : s.processChecks C env b = true) :
    s.hasIndex (b.getHash C) = false ∧ s.mapOrphanBlocks.lookup (b.getHash C) = none := by
  simp only [processChecks, Bool.and_eq_true, Bool.not_eq_true', Option.isNone_iff_eq_none] at h
  exact ⟨h.1.1.1.1, h.1.1.1.2⟩

/-- The books do not mention the node but for its entries. -/
theorem Booked.of_node (h : s.Booked C) {node : NodeState}
    (hindex : ∀ k, (s.mapOrphanBlocks.lookup k).isSome → s.node.mapBlockIndex k = none →
      node.mapBlockIndex k = none) : ({ s with node := node } : BlockState).Booked C where
  lookup_iff := h.lookup_iff
  keyed := h.keyed
  nodup := h.nodup
  stake_iff := h.stake_iff
  unindexed := by
    intro k hk
    obtain ⟨hnone, hnull⟩ := hasIndex_eq_false_iff.mp (h.unindexed k hk)
    exact hasIndex_eq_false_iff.mpr ⟨hindex k hk hnone, hnull⟩

/-- Accepting a block that is no orphan keeps the books. -/
theorem Booked.acceptBlock (h : s.Booked C)
    (hnew : s.mapOrphanBlocks.lookup (b.getHash C) = none) :
    ({ s with node := (s.node.acceptBlock C (env (b.getHash C)) b).2 } : BlockState).Booked C := by
  refine h.of_node fun k hk hnone => ?_
  by_contra hsome
  have hstep : AcceptSteps C env [b] s.node (s.node.acceptBlock C (env (b.getHash C)) b).2 :=
    Relation.ReflTransGen.single ⟨b, List.mem_singleton_self b, rfl⟩
  rcases hstep.exists_of_isSome (Option.isSome_iff_ne_none.mpr hsome) with
    hold | ⟨b', hb', rfl, -⟩
  · rw [hnone] at hold
    cases hold
  · rw [List.mem_singleton.mp hb', hnew] at hk
    cases hk

/-- **A call of `ProcessBlock` keeps the books**, if no orphan that waits for the block shares its
stake. -/
theorem Booked.processBlock (h : s.Booked C) (hshare : s.Unshared C env b)
    (hrun : s.processBlock C false env b = some (ok, s')) : s'.Booked C := by
  unfold BlockState.processBlock at hrun
  simp only [Bool.false_eq_true, if_false] at hrun
  split at hrun
  · obtain ⟨-, rfl⟩ := Prod.mk.inj (Option.some.inj hrun)
    exact h
  · next hchecks =>
    rw [Bool.not_eq_true', Bool.not_eq_false] at hchecks
    obtain ⟨hindex, hnew⟩ := processChecks_spec hchecks
    split at hrun
    · obtain rfl : (s.storeOrphan C b).2 = s' := congrArg Prod.snd (Option.some.inj hrun)
      exact h.storeOrphan hindex hnew
    · next hprev =>
      rw [Bool.not_eq_true', Bool.not_eq_false] at hprev
      have haccept : ({ s with
          node := (s.node.acceptBlock C (env (b.getHash C)) b).2 } : BlockState).Booked C :=
        h.acceptBlock hnew
      unfold acceptAndDrain at hrun
      simp only at hrun
      split at hrun
      · obtain ⟨w, hw, heq⟩ := Option.map_eq_some_iff.mp hrun
        obtain ⟨-, rfl⟩ := Prod.mk.inj heq
        have hstart : BlockWork.DrainOK C s (b.getHash C)
            ⟨{ s with node := (s.node.acceptBlock C (env (b.getHash C)) b).2 }, [b.getHash C]⟩ :=
          ⟨haccept, fun _ hb => hb, fun q hq => Or.inl (List.mem_singleton.mp hq)⟩
        exact (hstart.drainLoop (hshare hchecks hprev) hw).booked
      · obtain ⟨-, rfl⟩ := Prod.mk.inj (Option.some.inj hrun)
        exact haccept

/-- A block that passes the checks and whose previous block is unknown. -/
theorem processBlock_of_unknown (hchecks : s.processChecks C env b = true)
    (hprev : s.hasIndex b.hashPrevBlock = false) :
    s.processBlock C false env b = some (s.storeOrphan C b) := by
  simp [BlockState.processBlock, hchecks, hprev]

/-- With debug output every block is refused. -/
theorem processBlock_debug (s : BlockState) (b : CBlock) :
    s.processBlock C true env b = some (false, s.touchIndex (b.getHash C)) := by
  have hindex : (s.touchIndex (b.getHash C)).hasIndex (b.getHash C) = true := by
    unfold touchIndex
    split
    · assumption
    · simp [hasIndex]
  simp [BlockState.processBlock, processChecks, hindex]

theorem NoOrphans.touchIndex (h : s.NoOrphans) (hash : Uint256) :
    (s.touchIndex hash).NoOrphans := by
  unfold BlockState.touchIndex
  split
  · exact h
  · exact ⟨h.byHash, h.byPrev, h.stakes⟩

end BlockState

variable (C) in
/-- Deliver blocks to `ProcessBlock`, each with what its call meets. -/
def BlockState.deliver (s : BlockState) : List ((Uint256 → Env) × CBlock) → Option BlockState
  | [] => some s
  | m :: msgs => (s.processBlock C false m.1 m.2).bind fun r => r.2.deliver msgs

theorem BlockState.deliver_isSome (s : BlockState) (msgs : List ((Uint256 → Env) × CBlock)) :
    (s.deliver C msgs).isSome := by
  induction msgs generalizing s with
  | nil => rfl
  | cons m msgs ih =>
    obtain ⟨r, hr⟩ := Option.isSome_iff_exists.mp (s.processBlock_isSome C false m.1 m.2)
    rw [BlockState.deliver, hr, Option.bind_some]
    exact ih r.2

/-! ### Samples

Two proof-of-stake blocks with the same stake, one on top of the block 2 and one on top of an unknown
block, and an orphan on top of the second. -/

/-- The coinbase of a proof-of-stake block. -/
def twinCoinbase : CTransaction :=
  { heightCoinbase 2 3000 0 with vout := [⟨0, []⟩, ⟨0, []⟩] }

/-- A coinstake. -/
def twinCoinstake : CTransaction where
  nVersion := 1
  nTime := 3000
  vin := [⟨⟨50, 0⟩, [], 4294967295⟩]
  vout := [⟨0, []⟩, ⟨1000, [1]⟩]
  nLockTime := 0

/-- A proof-of-stake block with that coinstake. -/
def twinBlock (hashPrevBlock : Uint256) : CBlock :=
  { plainBlock hashPrevBlock 19 3000 [twinCoinbase, twinCoinstake] with nBits := 0x1d0fffff }

/-- A proof-of-work block on top of the block 4. -/
def tipOrphan : CBlock := plainBlock 4 5 3500 [heightCoinbase 4 3500 0]

/-- The blocks 1 to 5. -/
def twinBlocks : List CBlock :=
  [treeGenesis.block, treeBlock, twinBlock 2, twinBlock 77, tipOrphan]

/-- Hashes that number these blocks and their transactions from one. -/
noncomputable def twinCrypto : Crypto :=
  labelCrypto ([treeGenesis.block, treeBlock, twinBlock 2, tipOrphan].flatMap CBlock.vtx)
    (twinBlocks.map CBlock.getBlockHeader)

/-- A node that has the genesis block and nothing else. -/
noncomputable def twinStart : BlockState := freshState twinCrypto [treeGenesis]

/-- The node that has stored the block 3 as an orphan. -/
noncomputable def twinWaiting : BlockState := (twinStart.storeOrphan twinCrypto (twinBlock 2)).2

end MotaCoin
