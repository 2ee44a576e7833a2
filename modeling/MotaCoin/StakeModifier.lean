import MotaCoin.SharedBranch

/-!
# Computing a stake modifier

`ComputeNextStakeModifier` selects up to 64 of the recent blocks, one a round. Which blocks it
selects depends on their proof hashes, and through them on what was active when the blocks arrived.
Whether it succeeds does not: the blocks of a branch are distinct, so there is one left to select in
every round.

## Main results

* `selectBlockFromCandidates_spec`, `selectRounds_isSome`: every round selects a new block
* `SharedBranch.computeNextStakeModifier_rel`: nodes that share the branch agree on the outcome
* `SharedBranch.newBlockIndex_rel`: they make entries with the same core
-/

namespace MotaCoin

variable {C : Crypto} {s s' : NodeState} {K : Set Uint256}

/-! ## Selecting candidates -/

/-- Every candidate is in the tree, under its own hash. -/
def NodeState.Indexed (s : NodeState) (vSortedByTimestamp : List (Int × Uint256)) : Prop :=
  ∀ item ∈ vSortedByTimestamp, ∃ pindex, s.mapBlockIndex item.2 = some pindex ∧
    pindex.hash = item.2

/-- A round selects a block when a candidate is left, or when it has one already. -/
theorem selectBlockFromCandidates_isSome {selected : List Uint256} {stop : Int} {prev : Nat}
    {vs : List (Int × Uint256)} :
    ∀ {best : Option (Uint256 × CBlockIndex)}, s.Indexed vs →
      (best.isSome ∨ ∃ item ∈ vs, item.2 ∉ selected) →
      (s.selectBlockFromCandidates C selected stop prev vs best).isSome := by
  induction vs with
  | nil =>
    intro best _ hleft
    simpa [NodeState.selectBlockFromCandidates] using hleft
  | cons item vs ih =>
    intro best hidx hleft
    obtain ⟨pindex, hentry, hhash⟩ := hidx item List.mem_cons_self
    have hidx' : s.Indexed vs := fun i hi => hidx i (List.mem_cons_of_mem _ hi)
    simp only [NodeState.selectBlockFromCandidates, hentry]
    cases best with
    | some r =>
      simp only
      split
      · rfl
      · split
        · exact ih hidx' (.inl rfl)
        · exact ih hidx' (.inl rfl)
    | none =>
      simp only
      split
      · next hold =>
        have hold : item.2 ∈ selected := by
          rw [← hhash]
          simpa using hold
        refine ih hidx' (.inr ?_)
        obtain ⟨i, hi, hnew⟩ : ∃ i ∈ item :: vs, i.2 ∉ selected := by simpa using hleft
        rcases List.mem_cons.mp hi with rfl | hi
        · exact absurd hold hnew
        · exact ⟨i, hi, hnew⟩
      · exact ih hidx' (.inl rfl)

/-- **Every round succeeds**: the blocks selected so far are fewer than the candidates. -/
theorem selectRounds_isSome {vs : List (Int × Uint256)} (hidx : s.Indexed vs)
    (hnd : (vs.map Prod.snd).Nodup) {prev fuel : Nat} :
    ∀ {nRound : Nat} {stop : Int} {selected : List Uint256} {nStakeModifierNew : Nat},
      selected.length + fuel ≤ vs.length →
      (s.selectRounds C vs prev fuel nRound stop selected nStakeModifierNew).isSome := by
  induction fuel with
  | zero => exact fun _ => rfl
  | succ fuel ih =>
    intro nRound stop selected nStakeModifierNew hlen
    have hleft : ∃ item ∈ vs, item.2 ∉ selected := by
      by_contra hall
      push Not at hall
      have hsub : vs.map Prod.snd ⊆ selected := by
        intro hash hhash
        obtain ⟨item, hitem, rfl⟩ := List.mem_map.mp hhash
        exact hall item hitem
      have := (List.subperm_of_subset hnd hsub).length_le
      rw [List.length_map] at this
      omega
    obtain ⟨r, hr⟩ := Option.isSome_iff_exists.mp <|
      @selectBlockFromCandidates_isSome C s selected
        (stop + NodeState.getStakeModifierSelectionIntervalSection nRound) prev vs none hidx
        (.inr hleft)
    simp only [NodeState.selectRounds, hr]
    refine ih ?_
    rw [List.length_cons]
    omega

/-- The entry of a new block on an indexed one. -/
theorem NodeState.newBlockIndex_parent {b : CBlock} {nFile nBlockPos : Nat}
    {hashProofOfStake : Uint256} {e n : CBlockIndex}
    (he : s.mapBlockIndex b.hashPrevBlock = some e)
    (h : s.newBlockIndex C b nFile nBlockPos hashProofOfStake = some n) :
    n.pprev = some b.hashPrevBlock ∧ n.nHeight = e.nHeight + 1 ∧
      n.nChainTrust = e.nChainTrust + NodeState.getBlockTrust b.nBits := by
  simp only [NodeState.newBlockIndex, he] at h
  split at h
  · cases h
  · split at h
    · obtain rfl := Option.some.inj h
      exact ⟨rfl, rfl, rfl⟩
    · cases h

/-! ## The candidates of a branch -/

namespace SharedBranch

variable (hK : SharedBranch C s s' K)
include hK

/-- The candidates are blocks of the branch, not above where the walk starts, and distinct. -/
theorem candidatesFrom_spec (start : Int) (fuel : Nat) :
    ∀ {e e' : CBlockIndex}, Pair K s s' e e' →
      (∀ item ∈ s.candidatesFrom start fuel e,
          item.2 ∈ K ∧ s.heightOf item.2 ≤ e.nHeight) ∧
        ((s.candidatesFrom start fuel e).map Prod.snd).Nodup := by
  induction fuel with
  | zero => exact fun _ => ⟨fun _ hi => (List.not_mem_nil hi).elim, List.nodup_nil⟩
  | succ fuel ih =>
    intro e e' h
    have hself : s.heightOf e.hash = e.nHeight := by simp [NodeState.heightOf, h.left]
    have hprev := hK.prev_rel h
    simp only [NodeState.candidatesFrom]
    split
    · exact ⟨fun _ hi => (List.not_mem_nil hi).elim, List.nodup_nil⟩
    · generalize s.prev e = r at hprev ⊢
      generalize s'.prev e' = r' at hprev
      cases hprev with
      | none =>
        refine ⟨fun item hi => ?_, by simp⟩
        obtain rfl := List.mem_singleton.mp hi
        exact ⟨h.mem, hself.le⟩
      | @some p p' hp =>
        obtain ⟨hpair, hstep⟩ := hp
        obtain ⟨hmem, hnd⟩ := ih hpair
        refine ⟨fun item hi => ?_, ?_⟩
        · rcases List.mem_cons.mp hi with rfl | hi
          · exact ⟨h.mem, hself.le⟩
          · exact ⟨(hmem item hi).1, (hmem item hi).2.trans (by omega)⟩
        · refine List.nodup_cons.mpr ⟨fun hin => ?_, hnd⟩
          obtain ⟨item, hi, heq⟩ := List.mem_map.mp hin
          have := (hmem item hi).2
          rw [heq, hself] at this
          omega

/-- **The rounds succeed** on the candidates of a branch. -/
theorem selectRounds_isSome_of_candidates {e e' : CBlockIndex} (h : Pair K s s' e e')
    {start stop : Int} {fuel prev nRound nStakeModifierNew : Nat}
    {r : Int × Uint256 → Int × Uint256 → Prop} [DecidableRel r] :
    (s.selectRounds C ((s.candidatesFrom start fuel e).insertionSort r) prev
      (min 64 ((s.candidatesFrom start fuel e).insertionSort r).length) nRound stop []
      nStakeModifierNew).isSome := by
  obtain ⟨hmem, hnd⟩ := hK.candidatesFrom_spec start fuel h
  have hperm := List.perm_insertionSort r (s.candidatesFrom start fuel e)
  refine selectRounds_isSome (fun item hitem => ?_) ?_ ?_
  · obtain ⟨f, f', hf, -, hpair⟩ := hK.exists_pair (hmem item (hperm.mem_iff.mp hitem)).1
    refine ⟨f, hf, ?_⟩
    obtain ⟨g, _, _, hg, -⟩ := hK.stored _ (hmem item (hperm.mem_iff.mp hitem)).1
    obtain rfl := Option.some.inj (hf.symm.trans hg.entry)
    exact hg.hash_eq
  · exact (hperm.map Prod.snd).nodup_iff.mpr hnd
  · simp

/-! ## The stake modifier and the entry of a new block -/

/-- Both nodes find a last stake modifier of the same time, or none. -/
theorem getLastStakeModifierFrom_rel (fuel : Nat) :
    ∀ {e e' : CBlockIndex}, Pair K s s' e e' →
      Option.Rel (fun r r' => r.2 = r'.2) (s.getLastStakeModifierFrom fuel e)
        (s'.getLastStakeModifierFrom fuel e') := by
  have hflags : ∀ {e e' : CBlockIndex}, Pair K s s' e e' →
      e.generatedStakeModifier = e'.generatedStakeModifier ∧ e.getBlockTime = e'.getBlockTime := by
    intro e e' h
    obtain ⟨-, -, -, hflags, htime, -⟩ := CBlockIndex.eq_of_core h.core
    simp only [CBlockIndex.generatedStakeModifier, CBlockIndex.getBlockTime, hflags, htime,
      and_self]
  induction fuel with
  | zero =>
    intro e e' h
    simp only [NodeState.getLastStakeModifierFrom, (hflags h).1]
    split
    · exact .some (hflags h).2
    · exact .none
  | succ fuel ih =>
    intro e e' h
    have hprev := hK.prev_rel h
    simp only [NodeState.getLastStakeModifierFrom, (hflags h).1]
    split
    · exact .some (hflags h).2
    · generalize s.prev e = r at hprev ⊢
      generalize s'.prev e' = r' at hprev ⊢
      cases hprev with
      | none => exact .none
      | some hp => exact ih hp.1

/-- **The computation of the stake modifier** succeeds on both nodes or on neither, and both
generate a new one or keep the last. -/
theorem computeNextStakeModifier_rel {e e' : CBlockIndex} (h : Pair K s s' e e') :
    Option.Rel (fun r r' => r.2 = r'.2) (s.computeNextStakeModifier C (some e))
      (s'.computeNextStakeModifier C (some e')) := by
  obtain ⟨-, -, hheight, -, htime, -⟩ := CBlockIndex.eq_of_core h.core
  have hpair : Pair K s' s e' e := by
    obtain ⟨hhash, -⟩ := CBlockIndex.eq_of_core h.core
    exact ⟨hhash ▸ h.mem, hhash ▸ h.right, hhash ▸ h.left, h.core.symm⟩
  have hlast := hK.getLastStakeModifierFrom_rel e.nHeight h
  unfold NodeState.computeNextStakeModifier CBlockIndex.getBlockTime
  simp only
  rw [← hheight, ← htime]
  generalize s.getLastStakeModifierFrom e.nHeight e = r at hlast ⊢
  generalize s'.getLastStakeModifierFrom e.nHeight e' = r' at hlast ⊢
  cases hlast with
  | none => exact .none
  | @some m m' hm =>
    obtain ⟨nStakeModifier, nModifierTime⟩ := m
    obtain ⟨nStakeModifier', nModifierTime'⟩ := m'
    obtain rfl : nModifierTime = nModifierTime' := hm
    simp only
    by_cases hkeep : (e.nTime : Int) / nModifierInterval ≤ nModifierTime / nModifierInterval
    · rw [if_pos hkeep, if_pos hkeep]
      exact .some rfl
    · rw [if_neg hkeep, if_neg hkeep]
      have hgenerated : ∀ {n n' : Option Nat}, n.isSome → n'.isSome →
          Option.Rel (fun r r' : Nat × Bool => r.2 = r'.2) (n.map (·, true)) (n'.map (·, true)) := by
        intro n n' hn hn'
        obtain ⟨m, rfl⟩ := Option.isSome_iff_exists.mp hn
        obtain ⟨m', rfl⟩ := Option.isSome_iff_exists.mp hn'
        exact .some rfl
      exact hgenerated (hK.selectRounds_isSome_of_candidates h)
        (hK.symm.selectRounds_isSome_of_candidates hpair)

/-- **Both nodes make entries with the same core** for a new block on a shared one. -/
theorem newBlockIndex_rel {b : CBlock} {e e' : CBlockIndex}
    (he : s.mapBlockIndex b.hashPrevBlock = some e)
    (he' : s'.mapBlockIndex b.hashPrevBlock = some e') (h : Pair K s s' e e')
    (nFile nBlockPos nFile' nBlockPos' : Nat) (hashProofOfStake hashProofOfStake' : Uint256) :
    Option.Rel (fun n n' => n.core = n'.core)
      (s.newBlockIndex C b nFile nBlockPos hashProofOfStake)
      (s'.newBlockIndex C b nFile' nBlockPos' hashProofOfStake') := by
  have hmodifier := hK.computeNextStakeModifier_rel h
  have htrust : e.core.nChainTrust = e'.core.nChainTrust := by rw [h.core]
  change e.nChainTrust = e'.nChainTrust at htrust
  have hheight := (CBlockIndex.eq_of_core h.core).2.2.1
  simp only [NodeState.newBlockIndex, he, he', Option.map_some, Option.getD_some,
    NodeState.checkStakeModifierCheckpoints]
  generalize s.computeNextStakeModifier C (some e) = r at hmodifier ⊢
  generalize s'.computeNextStakeModifier C (some e') = r' at hmodifier ⊢
  cases hmodifier with
  | none => exact .none
  | @some m m' hm =>
    obtain ⟨nStakeModifier, fGenerated⟩ := m
    obtain ⟨nStakeModifier', fGenerated'⟩ := m'
    obtain rfl : fGenerated = fGenerated' := hm
    simp only [bne_iff_ne, ne_eq, Nat.succ_ne_zero, not_false_eq_true, Bool.or_eq_true, true_or,
      if_true]
    refine .some ?_
    simp only [CBlockIndex.core, htrust, hheight]

end SharedBranch

end MotaCoin
