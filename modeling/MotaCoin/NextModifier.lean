import MotaCoin.Consistency
import MotaCoin.Kernel
import MotaCoin.Lib.Rounds

/-!
# The blocks of a new stake modifier

`ComputeNextStakeModifier` walks down from the previous block, sorts the blocks of the selection
interval by time and takes one a round, up to 64 of them, each adding its entropy bit. No round fails
on a chain, and what comes out is a function of the chain.

## Main definitions

* `NodeState.ChainTo`: a chain of entries down to a root
* `selectionCandidates`: its blocks in the selection interval
* `selectedBlocks`: the blocks that the rounds select

## Main results

* `selectRounds_eq`: the rounds add the entropy bits of the selected blocks
* `computeNextStakeModifier_chain`: a chain with a generated modifier has a next one, made of the
  selected blocks or kept, and only of the chain
-/

namespace MotaCoin

/-- The pair that a candidate is sorted by. -/
def CBlockIndex.candidate (pindex : CBlockIndex) : Int × Uint256 := (pindex.getBlockTime, pindex.hash)

/-- The order of `pair<int64_t, uint256>`. -/
def candidateLe (a b : Int × Uint256) : Prop := a.1 < b.1 ∨ a.1 = b.1 ∧ a.2 ≤ b.2

instance : DecidableRel candidateLe := fun a b =>
  inferInstanceAs (Decidable (a.1 < b.1 ∨ a.1 = b.1 ∧ a.2 ≤ b.2))

instance : Std.Total candidateLe where
  total a b := by
    rcases lt_trichotomy a.1 b.1 with hlt | heq | hgt
    · exact Or.inl (Or.inl hlt)
    · rcases Nat.le_total a.2 b.2 with hle | hge
      · exact Or.inl (Or.inr ⟨heq, hle⟩)
      · exact Or.inr (Or.inr ⟨heq.symm, hge⟩)
    · exact Or.inr (Or.inl hgt)

instance : IsTrans (Int × Uint256) candidateLe where
  trans a b c hab hbc := by
    rcases hab with hab | ⟨hab, hab'⟩ <;> rcases hbc with hbc | ⟨hbc, hbc'⟩
    · exact Or.inl (hab.trans hbc)
    · exact Or.inl (hab.trans_eq hbc)
    · exact Or.inl (hab.trans_lt hbc)
    · exact Or.inr ⟨hab.trans hbc, Nat.le_trans hab' hbc'⟩

/-- Where the selection interval of a block starts. -/
def selectionIntervalStart (pindexPrev : CBlockIndex) : Int :=
  pindexPrev.getBlockTime / nModifierInterval * nModifierInterval
    - NodeState.getStakeModifierSelectionInterval

/-- The blocks of a chain in the selection interval of its last one. -/
def selectionCandidates (pindexPrev : CBlockIndex) (chain : List CBlockIndex) : List CBlockIndex :=
  chain.takeWhile fun pindex => !decide (pindex.getBlockTime < selectionIntervalStart pindexPrev)

/-- The time that a round selects up to, if it can. -/
def roundStop (nSelectionIntervalStart : Int) (nRound : Nat) : Int :=
  nSelectionIntervalStart
    + ((List.range (nRound + 1)).map NodeState.getStakeModifierSelectionIntervalSection).sum

/-- The candidates in the order of time. -/
def sortedCandidates (pindexPrev : CBlockIndex) (chain : List CBlockIndex) : List CBlockIndex :=
  (selectionCandidates pindexPrev chain).insertionSort fun a b => candidateLe a.candidate b.candidate

/-- **The blocks that the rounds select** on a chain, in order. -/
def selectedBlocks (C : Crypto) (nStakeModifierPrev : Nat) (pindexPrev : CBlockIndex)
    (chain : List CBlockIndex) : List CBlockIndex :=
  Rounds.rounds CBlockIndex.getBlockTime (NodeState.selectionHash C nStakeModifierPrev)
    (roundStop (selectionIntervalStart pindexPrev)) (sortedCandidates pindexPrev chain)
    (min 64 (selectionCandidates pindexPrev chain).length)

/-- The entropy bit of a block. -/
def CBlockIndex.entropy (pindex : CBlockIndex) : Bool := pindex.nFlags.testBit 1

theorem roundStop_succ (start : Int) (n : Nat) :
    roundStop start (n + 1)
      = roundStop start n + NodeState.getStakeModifierSelectionIntervalSection (n + 1) := by
  rw [roundStop, roundStop, List.range_succ, List.map_append, List.sum_append, List.map_singleton,
    List.sum_singleton]
  omega

namespace NodeState

/-- **A chain**: entries from `pindex` down to a root, each in the tree under its own hash and one
higher than its parent. -/
inductive ChainTo (s : NodeState) : CBlockIndex → List CBlockIndex → Prop
  | root {pindex : CBlockIndex} : s.mapBlockIndex pindex.hash = some pindex →
      s.prev pindex = none → ChainTo s pindex [pindex]
  | link {pindex pprev : CBlockIndex} {chain : List CBlockIndex} :
      s.mapBlockIndex pindex.hash = some pindex → s.prev pindex = some pprev →
      pindex.nHeight = pprev.nHeight + 1 → ChainTo s pprev chain →
      ChainTo s pindex (pindex :: chain)

variable {C : Crypto} {s : NodeState} {pindexPrev : CBlockIndex} {chain : List CBlockIndex}

/-! ## The walks down a chain -/

namespace ChainTo

theorem indexed (h : s.ChainTo pindexPrev chain) :
    ∀ e ∈ chain, s.mapBlockIndex e.hash = some e := by
  induction h with
  | root hself _ =>
    intro e he
    obtain rfl := List.mem_singleton.1 he
    exact hself
  | link hself _ _ _ ih =>
    intro e he
    rcases List.mem_cons.1 he with rfl | he
    · exact hself
    · exact ih e he

theorem height_le (h : s.ChainTo pindexPrev chain) : ∀ e ∈ chain, e.nHeight ≤ pindexPrev.nHeight := by
  induction h with
  | root _ _ =>
    intro e he
    obtain rfl := List.mem_singleton.1 he
    exact le_rfl
  | link _ _ hheight _ ih =>
    intro e he
    rcases List.mem_cons.1 he with rfl | he
    · exact le_rfl
    · exact (ih e he).trans (by omega)

/-- Heights fall along a chain, so no block comes twice. -/
theorem nodup_hash (h : s.ChainTo pindexPrev chain) : (chain.map CBlockIndex.hash).Nodup := by
  induction h with
  | root _ _ => exact List.nodup_singleton _
  | link hself _ hheight hchain ih =>
    refine List.nodup_cons.2 ⟨fun hin => ?_, ih⟩
    obtain ⟨e, he, heq⟩ := List.mem_map.1 hin
    have hentry := hchain.indexed e he
    rw [heq, hself] at hentry
    obtain rfl := Option.some.inj hentry
    have := hchain.height_le _ he
    omega

/-- The walk for the last modifier finds the first entry of the chain with one. -/
theorem getLastStakeModifierFrom_eq (h : s.ChainTo pindexPrev chain) {fuel : Nat}
    (hfuel : pindexPrev.nHeight ≤ fuel) :
    s.getLastStakeModifierFrom fuel pindexPrev
      = (chain.find? CBlockIndex.generatedStakeModifier).map
          fun e => (e.nStakeModifier, e.getBlockTime) := by
  induction h generalizing fuel with
  | @root pindex _ hroot =>
    cases fuel with
    | zero =>
      rw [getLastStakeModifierFrom, List.find?_cons, List.find?_nil]
      cases pindex.generatedStakeModifier <;> rfl
    | succ fuel =>
      rw [getLastStakeModifierFrom, List.find?_cons, List.find?_nil, hroot]
      cases pindex.generatedStakeModifier <;> rfl
  | @link pindex pprev chain _ hprev hheight _ ih =>
    cases fuel with
    | zero => omega
    | succ fuel =>
      have hih := ih (show pprev.nHeight ≤ fuel by omega)
      rw [getLastStakeModifierFrom, List.find?_cons, hprev]
      cases pindex.generatedStakeModifier with
      | true => rfl
      | false => exact hih

/-- The walk for the candidates finds the beginning of the chain. -/
theorem candidatesFrom_eq (h : s.ChainTo pindexPrev chain) (start : Int) {fuel : Nat}
    (hfuel : pindexPrev.nHeight < fuel) :
    s.candidatesFrom start fuel pindexPrev
      = (chain.takeWhile fun e => !decide (e.getBlockTime < start)).map CBlockIndex.candidate := by
  induction h generalizing fuel with
  | @root pindex _ hroot =>
    cases fuel with
    | zero => omega
    | succ fuel =>
      rw [candidatesFrom, hroot, List.takeWhile_cons, List.takeWhile_nil]
      by_cases hearly : pindex.getBlockTime < start
      · rw [if_pos hearly, decide_eq_true hearly]
        rfl
      · rw [if_neg hearly, decide_eq_false hearly]
        rfl
  | @link pindex pprev chain _ hprev hheight _ ih =>
    cases fuel with
    | zero => omega
    | succ fuel =>
      have hih := ih (show pprev.nHeight < fuel by omega)
      rw [candidatesFrom, hprev, List.takeWhile_cons]
      by_cases hearly : pindex.getBlockTime < start
      · rw [if_pos hearly, decide_eq_true hearly]
        rfl
      · rw [if_neg hearly, decide_eq_false hearly]
        exact congrArg (pindex.candidate :: ·) hih

end ChainTo

/-! ## The rounds -/

/-- Entries that are in the tree under their own hashes, in the order of time. -/
structure Sorted (s : NodeState) (l : List CBlockIndex) : Prop where
  indexed : ∀ e ∈ l, s.mapBlockIndex e.hash = some e
  ordered : l.Pairwise fun a b => a.getBlockTime ≤ b.getBlockTime

theorem Sorted.tail {e : CBlockIndex} {l : List CBlockIndex} (h : s.Sorted (e :: l)) : s.Sorted l where
  indexed a ha := h.indexed a (List.mem_cons_of_mem _ ha)
  ordered := (List.pairwise_cons.1 h.ordered).2

variable {selected : List Uint256} {stop : Int} {nStakeModifierPrev : Nat} {l : List CBlockIndex}

/-- The entries that no round has selected. -/
def leftOf (selected : List Uint256) (l : List CBlockIndex) : List CBlockIndex :=
  l.filter fun e => !selected.contains e.hash

theorem leftOf_cons (e : CBlockIndex) (l : List CBlockIndex) :
    leftOf selected (e :: l)
      = if selected.contains e.hash then leftOf selected l else e :: leftOf selected l := by
  rw [leftOf, List.filter_cons]
  cases selected.contains e.hash <;> rfl

/-- With a best so far a round is a scan of what is left. -/
theorem selectBlockFromCandidates_some (hl : s.Sorted l) (best : CBlockIndex) :
    s.selectBlockFromCandidates C selected stop nStakeModifierPrev (l.map CBlockIndex.candidate)
        (some (selectionHash C nStakeModifierPrev best, best))
      = let pindex := Rounds.scan CBlockIndex.getBlockTime (selectionHash C nStakeModifierPrev) stop
          (leftOf selected l) best
        some (selectionHash C nStakeModifierPrev pindex, pindex) := by
  induction l generalizing best with
  | nil => rfl
  | cons e l ih =>
    have hself := hl.indexed e List.mem_cons_self
    rw [List.map_cons, selectBlockFromCandidates, CBlockIndex.candidate, hself]
    simp only
    by_cases hlate : stop < e.getBlockTime
    · -- Everything after a block that is too late is too late.
      rw [if_pos hlate, Rounds.scan_of_late]
      intro a ha
      rcases List.mem_cons.1 (List.mem_of_mem_filter ha) with rfl | ha
      · exact hlate
      · exact hlate.trans_le ((List.pairwise_cons.1 hl.ordered).1 a ha)
    · rw [if_neg hlate, leftOf_cons]
      split
      · exact ih hl.tail best
      · rw [Rounds.scan, if_neg hlate]
        split
        · exact ih hl.tail e
        · exact ih hl.tail best

/-- **A round** picks from what is left. -/
theorem selectBlockFromCandidates_none (hl : s.Sorted l) :
    s.selectBlockFromCandidates C selected stop nStakeModifierPrev (l.map CBlockIndex.candidate) none
      = (Rounds.pick CBlockIndex.getBlockTime (selectionHash C nStakeModifierPrev) stop
          (leftOf selected l)).map
            fun pindex => (selectionHash C nStakeModifierPrev pindex, pindex) := by
  induction l with
  | nil => rfl
  | cons e l ih =>
    have hself := hl.indexed e List.mem_cons_self
    rw [List.map_cons, selectBlockFromCandidates, CBlockIndex.candidate, hself, leftOf_cons]
    simp only
    split
    · exact ih hl.tail
    · exact selectBlockFromCandidates_some hl.tail e

/-- Where hashes are distinct, the entries that are left are those that were not selected. -/
theorem leftOf_eq {chosen : List CBlockIndex} (hnodup : (l.map CBlockIndex.hash).Nodup)
    (hsub : chosen ⊆ l) :
    leftOf (chosen.map CBlockIndex.hash).reverse l = l.filter fun e => e ∉ chosen := by
  refine List.filter_congr fun e he => ?_
  have hiff : e.hash ∈ (chosen.map CBlockIndex.hash).reverse ↔ e ∈ chosen := by
    rw [List.mem_reverse]
    constructor
    · intro hin
      obtain ⟨a, ha, heq⟩ := List.mem_map.1 hin
      obtain rfl := List.inj_on_of_nodup_map hnodup (hsub ha) he heq
      exact ha
    · exact List.mem_map_of_mem
  rw [List.contains_eq_mem, decide_eq_decide.2 hiff, decide_not]

/-- **The rounds** add the entropy bits of the blocks that they select, and none fails. -/
theorem selectRounds_eq (hl : s.Sorted l) (hnodup : (l.map CBlockIndex.hash).Nodup)
    {start : Int} {fuel nRound : Nat} (hlen : nRound + fuel ≤ l.length)
    {nSelectionIntervalStop : Int}
    (hstop : nSelectionIntervalStop + getStakeModifierSelectionIntervalSection nRound
      = roundStop start nRound) :
    s.selectRounds C (l.map CBlockIndex.candidate) nStakeModifierPrev fuel nRound
        nSelectionIntervalStop
        ((Rounds.rounds CBlockIndex.getBlockTime (selectionHash C nStakeModifierPrev)
          (roundStop start) l nRound).map CBlockIndex.hash).reverse
        (Rounds.bits CBlockIndex.entropy (Rounds.rounds CBlockIndex.getBlockTime
          (selectionHash C nStakeModifierPrev) (roundStop start) l nRound))
      = some (Rounds.bits CBlockIndex.entropy (Rounds.rounds CBlockIndex.getBlockTime
          (selectionHash C nStakeModifierPrev) (roundStop start) l (nRound + fuel))) := by
  induction fuel generalizing nRound nSelectionIntervalStop with
  | zero => rfl
  | succ fuel ih =>
    have hdistinct : l.Nodup := hnodup.of_map _
    have hle : nRound ≤ l.length := by omega
    have hsub := Rounds.rounds_subset CBlockIndex.getBlockTime (selectionHash C nStakeModifierPrev)
      (roundStop start) hl.ordered hdistinct hle
    have hcount := Rounds.rounds_length CBlockIndex.getBlockTime (selectionHash C nStakeModifierPrev)
      (roundStop start) hdistinct hle
    obtain ⟨pindex, hpick, hsucc⟩ := Rounds.rounds_succ CBlockIndex.getBlockTime
      (selectionHash C nStakeModifierPrev) (roundStop start) hdistinct
      (show (Rounds.rounds _ _ _ l nRound).length < l.length by omega)
    rw [selectRounds, hstop, selectBlockFromCandidates_none hl, leftOf_eq hnodup hsub, hpick]
    simp only [Option.map_some]
    have hbits := Rounds.bits_concat CBlockIndex.entropy (Rounds.rounds CBlockIndex.getBlockTime
      (selectionHash C nStakeModifierPrev) (roundStop start) l nRound) pindex
    rw [hcount, ← hsucc] at hbits
    have hrounds := @ih (nRound + 1) (by omega) _ (roundStop_succ start nRound).symm
    rw [hbits, hsucc, List.map_append, List.reverse_append] at hrounds
    rw [show nRound + (fuel + 1) = nRound + 1 + fuel by omega]
    exact hrounds

/-! ## A chain -/

/-- The candidates of a chain in order. -/
theorem ChainTo.sorted (h : s.ChainTo pindexPrev chain) :
    s.Sorted (sortedCandidates pindexPrev chain) where
  indexed e he := by
    rw [sortedCandidates, List.mem_insertionSort] at he
    exact h.indexed e (List.takeWhile_subset _ he)
  ordered := by
    have hpairwise : (sortedCandidates pindexPrev chain).Pairwise
        fun a b => candidateLe a.candidate b.candidate := by
      have hpairs := List.pairwise_insertionSort candidateLe
        ((selectionCandidates pindexPrev chain).map CBlockIndex.candidate)
      rw [← List.map_insertionSort (fun a b : CBlockIndex => candidateLe a.candidate b.candidate)
        candidateLe CBlockIndex.candidate _ fun _ _ _ _ => Iff.rfl] at hpairs
      exact List.pairwise_map.1 hpairs
    refine hpairwise.imp fun {a b} hle => ?_
    rcases hle with hlt | ⟨heq, -⟩
    · exact hlt.le
    · exact heq.le

theorem length_sortedCandidates (pindexPrev : CBlockIndex) (chain : List CBlockIndex) :
    (sortedCandidates pindexPrev chain).length = (selectionCandidates pindexPrev chain).length :=
  List.length_insertionSort _ _

theorem ChainTo.nodup_sorted (h : s.ChainTo pindexPrev chain) :
    ((sortedCandidates pindexPrev chain).map CBlockIndex.hash).Nodup := by
  have hperm := List.perm_insertionSort
    (fun a b : CBlockIndex => candidateLe a.candidate b.candidate)
    (selectionCandidates pindexPrev chain)
  refine (hperm.map CBlockIndex.hash).nodup_iff.2 (h.nodup_hash.sublist ?_)
  exact (List.takeWhile_sublist _).map _

/-- What `ComputeNextStakeModifier` returns on a chain with a last modifier. -/
theorem ChainTo.computeNextStakeModifier_eq (h : s.ChainTo pindexPrev chain) {last : CBlockIndex}
    (hlast : chain.find? CBlockIndex.generatedStakeModifier = some last) :
    s.computeNextStakeModifier C (some pindexPrev)
      = some (if pindexPrev.getBlockTime / nModifierInterval ≤ last.getBlockTime / nModifierInterval
          then (last.nStakeModifier, false)
          else (Rounds.bits CBlockIndex.entropy
            (selectedBlocks C last.nStakeModifier pindexPrev chain), true)) := by
  rw [computeNextStakeModifier]
  simp only
  rw [h.getLastStakeModifierFrom_eq le_rfl, hlast]
  simp only [Option.map_some]
  split
  · rfl
  · have hsort : (s.candidatesFrom (selectionIntervalStart pindexPrev) (pindexPrev.nHeight + 1)
        pindexPrev).insertionSort candidateLe
          = (sortedCandidates pindexPrev chain).map CBlockIndex.candidate := by
      rw [h.candidatesFrom_eq _ (Nat.lt_succ_self _), sortedCandidates,
        List.map_insertionSort _ candidateLe CBlockIndex.candidate _ fun _ _ _ _ => Iff.rfl]
      rfl
    have hrounds := @selectRounds_eq C s last.nStakeModifier _ h.sorted h.nodup_sorted
      (selectionIntervalStart pindexPrev) (min 64 (selectionCandidates pindexPrev chain).length) 0
      (by rw [length_sortedCandidates]; omega) (selectionIntervalStart pindexPrev)
      (by rw [roundStop, List.range_one, List.map_singleton, List.sum_singleton])
    rw [Nat.zero_add] at hrounds
    rw [← length_sortedCandidates, ← List.length_map CBlockIndex.candidate, ← hsort] at hrounds
    rw [selectedBlocks, ← length_sortedCandidates, ← List.length_map CBlockIndex.candidate, ← hsort]
    exact congrArg (Option.map fun m => (m, true)) hrounds

/-- **A chain with a generated modifier has a next one.** No round fails: the next modifier is the
last one, or the bits of as many distinct blocks of the selection interval as there are, up to 64.
Each is what its round is to pick: the block of the least selection hash, among those that are left
up to its stop time. Nodes with the chain compute the same. -/
theorem computeNextStakeModifier_chain (h : s.ChainTo pindexPrev chain)
    (hgenerated : ∃ e ∈ chain, e.generatedStakeModifier = true) :
    ∃ last, chain.find? CBlockIndex.generatedStakeModifier = some last ∧
      (if pindexPrev.getBlockTime / nModifierInterval ≤ last.getBlockTime / nModifierInterval then
        s.computeNextStakeModifier C (some pindexPrev) = some (last.nStakeModifier, false)
      else
        ∃ nStakeModifierNew selected,
          s.computeNextStakeModifier C (some pindexPrev) = some (nStakeModifierNew, true)
            ∧ selected.length = min 64 (selectionCandidates pindexPrev chain).length
            ∧ (selected.map CBlockIndex.hash).Nodup
            ∧ selected ⊆ selectionCandidates pindexPrev chain
            ∧ (∀ i pindex, selected[i]? = some pindex →
                Rounds.Picks CBlockIndex.getBlockTime (selectionHash C last.nStakeModifier)
                  (roundStop (selectionIntervalStart pindexPrev) i)
                  ((selectionCandidates pindexPrev chain).filter fun e => e ∉ selected.take i)
                  pindex)
            ∧ ∀ i, nStakeModifierNew.testBit i = selected[i]?.any CBlockIndex.entropy) ∧
      ∀ s' : NodeState, s'.ChainTo pindexPrev chain →
        s'.computeNextStakeModifier C (some pindexPrev)
          = s.computeNextStakeModifier C (some pindexPrev) := by
  obtain ⟨last, hlast⟩ := Option.isSome_iff_exists.1 (List.find?_isSome.2 hgenerated)
  refine ⟨last, hlast, ?_, fun s' h' => ?_⟩
  · have heq := h.computeNextStakeModifier_eq (C := C) hlast
    split at heq
    · next hkeep =>
      rw [if_pos hkeep]
      exact heq
    · next hnew =>
      rw [if_neg hnew]
      have hdistinct : (sortedCandidates pindexPrev chain).Nodup := h.nodup_sorted.of_map _
      have hle : min 64 (selectionCandidates pindexPrev chain).length
          ≤ (sortedCandidates pindexPrev chain).length := by
        rw [length_sortedCandidates]
        exact min_le_right _ _
      have hsub := Rounds.rounds_subset CBlockIndex.getBlockTime
        (selectionHash C last.nStakeModifier) (roundStop (selectionIntervalStart pindexPrev))
        h.sorted.ordered hdistinct hle
      refine ⟨_, selectedBlocks C last.nStakeModifier pindexPrev chain, heq,
        Rounds.rounds_length _ _ _ hdistinct hle, ?_, ?_, ?_, ?_⟩
      · refine (Rounds.rounds_nodup _ _ _ h.sorted.ordered hdistinct hle).map_on ?_
        intro a ha b hb heq
        exact List.inj_on_of_nodup_map h.nodup_sorted (hsub ha) (hsub hb) heq
      · intro e he
        exact (List.mem_insertionSort _).1 (hsub he)
      · intro i pindex hi
        refine (Rounds.rounds_picks _ _ _ h.sorted.ordered hdistinct hle hi).of_mem_iff fun e => ?_
        rw [List.mem_filter, List.mem_filter, sortedCandidates, List.mem_insertionSort]
        rfl
      · exact Rounds.testBit_bits _ _
  · rw [h'.computeNextStakeModifier_eq hlast, h.computeNextStakeModifier_eq hlast]

end NodeState

/-- A genesis entry, with its modifier. -/
noncomputable def modifierRoot : CBlockIndex :=
  { storedEntry sampleCrypto 0 sampleGenesis with nFlags := 4 }

/-- An entry on top of it, 700 seconds later and with an entropy bit. -/
noncomputable def modifierTip : CBlockIndex :=
  { modifierRoot with hash := 2, pprev := some 1, nHeight := 1, nTime := 1700, nFlags := 2 }

/-- A node with these two entries. -/
noncomputable def modifierNode : NodeState :=
  { sampleNode with
    mapBlockIndex := fun h =>
      if h = 1 then some modifierRoot else if h = 2 then some modifierTip else none }

/-- Two blocks make a modifier. -/
theorem computeNextStakeModifier_chain_sample :
    ∃ (nStakeModifierNew : Nat) (selected : List CBlockIndex),
      modifierNode.computeNextStakeModifier sampleCrypto (some modifierTip)
          = some (nStakeModifierNew, true)
        ∧ selected.length
          = min 64 (selectionCandidates modifierTip [modifierTip, modifierRoot]).length := by
  have hroot : modifierNode.ChainTo modifierRoot [modifierRoot] :=
    NodeState.ChainTo.root (by decide +kernel) rfl
  have hchain : modifierNode.ChainTo modifierTip [modifierTip, modifierRoot] :=
    NodeState.ChainTo.link rfl rfl rfl hroot
  obtain ⟨last, hlast, hnext, -⟩ := NodeState.computeNextStakeModifier_chain
    (C := sampleCrypto) hchain ⟨modifierRoot, by simp, by decide +kernel⟩
  obtain rfl : modifierRoot = last := by
    have hfirst : modifierTip.generatedStakeModifier = false := by decide +kernel
    have hsecond : modifierRoot.generatedStakeModifier = true := by decide +kernel
    rw [List.find?_cons, hfirst, List.find?_cons, hsecond] at hlast
    exact Option.some.inj hlast
  rw [if_neg (by decide +kernel)] at hnext
  obtain ⟨nStakeModifierNew, selected, heq, hlength, -⟩ := hnext
  exact ⟨nStakeModifierNew, selected, heq, hlength⟩

end MotaCoin
