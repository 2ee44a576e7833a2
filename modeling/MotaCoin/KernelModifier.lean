import MotaCoin.ActiveChain
import MotaCoin.NextModifier

/-!
# The modifier of a kernel

`GetKernelStakeModifier` climbs the active chain from a block until a modifier was generated a
selection interval after it, and hands out that modifier with its height and time. Block times need
not increase and the walk fails where it meets the tip, but once it has succeeded further blocks do
not change what it finds.

## Main definitions

* `NodeState.ActiveFrom`: the active chain above a block
* `NodeState.kernelModifier`: `GetKernelStakeModifier` with all that it returns

## Main results

* `getKernelStakeModifier_eq`: the model of the kernel check reads the modifier of it
* `kernelModifier_stable`: it is the first that is late enough, on every longer chain
* `goodLookupRun_activeFrom`: runs leave such a chain above every block of the tip
-/

namespace MotaCoin

/-- What `GetKernelStakeModifier` returns. -/
structure KernelModifier where
  nStakeModifier : Nat
  nStakeModifierHeight : Nat
  nStakeModifierTime : Int
deriving DecidableEq

/-- The modifier of an entry that generated one. -/
def CBlockIndex.kernelModifier (pindex : CBlockIndex) : KernelModifier :=
  ⟨pindex.nStakeModifier, pindex.nHeight, pindex.getBlockTime⟩

/-- An entry without its link up the active chain. -/
def CBlockIndex.unlinked (pindex : CBlockIndex) : CBlockIndex := { pindex with pnext := none }

namespace NodeState

variable (s : NodeState)

/-- The loop of `GetKernelStakeModifier`, with the height and the time of the last modifier. -/
def kernelModifierFrom (nStop : Int) : Nat → CBlockIndex → Nat → Int → Option KernelModifier
  | 0, _, _, _ => none
  | fuel + 1, pindex, nStakeModifierHeight, nStakeModifierTime =>
    if nStakeModifierTime < nStop then
      match pindex.pnext.bind s.mapBlockIndex with
      | none => none
      | some pnext =>
        if pnext.generatedStakeModifier then
          kernelModifierFrom nStop fuel pnext pnext.nHeight pnext.getBlockTime
        else kernelModifierFrom nStop fuel pnext nStakeModifierHeight nStakeModifierTime
    else some ⟨pindex.nStakeModifier, nStakeModifierHeight, nStakeModifierTime⟩

/-- `GetKernelStakeModifier`, with the height and the time. -/
def kernelModifier (hashBlockFrom : Uint256) : Option KernelModifier :=
  match s.mapBlockIndex hashBlockFrom with
  | none => none
  | some pindexFrom =>
    s.kernelModifierFrom (pindexFrom.getBlockTime + getStakeModifierSelectionInterval)
      (s.nBestHeight.toNat + 2) pindexFrom pindexFrom.nHeight pindexFrom.getBlockTime

theorem getKernelStakeModifierFrom_eq (nStop : Int) (fuel : Nat) (pindex : CBlockIndex)
    (nStakeModifierHeight : Nat) (nStakeModifierTime : Int) :
    s.getKernelStakeModifierFrom nStop fuel pindex nStakeModifierTime
      = (s.kernelModifierFrom nStop fuel pindex nStakeModifierHeight nStakeModifierTime).map
          KernelModifier.nStakeModifier := by
  induction fuel generalizing pindex nStakeModifierHeight nStakeModifierTime with
  | zero => rfl
  | succ fuel ih =>
    rw [getKernelStakeModifierFrom, kernelModifierFrom]
    split
    · cases pindex.pnext.bind s.mapBlockIndex with
      | none => rfl
      | some pnext =>
        simp only
        split
        · exact ih pnext pnext.nHeight _
        · exact ih pnext nStakeModifierHeight _
    · rfl

/-- The kernel check reads the modifier. -/
theorem getKernelStakeModifier_eq (hashBlockFrom : Uint256) :
    s.getKernelStakeModifier hashBlockFrom
      = (s.kernelModifier hashBlockFrom).map KernelModifier.nStakeModifier := by
  rw [getKernelStakeModifier, kernelModifier]
  cases s.mapBlockIndex hashBlockFrom with
  | none => rfl
  | some pindexFrom => exact s.getKernelStakeModifierFrom_eq _ _ _ _ _

/-- **The active chain** from `pindex` up: every entry is in the tree under its own hash and links to
the next, which is one higher, up to the tip. -/
inductive ActiveFrom : CBlockIndex → List CBlockIndex → Prop
  | tip {pindex : CBlockIndex} : s.mapBlockIndex pindex.hash = some pindex →
      pindex.pnext = none → (pindex.nHeight : Int) = s.nBestHeight → ActiveFrom pindex []
  | link {pindex pnext : CBlockIndex} {above : List CBlockIndex} :
      s.mapBlockIndex pindex.hash = some pindex → pindex.pnext = some pnext.hash →
      pnext.nHeight = pindex.nHeight + 1 → ActiveFrom pnext above →
      ActiveFrom pindex (pnext :: above)

variable {s} {pindex : CBlockIndex} {above : List CBlockIndex}

namespace ActiveFrom

theorem mapBlockIndex_eq (h : s.ActiveFrom pindex above) :
    s.mapBlockIndex pindex.hash = some pindex := by
  cases h with
  | tip hself _ _ => exact hself
  | link hself _ _ _ => exact hself

theorem height_eq (h : s.ActiveFrom pindex above) :
    (pindex.nHeight : Int) + above.length = s.nBestHeight := by
  induction h with
  | tip _ _ hbest => rw [List.length_nil, Nat.cast_zero, add_zero, hbest]
  | link _ _ hheight _ ih =>
    rw [List.length_cons]
    omega

/-- **The walk** finds the first entry above that generated a modifier late enough. -/
theorem kernelModifierFrom_eq (h : s.ActiveFrom pindex above) {nStop : Int} {fuel : Nat}
    (hfuel : above.length < fuel) {nStakeModifierHeight : Nat} {nStakeModifierTime : Int}
    (hearly : nStakeModifierTime < nStop) :
    s.kernelModifierFrom nStop fuel pindex nStakeModifierHeight nStakeModifierTime
      = (above.find? fun e => e.generatedStakeModifier && decide (nStop ≤ e.getBlockTime)).map
          CBlockIndex.kernelModifier := by
  induction h generalizing fuel nStakeModifierHeight nStakeModifierTime with
  | tip _ htip _ =>
    cases fuel with
    | zero => rfl
    | succ fuel =>
      rw [kernelModifierFrom, if_pos hearly, htip]
      rfl
  | @link pindex pnext above _ hnext _ habove ih =>
    cases fuel with
    | zero => exact absurd hfuel (Nat.not_lt_zero _)
    | succ fuel =>
      have hfuel' : above.length < fuel := by
        rw [List.length_cons] at hfuel
        omega
      rw [kernelModifierFrom, if_pos hearly, hnext, Option.bind_some, habove.mapBlockIndex_eq,
        List.find?_cons]
      simp only
      by_cases hgenerated : pnext.generatedStakeModifier = true
      · rw [if_pos hgenerated, hgenerated]
        by_cases hlate : nStop ≤ pnext.getBlockTime
        · -- The loop ends on the block it has just read.
          obtain ⟨fuel, rfl⟩ : ∃ fuel', fuel = fuel' + 1 := ⟨fuel - 1, by omega⟩
          rw [kernelModifierFrom, if_neg (not_lt.2 hlate), decide_eq_true hlate]
          rfl
        · rw [ih hfuel' (not_le.1 hlate), decide_eq_false hlate]
          rfl
      · rw [if_neg hgenerated, Bool.eq_false_iff.2 hgenerated]
        exact ih hfuel' hearly

theorem kernelModifier_eq (h : s.ActiveFrom pindex above) :
    s.kernelModifier pindex.hash
      = (above.find? fun e => e.generatedStakeModifier && decide
          (pindex.getBlockTime + getStakeModifierSelectionInterval ≤ e.getBlockTime)).map
            CBlockIndex.kernelModifier := by
  have hfuel : above.length < s.nBestHeight.toNat + 2 := by
    have := h.height_eq
    omega
  rw [kernelModifier, h.mapBlockIndex_eq]
  refine h.kernelModifierFrom_eq hfuel ?_
  have hinterval : (0 : Int) < getStakeModifierSelectionInterval := by decide
  omega

end ActiveFrom

/-- A search of entries reads nothing of their links. -/
theorem find_unlinked (above : List CBlockIndex) (nStop : Int) :
    (above.find? fun e => e.generatedStakeModifier && decide (nStop ≤ e.getBlockTime)).map
        CBlockIndex.kernelModifier
      = ((above.map CBlockIndex.unlinked).find?
          fun e => e.generatedStakeModifier && decide (nStop ≤ e.getBlockTime)).map
            CBlockIndex.kernelModifier := by
  rw [List.find?_map, Option.map_map]
  rfl

/-- **The modifier of a kernel is stable.** On the active chain the walk returns the modifier, the
height and the time of the first block above that generated one at least a selection interval after
the block. A chain that extends it, with other links only, returns the same. -/
theorem kernelModifier_stable (h : s.ActiveFrom pindex above) :
    s.getKernelStakeModifier pindex.hash
        = (s.kernelModifier pindex.hash).map KernelModifier.nStakeModifier
      ∧ s.kernelModifier pindex.hash
        = (above.find? fun e => e.generatedStakeModifier && decide
            (pindex.getBlockTime + getStakeModifierSelectionInterval ≤ e.getBlockTime)).map
              CBlockIndex.kernelModifier
      ∧ ∀ (s' : NodeState) (pindex' : CBlockIndex) (above' : List CBlockIndex),
          s'.ActiveFrom pindex' above' → pindex'.unlinked = pindex.unlinked →
          above.map CBlockIndex.unlinked <+: above'.map CBlockIndex.unlinked →
          ∀ r, s.kernelModifier pindex.hash = some r → s'.kernelModifier pindex.hash = some r := by
  refine ⟨s.getKernelStakeModifier_eq _, h.kernelModifier_eq, ?_⟩
  intro s' pindex' above' h' hsame hprefix r hr
  have hhash : pindex'.hash = pindex.hash := by
    change pindex'.unlinked.hash = pindex.unlinked.hash
    rw [hsame]
  have htime : pindex'.getBlockTime = pindex.getBlockTime := by
    change pindex'.unlinked.getBlockTime = pindex.unlinked.getBlockTime
    rw [hsame]
  obtain ⟨more, hmore⟩ := hprefix
  rw [h.kernelModifier_eq, find_unlinked] at hr
  rw [← hhash, h'.kernelModifier_eq, htime, find_unlinked, ← hmore, List.find?_append]
  obtain ⟨e, he, rfl⟩ := Option.map_eq_some_iff.1 hr
  rw [he]
  rfl

end NodeState

/-- **Runs whose postponed blocks are connected** leave an active chain above every ancestor of the
tip. -/
theorem goodLookupRun_activeFrom {C : Crypto} {s : NodeState}
    (hrun : LookupRun C (fun env s b h => PostponedOK C env s b h) s) :
    ∃ t, s.pindexBest = some t ∧ ∀ x e, Ancestry.BelowEq s.parentOf x t →
      s.mapBlockIndex x = some e → ∃ above, s.ActiveFrom e above := by
  obtain ⟨t, hs, ha⟩ := goodLookupRun_activeOK hrun
  have hT := hs.committed.tree
  refine ⟨t, hs.pindexBest, fun x e hbelow => ?_⟩
  induction hbelow using Relation.ReflTransGen.head_induction_on generalizing e with
  | refl =>
    intro he
    have hhash := hT.hash_eq he
    refine ⟨[], .tip (hhash ▸ he) ?_ ?_⟩
    · -- Nothing above the tip is on its way.
      rw [Option.eq_none_iff_forall_ne_some]
      intro k hk
      have hnext : s.nextOf t = some k := by rw [NodeState.nextOf, he, Option.bind_some, hk]
      obtain ⟨hparent, hkt⟩ := (ha.links t k).1 hnext
      have hle := Ancestry.Tree.height_le_of_belowEq (T := hT.tree) hkt
      have hstep := hT.tree.height_of_parent hparent
      omega
    · rw [hs.nBestHeight, NodeState.heightOf, he]
      rfl
  | head hstep hbelow ih =>
    rename_i x k
    intro he
    have hhash := hT.hash_eq he
    obtain ⟨n, hn⟩ := Option.isSome_iff_exists.1 (NodeState.isSome_of_parentOf_eq hstep)
    obtain ⟨above, habove⟩ := ih n hn
    have hnext := (ha.links x k).2 ⟨hstep, hbelow⟩
    rw [NodeState.nextOf, he, Option.bind_some] at hnext
    have hheight := hT.heightOf_of_parentOf hstep
    rw [NodeState.heightOf, NodeState.heightOf, he, hn] at hheight
    refine ⟨n :: above, .link (hhash ▸ he) ?_ hheight habove⟩
    rw [hnext, hT.hash_eq hn]

/-- The first of two blocks on the active chain. -/
noncomputable def kernelFrom : CBlockIndex := { modifierRoot with pnext := some 2 }

/-- A block a selection interval later, with a modifier. -/
noncomputable def kernelTip : CBlockIndex :=
  { modifierTip with nTime := 30000, nFlags := 4, nStakeModifier := 5 }

/-- A node whose active chain has these two blocks. -/
noncomputable def kernelChainNode : NodeState :=
  { sampleNode with
    mapBlockIndex := fun h => if h = 1 then some kernelFrom else if h = 2 then some kernelTip else none
    nBestHeight := 1 }

/-- The second block has the modifier of the first. -/
theorem kernelModifier_stable_sample :
    kernelChainNode.kernelModifier kernelFrom.hash = some ⟨5, 1, 30000⟩ := by
  have htip : kernelChainNode.ActiveFrom kernelTip [] := NodeState.ActiveFrom.tip rfl rfl rfl
  have hactive : kernelChainNode.ActiveFrom kernelFrom [kernelTip] :=
    NodeState.ActiveFrom.link (by decide +kernel) rfl rfl htip
  rw [(NodeState.kernelModifier_stable hactive).2.1]
  decide +kernel

end MotaCoin
