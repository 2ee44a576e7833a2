import MotaCoin.BlockTree
import MotaCoin.Consistency

/-!
# Looking up the active chain by height

`FindBlockByHeight` starts from the genesis block, the tip or the block it returned last, whichever
is nearest, and follows `pprev` down and `pnext` up. The links `pnext` are rewired by
reorganizations, and the last block is only forgotten when the tip moves.

## Main definitions

* `NodeState.findBlockByHeight`
* `LookupRun`: runs with lookups in between
* `ActiveOK`: the links are those of the active chain, and the last block is on it

## Main results

* `findBlockByHeight_spec`: a lookup finds the ancestor of the tip
* `goodLookupRun_findBlockByHeight`: runs whose postponed blocks are connected keep that so
-/

namespace MotaCoin

open Ancestry (Walk Climb BelowEq)

/-! ## The lookup -/

namespace NodeState

variable (s : NodeState)

/-- The loop `while (cond) pblockindex = link`; `none` is a null pointer. -/
def followWhile (cond : CBlockIndex → Bool) (link : CBlockIndex → Option Uint256) :
    Nat → Uint256 → Option Uint256
  | 0, pblockindex =>
    match s.mapBlockIndex pblockindex with
    | none => none
    | some e => if cond e then none else some pblockindex
  | fuel + 1, pblockindex =>
    match s.mapBlockIndex pblockindex with
    | none => none
    | some e =>
      if cond e then
        match link e with
        | none => none
        | some next => followWhile cond link fuel next
      else some pblockindex

/-- Where `FindBlockByHeight` starts. -/
def lookupStart (nHeight : Int) : Option Uint256 :=
  match (if nHeight < s.nBestHeight.tdiv 2 then s.pindexGenesisBlock else s.pindexBest) with
  | none => none
  | some pblockindex =>
    match s.pblockindexFBBHLast with
    | none => some pblockindex
    | some last =>
      if (nHeight - s.heightOf last).natAbs < (nHeight - s.heightOf pblockindex).natAbs then some last
      else some pblockindex

/-- `FindBlockByHeight`, with the block it remembers; `none` is a null pointer. Heights fall along
`pprev` and rise along `pnext`, which bounds the loops. -/
def findBlockByHeight (nHeight : Int) : Option (Uint256 × NodeState) :=
  match s.lookupStart nHeight with
  | none => none
  | some start =>
    match s.followWhile (fun e => decide (nHeight < e.nHeight)) CBlockIndex.pprev
        (s.heightOf start) start with
    | none => none
    | some low =>
      match s.followWhile (fun e => decide ((e.nHeight : Int) < nHeight)) CBlockIndex.pnext
          (nHeight - s.heightOf low).toNat low with
      | none => none
      | some pblockindex =>
        some (pblockindex, { s with pblockindexFBBHLast := some pblockindex })

/-- The forward links are those of the way from a root to `t`, and no others. -/
def LinkedExactly (t : Uint256) : Prop :=
  ∀ p k, s.nextOf p = some k ↔ s.parentOf k = some p ∧ BelowEq s.parentOf k t

end NodeState

variable {C : Crypto} {env : Env} {s s' : NodeState} {t : Uint256}

/-- **What a lookup needs**: the links of the active chain, a last block on it, and a genesis block at
height zero. -/
structure ActiveOK (s : NodeState) (t : Uint256) : Prop where
  links : s.LinkedExactly t
  last : ∀ c, s.pblockindexFBBHLast = some c → BelowEq s.parentOf c t
  genesis : ∀ g, s.pindexGenesisBlock = some g → s.heightOf g = 0

/-- A property that the links keep holds of where the loop ends. -/
theorem followWhile_keeps {P : Uint256 → Prop} {cond : CBlockIndex → Bool}
    {link : CBlockIndex → Option Uint256}
    (hlink : ∀ x e k, s.mapBlockIndex x = some e → link e = some k → P x → P k) {fuel : Nat} :
    ∀ {x r : Uint256}, P x → s.followWhile cond link fuel x = some r → P r := by
  induction fuel with
  | zero =>
    intro x r hx h
    rw [NodeState.followWhile] at h
    cases he : s.mapBlockIndex x with
    | none =>
      rw [he] at h
      cases h
    | some e =>
      rw [he] at h
      simp only at h
      split at h
      · cases h
      · obtain rfl := Option.some.inj h
        exact hx
  | succ fuel ih =>
    intro x r hx h
    rw [NodeState.followWhile] at h
    cases he : s.mapBlockIndex x with
    | none =>
      rw [he] at h
      cases h
    | some e =>
      rw [he] at h
      simp only at h
      split at h
      · cases hk : link e with
        | none =>
          rw [hk] at h
          cases h
        | some k =>
          rw [hk] at h
          exact ih (hlink x e k he hk hx) h
      · obtain rfl := Option.some.inj h
        exact hx

/-- What is below a known block is known. -/
theorem NodeState.Rises.isSome_of_belowEq (hR : s.Rises) {x : Uint256}
    (ht : (s.mapBlockIndex t).isSome) (hx : BelowEq s.parentOf x t) :
    (s.mapBlockIndex x).isSome := by
  rcases Relation.ReflTransGen.cases_head hx with rfl | ⟨k, hk, -⟩
  · exact ht
  · exact (hR _ _ hk).1

section Lookup

variable (hT : TreeOK C s) (hs : ActiveOK s t)
include hT hs

/-- The way down from a block meets every height on it. -/
theorem followWhile_pprev {n : Nat} :
    ∀ {fuel : Nat} {x : Uint256}, (s.mapBlockIndex x).isSome → s.heightOf x ≤ fuel + n →
      ∃ y, s.followWhile (fun e => decide ((n : Int) < e.nHeight)) CBlockIndex.pprev fuel x = some y ∧
        BelowEq s.parentOf y x ∧ (s.mapBlockIndex y).isSome ∧
          s.heightOf y = min n (s.heightOf x) := by
  intro fuel
  induction fuel with
  | zero =>
    intro x hx hle
    obtain ⟨e, he⟩ := Option.isSome_iff_exists.1 hx
    have hheight : s.heightOf x = e.nHeight := by simp [NodeState.heightOf, he]
    refine ⟨x, ?_, Relation.ReflTransGen.refl, hx, by omega⟩
    rw [NodeState.followWhile, he]
    simp only
    rw [decide_eq_false (by omega)]
    rfl
  | succ fuel ih =>
    intro x hx hle
    obtain ⟨e, he⟩ := Option.isSome_iff_exists.1 hx
    have hheight : s.heightOf x = e.nHeight := by simp [NodeState.heightOf, he]
    rw [NodeState.followWhile, he]
    simp only
    by_cases hhigh : (n : Int) < e.nHeight
    · rw [if_pos (decide_eq_true hhigh)]
      cases hprev : e.pprev with
      | none =>
        -- Only the genesis block has no parent, and it is not above any height.
        have hzero := hs.genesis x (hT.root he hprev)
        omega
      | some p =>
        have hp : s.parentOf x = some p := by simp [NodeState.parentOf, he, hprev]
        have hstep := hT.heightOf_of_parentOf hp
        obtain ⟨y, hy, hbelow, hknown, hmin⟩ := ih (hT.isSome_of_parentOf hp) (by omega)
        exact ⟨y, hy, hbelow.tail hp, hknown, by omega⟩
    · rw [if_neg (by simpa using hhigh)]
      exact ⟨x, rfl, Relation.ReflTransGen.refl, hx, by omega⟩

/-- The links lead up the active chain to every height on it. -/
theorem followWhile_pnext {n : Nat} (hn : n ≤ s.heightOf t) :
    ∀ {fuel : Nat} {x : Uint256}, (s.mapBlockIndex x).isSome → BelowEq s.parentOf x t →
      s.heightOf x ≤ n → n ≤ s.heightOf x + fuel →
      ∃ y, s.followWhile (fun e => decide ((e.nHeight : Int) < n)) CBlockIndex.pnext fuel x = some y ∧
        BelowEq s.parentOf y t ∧ s.heightOf y = n := by
  intro fuel
  induction fuel with
  | zero =>
    intro x hx hbelow hle hfuel
    obtain ⟨e, he⟩ := Option.isSome_iff_exists.1 hx
    have hheight : s.heightOf x = e.nHeight := by simp [NodeState.heightOf, he]
    refine ⟨x, ?_, hbelow, by omega⟩
    rw [NodeState.followWhile, he]
    simp only
    rw [decide_eq_false (by omega)]
    rfl
  | succ fuel ih =>
    intro x hx hbelow hle hfuel
    obtain ⟨e, he⟩ := Option.isSome_iff_exists.1 hx
    have hheight : s.heightOf x = e.nHeight := by simp [NodeState.heightOf, he]
    rw [NodeState.followWhile, he]
    simp only
    by_cases hlow : (e.nHeight : Int) < n
    · rw [if_pos (decide_eq_true hlow)]
      obtain ⟨k, hnext, hk, hkbelow⟩ := Ancestry.Tree.LinkedExactly.exists_next (T := hT.tree)
        hs.links hbelow (show s.heightOf x < s.heightOf t by omega)
      have hk : s.heightOf k = s.heightOf x + 1 := hk
      have hpnext : e.pnext = some k := by
        rw [NodeState.nextOf, he, Option.bind_some] at hnext
        exact hnext
      have hparent := ((hs.links x k).1 hnext).1
      rw [hpnext]
      exact ih (NodeState.isSome_of_parentOf_eq hparent) hkbelow (by omega) (by omega)
    · rw [if_neg (by simpa using hlow)]
      exact ⟨x, rfl, hbelow, by omega⟩

omit hs in
/-- Every block is above the genesis block. -/
theorem genesis_belowEq (x : Uint256) :
    (s.mapBlockIndex x).isSome → ∃ g, s.pindexGenesisBlock = some g ∧ BelowEq s.parentOf g x := by
  induction x using Ancestry.Tree.induction_parent (T := hT.tree) with
  | root x hroot =>
    intro hx
    obtain ⟨e, he⟩ := Option.isSome_iff_exists.1 hx
    have hprev : e.pprev = none := by
      have hnone : s.parentOf x = none := hroot
      rwa [NodeState.parentOf, he, Option.bind_some] at hnone
    exact ⟨x, hT.root he hprev, Relation.ReflTransGen.refl⟩
  | step x p hp ih =>
    intro _
    obtain ⟨g, hg, hbelow⟩ := ih (hT.isSome_of_parentOf hp)
    exact ⟨g, hg, hbelow.tail hp⟩

/-- A lookup starts on the active chain. -/
theorem lookupStart_spec (hbest : s.pindexBest = some t) (ht : (s.mapBlockIndex t).isSome)
    (nHeight : Int) : ∃ x, s.lookupStart nHeight = some x ∧ BelowEq s.parentOf x t := by
  obtain ⟨g, hg, hgt⟩ := genesis_belowEq hT t ht
  obtain ⟨x, hx, hxt⟩ : ∃ x, (if nHeight < s.nBestHeight.tdiv 2 then s.pindexGenesisBlock
      else s.pindexBest) = some x ∧ BelowEq s.parentOf x t := by
    split
    · exact ⟨g, hg, hgt⟩
    · exact ⟨t, hbest, Relation.ReflTransGen.refl⟩
  rw [NodeState.lookupStart, hx]
  cases hlast : s.pblockindexFBBHLast with
  | none => exact ⟨x, rfl, hxt⟩
  | some last =>
    simp only
    split
    · exact ⟨last, rfl, hs.last last hlast⟩
    · exact ⟨x, rfl, hxt⟩

/-- **A lookup finds the ancestor of the tip** at its height, and remembers it. -/
theorem findBlockByHeight_spec (hbest : s.pindexBest = some t) (ht : (s.mapBlockIndex t).isSome)
    {n : Nat} (hn : n ≤ s.heightOf t) :
    ∃ r, s.findBlockByHeight n = some (r, { s with pblockindexFBBHLast := some r }) ∧
      BelowEq s.parentOf r t ∧ s.heightOf r = n := by
  obtain ⟨x, hstart, hxt⟩ := lookupStart_spec hT hs hbest ht n
  have hx := hT.rises.isSome_of_belowEq ht hxt
  obtain ⟨y, hdown, hyx, hy, hmin⟩ := followWhile_pprev hT hs (n := n) hx (Nat.le_add_right _ n)
  have hyt : BelowEq s.parentOf y t := hyx.trans hxt
  have hyn : s.heightOf y ≤ n := by omega
  obtain ⟨r, hup, hrt, hr⟩ := followWhile_pnext hT hs hn hy hyt hyn
    (show n ≤ s.heightOf y + (n - s.heightOf y) by omega)
  refine ⟨r, ?_, hrt, hr⟩
  rw [NodeState.findBlockByHeight, hstart]
  simp only
  rw [hdown]
  simp only
  rw [show ((n : Int) - s.heightOf y).toNat = n - s.heightOf y by omega, hup]

/-- Whatever height is looked up, the block that is remembered is on the active chain. -/
theorem findBlockByHeight_belowEq (hbest : s.pindexBest = some t) (ht : (s.mapBlockIndex t).isSome)
    {nHeight : Int} {r : Uint256} (h : s.findBlockByHeight nHeight = some (r, s')) :
    s' = { s with pblockindexFBBHLast := some r } ∧ BelowEq s.parentOf r t := by
  obtain ⟨x, hstart, hxt⟩ := lookupStart_spec hT hs hbest ht nHeight
  rw [NodeState.findBlockByHeight, hstart] at h
  simp only at h
  split at h
  · cases h
  · next low hlow =>
    have hlt : BelowEq s.parentOf low t := by
      refine followWhile_keeps (P := fun x => BelowEq s.parentOf x t) ?_ hxt hlow
      intro x e k he hk hx
      exact Relation.ReflTransGen.head (by simp [NodeState.parentOf, he, hk]) hx
    split at h
    · cases h
    · next high hhigh =>
      have hht : BelowEq s.parentOf high t := by
        refine followWhile_keeps (P := fun x => BelowEq s.parentOf x t) ?_ hlt hhigh
        intro x e k he hk _
        exact ((hs.links x k).1 (by simp [NodeState.nextOf, he, hk])).2
      obtain ⟨rfl, rfl⟩ := Prod.mk.inj (Option.some.inj h)
      exact ⟨rfl, hht⟩

end Lookup

/-! ## How the links move -/

section Links

variable {h p : Uint256} {b : CBlock}

theorem NodeState.LinkedExactly.congr (hl : s.LinkedExactly t) (htree : SameTree s s')
    (hnext : s'.nextOf = s.nextOf) : s'.LinkedExactly t := by
  intro p k
  rw [hnext, htree.parentOf]
  exact hl p k

theorem NodeState.LinkedExactly.push (hR : s.Rises) (hl : s.LinkedExactly p)
    (hp : s.parentOf h = some p) : (s.setPrevNext h (some h)).LinkedExactly h := by
  intro q k
  rw [nextOf_setPrevNext hR hp, (setPrevNext_sameTree s h (some h)).parentOf]
  exact Ancestry.Tree.LinkedExactly.push (T := hR.tree) hl hp q k

theorem NodeState.LinkedExactly.pop (hR : s.Rises) (hl : s.LinkedExactly h)
    (hp : s.parentOf h = some p) : (s.setPrevNext h none).LinkedExactly p := by
  intro q k
  rw [nextOf_setPrevNext hR hp, (setPrevNext_sameTree s h none).parentOf]
  exact Ancestry.Tree.LinkedExactly.pop (T := hR.tree) hl hp q k

/-- A block on top of the tip is linked to it. -/
theorem setBestChainInner_linkedExactly (hR : s.Rises) (hl : s.LinkedExactly p)
    (hp : s.parentOf h = some p) (hok : (s.setBestChainInner C env b h).1 = true) :
    (s.setBestChainInner C env b h).2.LinkedExactly h := by
  obtain ⟨hc, hcommit⟩ := setBestChainInner_fst_iff.1 hok
  have hframe := connectBlock_frame C env s b h
  generalize hs₁ : s.connectBlock C env b h = c at *
  have hr : (c.2.commitBest env (b.getHash C)).1 = true := (commitBest_fst _ _).2 hcommit
  obtain ⟨txdb, heq, -⟩ := commitBest_spec hr
  have htree : SameTree s (c.2.withTxdb txdb) := hframe.tree.trans (sameTree_withTxdb _ _)
  have hpushed : ((c.2.withTxdb txdb).setPrevNext h (some h)).LinkedExactly h :=
    NodeState.LinkedExactly.push (htree.rises hR) (hl.congr htree hframe.next)
      ((congrFun htree.parentOf h).trans hp)
  simp only [NodeState.setBestChainInner, hs₁, hc, hr, heq, Bool.not_true, Bool.false_eq_true,
    if_false]
  exact hpushed

/-- `Reorganize` leaves the links of the chain it moved to. -/
theorem reorganize_linkedExactly {a : Uint256} (hR : s.Rises) (hl : s.LinkedExactly t)
    (hbest : s.pindexBest = some t) (hok : (s.reorganize C env a).1 = true) :
    (s.reorganize C env a).2.LinkedExactly a := by
  obtain ⟨t', f, vDisconnect, walk, hbest', -, hw₁, hw₂, -, -, -, m, hres⟩ := reorganize_eq_true hok
  obtain rfl : t = t' := Option.some.inj (hbest.symm.trans hbest')
  have hframe := (disconnectLoop_frame C env vDisconnect s []).trans
    (connectLoop_frame C env walk.reverse (NodeState.disconnectLoop C env vDisconnect s []).2.1 [])
  generalize (NodeState.connectLoop C env walk.reverse
    (NodeState.disconnectLoop C env vDisconnect s []).2.1 []).2.1 = c at *
  have htree : SameTree s (c.commitBest env a).2 := hframe.tree.trans (sameTree_withTxdb _ _)
  obtain ⟨-, hlinked⟩ := relink_spec (C := C) (fun htree hR => htree.rises hR)
    (fun hR hl hp => NodeState.LinkedExactly.pop hR hl hp)
    (fun hR hl hp => NodeState.LinkedExactly.push hR hl hp) (htree.rises hR)
    (hl.congr htree hframe.next) (htree.parentOf ▸ walkTo_spec hw₁)
    (htree.parentOf ▸ (walkTo_spec hw₂).climb)
  rw [hres]
  exact hlinked

/-- The loop "Connect further blocks" links what it connects. -/
theorem connectFurther_linkedExactly {v : List Uint256} :
    ∀ {s : NodeState} {f a : Uint256}, CommittedAt C s f → s.LinkedExactly f →
      Climb s.parentOf f v a → (NodeState.connectFurther C env v s).1 = true →
      (NodeState.connectFurther C env v s).2.LinkedExactly a := by
  induction v with
  | nil =>
    intro s f a _ hl hc _
    obtain rfl : f = a := hc
    exact hl
  | cons j v ih =>
    intro s f a hs hl hc hok
    obtain ⟨hp, hc'⟩ := hc
    simp only [NodeState.connectFurther] at hok ⊢
    cases hr : s.readFromDisk C env j with
    | none =>
      rw [hr] at hok
      cases hok
    | some b =>
      rw [hr] at hok
      simp only at hok ⊢
      obtain ⟨htree, -, hcom⟩ := setBestChainInner_step hs hp hr
      split at hok
      · next hinner =>
        rw [if_pos hinner] at hcom ⊢
        have hlinked := setBestChainInner_linkedExactly (C := C) (s := s.txnBegin)
          ((sameTree_withTxdb s _).rises hs.tree.rises) hl hp hinner
        exact ih hcom hlinked (htree.parentOf ▸ hc') hok
      · cases hok

/-- **A call whose postponed blocks are connected** leaves the links of the chain of its block. -/
theorem setBestChain_linkedExactly (hs : Synced C s t) (hl : s.LinkedExactly t)
    (hb : s.blockOf h = some b) (hpost : PostponedOK C env s b h)
    (hok : (s.setBestChain C env b h).1 = true) :
    (s.setBestChain C env b h).2.LinkedExactly h := by
  obtain ⟨e, he, hfile⟩ := NodeState.blockOf_eq_some hb
  have hT₀ : TreeOK C s.txnBegin := (sameTree_withTxdb s _).treeOK hs.committed.tree
  rw [setBestChain_of_ok C env hok]
  rw [setBestChain_fst] at hok
  suffices hbranches : (s.txnBegin.setBestChainBranches C env b h).2.LinkedExactly h from hbranches
  rw [setBestChainBranches_of_synced hs] at hok ⊢
  split at hok
  · next hprev =>
    rw [if_pos hprev]
    have hp : s.parentOf h = some t :=
      hs.committed.tree.parentOf_eq_of_hashPrevBlock he hfile hprev hs.committed.known
    exact setBestChainInner_linkedExactly hT₀.rises hl hp hok
  · next hprev =>
    rw [if_neg hprev]
    have hsame : s.txnBegin.postpone t h = s.postpone t h :=
      postpone_congr (sameTree_withTxdb s _) t h
    unfold NodeState.setBestChainReorganize at hok ⊢
    simp only [show s.txnBegin.pindexBest = some t from hs.pindexBest, hsame] at hok ⊢
    split at hok
    · cases hok
    · next hr =>
      rw [if_neg hr]
      have hr : (s.txnBegin.reorganize C env (s.postpone t h).1).1 = true := by simpa using hr
      obtain ⟨hcom, htree, htip⟩ := reorganize_committed hs.committed hs.pindexBest hr
      have hclimb := htree.parentOf.symm ▸ postpone_spec (s := s) t h
      refine connectFurther_linkedExactly hcom
        (reorganize_linkedExactly hT₀.rises hl hs.pindexBest hr) hclimb ?_
      rw [connectFurther_fst_iff hcom hclimb htree htip]
      exact hpost (hs.hashBestChain ▸ hprev) t hs.pindexBest

/-- A step of the chain logic forgets the last block or leaves it. -/
theorem ChainStep.last_eq (h : ChainStep C env s s') :
    s'.pblockindexFBBHLast = s.pblockindexFBBHLast ∨ s'.pblockindexFBBHLast = none := by
  cases h with
  | txnBegin => exact Or.inl rfl
  | abortInvalid =>
    left
    unfold NodeState.abortInvalid NodeState.invalidChainFound
    split <;> rfl
  | commitBest => exact Or.inl rfl
  | connectBlock =>
    left
    unfold NodeState.connectBlock
    split
    · rfl
    · split <;> rfl
  | disconnectBlock =>
    left
    unfold NodeState.disconnectBlock
    split
    · rfl
    · simp only
      split <;> rfl
  | setPrevNext =>
    left
    unfold NodeState.setPrevNext
    split <;> rfl
  | mempool => exact Or.inl rfl
  | genesis => exact Or.inl rfl
  | newBestBlock => exact Or.inr rfl

theorem ChainSteps.last_eq (h : ChainSteps C env s s') :
    s'.pblockindexFBBHLast = s.pblockindexFBBHLast ∨ s'.pblockindexFBBHLast = none := by
  induction h with
  | refl => exact Or.inl rfl
  | tail _ hstep ih =>
    rcases hstep.last_eq with heq | hnone
    · rw [heq]
      exact ih
    · exact Or.inr hnone

end Links

/-! ## Runs with lookups -/

variable (C) in
/-- **Runs with lookups**: as `Run`, where a block that enters the tree has no link yet, and heights
are looked up in between. -/
inductive LookupRun (Call : Env → NodeState → CBlock → Uint256 → Prop) : NodeState → Prop
  | genesis {s : NodeState} {g : Uint256} : GenesisState C s g → s.heightOf g = 0 →
      (∀ h, s.nextOf h = none) → s.pblockindexFBBHLast = none → LookupRun Call s
  | grow {s s' : NodeState} : LookupRun Call s → Grows C s s' →
      (∀ h, s.mapBlockIndex h = none → s'.nextOf h = none) →
      s'.pblockindexFBBHLast = s.pblockindexFBBHLast → LookupRun Call s'
  | call {s : NodeState} {env : Env} {b : CBlock} {h : Uint256} : LookupRun Call s →
      s.blockOf h = some b → Call env s b h → LookupRun Call (s.setBestChain C env b h).2
  | lookup {s s' : NodeState} {nHeight : Int} {r : Uint256} : LookupRun Call s →
      s.findBlockByHeight nHeight = some (r, s') → LookupRun Call s'

/-- A lookup changes only what it remembers. -/
theorem findBlockByHeight_eq {nHeight : Int} {r : Uint256}
    (h : s.findBlockByHeight nHeight = some (r, s')) :
    s' = { s with pblockindexFBBHLast := some r } := by
  rw [NodeState.findBlockByHeight] at h
  split at h
  · cases h
  · split at h
    · cases h
    · split at h
      · cases h
      · obtain ⟨rfl, rfl⟩ := Prod.mk.inj (Option.some.inj h)
        rfl

theorem TreeOK.withLast (hT : TreeOK C s) (r : Option Uint256) :
    TreeOK C { s with pblockindexFBBHLast := r } :=
  (show SameTree s { s with pblockindexFBBHLast := r } from ⟨fun _ => rfl, rfl, rfl⟩).treeOK hT

theorem Synced.withLast (hs : Synced C s t) (r : Option Uint256) :
    Synced C { s with pblockindexFBBHLast := r } t := by
  have hgrows : Grows C s { s with pblockindexFBBHLast := r } :=
    ⟨hs.committed.tree.withLast r, fun h => h, fun _ => rfl, rfl, ⟨rfl, rfl, rfl, rfl⟩,
      hs.committed.batch, rfl, rfl⟩
  exact hs.grow hgrows

/-- New entries do not change what is below a known block. -/
theorem NodeState.Rises.belowEq_congr (hR : s.Rises)
    (hparent : ∀ x, (s.mapBlockIndex x).isSome → s'.parentOf x = s.parentOf x)
    (ht : (s.mapBlockIndex t).isSome) {x : Uint256} :
    BelowEq s'.parentOf x t ↔ BelowEq s.parentOf x t :=
  Ancestry.belowEq_congr hparent (fun _ _ _ hp => (hR _ _ hp).1) ht

/-- New entries without links leave the links exact. -/
theorem NodeState.LinkedExactly.grow (hl : s.LinkedExactly t) (hR : s.Rises)
    (ht : (s.mapBlockIndex t).isSome)
    (hparent : ∀ x, (s.mapBlockIndex x).isSome → s'.parentOf x = s.parentOf x)
    (hold : ∀ x, (s.mapBlockIndex x).isSome → s'.nextOf x = s.nextOf x)
    (hnew : ∀ x, s.mapBlockIndex x = none → s'.nextOf x = none) : s'.LinkedExactly t := by
  intro p k
  rw [hR.belowEq_congr hparent ht]
  have hiff : s.nextOf p = some k ↔ s'.parentOf k = some p ∧ BelowEq s.parentOf k t := by
    rw [hl p k]
    refine and_congr_left fun hk => ?_
    rw [hparent k (hR.isSome_of_belowEq ht hk)]
  rw [← hiff]
  cases hp : s.mapBlockIndex p with
  | none => rw [hnew p hp, NodeState.nextOf, hp, Option.bind_none]
  | some e => rw [hold p (by rw [hp]; rfl)]

/-- The links stay those of the active chain while the tree grows. -/
theorem ActiveOK.grow (ha : ActiveOK s t) (hs : Synced C s t) (h : Grows C s s')
    (hnew : ∀ h, s.mapBlockIndex h = none → s'.nextOf h = none)
    (hlast : s'.pblockindexFBBHLast = s.pblockindexFBBHLast) : ActiveOK s' t := by
  have hR := hs.committed.tree.rises
  have ht := hs.committed.known
  have hparent : ∀ x, (s.mapBlockIndex x).isSome → s'.parentOf x = s.parentOf x :=
    fun x hx => h.treeLe.parentOf hx
  refine ⟨?_, fun c hc => ?_, fun g hg => ?_⟩
  · refine ha.links.grow hR ht hparent (fun x hx => ?_) hnew
    rw [NodeState.nextOf, NodeState.nextOf, h.mapBlockIndex_eq hx]
  · rw [hR.belowEq_congr hparent ht]
    exact ha.last c (hlast ▸ hc)
  · obtain ⟨g', hg', hknown, -⟩ := hs.committed.genesis
    obtain rfl := Option.some.inj ((h.genesis.trans hg').symm.trans hg)
    rw [NodeState.heightOf, h.mapBlockIndex_eq hknown]
    exact ha.genesis g' hg'

/-- Parents and heights depend on the fixed part of the entries only. -/
theorem SameIndex.sameTree (h : SameIndex s s') :
    SameTree s { s' with blkFiles := s.blkFiles, pindexGenesisBlock := s.pindexGenesisBlock } :=
  ⟨h.skeleton, rfl, rfl⟩

theorem SameIndex.parentOf (h : SameIndex s s') : s'.parentOf = s.parentOf := h.sameTree.parentOf

theorem SameIndex.heightOf (h : SameIndex s s') : s'.heightOf = s.heightOf := h.sameTree.heightOf

/-- What is left to show of a call: the links of its tip. -/
theorem ActiveOK.of_call {h : Uint256} {b : CBlock} (ha : ActiveOK s t) (hs : Synced C s t)
    {t' : Uint256} (hs' : Synced C (s.setBestChain C env b h).2 t')
    (hlast : ∀ c, (s.setBestChain C env b h).2.pblockindexFBBHLast = some c →
      BelowEq s.parentOf c t')
    (hlinks : (s.setBestChain C env b h).2.LinkedExactly t') :
    ActiveOK (s.setBestChain C env b h).2 t' := by
  have hindex := (setBestChain_chainSteps C env s b h).sameIndex.1
  refine ⟨hlinks, fun c hc => ?_, fun g hg => ?_⟩
  · rw [hindex.parentOf]
    exact hlast c hc
  · obtain ⟨g', hg', hknown, hroot⟩ := hs'.committed.genesis
    obtain rfl := Option.some.inj (hg'.symm.trans hg)
    rw [hindex.heightOf]
    rw [hindex.isSome] at hknown
    rw [hindex.parentOf] at hroot
    obtain ⟨e, he⟩ := Option.isSome_iff_exists.1 hknown
    rw [NodeState.parentOf, he, Option.bind_some] at hroot
    exact ha.genesis g' (hs.committed.tree.root he hroot)

/-- **A call whose postponed blocks are connected** keeps the links those of the active chain. -/
theorem ActiveOK.setBestChain {h : Uint256} {b : CBlock} (ha : ActiveOK s t) (hs : Synced C s t)
    (hb : s.blockOf h = some b) (hpost : PostponedOK C env s b h) :
    ∃ t', Synced C (s.setBestChain C env b h).2 t' ∧ ActiveOK (s.setBestChain C env b h).2 t' := by
  have hindex := (setBestChain_chainSteps C env s b h).sameIndex.1
  cases hok : (s.setBestChain C env b h).1 with
  | false =>
    have hs' := setBestChain_synced_of_failed hs hb hok
    refine ⟨t, hs', ha.of_call hs hs' (fun c hc => ?_) fun p k => ?_⟩
    · rcases (setBestChain_chainSteps C env s b h).last_eq with heq | hnone
      · exact ha.last c (heq.symm.trans hc)
      · cases hnone.symm.trans hc
    · rw [(Unchanged.of_setBestChain hok).next, hindex.parentOf]
      exact ha.links p k
  | true =>
    obtain ⟨k, hk, hiff, hbest, hhash, hheight, htrust⟩ := setBestChain_ok hs hb hok
    obtain rfl := hiff.1 hpost
    have hs' : Synced C (s.setBestChain C env b k).2 k := ⟨hk, hbest, hhash, hheight, htrust⟩
    refine ⟨k, hs', ha.of_call hs hs' (fun c hc => ?_)
      (setBestChain_linkedExactly hs ha.links hb hpost hok)⟩
    -- A call that succeeds forgets the last block.
    rw [setBestChain_of_ok C env hok] at hc
    cases hc

/-- **Runs whose postponed blocks are connected** keep the links those of the active chain. -/
theorem goodLookupRun_activeOK
    (hrun : LookupRun C (fun env s b h => PostponedOK C env s b h) s) :
    ∃ t, Synced C s t ∧ ActiveOK s t := by
  induction hrun with
  | @genesis s g hg hheight hnext hlast =>
    refine ⟨g, hg.synced, fun p k => ?_, fun c hc => ?_, fun g' hg' => ?_⟩
    · exact Ancestry.Tree.LinkedExactly.of_root (T := hg.tree.tree) hg.root hnext p k
    · cases hlast.symm.trans hc
    · obtain rfl := Option.some.inj (hg.genesis.symm.trans hg')
      exact hheight
  | grow _ hgrow hnew hlast ih =>
    obtain ⟨t, hs, ha⟩ := ih
    exact ⟨t, hs.grow hgrow, ha.grow hs hgrow hnew hlast⟩
  | call _ hb hpost ih =>
    obtain ⟨t, hs, ha⟩ := ih
    exact ha.setBestChain hs hb hpost
  | lookup _ hfound ih =>
    obtain ⟨t, hs, ha⟩ := ih
    obtain ⟨rfl, hbelow⟩ := findBlockByHeight_belowEq hs.committed.tree ha hs.pindexBest
      hs.committed.known hfound
    refine ⟨t, hs.withLast _, ha.links, fun c hc => ?_, ha.genesis⟩
    obtain rfl := Option.some.inj hc
    exact hbelow

/-- The sample chain with a fourth block. -/
def lookupChain : List StoredBlock := sampleChain ++ [⟨sampleBlock 4 5 4 42000000, 4, 5⟩]

/-- Hashes that number the blocks and their coinbases from one. -/
noncomputable def lookupCrypto : Crypto :=
  labelCrypto ((sampleGenesis :: lookupChain).flatMap fun x => x.block.vtx)
    ((sampleGenesis :: lookupChain).map fun x => x.block.getBlockHeader)

/-- The node that stores the four blocks. -/
noncomputable def lookupNode : NodeState := storedNode lookupCrypto (sampleGenesis :: lookupChain)

theorem lookupChain_storable : Storable lookupCrypto sampleGenesis lookupChain where
  nodup := by decide +kernel
  hash_ne_zero := by decide +kernel
  genesis := by decide +kernel
  parent := by decide +kernel
  distinct := by decide +kernel

/-- Stored blocks have no links. -/
theorem nextOf_storedNode (l : List StoredBlock) (h : Uint256) :
    (storedNode C l).nextOf h = none := by
  cases he : (storedNode C l).mapBlockIndex h with
  | none => rw [NodeState.nextOf, he, Option.bind_none]
  | some e =>
    obtain ⟨i, x, -, -, rfl⟩ := Storable.exists_of_mapBlockIndex he
    rw [NodeState.nextOf, he]
    rfl

theorem lookupNode_run (Call : Env → NodeState → CBlock → Uint256 → Prop) :
    LookupRun lookupCrypto Call lookupNode :=
  LookupRun.genesis lookupChain_storable.genesisState (by decide +kernel)
    (nextOf_storedNode (sampleGenesis :: lookupChain)) rfl

/-- The node after a call for the fourth block: the first block was committed, the second one
refused, and the globals name the fourth one. -/
noncomputable def lookupNode₁ : NodeState :=
  (lookupNode.setBestChain lookupCrypto (sampleEnv false) (sampleBlock 4 5 4 42000000) 5).2

/-- The node after the height of the first block was looked up. -/
noncomputable def lookupNode₂ : NodeState := { lookupNode₁ with pblockindexFBBHLast := some 2 }

end MotaCoin
