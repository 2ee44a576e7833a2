import MotaCoin.ActiveChain
import MotaCoin.Lib.Stride

/-!
# Block locators

A node that asks for blocks names some of its own: the last ten, and then ever fewer of them, down
to the genesis block. The receiver starts from the first of these that is on its main chain, which
is not far below the last block the two chains share.

## Main definitions

* `NodeState.locatorFrom`, `NodeState.locator`: `CBlockLocator::Set`
* `NodeState.locatorBlockIndex`, `NodeState.distanceBack`: `GetBlockIndex` and `GetDistanceBack`
* `ChainTo`: the chain from the genesis block to a block

## Main results

* `locatorFrom_eq`: the entries of a locator
* `locator_shared`: what the receiver finds, and how far back it takes it to be
-/

namespace MotaCoin

open Ancestry (Climb BelowEq)

/-! ## The sender -/

namespace NodeState

variable (s : NodeState)

/-- The inner loop of `Set`: `nStep` blocks back, while there is one. -/
def stepBack : Nat → Option Uint256 → Option Uint256
  | _, none => none
  | 0, some pindex => some pindex
  | nStep + 1, some pindex => stepBack nStep (s.parentOf pindex)

/-- The loop of `Set`, at most `fuel` rounds of it: the entries, those in `vHave` first. -/
def locatorFrom : Nat → Option Uint256 → Int → List Uint256 → Option (List Uint256)
  | _, none, _, vHave => some (vHave ++ [hashGenesisBlock])
  | 0, some _, _, _ => none
  | fuel + 1, some pindex, nStep, vHave =>
    let vHave := vHave ++ [pindex]
    locatorFrom fuel (s.stepBack nStep.toNat (some pindex))
      (if 10 < vHave.length then toInt32 (nStep * 2) else nStep) vHave

/-- `CBlockLocator::Set`, with a round for every height. -/
def locator (pindex : Uint256) : Option (List Uint256) :=
  s.locatorFrom (s.heightOf pindex + 1) (some pindex) 1 []

/-! ## The receiver -/

/-- Whether an entry names a block of the main chain. -/
def isMainEntry (hash : Uint256) : Bool := (s.mapBlockIndex hash).isSome && s.isInMainChain hash

/-- `GetBlockIndex`. -/
def locatorBlockIndex (vHave : List Uint256) : Option Uint256 :=
  match vHave.find? s.isMainEntry with
  | some hash => some hash
  | none => s.pindexGenesisBlock

/-- The loop of `GetDistanceBack`. -/
def distanceBackFrom : List Uint256 → Int → Int → Int
  | [], nDistance, _ => nDistance
  | hash :: vHave, nDistance, nStep =>
    if s.isMainEntry hash then nDistance
    else
      let nDistance := toInt32 (nDistance + nStep)
      distanceBackFrom vHave nDistance (if 10 < nDistance then toInt32 (nStep * 2) else nStep)

/-- `GetDistanceBack`. -/
def distanceBack (vHave : List Uint256) : Int := s.distanceBackFrom vHave 0 1

end NodeState

/-- The chain from the genesis block, without it, to `t` is `v`. -/
structure ChainTo (s : NodeState) (t : Uint256) (v : List Uint256) : Prop where
  rises : s.Rises
  known : (s.mapBlockIndex NodeState.hashGenesisBlock).isSome
  root : s.parentOf NodeState.hashGenesisBlock = none
  height : s.heightOf NodeState.hashGenesisBlock = 0
  climb : Climb s.parentOf NodeState.hashGenesisBlock v t

/-- The blocks of a chain, from its last one down. -/
def downFrom (v : List Uint256) : List Uint256 := v.reverse ++ [NodeState.hashGenesisBlock]

section Chain

variable {s : NodeState} {t k : Uint256} {v : List Uint256}

/-- The main chain is what is below the tip. -/
theorem NodeState.LinkedExactly.isInMainChain_iff (hl : s.LinkedExactly t)
    (hbest : s.pindexBest = some t) :
    s.isInMainChain k = true ↔ BelowEq s.parentOf k t := by
  have hdef : s.isInMainChain k = true ↔ (∃ c, s.nextOf k = some c) ∨ t = k := by
    rw [NodeState.isInMainChain, hbest, Bool.or_eq_true, Option.isSome_iff_exists, beq_iff_eq,
      Option.some.injEq]
    rfl
  rw [hdef]
  constructor
  · rintro (⟨c, hc⟩ | rfl)
    · obtain ⟨hparent, hbelow⟩ := (hl k c).1 hc
      exact Relation.ReflTransGen.head hparent hbelow
    · exact Relation.ReflTransGen.refl
  · intro hbelow
    rcases Relation.ReflTransGen.cases_head hbelow with rfl | ⟨c, hc, hrest⟩
    · exact Or.inr rfl
    · exact Or.inl ⟨c, (hl k c).2 ⟨hc, hrest⟩⟩

theorem length_downFrom (v : List Uint256) : (downFrom v).length = v.length + 1 := by
  rw [downFrom, List.length_append, List.length_reverse, List.length_singleton]

theorem mem_downFrom : k ∈ downFrom v ↔ k = NodeState.hashGenesisBlock ∨ k ∈ v := by
  rw [downFrom, List.mem_append, List.mem_reverse, List.mem_singleton, or_comm]

/-- The main chain of a node is what is below its tip. -/
theorem ChainTo.belowEq_iff (h : ChainTo s t v) : BelowEq s.parentOf k t ↔ k ∈ downFrom v := by
  have hroot : BelowEq s.parentOf k NodeState.hashGenesisBlock ↔
      k = NodeState.hashGenesisBlock := by
    constructor
    · intro hbelow
      rcases Relation.ReflTransGen.cases_tail hbelow with heq | ⟨m, -, hstep⟩
      · exact heq.symm
      · cases h.root.symm.trans hstep
    · rintro rfl
      exact Relation.ReflTransGen.refl
  have hclimb : BelowEq s.parentOf k t ↔ k ∈ v ∨ BelowEq s.parentOf k NodeState.hashGenesisBlock :=
    h.rises.tree.belowEq_iff_of_climb h.climb
  rw [hclimb, hroot, mem_downFrom, or_comm]

/-- Steps back go down the chain. -/
theorem ChainTo.stepBack (h : ChainTo s t v) (nStep d : Nat) :
    s.stepBack nStep (downFrom v)[d]? = (downFrom v)[d + nStep]? := by
  have hstep := h.climb.getElem?_reverse h.root
  induction nStep generalizing d with
  | zero => cases (downFrom v)[d]? <;> simp [NodeState.stepBack]
  | succ nStep ih =>
    have hnext : (downFrom v)[d]?.bind s.parentOf = (downFrom v)[d + 1]? := hstep d
    have hrest := ih (d + 1)
    rw [show d + (nStep + 1) = d + 1 + nStep by omega, ← hrest, ← hnext]
    cases (downFrom v)[d]? with
    | none => cases nStep <;> rfl
    | some pindex => rfl

/-- Heights fall down the chain. -/
theorem ChainTo.heightOf (h : ChainTo s t v) {d : Nat} (hd : (downFrom v)[d]? = some k) :
    s.heightOf k + d = v.length := by
  have hlt : d < (downFrom v).length := (List.getElem?_eq_some_iff.mp hd).1
  rw [length_downFrom] at hlt
  rcases Nat.lt_or_ge d v.length with hdv | hdv
  · rw [downFrom, List.getElem?_append_left (by simpa using hdv),
      List.getElem?_reverse (by simpa using hdv)] at hd
    have hheight : s.heightOf k = s.heightOf NodeState.hashGenesisBlock + (v.length - 1 - d) + 1 :=
      h.rises.tree.height_of_getElem?_climb h.climb hd
    rw [h.height] at hheight
    omega
  · obtain rfl : d = v.length := by omega
    rw [downFrom, List.getElem?_append_right (by simp)] at hd
    obtain rfl : NodeState.hashGenesisBlock = k := by simpa using hd
    rw [h.height]
    omega

end Chain

/-! ## The entries of a locator -/

section Sender

variable {s : NodeState} {x : Uint256} {v : List Uint256}

theorem toInt32_natCast_mul_two {n : Nat} (h : n * 2 < 2 ^ 31) :
    toInt32 ((n : Int) * 2) = ((n * 2 : Nat) : Int) := by
  unfold toInt32
  omega

/-- The step that is doubled stays small. -/
theorem two_pow_mul_two_lt {k : Nat} (hk : 10 ≤ k) (h : Stride.dist 10 k < 2 ^ 30) :
    2 ^ (k - 10) * 2 < 2 ^ 31 := by
  have hone := Stride.dist_add_one 10 k
  omega

/-- **The rounds of `Set`**, `k` of them done. -/
theorem ChainTo.locatorFrom (h : ChainTo s x v) (hlen : v.length < 2 ^ 30) {fuel k : Nat}
    {vHave : List Uint256} (hfuel : v.length < Stride.dist 10 k + fuel) (hk : vHave.length = k)
    (hentries : ∀ i < k, vHave[i]? = (downFrom v)[Stride.dist 10 i]?) :
    ∃ entries, s.locatorFrom fuel (downFrom v)[Stride.dist 10 k]? ((2 ^ (k - 10) : Nat) : Int)
        vHave = some (entries ++ [NodeState.hashGenesisBlock]) ∧
      ∀ i, entries[i]? = (downFrom v)[Stride.dist 10 i]? := by
  have hdown := length_downFrom v
  induction fuel generalizing k vHave with
  | zero =>
    have hnone : (downFrom v)[Stride.dist 10 k]? = none := List.getElem?_eq_none (by omega)
    rw [hnone]
    refine ⟨vHave, rfl, fun i => ?_⟩
    rcases Nat.lt_or_ge i k with hi | hi
    · exact hentries i hi
    · have hle := (Stride.dist_strictMono 10).monotone hi
      rw [List.getElem?_eq_none (by omega), List.getElem?_eq_none (by omega)]
  | succ fuel ih =>
    cases hget : (downFrom v)[Stride.dist 10 k]? with
    | none =>
      have hge := List.getElem?_eq_none_iff.mp hget
      refine ⟨vHave, rfl, fun i => ?_⟩
      rcases Nat.lt_or_ge i k with hi | hi
      · exact hentries i hi
      · have hle := (Stride.dist_strictMono 10).monotone hi
        rw [List.getElem?_eq_none (by omega), List.getElem?_eq_none (by omega)]
    | some pindex =>
      have hlt := (List.getElem?_eq_some_iff.mp hget).1
      have hpos := Nat.two_pow_pos (k - 10)
      -- one more entry, and a step that is doubled after the eleventh
      have hstep : (if 10 < (vHave ++ [pindex]).length
          then toInt32 (((2 ^ (k - 10) : Nat) : Int) * 2) else ((2 ^ (k - 10) : Nat) : Int)) =
            ((2 ^ (k + 1 - 10) : Nat) : Int) := by
        rw [List.length_append, List.length_singleton, hk]
        split_ifs with hmany
        · rw [toInt32_natCast_mul_two (two_pow_mul_two_lt (by omega) (by omega)),
            show k + 1 - 10 = k - 10 + 1 by omega, Nat.pow_succ]
        · rw [show k + 1 - 10 = k - 10 by omega]
      have hnext : s.stepBack (2 ^ (k - 10)) (some pindex) =
          (downFrom v)[Stride.dist 10 (k + 1)]? := by
        rw [← hget, h.stepBack, Stride.dist_succ]
      rw [NodeState.locatorFrom, hstep, Int.toNat_natCast, hnext]
      refine ih ?_ (by rw [List.length_append, List.length_singleton, hk]) fun i hi => ?_
      · rw [Stride.dist_succ]
        omega
      · rcases Nat.lt_or_ge i k with hik | hik
        · rw [List.getElem?_append_left (by omega)]
          exact hentries i hik
        · obtain rfl : i = k := by omega
          rw [List.getElem?_append_right (by omega), hk, Nat.sub_self, hget]
          rfl

/-- The entries name blocks of the chain, each lower than the one before. -/
theorem ChainTo.entries_pairwise (h : ChainTo s x v) {entries : List Uint256}
    (hentries : ∀ i, entries[i]? = (downFrom v)[Stride.dist 10 i]?) :
    (entries.Pairwise fun a b => s.heightOf b < s.heightOf a) ∧
      ∀ a ∈ entries, BelowEq s.parentOf a x := by
  constructor
  · rw [List.pairwise_iff_getElem]
    intro i j hi hj hij
    have hgeti := hentries i
    have hgetj := hentries j
    rw [List.getElem?_eq_getElem hi] at hgeti
    rw [List.getElem?_eq_getElem hj] at hgetj
    have hheighti := h.heightOf hgeti.symm
    have hheightj := h.heightOf hgetj.symm
    have hdist := Stride.dist_strictMono 10 hij
    omega
  · intro a ha
    obtain ⟨i, hi⟩ := List.mem_iff_getElem?.mp ha
    rw [hentries i] at hi
    exact h.belowEq_iff.mpr (List.mem_iff_getElem?.mpr ⟨_, hi⟩)

end Sender

/-! ## What the receiver finds -/

section Receiver

variable {r : NodeState} {t k : Uint256} {w vHave : List Uint256}

theorem ChainTo.isSome (h : ChainTo r t w) (hk : k ∈ downFrom w) : (r.mapBlockIndex k).isSome := by
  rcases mem_downFrom.mp hk with rfl | hk
  · exact h.known
  · obtain ⟨p, hp⟩ := h.climb.exists_parent hk
    exact NodeState.isSome_of_parentOf_eq hp

/-- The entries that the receiver looks for are those on its main chain. -/
theorem ChainTo.isMainEntry_iff (h : ChainTo r t w) (hbest : r.pindexBest = some t)
    (hlinks : r.LinkedExactly t) : r.isMainEntry k = true ↔ k ∈ downFrom w := by
  rw [NodeState.isMainEntry, Bool.and_eq_true, hlinks.isInMainChain_iff hbest, h.belowEq_iff]
  exact and_iff_right_of_imp h.isSome

/-- `GetBlockIndex` is the first entry on the main chain. -/
theorem locatorBlockIndex_of_first {i : Nat} (hk : vHave[i]? = some k)
    (hmain : r.isMainEntry k = true)
    (hfirst : ∀ j < i, ∀ a, vHave[j]? = some a → r.isMainEntry a = false) :
    r.locatorBlockIndex vHave = some k := by
  have hfind : vHave.find? r.isMainEntry = some k := by
    rw [List.find?_eq_some_iff_getElem]
    obtain ⟨hi, hget⟩ := List.getElem?_eq_some_iff.mp hk
    refine ⟨hmain, i, hi, hget, fun j hj => ?_⟩
    rw [hfirst j hj _ (List.getElem?_eq_getElem (hj.trans hi))]
    rfl
  rw [NodeState.locatorBlockIndex, hfind]

theorem toInt32_natCast_add {m n : Nat} (h : m + n < 2 ^ 31) :
    toInt32 ((m : Int) + n) = ((m + n : Nat) : Int) := by
  unfold toInt32
  omega

/-- **`GetDistanceBack` retraces the steps** of `Set` up to the first entry on the main chain, `j`
entries of it done. -/
theorem distanceBackFrom_of_first {i j : Nat} (hji : j ≤ i) (hi : Stride.dist 10 i < 2 ^ 30)
    (hk : vHave[i - j]? = some k) (hmain : r.isMainEntry k = true)
    (hfirst : ∀ l < i - j, ∀ a, vHave[l]? = some a → r.isMainEntry a = false) :
    r.distanceBackFrom vHave (Stride.dist 10 j) ((2 ^ (j - 10) : Nat) : Int) =
      Stride.dist 10 i := by
  induction vHave generalizing j with
  | nil => cases hk
  | cons a vHave ih =>
    rw [NodeState.distanceBackFrom]
    rcases Nat.eq_or_lt_of_le hji with rfl | hlt
    · rw [Nat.sub_self] at hk
      obtain rfl : a = k := Option.some.inj hk
      rw [if_pos hmain]
    · have ha : r.isMainEntry a = false := hfirst 0 (Nat.sub_pos_of_lt hlt) a rfl
      have hle : Stride.dist 10 (j + 1) ≤ Stride.dist 10 i := (Stride.dist_strictMono 10).monotone hlt
      have hdist := Stride.dist_succ 10 j
      have hpos := Nat.two_pow_pos (j - 10)
      have hsucc : i - j = i - (j + 1) + 1 := by omega
      have hadd : toInt32 ((Stride.dist 10 j : Int) + ((2 ^ (j - 10) : Nat) : Int)) =
          (Stride.dist 10 (j + 1) : Int) := by
        rw [toInt32_natCast_add (by omega), Stride.dist_succ]
      -- the counter doubles its step where `Set` did
      have hdouble : (if (10 : Int) < (Stride.dist 10 (j + 1) : Int)
          then toInt32 (((2 ^ (j - 10) : Nat) : Int) * 2) else ((2 ^ (j - 10) : Nat) : Int)) =
            ((2 ^ (j + 1 - 10) : Nat) : Int) := by
        have hiff : (10 : Int) < (Stride.dist 10 (j + 1) : Int) ↔ 10 ≤ j := by
          rw [← Stride.lt_dist_iff 10]
          exact Int.ofNat_lt
        split_ifs with hmany
        · have hj := hiff.mp hmany
          rw [toInt32_natCast_mul_two (two_pow_mul_two_lt hj (by omega)),
            show j + 1 - 10 = j - 10 + 1 by omega, Nat.pow_succ]
        · have hj := mt hiff.mpr hmany
          rw [show j + 1 - 10 = j - 10 by omega]
      rw [ha, if_neg Bool.false_ne_true, hadd]
      dsimp only
      rw [hdouble]
      rw [hsucc, List.getElem?_cons_succ] at hk
      refine ih hlt hk fun l hl b hb => hfirst (l + 1) (by omega) b ?_
      rw [List.getElem?_cons_succ]
      exact hb

end Receiver

/-! ## Two chains that part -/

section Fork

variable {s r : NodeState} {x t k : Uint256} {v w : List Uint256} {f : Nat}

/-- What the receiver has of the sender's chain: the blocks up to the height `f`. -/
theorem ChainTo.shared_iff (hs : ChainTo s x v) (hf : f ≤ v.length) (hshared : v.take f = w.take f)
    (hleave : ∀ k ∈ v.drop f, k ∉ w) {d : Nat} (hd : (downFrom v)[d]? = some k) :
    k ∈ downFrom w ↔ v.length - f ≤ d := by
  have hheight := hs.heightOf hd
  rw [mem_downFrom]
  by_cases hroot : k = NodeState.hashGenesisBlock
  · subst hroot
    rw [hs.height] at hheight
    exact iff_of_true (.inl rfl) (by omega)
  · have hmem : k ∈ v := (mem_downFrom.mp (List.mem_iff_getElem?.mpr ⟨d, hd⟩)).resolve_left hroot
    obtain ⟨i, hi⟩ := List.mem_iff_getElem?.mp hmem
    have hlt : i < v.length := (List.getElem?_eq_some_iff.mp hi).1
    have hrise : s.heightOf k = s.heightOf NodeState.hashGenesisBlock + i + 1 :=
      hs.rises.tree.height_of_getElem?_climb hs.climb hi
    rw [hs.height] at hrise
    rcases Nat.lt_or_ge i f with hif | hif
    · refine iff_of_true (.inr ?_) (by omega)
      have htake : k ∈ v.take f := List.mem_iff_getElem?.mpr ⟨i, by rwa [List.getElem?_take_of_lt hif]⟩
      rw [hshared] at htake
      exact List.mem_of_mem_take htake
    · refine iff_of_false ?_ (by omega)
      have hdrop : k ∈ v.drop f :=
        List.mem_iff_getElem?.mpr ⟨i - f, by rwa [List.getElem?_drop, Nat.add_sub_cancel' hif]⟩
      rintro (h | h)
      · exact hroot h
      · exact hleave k hdrop h

/-- A block that both chains have is as high in both. -/
theorem ChainTo.heightOf_shared (hs : ChainTo s x v) (hr : ChainTo r t w)
    (hshared : v.take f = w.take f) (hleave : ∀ k ∈ v.drop f, k ∉ w) (hv : k ∈ downFrom v)
    (hw : k ∈ downFrom w) : r.heightOf k = s.heightOf k := by
  by_cases hroot : k = NodeState.hashGenesisBlock
  · rw [hroot, hr.height, hs.height]
  · have hmemv : k ∈ v := (mem_downFrom.mp hv).resolve_left hroot
    have hmemw : k ∈ w := (mem_downFrom.mp hw).resolve_left hroot
    have htake : k ∈ v.take f := by
      rw [← List.take_append_drop f v, List.mem_append] at hmemv
      exact hmemv.resolve_right fun hdrop => hleave k hdrop hmemw
    obtain ⟨i, hi⟩ := List.mem_iff_getElem?.mp htake
    have hif : i < f := by
      have hlt := (List.getElem?_eq_some_iff.mp hi).1
      rw [List.length_take] at hlt
      omega
    have hiw := hi
    rw [hshared, List.getElem?_take_of_lt hif] at hiw
    rw [List.getElem?_take_of_lt hif] at hi
    have hrises : s.heightOf k = s.heightOf NodeState.hashGenesisBlock + i + 1 :=
      hs.rises.tree.height_of_getElem?_climb hs.climb hi
    have hriser : r.heightOf k = r.heightOf NodeState.hashGenesisBlock + i + 1 :=
      hr.rises.tree.height_of_getElem?_climb hr.climb hiw
    rw [hrises, hriser, hs.height, hr.height]

/-- **What a locator does.** Its entries go down the sender's chain; the receiver finds a block of
both chains, which is not far below the last one they share; and it takes it to be as far back as it
is, the genesis block at the end of the locator aside. -/
theorem locator_shared (hs : ChainTo s x v) (hheight : s.heightOf x < 2 ^ 30) (hr : ChainTo r t w)
    (hbest : r.pindexBest = some t) (hlinks : r.LinkedExactly t) (hf : f ≤ s.heightOf x)
    (hshared : v.take f = w.take f) (hleave : ∀ k ∈ v.drop f, k ∉ w) :
    ∃ entries k,
      (∀ fuel, s.heightOf x < fuel → s.locatorFrom fuel (some x) 1 [] =
        some (entries ++ [NodeState.hashGenesisBlock])) ∧
      (entries.Pairwise fun a b => s.heightOf b < s.heightOf a) ∧
      (∀ a ∈ entries, BelowEq s.parentOf a x) ∧
      r.locatorBlockIndex (entries ++ [NodeState.hashGenesisBlock]) = some k ∧
      BelowEq s.parentOf k x ∧ BelowEq r.parentOf k t ∧
      r.heightOf k = s.heightOf k ∧ s.heightOf k ≤ f ∧
      f - s.heightOf k ≤ s.heightOf x - f - 11 ∧
      (k ∈ entries → r.distanceBack (entries ++ [NodeState.hashGenesisBlock]) =
        (s.heightOf x : Int) - s.heightOf k) := by
  have hx : (downFrom v)[0]? = some x := hs.climb.head?_reverse
  have hlen : s.heightOf x = v.length := hs.heightOf hx
  rw [hlen] at hheight hf ⊢
  have hset (fuel : Nat) (hfuel : v.length < fuel) : ∃ entries,
      s.locatorFrom fuel (some x) 1 [] = some (entries ++ [NodeState.hashGenesisBlock]) ∧
        ∀ i, entries[i]? = (downFrom v)[Stride.dist 10 i]? := by
    have hzero : v.length < Stride.dist 10 0 + fuel := by rwa [Stride.dist, Nat.zero_add]
    rw [← hx]
    exact hs.locatorFrom hheight hzero rfl fun i hi => absurd hi (Nat.not_lt_zero i)
  obtain ⟨entries, -, hentries⟩ := hset (v.length + 1) (Nat.lt_succ_self _)
  have hlocator (fuel : Nat) (hfuel : v.length < fuel) :
      s.locatorFrom fuel (some x) 1 [] = some (entries ++ [NodeState.hashGenesisBlock]) := by
    obtain ⟨entries', heq, hentries'⟩ := hset fuel hfuel
    rwa [List.ext_getElem? fun i => (hentries i).trans (hentries' i).symm]
  obtain ⟨hpairwise, hbelow⟩ := hs.entries_pairwise hentries
  -- the first entry that is not above the fork
  obtain ⟨i, hi, hbefore, hgap⟩ := Stride.exists_first 10 (v.length - f)
  have hnot (j : Nat) (hj : j < i) (a : Uint256) (ha : entries[j]? = some a) :
      r.isMainEntry a = false := by
    rw [hentries j] at ha
    rw [← Bool.not_eq_true, hr.isMainEntry_iff hbest hlinks,
      hs.shared_iff hf hshared hleave ha, Nat.not_le]
    exact hbefore j hj
  cases hget : entries[i]? with
  | some k =>
    have hk := hget
    rw [hentries i] at hk
    have hmemv : k ∈ downFrom v := List.mem_iff_getElem?.mpr ⟨_, hk⟩
    have hmemw : k ∈ downFrom w := (hs.shared_iff hf hshared hleave hk).mpr hi
    have hmain := (hr.isMainEntry_iff hbest hlinks).mpr hmemw
    have hik : i < entries.length := (List.getElem?_eq_some_iff.mp hget).1
    have hgetAll (j : Nat) (hj : j ≤ i) :
        (entries ++ [NodeState.hashGenesisBlock])[j]? = entries[j]? :=
      List.getElem?_append_left (by omega)
    have hkheight := hs.heightOf hk
    refine ⟨entries, k, hlocator, hpairwise, hbelow, ?_, hs.belowEq_iff.mpr hmemv,
      hr.belowEq_iff.mpr hmemw, hs.heightOf_shared hr hshared hleave hmemv hmemw, by omega,
      by omega, fun _ => ?_⟩
    · refine locatorBlockIndex_of_first ((hgetAll i le_rfl).trans hget) hmain fun j hj a ha => ?_
      exact hnot j hj a ((hgetAll j hj.le).symm.trans ha)
    · have hback : r.distanceBack (entries ++ [NodeState.hashGenesisBlock]) =
          (Stride.dist 10 i : Int) :=
        distanceBackFrom_of_first (Nat.zero_le i) (by omega) ((hgetAll i le_rfl).trans hget) hmain
          fun j hj a ha => hnot j hj a ((hgetAll j (Nat.le_of_lt hj)).symm.trans ha)
      rw [hback]
      omega
  | none =>
    -- all entries are above the fork, and the genesis block is what is found
    have hlast : (entries ++ [NodeState.hashGenesisBlock])[entries.length]? =
        some NodeState.hashGenesisBlock := List.getElem?_concat_length
    have hle : entries.length ≤ i := List.getElem?_eq_none_iff.mp hget
    have hover : v.length < Stride.dist 10 i := by
      rw [hentries i, List.getElem?_eq_none_iff, length_downFrom] at hget
      exact hget
    have hgenesis : NodeState.hashGenesisBlock ∈ downFrom w := mem_downFrom.mpr (.inl rfl)
    refine ⟨entries, NodeState.hashGenesisBlock, hlocator, hpairwise, hbelow, ?_,
      hs.belowEq_iff.mpr (mem_downFrom.mpr (.inl rfl)), hr.belowEq_iff.mpr hgenesis,
      hr.height.trans hs.height.symm, ?_, ?_, fun hmem => ?_⟩
    · refine locatorBlockIndex_of_first hlast ((hr.isMainEntry_iff hbest hlinks).mpr hgenesis)
        fun j hj a ha => ?_
      rw [List.getElem?_append_left hj] at ha
      exact hnot j (by omega) a ha
    · rw [hs.height]
      exact Nat.zero_le f
    · rw [hs.height]
      omega
    · obtain ⟨j, hj⟩ := List.mem_iff_getElem?.mp hmem
      have hji := (List.getElem?_eq_some_iff.mp hj).1
      have hfalse := hnot j (by omega) _ hj
      rw [(hr.isMainEntry_iff hbest hlinks).mpr hgenesis] at hfalse
      cases hfalse

/-! ### Two nodes with one block each -/

/-- The entry of a block of the chain with one block after the genesis block. -/
def chainEntry (hash : Uint256) (nHeight : Nat) (pprev pnext : Option Uint256) : CBlockIndex where
  hash := hash
  pprev := pprev
  pnext := pnext
  nFile := 1
  nBlockPos := nHeight
  nChainTrust := nHeight + 1
  nHeight := nHeight
  nMint := 0
  nMoneySupply := 0
  nFlags := 0
  nStakeModifier := 0
  nStakeModifierChecksum := 0
  prevoutStake := .null
  nStakeTime := 0
  hashProofOfStake := 0
  nVersion := 1
  hashMerkleRoot := 0
  nTime := 0
  nBits := 0
  nNonce := 0

/-- A node whose main chain is the genesis block and the block `a`. -/
def shortNode (a : Uint256) : NodeState where
  mapBlockIndex k :=
    if k = NodeState.hashGenesisBlock then
      some (chainEntry NodeState.hashGenesisBlock 0 none (some a))
    else if k = a then some (chainEntry a 1 (some NodeState.hashGenesisBlock) none)
    else none
  setStakeSeen := []
  pindexGenesisBlock := some NodeState.hashGenesisBlock
  pindexBest := some a
  hashBestChain := a
  nBestHeight := 1
  nBestChainTrust := 2
  nBestInvalidTrust := 0
  pblockindexFBBHLast := none
  hashSyncCheckpoint := NodeState.hashGenesisBlock
  hashPendingCheckpoint := 0
  mempool := ⟨∅, ∅⟩
  txdb := ⟨fun _ => none, none⟩
  blkFiles := fun _ _ => none
  walletSyncs := []

section ShortNode

variable {a : Uint256} (ha : a ≠ NodeState.hashGenesisBlock)
include ha

theorem parentOf_shortNode {p : Uint256} :
    (shortNode a).parentOf k = some p ↔ k = a ∧ p = NodeState.hashGenesisBlock := by
  unfold NodeState.parentOf shortNode
  dsimp only
  split_ifs with hroot htip
  · subst hroot
    simp [chainEntry, ha.symm]
  · simp [chainEntry, htip, eq_comm]
  · simp [htip]

omit ha in
theorem nextOf_shortNode {p : Uint256} :
    (shortNode a).nextOf p = some k ↔ p = NodeState.hashGenesisBlock ∧ k = a := by
  unfold NodeState.nextOf shortNode
  dsimp only
  split_ifs with hroot htip
  · simp [chainEntry, hroot, eq_comm]
  · simp [chainEntry, hroot]
  · simp [hroot]

theorem chainTo_shortNode : ChainTo (shortNode a) a [a] where
  rises := by
    intro k p hp
    obtain ⟨rfl, rfl⟩ := (parentOf_shortNode ha).mp hp
    simp [shortNode, NodeState.heightOf, chainEntry, ha]
  known := by simp [shortNode]
  root := by
    cases hp : (shortNode a).parentOf NodeState.hashGenesisBlock with
    | none => rfl
    | some p => exact absurd ((parentOf_shortNode ha).mp hp).1.symm ha
  height := by simp [shortNode, NodeState.heightOf, chainEntry]
  climb := ⟨(parentOf_shortNode ha).mpr ⟨rfl, rfl⟩, rfl⟩

theorem linkedExactly_shortNode : (shortNode a).LinkedExactly a := by
  intro p k
  rw [nextOf_shortNode, parentOf_shortNode ha]
  constructor
  · rintro ⟨rfl, rfl⟩
    exact ⟨⟨rfl, rfl⟩, Relation.ReflTransGen.refl⟩
  · rintro ⟨⟨rfl, rfl⟩, -⟩
    exact ⟨rfl, rfl⟩

end ShortNode

/-- Two nodes that share the genesis block only. -/
theorem locator_shared_shortNode : ∃ entries k,
    (∀ fuel, (shortNode 1).heightOf 1 < fuel → (shortNode 1).locatorFrom fuel (some 1) 1 [] =
      some (entries ++ [NodeState.hashGenesisBlock])) ∧
    (entries.Pairwise fun a b => (shortNode 1).heightOf b < (shortNode 1).heightOf a) ∧
    (∀ a ∈ entries, BelowEq (shortNode 1).parentOf a 1) ∧
    (shortNode 2).locatorBlockIndex (entries ++ [NodeState.hashGenesisBlock]) = some k ∧
    BelowEq (shortNode 1).parentOf k 1 ∧ BelowEq (shortNode 2).parentOf k 2 ∧
    (shortNode 2).heightOf k = (shortNode 1).heightOf k ∧ (shortNode 1).heightOf k ≤ 0 ∧
    0 - (shortNode 1).heightOf k ≤ (shortNode 1).heightOf 1 - 0 - 11 ∧
    (k ∈ entries → (shortNode 2).distanceBack (entries ++ [NodeState.hashGenesisBlock]) =
      ((shortNode 1).heightOf 1 : Int) - (shortNode 1).heightOf k) :=
  locator_shared (chainTo_shortNode (by decide)) (by decide) (chainTo_shortNode (by decide)) rfl
    (linkedExactly_shortNode (by decide)) (by decide) rfl (by decide)

end Fork

end MotaCoin
