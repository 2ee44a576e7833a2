import Mathlib.Algebra.BigOperators.Group.Finset.Basic
import Mathlib.Algebra.Order.BigOperators.Group.List
import MotaCoin.Lib.Masks
import MotaCoin.Primitives

/-!
# Coin selection

`SelectCoinsMinConf`, which chooses coins of the wallet that cover a target: one that meets it exactly,
all the small ones, a subset of them that a random search finds, or the least of the larger ones.
`ApproximateBestSubset` is the search. What is drawn at random, and how coins of the same amount are
sorted, are parameters.

## Main definitions

* `COutput`, `WalletCoin`, `CoinLimits`: the coins, and which of them are eligible
* `CoinDraws`: the shuffle, the sort and the random bits
* `collectCoins`: the loop over the coins
* `approximateBestSubset`, `searchSubset`, `selectCoinsMinConf`

## Main results

* `approximateBestSubset_spec`: the amount of the search is the one of the subset it marks
* `selectCoinsMinConf_spec`: when coins are selected, and what they add up to
-/

namespace MotaCoin

/-! ## Coins -/

/-- `COutput`: an output of a transaction of the wallet, and its depth. -/
structure COutput where
  tx : CTransaction
  i : Nat
  nDepth : Int
  txout : CTxOut
  vout_eq : tx.vout[i]? = some txout

/-- `pair<const CWalletTx*, unsigned int>`: the wallet has a transaction in one place. -/
abbrev WalletCoin := CTransaction × Nat

/-- `pcoin->vout[i].nValue`. -/
def WalletCoin.value (coin : WalletCoin) : Int := ((coin.1.vout[coin.2]?).map CTxOut.nValue).getD 0

/-- `make_pair(n, make_pair(pcoin, i))`. -/
def COutput.coin (output : COutput) : Int × WalletCoin := (output.txout.nValue, output.tx, output.i)

/-- The limits of a selection, and which transactions are from the wallet. -/
structure CoinLimits where
  nSpendTime : Nat
  nConfMine : Int
  nConfTheirs : Int
  /-- `IsFromMe`. -/
  isFromMe : CTransaction → Bool

/-- A coin is deep enough, and its transaction is not later than the time to spend at. -/
def CoinLimits.eligible (limits : CoinLimits) (output : COutput) : Bool :=
  !decide (output.nDepth < if limits.isFromMe output.tx then limits.nConfMine else limits.nConfTheirs) &&
    !decide (limits.nSpendTime < output.tx.nTime)

/-- What is drawn: the shuffle of the coins, how equal amounts are sorted, and the bits of the two
searches, for a repetition and a coin. -/
structure CoinDraws where
  shuffle : List COutput → List COutput
  shuffle_perm : ∀ vCoins, (shuffle vCoins).Perm vCoins
  sort : List (Int × WalletCoin) → List (Int × WalletCoin)
  sort_perm : ∀ vValue, (sort vValue).Perm vValue
  sort_pairwise : ∀ vValue, (sort vValue).Pairwise fun t₁ t₂ => t₂.1 ≤ t₁.1
  rand : Nat → Nat → Bool
  randSecond : Nat → Nat → Bool

/-! ## The random search -/

/-- The variables of a repetition, with the best subset so far. -/
structure SubsetSearch where
  vfIncluded : List Bool
  nTotal : Int
  fReachedTarget : Bool
  vfBest : List Bool
  nBest : Int

/-- A coin is looked at, and included if it is wanted; one that reaches the target is taken out
again. -/
def SubsetSearch.visit (nTargetValue : Int) (wanted : SubsetSearch → Nat → Bool) (st : SubsetSearch)
    (item : (Int × WalletCoin) × Nat) : SubsetSearch :=
  let ((first, _), i) := item
  if !wanted st i then st
  else
    let nTotal := Int64.wrap (st.nTotal + first)
    let vfIncluded := st.vfIncluded.set i true
    if nTargetValue ≤ nTotal then {
      vfIncluded := vfIncluded.set i false
      nTotal := Int64.wrap (nTotal - first)
      fReachedTarget := true
      vfBest := if nTotal < st.nBest then vfIncluded else st.vfBest
      nBest := if nTotal < st.nBest then nTotal else st.nBest }
    else { st with vfIncluded := vfIncluded, nTotal := nTotal }

/-- One repetition: a pass that includes coins at random, and one over the coins left out if that did
not reach the target. -/
def SubsetSearch.repetition (vValue : List (Int × WalletCoin)) (nTargetValue : Int) (rand : Nat → Bool)
    (vfBest : List Bool) (nBest : Int) : SubsetSearch :=
  let st := vValue.zipIdx.foldl (visit nTargetValue fun _ i => rand i)
    ⟨List.replicate vValue.length false, 0, false, vfBest, nBest⟩
  if st.fReachedTarget then st
  else vValue.zipIdx.foldl (visit nTargetValue fun st i => !st.vfIncluded.getD i false) st

/-- The repetitions from `nRep` on, with the number that is left. -/
def approximateFrom (vValue : List (Int × WalletCoin)) (nTargetValue : Int) (rand : Nat → Nat → Bool) :
    Nat → Nat → List Bool × Int → List Bool × Int
  | 0, _, best => best
  | left + 1, nRep, best =>
    if best.2 = nTargetValue then best
    else
      let st := SubsetSearch.repetition vValue nTargetValue (rand nRep) best.1 best.2
      approximateFrom vValue nTargetValue rand left (nRep + 1) (st.vfBest, st.nBest)

/-- **`ApproximateBestSubset`**: `vfBest` and `nBest`. -/
def approximateBestSubset (vValue : List (Int × WalletCoin)) (nTotalLower nTargetValue : Int)
    (rand : Nat → Nat → Bool) (iterations : Nat) : List Bool × Int :=
  approximateFrom vValue nTargetValue rand iterations 0
    (List.replicate vValue.length true, nTotalLower)

/-! ## The selection -/

/-- The coins below the target, and the least of the larger ones. -/
structure LowerCoins where
  vValue : List (Int × WalletCoin)
  nTotalLower : Int
  coinLowestLarger : Int × Option WalletCoin

/-- The variables before the loop over the coins. -/
def LowerCoins.init : LowerCoins := ⟨[], 0, 9223372036854775807, none⟩

/-- The loop over the coins: it ends with one that meets the target, or sorts them into the lower ones
and the others. -/
def collectCoins (limits : CoinLimits) (nTargetValue : Int) :
    List COutput → LowerCoins → (Int × WalletCoin) ⊕ LowerCoins
  | [], st => .inr st
  | output :: vCoins, st =>
    if !limits.eligible output then collectCoins limits nTargetValue vCoins st
    else
      let coin := output.coin
      if coin.1 = nTargetValue then .inl coin
      else if coin.1 < Int64.wrap (nTargetValue + CENT) then
        collectCoins limits nTargetValue vCoins { st with
          vValue := st.vValue ++ [coin]
          nTotalLower := Int64.wrap (st.nTotalLower + coin.1) }
      else if coin.1 < st.coinLowestLarger.1 then
        collectCoins limits nTargetValue vCoins { st with coinLowestLarger := (coin.1, some coin.2) }
      else collectCoins limits nTargetValue vCoins st

/-- What `SelectCoinsMinConf` returns. -/
structure CoinSelection where
  /-- The result. -/
  fSelected : Bool
  setCoinsRet : Finset WalletCoin
  nValueRet : Int
  deriving DecidableEq

/-- A coin is inserted into the set, and its amount is added. -/
def CoinSelection.add (r : CoinSelection) (coin : Int × WalletCoin) : CoinSelection :=
  { r with
    setCoinsRet := insert coin.2 r.setCoinsRet
    nValueRet := Int64.wrap (r.nValueRet + coin.1) }

/-- The result true with coins. -/
def CoinSelection.ofCoins (coins : List (Int × WalletCoin)) : CoinSelection :=
  coins.foldl add ⟨true, ∅, 0⟩

/-- The calls of `ApproximateBestSubset`: the second is for the target with a cent more, if the coins
reach it and the first did not meet the target. -/
def searchSubset (draws : CoinDraws) (vValue : List (Int × WalletCoin)) (nTotalLower nTargetValue : Int) :
    List Bool × Int :=
  let nNextTarget := Int64.wrap (nTargetValue + CENT)
  let best := approximateBestSubset vValue nTotalLower nTargetValue draws.rand 1000
  if best.2 ≠ nTargetValue ∧ nNextTarget ≤ nTotalLower then
    approximateBestSubset vValue nTotalLower nNextTarget draws.randSecond 1000
  else best

/-- **`SelectCoinsMinConf`.** -/
def selectCoinsMinConf (limits : CoinLimits) (draws : CoinDraws) (nTargetValue : Int)
    (vCoins : List COutput) : CoinSelection :=
  match collectCoins limits nTargetValue (draws.shuffle vCoins) LowerCoins.init with
  | .inl coin => CoinSelection.ofCoins [coin]
  | .inr ⟨vValue, nTotalLower, first, second⟩ =>
    if nTotalLower = nTargetValue then CoinSelection.ofCoins vValue
    else if nTotalLower < nTargetValue then
      match second with
      | none => ⟨false, ∅, 0⟩
      | some coin => CoinSelection.ofCoins [(first, coin)]
    else
      let vValue := draws.sort vValue
      let (vfBest, nBest) := searchSubset draws vValue nTotalLower nTargetValue
      match second with
      | some coin =>
        if nBest ≠ nTargetValue ∧ nBest < Int64.wrap (nTargetValue + CENT) ∨ first ≤ nBest then
          CoinSelection.ofCoins [(first, coin)]
        else CoinSelection.ofCoins (Masks.chosen vfBest vValue)
      | none => CoinSelection.ofCoins (Masks.chosen vfBest vValue)

/-! ## What the search finds -/

theorem amounts_nonneg {all : List (Int × WalletCoin)} (hamounts : ∀ coin ∈ all, 0 ≤ coin.1) :
    ∀ n ∈ all.map Prod.fst, 0 ≤ n := by
  intro n hn
  obtain ⟨coin, hcoin, rfl⟩ := List.mem_map.1 hn
  exact hamounts coin hcoin

/-- The amount of the coins that are marked. -/
def markedAmount (vValue : List (Int × WalletCoin)) (mask : List Bool) : Int :=
  ((Masks.chosen mask vValue).map Prod.fst).sum

section Search

variable {vValue : List (Int × WalletCoin)} {nTargetValue : Int} {wanted : SubsetSearch → Nat → Bool}
  (hamounts : ∀ coin ∈ vValue, 0 ≤ coin.1) (hfits : (vValue.map Prod.fst).sum < 2 ^ 63)
include hamounts hfits

theorem markedAmount_inRange (mask : List Bool) :
    0 ≤ markedAmount vValue mask ∧ Int64.InRange (markedAmount vValue mask) := by
  have hsub := (Masks.chosen_sublist mask vValue).map Prod.fst
  have hall := amounts_nonneg hamounts
  have hnonneg : 0 ≤ markedAmount vValue mask := List.sum_nonneg fun n hn => hall n (hsub.subset hn)
  have hle : markedAmount vValue mask ≤ (vValue.map Prod.fst).sum := hsub.sum_le_sum hall
  refine ⟨hnonneg, ?_⟩
  rw [Int64.InRange]
  omega

omit hamounts hfits in
/-- **What holds during a search**: the totals are the ones of what is marked, and the best one reaches
the target. -/
structure SubsetSearch.Sound (vValue : List (Int × WalletCoin)) (nTargetValue : Int)
    (st : SubsetSearch) : Prop where
  length : st.vfIncluded.length = vValue.length
  total : st.nTotal = markedAmount vValue st.vfIncluded
  best : st.nBest = markedAmount vValue st.vfBest
  reached : nTargetValue ≤ st.nBest

/-- Looking at a coin that is not included yet. -/
theorem SubsetSearch.Sound.visit {st : SubsetSearch} (hst : st.Sound vValue nTargetValue)
    {coin : Int × WalletCoin} {i : Nat} (hcoin : vValue[i]? = some coin)
    (hfree : wanted st i = true → st.vfIncluded[i]? = some false) :
    (st.visit nTargetValue wanted (coin, i)).Sound vValue nTargetValue := by
  rw [SubsetSearch.visit]
  split
  · exact hst
  · next hwanted =>
    have hmask := hfree (by simpa using hwanted)
    have hset : markedAmount vValue (st.vfIncluded.set i true) =
        markedAmount vValue st.vfIncluded + coin.1 := Masks.sum_chosen_set Prod.fst hcoin hmask
    have hadd : Int64.wrap (st.nTotal + coin.1) =
        markedAmount vValue (st.vfIncluded.set i true) := by
      rw [hst.total, ← hset]
      exact Int64.wrap_eq_self (markedAmount_inRange hamounts hfits _).2
    rw [hadd]
    dsimp only
    split
    · next hreached =>
      refine ⟨?_, ?_, ?_, ?_⟩
      · rw [List.length_set, List.length_set]
        exact hst.length
      · -- the coin is taken out again
        rw [Masks.set_set_of_getElem? hmask, hset, add_sub_cancel_right]
        exact Int64.wrap_eq_self (markedAmount_inRange hamounts hfits _).2
      · dsimp only
        split
        · rfl
        · exact hst.best
      · dsimp only
        split
        · exact hreached
        · exact hst.reached
    · exact ⟨by rw [List.length_set]; exact hst.length, rfl, hst.best, hst.reached⟩

/-- A pass over the coins, where every coin that is wanted is not included yet. -/
theorem SubsetSearch.Sound.pass {Q : Nat → SubsetSearch → Prop}
    (hfree : ∀ k st, st.Sound vValue nTargetValue → Q k st → k < vValue.length →
      wanted st k = true → st.vfIncluded[k]? = some false)
    (hnext : ∀ k st coin, Q k st → Q (k + 1) (st.visit nTargetValue wanted (coin, k)))
    {coins : List (Int × WalletCoin)} :
    ∀ {k : Nat} {st : SubsetSearch}, vValue.drop k = coins → Q k st → st.Sound vValue nTargetValue →
      ((coins.zipIdx k).foldl (SubsetSearch.visit nTargetValue wanted) st).Sound vValue
        nTargetValue := by
  induction coins with
  | nil => exact fun _ _ hst => hst
  | cons coin coins ih =>
    intro k st hdrop hQ hst
    have hcoin : vValue[k]? = some coin := by
      rw [← List.head?_drop, hdrop, List.head?_cons]
    have hrest : vValue.drop (k + 1) = coins := by
      rw [← List.tail_drop, hdrop, List.tail_cons]
    rw [List.zipIdx_cons, List.foldl_cons]
    refine ih hrest (hnext k st coin hQ) (hst.visit hamounts hfits hcoin fun hwanted => ?_)
    exact hfree k st hst hQ (List.getElem?_eq_some_iff.1 hcoin).1 hwanted

omit hamounts hfits in
/-- Looking at a coin changes its mark and no other. -/
theorem SubsetSearch.visit_getElem? {st : SubsetSearch} {coin : Int × WalletCoin} {i j : Nat}
    (hne : i ≠ j) : (st.visit nTargetValue wanted (coin, i)).vfIncluded[j]? = st.vfIncluded[j]? := by
  rw [SubsetSearch.visit]
  split
  · rfl
  · dsimp only
    split
    · exact (List.getElem?_set_ne hne).trans (List.getElem?_set_ne hne)
    · exact List.getElem?_set_ne hne

theorem repetition_sound (rand : Nat → Bool) {vfBest : List Bool} {nBest : Int}
    (hbest : nBest = markedAmount vValue vfBest) (hreached : nTargetValue ≤ nBest) :
    (SubsetSearch.repetition vValue nTargetValue rand vfBest nBest).Sound vValue nTargetValue := by
  have hstart : SubsetSearch.Sound vValue nTargetValue
      ⟨List.replicate vValue.length false, 0, false, vfBest, nBest⟩ := by
    refine ⟨List.length_replicate, ?_, hbest, hreached⟩
    rw [markedAmount, Masks.chosen_replicate_false]
    rfl
  -- the first pass: the coins that are still to come are not included
  have hfirst : (vValue.zipIdx.foldl (SubsetSearch.visit nTargetValue fun _ i => rand i)
      ⟨List.replicate vValue.length false, 0, false, vfBest, nBest⟩).Sound vValue nTargetValue :=
    SubsetSearch.Sound.pass hamounts hfits
      (Q := fun k st => ∀ j, k ≤ j → j < vValue.length → st.vfIncluded[j]? = some false)
      (fun k st _ hQ hk _ => hQ k le_rfl hk)
      (fun k st coin hQ j hj hlt =>
        (SubsetSearch.visit_getElem? (by omega)).trans (hQ j (by omega) hlt))
      List.drop_zero (fun j _ hj => by rw [List.getElem?_replicate, if_pos hj]) hstart
  rw [SubsetSearch.repetition]
  split
  · exact hfirst
  · refine SubsetSearch.Sound.pass hamounts hfits (Q := fun _ _ => True) (fun k st hst _ hk hwanted => ?_)
      (fun _ _ _ _ => trivial) List.drop_zero trivial hfirst
    have hk' : k < st.vfIncluded.length := hst.length ▸ hk
    rw [List.getD_eq_getElem?_getD, List.getElem?_eq_getElem hk', Option.getD_some,
      Bool.not_eq_true'] at hwanted
    rw [List.getElem?_eq_getElem hk', hwanted]

theorem approximateFrom_sound (rand : Nat → Nat → Bool) {left : Nat} :
    ∀ {nRep : Nat} {best : List Bool × Int}, best.2 = markedAmount vValue best.1 →
      nTargetValue ≤ best.2 →
      (approximateFrom vValue nTargetValue rand left nRep best).2 =
          markedAmount vValue (approximateFrom vValue nTargetValue rand left nRep best).1 ∧
        nTargetValue ≤ (approximateFrom vValue nTargetValue rand left nRep best).2 := by
  induction left with
  | zero => exact fun hbest hreached => ⟨hbest, hreached⟩
  | succ left ih =>
    intro nRep best hbest hreached
    rw [approximateFrom]
    split
    · exact ⟨hbest, hreached⟩
    · have hst := repetition_sound hamounts hfits (rand nRep) hbest hreached
      exact ih hst.best hst.reached

/-- **What the search finds**: `nBest` is the amount of the coins that `vfBest` marks, and reaches the
target if all coins do. -/
theorem approximateBestSubset_spec (rand : Nat → Nat → Bool) (iterations : Nat)
    (hreached : nTargetValue ≤ (vValue.map Prod.fst).sum) :
    (approximateBestSubset vValue (vValue.map Prod.fst).sum nTargetValue rand iterations).2 =
        markedAmount vValue
          (approximateBestSubset vValue (vValue.map Prod.fst).sum nTargetValue rand iterations).1 ∧
      nTargetValue ≤
        (approximateBestSubset vValue (vValue.map Prod.fst).sum nTargetValue rand iterations).2 := by
  refine approximateFrom_sound hamounts hfits rand ?_ hreached
  rw [markedAmount, Masks.chosen_replicate_true]

/-- **What both searches find**: coins that reach the target, with their amount. -/
theorem searchSubset_spec (draws : CoinDraws)
    (hnext : nTargetValue ≤ Int64.wrap (nTargetValue + CENT))
    (hreached : nTargetValue ≤ (vValue.map Prod.fst).sum) :
    (searchSubset draws vValue (vValue.map Prod.fst).sum nTargetValue).2 =
        markedAmount vValue (searchSubset draws vValue (vValue.map Prod.fst).sum nTargetValue).1 ∧
      nTargetValue ≤ (searchSubset draws vValue (vValue.map Prod.fst).sum nTargetValue).2 := by
  rw [searchSubset]
  split
  · next hsecond =>
    obtain ⟨hbest, hle⟩ :=
      approximateBestSubset_spec hamounts hfits draws.randSecond 1000 hsecond.2
    exact ⟨hbest, hnext.trans hle⟩
  · exact approximateBestSubset_spec hamounts hfits draws.rand 1000 hreached

end Search

/-! ## The loop over the coins -/

/-- The eligible coins, with their amounts. -/
def CoinLimits.coins (limits : CoinLimits) (vCoins : List COutput) : List (Int × WalletCoin) :=
  (vCoins.filter limits.eligible).map COutput.coin

/-- The amount of a coin is the one of its output. -/
theorem COutput.value_coin (output : COutput) : WalletCoin.value output.coin.2 = output.coin.1 := by
  rw [COutput.coin, WalletCoin.value, output.vout_eq]
  rfl

theorem CoinLimits.mem_coins {limits : CoinLimits} {vCoins : List COutput} {coin : Int × WalletCoin} :
    coin ∈ limits.coins vCoins ↔
      ∃ output ∈ vCoins, limits.eligible output = true ∧ output.coin = coin := by
  rw [CoinLimits.coins, List.mem_map]
  exact ⟨fun ⟨output, hmem, heq⟩ =>
      ⟨output, (List.mem_filter.1 hmem).1, (List.mem_filter.1 hmem).2, heq⟩,
    fun ⟨output, hmem, heligible, heq⟩ => ⟨output, List.mem_filter.2 ⟨hmem, heligible⟩, heq⟩⟩

/-- **Coins sorted into the lower ones and the others**, of which the least is kept. -/
structure LowerCoins.Sorts (lower : Int × WalletCoin → Bool) (coins : List (Int × WalletCoin))
    (st st' : LowerCoins) : Prop where
  vValue : st'.vValue = st.vValue ++ coins.filter lower
  nTotalLower : ∀ a, st.nTotalLower = Int64.wrap a →
    st'.nTotalLower = Int64.wrap (a + ((coins.filter lower).map Prod.fst).sum)
  least : ∀ coin ∈ coins, lower coin = true ∨ st'.coinLowestLarger.1 ≤ coin.1
  le : st'.coinLowestLarger.1 ≤ st.coinLowestLarger.1
  larger : st'.coinLowestLarger = st.coinLowestLarger ∨
    ∃ coin ∈ coins, lower coin = false ∧ st'.coinLowestLarger = (coin.1, some coin.2)

namespace LowerCoins.Sorts

variable {lower : Int × WalletCoin → Bool} {coin : Int × WalletCoin} {coins : List (Int × WalletCoin)}
  {st st₁ st' : LowerCoins}

theorem nil : Sorts lower [] st st where
  vValue := (List.append_nil _).symm
  nTotalLower a ha := by rw [ha, List.filter_nil, List.map_nil, List.sum_nil, add_zero]
  least := fun _ h => absurd h List.not_mem_nil
  le := le_rfl
  larger := Or.inl rfl

/-- A lower coin comes first. -/
theorem cons_lower (h : Sorts lower coins st₁ st') (hlower : lower coin = true)
    (hvalue : st₁.vValue = st.vValue ++ [coin])
    (htotal : st₁.nTotalLower = Int64.wrap (st.nTotalLower + coin.1))
    (hlarger : st₁.coinLowestLarger = st.coinLowestLarger) :
    Sorts lower (coin :: coins) st st' where
  vValue := by
    rw [h.vValue, hvalue, List.filter_cons, if_pos hlower, List.append_assoc, List.singleton_append]
  nTotalLower a ha := by
    have htotal' : st₁.nTotalLower = Int64.wrap (a + coin.1) := by
      rw [htotal, ha, Int64.wrap_add_wrap]
    rw [h.nTotalLower _ htotal', List.filter_cons, if_pos hlower, List.map_cons, List.sum_cons,
      add_assoc]
  least c hc := by
    rcases List.mem_cons.1 hc with rfl | hc
    · exact Or.inl hlower
    · exact h.least c hc
  le := hlarger ▸ h.le
  larger := by
    rw [← hlarger]
    exact h.larger.imp_right fun ⟨c, hc, hrest⟩ => ⟨c, List.mem_cons_of_mem _ hc, hrest⟩

/-- A larger coin comes first, and is the least so far, or not. -/
theorem cons_larger (h : Sorts lower coins st₁ st') (hlower : lower coin = false)
    (hvalue : st₁.vValue = st.vValue) (htotal : st₁.nTotalLower = st.nTotalLower)
    (hlarger : st₁.coinLowestLarger = st.coinLowestLarger ∨
      st₁.coinLowestLarger = (coin.1, some coin.2))
    (hcoin : st₁.coinLowestLarger.1 ≤ coin.1)
    (hle : st₁.coinLowestLarger.1 ≤ st.coinLowestLarger.1) :
    Sorts lower (coin :: coins) st st' where
  vValue := by rw [h.vValue, hvalue, List.filter_cons, hlower, if_neg Bool.false_ne_true]
  nTotalLower a ha := by
    rw [h.nTotalLower a (htotal.trans ha), List.filter_cons, hlower, if_neg Bool.false_ne_true]
  least c hc := by
    rcases List.mem_cons.1 hc with rfl | hc
    · exact Or.inr (h.le.trans hcoin)
    · exact h.least c hc
  le := h.le.trans hle
  larger := by
    rcases h.larger with heq | ⟨c, hc, hrest⟩
    · rw [heq]
      exact hlarger.imp_right fun heq => ⟨coin, List.mem_cons_self, hlower, heq⟩
    · exact Or.inr ⟨c, List.mem_cons_of_mem _ hc, hrest⟩

end LowerCoins.Sorts

/-- A coin is below the target with a cent more. -/
def belowTarget (nTargetValue : Int) (coin : Int × WalletCoin) : Bool :=
  decide (coin.1 < Int64.wrap (nTargetValue + CENT))

/-- **What the loop does**: it ends with an eligible coin that meets the target, or sorts all eligible
coins. -/
theorem collectCoins_spec (limits : CoinLimits) (nTargetValue : Int) (vCoins : List COutput) :
    ∀ st, (∃ coin ∈ limits.coins vCoins, coin.1 = nTargetValue ∧
        collectCoins limits nTargetValue vCoins st = .inl coin) ∨
      ∃ st', LowerCoins.Sorts (belowTarget nTargetValue) (limits.coins vCoins) st st' ∧
        collectCoins limits nTargetValue vCoins st = .inr st' := by
  induction vCoins with
  | nil => exact fun st => Or.inr ⟨st, .nil, rfl⟩
  | cons output vCoins ih =>
    intro st
    rw [collectCoins]
    by_cases heligible : limits.eligible output = true
    · have hcoins : limits.coins (output :: vCoins) = output.coin :: limits.coins vCoins := by
        rw [CoinLimits.coins, List.filter_cons, if_pos heligible, List.map_cons]
        rfl
      rw [heligible, hcoins, Bool.not_true, if_neg Bool.false_ne_true]
      dsimp only
      split
      · next hmeets => exact Or.inl ⟨_, List.mem_cons_self, hmeets, rfl⟩
      · split
        · next hlower =>
          refine (ih _).imp (fun ⟨c, hc, hrest⟩ => ⟨c, List.mem_cons_of_mem _ hc, hrest⟩) ?_
          rintro ⟨st', hsorts, heq⟩
          exact ⟨st', hsorts.cons_lower (decide_eq_true hlower) rfl rfl rfl, heq⟩
        · next hlower =>
          have hlarger : belowTarget nTargetValue output.coin = false := decide_eq_false hlower
          split
          · next hless =>
            refine (ih _).imp (fun ⟨c, hc, hrest⟩ => ⟨c, List.mem_cons_of_mem _ hc, hrest⟩) ?_
            rintro ⟨st', hsorts, heq⟩
            exact ⟨st', hsorts.cons_larger hlarger rfl rfl (Or.inr rfl) le_rfl hless.le, heq⟩
          · next hmore =>
            refine (ih _).imp (fun ⟨c, hc, hrest⟩ => ⟨c, List.mem_cons_of_mem _ hc, hrest⟩) ?_
            rintro ⟨st', hsorts, heq⟩
            exact ⟨st', hsorts.cons_larger hlarger rfl rfl (Or.inl rfl) (not_lt.1 hmore) le_rfl, heq⟩
    · have hcoins : limits.coins (output :: vCoins) = limits.coins vCoins := by
        rw [CoinLimits.coins, List.filter_cons, if_neg heligible]
        rfl
      rw [hcoins, Bool.eq_false_iff.2 heligible, Bool.not_false, if_pos rfl]
      exact ih st

/-! ## The set that is returned -/

theorem foldl_add_spec (coins : List (Int × WalletCoin)) :
    ∀ (r : CoinSelection) (a : Int), r.nValueRet = Int64.wrap a →
      (coins.foldl CoinSelection.add r).fSelected = r.fSelected ∧
        (coins.foldl CoinSelection.add r).setCoinsRet =
          r.setCoinsRet ∪ (coins.map Prod.snd).toFinset ∧
        (coins.foldl CoinSelection.add r).nValueRet = Int64.wrap (a + (coins.map Prod.fst).sum) := by
  induction coins with
  | nil =>
    intro r a ha
    refine ⟨rfl, (Finset.union_empty _).symm, ?_⟩
    rw [List.map_nil, List.sum_nil, add_zero]
    exact ha
  | cons coin coins ih =>
    intro r a ha
    have hadd : (r.add coin).nValueRet = Int64.wrap (a + coin.1) := by
      rw [CoinSelection.add, ha, Int64.wrap_add_wrap]
    obtain ⟨hselected, hset, hvalue⟩ := ih (r.add coin) (a + coin.1) hadd
    refine ⟨hselected, ?_, ?_⟩
    · rw [List.foldl_cons, hset, List.map_cons, List.toFinset_cons, CoinSelection.add,
        Finset.insert_union, Finset.union_insert]
    · rw [List.foldl_cons, hvalue, List.map_cons, List.sum_cons, add_assoc]

theorem sum_le_of_subperm {coins all : List (Int × WalletCoin)} (hsub : coins.Subperm all)
    (hamounts : ∀ coin ∈ all, 0 ≤ coin.1) :
    (coins.map Prod.fst).sum ≤ (all.map Prod.fst).sum := by
  obtain ⟨perm, hperm, hsublist⟩ := hsub
  rw [← (hperm.map Prod.fst).sum_eq]
  exact (hsublist.map Prod.fst).sum_le_sum (amounts_nonneg hamounts)

/-- **Different coins of a list** with their amounts: the set and its total. -/
theorem ofCoins_spec {coins all : List (Int × WalletCoin)} (hsub : coins.Subperm all)
    (hnodup : (all.map Prod.snd).Nodup) (hvalue : ∀ coin ∈ all, WalletCoin.value coin.2 = coin.1)
    (hamounts : ∀ coin ∈ all, 0 ≤ coin.1) (hfits : (all.map Prod.fst).sum < 2 ^ 63) :
    (CoinSelection.ofCoins coins).fSelected = true ∧
      (∀ c ∈ (CoinSelection.ofCoins coins).setCoinsRet, ∃ coin ∈ all, coin.2 = c) ∧
      (CoinSelection.ofCoins coins).nValueRet =
        ∑ c ∈ (CoinSelection.ofCoins coins).setCoinsRet, WalletCoin.value c ∧
      (CoinSelection.ofCoins coins).nValueRet = (coins.map Prod.fst).sum := by
  obtain ⟨hselected, hset, htotal⟩ := foldl_add_spec coins ⟨true, ∅, 0⟩ 0 Int64.wrap_zero.symm
  rw [Finset.empty_union] at hset
  have hle := sum_le_of_subperm hsub hamounts
  obtain ⟨perm, hperm, hsublist⟩ := hsub
  have hmem : ∀ coin ∈ coins, coin ∈ all := fun coin h => hsublist.subset (hperm.mem_iff.2 h)
  have hnonneg : 0 ≤ (coins.map Prod.fst).sum :=
    List.sum_nonneg (amounts_nonneg fun coin hcoin => hamounts coin (hmem coin hcoin))
  have hdistinct : (coins.map Prod.snd).Nodup :=
    (hperm.map Prod.snd).nodup_iff.1 (hnodup.sublist (hsublist.map Prod.snd))
  have htotal' : (CoinSelection.ofCoins coins).nValueRet = (coins.map Prod.fst).sum := by
    rw [CoinSelection.ofCoins, htotal, zero_add]
    exact Int64.wrap_eq_self ⟨by omega, by omega⟩
  refine ⟨hselected, fun c hc => ?_, ?_, htotal'⟩
  · rw [CoinSelection.ofCoins, hset, List.mem_toFinset] at hc
    obtain ⟨coin, hcoin, heq⟩ := List.mem_map.1 hc
    exact ⟨coin, hmem coin hcoin, heq⟩
  · rw [htotal', CoinSelection.ofCoins, hset, List.sum_toFinset _ hdistinct, List.map_map]
    exact congrArg List.sum (List.map_congr_left fun coin hcoin => (hvalue coin (hmem coin hcoin)).symm)

/-! ## The postcondition -/

/-- The amount of the eligible coins. -/
def CoinLimits.total (limits : CoinLimits) (vCoins : List COutput) : Int :=
  ((limits.coins vCoins).map Prod.fst).sum

/-- Coins that a search marks are among the sorted ones. -/
theorem chosen_subperm (draws : CoinDraws) {vValue all : List (Int × WalletCoin)} (mask : List Bool)
    (h : vValue.Subperm all) : (Masks.chosen mask (draws.sort vValue)).Subperm all :=
  ((Masks.chosen_sublist mask _).subperm.trans (draws.sort_perm vValue).subperm).trans h

section Selection

variable {limits : CoinLimits} {nTargetValue : Int} {vCoins : List COutput}

/-- Coins were selected: different eligible ones, that add up to what is returned. -/
structure CoinSelection.Covers (all : List (Int × WalletCoin)) (nTargetValue : Int)
    (r : CoinSelection) : Prop where
  fSelected : r.fSelected = true
  mem : ∀ c ∈ r.setCoinsRet, ∃ coin ∈ all, coin.2 = c
  nValueRet : r.nValueRet = ∑ c ∈ r.setCoinsRet, WalletCoin.value c
  target : nTargetValue ≤ r.nValueRet

theorem selectCoinsMinConf_cases (draws : CoinDraws) {all : List (Int × WalletCoin)}
    (hall : all = limits.coins (draws.shuffle vCoins)) (hdistinct : (all.map Prod.snd).Nodup)
    (hvalue : ∀ coin ∈ all, WalletCoin.value coin.2 = coin.1) (hamounts : ∀ coin ∈ all, 0 ≤ coin.1)
    (htotal : (all.map Prod.fst).sum < 2 ^ 63 - 1)
    (htarget : -2 ^ 63 ≤ nTargetValue ∧ nTargetValue + CENT < 2 ^ 63) :
    (selectCoinsMinConf limits draws nTargetValue vCoins).fSelected = false ∧
        (all.map Prod.fst).sum < nTargetValue ∨
      CoinSelection.Covers all nTargetValue (selectCoinsMinConf limits draws nTargetValue vCoins) ∧
        nTargetValue ≤ (all.map Prod.fst).sum := by
  have hfits : (all.map Prod.fst).sum < 2 ^ 63 := by omega
  have hcovers {coins : List (Int × WalletCoin)} (hsub : coins.Subperm all)
      (hreached : nTargetValue ≤ (coins.map Prod.fst).sum) :
      CoinSelection.Covers all nTargetValue (CoinSelection.ofCoins coins) ∧
        nTargetValue ≤ (all.map Prod.fst).sum := by
    obtain ⟨hselected, hmem, hset, hsum⟩ := ofCoins_spec hsub hdistinct hvalue hamounts hfits
    exact ⟨⟨hselected, hmem, hset, hsum ▸ hreached⟩, hreached.trans (sum_le_of_subperm hsub hamounts)⟩
  have hnext : Int64.wrap (nTargetValue + CENT) = nTargetValue + CENT :=
    Int64.wrap_eq_self ⟨by rw [CENT]; omega, htarget.2⟩
  have hcent : nTargetValue < nTargetValue + CENT := by
    rw [CENT]
    omega
  rw [selectCoinsMinConf]
  rcases collectCoins_spec limits nTargetValue (draws.shuffle vCoins) LowerCoins.init with
    ⟨coin, hcoin, hmeets, heq⟩ | ⟨⟨vValue, nTotalLower, first, second⟩, hsorts, heq⟩
  · -- one coin meets the target
    rw [heq]
    rw [← hall] at hcoin
    refine Or.inr (hcovers (List.singleton_subperm_iff.2 hcoin) ?_)
    rw [List.map_singleton, List.sum_singleton, hmeets]
  · rw [heq]
    rw [← hall] at hsorts
    have hlower : vValue = all.filter (belowTarget nTargetValue) := hsorts.vValue
    have hsub : vValue.Subperm all := hlower ▸ List.filter_sublist.subperm
    have hle := sum_le_of_subperm hsub hamounts
    have hsum : nTotalLower = (vValue.map Prod.fst).sum := by
      have hnonneg : 0 ≤ (vValue.map Prod.fst).sum :=
        List.sum_nonneg (amounts_nonneg fun coin hcoin => hamounts coin (hsub.subset hcoin))
      have hwrap := hsorts.nTotalLower 0 Int64.wrap_zero.symm
      rw [← hlower, zero_add] at hwrap
      exact hwrap.trans (Int64.wrap_eq_self ⟨by omega, by omega⟩)
    have hlarger : ∀ coin, second = some coin → (first, coin) ∈ all ∧ nTargetValue ≤ first := by
      rintro coin rfl
      rcases hsorts.larger with hinit | ⟨coin', hmem, habove, hcoin'⟩
      · cases hinit
      · obtain ⟨rfl, hsome⟩ := Prod.mk.inj hcoin'
        obtain rfl := Option.some.inj hsome
        refine ⟨hmem, hcent.le.trans ?_⟩
        rw [belowTarget, hnext, decide_eq_false_iff_not, not_lt] at habove
        exact habove
    have hone : ∀ coin, second = some coin →
        CoinSelection.Covers all nTargetValue (CoinSelection.ofCoins [(first, coin)]) ∧
          nTargetValue ≤ (all.map Prod.fst).sum := fun coin hcoin =>
      hcovers (List.singleton_subperm_iff.2 (hlarger coin hcoin).1) (by
        rw [List.map_singleton, List.sum_singleton]
        exact (hlarger coin hcoin).2)
    dsimp only
    split
    · next hmeets => exact Or.inr (hcovers hsub (hsum ▸ hmeets.ge))
    · split
      · next hbelow =>
        split
        · -- there is no larger coin, so all coins are lower ones
          refine Or.inl ⟨rfl, ?_⟩
          have hleast : ∀ coin ∈ all, belowTarget nTargetValue coin = true := by
            intro coin hcoin
            refine (hsorts.least coin hcoin).resolve_right fun hge => ?_
            have hfirst : first = 9223372036854775807 := by
              rcases hsorts.larger with hinit | ⟨coin', -, -, hcoin'⟩
              · exact (Prod.mk.inj hinit).1
              · cases hcoin'
            have hone' := List.single_le_sum (amounts_nonneg hamounts) coin.1
              (List.mem_map_of_mem hcoin)
            dsimp only at hge
            omega
          rw [List.filter_eq_self.2 hleast] at hlower
          rw [← hlower, ← hsum]
          exact hbelow
        · next coin => exact Or.inr (hone coin rfl)
      · next hmore hnotless =>
        right
        have hsorted : nTotalLower = ((draws.sort vValue).map Prod.fst).sum :=
          hsum.trans ((draws.sort_perm vValue).map Prod.fst).sum_eq.symm
        have hfound := searchSubset_spec
          (fun coin hcoin => hamounts coin (hsub.subset ((draws.sort_perm vValue).subset hcoin)))
          (by omega) draws (hnext ▸ hcent.le) (hsorted ▸ not_lt.1 hnotless)
        rw [← hsorted] at hfound
        generalize searchSubset draws (draws.sort vValue) nTotalLower nTargetValue = best at hfound ⊢
        obtain ⟨vfBest, nBest⟩ := best
        have hsubset := hcovers (chosen_subperm draws vfBest hsub)
          (hfound.2.trans hfound.1.le)
        dsimp only
        split
        · next coin =>
          split
          · exact hone coin rfl
          · exact hsubset
        · exact hsubset

/-- What `SelectCoinsMinConf` selects of different coins in a list. -/
theorem selectCoinsMinConf_covers (draws : CoinDraws)
    (hdistinct : ((limits.coins vCoins).map Prod.snd).Nodup)
    (hamounts : ∀ coin ∈ limits.coins vCoins, 0 ≤ coin.1)
    (htotal : limits.total vCoins < 2 ^ 63 - 1)
    (htarget : -2 ^ 63 ≤ nTargetValue ∧ nTargetValue + CENT < 2 ^ 63) :
    (selectCoinsMinConf limits draws nTargetValue vCoins).fSelected = false ∧
        limits.total vCoins < nTargetValue ∨
      CoinSelection.Covers (limits.coins vCoins) nTargetValue
          (selectCoinsMinConf limits draws nTargetValue vCoins) ∧
        nTargetValue ≤ limits.total vCoins := by
  have hperm : (limits.coins (draws.shuffle vCoins)).Perm (limits.coins vCoins) :=
    ((draws.shuffle_perm vCoins).filter limits.eligible).map COutput.coin
  have hsum : ((limits.coins (draws.shuffle vCoins)).map Prod.fst).sum = limits.total vCoins :=
    (hperm.map Prod.fst).sum_eq
  have hvalue : ∀ coin ∈ limits.coins (draws.shuffle vCoins), WalletCoin.value coin.2 = coin.1 := by
    intro coin hcoin
    obtain ⟨output, -, -, rfl⟩ := CoinLimits.mem_coins.1 hcoin
    exact output.value_coin
  have hcases := selectCoinsMinConf_cases draws rfl ((hperm.map Prod.snd).nodup_iff.2 hdistinct) hvalue
    (fun coin hcoin => hamounts coin (hperm.subset hcoin)) (hsum ▸ htotal) htarget
  rw [hsum] at hcases
  refine hcases.imp_right fun ⟨hcovers, hreached⟩ => ⟨⟨hcovers.fSelected, fun c hc => ?_,
    hcovers.nValueRet, hcovers.target⟩, hreached⟩
  obtain ⟨coin, hcoin, heq⟩ := hcovers.mem c hc
  exact ⟨coin, hperm.subset hcoin, heq⟩

variable (limits nTargetValue vCoins) in
/-- **What `SelectCoinsMinConf` returns**, for different coins whose amounts are not negative and stay,
as the target with a cent more, within a word: false exactly if the eligible coins are worth less than
the target, and otherwise different eligible coins, with their total, which covers the target. -/
theorem selectCoinsMinConf_spec (draws : CoinDraws)
    (hdistinct : ((limits.coins vCoins).map Prod.snd).Nodup)
    (hamounts : ∀ coin ∈ limits.coins vCoins, 0 ≤ coin.1)
    (htotal : limits.total vCoins < 2 ^ 63 - 1)
    (htarget : -2 ^ 63 ≤ nTargetValue ∧ nTargetValue + CENT < 2 ^ 63) :
    ((selectCoinsMinConf limits draws nTargetValue vCoins).fSelected = false ↔
        limits.total vCoins < nTargetValue) ∧
      ((selectCoinsMinConf limits draws nTargetValue vCoins).fSelected = true →
        (∀ coin ∈ (selectCoinsMinConf limits draws nTargetValue vCoins).setCoinsRet,
          ∃ output ∈ vCoins, limits.eligible output = true ∧ (output.tx, output.i) = coin) ∧
        (selectCoinsMinConf limits draws nTargetValue vCoins).nValueRet =
          ∑ coin ∈ (selectCoinsMinConf limits draws nTargetValue vCoins).setCoinsRet,
            WalletCoin.value coin ∧
        nTargetValue ≤ (selectCoinsMinConf limits draws nTargetValue vCoins).nValueRet) := by
  rcases selectCoinsMinConf_covers draws hdistinct hamounts htotal htarget with
    ⟨hfailed, hless⟩ | ⟨hcovers, hreached⟩
  · refine ⟨iff_of_true hfailed hless, fun hselected => ?_⟩
    rw [hfailed] at hselected
    cases hselected
  · have hselected := hcovers.fSelected
    refine ⟨iff_of_false (by rw [hselected]; exact Bool.noConfusion) (not_lt.2 hreached), fun _ => ?_⟩
    refine ⟨fun c hc => ?_, hcovers.nValueRet, hcovers.target⟩
    obtain ⟨coin, hcoin, rfl⟩ := hcovers.mem c hc
    obtain ⟨output, hmem, heligible, rfl⟩ := CoinLimits.mem_coins.1 hcoin
    exact ⟨output, hmem, heligible, rfl⟩

end Selection

/-! ## Coins with one output each -/

/-- A coin of a transaction with a lock time, at depth ten. -/
def oneOutput (nLockTime : Nat) (nValue : Int) : COutput where
  tx := ⟨1, 0, [], [⟨nValue, []⟩], nLockTime⟩
  i := 0
  nDepth := 10
  txout := ⟨nValue, []⟩
  vout_eq := rfl

/-- One confirmation for own coins, and six for others. -/
def sampleLimits : CoinLimits := ⟨0, 1, 6, fun _ => false⟩

/-- No shuffle, and every bit set. -/
def plainDraws : CoinDraws where
  shuffle := id
  shuffle_perm := List.Perm.refl
  sort vValue := vValue.mergeSort fun t₁ t₂ => decide (t₂.1 ≤ t₁.1)
  sort_perm vValue := List.mergeSort_perm vValue _
  sort_pairwise vValue := by
    have h := @List.pairwise_mergeSort _ (fun t₁ t₂ : Int × WalletCoin => decide (t₂.1 ≤ t₁.1))
      (fun a b c hab hbc => by
        rw [decide_eq_true_eq] at hab hbc ⊢
        exact hbc.trans hab)
      (fun a b => by
        rw [Bool.or_eq_true, decide_eq_true_eq, decide_eq_true_eq]
        exact le_total b.1 a.1) vValue
    exact h.imp fun hle => of_decide_eq_true hle
  rand _ _ := true
  randSecond _ _ := true

/-- Five and four cents cover six. -/
theorem selectCoinsMinConf_spec_twoCoins :
    (selectCoinsMinConf sampleLimits plainDraws (6 * CENT)
      [oneOutput 0 (5 * CENT), oneOutput 1 (4 * CENT)]).fSelected = true := by
  have h := selectCoinsMinConf_spec sampleLimits (6 * CENT)
    [oneOutput 0 (5 * CENT), oneOutput 1 (4 * CENT)] plainDraws (by decide) (by decide) (by decide)
    (by decide)
  exact Bool.eq_true_of_not_eq_false fun hfailed => absurd (h.1.1 hfailed) (by decide)

/-- **Where the postcondition fails**: with the same coin twice, with an amount that is negative, with an
amount of `2^63 - 1`, and with a target to which no cent can be added. -/
theorem not_selectCoinsMinConf_spec :
    ((selectCoinsMinConf sampleLimits plainDraws (2 * CENT)
        [oneOutput 0 CENT, oneOutput 0 CENT]).fSelected = true ∧
      (selectCoinsMinConf sampleLimits plainDraws (2 * CENT)
          [oneOutput 0 CENT, oneOutput 0 CENT]).nValueRet ≠
        ∑ coin ∈ (selectCoinsMinConf sampleLimits plainDraws (2 * CENT)
          [oneOutput 0 CENT, oneOutput 0 CENT]).setCoinsRet, WalletCoin.value coin) ∧
    (∃ vCoins, sampleLimits.total vCoins < CENT ∧
      (selectCoinsMinConf sampleLimits plainDraws CENT vCoins).fSelected = true) ∧
    (∃ vCoins, ¬sampleLimits.total vCoins < CENT ∧
      (selectCoinsMinConf sampleLimits plainDraws CENT vCoins).fSelected = false) ∧
    (∃ vCoins, sampleLimits.total vCoins < 2 ^ 63 - 1 ∧
      (selectCoinsMinConf sampleLimits plainDraws (2 ^ 63 - 1) vCoins).fSelected = true) := by
  refine ⟨by decide +kernel, ⟨[oneOutput 0 (-2 * COIN), oneOutput 1 COIN], ?_⟩,
    ⟨[oneOutput 0 (2 ^ 63 - 1)], ?_⟩, ⟨[oneOutput 0 1], ?_⟩⟩
  · decide +kernel
  · decide +kernel
  · decide +kernel

end MotaCoin
