import Mathlib.Algebra.BigOperators.Ring.Finset
import Mathlib.Algebra.Order.BigOperators.Group.Finset
import Mathlib.Data.List.Sort
import MotaCoin.CoinAgeBundles

/-!
# What the selection by coin age selects

`SelectCoinsMinConfByCoinAge` reads its vectors and tables in range, and what it selects covers the
target. With the exact denominator no coins below the target that cover it are younger. It does not
compare them with a larger coin, which is selected only where the others do not suffice.

## Main definitions

* `agesCost`, `Youngest`: coin ages, and coins that none that cover the target are younger than

## Main results

* `selectLowerByCoinAge_spec`: the coins below the target suffice
* `collectByAge_spec`: which coins are below the target, and which larger one is the youngest
* `selectCoinsMinConfByCoinAge_spec`: what is selected
-/

namespace MotaCoin

/-! ## Coin ages -/

/-- How old coins are together. -/
def agesCost (coins : List AgeCoin) : Int := (coins.map AgeCoin.nCost).sum

@[simp] theorem agesCost_nil : agesCost [] = 0 := rfl

@[simp] theorem agesCost_cons (coin : AgeCoin) (coins : List AgeCoin) :
    agesCost (coin :: coins) = coin.nCost + agesCost coins := by
  rw [agesCost, List.map_cons, List.sum_cons, agesCost]

theorem agesCost_perm {coins coins' : List AgeCoin} (h : coins.Perm coins') :
    agesCost coins = agesCost coins' := (h.map AgeCoin.nCost).sum_eq

theorem agesCost_nonneg {coins : List AgeCoin} (h : ∀ coin ∈ coins, 0 ≤ coin.nCost) :
    0 ≤ agesCost coins := by
  refine List.sum_nonneg fun n hn => ?_
  obtain ⟨coin, hcoin, rfl⟩ := List.mem_map.1 hn
  exact h coin hcoin

theorem agesCost_le_of_sublist {s all : List AgeCoin} (hsub : s.Sublist all)
    (h : ∀ v ∈ all, 0 ≤ v.nCost) : agesCost s ≤ agesCost all := by
  refine (hsub.map AgeCoin.nCost).sum_le_sum fun n hn => ?_
  obtain ⟨v, hv, rfl⟩ := List.mem_map.1 hn
  exact h v hv

/-- Coins have an age, but those worth nothing have none. -/
def Aged (coins : List AgeCoin) : Prop :=
  ∀ v ∈ coins, 0 ≤ v.nCost ∧ (v.nValue = 0 → v.nCost = 0)

/-- **None of the coins that cover the target are younger.** -/
def Youngest (nTargetValue : Int) (all coins : List AgeCoin) : Prop :=
  ∀ s, s.Sublist all → nTargetValue ≤ agesValue s → agesCost coins ≤ agesCost s

/-- Where all coins are needed, those that are left out are worth nothing. -/
theorem agesCost_le_of_agesValue_le {s all : List AgeCoin} (hsub : s.Sublist all)
    (hall : ∀ v ∈ all, 0 ≤ v.nValue) (haged : Aged all) (hle : agesValue all ≤ agesValue s) :
    agesCost all ≤ agesCost s := by
  induction hsub with
  | slnil => exact le_rfl
  | @cons s all v hs ih =>
    have hv := hall v List.mem_cons_self
    have hall' : ∀ w ∈ all, 0 ≤ w.nValue := fun w hw => hall w (List.mem_cons_of_mem _ hw)
    have hsle := agesValue_le_of_subperm hs.subperm hall'
    rw [agesValue_cons] at hle
    have hrest := ih hall' (fun w hw => haged w (List.mem_cons_of_mem _ hw)) (by omega)
    have hcost := (haged v List.mem_cons_self).2 (by omega)
    rw [agesCost_cons]
    omega
  | @cons_cons s all v hs ih =>
    rw [agesValue_cons, agesValue_cons] at hle
    have hrest := ih (fun w hw => hall w (List.mem_cons_of_mem _ hw))
      (fun w hw => haged w (List.mem_cons_of_mem _ hw)) (by omega)
    rw [agesCost_cons, agesCost_cons]
    omega

/-! ## The exact denominator -/

section Exact

variable {all : List AgeCoin} (hall : ∀ v ∈ all, 0 ≤ v.nValue) (hfits : agesValue all < 2 ^ 63)

include hall hfits in
/-- Single coins weigh what they are worth, in units of a denominator that divides all amounts. -/
theorem weights_singlePlaces {denom : Int} (hdenom : 0 < denom) (hdvd : ∀ v ∈ all, denom ∣ v.nValue)
    {s : List AgeCoin} (hs : s.Sublist all) :
    denom * ((agePrices denom).weights (singlePlaces s) : Int) = agesValue s := by
  induction s with
  | nil => exact mul_zero denom
  | cons v s ih =>
    have hv := hs.subset List.mem_cons_self
    have hrange := (agesValue_inRange hall hfits
      (List.singleton_sublist.2 hv).subperm).2
    rw [agesValue_cons, agesValue_nil, add_zero] at hrange
    have hplaces : singlePlaces (v :: s) = (v, [v]) :: singlePlaces s := rfl
    rw [hplaces, Discarding.weights_cons, Nat.cast_add, mul_add,
      ih ((List.sublist_cons_self v s).trans hs),
      weight_agePrices hdenom (e := (v, [v])) (hall v hv) hrange.2, Int.mul_ediv_cancel' (hdvd v hv),
      agesValue_cons]

/-- Single coins cost what they are old. -/
theorem costs_eq_agesCost {denom : Int} {places : List AgePlace}
    (hplaces : ∀ e ∈ places, e.2 = [e.1] ∧ 0 ≤ e.1.nCost ∧ e.1.nCost < 2 ^ 63) :
    ((agePrices denom).costs places : Int) = agesCost (placesCoins places) := by
  induction places with
  | nil => rfl
  | cons e places ih =>
    obtain ⟨hcoins, hnonneg, hlt⟩ := hplaces e List.mem_cons_self
    have hcost : (agePrices denom).cost e = (e.1.nCost % 2 ^ 64).toNat := rfl
    rw [Discarding.costs_cons, Nat.cast_add, ih fun e' he' => hplaces e' (List.mem_cons_of_mem _ he'),
      placesCoins_cons, hcoins, List.singleton_append, agesCost_cons, hcost]
    omega

include hall hfits in
/-- **What the tables keep is the youngest**, where the denominator divides the target and all
amounts. -/
theorem youngest_kept {denom nTargetValue : Int} (hdenom : 0 < denom) (hdvd : ∀ v ∈ all, denom ∣ v.nValue)
    (htarget : 0 ≤ nTargetValue) (hdvd' : denom ∣ nTargetValue) (haged : Aged all)
    (hages : agesCost all < 2 ^ 63) :
    Youngest nTargetValue all (placesCoins ((agePrices denom).kept (singlePlaces all).reverse
      (ageCapacity (agesValue all / denom) nTargetValue denom))) := by
  intro s hs hreach
  have hcostLe : ∀ v ∈ all, v.nCost ≤ agesCost all := fun v hv => by
    obtain ⟨before, after, rfl⟩ := List.append_of_mem hv
    have hperm : (before ++ v :: after).Perm (v :: (before ++ after)) := List.perm_middle
    have hrest := @agesCost_nonneg (before ++ after) fun w hw =>
      (haged w (hperm.symm.subset (List.mem_cons_of_mem _ hw))).1
    rw [agesCost_perm hperm, agesCost_cons]
    omega
  have hsingle : ∀ e ∈ singlePlaces all, e.2 = [e.1] ∧ 0 ≤ e.1.nCost ∧ e.1.nCost < 2 ^ 63 := by
    intro e he
    obtain ⟨v, hv, rfl⟩ := List.mem_map.1 he
    exact ⟨rfl, (haged v hv).1, (hcostLe v hv).trans_lt hages⟩
  have hsubPlaces : (singlePlaces s).Sublist (singlePlaces all) := hs.map _
  have hweightAll := weights_singlePlaces hall hfits hdenom hdvd (List.Sublist.refl all)
  have hweight := weights_singlePlaces hall hfits hdenom hdvd hs
  have hcostsAll := @costs_eq_agesCost denom _ hsingle
  rw [placesCoins_singlePlaces] at hcostsAll
  have hkept := Discarding.cost_kept_le (p := agePrices denom) (l := (singlePlaces all).reverse)
    (s := (singlePlaces s).reverse)
    (j := ageCapacity (agesValue all / denom) nTargetValue denom) ?_ ?_ hsubPlaces.reverse ?_
  · have hkeptSub := (agePrices denom).kept_sublist (singlePlaces all).reverse
      (ageCapacity (agesValue all / denom) nTargetValue denom)
    have hcosts := @costs_eq_agesCost denom _ fun e he =>
      hsingle e (List.mem_reverse.1 (hkeptSub.subset he))
    have hcostsS := @costs_eq_agesCost denom _ fun e he => hsingle e (hsubPlaces.subset he)
    rw [placesCoins_singlePlaces] at hcostsS
    rw [(agePrices denom).costs_perm (List.reverse_perm (singlePlaces s))] at hkept
    omega
  · intro n hn
    rw [(agePrices denom).costs_perm (List.reverse_perm _)] at hn
    exact Nat.mod_eq_of_lt (by omega)
  · intro e he hzero
    obtain ⟨v, hv, rfl⟩ := List.mem_map.1 (List.mem_reverse.1 he)
    have hsingleton := weights_singlePlaces hall hfits hdenom hdvd (List.singleton_sublist.2 hv)
    have hplace : singlePlaces [v] = [(v, [v])] := rfl
    rw [hplace, Discarding.weights_cons, hzero, Discarding.weights_nil, agesValue_cons, agesValue_nil]
      at hsingleton
    have hcost : (agePrices denom).cost (v, [v]) = (v.nCost % 2 ^ 64).toNat := rfl
    rw [hcost, (haged v hv).2 (by omega)]
    rfl
  · rw [(agePrices denom).weights_perm (List.reverse_perm _),
      (agePrices denom).weights_perm (List.reverse_perm _)]
    obtain ⟨t, rfl⟩ := hdvd'
    have hmod : denom * t % denom = 0 := Int.mul_emod_right denom t
    have hdiv : denom * t / denom = t := Int.mul_ediv_cancel_left t hdenom.ne'
    have hdivAll : agesValue all / denom = (agePrices denom).weights (singlePlaces all) := by
      rw [← hweightAll]
      exact Int.mul_ediv_cancel_left _ hdenom.ne'
    have hle : t ≤ (agePrices denom).weights (singlePlaces s) :=
      le_of_mul_le_mul_left (hreach.trans hweight.symm.le) hdenom
    rw [ageCapacity, hmod, if_pos rfl, hdiv, hdivAll]
    omega

end Exact

/-! ## The coins below the target -/

/-- There are no more places than coins. -/
theorem length_le_of_placesCoins_subperm {denom : Int} (hdenom : 0 < denom) {places : List AgePlace}
    (hamount : ∀ e ∈ places, e.1.nValue = agesValue e.2) (hlarge : ∀ e ∈ places, denom ≤ e.1.nValue)
    {all : List AgeCoin} (hsub : (placesCoins places).Subperm all) : places.length ≤ all.length := by
  refine le_trans ?_ hsub.length_le
  clear hsub
  induction places with
  | nil => exact le_rfl
  | cons e places ih =>
    have hrest := ih (fun e' he' => hamount e' (List.mem_cons_of_mem _ he'))
      fun e' he' => hlarge e' (List.mem_cons_of_mem _ he')
    have hne : 0 < e.2.length := List.length_pos_of_ne_nil fun hnil => by
      have hvalue := hamount e List.mem_cons_self
      have hle := hlarge e List.mem_cons_self
      rw [hnil, agesValue_nil] at hvalue
      omega
    rw [placesCoins_cons, List.length_append, List.length_cons]
    omega

/-- The tables are filled for the places that are left, with an approximate denominator. -/
theorem exists_of_bundles {nTargetValue denom : Int} {all rest : List AgeCoin} {places : List AgePlace}
    {items : AgeItems} {r : CoinSelection} (hall : ∀ v ∈ all, 0 ≤ v.nValue)
    (htotal : agesValue all < 2 ^ 63) (hdenom : 0 < denom) (hholds : items.Holds places rest)
    (hperm : (placesCoins places ++ rest).Perm all) (hrest : agesValue rest < denom)
    (hN : items.nTotalValue = (agePrices denom).weights (places.drop items.nBeginCoinValues))
    (hr : r.Takes (placesCoins (places.take items.nBeginCoinValues)))
    (hshort : agesValue (placesCoins (places.take items.nBeginCoinValues)) ≤ nTargetValue)
    (hreach : nTargetValue ≤ agesValue all)
    (hroom : places.drop items.nBeginCoinValues = [] ∧ r.nValueRet < nTargetValue ∨
      (Int64.wrap (nTargetValue - r.nValueRet)).tdiv denom < items.nTotalValue)
    (hends : places.length + 1 < 2 ^ 32 ∧ agesValue all - nTargetValue < 50 * denom ∨
      (items.dynamicProgram nTargetValue denom r).isSome) :
    ∃ r' coins, items.dynamicProgram nTargetValue denom r = some r' ∧ coins.Subperm all ∧
      r'.Takes coins ∧ nTargetValue ≤ agesValue coins := by
  have hparts : placesCoins (places.take items.nBeginCoinValues) ++
      placesCoins (places.drop items.nBeginCoinValues) ++ rest = placesCoins places ++ rest := by
    rw [← placesCoins_append, List.take_append_drop]
  have hsub : (placesCoins (places.take items.nBeginCoinValues) ++
      placesCoins (places.drop items.nBeginCoinValues) ++ rest).Subperm all := by
    rw [hparts]
    exact hperm.subperm
  have hvalue : agesValue (placesCoins (places.take items.nBeginCoinValues)) +
      agesValue (placesCoins (places.drop items.nBeginCoinValues)) + agesValue rest =
      agesValue all := by
    rw [← agesValue_append, ← agesValue_append, hparts, agesValue_perm hperm]
  have htaken := agesValue_nonneg fun v hv => hall v (hsub.subset
    (List.mem_append_left _ (List.mem_append_left _ hv)))
  have hrestNonneg := agesValue_nonneg fun v hv => hall v (hsub.subset (List.mem_append_right _ hv))
  have hplacesSub : (placesCoins places).Subperm all :=
    (List.sublist_append_left _ rest).subperm.trans hperm.subperm
  have hdropValue : ∀ e ∈ places.drop items.nBeginCoinValues,
      0 ≤ e.1.nValue ∧ e.1.nValue < 2 ^ 63 ∧ e.1.nValue = agesValue e.2 := fun e he =>
    hholds.values hplacesSub hall htotal e (List.mem_of_mem_drop he)
  have hworth := weights_le_placesValue hdenom hdropValue
  rw [← hN, placesValue] at hworth
  have hleft : Int64.wrap (nTargetValue - r.nValueRet) =
      nTargetValue - agesValue (placesCoins (places.take items.nBeginCoinValues)) := by
    rw [hr.nValueRet]
    exact Int64.wrap_eq_self ⟨by omega, by omega⟩
  have hcolumns (hcolumns : agesValue all - nTargetValue < 50 * denom) : items.nTotalValue -
      (nTargetValue - agesValue (placesCoins (places.take items.nBeginCoinValues))) / denom < 51 := by
    have hdivided := Int.mul_ediv_add_emod
      (nTargetValue - agesValue (placesCoins (places.take items.nBeginCoinValues))) denom
    have hmod := Int.emod_lt_of_pos
      (nTargetValue - agesValue (placesCoins (places.take items.nBeginCoinValues))) hdenom
    refine lt_of_mul_lt_mul_left ?_ hdenom.le
    rw [mul_sub]
    omega
  obtain ⟨r', more, heq, hmore, htakes, hcover⟩ := dynamicProgram_spec hall htotal hholds hr hsub hdenom
    hN ⟨hshort, by omega⟩ (by
      rcases hroom with ⟨hempty, hless⟩ | hroom
      · rw [hempty, placesCoins_nil, agesValue_nil] at hvalue
        rw [hr.nValueRet] at hless
        exact Or.inr ⟨hempty, by omega, by omega⟩
      · rw [hleft, Int.tdiv_eq_ediv_of_nonneg (by omega)] at hroom
        exact Or.inl hroom) (hends.imp_left fun h => ⟨h.1, by
          have := hcolumns h.2
          omega⟩) (by
      rw [agesValue_append, agesValue_append, hvalue]
      exact hreach)
  refine ⟨r', _, heq, List.Subperm.trans ?_ hsub, htakes, htakes.nValueRet ▸ hcover⟩
  have hkept := ((agePrices denom).kept_sublist (places.drop items.nBeginCoinValues).reverse
    (ageCapacity items.nTotalValue (nTargetValue -
      agesValue (placesCoins (places.take items.nBeginCoinValues))) denom)).subperm.trans
    (List.reverse_perm _).subperm
  exact ((List.subperm_append_left _).2 (placesCoins_subperm hkept)).append hmore.subperm

/-- **The coins below the target suffice**: some of them are selected that cover it, and with the exact
denominator none that do are younger. That there is a result is asked for, or follows from the size of
the tables. -/
theorem selectLowerByCoinAge_spec {nTargetValue : Int} {all : List AgeCoin} (hne : all ≠ [])
    (hall : ∀ v ∈ all, 0 ≤ v.nValue) (htotal : agesValue all < 2 ^ 63) (htarget : 0 ≤ nTargetValue)
    (hreach : nTargetValue ≤ agesValue all)
    (hends : all.length + 1 < 2 ^ 32 ∧ all.length * agesValue all < 2 ^ 63 ∨
      (selectLowerByCoinAge nTargetValue all).isSome) :
    ∃ r coins, selectLowerByCoinAge nTargetValue all = some r ∧ coins.Subperm all ∧ r.Takes coins ∧
      nTargetValue ≤ agesValue coins ∧
      (ageDenom nTargetValue all = ageGCD nTargetValue all → Aged all → agesCost all < 2 ^ 63 →
        Youngest nTargetValue all coins) := by
  have hpos : 0 < all.length := List.length_pos_of_ne_nil hne
  rw [selectLowerByCoinAge] at hends
  have hlength : ¬(all.length = 0 ∨ 2 ^ 32 ≤ all.length) := by
    rcases hends with hfits | hsome
    · omega
    · intro hout
      rw [if_pos hout] at hsome
      cases hsome
  rw [if_neg hlength, ageTotal_eq hall hne htotal] at hends
  rw [selectLowerByCoinAge, if_neg hlength, ageTotal_eq hall hne htotal]
  split
  · next hexact =>
    refine ⟨_, all, rfl, (List.Perm.refl all).subperm, ⟨rfl, ?_, rfl⟩, hexact.ge, ?_⟩
    · exact (foldl_insert_eq AgeCoin.coin all ∅).trans (Finset.empty_union _)
    · intro _ haged _ s hs hcover
      exact agesCost_le_of_agesValue_le hs hall haged (hexact.le.trans hcover)
  · next hnot =>
    have hmore : nTargetValue < agesValue all := by omega
    have hdenom := ageDenom_pos hall hne htarget hmore
    rw [if_neg hnot] at hends
    replace hends := hends.imp_left fun h => (⟨h.1, ageDenom_spec hall hne htarget hmore h.2⟩ :
      all.length + 1 < 2 ^ 32 ∧
        agesValue all - nTargetValue < 50 * ageDenom nTargetValue all)
    have hdvd := ageGCD_spec hall hne htarget
    generalize hd : ageDenom nTargetValue all = denom at *
    dsimp only at hends ⊢
    rw [if_neg hdenom.ne'] at hends ⊢
    split
    · next happrox =>
      obtain ⟨items, places, rest, hbundles, hholds, hperm, hrest, hbegin, hN, hlarge⟩ :=
        bundleCoins_spec hdenom hall htotal
      have hsub : (placesCoins places).Subperm all :=
        (List.sublist_append_left _ rest).subperm.trans hperm.subperm
      have hrows := length_le_of_placesCoins_subperm hdenom hholds.amount hlarge hsub
      rw [if_pos happrox, hbundles] at hends
      rw [hbundles]
      dsimp only [Option.bind_eq_bind, Option.bind_some] at hends ⊢
      split
      · next hlost =>
        obtain ⟨items', r', hprepick, hholds', hN', hr', hroom⟩ :=
          @prepick_spec nTargetValue denom hdenom places rest all hsub hall htotal
            items.nTotalCoinValues items _ hholds (by rw [hbegin, zero_add, hholds.length]) (by rw [hN, hbegin, List.drop_zero])
            (by rw [hbegin, List.take_zero]; exact .nil)
        rw [if_pos hlost, hprepick] at hends
        rw [hprepick]
        dsimp only [Option.bind_some] at hends ⊢
        split
        · next hreached =>
          have htakenSub := (placesCoins_subperm
            (List.take_sublist items'.nBeginCoinValues places).subperm).trans hsub
          exact ⟨r', _, rfl, htakenSub, hr', hr'.nValueRet ▸ hreached, fun h => absurd h happrox⟩
        · next hshort =>
          have hless := not_le.1 hshort
          have htakenLess := hless
          rw [hr'.nValueRet] at htakenLess
          obtain ⟨r'', coins, heq, hcoins, htakes, hcover⟩ := exists_of_bundles hall htotal hdenom
            hholds' hperm hrest hN' hr' htakenLess.le hreach (by
              refine hroom.imp_left fun hend => ⟨?_, hless⟩
              rw [hend, List.drop_length]) (by
              rw [if_neg hshort] at hends
              exact hends.imp_left fun h => ⟨by omega, h.2⟩)
          exact ⟨r'', coins, heq, hcoins, htakes, hcover, fun h => absurd h happrox⟩
      · next hkept =>
        have htaken : CoinSelection.Takes ⟨true, ∅, 0⟩ (placesCoins (places.take items.nBeginCoinValues)) := by
          rw [hbegin, List.take_zero]
          exact .nil
        obtain ⟨r'', coins, heq, hcoins, htakes, hcover⟩ := exists_of_bundles hall htotal hdenom
          hholds hperm hrest (by rw [hN, hbegin, List.drop_zero]) htaken
          (by rw [← htaken.nValueRet]; exact htarget) hreach (by
            right
            rw [sub_zero, Int64.wrap_eq_self ⟨by omega, by omega⟩]
            exact not_le.1 hkept) (by
            rw [if_neg hkept] at hends
            exact hends.imp_left fun h => ⟨by omega, h.2⟩)
        exact ⟨r'', coins, heq, hcoins, htakes, hcover, fun h => absurd h happrox⟩
    · next hgcd =>
      rw [not_not] at hgcd
      rw [← hgcd] at hdvd
      have hholds : AgeItems.Holds ⟨all, [], all.length, all.length, 0, (agesValue all).tdiv denom⟩
          (singlePlaces all) [] :=
        .singles (List.append_nil all).symm rfl rfl (Or.inl ⟨rfl, rfl⟩)
      have hweights := weights_singlePlaces hall htotal hdenom hdvd.2.2 (List.Sublist.refl all)
      have hN : agesValue all / denom = (agePrices denom).weights (singlePlaces all) := by
        rw [← hweights]
        exact Int.mul_ediv_cancel_left _ hdenom.ne'
      have hN' : (agesValue all).tdiv denom = agesValue all / denom :=
        Int.tdiv_eq_ediv_of_nonneg (htarget.trans hreach)
      have hquotient := Int.mul_ediv_cancel' hdvd.2.1
      have hsub : ([] ++ placesCoins (singlePlaces all) ++ []).Subperm all := by
        rw [List.nil_append, List.append_nil, placesCoins_singlePlaces]
      have hroom : nTargetValue / denom < (agePrices denom).weights (singlePlaces all) := by
        refine lt_of_mul_lt_mul_left ?_ hdenom.le
        rw [hquotient, hweights]
        exact hmore
      have hcolumns (hcolumns : agesValue all - nTargetValue < 50 * denom) :
          ((agePrices denom).weights (singlePlaces all) : Int) - nTargetValue / denom < 50 := by
        refine lt_of_mul_lt_mul_left ?_ hdenom.le
        rw [mul_sub, hquotient, hweights]
        omega
      obtain ⟨r, more, heq, hmore', htakes, hcover⟩ := @dynamicProgram_spec all hall htotal
        denom nTargetValue _ _ _ [] hholds _ CoinSelection.Takes.nil hsub hdenom (hN'.trans hN)
        ⟨htarget, by omega⟩ (by
          left
          rw [agesValue_nil, sub_zero]
          dsimp only
          rw [hN', hN]
          exact hroom) (by
          rw [if_neg (not_not.2 hgcd)] at hends
          refine hends.imp_left fun h => ⟨by rw [singlePlaces, List.length_map]; exact h.1, ?_⟩
          have := hcolumns h.2
          rw [agesValue_nil, sub_zero]
          dsimp only
          rw [hN', hN]
          omega) (by
          rw [List.nil_append, List.append_nil]
          dsimp only
          rw [List.drop_zero, placesCoins_singlePlaces]
          exact hreach)
      rw [List.sublist_nil.1 hmore', List.append_nil, List.nil_append, agesValue_nil, sub_zero] at htakes
      dsimp only at htakes
      rw [hN', List.drop_zero] at htakes
      refine ⟨r, _, heq, ?_, htakes, htakes.nValueRet ▸ hcover, fun _ haged hages => ?_⟩
      · have hkept := (agePrices denom).kept_sublist (singlePlaces all).reverse
          (ageCapacity (agesValue all / denom) nTargetValue denom)
        have hcoins := placesCoins_subperm (hkept.subperm.trans (List.reverse_perm _).subperm)
        rwa [placesCoins_singlePlaces] at hcoins
      · exact youngest_kept hall htotal hdenom hdvd.2.2 htarget hdvd.2.1 haged hages

/-! ## The loop over the coins -/

/-- A coin of the list with its age. -/
def ageCoin (output : COutput × Nat) : AgeCoin :=
  ⟨output.1.txout.nValue, Int64.wrap output.2, output.1.tx, output.1.i⟩

/-- The eligible coins of a list. -/
def CoinLimits.ageCoins (limits : CoinLimits) (mCoins : List (COutput × Nat)) : List AgeCoin :=
  (mCoins.filter fun output => limits.eligible output.1).map ageCoin

/-- A coin is below the target with a cent more. -/
def ageBelow (nTargetValue : Int) (coin : AgeCoin) : Bool :=
  decide (coin.nValue < Int64.wrap (nTargetValue + CENT))

/-- **Coins that are collected**: the lower ones, and the youngest of the others. -/
structure AgeCoins.Collects (below : AgeCoin → Bool) (coins : List AgeCoin) (st st' : AgeCoins) :
    Prop where
  vValue : st'.vValue = st.vValue ++ coins.filter below
  nTotalLower : ∀ a, st.nTotalLower = Int64.wrap a →
    st'.nTotalLower = Int64.wrap (a + agesValue (coins.filter below))
  least : ∀ coin ∈ coins, below coin = true ∨ st'.lowestCost ≤ (coin.nCost % 2 ^ 64).toNat
  le : st'.lowestCost ≤ st.lowestCost
  larger : st'.coinLowestLarger = st.coinLowestLarger ∨
    ∃ coin ∈ coins, below coin = false ∧ st'.coinLowestLarger = some coin

namespace AgeCoins.Collects

variable {below : AgeCoin → Bool} {coin : AgeCoin} {coins : List AgeCoin} {st st₁ st' : AgeCoins}

theorem nil : Collects below [] st st where
  vValue := (List.append_nil _).symm
  nTotalLower a ha := by rw [ha, List.filter_nil, agesValue_nil, add_zero]
  least := fun _ h => absurd h List.not_mem_nil
  le := le_rfl
  larger := Or.inl rfl

/-- A lower coin comes first. -/
theorem cons_lower (h : Collects below coins st₁ st') (hbelow : below coin = true)
    (hvalue : st₁.vValue = st.vValue ++ [coin])
    (htotal : st₁.nTotalLower = Int64.wrap (st.nTotalLower + coin.nValue))
    (hlarger : st₁.coinLowestLarger = st.coinLowestLarger) :
    Collects below (coin :: coins) st st' where
  vValue := by
    rw [h.vValue, hvalue, List.filter_cons, if_pos hbelow, List.append_assoc, List.singleton_append]
  nTotalLower a ha := by
    have htotal' : st₁.nTotalLower = Int64.wrap (a + coin.nValue) := by
      rw [htotal, ha, Int64.wrap_add_wrap]
    rw [h.nTotalLower _ htotal', List.filter_cons, if_pos hbelow, agesValue_cons, add_assoc]
  least c hc := by
    rcases List.mem_cons.1 hc with rfl | hc
    · exact Or.inl hbelow
    · exact h.least c hc
  le := by
    refine h.le.trans (le_of_eq ?_)
    rw [lowestCost, hlarger, ← lowestCost]
  larger := by
    rw [← hlarger]
    exact h.larger.imp_right fun ⟨c, hc, hrest⟩ => ⟨c, List.mem_cons_of_mem _ hc, hrest⟩

/-- A larger coin comes first, and is the youngest so far, or not. -/
theorem cons_larger (h : Collects below coins st₁ st') (hbelow : below coin = false)
    (hvalue : st₁.vValue = st.vValue) (htotal : st₁.nTotalLower = st.nTotalLower)
    (hlarger : st₁.coinLowestLarger = st.coinLowestLarger ∨ st₁.coinLowestLarger = some coin)
    (hcoin : st₁.lowestCost ≤ (coin.nCost % 2 ^ 64).toNat) (hle : st₁.lowestCost ≤ st.lowestCost) :
    Collects below (coin :: coins) st st' where
  vValue := by rw [h.vValue, hvalue, List.filter_cons, hbelow, if_neg Bool.false_ne_true]
  nTotalLower a ha := by
    rw [h.nTotalLower a (htotal.trans ha), List.filter_cons, hbelow, if_neg Bool.false_ne_true]
  least c hc := by
    rcases List.mem_cons.1 hc with rfl | hc
    · exact Or.inr (h.le.trans hcoin)
    · exact h.least c hc
  le := h.le.trans hle
  larger := by
    rcases h.larger with heq | ⟨c, hc, hrest⟩
    · rw [heq]
      exact hlarger.imp_right fun heq => ⟨coin, List.mem_cons_self, hbelow, heq⟩
    · exact Or.inr ⟨c, List.mem_cons_of_mem _ hc, hrest⟩

end AgeCoins.Collects

/-- The loop over a list collects its eligible coins. -/
theorem foldl_collect_spec (limits : CoinLimits) (nTargetValue : Int) (mCoins : List (COutput × Nat)) :
    ∀ st, (∀ output ∈ mCoins, output.2 < 2 ^ 64) →
      AgeCoins.Collects (ageBelow nTargetValue) (limits.ageCoins mCoins) st
        (mCoins.foldl (AgeCoins.collect limits nTargetValue) st) := by
  induction mCoins with
  | nil => exact fun _ _ => .nil
  | cons output mCoins ih =>
    intro st hcosts
    have hrest := ih (AgeCoins.collect limits nTargetValue st output)
      fun o ho => hcosts o (List.mem_cons_of_mem _ ho)
    rw [List.foldl_cons]
    by_cases heligible : limits.eligible output.1 = true
    · have hcoins : limits.ageCoins (output :: mCoins) = ageCoin output :: limits.ageCoins mCoins := by
        rw [CoinLimits.ageCoins, List.filter_cons, if_pos heligible, List.map_cons]
        rfl
      have hcost : ((ageCoin output).nCost % 2 ^ 64).toNat = output.2 := by
        have hlt := hcosts output List.mem_cons_self
        have hwrap := Int64.wrap_sub_self_mod output.2
        rw [ageCoin]
        dsimp only
        omega
      rw [hcoins]
      by_cases hbelow : ageBelow nTargetValue (ageCoin output) = true
      · have hst : AgeCoins.collect limits nTargetValue st output = {
            st with
            vValue := st.vValue ++ [ageCoin output]
            nTotalLower := Int64.wrap (st.nTotalLower + (ageCoin output).nValue) } := by
          rw [AgeCoins.collect, heligible, Bool.not_true, if_neg Bool.false_ne_true]
          exact if_pos (of_decide_eq_true hbelow)
        rw [hst] at hrest ⊢
        exact hrest.cons_lower hbelow rfl rfl rfl
      · have hlarger : ageBelow nTargetValue (ageCoin output) = false := Bool.eq_false_iff.2 hbelow
        have hst : AgeCoins.collect limits nTargetValue st output =
            if output.2 < st.lowestCost then { st with coinLowestLarger := some (ageCoin output) }
            else st := by
          rw [AgeCoins.collect, heligible, Bool.not_true, if_neg Bool.false_ne_true]
          exact if_neg fun hlt => hbelow (decide_eq_true hlt)
        rw [hst] at hrest ⊢
        split at hrest
        · next hless =>
          have hlowest : AgeCoins.lowestCost { st with coinLowestLarger := some (ageCoin output) } =
              output.2 := by
            rw [AgeCoins.lowestCost, Option.map_some, Option.getD_some, hcost]
          rw [if_pos hless]
          exact hrest.cons_larger hlarger rfl rfl (Or.inr rfl) (by rw [hlowest, hcost])
            (by rw [hlowest]; exact hless.le)
        · next hmore =>
          rw [if_neg hmore]
          exact hrest.cons_larger hlarger rfl rfl (Or.inl rfl) (by rw [hcost]; exact not_lt.1 hmore)
            le_rfl
    · have hcoins : limits.ageCoins (output :: mCoins) = limits.ageCoins mCoins := by
        rw [CoinLimits.ageCoins, List.filter_cons, if_neg heligible]
        rfl
      have hst : AgeCoins.collect limits nTargetValue st output = st := by
        rw [AgeCoins.collect, Bool.eq_false_iff.2 heligible, Bool.not_false, if_pos rfl]
      rw [hst] at hrest ⊢
      rw [hcoins]
      exact hrest

/-- The eligible coins of a list, as the loop collects them. -/
structure CollectedFrom (limits : CoinLimits) (getTime : WalletCoin → Int) (vCoins : List COutput)
    (coins : List AgeCoin) : Prop where
  perm : (coins.map fun c => (c.nValue, c.coin)).Perm (limits.coins vCoins)
  value : ∀ c ∈ coins, c.coin.value = c.nValue
  cost : ∀ c ∈ coins, c.nCost = Int64.wrap (coinWeightCost getTime c.coin)

/-- **What the loop collects** of a list. -/
theorem collectByAge_spec (limits : CoinLimits) (draws : AgeDraws) (nTargetValue : Int)
    (vCoins : List COutput) :
    ∃ coins, CollectedFrom limits draws.getTime vCoins coins ∧
      AgeCoins.Collects (ageBelow nTargetValue) coins ⟨[], 0, none⟩
        (collectByAge limits draws nTargetValue vCoins) := by
  have hperm := draws.sort_perm
    (vCoins.map fun out => (out, coinWeightCost draws.getTime out.coin.2))
  have hmem : ∀ output ∈ draws.sort (vCoins.map fun out =>
      (out, coinWeightCost draws.getTime out.coin.2)),
      output.2 = coinWeightCost draws.getTime output.1.coin.2 := by
    intro output houtput
    obtain ⟨out, -, rfl⟩ := List.mem_map.1 (hperm.subset houtput)
    rfl
  refine ⟨limits.ageCoins (draws.sort (vCoins.map fun out =>
    (out, coinWeightCost draws.getTime out.coin.2))), ⟨?_, ?_, ?_⟩, ?_⟩
  · have hcoins := ((hperm.filter fun output => limits.eligible output.1).map ageCoin).map
      fun c => (c.nValue, c.coin)
    refine hcoins.trans (List.Perm.of_eq ?_)
    rw [List.filter_map, List.map_map, List.map_map]
    rfl
  · intro c hc
    obtain ⟨output, -, rfl⟩ := List.mem_map.1 hc
    exact output.1.value_coin
  · intro c hc
    obtain ⟨output, houtput, rfl⟩ := List.mem_map.1 hc
    exact congrArg (fun cost : Nat => Int64.wrap cost) (hmem output (List.mem_filter.1 houtput).1)
  · refine foldl_collect_spec limits nTargetValue _ _ fun output houtput => ?_
    rw [hmem output houtput, coinWeightCost]
    exact Nat.mod_lt _ (by norm_num)

/-! ## The postcondition -/

theorem nodup_of_subperm {taken coins : List AgeCoin} (hsub : taken.Subperm coins)
    (hnodup : (coins.map AgeCoin.coin).Nodup) : (taken.map AgeCoin.coin).Nodup := by
  obtain ⟨perm, hperm, hsublist⟩ := hsub
  exact (hperm.map AgeCoin.coin).nodup_iff.1 (hnodup.sublist (hsublist.map AgeCoin.coin))

section Postcondition

variable {limits : CoinLimits} {getTime : WalletCoin → Int} {vCoins : List COutput}
  {coins : List AgeCoin} (hcoins : CollectedFrom limits getTime vCoins coins)
include hcoins

theorem CollectedFrom.agesValue_eq : agesValue coins = limits.total vCoins := by
  have hsum := (hcoins.perm.map Prod.fst).sum_eq
  rw [List.map_map] at hsum
  exact hsum

theorem CollectedFrom.length_eq : coins.length = (limits.coins vCoins).length := by
  rw [← hcoins.perm.length_eq, List.length_map]

theorem CollectedFrom.nonneg (hamounts : ∀ coin ∈ limits.coins vCoins, 0 ≤ coin.1) :
    ∀ v ∈ coins, 0 ≤ v.nValue :=
  fun v hv => hamounts (v.nValue, v.coin)
    (hcoins.perm.subset (List.mem_map_of_mem (f := fun c : AgeCoin => (c.nValue, c.coin)) hv))

theorem CollectedFrom.nodup (hdistinct : ((limits.coins vCoins).map Prod.snd).Nodup) :
    (coins.map AgeCoin.coin).Nodup := by
  have h := (hcoins.perm.map Prod.snd).nodup_iff.2 hdistinct
  rwa [List.map_map] at h

/-- Coins that are taken cover a target. -/
theorem CollectedFrom.covers (hdistinct : ((limits.coins vCoins).map Prod.snd).Nodup)
    {r : CoinSelection} {taken : List AgeCoin} (hsub : taken.Subperm coins) (hr : r.Takes taken)
    {nTargetValue : Int} (hcover : nTargetValue ≤ agesValue taken) :
    r.Covers (limits.coins vCoins) nTargetValue := by
  have hnodup := nodup_of_subperm hsub (hcoins.nodup hdistinct)
  refine ⟨hr.fSelected, fun c hc => ?_, ?_, hr.nValueRet ▸ hcover⟩
  · rw [hr.setCoinsRet, List.mem_toFinset] at hc
    obtain ⟨v, hv, rfl⟩ := List.mem_map.1 hc
    exact ⟨(v.nValue, v.coin), hcoins.perm.subset
      (List.mem_map_of_mem (f := fun c : AgeCoin => (c.nValue, c.coin)) (hsub.subset hv)), rfl⟩
  · rw [hr.setCoinsRet, List.sum_toFinset _ hnodup, List.map_map, hr.nValueRet, agesValue]
    exact congrArg List.sum (List.map_congr_left fun v hv => (hcoins.value v (hsub.subset hv)).symm)

/-- The ages of coins are those that the loop collects. -/
theorem CollectedFrom.cost_eq
    (hages : ((limits.coins vCoins).map fun coin => coinWeightCost getTime coin.2).sum < 2 ^ 63) :
    ∀ v ∈ coins, v.nCost = coinWeightCost getTime v.coin := by
  intro v hv
  have hmem : (v.nValue, v.coin) ∈ limits.coins vCoins := hcoins.perm.subset
    (List.mem_map_of_mem (f := fun c : AgeCoin => (c.nValue, c.coin)) hv)
  have hcost : coinWeightCost getTime v.coin ∈
      (limits.coins vCoins).map fun coin => coinWeightCost getTime coin.2 :=
    List.mem_map.mpr ⟨_, hmem, rfl⟩
  have hle := List.single_le_sum (fun _ _ => Nat.zero_le _) _ hcost
  rw [hcoins.cost v hv]
  exact Int64.wrap_eq_self ⟨by omega, by omega⟩

theorem CollectedFrom.aged
    (hages : ((limits.coins vCoins).map fun coin => coinWeightCost getTime coin.2).sum < 2 ^ 63) :
    Aged coins := by
  intro v hv
  rw [hcoins.cost_eq hages v hv]
  refine ⟨Int.natCast_nonneg _, fun hzero => ?_⟩
  rw [coinWeightCost, hcoins.value v hv, hzero, zero_mul, Int.zero_tdiv]
  rfl

theorem CollectedFrom.agesCost_eq
    (hages : ((limits.coins vCoins).map fun coin => coinWeightCost getTime coin.2).sum < 2 ^ 63) :
    agesCost coins =
      (((limits.coins vCoins).map fun coin => coinWeightCost getTime coin.2).sum : Nat) := by
  have hsum := (hcoins.perm.map fun coin => coinWeightCost getTime coin.2).sum_eq
  rw [← hsum, List.map_map, agesCost, Nat.cast_list_sum, List.map_map]
  exact congrArg List.sum (List.map_congr_left fun v hv => hcoins.cost_eq hages v hv)

/-- How old the coins of a selection are. -/
theorem CollectedFrom.agesCost_taken
    (hages : ((limits.coins vCoins).map fun coin => coinWeightCost getTime coin.2).sum < 2 ^ 63)
    (hdistinct : ((limits.coins vCoins).map Prod.snd).Nodup) {r : CoinSelection}
    {taken : List AgeCoin} (hsub : taken.Subperm coins) (hr : r.Takes taken) :
    agesCost taken = ∑ c ∈ r.setCoinsRet, (coinWeightCost getTime c : Int) := by
  have hnodup := nodup_of_subperm hsub (hcoins.nodup hdistinct)
  rw [hr.setCoinsRet, List.sum_toFinset _ hnodup, List.map_map, agesCost]
  exact congrArg List.sum
    (List.map_congr_left fun v hv => hcoins.cost_eq hages v (hsub.subset hv))

end Postcondition

/-- Some of the coins that are collected, as a set. -/
theorem sum_filter_mem {coins : List AgeCoin} (hnodup : (coins.map AgeCoin.coin).Nodup)
    {s : Finset WalletCoin} (hs : ∀ c ∈ s, ∃ v ∈ coins, v.coin = c) (f : WalletCoin → Int) :
    ((coins.filter fun v => decide (v.coin ∈ s)).map fun v => f v.coin).sum = ∑ c ∈ s, f c := by
  have hsub : ((coins.filter fun v => decide (v.coin ∈ s)).map AgeCoin.coin).Nodup :=
    hnodup.sublist (List.filter_sublist.map AgeCoin.coin)
  have hset : ((coins.filter fun v => decide (v.coin ∈ s)).map AgeCoin.coin).toFinset = s := by
    ext c
    rw [List.mem_toFinset, List.mem_map]
    constructor
    · rintro ⟨v, hv, rfl⟩
      exact of_decide_eq_true (List.mem_filter.1 hv).2
    · intro hc
      obtain ⟨v, hv, rfl⟩ := hs c hc
      exact ⟨v, List.mem_filter.2 ⟨hv, decide_eq_true hc⟩, rfl⟩
  rw [← hset, List.sum_toFinset f hsub, List.map_map, hset]
  rfl

section Compared

variable {limits : CoinLimits} {getTime : WalletCoin → Int} {vCoins : List COutput}
  {coins : List AgeCoin} (hcoins : CollectedFrom limits getTime vCoins coins)
  (hdistinct : ((limits.coins vCoins).map Prod.snd).Nodup)
include hcoins hdistinct

/-- What coins are worth that are among some of those collected. -/
theorem CollectedFrom.agesValue_filter_mem {part : List AgeCoin} (hpart : part.Sublist coins)
    {s : Finset WalletCoin} (hs : ∀ c ∈ s, ∃ v ∈ part, v.coin = c) :
    agesValue (part.filter fun v => decide (v.coin ∈ s)) = ∑ c ∈ s, c.value := by
  have hnodup := nodup_of_subperm hpart.subperm (hcoins.nodup hdistinct)
  rw [← sum_filter_mem hnodup hs, agesValue]
  exact congrArg List.sum (List.map_congr_left fun v hv =>
    (hcoins.value v (hpart.subset (List.mem_filter.1 hv).1)).symm)

/-- **No coins are younger** than those that are the youngest of some. -/
theorem CollectedFrom.sum_le_of_youngest
    (hages : ((limits.coins vCoins).map fun coin => coinWeightCost getTime coin.2).sum < 2 ^ 63)
    {part taken : List AgeCoin} (hpart : part.Sublist coins) (hsub : taken.Subperm coins)
    {r : CoinSelection} (hr : r.Takes taken) {nTargetValue : Int}
    (hyoungest : Youngest nTargetValue part taken) {s : Finset WalletCoin}
    (hs : ∀ c ∈ s, ∃ v ∈ part, v.coin = c) (htarget : nTargetValue ≤ ∑ c ∈ s, c.value) :
    ∑ c ∈ r.setCoinsRet, coinWeightCost getTime c ≤ ∑ c ∈ s, coinWeightCost getTime c := by
  have hnodup := nodup_of_subperm hpart.subperm (hcoins.nodup hdistinct)
  have hle := hyoungest (part.filter fun v => decide (v.coin ∈ s)) List.filter_sublist (by
    rwa [hcoins.agesValue_filter_mem hdistinct hpart hs])
  have hcost : agesCost (part.filter fun v => decide (v.coin ∈ s)) =
      ∑ c ∈ s, (coinWeightCost getTime c : Int) := by
    rw [← sum_filter_mem hnodup hs, agesCost]
    exact congrArg List.sum (List.map_congr_left fun v hv =>
      hcoins.cost_eq hages v (hpart.subset (List.mem_filter.1 hv).1))
  rw [hcoins.agesCost_taken hages hdistinct hsub hr, hcost, ← Nat.cast_sum, ← Nat.cast_sum] at hle
  exact Int.ofNat_le.1 hle

/-- Coins that are worth more than some of those collected have another one. -/
theorem CollectedFrom.exists_of_agesValue_lt (hamounts : ∀ v ∈ coins, 0 ≤ v.nValue)
    {below : AgeCoin → Bool} {s : Finset WalletCoin} (hs : ∀ c ∈ s, ∃ v ∈ coins, v.coin = c)
    (hlt : agesValue (coins.filter below) < ∑ c ∈ s, c.value) :
    ∃ v ∈ coins, v.coin ∈ s ∧ below v = false := by
  by_contra hnone
  have hall : ∀ c ∈ s, ∃ v ∈ coins.filter below, v.coin = c := fun c hc => by
    obtain ⟨v, hv, rfl⟩ := hs c hc
    refine ⟨v, List.mem_filter.2 ⟨hv, ?_⟩, rfl⟩
    exact Bool.eq_true_of_not_eq_false fun hlarger => hnone ⟨v, hv, hc, hlarger⟩
  have hbelow : (coins.filter below).Sublist coins := List.filter_sublist
  have hsub : ((coins.filter below).filter fun v => decide (v.coin ∈ s)).Sublist
      (coins.filter below) := List.filter_sublist
  have hle := agesValue_le_of_subperm hsub.subperm fun v hv => hamounts v (hbelow.subset hv)
  rw [hcoins.agesValue_filter_mem hdistinct hbelow hall] at hle
  exact absurd hlt (not_lt.2 hle)

end Compared

/-- Coins that a selection is compared with: eligible ones that cover the target, which are below it
with a cent more, with the exact denominator, if such coins suffice. -/
structure ComparedByAge (limits : CoinLimits) (draws : AgeDraws) (nTargetValue : Int)
    (vCoins : List COutput) (s : Finset WalletCoin) : Prop where
  mem : ∀ c ∈ s, ∃ coin ∈ limits.coins vCoins, coin.2 = c
  target : nTargetValue ≤ ∑ c ∈ s, c.value
  below : agesValue (collectByAge limits draws nTargetValue vCoins).vValue < nTargetValue ∨
    (∀ c ∈ s, c.value < nTargetValue + CENT) ∧
      ageDenom nTargetValue (collectByAge limits draws nTargetValue vCoins).vValue =
        ageGCD nTargetValue (collectByAge limits draws nTargetValue vCoins).vValue

section Selection

variable {limits : CoinLimits} {draws : AgeDraws} {nTargetValue : Int} {vCoins : List COutput}
  (hdistinct : ((limits.coins vCoins).map Prod.snd).Nodup)
  (hamounts : ∀ coin ∈ limits.coins vCoins, 0 ≤ coin.1)
  (htotal : limits.total vCoins < 2 ^ 63)
  (htarget : 0 ≤ nTargetValue ∧ nTargetValue + CENT < 2 ^ 63)
include hdistinct hamounts htotal htarget

/-- What is selected, where there are coins below the target or it is more than nothing. -/
theorem exists_selectCoinsMinConfByCoinAge
    (hsome : nTargetValue = 0 → (collectByAge limits draws nTargetValue vCoins).vValue ≠ [])
    (hends : (limits.coins vCoins).length + 1 < 2 ^ 32 ∧
        (limits.coins vCoins).length * limits.total vCoins < 2 ^ 63 ∨
      (selectCoinsMinConfByCoinAge limits draws nTargetValue vCoins).isSome) :
    ∃ r, selectCoinsMinConfByCoinAge limits draws nTargetValue vCoins = some r ∧
      (r.fSelected = true → r.Covers (limits.coins vCoins) nTargetValue ∧
        (((limits.coins vCoins).map fun coin => coinWeightCost draws.getTime coin.2).sum < 2 ^ 63 →
          ∀ s, ComparedByAge limits draws nTargetValue vCoins s →
            ∑ c ∈ r.setCoinsRet, coinWeightCost draws.getTime c ≤
              ∑ c ∈ s, coinWeightCost draws.getTime c)) := by
  obtain ⟨coins, hcoins, hcollects⟩ := collectByAge_spec limits draws nTargetValue vCoins
  have hvalue := hcollects.vValue
  rw [List.nil_append] at hvalue
  have hbelowSub : (coins.filter (ageBelow nTargetValue)).Sublist coins := List.filter_sublist
  have hall := hcoins.nonneg hamounts
  have hallBelow : ∀ v ∈ coins.filter (ageBelow nTargetValue), 0 ≤ v.nValue :=
    fun v hv => hall v (hbelowSub.subset hv)
  have hcent : Int64.wrap (nTargetValue + CENT) = nTargetValue + CENT :=
    Int64.wrap_eq_self ⟨by rw [CENT]; omega, htarget.2⟩
  rw [← hcoins.agesValue_eq, ← hcoins.length_eq] at hends
  rw [← hcoins.agesValue_eq] at htotal
  have hbelowLe := agesValue_le_of_subperm hbelowSub.subperm hall
  have hbelowNonneg := agesValue_nonneg hallBelow
  have htotalBelow : (collectByAge limits draws nTargetValue vCoins).nTotalLower =
      agesValue (coins.filter (ageBelow nTargetValue)) := by
    rw [hcollects.nTotalLower 0 Int64.wrap_zero.symm, zero_add]
    exact Int64.wrap_eq_self ⟨by omega, by omega⟩
  have hnodup := hcoins.nodup hdistinct
  have hcollected {s : Finset WalletCoin} (hs : ComparedByAge limits draws nTargetValue vCoins s) :
      ∀ c ∈ s, ∃ v ∈ coins, v.coin = c := fun c hc => by
    obtain ⟨coin, hcoin, rfl⟩ := hs.mem c hc
    obtain ⟨v, hv, rfl⟩ := List.mem_map.1 (hcoins.perm.symm.subset hcoin)
    exact ⟨v, hv, rfl⟩
  rw [selectCoinsMinConfByCoinAge, htotalBelow] at hends
  rw [selectCoinsMinConfByCoinAge, htotalBelow]
  split
  · next hshort =>
    -- the coins below the target do not suffice
    rcases hcollects.larger with heq | ⟨c, hc, hlarger, heq⟩
    · rw [heq]
      exact ⟨_, rfl, fun hselected => absurd hselected Bool.false_ne_true⟩
    · have hcSub : List.Subperm ([] ++ [c]) coins := (List.singleton_sublist.2 hc).subperm
      have htakes := CoinSelection.Takes.nil.add (v := c)
        (agesValue_inRange hall htotal hcSub).2
      have hcover : nTargetValue ≤ agesValue ([] ++ [c]) := by
        have hnot := of_decide_eq_false hlarger
        have hcentPos : 0 < CENT := by decide
        rw [hcent] at hnot
        rw [List.nil_append, agesValue_cons, agesValue_nil]
        omega
      rw [heq]
      refine ⟨_, rfl, fun _ => ⟨hcoins.covers hdistinct hcSub htakes hcover, fun hages s hs => ?_⟩⟩
      -- a larger coin is among those that cover the target, and it is no younger
      obtain ⟨v, hv, hvs, hvLarger⟩ := hcoins.exists_of_agesValue_lt hdistinct hall (hcollected hs)
        (hshort.trans_le hs.target)
      have hleast := (hcollects.least v hv).resolve_left (Bool.eq_false_iff.1 hvLarger)
      rw [AgeCoins.lowestCost, heq, Option.map_some, Option.getD_some, hcoins.cost_eq hages c hc,
        hcoins.cost_eq hages v hv] at hleast
      have hcost : ∀ coin : WalletCoin, ((coinWeightCost draws.getTime coin : Int) % 2 ^ 64).toNat =
          coinWeightCost draws.getTime coin := fun coin => by
        have hlt : coinWeightCost draws.getTime coin < 2 ^ 64 := by
          rw [coinWeightCost]
          exact Nat.mod_lt _ (by norm_num)
        omega
      rw [hcost, hcost] at hleast
      have hset : (CoinSelection.add ⟨true, ∅, 0⟩ (c.nValue, c.coin)).setCoinsRet = {c.coin} :=
        htakes.setCoinsRet
      rw [hset, Finset.sum_singleton]
      exact hleast.trans (Finset.single_le_sum (f := fun c => coinWeightCost draws.getTime c)
        (fun _ _ => Nat.zero_le _) hvs)
  · next hsuffice =>
    have hne : coins.filter (ageBelow nTargetValue) ≠ [] := by
      rcases htarget.1.eq_or_lt with hzero | hpos
      · rw [← hvalue]
        exact hsome hzero.symm
      · intro hnil
        rw [hnil, agesValue_nil] at hsuffice
        exact hsuffice hpos
    have hlengthLe := hbelowSub.length_le
    have hproduct : (coins.filter (ageBelow nTargetValue)).length *
        agesValue (coins.filter (ageBelow nTargetValue)) ≤ coins.length * agesValue coins :=
      mul_le_mul (by omega) hbelowLe hbelowNonneg (by omega)
    rw [if_neg hsuffice, hvalue] at hends
    obtain ⟨r, taken, heq, hsub, htakes, hcover, hyoungest⟩ := selectLowerByCoinAge_spec hne hallBelow
      (hbelowLe.trans_lt htotal) htarget.1 (not_lt.1 hsuffice)
      (hends.imp_left fun h => ⟨by omega, hproduct.trans_lt h.2⟩)
    have htakenSub := hsub.trans hbelowSub.subperm
    rw [hvalue]
    refine ⟨r, heq, fun _ => ⟨hcoins.covers hdistinct htakenSub htakes hcover, fun hages s hs => ?_⟩⟩
    rcases hs.below with hshort | ⟨hbelow, hexact⟩
    · rw [hvalue] at hshort
      exact absurd hshort hsuffice
    · have haged := hcoins.aged hages
      have hagesAll := hcoins.agesCost_eq hages
      have hrest := agesCost_nonneg fun v hv => (haged v (hbelowSub.subset hv)).1
      rw [hvalue] at hexact
      refine hcoins.sum_le_of_youngest hdistinct hages hbelowSub htakenSub htakes
        (hyoungest hexact (fun v hv => haged v (hbelowSub.subset hv)) ?_) (fun c hc => ?_) hs.target
      · refine (agesCost_le_of_sublist hbelowSub fun v hv => (haged v hv).1).trans_lt ?_
        omega
      · obtain ⟨v, hv, rfl⟩ := hcollected hs c hc
        refine ⟨v, List.mem_filter.2 ⟨hv, decide_eq_true ?_⟩, rfl⟩
        rw [hcent, ← hcoins.value v hv]
        exact hbelow _ hc

/-- What is selected covers the target, whatever is computed of the amounts on the way. -/
theorem covers_of_selectCoinsMinConfByCoinAge {r : CoinSelection}
    (hr : selectCoinsMinConfByCoinAge limits draws nTargetValue vCoins = some r)
    (hselected : r.fSelected = true) : r.Covers (limits.coins vCoins) nTargetValue := by
  by_cases hnone :
      nTargetValue = 0 ∧ (collectByAge limits draws nTargetValue vCoins).vValue = []
  · -- there is no first coin to read
    obtain ⟨coins, -, hcollects⟩ := collectByAge_spec limits draws nTargetValue vCoins
    have hempty := hcollects.vValue.symm.trans hnone.2
    rw [List.nil_append] at hempty
    have htotal := hcollects.nTotalLower 0 Int64.wrap_zero.symm
    rw [hempty, agesValue_nil, add_zero, Int64.wrap_zero] at htotal
    rw [selectCoinsMinConfByCoinAge, htotal, hnone.1, if_neg (lt_irrefl _), ← hnone.1, hnone.2,
      selectLowerByCoinAge, if_pos (Or.inl List.length_nil)] at hr
    cases hr
  · obtain ⟨r', heq, hr'⟩ := exists_selectCoinsMinConfByCoinAge hdistinct hamounts htotal htarget
      (fun hzero hempty => hnone ⟨hzero, hempty⟩) (.inr (Option.isSome_iff_exists.2 ⟨r, hr⟩))
    rw [heq] at hr
    obtain rfl := Option.some.inj hr
    exact (hr' hselected).1

end Selection

/-- **The selection by coin age** reads in range. The coins it selects are eligible, add up to what is
returned and cover the target, and no coins it is compared with are younger. -/
theorem selectCoinsMinConfByCoinAge_spec (limits : CoinLimits) (draws : AgeDraws) (nTargetValue : Int)
    (vCoins : List COutput) (hdistinct : ((limits.coins vCoins).map Prod.snd).Nodup)
    (hamounts : ∀ coin ∈ limits.coins vCoins, 0 ≤ coin.1)
    (hlength : (limits.coins vCoins).length + 1 < 2 ^ 32)
    (hfits : (limits.coins vCoins).length * limits.total vCoins < 2 ^ 63)
    (htarget : 0 < nTargetValue ∧ nTargetValue + CENT < 2 ^ 63) :
    ∃ r, selectCoinsMinConfByCoinAge limits draws nTargetValue vCoins = some r ∧
      (r.fSelected = true → r.Covers (limits.coins vCoins) nTargetValue ∧
        (((limits.coins vCoins).map fun coin => coinWeightCost draws.getTime coin.2).sum < 2 ^ 63 →
          ∀ s, ComparedByAge limits draws nTargetValue vCoins s →
            ∑ c ∈ r.setCoinsRet, coinWeightCost draws.getTime c ≤
              ∑ c ∈ s, coinWeightCost draws.getTime c)) := by
  have htotal : limits.total vCoins < 2 ^ 63 := by
    rcases Nat.eq_zero_or_pos (limits.coins vCoins).length with hnone | hpos
    · rw [CoinLimits.total, List.length_eq_zero_iff.1 hnone]
      exact by norm_num
    · have hle : limits.total vCoins ≤ (limits.coins vCoins).length * limits.total vCoins :=
        le_mul_of_one_le_left (List.sum_nonneg (amounts_nonneg hamounts)) (by omega)
      exact hle.trans_lt hfits
  exact exists_selectCoinsMinConfByCoinAge hdistinct hamounts htotal ⟨htarget.1.le, htarget.2⟩
    (fun hzero => absurd hzero htarget.1.ne') (.inl ⟨hlength, hfits⟩)

/-- An output of a transaction of some time. -/
def datedOutput (nTime : Nat) (nValue : Int) : COutput where
  tx := ⟨1, nTime, [], [⟨nValue, []⟩], 0⟩
  i := 0
  nDepth := 10
  txout := ⟨nValue, []⟩
  vout_eq := rfl

/-- Coins are spent at a time. -/
def datedLimits : CoinLimits := ⟨2000000, 1, 6, fun _ => false⟩

/-- The clock shows that time. -/
def plainAges : AgeDraws where
  getTime _ := 2000000
  sort mCoins := mCoins.insertionSort fun t₁ t₂ => t₁.2 ≤ t₂.2
  sort_perm mCoins := List.perm_insertionSort _ mCoins
  sort_pairwise mCoins := by
    have : Std.Total fun t₁ t₂ : COutput × Nat => t₁.2 ≤ t₂.2 := ⟨fun a b => le_total a.2 b.2⟩
    have : IsTrans (COutput × Nat) fun t₁ t₂ => t₁.2 ≤ t₂.2 := ⟨fun _ _ _ => le_trans⟩
    exact List.pairwise_insertionSort _ mCoins

theorem selectCoinsMinConfByCoinAge_spec_twoCoins :
    ∃ r, selectCoinsMinConfByCoinAge datedLimits plainAges (6 * CENT)
        [datedOutput 0 (5 * CENT), datedOutput 1 (4 * CENT)] = some r ∧
      (r.fSelected = true → 6 * CENT ≤ r.nValueRet) := by
  obtain ⟨r, heq, hr⟩ := selectCoinsMinConfByCoinAge_spec datedLimits plainAges (6 * CENT)
    [datedOutput 0 (5 * CENT), datedOutput 1 (4 * CENT)] (by decide) (by decide) (by decide) (by decide)
    (by decide)
  exact ⟨r, heq, fun hselected => (hr hselected).1.target⟩

/-- **Where the postcondition fails**: with a larger coin that is younger, with the same coin twice, with
an amount that is negative, with amounts whose product with the number of coins is not in range, and
with a target to which no cent can be added. -/
theorem not_selectCoinsMinConfByCoinAge_spec :
    (∃ r, selectCoinsMinConfByCoinAge datedLimits plainAges CENT
        [datedOutput 0 CENT, datedOutput 2000000 (3 * CENT)] = some r ∧ r.fSelected = true ∧
      ageDenom CENT (collectByAge datedLimits plainAges CENT
        [datedOutput 0 CENT, datedOutput 2000000 (3 * CENT)]).vValue =
        ageGCD CENT (collectByAge datedLimits plainAges CENT
          [datedOutput 0 CENT, datedOutput 2000000 (3 * CENT)]).vValue ∧
      CENT ≤ WalletCoin.value (datedOutput 2000000 (3 * CENT)).coin.2 ∧
      coinWeightCost plainAges.getTime (datedOutput 2000000 (3 * CENT)).coin.2 <
        ∑ c ∈ r.setCoinsRet, coinWeightCost plainAges.getTime c) ∧
    (∃ r, selectCoinsMinConfByCoinAge datedLimits plainAges (2 * CENT)
        [datedOutput 0 CENT, datedOutput 0 CENT] = some r ∧ r.fSelected = true ∧
      r.nValueRet ≠ ∑ c ∈ r.setCoinsRet, WalletCoin.value c) ∧
    selectCoinsMinConfByCoinAge datedLimits plainAges 3 [datedOutput 0 (-1), datedOutput 0 5] = none ∧
    selectCoinsMinConfByCoinAge datedLimits plainAges (2 ^ 61)
      [datedOutput 0 (2 ^ 61 - 1), datedOutput 1 (2 ^ 61), datedOutput 2 (2 ^ 61 + 1)] = none ∧
    (∃ r, selectCoinsMinConfByCoinAge datedLimits plainAges (2 ^ 63 - 1) [datedOutput 0 1] = some r ∧
      r.fSelected = true ∧ r.nValueRet < 2 ^ 63 - 1) := by
  refine ⟨⟨⟨true, {(datedOutput 0 CENT).coin.2}, CENT⟩, ?_⟩,
    ⟨⟨true, {(datedOutput 0 CENT).coin.2}, 2 * CENT⟩, ?_⟩, ?_, ?_,
    ⟨⟨true, {(datedOutput 0 1).coin.2}, 1⟩, ?_⟩⟩
  · decide +kernel
  · decide +kernel
  · decide +kernel
  · decide +kernel
  · decide +kernel

end MotaCoin
