import MotaCoin.CoinAgeTables

/-!
# Bundles of small coins

What `SelectCoinsMinConfByCoinAge` does before its tables: the greatest common divisor, the
approximation of it, the bundles that the small coins are put into, and the places that are selected
before the tables are filled.

## Main definitions

* `Bundling.Sound`: what holds while small coins are put into bundles

## Main results

* `ageGCD_spec`, `ageDenom_spec`: the denominator divides, or the tables have few columns
* `bundleCoins_spec`: the bundles are worth the denominator, and what is left is not
* `prepick_spec`: the first places are selected
-/

namespace MotaCoin

/-! ## The denominator -/

theorem gcdCalls_natCast {calls : Nat} :
    ∀ {n m : Nat}, m < calls → gcdCalls calls n m = (Nat.gcd m n : Nat) := by
  induction calls with
  | zero => exact fun h => absurd h (Nat.not_lt_zero _)
  | succ calls ih =>
    intro n m h
    rw [gcdCalls]
    split
    · next hzero =>
      rw [Int.natCast_eq_zero.1 hzero, Nat.gcd_zero_left]
    · next hne =>
      have hpos : 0 < m := Nat.pos_of_ne_zero fun hzero => hne (Int.natCast_eq_zero.2 hzero)
      rw [← Int.ofNat_tmod, ih ((Nat.mod_lt n hpos).trans_le (Nat.le_of_lt_succ h)), ← Nat.gcd_rec]

/-- `gcd` of amounts is their greatest common divisor. -/
theorem gcd_natCast (n m : Nat) : gcd n m = (Nat.gcd m n : Nat) := by
  rw [gcd, Int.natAbs_natCast]
  exact gcdCalls_natCast (Nat.lt_succ_self m)

theorem gcd_spec {n m : Int} (hn : 0 ≤ n) (hm : 0 ≤ m) : 0 ≤ gcd n m ∧ gcd n m ∣ n ∧ gcd n m ∣ m := by
  obtain ⟨n, rfl⟩ := Int.eq_ofNat_of_zero_le hn
  obtain ⟨m, rfl⟩ := Int.eq_ofNat_of_zero_le hm
  rw [gcd_natCast]
  exact ⟨Int.natCast_nonneg _, Int.natCast_dvd_natCast.2 (Nat.gcd_dvd_right m n),
    Int.natCast_dvd_natCast.2 (Nat.gcd_dvd_left m n)⟩

theorem foldl_gcd_spec (vValue : List AgeCoin) (hall : ∀ v ∈ vValue, 0 ≤ v.nValue) :
    ∀ {n : Int}, 0 ≤ n →
      0 ≤ vValue.foldl (fun nGCD v => gcd v.nValue nGCD) n ∧
        vValue.foldl (fun nGCD v => gcd v.nValue nGCD) n ∣ n ∧
        ∀ v ∈ vValue, vValue.foldl (fun nGCD v => gcd v.nValue nGCD) n ∣ v.nValue := by
  induction vValue with
  | nil => exact fun hn => ⟨hn, dvd_rfl, fun _ h => absurd h List.not_mem_nil⟩
  | cons v vValue ih =>
    intro n hn
    obtain ⟨hgcd, hdvd, hdvd'⟩ := gcd_spec (hall v List.mem_cons_self) hn
    obtain ⟨hnonneg, hn', hvs⟩ := ih (fun w hw => hall w (List.mem_cons_of_mem _ hw)) hgcd
    refine ⟨hnonneg, hn'.trans hdvd', fun w hw => ?_⟩
    rcases List.mem_cons.1 hw with rfl | hw
    · exact hn'.trans hdvd
    · exact hvs w hw

section Denominator

variable {nTargetValue : Int} {vValue : List AgeCoin} (hall : ∀ v ∈ vValue, 0 ≤ v.nValue)
  (hne : vValue ≠ [])
include hall hne

/-- **The greatest common divisor** divides the target and every amount. -/
theorem ageGCD_spec (htarget : 0 ≤ nTargetValue) :
    0 ≤ ageGCD nTargetValue vValue ∧ ageGCD nTargetValue vValue ∣ nTargetValue ∧
      ∀ v ∈ vValue, ageGCD nTargetValue vValue ∣ v.nValue := by
  obtain ⟨first, vs, rfl⟩ := List.exists_cons_of_ne_nil hne
  obtain ⟨hfold, hfirst, hvs⟩ := foldl_gcd_spec vs (fun v hv => hall v (List.mem_cons_of_mem _ hv))
    (hall first List.mem_cons_self)
  obtain ⟨hgcd, hdvd, hdvd'⟩ := gcd_spec htarget hfold
  refine ⟨hgcd, hdvd, fun v hv => ?_⟩
  rcases List.mem_cons.1 hv with rfl | hv
  · exact hdvd'.trans hfirst
  · exact hdvd'.trans (hvs v hv)

theorem ageGCD_pos (htarget : 0 ≤ nTargetValue) (htotal : 0 < agesValue vValue) :
    0 < ageGCD nTargetValue vValue := by
  obtain ⟨hnonneg, -, hvs⟩ := ageGCD_spec hall hne htarget
  refine lt_of_le_of_ne hnonneg fun hzero => ?_
  have hvalues : agesValue vValue = 0 := by
    refine List.sum_eq_zero fun n hn => ?_
    obtain ⟨v, hv, rfl⟩ := List.mem_map.1 hn
    have hdvd := hvs v hv
    rw [← hzero] at hdvd
    exact zero_dvd_iff.1 hdvd
  omega

theorem ageTotal_eq (hfits : agesValue vValue < 2 ^ 63) : ageTotal vValue = agesValue vValue := by
  obtain ⟨first, vs, rfl⟩ := List.exists_cons_of_ne_nil hne
  rw [agesValue_cons] at hfits ⊢
  have hfirst := hall first List.mem_cons_self
  have hrest := agesValue_nonneg fun v hv => hall v (List.mem_cons_of_mem first hv)
  have hfold := Int64.foldl_wrap (vs.map AgeCoin.nValue) first.nValue
  rw [List.foldl_map, Int64.wrap_eq_self ⟨by omega, by omega⟩] at hfold
  have htotal : ageTotal (first :: vs) =
      vs.foldl (fun nTotalValue v => Int64.wrap (nTotalValue + v.nValue)) first.nValue := rfl
  rw [htotal, hfold, ← agesValue]
  exact Int64.wrap_eq_self ⟨by omega, by omega⟩

theorem ageDenom_pos (htarget : 0 ≤ nTargetValue) (hmore : nTargetValue < agesValue vValue) :
    0 < ageDenom nTargetValue vValue := by
  have hpos := ageGCD_pos hall hne htarget (htarget.trans_lt hmore)
  rw [ageDenom]
  split
  · next happrox => exact hpos.trans happrox
  · exact hpos

/-- **The denominator is not too small**: what can be left out is at most fifty times as much. -/
theorem ageDenom_spec (htarget : 0 ≤ nTargetValue) (hmore : nTargetValue < agesValue vValue)
    (hfits : vValue.length * agesValue vValue < 2 ^ 63) :
    agesValue vValue - nTargetValue < 50 * ageDenom nTargetValue vValue := by
  have hpos := ageGCD_pos hall hne htarget (htarget.trans_lt hmore)
  have hlength : (1 : Int) ≤ vValue.length := by
    have := List.length_pos_of_ne_nil hne
    omega
  have htotal : agesValue vValue ≤ vValue.length * agesValue vValue :=
    le_mul_of_one_le_left (htarget.trans hmore.le) hlength
  have hexcess : agesValue vValue - nTargetValue ≤
      vValue.length * (agesValue vValue - nTargetValue) :=
    le_mul_of_one_le_left (by omega) hlength
  have hproduct : vValue.length * (agesValue vValue - nTargetValue) ≤
      vValue.length * agesValue vValue :=
    mul_le_mul_of_nonneg_left (by omega) (by omega)
  have hwrap : Int64.wrap (vValue.length * Int64.wrap (ageTotal vValue - nTargetValue)) =
      vValue.length * (agesValue vValue - nTargetValue) := by
    have hinner : Int64.wrap (agesValue vValue - nTargetValue) = agesValue vValue - nTargetValue :=
      Int64.wrap_eq_self ⟨by omega, by omega⟩
    rw [ageTotal_eq hall hne (by omega), hinner]
    exact Int64.wrap_eq_self ⟨by omega, by omega⟩
  rw [ageDenom, hwrap, Int.tdiv_eq_ediv_of_nonneg (by omega)]
  split
  · omega
  · omega

end Denominator

/-! ## Bundles -/

section Extended

variable {items items' : AgeItems}
  (hcoins : items'.vValue.map AgeCoin.coin = items.vValue.map AgeCoin.coin)
include hcoins

theorem coinsBetween_congr (first last : Nat) :
    items'.coinsBetween first last = items.coinsBetween first last := by
  have hlength := congrArg List.length hcoins
  rw [List.length_map, List.length_map] at hlength
  rw [AgeItems.coinsBetween, AgeItems.coinsBetween, hlength]
  split
  · rw [List.map_take, List.map_drop, hcoins, ← List.map_drop, ← List.map_take]
  · rfl

/-- A place stands for the same coins when bundles are added and amounts are changed. -/
theorem coinsAt_of_append {more : List Nat}
    (hbundles : items'.vZeroValueBundles = items.vZeroValueBundles ++ more)
    (hbegin : items'.nBeginBundles = items.nBeginBundles) {k : Nat} {coins : List WalletCoin}
    (h : items.coinsAt k = some coins) : items'.coinsAt k = some coins := by
  have hget {i it : Nat} (hit : items.vZeroValueBundles[i]? = some it) :
      items'.vZeroValueBundles[i]? = some it := by
    rw [hbundles, List.getElem?_append_left (List.getElem?_eq_some_iff.1 hit).1]
    exact hit
  rw [AgeItems.coinsAt] at h ⊢
  rw [hbegin]
  split at h
  · next hle =>
    rw [if_pos hle]
    obtain ⟨first, hfirst, h⟩ := Option.bind_eq_some_iff.1 h
    obtain ⟨last, hlast, h⟩ := Option.bind_eq_some_iff.1 h
    rw [hget hfirst, hget hlast]
    exact (coinsBetween_congr hcoins first last).trans h
  · next hlt =>
    rw [if_neg hlt]
    obtain ⟨v, hv, h⟩ := Option.bind_eq_some_iff.1 h
    have hcoin := congrArg (fun l => l[k]?) hcoins
    rw [List.getElem?_map, List.getElem?_map, hv] at hcoin
    obtain ⟨v', hv', heq⟩ := Option.map_eq_some_iff.1 hcoin
    rw [hv']
    exact (congrArg (fun coin => some [coin]) heq).trans h

end Extended

/-- Places that stand for a coin each. -/
def singlePlaces (coins : List AgeCoin) : List AgePlace := coins.map fun v => (v, [v])

@[simp] theorem placesCoins_singlePlaces (coins : List AgeCoin) :
    placesCoins (singlePlaces coins) = coins := by
  induction coins with
  | nil => rfl
  | cons v coins ih => exact congrArg (v :: ·) ih

/-- Coins that are in no bundle. -/
theorem AgeItems.Holds.singles {items : AgeItems} {coins after rest : List AgeCoin}
    (hvalues : items.vValue = coins ++ after) (hbegin : items.nBeginBundles = coins.length)
    (htotal : items.nTotalCoinValues = coins.length)
    (hrest : items.vZeroValueBundles.getLast? = none ∧ rest = [] ∨
      ∃ it, items.vZeroValueBundles.getLast? = some it ∧ items.vValue.drop it = rest) :
    items.Holds (singlePlaces coins) rest := by
  have hplace {k : Nat} {e : AgePlace} (he : (singlePlaces coins)[k]? = some e) :
      k < coins.length ∧ items.vValue[k]? = some e.1 ∧ e.2 = [e.1] := by
    rw [singlePlaces, List.getElem?_map] at he
    obtain ⟨v, hv, rfl⟩ := Option.map_eq_some_iff.1 he
    have hlt := (List.getElem?_eq_some_iff.1 hv).1
    refine ⟨hlt, ?_, rfl⟩
    rw [hvalues, List.getElem?_append_left hlt]
    exact hv
  refine ⟨?_, fun k e he => (hplace he).2.1, fun k e he => ?_, hrest, fun e he => ?_⟩
  · rw [htotal, singlePlaces, List.length_map]
  · obtain ⟨hlt, hv, hcoins⟩ := hplace he
    rw [AgeItems.coinsAt, hbegin, if_neg (not_le.2 hlt), hv, hcoins]
    rfl
  · obtain ⟨v, -, rfl⟩ := List.mem_map.1 he
    exact (add_zero _).symm

/-- **What holds while small coins are put into bundles**: the places are the large coins and the
bundles so far, after which the coins of the next bundle come. -/
structure Bundling.Sound (denom : Int) (large small : List AgeCoin) (k : Nat) (st : Bundling)
    (places : List AgePlace) (pending : List AgeCoin) : Prop where
  holds : st.items.Holds places (pending ++ small.drop k)
  nBeginBundles : st.items.nBeginBundles = large.length
  length : large.length + st.items.vZeroValueBundles.length = st.items.nTotalCoinValues + 1
  last : ∃ it, st.items.vZeroValueBundles.getLast? = some it ∧ st.items.nTotalCoinValues ≤ it ∧
    it + pending.length = large.length + k
  coins : placesCoins places ++ pending = large ++ small.take k
  nValue : st.nValue = agesValue pending
  small : agesValue pending < denom
  large : ∀ e : AgePlace, e ∈ places → denom ≤ e.1.nValue
  nBeginCoinValues : st.items.nBeginCoinValues = 0

/-- **A bundle is closed**: it gets the next place, and the coins after it are left. -/
theorem AgeItems.Holds.close {items : AgeItems} {places : List AgePlace}
    {rest pending after : List AgeCoin} (h : items.Holds places rest) {v place : AgeCoin}
    {it itZeroValue nLarge : Nat} {nCost : Int} (hlt : items.nTotalCoinValues < items.vValue.length)
    (hplace : items.vValue[items.nTotalCoinValues]? = some place)
    (hrest : items.vValue.drop it = pending ++ v :: after)
    (hlast : items.vZeroValueBundles.getLast? = some it) (htotal : items.nTotalCoinValues ≤ it)
    (hit : it + pending.length = itZeroValue) (hbegin : items.nBeginBundles = nLarge)
    (hlength : nLarge + items.vZeroValueBundles.length = items.nTotalCoinValues + 1)
    {items' : AgeItems} (hitems' : items' = {
      items with
      vZeroValueBundles := items.vZeroValueBundles ++ [itZeroValue + 1]
      vValue := items.vValue.set items.nTotalCoinValues
        { place with nValue := agesValue (pending ++ [v]), nCost := nCost }
      nTotalCoinValues := items.nTotalCoinValues + 1 }) :
    items'.Holds (places ++ [({ place with nValue := agesValue (pending ++ [v]), nCost := nCost },
      pending ++ [v])]) after := by
  have hbundles : items'.vZeroValueBundles = items.vZeroValueBundles ++ [itZeroValue + 1] := by
    rw [hitems']
  have hvalues : items'.vValue = items.vValue.set items.nTotalCoinValues
      { place with nValue := agesValue (pending ++ [v]), nCost := nCost } := by rw [hitems']
  have hbegin' : items'.nBeginBundles = items.nBeginBundles := by rw [hitems']
  have hcoins : items'.vValue.map AgeCoin.coin = items.vValue.map AgeCoin.coin := by
    refine List.ext_getElem? fun i => ?_
    rw [List.getElem?_map, List.getElem?_map, hvalues, List.getElem?_set]
    split
    · next heq =>
      rw [← heq, hplace]
      rfl
    · rfl
  have hlengthPlaces : places.length = items.nTotalCoinValues := h.length.symm
  have hend : itZeroValue + 1 ≤ items.vValue.length := by
    have hcount := congrArg List.length hrest
    rw [List.length_drop, List.length_append, List.length_cons] at hcount
    omega
  -- the coins of the new place are those from the end of the last bundle on
  have hnew : items'.coinsAt items.nTotalCoinValues = some ((pending ++ [v]).map AgeCoin.coin) := by
    have hindex : items.nTotalCoinValues - nLarge = items.vZeroValueBundles.length - 1 := by omega
    have hpos : 0 < items.vZeroValueBundles.length :=
      List.length_pos_of_ne_nil fun hnil => by
        rw [hnil] at hlast
        cases hlast
    have hfirst : items'.vZeroValueBundles[items.nTotalCoinValues - nLarge]? = some it := by
      rw [hbundles, List.getElem?_append_left (by omega), hindex, ← List.getLast?_eq_getElem?]
      exact hlast
    have hsecond : items'.vZeroValueBundles[items.nTotalCoinValues - nLarge + 1]? =
        some (itZeroValue + 1) := by
      have hnext : items.nTotalCoinValues - nLarge + 1 = items.vZeroValueBundles.length := by omega
      rw [hbundles, hnext, List.getElem?_concat_length]
    have htake : (items.vValue.drop it).take (itZeroValue + 1 - it) = pending ++ [v] := by
      have hcount : itZeroValue + 1 - it = (pending ++ [v]).length := by
        rw [List.length_append, List.length_singleton]
        omega
      rw [hrest, hcount, List.append_cons pending v after, List.take_left]
    rw [AgeItems.coinsAt, hbegin', hbegin, if_pos (by omega), hfirst, hsecond]
    dsimp only [Option.bind_eq_bind, Option.bind_some]
    rw [coinsBetween_congr hcoins, AgeItems.coinsBetween, if_pos ⟨by omega, hend⟩, htake]
  refine ⟨?_, ?_, ?_, Or.inr ⟨itZeroValue + 1, ?_, ?_⟩, ?_⟩
  · rw [hitems', List.length_append, hlengthPlaces, List.length_singleton]
  · intro k e he
    rw [hvalues]
    rcases Nat.lt_or_ge k places.length with hk | hk
    · rw [List.getElem?_append_left hk] at he
      rw [List.getElem?_set_ne (by omega)]
      exact h.value k e he
    · rw [List.getElem?_append_right hk, List.getElem?_singleton] at he
      split at he
      · next hzero =>
        have hk' : k = items.nTotalCoinValues := by omega
        rw [hk', List.getElem?_set_self hlt, ← Option.some_inj.1 he]
      · cases he
  · intro k e he
    rcases Nat.lt_or_ge k places.length with hk | hk
    · rw [List.getElem?_append_left hk] at he
      exact coinsAt_of_append hcoins hbundles hbegin' (h.coinsAt k e he)
    · rw [List.getElem?_append_right hk, List.getElem?_singleton] at he
      split at he
      · next hzero =>
        have hk' : k = items.nTotalCoinValues := by omega
        rw [hk', hnew, ← Option.some_inj.1 he]
      · cases he
  · rw [hbundles, List.getLast?_concat]
  · have hcount : itZeroValue + 1 = it + (pending ++ [v]).length := by
      rw [List.length_append, List.length_singleton]
      omega
    rw [hvalues, List.drop_set_of_lt (by omega), hcount, ← List.drop_drop, hrest,
      List.append_cons pending v after, List.drop_left]
  · intro e he
    rcases List.mem_append.1 he with he | he
    · exact h.amount e he
    · rw [List.mem_singleton.1 he]

section Bundles

variable {denom : Int} {large small : List AgeCoin} (hall : ∀ v ∈ large ++ small, 0 ≤ v.nValue)
  (hfits : agesValue (large ++ small) < 2 ^ 63)
include hall hfits

/-- The next small coin is put into a bundle. -/
theorem Bundling.Sound.put {k : Nat} {st : Bundling} {places : List AgePlace} {pending : List AgeCoin}
    (h : st.Sound denom large small k places pending) {v : AgeCoin} (hv : small[k]? = some v)
    (hdenom : 0 < denom) :
    ∃ st' places' pending', Bundling.put denom st (large.length + k) = some st' ∧
      st'.Sound denom large small (k + 1) places' pending' := by
  obtain ⟨it, hlast, htotal, hit⟩ := h.last
  have hdropK : small.drop k = v :: small.drop (k + 1) := by
    obtain ⟨hlt, heq⟩ := List.getElem?_eq_some_iff.1 hv
    rw [List.drop_eq_getElem_cons hlt, heq]
  have hrest : st.items.vValue.drop it = pending ++ v :: small.drop (k + 1) := by
    rcases h.holds.rest with ⟨hnone, -⟩ | ⟨it', hsome, hdrop⟩
    · rw [hnone] at hlast
      cases hlast
    · rw [hsome] at hlast
      cases hlast
      rw [hdrop, hdropK]
  have hread : st.items.vValue[large.length + k]? = some v := by
    have hget := congrArg (fun l => l[pending.length]?) hrest
    rw [List.getElem?_drop, hit, List.getElem?_append_right le_rfl, Nat.sub_self] at hget
    exact hget
  have hcoins : placesCoins places ++ (pending ++ [v]) = large ++ small.take (k + 1) := by
    rw [← List.append_assoc, h.coins, List.take_add_one, hv, Option.toList_some, List.append_assoc]
  have hvalue : Int64.wrap (st.nValue + v.nValue) = agesValue (pending ++ [v]) := by
    have hsub : (pending ++ [v]).Subperm (large ++ small) := by
      refine ((List.sublist_append_right (placesCoins places) _).trans ?_).subperm
      rw [hcoins]
      exact (List.take_sublist _ _).append_left large
    rw [h.nValue, agesValue_append, agesValue_cons, agesValue_nil, add_zero]
    have hrange := (agesValue_inRange hall hfits hsub).2
    rw [agesValue_append, agesValue_cons, agesValue_nil, add_zero] at hrange
    exact Int64.wrap_eq_self hrange
  rw [Bundling.put, hread]
  dsimp only [Option.bind_eq_bind, Option.bind_some]
  rw [hvalue]
  split
  · next hclosed =>
    -- the bundle is closed: it stands at a place that was read before
    have hreadLt := (List.getElem?_eq_some_iff.1 hread).1
    have hlt : st.items.nTotalCoinValues < st.items.vValue.length := by omega
    have hplace := List.getElem?_eq_getElem hlt
    generalize st.items.vValue[st.items.nTotalCoinValues] = place at hplace
    rw [hplace]
    refine ⟨_, places ++ [(_, pending ++ [v])], [], rfl,
      h.holds.close hlt hplace hrest hlast htotal ?_ h.nBeginBundles h.length rfl, h.nBeginBundles, ?_,
      ⟨large.length + k + 1, List.getLast?_concat, ?_, ?_⟩, ?_, rfl, hdenom, ?_, h.nBeginCoinValues⟩
    · omega
    · dsimp only
      rw [List.length_append, List.length_singleton, ← add_assoc, h.length]
    · dsimp only
      omega
    · rfl
    · rw [placesCoins_append, placesCoins_cons, placesCoins_nil, List.append_nil, List.append_nil]
      exact hcoins
    · intro e he
      rcases List.mem_append.1 he with he | he
      · exact h.large e he
      · rw [List.mem_singleton.1 he]
        exact hclosed
  · next hopen =>
    refine ⟨_, places, pending ++ [v], rfl, ?_, h.nBeginBundles, h.length, ⟨it, hlast, htotal, ?_⟩,
      hcoins, rfl, not_le.1 hopen, h.large, h.nBeginCoinValues⟩
    · have hsame : (pending ++ [v]) ++ small.drop (k + 1) = pending ++ small.drop k := by
        rw [hdropK, List.append_assoc, List.singleton_append]
      rw [hsame]
      exact h.holds
    · rw [List.length_append, List.length_singleton]
      omega

/-- The loop over the first small coins. -/
theorem exists_sound_of_foldlM (hdenom : 0 < denom) {start : Bundling} {places : List AgePlace}
    (hstart : start.Sound denom large small 0 places []) :
    ∀ k ≤ small.length, ∃ st places pending,
      (List.range' large.length k).foldlM (Bundling.put denom) start = some st ∧
        st.Sound denom large small k places pending := by
  intro k
  induction k with
  | zero => exact fun _ => ⟨start, places, [], rfl, hstart⟩
  | succ k ih =>
    intro hk
    obtain ⟨st, places', pending, heq, hst⟩ := ih (Nat.le_of_succ_le hk)
    obtain ⟨st', places'', pending', hput, hst'⟩ :=
      hst.put hall hfits (List.getElem?_eq_getElem (Nat.lt_of_succ_le hk)) hdenom
    refine ⟨st', places'', pending', ?_, hst'⟩
    rw [List.range'_concat, List.foldlM_append, heq, one_mul]
    exact congrArg (fun t => t >>= pure) hput

end Bundles

/-- The places of the vector are its first coins. -/
theorem AgeItems.Holds.take {items : AgeItems} {places : List AgePlace} {rest : List AgeCoin}
    (h : items.Holds places rest) :
    items.vValue.take items.nTotalCoinValues = places.map Prod.fst := by
  refine List.ext_getElem? fun k => ?_
  rw [List.getElem?_take, List.getElem?_map, h.length]
  split
  · next hk =>
    rw [List.getElem?_eq_getElem hk]
    exact h.value k _ (List.getElem?_eq_getElem hk)
  · next hk =>
    rw [List.getElem?_eq_none (not_lt.1 hk)]
    rfl

theorem weights_lt {denom : Int} (hdenom : 0 < denom) {places : List AgePlace}
    (hvalue : ∀ e ∈ places, 0 ≤ e.1.nValue ∧ e.1.nValue < 2 ^ 63 ∧ e.1.nValue = agesValue e.2)
    (hfits : placesValue places < 2 ^ 63) : ((agePrices denom).weights places : Int) < 2 ^ 63 := by
  have hworth := weights_le_placesValue hdenom hvalue
  have hweights : ((agePrices denom).weights places : Int) ≤
      denom * (agePrices denom).weights places :=
    le_mul_of_one_le_left (Int.natCast_nonneg _) (by omega)
  omega

/-- The amounts of places in units of the denominator are their weights. -/
theorem foldl_weights {denom : Int} (hdenom : 0 < denom) {places : List AgePlace}
    (hvalue : ∀ e ∈ places, 0 ≤ e.1.nValue ∧ e.1.nValue < 2 ^ 63 ∧ e.1.nValue = agesValue e.2)
    (hfits : placesValue places < 2 ^ 63) :
    (places.map Prod.fst).foldl (fun nTotalValue v => Int64.wrap (nTotalValue + v.nValue.tdiv denom))
      0 = (agePrices denom).weights places := by
  have hsum : (((places.map Prod.fst).map fun v => v.nValue.tdiv denom).sum : Int) =
      (agePrices denom).weights places := by
    clear hfits
    induction places with
    | nil => rfl
    | cons e places ih =>
      obtain ⟨hnonneg, hlt, -⟩ := hvalue e List.mem_cons_self
      rw [List.map_cons, List.map_cons, List.sum_cons, Discarding.weights_cons, Nat.cast_add,
        weight_agePrices hdenom hnonneg hlt, Int.tdiv_eq_ediv_of_nonneg hnonneg,
        ih fun e' he' => hvalue e' (List.mem_cons_of_mem _ he')]
  have hweights := weights_lt hdenom hvalue hfits
  have hfold := Int64.foldl_wrap ((places.map Prod.fst).map fun v => v.nValue.tdiv denom) 0
  rw [List.foldl_map, Int64.wrap_zero, zero_add, hsum] at hfold
  rw [hfold]
  exact Int64.wrap_eq_self ⟨by omega, by omega⟩

/-- What the places of a vector are worth. -/
theorem AgeItems.Holds.values {items : AgeItems} {places : List AgePlace} {rest all : List AgeCoin}
    (h : items.Holds places rest) (hsub : (placesCoins places).Subperm all)
    (hall : ∀ v ∈ all, 0 ≤ v.nValue) (hfits : agesValue all < 2 ^ 63) :
    ∀ e ∈ places, 0 ≤ e.1.nValue ∧ e.1.nValue < 2 ^ 63 ∧ e.1.nValue = agesValue e.2 := by
  intro e he
  have hamount := h.amount e he
  obtain ⟨hnonneg, hrange⟩ := agesValue_inRange hall hfits ((subperm_placesCoins he).trans hsub)
  exact ⟨hamount ▸ hnonneg, hamount ▸ hrange.2, hamount⟩

/-- **Small coins are put into bundles**: every place is worth the denominator, and what is left is
not. -/
theorem bundleCoins_spec {denom : Int} (hdenom : 0 < denom) {vValue : List AgeCoin}
    (hall : ∀ v ∈ vValue, 0 ≤ v.nValue) (hfits : agesValue vValue < 2 ^ 63) :
    ∃ items places rest, bundleCoins denom vValue = some items ∧ items.Holds places rest ∧
      (placesCoins places ++ rest).Perm vValue ∧ agesValue rest < denom ∧
      items.nBeginCoinValues = 0 ∧ items.nTotalValue = (agePrices denom).weights places ∧
      ∀ e ∈ places, denom ≤ e.1.nValue := by
  have hperm := List.filter_append_perm (fun v : AgeCoin => decide (denom ≤ v.nValue)) vValue
  rw [bundleCoins]
  have hlarge : ∀ v ∈ vValue.filter fun v => decide (denom ≤ v.nValue), denom ≤ v.nValue :=
    fun v hv => of_decide_eq_true (List.mem_filter.1 hv).2
  generalize vValue.filter (fun v => decide (denom ≤ v.nValue)) = large at *
  generalize vValue.filter (fun v => !decide (denom ≤ v.nValue)) = small at *
  have hall' : ∀ v ∈ large ++ small, 0 ≤ v.nValue := fun v hv => hall v (hperm.subset hv)
  have hfits' : agesValue (large ++ small) < 2 ^ 63 := by rwa [agesValue_perm hperm]
  have hstart : Bundling.Sound denom large small 0 ⟨⟨large ++ small, [large.length], large.length,
      large.length, 0, 0⟩, 0, 0⟩ (singlePlaces large) [] := by
    refine ⟨.singles rfl rfl rfl (Or.inr ⟨large.length, rfl, List.drop_left⟩), rfl, rfl,
      ⟨large.length, rfl, le_rfl, rfl⟩, ?_, rfl, hdenom, ?_, rfl⟩
    · rw [placesCoins_singlePlaces, List.take_zero]
    · intro e he
      obtain ⟨v, hv, rfl⟩ := List.mem_map.1 he
      exact hlarge v hv
  obtain ⟨st, places, pending, heq, hst⟩ :=
    exists_sound_of_foldlM hall' hfits' hdenom hstart _ le_rfl
  have hcoins := hst.coins
  rw [List.take_length] at hcoins
  have hholds := hst.holds
  rw [List.drop_length, List.append_nil] at hholds
  dsimp only [Option.bind_eq_bind, Option.bind_some]
  rw [heq]
  have hsub : (placesCoins places).Subperm (large ++ small) := by
    rw [← hcoins]
    exact (List.sublist_append_left _ pending).subperm
  have hvalues := hholds.values hsub hall' hfits'
  have hworth : placesValue places < 2 ^ 63 := (agesValue_le_of_subperm hsub hall').trans_lt hfits'
  refine ⟨_, places, pending, rfl, ⟨hholds.length, hholds.value, hholds.coinsAt, hholds.rest,
    hholds.amount⟩, hcoins ▸ hperm, hst.small, hst.nBeginCoinValues, ?_, hst.large⟩
  dsimp only
  rw [hholds.take]
  exact foldl_weights hdenom hvalues hworth

/-! ## The first places -/

/-- **The first places are selected** until no more are, or the approximation does not lose too much
any more. -/
theorem prepick_spec {nTargetValue denom : Int} (hdenom : 0 < denom) {places : List AgePlace}
    {rest all : List AgeCoin} (hsub : (placesCoins places).Subperm all)
    (hall : ∀ v ∈ all, 0 ≤ v.nValue) (hfits : agesValue all < 2 ^ 63) (left : Nat) :
    ∀ {items : AgeItems} {r : CoinSelection}, items.Holds places rest →
      items.nBeginCoinValues + left = places.length →
      items.nTotalValue = (agePrices denom).weights (places.drop items.nBeginCoinValues) →
      r.Takes (placesCoins (places.take items.nBeginCoinValues)) →
      ∃ items' r', prepick nTargetValue denom left items r = some (items', r') ∧
        items'.Holds places rest ∧
        items'.nTotalValue = (agePrices denom).weights (places.drop items'.nBeginCoinValues) ∧
        r'.Takes (placesCoins (places.take items'.nBeginCoinValues)) ∧
        (items'.nBeginCoinValues = places.length ∨
          (Int64.wrap (nTargetValue - r'.nValueRet)).tdiv denom < items'.nTotalValue) := by
  induction left with
  | zero =>
    intro items r h hbegin htotal hr
    exact ⟨items, r, rfl, h, htotal, hr, Or.inl hbegin⟩
  | succ left ih =>
    intro items r h hbegin htotal hr
    rw [prepick]
    split
    · have hlt : items.nBeginCoinValues < places.length := by omega
      have he := List.getElem?_eq_getElem hlt
      have hdrop := List.drop_eq_getElem_cons hlt
      generalize places[items.nBeginCoinValues] = e at he hdrop
      have htake : places.take (items.nBeginCoinValues + 1) =
          places.take items.nBeginCoinValues ++ [e] := by
        rw [List.take_add_one, he, Option.toList_some]
      have htaken : placesCoins (places.take items.nBeginCoinValues) ++ e.2 =
          placesCoins (places.take (items.nBeginCoinValues + 1)) := by
        rw [htake, placesCoins_append, placesCoins_cons, placesCoins_nil, List.append_nil]
      have htakenSub : (placesCoins (places.take (items.nBeginCoinValues + 1))).Subperm all :=
        (placesCoins_subperm (List.take_sublist _ _).subperm).trans hsub
      obtain ⟨r', hpick, hr'⟩ := h.pick he hr (htaken ▸ (agesValue_inRange hall hfits htakenSub).2)
      rw [htaken] at hr'
      obtain ⟨hnonneg, hrange, -⟩ := h.values hsub hall hfits e (List.mem_of_getElem? he)
      have hweights : items.nTotalValue = e.1.nValue / denom +
          (agePrices denom).weights (places.drop (items.nBeginCoinValues + 1)) := by
        rw [htotal, hdrop, Discarding.weights_cons, Nat.cast_add, weight_agePrices hdenom hnonneg hrange]
      have hlater := (List.drop_sublist (items.nBeginCoinValues + 1) places).subperm
      have hrest := @weights_lt denom hdenom (places.drop (items.nBeginCoinValues + 1))
        (fun e he => h.values hsub hall hfits e (hlater.subset he))
        ((agesValue_le_of_subperm ((placesCoins_subperm hlater).trans hsub) hall).trans_lt hfits)
      have hleft : Int64.wrap (items.nTotalValue - e.1.nValue / denom) =
          (agePrices denom).weights (places.drop (items.nBeginCoinValues + 1)) := by
        rw [hweights, add_sub_cancel_left]
        exact Int64.wrap_eq_self ⟨by omega, hrest⟩
      rw [h.value _ e he]
      dsimp only [Option.bind_eq_bind, Option.bind_some]
      rw [hpick]
      dsimp only [Option.bind_some]
      rw [Int.tdiv_eq_ediv_of_nonneg hnonneg, hleft]
      exact ih ⟨h.length, h.value, h.coinsAt, h.rest, h.amount⟩ (by dsimp only; omega) rfl hr'
    · next hdone => exact ⟨items, r, rfl, h, htotal, hr, Or.inr (not_le.1 hdone)⟩

end MotaCoin
