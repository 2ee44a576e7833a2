import MotaCoin.CoinAge
import MotaCoin.Lib.Knapsack

/-!
# The tables of the coin ages

What the dynamic program of `SelectCoinsMinConfByCoinAge` does with the places of its vector: the rows
of `M` are the cells of a knapsack that discards, and the way back through `B` selects what is kept.

## Main definitions

* `AgePlace`, `AgeItems.Holds`: the places of the vector, with the coins they stand for
* `agePrices`: the places as elements of a knapsack
* `CoinSelection.Takes`: a selection is of some coins

## Main results

* `fillTables_spec`: the tables are filled in range
* `traceBack_spec`: what the way back selects
* `dynamicProgram_spec`: the dynamic program covers the target
-/

namespace MotaCoin

/-! ## Places of the vector -/

/-- A place of the vector: what stands there, and the coins it is for. -/
abbrev AgePlace := AgeCoin × List AgeCoin

/-- What coins are worth together. -/
def agesValue (coins : List AgeCoin) : Int := (coins.map AgeCoin.nValue).sum

@[simp] theorem agesValue_nil : agesValue [] = 0 := rfl

@[simp] theorem agesValue_cons (coin : AgeCoin) (coins : List AgeCoin) :
    agesValue (coin :: coins) = coin.nValue + agesValue coins := by
  rw [agesValue, List.map_cons, List.sum_cons, agesValue]

@[simp] theorem agesValue_append (coins coins' : List AgeCoin) :
    agesValue (coins ++ coins') = agesValue coins + agesValue coins' := by
  rw [agesValue, List.map_append, List.sum_append, agesValue, agesValue]

theorem agesValue_perm {coins coins' : List AgeCoin} (h : coins.Perm coins') :
    agesValue coins = agesValue coins' := (h.map AgeCoin.nValue).sum_eq

theorem agesValue_nonneg {coins : List AgeCoin} (h : ∀ coin ∈ coins, 0 ≤ coin.nValue) :
    0 ≤ agesValue coins := by
  refine List.sum_nonneg fun n hn => ?_
  obtain ⟨coin, hcoin, rfl⟩ := List.mem_map.1 hn
  exact h coin hcoin

theorem agesValue_le_of_subperm {coins all : List AgeCoin} (hsub : coins.Subperm all)
    (h : ∀ coin ∈ all, 0 ≤ coin.nValue) : agesValue coins ≤ agesValue all := by
  obtain ⟨perm, hperm, hsublist⟩ := hsub
  rw [← agesValue_perm hperm]
  refine (hsublist.map AgeCoin.nValue).sum_le_sum fun n hn => ?_
  obtain ⟨coin, hcoin, rfl⟩ := List.mem_map.1 hn
  exact h coin hcoin

/-- The coins that places stand for. -/
def placesCoins (places : List AgePlace) : List AgeCoin := places.flatMap Prod.snd

/-- What places are worth together. -/
def placesValue (places : List AgePlace) : Int := agesValue (placesCoins places)

@[simp] theorem placesCoins_nil : placesCoins [] = [] := rfl

@[simp] theorem placesCoins_cons (e : AgePlace) (places : List AgePlace) :
    placesCoins (e :: places) = e.2 ++ placesCoins places := List.flatMap_cons

@[simp] theorem placesCoins_append (places places' : List AgePlace) :
    placesCoins (places ++ places') = placesCoins places ++ placesCoins places' := List.flatMap_append

theorem placesCoins_subperm {places places' : List AgePlace} (h : places.Subperm places') :
    (placesCoins places).Subperm (placesCoins places') := by
  obtain ⟨perm, hperm, hsublist⟩ := h
  refine (hperm.flatMap_right Prod.snd).symm.subperm.trans ?_
  exact (hsublist.flatMap Prod.snd).subperm

theorem subperm_placesCoins {places : List AgePlace} {e : AgePlace} (he : e ∈ places) :
    e.2.Subperm (placesCoins places) := by
  obtain ⟨before, after, rfl⟩ := List.append_of_mem he
  rw [placesCoins_append, placesCoins_cons]
  exact (List.infix_append' _ _ _).sublist.subperm

/-- **What the vector holds**: at each place what its coins are worth, and after the bundles the coins
that are left. -/
structure AgeItems.Holds (items : AgeItems) (places : List AgePlace) (rest : List AgeCoin) : Prop where
  length : items.nTotalCoinValues = places.length
  value : ∀ (k : Nat) (e : AgePlace), places[k]? = some e → items.vValue[k]? = some e.1
  coinsAt : ∀ (k : Nat) (e : AgePlace), places[k]? = some e → items.coinsAt k = some (e.2.map AgeCoin.coin)
  rest : items.vZeroValueBundles.getLast? = none ∧ rest = [] ∨
    ∃ it, items.vZeroValueBundles.getLast? = some it ∧ items.vValue.drop it = rest
  amount : ∀ e : AgePlace, e ∈ places → e.1.nValue = agesValue e.2

/-- **A selection of some coins**: the set is theirs, and the amount is what they are worth. -/
structure CoinSelection.Takes (r : CoinSelection) (coins : List AgeCoin) : Prop where
  fSelected : r.fSelected = true
  setCoinsRet : r.setCoinsRet = (coins.map AgeCoin.coin).toFinset
  nValueRet : r.nValueRet = agesValue coins

theorem CoinSelection.Takes.nil : CoinSelection.Takes ⟨true, ∅, 0⟩ [] := ⟨rfl, rfl, rfl⟩

theorem foldl_insert_eq {α β : Type*} [DecidableEq β] (f : α → β) (l : List α) (s : Finset β) :
    l.foldl (fun s a => insert (f a) s) s = s ∪ (l.map f).toFinset := by
  induction l generalizing s with
  | nil => exact (Finset.union_empty s).symm
  | cons a l ih =>
    rw [List.foldl_cons, ih, List.map_cons, List.toFinset_cons, Finset.insert_union,
      Finset.union_insert]

/-- Coins are taken as well. -/
theorem CoinSelection.Takes.addAll {r : CoinSelection} {taken coins : List AgeCoin} (h : r.Takes taken)
    (hfits : Int64.InRange (agesValue (taken ++ coins))) :
    (r.addAll (coins.map AgeCoin.coin) (agesValue coins)).Takes (taken ++ coins) where
  fSelected := h.fSelected
  setCoinsRet := by
    have hset := foldl_insert_eq id (coins.map AgeCoin.coin) r.setCoinsRet
    rw [List.map_id, h.setCoinsRet, ← List.toFinset_append, ← List.map_append] at hset
    rw [← hset, ← h.setCoinsRet]
    rfl
  nValueRet := by
    rw [CoinSelection.addAll, h.nValueRet, ← agesValue_append]
    exact Int64.wrap_eq_self hfits

theorem CoinSelection.Takes.add {r : CoinSelection} {taken : List AgeCoin} {v : AgeCoin}
    (h : r.Takes taken) (hfits : Int64.InRange (agesValue (taken ++ [v]))) :
    (r.add (v.nValue, v.coin)).Takes (taken ++ [v]) where
  fSelected := h.fSelected
  setCoinsRet := by
    rw [CoinSelection.add, h.setCoinsRet, List.map_append, List.toFinset_append, Finset.union_comm]
    rfl
  nValueRet := by
    rw [CoinSelection.add, h.nValueRet]
    have hsum : agesValue taken + v.nValue = agesValue (taken ++ [v]) := by simp
    rw [hsum]
    exact Int64.wrap_eq_self hfits

/-- **What a place stands for is selected.** -/
theorem AgeItems.Holds.pick {items : AgeItems} {places : List AgePlace} {rest : List AgeCoin}
    (h : items.Holds places rest) {k : Nat} {e : AgePlace} (he : places[k]? = some e)
    {r : CoinSelection} {taken : List AgeCoin} (hr : r.Takes taken)
    (hfits : Int64.InRange (agesValue (taken ++ e.2))) :
    ∃ r', items.pick k r = some r' ∧ r'.Takes (taken ++ e.2) := by
  refine ⟨r.addAll (e.2.map AgeCoin.coin) e.1.nValue, ?_, ?_⟩
  · rw [AgeItems.pick, h.coinsAt k e he, h.value k e he]
    rfl
  · rw [h.amount e (List.mem_of_getElem? he)]
    exact hr.addAll hfits

/-! ## The tables are filled -/

/-- The places as elements of a knapsack: the weight is in units of the denominator, and sums of coin
ages are stored in 64 bits. -/
def agePrices (denom : Int) : Discarding AgePlace where
  weight e := (e.1.nValue.tdiv denom % 2 ^ 64).toNat
  cost e := (e.1.nCost % 2 ^ 64).toNat
  store n := n % 2 ^ 64

/-- The row of `M` for places, of which the last one is first. -/
def tableRow (denom : Int) (size2 : Nat) (done : List AgePlace) : List Nat :=
  (List.range size2).map ((agePrices denom).best done)

/-- The row of `B` for a place after others. -/
def backRow (denom : Int) (size2 : Nat) (e : AgePlace) (done : List AgePlace) : List Nat :=
  (List.range size2).map ((agePrices denom).left e done)

theorem tableRow_getElem? {denom : Int} {size2 j : Nat} {done : List AgePlace} (hj : j < size2) :
    (tableRow denom size2 done)[j]? = some ((agePrices denom).best done j) := by
  rw [tableRow, List.getElem?_map, List.getElem?_range hj]
  rfl

theorem tableCell_eq {denom : Int} {size2 j : Nat} {done : List AgePlace} (hj : j < size2)
    (e : AgePlace) :
    tableCell (tableRow denom size2 done) ((agePrices denom).weight e) ((agePrices denom).cost e) j =
      some ((agePrices denom).best (e :: done) j, (agePrices denom).left e done j) := by
  rw [tableCell, Discarding.best, Discarding.left]
  by_cases hweight : (agePrices denom).weight e ≤ j
  · rw [if_pos hweight, if_pos hweight, tableRow_getElem? hj,
      tableRow_getElem? (lt_of_le_of_lt (Nat.sub_le _ _) hj)]
    dsimp only [Option.bind_eq_bind, Option.bind_some]
    have hstore : ∀ n, (agePrices denom).store n = n % 2 ^ 64 := fun _ => rfl
    rw [hstore]
    split
    · next hle => rw [max_eq_left hle, if_neg fun h => absurd h.2 (not_lt.2 hle)]
    · next hlt =>
      have hlt := not_le.1 hlt
      rw [max_eq_right hlt.le, if_pos ⟨hweight, hlt⟩]
  · rw [if_neg hweight, if_neg hweight, if_neg fun h => hweight h.1, tableRow_getElem? hj]
    rfl

theorem mapM_eq_some {α β : Type*} {f : α → Option β} {g : α → β} {l : List α}
    (h : ∀ a ∈ l, f a = some (g a)) : l.mapM f = some (l.map g) := by
  induction l with
  | nil => rfl
  | cons a l ih =>
    rw [List.mapM_cons, h a List.mem_cons_self, ih fun b hb => h b (List.mem_cons_of_mem _ hb)]
    rfl

/-- The rows of `M` and `B` up to a number of places. -/
structure AgeTables.Filled (denom : Int) (todo : List AgePlace) (size2 n : Nat) (tables : AgeTables) :
    Prop where
  lengthM : tables.M.length = n + 1
  lengthB : tables.B.length = n + 1
  last : tables.M[n]? = some (tableRow denom size2 (todo.take n).reverse)
  back : ∀ i e, i < n → todo[i]? = some e →
    tables.B[i + 1]? = some (backRow denom size2 e (todo.take i).reverse)

theorem take_reverse_succ {α : Type*} {l : List α} {i : Nat} {a : α} (h : l[i]? = some a) :
    (l.take (i + 1)).reverse = a :: (l.take i).reverse := by
  rw [List.take_add_one, h, Option.toList_some, List.reverse_append, List.reverse_singleton,
    List.singleton_append]

/-- A row is filled after the rows before it. -/
theorem AgeTables.Filled.fillRow {denom : Int} {items : AgeItems} {places : List AgePlace}
    {rest : List AgeCoin} (h : items.Holds places rest) {size2 n : Nat} {tables : AgeTables}
    (hfilled : Filled denom (places.drop items.nBeginCoinValues) size2 n tables) {e : AgePlace}
    (he : (places.drop items.nBeginCoinValues)[n]? = some e) :
    ∃ tables', tables.fillRow denom items size2 (n + 1) = some tables' ∧
      Filled denom (places.drop items.nBeginCoinValues) size2 (n + 1) tables' := by
  have hplace : places[items.nBeginCoinValues + (n + 1) - 1]? = some e := by
    rw [List.getElem?_drop] at he
    exact he
  have hcells := @mapM_eq_some Nat (Nat × Nat)
    (tableCell (tableRow denom size2 ((places.drop items.nBeginCoinValues).take n).reverse)
      ((agePrices denom).weight e) ((agePrices denom).cost e)) _ (List.range size2)
    fun j hj => tableCell_eq (List.mem_range.1 hj) e
  rw [AgeTables.fillRow, h.value _ _ hplace, Nat.add_sub_cancel, hfilled.last]
  refine ⟨_, congrArg (fun cells => cells >>= _) hcells, ?_, ?_, ?_, ?_⟩
  · rw [List.length_append, hfilled.lengthM, List.length_singleton]
  · rw [List.length_append, hfilled.lengthB, List.length_singleton]
  · rw [← hfilled.lengthM, List.getElem?_concat_length, hfilled.lengthM, take_reverse_succ he,
      List.map_map]
    rfl
  · intro i e' hi he'
    rcases Nat.lt_succ_iff_lt_or_eq.1 hi with hlt | rfl
    · rw [List.getElem?_append_left (by rw [hfilled.lengthB]; omega)]
      exact hfilled.back i e' hlt he'
    · rw [he] at he'
      cases he'
      rw [← hfilled.lengthB, List.getElem?_concat_length, List.map_map]
      rfl

/-- **The tables are filled in range**, row by row. -/
theorem fillTables_spec {denom : Int} {items : AgeItems} {places : List AgePlace}
    {rest : List AgeCoin} (h : items.Holds places rest) (size2 : Nat) :
    ∀ n ≤ (places.drop items.nBeginCoinValues).length,
      ∃ tables, fillTables denom items (n + 1) size2 = some tables ∧
        tables.Filled denom (places.drop items.nBeginCoinValues) size2 n := by
  intro n
  induction n with
  | zero =>
    intro _
    refine ⟨_, rfl, rfl, rfl, ?_, fun i _ hi => absurd hi (Nat.not_lt_zero i)⟩
    have hzero : (agePrices denom).best [] = fun _ => 0 := rfl
    rw [List.take_zero, List.reverse_nil, tableRow, hzero, List.map_const', List.length_range]
    rfl
  | succ n ih =>
    intro hn
    obtain ⟨tables, heq, hfilled⟩ := ih (Nat.le_of_succ_le hn)
    obtain ⟨tables', hrow, hfilled'⟩ :=
      hfilled.fillRow h (List.getElem?_eq_getElem (Nat.lt_of_succ_le hn))
    refine ⟨tables', ?_, hfilled'⟩
    rw [fillTables, Nat.add_sub_cancel] at heq ⊢
    rw [List.range'_concat, List.foldlM_append, heq, one_mul, Nat.add_comm 1 n]
    exact congrArg (fun t => t >>= pure) hrow

/-! ## The way back -/

section Taken

variable {all : List AgeCoin} (hall : ∀ coin ∈ all, 0 ≤ coin.nValue) (hfits : agesValue all < 2 ^ 63)
include hall hfits

theorem agesValue_inRange {coins : List AgeCoin} (hsub : coins.Subperm all) :
    0 ≤ agesValue coins ∧ Int64.InRange (agesValue coins) := by
  have hle := agesValue_le_of_subperm hsub hall
  have hnonneg := agesValue_nonneg fun coin hcoin => hall coin (hsub.subset hcoin)
  refine ⟨hnonneg, ?_⟩
  rw [Int64.InRange]
  omega

/-- **What the way back selects** from a row on: the places that are kept. -/
theorem traceBack_spec {denom : Int} {items : AgeItems} {places : List AgePlace} {rest : List AgeCoin}
    (h : items.Holds places rest) {size2 n : Nat} {tables : AgeTables}
    (hfilled : tables.Filled denom (places.drop items.nBeginCoinValues) size2 n) (i : Nat) :
    ∀ {j : Nat} {r : CoinSelection} {taken : List AgeCoin}, i ≤ n →
      i ≤ (places.drop items.nBeginCoinValues).length → j < size2 → r.Takes taken →
      (taken ++ placesCoins ((places.drop items.nBeginCoinValues).take i)).Subperm all →
      ∃ r', traceBack items tables.B i j r = some r' ∧
        r'.Takes (taken ++ placesCoins
          ((agePrices denom).kept ((places.drop items.nBeginCoinValues).take i).reverse j)) := by
  induction i with
  | zero =>
    intro j r taken _ _ _ hr _
    refine ⟨r, rfl, ?_⟩
    rw [List.take_zero, List.reverse_nil, Discarding.kept, placesCoins_nil, List.append_nil]
    exact hr
  | succ i ih =>
    intro j r taken hi hlength hj hr hsub
    have he := List.getElem?_eq_getElem (Nat.lt_of_succ_le hlength)
    generalize (places.drop items.nBeginCoinValues)[i] = e at he
    have hplace : places[items.nBeginCoinValues + i]? = some e := by
      rw [List.getElem?_drop] at he
      exact he
    have hcell : (backRow denom size2 e ((places.drop items.nBeginCoinValues).take i).reverse)[j]? =
        some ((agePrices denom).left e ((places.drop items.nBeginCoinValues).take i).reverse j) := by
      rw [backRow, List.getElem?_map, List.getElem?_range hj]
      rfl
    rw [List.take_add_one, he, Option.toList_some, placesCoins_append, placesCoins_cons,
      placesCoins_nil, List.append_nil] at hsub
    have hswap : ((taken ++ e.2) ++ placesCoins ((places.drop items.nBeginCoinValues).take i)).Perm
        (taken ++ (placesCoins ((places.drop items.nBeginCoinValues).take i) ++ e.2)) := by
      rw [List.append_assoc]
      exact List.Perm.append_left taken List.perm_append_comm
    rw [traceBack, hfilled.back i e hi he, take_reverse_succ he, Discarding.kept]
    dsimp only [Option.bind_eq_bind, Option.bind_some]
    rw [if_pos (Int.natCast_nonneg j), Int.toNat_natCast, hcell]
    dsimp only [Option.bind_some]
    by_cases hkept :
        (agePrices denom).left e ((places.drop items.nBeginCoinValues).take i).reverse j = j
    · -- the place is selected
      have hsub' := hswap.subperm.trans hsub
      have htaken : (taken ++ e.2).Subperm all :=
        (List.sublist_append_left _ _).subperm.trans hsub'
      obtain ⟨r', hpick, hr'⟩ := h.pick hplace hr (agesValue_inRange hall hfits htaken).2
      rw [hkept, if_pos rfl, if_pos rfl, hpick, placesCoins_cons, ← List.append_assoc]
      exact ih (Nat.le_of_succ_le hi) (Nat.le_of_succ_le hlength) hj hr' hsub'
    · have hleft := (agePrices denom).left_le e
        ((places.drop items.nBeginCoinValues).take i).reverse j
      have hsub' : (taken ++ placesCoins ((places.drop items.nBeginCoinValues).take i)).Subperm all := by
        refine List.Subperm.trans ?_ hsub
        rw [← List.append_assoc]
        exact (List.sublist_append_left _ _).subperm
      rw [if_neg fun heq => hkept (Int.natCast_inj.1 heq).symm, if_neg hkept]
      exact ih (Nat.le_of_succ_le hi) (Nat.le_of_succ_le hlength) (by omega) hr hsub'

/-- **The small coins that are added**: as many as it takes to reach the target. -/
theorem addUnbundled_spec (nTargetValue : Int) (rest : List AgeCoin) :
    ∀ {r : CoinSelection} {taken : List AgeCoin}, r.Takes taken → (taken ++ rest).Subperm all →
      ∃ more, more.Sublist rest ∧ (addUnbundled nTargetValue rest r).Takes (taken ++ more) ∧
        (nTargetValue ≤ agesValue (taken ++ rest) → nTargetValue ≤ agesValue (taken ++ more)) := by
  induction rest with
  | nil => exact fun {r taken} hr _ => ⟨[], List.Sublist.slnil, by rwa [List.append_nil], fun h => h⟩
  | cons v rest ih =>
    intro r taken hr hsub
    rw [addUnbundled]
    split
    · have happend : taken ++ v :: rest = (taken ++ [v]) ++ rest := by simp
      rw [happend] at hsub ⊢
      have htaken := (List.sublist_append_left (taken ++ [v]) rest).subperm.trans hsub
      obtain ⟨more, hmore, htakes, hreach⟩ :=
        ih (hr.add (agesValue_inRange hall hfits htaken).2) hsub
      refine ⟨v :: more, hmore.cons_cons v, ?_, fun h => ?_⟩
      · rw [List.append_assoc] at htakes
        exact htakes
      · have hmore' := hreach h
        rw [List.append_assoc] at hmore'
        exact hmore'
    · next hreached =>
      refine ⟨[], List.nil_sublist _, by rwa [List.append_nil], fun _ => ?_⟩
      rw [List.append_nil, ← hr.nValueRet]
      exact not_lt.1 hreached

/-! ## What is kept covers the target -/

omit hall hfits in
/-- The weight of a place is its amount in units of the denominator. -/
theorem weight_agePrices {denom : Int} (hdenom : 0 < denom) {e : AgePlace} (hvalue : 0 ≤ e.1.nValue)
    (hlt : e.1.nValue < 2 ^ 63) : ((agePrices denom).weight e : Int) = e.1.nValue / denom := by
  have hnonneg : 0 ≤ e.1.nValue / denom := Int.ediv_nonneg hvalue hdenom.le
  have hle : e.1.nValue / denom ≤ e.1.nValue := Int.ediv_le_self _ hvalue
  have hweight : (agePrices denom).weight e = (e.1.nValue.tdiv denom % 2 ^ 64).toNat := rfl
  rw [hweight, Int.tdiv_eq_ediv_of_nonneg hvalue]
  omega

omit hall hfits in
/-- Places are worth what they weigh, at least. -/
theorem weights_le_placesValue {denom : Int} (hdenom : 0 < denom) {places : List AgePlace}
    (hvalue : ∀ e ∈ places, 0 ≤ e.1.nValue ∧ e.1.nValue < 2 ^ 63 ∧ e.1.nValue = agesValue e.2) :
    denom * ((agePrices denom).weights places : Int) ≤ placesValue places := by
  induction places with
  | nil => exact (mul_zero denom).le
  | cons e places ih =>
    obtain ⟨hnonneg, hlt, hamount⟩ := hvalue e List.mem_cons_self
    have hrest := ih fun e' he' => hvalue e' (List.mem_cons_of_mem _ he')
    have hfirst : denom * (e.1.nValue / denom) ≤ e.1.nValue := Int.mul_ediv_self_le hdenom.ne'
    rw [placesValue] at hrest
    rw [Discarding.weights_cons, Nat.cast_add, weight_agePrices hdenom hnonneg hlt, mul_add,
      placesValue, placesCoins_cons, agesValue_append, ← hamount]
    exact add_le_add hfirst hrest

/-- The capacity of the tables: what can be left out in units of the denominator. -/
def ageCapacity (nTotalValue rest denom : Int) : Nat :=
  (nTotalValue - rest / denom - if rest % denom = 0 then 0 else 1).toNat

omit hall hfits in
/-- What weighs all but the capacity reaches the rest of the target. -/
theorem le_of_ageCapacity {nTotalValue rest denom : Int} (hdenom : 0 < denom)
    (hroom : rest / denom < nTotalValue) {weight : Nat}
    (hweight : nTotalValue ≤ weight + ageCapacity nTotalValue rest denom) : rest ≤ denom * weight := by
  have hdivided := Int.mul_ediv_add_emod rest denom
  have hmod := Int.emod_lt_of_pos rest hdenom
  rw [ageCapacity] at hweight
  split at hweight
  · next hzero =>
    have hle : rest / denom ≤ (weight : Int) := by omega
    have hmul := mul_le_mul_of_nonneg_left hle hdenom.le
    omega
  · have hle : rest / denom + 1 ≤ (weight : Int) := by omega
    have hmul := mul_le_mul_of_nonneg_left hle hdenom.le
    rw [mul_add, mul_one] at hmul
    omega

/-- **The dynamic program covers the target**: with the places that the tables keep, and small coins
where no place is left. -/
theorem dynamicProgram_spec {denom nTargetValue : Int} {items : AgeItems} {places : List AgePlace}
    {rest taken : List AgeCoin} (h : items.Holds places rest) {r : CoinSelection} (hr : r.Takes taken)
    (hsub : (taken ++ placesCoins (places.drop items.nBeginCoinValues) ++ rest).Subperm all)
    (hdenom : 0 < denom)
    (htotal : items.nTotalValue = (agePrices denom).weights (places.drop items.nBeginCoinValues))
    (htarget : agesValue taken ≤ nTargetValue ∧ nTargetValue < 2 ^ 63)
    (hroom : (nTargetValue - agesValue taken) / denom < items.nTotalValue ∨
      places.drop items.nBeginCoinValues = [] ∧ 0 < nTargetValue - agesValue taken ∧
        nTargetValue - agesValue taken < denom)
    (hends : places.length + 1 < 2 ^ 32 ∧
        items.nTotalValue - (nTargetValue - agesValue taken) / denom + 1 < 2 ^ 32 ∨
      (items.dynamicProgram nTargetValue denom r).isSome)
    (hcover : nTargetValue ≤
      agesValue (taken ++ placesCoins (places.drop items.nBeginCoinValues) ++ rest)) :
    ∃ r' more, items.dynamicProgram nTargetValue denom r = some r' ∧ more.Sublist rest ∧
      r'.Takes (taken ++ placesCoins ((agePrices denom).kept
        (places.drop items.nBeginCoinValues).reverse
        (ageCapacity items.nTotalValue (nTargetValue - agesValue taken) denom)) ++ more) ∧
      nTargetValue ≤ r'.nValueRet := by
  have htaken := ((List.sublist_append_left _ _).trans (List.sublist_append_left _ _)).subperm.trans
    hsub
  obtain ⟨htaken₀, htakenRange⟩ := agesValue_inRange hall hfits htaken
  have hrest : Int64.wrap (nTargetValue - r.nValueRet) = nTargetValue - agesValue taken := by
    rw [hr.nValueRet]
    exact Int64.wrap_eq_self ⟨by omega, by omega⟩
  have hrest₀ : 0 ≤ nTargetValue - agesValue taken := by omega
  have hlength : items.nTotalCoinValues - items.nBeginCoinValues =
      (places.drop items.nBeginCoinValues).length := by rw [h.length, List.length_drop]
  have hplacesSub : (taken ++ placesCoins (places.drop items.nBeginCoinValues)).Subperm all :=
    (List.sublist_append_left _ _).subperm.trans hsub
  have hdropValue : ∀ e ∈ places.drop items.nBeginCoinValues,
      0 ≤ e.1.nValue ∧ e.1.nValue < 2 ^ 63 ∧ e.1.nValue = agesValue e.2 := fun e he => by
    have hamount := h.amount e (List.mem_of_mem_drop he)
    have hplace := (subperm_placesCoins he).trans
      ((List.sublist_append_right taken _).subperm.trans hplacesSub)
    obtain ⟨hnonneg, hrange⟩ := agesValue_inRange hall hfits hplace
    exact ⟨hamount ▸ hnonneg, hamount ▸ hrange.2, hamount⟩
  have hweights : items.nTotalValue < 2 ^ 63 := by
    have hworth := weights_le_placesValue hdenom hdropValue
    have hvalue := (agesValue_inRange hall hfits
      ((List.sublist_append_right taken _).subperm.trans hplacesSub)).2.2
    have hle : items.nTotalValue ≤ denom * items.nTotalValue := by
      rw [htotal]
      exact le_mul_of_one_le_left (Int.natCast_nonneg _) hdenom
    rw [placesValue, ← htotal] at hworth
    omega
  have hfinish {r' : CoinSelection} {taken' : List AgeCoin} (hr' : r'.Takes taken')
      (hsub' : (taken' ++ rest).Subperm all) (hcover' : nTargetValue ≤ agesValue (taken' ++ rest)) :
      ∃ r'' more, (items.vZeroValueBundles.getLast? = none ∧ r'' = r' ∨
          ∃ it, items.vZeroValueBundles.getLast? = some it ∧
            r'' = addUnbundled nTargetValue (items.vValue.drop it) r') ∧
        more.Sublist rest ∧ r''.Takes (taken' ++ more) ∧
        nTargetValue ≤ r''.nValueRet := by
    rcases h.rest with ⟨hnone, hempty⟩ | ⟨it, hsome, rfl⟩
    · rw [hempty, List.append_nil] at hcover'
      exact ⟨r', [], .inl ⟨hnone, rfl⟩, List.nil_sublist _, by rwa [List.append_nil],
        hr'.nValueRet ▸ hcover'⟩
    · obtain ⟨more, hmore, htakes, hreach⟩ :=
        addUnbundled_spec hall hfits nTargetValue _ hr' hsub'
      exact ⟨_, more, .inr ⟨it, hsome, rfl⟩, hmore, htakes, htakes.nValueRet ▸ hreach hcover'⟩
  rw [AgeItems.dynamicProgram, hrest, Int.tdiv_eq_ediv_of_nonneg hrest₀,
    Int.tmod_eq_emod_of_nonneg hrest₀, hlength] at hends ⊢
  rcases hroom with hroom | ⟨hempty, hpos, hlt⟩
  · have hquotient : 0 ≤ (nTargetValue - agesValue taken) / denom := Int.ediv_nonneg hrest₀ hdenom.le
    have hsize2 : ((items.nTotalValue - (nTargetValue - agesValue taken) / denom +
        if (nTargetValue - agesValue taken) % denom ≠ 0 then 0 else 1) % 2 ^ 64).toNat =
        ageCapacity items.nTotalValue (nTargetValue - agesValue taken) denom + 1 := by
      rw [ageCapacity]
      split
      · omega
      · omega
    have hsizes : (places.drop items.nBeginCoinValues).length + 1 < 2 ^ 32 ∧
        ageCapacity items.nTotalValue (nTargetValue - agesValue taken) denom + 1 < 2 ^ 32 := by
      rw [hsize2] at hends
      rcases hends with ⟨hrows, hcolumns⟩ | hends
      · have hle : (ageCapacity items.nTotalValue (nTargetValue - agesValue taken) denom : Int) ≤
            items.nTotalValue - (nTargetValue - agesValue taken) / denom := by
          rw [ageCapacity]
          split
          · omega
          · omega
        have hlengthDrop : (places.drop items.nBeginCoinValues).length ≤ places.length := by
          rw [List.length_drop]
          exact Nat.sub_le _ _
        omega
      · -- with larger tables there is no result
        by_contra hlarge
        rw [if_neg hlarge] at hends
        cases hends
    generalize hcap :
      ageCapacity items.nTotalValue (nTargetValue - agesValue taken) denom = capacity at *
    obtain ⟨tables, htables, hfilled⟩ :=
      @fillTables_spec denom items places rest h (capacity + 1) _ le_rfl
    have hall' : (places.drop items.nBeginCoinValues).take
        (places.drop items.nBeginCoinValues).length = places.drop items.nBeginCoinValues :=
      List.take_length
    obtain ⟨r', htrace, hr'⟩ := traceBack_spec hall hfits h hfilled _ le_rfl le_rfl
      (Nat.lt_succ_self capacity) hr (by rwa [hall'])
    rw [hall'] at hr'
    have hprev : ((capacity + 1 : Nat) : Int) - 1 = capacity := by omega
    rw [hsize2, if_pos hsizes, htables, hprev]
    dsimp only [Option.bind_eq_bind, Option.bind_some]
    rw [Nat.add_sub_cancel, htrace]
    dsimp only [Option.bind_some]
    have hkeptSub := ((agePrices denom).kept_sublist (places.drop items.nBeginCoinValues).reverse
      capacity).subperm.trans (List.reverse_perm _).subperm
    have hkeptAll : (taken ++ placesCoins ((agePrices denom).kept
        (places.drop items.nBeginCoinValues).reverse capacity) ++ rest).Subperm all := by
      refine List.Subperm.trans ?_ hsub
      exact (List.subperm_append_right rest).2
        ((List.subperm_append_left taken).2 (placesCoins_subperm hkeptSub))
    have hweight := (agePrices denom).weight_le_kept (places.drop items.nBeginCoinValues).reverse
      capacity
    rw [(agePrices denom).weights_perm (List.reverse_perm _)] at hweight
    -- what is kept weighs all but the capacity, and so it is worth the rest of the target
    have hreach := @le_of_ageCapacity _ _ _ hdenom hroom ((agePrices denom).weights
      ((agePrices denom).kept (places.drop items.nBeginCoinValues).reverse capacity)) (by omega)
    have hworth := @weights_le_placesValue _ hdenom ((agePrices denom).kept
      (places.drop items.nBeginCoinValues).reverse capacity) fun e he => by
        have hmem := hkeptSub.subset he
        have hamount := h.amount e (List.mem_of_mem_drop hmem)
        have hplace := (subperm_placesCoins hmem).trans
          ((List.sublist_append_right taken _).subperm.trans hplacesSub)
        obtain ⟨hnonneg, hrange⟩ := agesValue_inRange hall hfits hplace
        exact ⟨hamount ▸ hnonneg, hamount ▸ hrange.2, hamount⟩
    have hrestCoins := agesValue_nonneg fun coin hcoin =>
      hall coin (hsub.subset (List.mem_append_right _ hcoin))
    obtain ⟨r'', more, hlast, hmore, htakes, hreach⟩ := hfinish hr' hkeptAll (by
      rw [agesValue_append, agesValue_append]
      rw [placesValue] at hworth
      omega)
    refine ⟨r'', more, ?_, hmore, htakes, hreach⟩
    rcases hlast with ⟨hnone, rfl⟩ | ⟨it, hsome, rfl⟩
    · rw [hnone]
    · rw [hsome]
  · have hzero : (nTargetValue - agesValue taken) / denom = 0 := Int.ediv_eq_zero_of_lt hrest₀ hlt
    have hmod : (nTargetValue - agesValue taken) % denom ≠ 0 := by
      rw [Int.emod_eq_of_lt hrest₀ hlt]
      exact hpos.ne'
    rw [hempty] at htotal
    rw [hzero, if_pos hmod, htotal, hempty]
    rw [hempty, placesCoins_nil, List.append_nil] at hsub hcover
    obtain ⟨r', more, hlast, hmore, htakes, hreach⟩ := hfinish hr hsub hcover
    refine ⟨r', more, ?_, hmore, ?_, hreach⟩
    · rcases hlast with ⟨hnone, rfl⟩ | ⟨it, hsome, rfl⟩
      · rw [hnone]
        rfl
      · rw [hsome]
        rfl
    · rw [List.reverse_nil, Discarding.kept, placesCoins_nil, List.append_nil]
      exact htakes

end Taken

end MotaCoin
