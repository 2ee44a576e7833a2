import MotaCoin.CoinSelection

/-!
# Coin selection by coin age

`SelectCoinsMinConfByCoinAge`, which chooses coins that cover a target and are as young as possible.
The coins below the target are put into tables of a dynamic program, whose columns are the amounts that
can be left out in units of a denominator. With an approximate denominator the coins smaller than it
are put together into bundles. An access outside a vector or a table is `none`, and so is a loop that
does not end, because its counter of 32 bits never reaches the size.

## Main definitions

* `coinWeightCost`, `gcd`: the coin age, and the greatest common divisor
* `AgeDraws`: the clock, and how coins of the same age are sorted
* `AgeCoins.collect`: the loop over the coins
* `AgeItems`: the vector of the tables, with its bundles
* `fillTables`, `traceBack`: the tables `M` and `B`, and the way back through them
* `collectByAge`, `selectLowerByCoinAge`, `selectCoinsMinConfByCoinAge`
-/

namespace MotaCoin

/-! ## Coin ages -/

/-- The calls that `gcd` makes, no more than a number of them. -/
def gcdCalls : Nat → Int → Int → Int
  | 0, n, _ => n
  | calls + 1, n, m => if m = 0 then n else gcdCalls calls m (n.tmod m)

/-- `gcd`: the second argument gets smaller with every call. -/
def gcd (n m : Int) : Int := gcdCalls (m.natAbs + 1) n m

/-- `CoinWeightCost`, where the clock is read for a coin. -/
def coinWeightCost (getTime : WalletCoin → Int) (out : WalletCoin) : Nat :=
  let nTimeWeight := min (getTime out - out.1.nTime) nStakeMaxAge
  (Int.tdiv (out.value * nTimeWeight) (24 * 60 * 60)).natAbs % 2 ^ 64

/-- What is not determined: the time that the clock shows for a coin, and how coins of the same age are
sorted. -/
structure AgeDraws where
  getTime : WalletCoin → Int
  sort : List (COutput × Nat) → List (COutput × Nat)
  sort_perm : ∀ mCoins, (sort mCoins).Perm mCoins
  sort_pairwise : ∀ mCoins, (sort mCoins).Pairwise fun t₁ t₂ => t₁.2 ≤ t₂.2

/-- A coin with its amount and its age, which is an `int64_t` here. A bundle has the coin of its place
in the vector. -/
structure AgeCoin where
  nValue : Int
  nCost : Int
  coin : WalletCoin
  deriving DecidableEq

/-! ## The loop over the coins -/

/-- The coins below the target, and the youngest of the larger ones. -/
structure AgeCoins where
  vValue : List AgeCoin
  nTotalLower : Int
  coinLowestLarger : Option AgeCoin

/-- The coin age that a larger coin has to be below. -/
def AgeCoins.lowestCost (st : AgeCoins) : Nat :=
  (((st.coinLowestLarger.map AgeCoin.nCost).getD 9223372036854775807) % 2 ^ 64).toNat

/-- The pass of the loop for a coin. -/
def AgeCoins.collect (limits : CoinLimits) (nTargetValue : Int) (st : AgeCoins)
    (output : COutput × Nat) : AgeCoins :=
  if !limits.eligible output.1 then st
  else
    let coin : AgeCoin := ⟨output.1.txout.nValue, Int64.wrap output.2, output.1.tx, output.1.i⟩
    if coin.nValue < Int64.wrap (nTargetValue + CENT) then {
      st with
      vValue := st.vValue ++ [coin]
      nTotalLower := Int64.wrap (st.nTotalLower + coin.nValue) }
    else if output.2 < st.lowestCost then { st with coinLowestLarger := some coin }
    else st

/-! ## Bundles -/

/-- The vector of the tables: the coins, the places where bundles begin, where bundles stand, where the
vector ends and where the tables begin, and `nTotalValue`. -/
structure AgeItems where
  vValue : List AgeCoin
  vZeroValueBundles : List Nat
  nBeginBundles : Nat
  nTotalCoinValues : Nat
  nBeginCoinValues : Nat
  nTotalValue : Int

/-- `pBundle`, while coins are put into bundles. -/
structure Bundling where
  items : AgeItems
  nValue : Int
  nCost : Int

/-- The pass of the loop over the small coins for one of them: it closes a bundle that reaches the
denominator. -/
def Bundling.put (denom : Int) (st : Bundling) (itZeroValue : Nat) : Option Bundling := do
  let coin ← st.items.vValue[itZeroValue]?
  let nValue := Int64.wrap (st.nValue + coin.nValue)
  let nCost := Int64.wrap (st.nCost + coin.nCost)
  if denom ≤ nValue then
    let place ← st.items.vValue[st.items.nTotalCoinValues]?
    some {
      items := {
        st.items with
        vZeroValueBundles := st.items.vZeroValueBundles ++ [itZeroValue + 1]
        vValue := st.items.vValue.set st.items.nTotalCoinValues
          { place with nValue := nValue, nCost := nCost }
        nTotalCoinValues := st.items.nTotalCoinValues + 1 }
      nValue := 0
      nCost := 0 }
  else some { st with nValue := nValue, nCost := nCost }

/-- The coins that are not small come first, and the small ones are put into bundles. -/
def bundleCoins (denom : Int) (vValue : List AgeCoin) : Option AgeItems := do
  let large := vValue.filter fun v => decide (denom ≤ v.nValue)
  let small := vValue.filter fun v => !decide (denom ≤ v.nValue)
  let items : AgeItems := {
    vValue := large ++ small
    vZeroValueBundles := [large.length]
    nBeginBundles := large.length
    nTotalCoinValues := large.length
    nBeginCoinValues := 0
    nTotalValue := 0 }
  let st ← (List.range' large.length small.length).foldlM (Bundling.put denom) ⟨items, 0, 0⟩
  some {
    st.items with
    nTotalValue := (st.items.vValue.take st.items.nTotalCoinValues).foldl
      (fun nTotalValue v => Int64.wrap (nTotalValue + v.nValue.tdiv denom)) 0 }

/-- The coins of a bundle, from one place of the vector to another. -/
def AgeItems.coinsBetween (items : AgeItems) (first last : Nat) : Option (List WalletCoin) :=
  if first ≤ last ∧ last ≤ items.vValue.length then
    some (((items.vValue.drop first).take (last - first)).map AgeCoin.coin)
  else none

/-- The coins that a place of the vector stands for: those of its bundle, or its own. -/
def AgeItems.coinsAt (items : AgeItems) (nValue : Nat) : Option (List WalletCoin) :=
  if items.nBeginBundles ≤ nValue then do
    let first ← items.vZeroValueBundles[nValue - items.nBeginBundles]?
    let last ← items.vZeroValueBundles[nValue - items.nBeginBundles + 1]?
    items.coinsBetween first last
  else do
    let v ← items.vValue[nValue]?
    some [v.coin]

/-- Coins are inserted into the set, and an amount is added. -/
def CoinSelection.addAll (r : CoinSelection) (coins : List WalletCoin) (nValue : Int) :
    CoinSelection :=
  { r with
    setCoinsRet := coins.foldl (fun setCoinsRet coin => insert coin setCoinsRet) r.setCoinsRet
    nValueRet := Int64.wrap (r.nValueRet + nValue) }

/-- What a place of the vector stands for is selected. -/
def AgeItems.pick (items : AgeItems) (nValue : Nat) (r : CoinSelection) : Option CoinSelection := do
  let coins ← items.coinsAt nValue
  let v ← items.vValue[nValue]?
  some (r.addAll coins v.nValue)

/-- The loop that selects the first coins, for the places that are left, while the approximation loses
too much. -/
def prepick (nTargetValue denom : Int) :
    Nat → AgeItems → CoinSelection → Option (AgeItems × CoinSelection)
  | 0, items, r => some (items, r)
  | left + 1, items, r =>
    if items.nTotalValue ≤ (Int64.wrap (nTargetValue - r.nValueRet)).tdiv denom then do
      let v ← items.vValue[items.nBeginCoinValues]?
      let r ← items.pick items.nBeginCoinValues r
      let items : AgeItems := {
        items with
        nBeginCoinValues := items.nBeginCoinValues + 1
        nTotalValue := Int64.wrap (items.nTotalValue - v.nValue.tdiv denom) }
      prepick nTargetValue denom left items r
    else some (items, r)

/-! ## The tables -/

/-- The cells of `M` and `B` in a column, from the row of `M` before. -/
def tableCell (row : List Nat) (nWeight nValue j : Nat) : Option (Nat × Nat) := do
  if nWeight ≤ j then
    let nStep := ((← row[j - nWeight]?) + nValue) % 2 ^ 64
    let kept ← row[j]?
    if nStep ≤ kept then some (kept, j) else some (nStep, j - nWeight)
  else
    let kept ← row[j]?
    some (kept, j)

/-- The tables, up to a row. The first row of `B` is not filled. -/
structure AgeTables where
  M : List (List Nat)
  B : List (List Nat)

/-- The pass of the loop that fills the tables for a row. -/
def AgeTables.fillRow (denom : Int) (items : AgeItems) (size2 : Nat) (tables : AgeTables) (i : Nat) :
    Option AgeTables := do
  let v ← items.vValue[items.nBeginCoinValues + i - 1]?
  let nWeight := (v.nValue.tdiv denom % 2 ^ 64).toNat
  let nValue := (v.nCost % 2 ^ 64).toNat
  let row ← tables.M[i - 1]?
  let cells ← (List.range size2).mapM (tableCell row nWeight nValue)
  some ⟨tables.M ++ [cells.map Prod.fst], tables.B ++ [cells.map Prod.snd]⟩

/-- The tables are filled row by row. -/
def fillTables (denom : Int) (items : AgeItems) (size1 size2 : Nat) : Option AgeTables :=
  (List.range' 1 (size1 - 1)).foldlM (AgeTables.fillRow denom items size2)
    ⟨[List.replicate size2 0], [[]]⟩

/-- The way back from a row: a place whose cell of `B` is its own column is selected. -/
def traceBack (items : AgeItems) (B : List (List Nat)) :
    Nat → Int → CoinSelection → Option CoinSelection
  | 0, _, r => some r
  | i + 1, nPrev, r => do
    let row ← B[i + 1]?
    let cell ← if 0 ≤ nPrev then row[nPrev.toNat]? else none
    let r ← if nPrev = cell then items.pick (items.nBeginCoinValues + i) r else some r
    traceBack items B i cell r

/-- The loop over the small coins that are in no bundle, while the target is not reached. -/
def addUnbundled (nTargetValue : Int) : List AgeCoin → CoinSelection → CoinSelection
  | [], r => r
  | v :: rest, r =>
    if r.nValueRet < nTargetValue then addUnbundled nTargetValue rest (r.add (v.nValue, v.coin))
    else r

/-- The dynamic program for what is left of the target, and the small coins after it. -/
def AgeItems.dynamicProgram (items : AgeItems) (nTargetValue denom : Int) (r : CoinSelection) :
    Option CoinSelection := do
  let rest := Int64.wrap (nTargetValue - r.nValueRet)
  let nAppend : Int := if rest.tmod denom ≠ 0 then 0 else 1
  let size1 := items.nTotalCoinValues - items.nBeginCoinValues + 1
  let size2 := ((items.nTotalValue - rest.tdiv denom + nAppend) % 2 ^ 64).toNat
  -- the counters of the tables are of 32 bits
  if size1 < 2 ^ 32 ∧ size2 < 2 ^ 32 then
    let tables ← fillTables denom items size1 size2
    let r ← traceBack items tables.B (size1 - 1) ((size2 : Int) - 1) r
    match items.vZeroValueBundles.getLast? with
    | some it => some (addUnbundled nTargetValue (items.vValue.drop it) r)
    | none => some r
  else none

/-! ## The selection -/

/-- `nGCD`: the greatest common divisor of the amounts and the target. -/
def ageGCD (nTargetValue : Int) (vValue : List AgeCoin) : Int :=
  gcd nTargetValue
    (vValue.tail.foldl (fun nGCD v => gcd v.nValue nGCD) ((vValue.head?.map AgeCoin.nValue).getD 0))

/-- `nTotalValue`: the amount of all coins. -/
def ageTotal (vValue : List AgeCoin) : Int :=
  vValue.tail.foldl (fun nTotalValue v => Int64.wrap (nTotalValue + v.nValue))
    ((vValue.head?.map AgeCoin.nValue).getD 0)

/-- `denom`: the approximation, where it is above the greatest common divisor. -/
def ageDenom (nTargetValue : Int) (vValue : List AgeCoin) : Int :=
  let nGCD := ageGCD nTargetValue vValue
  let approx :=
    (Int64.wrap (vValue.length * Int64.wrap (ageTotal vValue - nTargetValue))).tdiv 25
  if nGCD < approx then approx else nGCD

/-- The coins below the target suffice. -/
def selectLowerByCoinAge (nTargetValue : Int) (vValue : List AgeCoin) : Option CoinSelection := do
  if vValue.length = 0 ∨ 2 ^ 32 ≤ vValue.length then none
  else if ageTotal vValue = nTargetValue then
    some ⟨true, vValue.foldl (fun setCoinsRet v => insert v.coin setCoinsRet) ∅, ageTotal vValue⟩
  else
    let denom := ageDenom nTargetValue vValue
    if denom = 0 then none
    else if denom ≠ ageGCD nTargetValue vValue then
      let items ← bundleCoins denom vValue
      let r : CoinSelection := ⟨true, ∅, 0⟩
      if items.nTotalValue ≤ nTargetValue.tdiv denom then
        let (items, r) ← prepick nTargetValue denom items.nTotalCoinValues items r
        if nTargetValue ≤ r.nValueRet then some r
        else items.dynamicProgram nTargetValue denom r
      else items.dynamicProgram nTargetValue denom r
    else
      let items : AgeItems := {
        vValue := vValue
        vZeroValueBundles := []
        nBeginBundles := vValue.length
        nTotalCoinValues := vValue.length
        nBeginCoinValues := 0
        nTotalValue := (ageTotal vValue).tdiv denom }
      items.dynamicProgram nTargetValue denom ⟨true, ∅, 0⟩

/-- The coins are sorted by their age, and collected. -/
def collectByAge (limits : CoinLimits) (draws : AgeDraws) (nTargetValue : Int) (vCoins : List COutput) :
    AgeCoins :=
  let mCoins := draws.sort (vCoins.map fun out => (out, coinWeightCost draws.getTime out.coin.2))
  mCoins.foldl (AgeCoins.collect limits nTargetValue) ⟨[], 0, none⟩

/-- **`SelectCoinsMinConfByCoinAge`.** -/
def selectCoinsMinConfByCoinAge (limits : CoinLimits) (draws : AgeDraws) (nTargetValue : Int)
    (vCoins : List COutput) : Option CoinSelection :=
  let st := collectByAge limits draws nTargetValue vCoins
  if st.nTotalLower < nTargetValue then
    match st.coinLowestLarger with
    | none => some ⟨false, ∅, 0⟩
    | some coin => some ((CoinSelection.mk true ∅ 0).add (coin.nValue, coin.coin))
  else selectLowerByCoinAge nTargetValue st.vValue

end MotaCoin
