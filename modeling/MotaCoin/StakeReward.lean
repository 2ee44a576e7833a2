import Mathlib.Algebra.Order.BigOperators.Group.List
import Mathlib.Data.List.Forall2
import MotaCoin.Stored

/-!
# The arithmetic of the stake reward

`GetCoinAge` adds up value times age over the inputs that are old enough, in a big number, and
hands the total to `GetProofOfStakeReward` as a 64-bit word. Its comment calls the unit coin-days,
but the total is not divided by `COIN`: it counts satoshi-days, and the product of the reward
formula leaves 64 bits from about 7686 coin-days on.

## Main definitions

* `StakedCoin`: the value and the age of an input
* `CTransaction.eligibleCoins`: the inputs that count towards the coin age
* `coinAge`, `stakeReward`: the coin age of a list of coins and its reward, over the integers
* `coinAgeLimit`: the coin age from which on the reward formula leaves 64 bits
* `StakeRewardExact`: the reward `ConnectBlock` computes for a coinstake is the true one

## Main results

* `getCoinAge_eq`: the coin age the code computes is the low 64 bits of the true one
* `coinAge_mono`: the true coin age grows with the value and the age of the coins
* `stakeRewardExact_iff`: the reward is exact below the limit and nowhere else
-/

namespace MotaCoin

/-! ## The coins of a coinstake -/

/-- An input that counts towards the coin age: its value and its age in seconds. -/
structure StakedCoin where
  value : Int
  age : Nat

namespace StakedCoin

/-- The value times the age of a coin, in whole cent-seconds. -/
def centSeconds (c : StakedCoin) : Int := c.value * c.age / CENT

/-- A coin is worth no more and is no older than another one. -/
def Le (c d : StakedCoin) : Prop := c.value ≤ d.value ∧ c.age ≤ d.age

theorem centSeconds_nonneg {c : StakedCoin} (hc : 0 ≤ c.value) : 0 ≤ c.centSeconds :=
  Int.ediv_nonneg (mul_nonneg hc (Int.natCast_nonneg _)) (by decide)

theorem centSeconds_mono {c d : StakedCoin} (hc : 0 ≤ c.value) (hle : c.Le d) :
    c.centSeconds ≤ d.centSeconds := by
  have hage : (c.age : Int) ≤ d.age := by exact_mod_cast hle.2
  have hmul : c.value * c.age ≤ d.value * d.age :=
    mul_le_mul hle.1 hage (Int.natCast_nonneg _) (hc.trans hle.1)
  exact Int.ediv_le_ediv (by decide) hmul

end StakedCoin

/-- The coin age of a list of coins as `GetCoinAge` defines it, without a bound on its size. -/
def coinAge (coins : List StakedCoin) : Int :=
  (coins.map StakedCoin.centSeconds).sum * CENT / (24 * 60 * 60)

/-- The reward of a coin age at the yearly rate, without a bound on its size. -/
def stakeReward (nCoinAge nFees : Int) : Int :=
  nCoinAge * MAX_MINT_PROOF_OF_STAKE / 365 / COIN + nFees

/-- The number of satoshi-days from which on their product with the rate leaves 64 bits: a little
over 7686 coin-days. -/
def coinAgeLimit : Int := 768614336405

theorem sum_centSeconds_nonneg {coins : List StakedCoin} (hcoins : ∀ c ∈ coins, 0 ≤ c.value) :
    0 ≤ (coins.map StakedCoin.centSeconds).sum := by
  apply List.sum_nonneg
  intro x hx
  obtain ⟨c, hc, rfl⟩ := List.mem_map.mp hx
  exact StakedCoin.centSeconds_nonneg (hcoins c hc)

theorem coinAge_nonneg {coins : List StakedCoin} (hcoins : ∀ c ∈ coins, 0 ≤ c.value) :
    0 ≤ coinAge coins :=
  Int.ediv_nonneg (mul_nonneg (sum_centSeconds_nonneg hcoins) (by decide)) (by decide)

/-- The cent-seconds grow when coins become worth more or older, or become eligible. -/
theorem sum_centSeconds_mono {coins coins' : List StakedCoin} (hcoins : ∀ c ∈ coins, 0 ≤ c.value)
    (hcoins' : ∀ c ∈ coins', 0 ≤ c.value)
    (hle : List.SublistForall₂ StakedCoin.Le coins coins') :
    (coins.map StakedCoin.centSeconds).sum ≤ (coins'.map StakedCoin.centSeconds).sum := by
  induction hle with
  | nil => exact sum_centSeconds_nonneg hcoins'
  | cons hcd _ ih =>
    simp only [List.map_cons, List.sum_cons]
    have h := StakedCoin.centSeconds_mono (hcoins _ (by simp)) hcd
    have hrest := ih (fun c hc => hcoins c (by simp [hc])) fun c hc => hcoins' c (by simp [hc])
    exact add_le_add h hrest
  | cons_right _ ih =>
    simp only [List.map_cons, List.sum_cons]
    have h := StakedCoin.centSeconds_nonneg (hcoins' _ List.mem_cons_self)
    have hrest := ih hcoins fun c hc => hcoins' c (by simp [hc])
    omega

theorem coinAge_mono {coins coins' : List StakedCoin} (hcoins : ∀ c ∈ coins, 0 ≤ c.value)
    (hcoins' : ∀ c ∈ coins', 0 ≤ c.value)
    (hle : List.SublistForall₂ StakedCoin.Le coins coins') : coinAge coins ≤ coinAge coins' :=
  Int.ediv_le_ediv (by decide)
    (mul_le_mul_of_nonneg_right (sum_centSeconds_mono hcoins hcoins' hle) (by decide))

theorem stakeReward_mono {nCoinAge nCoinAge' : Int} (hle : nCoinAge ≤ nCoinAge') (nFees : Int) :
    stakeReward nCoinAge nFees ≤ stakeReward nCoinAge' nFees := by
  unfold stakeReward MAX_MINT_PROOF_OF_STAKE CENT COIN
  omega

theorem stakeReward_nonneg {nCoinAge nFees : Int} (hage : 0 ≤ nCoinAge) (hfees : 0 ≤ nFees) :
    0 ≤ stakeReward nCoinAge nFees := by
  unfold stakeReward MAX_MINT_PROOF_OF_STAKE CENT COIN
  omega

/-! ## The coin age of the code -/

namespace CTransaction

variable (src : Sources)

/-- The coin an input contributes to the coin age: none when its transaction is not in the index
or its block is younger than `nStakeMinAge`. -/
def eligibleCoin (tx : CTransaction) (txin : CTxIn) : Option StakedCoin :=
  match readFromDisk src txin.prevout with
  | none => none
  | some (txindex, txPrev, txout) =>
    match src.readHeader txindex.pos.nFile txindex.pos.nBlockPos with
    | none => none
    | some block =>
      if (tx.nTime : Int) < block.getBlockTime + nStakeMinAge then none
      else some ⟨txout.nValue, tx.nTime - txPrev.nTime⟩

/-- The inputs of a transaction that count towards its coin age. -/
def eligibleCoins (tx : CTransaction) : List StakedCoin := tx.vin.filterMap (tx.eligibleCoin src)

/-- The values of the inputs found in the index are amounts of money. -/
def InputsInMoneyRange (tx : CTransaction) : Prop :=
  ∀ txin ∈ tx.vin, ∀ r, readFromDisk src txin.prevout = some r → moneyRange r.2.2.nValue = true

variable {src} {tx : CTransaction}

theorem InputsInMoneyRange.eligible (h : tx.InputsInMoneyRange src) :
    ∀ c ∈ tx.eligibleCoins src, 0 ≤ c.value := by
  intro c hc
  obtain ⟨txin, htxin, hcoin⟩ := List.mem_filterMap.mp hc
  unfold eligibleCoin at hcoin
  split at hcoin
  · cases hcoin
  · rename_i txindex txPrev txout hread
    have hrange := h txin htxin _ hread
    split at hcoin
    · cases hcoin
    · split at hcoin
      · cases hcoin
      · cases hcoin
        simp only [moneyRange, decide_eq_true_eq] at hrange
        exact hrange.1

/-- A completed loop of `GetCoinAge` has added the cent-seconds of the eligible inputs. -/
theorem getCoinAgeFrom_eq {vin : List CTxIn} {bn n : Int}
    (hpos : ∀ c ∈ vin.filterMap (tx.eligibleCoin src), 0 ≤ c.value)
    (h : tx.getCoinAgeFrom src bn vin = some n) :
    n = bn + ((vin.filterMap (tx.eligibleCoin src)).map StakedCoin.centSeconds).sum := by
  induction vin generalizing bn with
  | nil =>
    cases h
    simp
  | cons txin vin ih =>
    rw [getCoinAgeFrom] at h
    rw [List.filterMap_cons] at hpos ⊢
    cases hread : readFromDisk src txin.prevout with
    | none =>
      have hcoin : tx.eligibleCoin src txin = none := by rw [eligibleCoin, hread]
      rw [hread] at h
      rw [hcoin] at hpos ⊢
      exact ih hpos h
    | some r =>
      obtain ⟨txindex, txPrev, txout⟩ := r
      rw [hread] at h
      simp only at h
      split at h
      · cases h
      · cases hheader : src.readHeader txindex.pos.nFile txindex.pos.nBlockPos with
        | none =>
          rw [hheader] at h
          cases h
        | some block =>
          rw [hheader] at h
          simp only at h
          by_cases hyoung : (tx.nTime : Int) < block.getBlockTime + nStakeMinAge
          · have hcoin : tx.eligibleCoin src txin = none := by
              simp [eligibleCoin, hread, hheader, hyoung]
            rw [if_pos hyoung] at h
            rw [hcoin] at hpos ⊢
            exact ih hpos h
          · have hcoin : tx.eligibleCoin src txin =
                some ⟨txout.nValue, tx.nTime - txPrev.nTime⟩ := by
              simp [eligibleCoin, hread, hheader, hyoung]
            rw [if_neg hyoung] at h
            rw [hcoin] at hpos ⊢
            simp only [List.mem_cons, forall_eq_or_imp] at hpos
            have hval : 0 ≤ txout.nValue * ((tx.nTime - txPrev.nTime : Nat) : Int) :=
              mul_nonneg hpos.1 (Int.natCast_nonneg _)
            rw [Int.tdiv_eq_ediv_of_nonneg hval] at h
            rw [ih hpos.2 h, List.map_cons, List.sum_cons, StakedCoin.centSeconds, add_assoc]

/-- **The coin age of the code** is the low 64 bits of the coin age of the eligible inputs. -/
theorem getCoinAge_eq {n : Int} (hstake : tx.isCoinBase = false) (hin : tx.InputsInMoneyRange src)
    (h : tx.getCoinAge src = some n) : n = coinAge (tx.eligibleCoins src) % 2 ^ 64 := by
  rw [getCoinAge, hstake] at h
  simp only [Bool.false_eq_true, if_false, Option.map_eq_some_iff] at h
  obtain ⟨bn, hbn, rfl⟩ := h
  have hsum := getCoinAgeFrom_eq hin.eligible hbn
  rw [zero_add] at hsum
  have hnonneg : 0 ≤ bn * CENT := by
    rw [hsum]
    exact mul_nonneg (sum_centSeconds_nonneg hin.eligible) (by decide)
  have hage := coinAge_nonneg hin.eligible
  have hbn : (bn * CENT).tdiv (24 * 60 * 60) = coinAge (tx.eligibleCoins src) := by
    rw [Int.tdiv_eq_ediv_of_nonneg hnonneg, hsum]
    rfl
  rw [hbn, getuint64]
  omega

theorem isCoinBase_of_isCoinStake (h : tx.isCoinStake = true) : tx.isCoinBase = false := by
  unfold isCoinStake at h
  unfold isCoinBase
  split at h
  · rename_i txin vin txout out vout hvin hvout
    rw [hvin]
    cases vin with
    | nil =>
      simp only [Bool.and_eq_true, Bool.not_eq_true'] at h
      simp [h.1]
    | cons txin' vin => rfl
  · cases h

/-- The stake reward as `ConnectBlock` computes it for its coinstake; `none` when there is no coin
age. -/
def calculatedStakeReward (C : Crypto) (src : Sources) (tx : CTransaction) (nFees nValueIn : Int)
    (prevHash : Uint256) : Option Int :=
  (tx.getCoinAge src).map fun nCoinAge =>
    getProofOfStakeReward C (Int64.wrap nCoinAge) nFees nValueIn prevHash

end CTransaction

/-! ## The reward of the code -/

theorem tdiv_year_of_nonneg {x : Int} (hx : 0 ≤ x) : (x.tdiv 365).tdiv COIN = x / 365 / COIN := by
  rw [Int.tdiv_eq_ediv_of_nonneg hx, Int.tdiv_eq_ediv_of_nonneg (by omega)]

theorem tdiv_year_of_nonpos {x : Int} (hx : x ≤ 0) :
    (x.tdiv 365).tdiv COIN = -(-x / 365 / COIN) := by
  rw [← tdiv_year_of_nonneg (by omega), Int.neg_tdiv, Int.neg_tdiv, neg_neg]

/-- Without a bonus and for fees that are an amount of money, the last additions of
`GetProofOfStakeReward` stay within 64 bits. -/
theorem getProofOfStakeReward_eq (C : Crypto) (nCoinAge : Int) {nFees nValueIn : Int}
    (prevHash : Uint256) (hfees : moneyRange nFees = true)
    (hbonus : nValueIn.tdiv COIN < 99000000) :
    getProofOfStakeReward C nCoinAge nFees nValueIn prevHash =
      ((Int64.wrap (nCoinAge * MAX_MINT_PROOF_OF_STAKE)).tdiv 365).tdiv COIN + nFees := by
  have hno : superblockBonus C nValueIn prevHash = 0 := by
    rw [superblockBonus]
    exact if_neg (by omega)
  rw [getProofOfStakeReward, hno, add_zero, Int64.wrap_add_wrap]
  apply Int64.wrap_eq_self
  have hrange := Int64.inRange_wrap (nCoinAge * MAX_MINT_PROOF_OF_STAKE)
  generalize Int64.wrap (nCoinAge * MAX_MINT_PROOF_OF_STAKE) = w at hrange
  have hfees := moneyRange_iff.mp hfees
  unfold Int64.InRange at hrange ⊢
  rcases le_total 0 w with hw | hw
  · rw [tdiv_year_of_nonneg hw, COIN]
    omega
  · rw [tdiv_year_of_nonpos hw, COIN]
    omega

/-- The product of the reward formula with the 64-bit coin age is the true one, wrapped. -/
theorem wrap_mint_eq (n : Int) :
    Int64.wrap (Int64.wrap (n % 2 ^ 64) * MAX_MINT_PROOF_OF_STAKE) =
      Int64.wrap (n * MAX_MINT_PROOF_OF_STAKE) := by
  rw [Int64.wrap_eq_wrap_iff]
  have h := Int64.wrap_sub_self_mod (n % 2 ^ 64)
  unfold MAX_MINT_PROOF_OF_STAKE CENT
  omega

/-- The reward formula is exact below the limit and nowhere else: a product past 64 bits comes
back at least `2^64` too small, which no rounding of the divisions hides. -/
theorem wrap_mint_tdiv_eq_iff {n : Int} (hn : 0 ≤ n) :
    ((Int64.wrap (n * MAX_MINT_PROOF_OF_STAKE)).tdiv 365).tdiv COIN =
      n * MAX_MINT_PROOF_OF_STAKE / 365 / COIN ↔ n < coinAgeLimit := by
  have hlimit : n * MAX_MINT_PROOF_OF_STAKE < 2 ^ 63 ↔ n < coinAgeLimit := by
    unfold MAX_MINT_PROOF_OF_STAKE CENT coinAgeLimit
    omega
  rw [← hlimit]
  have hx : 0 ≤ n * MAX_MINT_PROOF_OF_STAKE := mul_nonneg hn (by decide)
  generalize n * MAX_MINT_PROOF_OF_STAKE = x at hx
  constructor
  · intro heq
    by_contra hbig
    have hrange := Int64.inRange_wrap x
    have hmod := Int64.wrap_sub_self_mod x
    generalize Int64.wrap x = w at heq hrange hmod
    have hlow : w ≤ x - 2 ^ 64 := by
      unfold Int64.InRange at hrange
      omega
    rcases le_total 0 w with hw | hw
    · rw [tdiv_year_of_nonneg hw] at heq
      unfold COIN at heq
      omega
    · rw [tdiv_year_of_nonpos hw] at heq
      unfold COIN at heq
      omega
  · intro hsmall
    rw [Int64.wrap_eq_self ⟨by omega, hsmall⟩, tdiv_year_of_nonneg hx]

section Reward

variable (C : Crypto) (nFees nValueIn : Int) (prevHash : Uint256) (src : Sources)
  (tx : CTransaction)

/-- The stake reward of a coinstake is computed exactly: the product of the reward formula is a
64-bit word, the reward is the one over the integers, it is not negative, and a coinstake whose
eligible inputs are worth less, younger or fewer gets no more. -/
structure StakeRewardExact : Prop where
  product : Int64.InRange (coinAge (tx.eligibleCoins src) * MAX_MINT_PROOF_OF_STAKE)
  eq : tx.calculatedStakeReward C src nFees nValueIn prevHash =
    some (stakeReward (coinAge (tx.eligibleCoins src)) nFees)
  nonneg : ∀ r, tx.calculatedStakeReward C src nFees nValueIn prevHash = some r → 0 ≤ r
  mono : ∀ (src' : Sources) (tx' : CTransaction) (nValueIn' r r' : Int), tx'.isCoinStake = true →
    tx'.InputsInMoneyRange src' → nValueIn'.tdiv COIN < 99000000 →
    List.SublistForall₂ StakedCoin.Le (tx'.eligibleCoins src') (tx.eligibleCoins src) →
    tx.calculatedStakeReward C src nFees nValueIn prevHash = some r →
    tx'.calculatedStakeReward C src' nFees nValueIn' prevHash = some r' → r' ≤ r

variable {C nFees nValueIn prevHash src tx}

theorem calculatedStakeReward_eq {r : Int} (hstake : tx.isCoinStake = true)
    (hin : tx.InputsInMoneyRange src) (hfees : moneyRange nFees = true)
    (hbonus : nValueIn.tdiv COIN < 99000000)
    (h : tx.calculatedStakeReward C src nFees nValueIn prevHash = some r) :
    r = ((Int64.wrap (coinAge (tx.eligibleCoins src) * MAX_MINT_PROOF_OF_STAKE)).tdiv 365).tdiv COIN
      + nFees := by
  obtain ⟨n, hn, rfl⟩ := Option.map_eq_some_iff.mp h
  have hage := CTransaction.getCoinAge_eq (CTransaction.isCoinBase_of_isCoinStake hstake) hin hn
  rw [getProofOfStakeReward_eq C _ prevHash hfees hbonus, hage, wrap_mint_eq]

theorem calculatedStakeReward_eq_iff {r : Int} (hstake : tx.isCoinStake = true)
    (hin : tx.InputsInMoneyRange src) (hfees : moneyRange nFees = true)
    (hbonus : nValueIn.tdiv COIN < 99000000)
    (h : tx.calculatedStakeReward C src nFees nValueIn prevHash = some r) :
    r = stakeReward (coinAge (tx.eligibleCoins src)) nFees ↔
      coinAge (tx.eligibleCoins src) < coinAgeLimit := by
  have hage := coinAge_nonneg hin.eligible
  rw [calculatedStakeReward_eq hstake hin hfees hbonus h, stakeReward, add_left_inj,
    wrap_mint_tdiv_eq_iff hage]

/-- **The stake reward is exact for small coin ages only.** For a coinstake with inputs that are
amounts of money and a reward without bonus, the reward is computed exactly, and with that never
negative and monotone, if and only if the eligible inputs have fewer than `coinAgeLimit`
satoshi-days. -/
theorem stakeRewardExact_iff {r : Int} (hstake : tx.isCoinStake = true)
    (hin : tx.InputsInMoneyRange src) (hfees : moneyRange nFees = true)
    (hbonus : nValueIn.tdiv COIN < 99000000)
    (h : tx.calculatedStakeReward C src nFees nValueIn prevHash = some r) :
    StakeRewardExact C nFees nValueIn prevHash src tx ↔
      coinAge (tx.eligibleCoins src) < coinAgeLimit := by
  have hiff := calculatedStakeReward_eq_iff hstake hin hfees hbonus h
  have hage := coinAge_nonneg hin.eligible
  have hfees0 := (moneyRange_iff.mp hfees).1
  constructor
  · intro hexact
    exact hiff.mp (Option.some_injective _ (h.symm.trans hexact.eq))
  · intro hlt
    have hr := hiff.mpr hlt
    refine ⟨?_, by rw [h, hr], ?_, ?_⟩
    · unfold Int64.InRange MAX_MINT_PROOF_OF_STAKE CENT
      unfold coinAgeLimit at hlt
      omega
    · intro r' hr'
      obtain rfl : r = r' := Option.some_injective _ (h.symm.trans hr')
      rw [hr]
      exact stakeReward_nonneg hage hfees0
    · intro src' tx' nValueIn' r₁ r' hstake' hin' hbonus' hle hr₁ hr'
      obtain rfl : r = r₁ := Option.some_injective _ (h.symm.trans hr₁)
      have hmono := coinAge_mono hin'.eligible hin.eligible hle
      have hexact' := calculatedStakeReward_eq_iff hstake' hin' hfees hbonus' hr'
      rw [hr, hexact'.mpr (hmono.trans_lt hlt)]
      exact stakeReward_mono hmono nFees

end Reward

/-! ## A day-old coin -/

/-- A coinstake that spends one output of a day before. -/
def sampleCoinstake : CTransaction where
  nVersion := 1
  nTime := 86400
  vin := [⟨⟨1, 0⟩, [], 4294967295⟩]
  vout := [⟨0, []⟩, ⟨0, [1]⟩]
  nLockTime := 0

/-- An index with one transaction, at time zero, that pays `nValue`. -/
def stakeSources (nValue : Int) : Sources where
  readTxIndex hash := if hash = 1 then some (CTxIndex.fresh ⟨1, 0, 0⟩ 1) else none
  readTx _ := some { sampleCoinstake with nTime := 0, vout := [⟨nValue, []⟩] }
  readHeader _ _ := some ⟨1, 0, 0, 0, 0, 0, [], []⟩
  memPool _ := none

theorem inputsInMoneyRange_stakeSources {nValue : Int} (h : moneyRange nValue = true) :
    sampleCoinstake.InputsInMoneyRange (stakeSources nValue) := by
  intro txin htxin r hr
  obtain rfl := List.mem_singleton.mp htxin
  cases hr
  exact h

/-- A thousand coins of a day earn a third of a coin. -/
theorem stakeRewardExact_iff_thousand :
    sampleCoinstake.calculatedStakeReward (labelCrypto [] []) (stakeSources (1000 * COIN)) 0
        (1000 * COIN) 0 = some 32876712 ∧
      StakeRewardExact (labelCrypto [] []) 0 (1000 * COIN) 0 (stakeSources (1000 * COIN))
        sampleCoinstake := by
  have hreward : sampleCoinstake.calculatedStakeReward (labelCrypto [] [])
      (stakeSources (1000 * COIN)) 0 (1000 * COIN) 0 = some 32876712 := by decide +kernel
  have hin := @inputsInMoneyRange_stakeSources (1000 * COIN) (by decide)
  exact ⟨hreward, (stakeRewardExact_iff (by decide) hin (by decide) (by decide) hreward).mpr
    (by decide +kernel)⟩

/-- Eight thousand coins of a day earn a negative reward. -/
theorem not_forall_stakeRewardExact :
    sampleCoinstake.calculatedStakeReward (labelCrypto [] []) (stakeSources (8000 * COIN)) 0
        (8000 * COIN) 0 = some (-242376549) ∧
      ¬ ∀ (C : Crypto) (nFees nValueIn : Int) (prevHash : Uint256) (src : Sources)
        (tx : CTransaction) (r : Int), tx.isCoinStake = true → tx.InputsInMoneyRange src →
        moneyRange nFees = true → nValueIn.tdiv COIN < 99000000 →
        tx.calculatedStakeReward C src nFees nValueIn prevHash = some r →
        StakeRewardExact C nFees nValueIn prevHash src tx := by
  have hreward : sampleCoinstake.calculatedStakeReward (labelCrypto [] [])
      (stakeSources (8000 * COIN)) 0 (8000 * COIN) 0 = some (-242376549) := by decide +kernel
  refine ⟨hreward, fun hall => ?_⟩
  have hin := @inputsInMoneyRange_stakeSources (8000 * COIN) (by decide)
  have hexact := hall _ 0 (8000 * COIN) 0 _ sampleCoinstake _ (by decide) hin (by decide)
    (by decide) hreward
  exact absurd (hexact.nonneg _ hreward) (by decide)

end MotaCoin
