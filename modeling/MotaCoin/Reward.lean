import MotaCoin.Primitives

/-!
# The reward tables

`GetProofOfWorkReward`, the subsidy by height that the miner, `ConnectBlock` and `AcceptBlock` each
evaluate, and `GetProofOfStakeReward`, the coin-age reward of a coinstake.

## Main definitions

* `getProofOfWorkSubsidy nHeight`, `getProofOfWorkReward nHeight nFees`
* `getProofOfStakeReward`: the stake reward, with the superblock bonus

## Main results

* `getProofOfWorkSubsidy_bounds`: every subsidy is a small amount
* `getProofOfWorkSubsidy_lt_pred`, `getProofOfWorkSubsidy_eq_pred`: the heights at which the subsidy
  falls
-/

namespace MotaCoin

/-! ## The subsidy by height -/

/-- A step function given by its bands: the value of the first band whose bound is above `h`, and
zero past the last band. -/
def bandValue : List (Int × Int) → Int → Int
  | [], _ => 0
  | (bound, v) :: bands, h => if h < bound then v else bandValue bands h

theorem bandValue_mem (bands : List (Int × Int)) (h : Int) :
    bandValue bands h = 0 ∨ bandValue bands h ∈ bands.map Prod.snd := by
  induction bands with
  | nil => exact Or.inl rfl
  | cons band bands ih =>
    rw [bandValue]
    split
    · exact Or.inr (by simp)
    · exact ih.imp_right (List.mem_cons_of_mem _)

/-- A step function has the same value at `h - 1` and at `h` when no band starts at `h`. -/
theorem bandValue_pred {bands : List (Int × Int)} {h : Int} (hh : h ∉ bands.map Prod.fst) :
    bandValue bands (h - 1) = bandValue bands h := by
  induction bands with
  | nil => rfl
  | cons band bands ih =>
    simp only [List.map_cons, List.mem_cons, not_or] at hh
    have hb : h - 1 < band.1 ↔ h < band.1 := by omega
    rw [bandValue, bandValue, ih hh.2]
    simp only [hb]

/-- The bands of `GetProofOfWorkReward` after the premine, each with the first height past it
(`nHeight <= 185226` of the source is the bound `185227`). The products of the source with a
fractional factor are computed in `double` and truncated: `2.3 * COIN` is `229999999`. -/
def subsidyBands : List (Int × Int) :=
  [(10000, 42000000), (61742, 75 * COIN), (123484, 66 * COIN), (185227, 55 * COIN),
    (246968, 50 * COIN), (308710, 47 * COIN), (370453, 44 * COIN), (432194, 41 * COIN),
    (493936, 39 * COIN), (555679, 37 * COIN), (617420, 35 * COIN), (679162, 33 * COIN),
    (740904, 32 * COIN), (770420, 31 * COIN), (802646, 310000000), (864388, 290000000),
    (926130, 260000000), (987872, 229999999), (1049614, 2 * COIN), (1111356, 170000000),
    (1173098, 140000000), (1234526, 1 * COIN)]

/-- The subsidy of `GetProofOfWorkReward`: the premine at height 2, then the bands. -/
def getProofOfWorkSubsidy (nHeight : Int) : Int :=
  if 1 < nHeight ∧ nHeight ≤ 2 then 53100000 * COIN else bandValue subsidyBands nHeight

/-- `GetProofOfWorkReward`. -/
def getProofOfWorkReward (nHeight nFees : Int) : Int :=
  Int64.wrap (getProofOfWorkSubsidy nHeight + nFees)

theorem getProofOfWorkSubsidy_bounds (nHeight : Int) :
    0 ≤ getProofOfWorkSubsidy nHeight ∧ getProofOfWorkSubsidy nHeight ≤ 53100000 * COIN := by
  have hall : ∀ v ∈ subsidyBands.map Prod.snd, 0 ≤ v ∧ v ≤ 53100000 * COIN := by decide
  unfold getProofOfWorkSubsidy
  split
  · decide
  · rcases bandValue_mem subsidyBands nHeight with h | h
    · rw [h]
      decide
    · exact hall _ h

theorem getProofOfWorkReward_zero (nHeight : Int) :
    getProofOfWorkReward nHeight 0 = getProofOfWorkSubsidy nHeight := by
  have h := getProofOfWorkSubsidy_bounds nHeight
  rw [getProofOfWorkReward, add_zero]
  apply Int64.wrap_eq_self
  unfold Int64.InRange
  unfold COIN at h
  omega

/-- The heights above `10000` at which a lower subsidy starts. -/
def subsidyDrops : List Int := (subsidyBands.map Prod.fst).tail

/-- **The drops of the subsidy**: above height `10000` the subsidy falls at the first height of
each later band. -/
theorem getProofOfWorkSubsidy_lt_pred {h : Int} (hh : h ∈ subsidyDrops) :
    getProofOfWorkSubsidy h < getProofOfWorkSubsidy (h - 1) := by
  have hall : ∀ h ∈ subsidyDrops, getProofOfWorkSubsidy h < getProofOfWorkSubsidy (h - 1) := by
    decide
  exact hall h hh

/-- Above height `10000`, away from the drops, the subsidy is the one of the height before. -/
theorem getProofOfWorkSubsidy_eq_pred {h : Int} (hlt : 10000 < h) (hh : h ∉ subsidyDrops) :
    getProofOfWorkSubsidy (h - 1) = getProofOfWorkSubsidy h := by
  have hmem : h ∉ subsidyBands.map Prod.fst := by
    intro hm
    rcases List.mem_cons.mp hm with rfl | hm
    · omega
    · exact hh hm
  rw [getProofOfWorkSubsidy, getProofOfWorkSubsidy, if_neg (by omega), if_neg (by omega)]
  exact bandValue_pred hmem

/-! ## The stake reward -/

/-- The seed of the superblock draw: hexadecimal digits 7 to 13 of the previous block hash. -/
def superblockSeed (prevHash : Uint256) : Int := ((prevHash % 2 ^ 256 / 16 ^ 50 % 16 ^ 7 : Nat) : Int)

/-- The superblock bonus of `GetProofOfStakeReward`. -/
def superblockBonus (C : Crypto) (nValueIn : Int) (prevHash : Uint256) : Int :=
  let seed := superblockSeed prevHash
  if 99000000 ≤ nValueIn.tdiv COIN then
    (if C.generateMTRandom seed 100 ≤ 5 then 100 * COIN else 0)
      + (if C.generateMTRandom (seed + 1) 100 ≤ 4 then 200 * COIN else 0)
      + (if C.generateMTRandom (seed + 2) 100 ≤ 3 then 300 * COIN else 0)
      + (if C.generateMTRandom (seed + 3) 100 ≤ 2 then 500 * COIN else 0)
      + (if C.generateMTRandom (seed + 4) 100 ≤ 1 then 1000 * COIN else 0)
  else 0

/-- `GetProofOfStakeReward`. Its arguments `nBits` and `nTime` are only printed. -/
def getProofOfStakeReward (C : Crypto) (nCoinAge nFees nValueIn : Int) (prevHash : Uint256) : Int :=
  let nSubsidy := ((Int64.wrap (nCoinAge * MAX_MINT_PROOF_OF_STAKE)).tdiv 365).tdiv COIN
  Int64.wrap (Int64.wrap (nSubsidy + superblockBonus C nValueIn prevHash) + nFees)

end MotaCoin
