import MotaCoin.Consistency
import MotaCoin.Kernel
import MotaCoin.Lib.Mantissa

/-!
# The range of the next target

`GetNextTargetRequired` scales the target of the last block of a kind by the spacing of the last
two, clamps it to the limit of the kind and writes it in compact form. The spacing is an `int` that
may be negative, the compact form drops bytes, and a target that is not positive would stop the
chain.

## Main definitions

* `NodeState.lastTwo`: the two last blocks of a kind that a retarget reads
* `NodeState.SpacingWithin`: their times differ by less than a bound

## Main results

* `setCompact_getCompact`: a target that is written and read keeps its leading bytes
* `getNextTargetRequired_range`: the next target is positive and within its limit, no product
  overflows, and it grows with the spacing
-/

namespace MotaCoin

/-! ## The compact form -/

theorem getCompact_natCast {n : Nat} (hn : 0 < n) :
    getCompact n = Mantissa.size n * 2 ^ 24 + Mantissa.leading n := by
  have hneg : ¬ ((n : Int) < 0) := by omega
  simp only [getCompact, Int.natAbs_natCast, hn.ne', hneg, if_false, Nat.add_zero]
  rfl

/-- **A positive target that is written in compact form and read again keeps its leading bytes.** -/
theorem setCompact_getCompact {n : Nat} (hn : 0 < n) :
    setCompact (getCompact n) = (Mantissa.floor n : Nat) := by
  have hlead := Mantissa.leading_lt n
  have hsize : getCompact n / 2 ^ 24 = Mantissa.size n := by
    rw [getCompact_natCast hn]
    omega
  have hmantissa : getCompact n % 2 ^ 23 = Mantissa.leading n := by
    rw [getCompact_natCast hn]
    omega
  have hsign : (getCompact n).testBit 23 = false := by
    rw [getCompact_natCast hn, Nat.testBit_eq_decide_div_mod_eq]
    simp only [decide_eq_false_iff_not]
    omega
  rw [setCompact, hsize, hmantissa, hsign]
  simp only [Bool.false_and, Bool.false_eq_true, if_false]
  congr 1
  rw [Mantissa.floor, Mantissa.leading]
  split
  · exact Nat.mul_div_cancel _ (by positivity)
  · rfl

/-- The limit of a proof type. -/
def proofLimit (fProofOfStake : Bool) : Int :=
  if fProofOfStake then bnProofOfStakeLimit else bnProofOfWorkLimit

theorem proofLimit_pos (fProofOfStake : Bool) : 0 < proofLimit fProofOfStake := by
  cases fProofOfStake <;> decide

/-- A positive target within a limit decodes to one that is positive and within the limit. -/
theorem setCompact_getCompact_range {bn limit : Int} (hpos : 0 < bn) (hle : bn ≤ limit) :
    0 < setCompact (getCompact bn) ∧ setCompact (getCompact bn) ≤ limit := by
  obtain ⟨n, rfl⟩ := Int.eq_ofNat_of_zero_le hpos.le
  have hn : 0 < n := by omega
  have hfloor := Mantissa.floor_pos hn
  have hfloor_le := Mantissa.floor_le n
  rw [setCompact_getCompact hn]
  constructor
  · omega
  · omega

/-- Decoded targets keep the order of the targets. -/
theorem setCompact_getCompact_mono {bn bn' : Int} (hpos : 0 < bn) (hle : bn ≤ bn') :
    setCompact (getCompact bn) ≤ setCompact (getCompact bn') := by
  obtain ⟨n, rfl⟩ := Int.eq_ofNat_of_zero_le hpos.le
  obtain ⟨n', rfl⟩ := Int.eq_ofNat_of_zero_le (hpos.le.trans hle)
  rw [setCompact_getCompact (by omega), setCompact_getCompact (by omega)]
  exact Int.ofNat_le.2 (Mantissa.floor_mono (by omega))

/-! ## The retarget -/

/-- The `nActualSpacing` of a retarget, before it is stored as an `int`. -/
def actualSpacing (pindexPrev pindexPrevPrev : CBlockIndex) : Int :=
  pindexPrev.getBlockTime - pindexPrevPrev.getBlockTime

/-- The factor `(nInterval - 1) * nTargetSpacing + nActualSpacing + nActualSpacing`, computed
without overflow from a spacing that is replaced when it is negative. -/
def spacingFactor (nActualSpacing : Int) : Int :=
  let nSpacing := if nActualSpacing < 0 then (nTargetSpacing : Int) else nActualSpacing
  ((nTargetTimespan / nTargetSpacing : Nat) - 1) * nTargetSpacing + nSpacing + nSpacing

theorem spacingFactor_of_nonneg {nActualSpacing : Int} (h : 0 ≤ nActualSpacing) :
    spacingFactor nActualSpacing = 3096 + 2 * nActualSpacing := by
  have hneg : ¬ nActualSpacing < 0 := by omega
  simp only [spacingFactor, hneg, if_false, nTargetTimespan, nTargetSpacing]
  omega

theorem spacingFactor_of_neg {nActualSpacing : Int} (h : nActualSpacing < 0) :
    spacingFactor nActualSpacing = 3612 := by
  simp only [spacingFactor, h, if_true, nTargetTimespan, nTargetSpacing]
  decide

theorem toInt32_of_lt {x : Int} (hlow : -2 ^ 31 ≤ x) (hhigh : x < 2 ^ 31) : toInt32 x = x := by
  rw [toInt32]
  omega

/-- A spacing of less than `2 ^ 29` seconds, either way, leaves the factor an `int`. -/
theorem spacingFactor_range {nActualSpacing : Int} (hlow : -2 ^ 29 < nActualSpacing)
    (hhigh : nActualSpacing < 2 ^ 29) :
    0 < spacingFactor nActualSpacing ∧ spacingFactor nActualSpacing < 2 ^ 31 := by
  rcases lt_or_ge nActualSpacing 0 with hneg | hnonneg
  · rw [spacingFactor_of_neg hneg]
    decide
  · rw [spacingFactor_of_nonneg hnonneg]
    omega

/-- The clamp of a retarget. -/
def clampTarget (bnTargetLimit bnNew : Int) : Int :=
  if bnNew ≤ 0 ∨ bnTargetLimit < bnNew then bnTargetLimit else bnNew

theorem clampTarget_range {bnTargetLimit : Int} (hlimit : 0 < bnTargetLimit) (bnNew : Int) :
    0 < clampTarget bnTargetLimit bnNew ∧ clampTarget bnTargetLimit bnNew ≤ bnTargetLimit := by
  rw [clampTarget]
  split
  · exact ⟨hlimit, le_rfl⟩
  · omega

theorem clampTarget_mono {bnTargetLimit bnNew bnNew' : Int} (hpos : 0 < bnNew)
    (hle : bnNew ≤ bnNew') :
    clampTarget bnTargetLimit bnNew ≤ clampTarget bnTargetLimit bnNew' := by
  rw [clampTarget, clampTarget]
  split <;> split <;> omega

/-- The retarget with the factor computed without overflow. -/
theorem retarget_eq {bnTargetLimit : Int} {pindexPrev pindexPrevPrev : CBlockIndex}
    (hlow : -2 ^ 29 < actualSpacing pindexPrev pindexPrevPrev)
    (hhigh : actualSpacing pindexPrev pindexPrevPrev < 2 ^ 29) :
    NodeState.retarget bnTargetLimit pindexPrev pindexPrevPrev
      = getCompact (clampTarget bnTargetLimit ((setCompact pindexPrev.nBits *
          spacingFactor (actualSpacing pindexPrev pindexPrevPrev)).tdiv 3612)) := by
  obtain ⟨hfactor_pos, hfactor_lt⟩ := spacingFactor_range hlow hhigh
  have hspacing : toInt32 (actualSpacing pindexPrev pindexPrevPrev)
      = actualSpacing pindexPrev pindexPrevPrev := toInt32_of_lt (by omega) (by omega)
  have hfactor : toInt32 (spacingFactor (actualSpacing pindexPrev pindexPrevPrev))
      = spacingFactor (actualSpacing pindexPrev pindexPrevPrev) :=
    toInt32_of_lt (by omega) (by omega)
  rw [← hfactor, spacingFactor, ← hspacing]
  rfl

/-- The scaled target stays positive from a previous target of two on. -/
theorem scaled_pos {bn factor : Int} (hbn : 2 ≤ bn) (hfactor : 3096 ≤ factor) :
    0 < (bn * factor).tdiv 3612 := by
  have hprod : 2 * 3096 ≤ bn * factor := mul_le_mul hbn hfactor (by decide) (by omega)
  rw [Int.tdiv_eq_ediv_of_nonneg (by omega)]
  omega

theorem scaled_mono {bn factor factor' : Int} (hbn : 2 ≤ bn) (hfactor : 3096 ≤ factor)
    (hle : factor ≤ factor') : (bn * factor).tdiv 3612 ≤ (bn * factor').tdiv 3612 := by
  have hprod : bn * factor ≤ bn * factor' := mul_le_mul_of_nonneg_left hle (by omega)
  have hnonneg : 0 ≤ bn * factor := mul_nonneg (by omega) (by omega)
  rw [Int.tdiv_eq_ediv_of_nonneg hnonneg, Int.tdiv_eq_ediv_of_nonneg (hnonneg.trans hprod)]
  exact Int.ediv_le_ediv (by decide) hprod

/-- The next target does not fall when the spacing of the last two blocks grows. -/
theorem retarget_mono {bnTargetLimit : Int}
    {pindexPrev pindexPrevPrev pindexPrev' pindexPrevPrev' : CBlockIndex}
    (hbits : pindexPrev.nBits = pindexPrev'.nBits) (htarget : 2 ≤ setCompact pindexPrev.nBits)
    (hnonneg : 0 ≤ actualSpacing pindexPrev pindexPrevPrev)
    (hle : actualSpacing pindexPrev pindexPrevPrev ≤ actualSpacing pindexPrev' pindexPrevPrev')
    (hhigh : actualSpacing pindexPrev' pindexPrevPrev' < 2 ^ 29) (hlimit : 0 < bnTargetLimit) :
    setCompact (NodeState.retarget bnTargetLimit pindexPrev pindexPrevPrev)
      ≤ setCompact (NodeState.retarget bnTargetLimit pindexPrev' pindexPrevPrev') := by
  rw [retarget_eq (by omega) (by omega), retarget_eq (by omega) hhigh, ← hbits,
    spacingFactor_of_nonneg hnonneg, spacingFactor_of_nonneg (hnonneg.trans hle)]
  apply setCompact_getCompact_mono (clampTarget_range hlimit _).1
  apply clampTarget_mono (scaled_pos htarget (by omega))
  exact scaled_mono htarget (by omega) (by omega)

namespace NodeState

variable (s : NodeState)

/-- The two last blocks of a kind that `GetNextTargetRequired` reads on top of an entry, when the
chain has a retarget. -/
def lastTwo (pindexLast : CBlockIndex) (fProofOfStake : Bool) :
    Option (CBlockIndex × CBlockIndex) :=
  let pindexPrev := s.getLastBlockIndex pindexLast fProofOfStake
  match s.prev pindexPrev with
  | none => none
  | some pprev =>
    let pindexPrevPrev := s.getLastBlockIndex pprev fProofOfStake
    match s.prev pindexPrevPrev with
    | none => none
    | some _ => some (pindexPrev, pindexPrevPrev)

/-- The times of the two last blocks of a kind differ by less than `nBound` seconds, in either
order. -/
def SpacingWithin (nBound : Int) (pindexLast : CBlockIndex) (fProofOfStake : Bool) : Prop :=
  ∀ pindexPrev pindexPrevPrev,
    s.lastTwo pindexLast fProofOfStake = some (pindexPrev, pindexPrevPrev) →
    -nBound < actualSpacing pindexPrev pindexPrevPrev
      ∧ actualSpacing pindexPrev pindexPrevPrev < nBound

/-- Without two blocks of the kind the target is the limit, and a retarget of them otherwise. -/
theorem getNextTargetRequired_eq (pindexLast : CBlockIndex) (fProofOfStake : Bool) :
    s.getNextTargetRequired pindexLast fProofOfStake
      = match s.lastTwo pindexLast fProofOfStake with
        | none => getCompact (proofLimit fProofOfStake)
        | some (pindexPrev, pindexPrevPrev) =>
          retarget (proofLimit fProofOfStake) pindexPrev pindexPrevPrev := by
  rw [getNextTargetRequired, lastTwo]
  cases hprev : s.prev (s.getLastBlockIndex pindexLast fProofOfStake) with
  | none => rfl
  | some pprev =>
    simp only
    cases s.prev (s.getLastBlockIndex pprev fProofOfStake) with
    | none => rfl
    | some _ => rfl

variable {s}

theorem getNextTargetRequired_of_lastTwo {pindexLast pindexPrev pindexPrevPrev : CBlockIndex}
    {fProofOfStake : Bool}
    (h : s.lastTwo pindexLast fProofOfStake = some (pindexPrev, pindexPrevPrev)) :
    s.getNextTargetRequired pindexLast fProofOfStake
      = retarget (proofLimit fProofOfStake) pindexPrev pindexPrevPrev := by
  rw [getNextTargetRequired_eq, h]

/-- The next target is the compact form of a positive number within the limit. -/
theorem getNextTargetRequired_eq_getCompact {pindexLast : CBlockIndex} {fProofOfStake : Bool}
    (hspacing : s.SpacingWithin (2 ^ 29) pindexLast fProofOfStake) :
    ∃ bn, s.getNextTargetRequired pindexLast fProofOfStake = getCompact bn ∧ 0 < bn
      ∧ bn ≤ proofLimit fProofOfStake := by
  cases hlast : s.lastTwo pindexLast fProofOfStake with
  | none =>
    rw [getNextTargetRequired_eq, hlast]
    exact ⟨_, rfl, proofLimit_pos _, le_rfl⟩
  | some pair =>
    obtain ⟨hlow, hhigh⟩ := hspacing pair.1 pair.2 hlast
    rw [getNextTargetRequired_of_lastTwo hlast, retarget_eq hlow hhigh]
    exact ⟨_, rfl, clampTarget_range (proofLimit_pos _) _⟩

theorem proofLimit_le (fProofOfStake : Bool) : proofLimit fProofOfStake ≤ bnProofOfWorkLimit := by
  cases fProofOfStake <;> decide

/-- Bits that decode to a positive target within the limit pass the range test of
`CheckProofOfWork`. -/
theorem checkProofOfWork_eq {nBits : Nat} (hpos : 0 < setCompact nBits)
    (hle : setCompact nBits ≤ bnProofOfWorkLimit) (hash : Uint256) :
    checkProofOfWork hash nBits = decide ((hash : Int) ≤ setCompact nBits) := by
  simp only [checkProofOfWork, hpos, hle, true_and]

/-- **The next target is positive and within its limit, and grows with the spacing.** When the times
of the last two blocks of the kind differ by less than `2 ^ 29` seconds the multiplier is an `int`,
the bits decode to a target of the kind, and proof-of-work bits reject no hash but one above the
target. From a previous target of two on, a longer spacing never gives a smaller target. -/
theorem getNextTargetRequired_range {pindexLast : CBlockIndex} {fProofOfStake : Bool}
    (hspacing : s.SpacingWithin (2 ^ 29) pindexLast fProofOfStake) :
    (∀ pindexPrev pindexPrevPrev,
        s.lastTwo pindexLast fProofOfStake = some (pindexPrev, pindexPrevPrev) →
        toInt32 (actualSpacing pindexPrev pindexPrevPrev) = actualSpacing pindexPrev pindexPrevPrev
          ∧ 0 < spacingFactor (actualSpacing pindexPrev pindexPrevPrev)
          ∧ spacingFactor (actualSpacing pindexPrev pindexPrevPrev) < 2 ^ 31)
      ∧ 0 < setCompact (s.getNextTargetRequired pindexLast fProofOfStake)
      ∧ setCompact (s.getNextTargetRequired pindexLast fProofOfStake) ≤ proofLimit fProofOfStake
      ∧ (∀ hash, checkProofOfWork hash (s.getNextTargetRequired pindexLast fProofOfStake)
          = decide ((hash : Int) ≤ setCompact (s.getNextTargetRequired pindexLast fProofOfStake)))
      ∧ ∀ (s' : NodeState)
          (pindexLast' pindexPrev pindexPrevPrev pindexPrev' pindexPrevPrev' : CBlockIndex),
          s'.SpacingWithin (2 ^ 29) pindexLast' fProofOfStake →
          s.lastTwo pindexLast fProofOfStake = some (pindexPrev, pindexPrevPrev) →
          s'.lastTwo pindexLast' fProofOfStake = some (pindexPrev', pindexPrevPrev') →
          pindexPrev.nBits = pindexPrev'.nBits → 2 ≤ setCompact pindexPrev.nBits →
          0 ≤ actualSpacing pindexPrev pindexPrevPrev →
          actualSpacing pindexPrev pindexPrevPrev ≤ actualSpacing pindexPrev' pindexPrevPrev' →
          setCompact (s.getNextTargetRequired pindexLast fProofOfStake)
            ≤ setCompact (s'.getNextTargetRequired pindexLast' fProofOfStake) := by
  obtain ⟨bn, hbits, hpos, hle⟩ := getNextTargetRequired_eq_getCompact hspacing
  obtain ⟨htarget_pos, htarget_le⟩ := setCompact_getCompact_range hpos hle
  refine ⟨?_, ?_, ?_, ?_, ?_⟩
  · intro pindexPrev pindexPrevPrev hlast
    obtain ⟨hlow, hhigh⟩ := hspacing pindexPrev pindexPrevPrev hlast
    exact ⟨toInt32_of_lt (by omega) (by omega), spacingFactor_range hlow hhigh⟩
  · rw [hbits]
    exact htarget_pos
  · rw [hbits]
    exact htarget_le
  · intro hash
    rw [hbits]
    exact checkProofOfWork_eq htarget_pos (htarget_le.trans (proofLimit_le _)) hash
  · intro s' pindexLast' pindexPrev pindexPrevPrev pindexPrev' pindexPrevPrev' hspacing' hlast
      hlast' hsame htwo hnonneg hgrow
    have hhigh := (hspacing' _ _ hlast').2
    rw [getNextTargetRequired_of_lastTwo hlast, getNextTargetRequired_of_lastTwo hlast']
    exact retarget_mono hsame htwo hnonneg hgrow hhigh (proofLimit_pos _)

/-- The tip of the sample chain. -/
noncomputable def sampleTip : CBlockIndex :=
  storedEntry sampleCrypto 3 ⟨sampleBlock 3 4 3 42000000, 3, 4⟩

/-- One second lies between the two last blocks of the sample chain. -/
theorem getNextTargetRequired_range_sample :
    0 < setCompact (sampleNode.getNextTargetRequired sampleTip false) := by
  refine (getNextTargetRequired_range ?_).2.1
  intro pindexPrev pindexPrevPrev hlast
  have htwo : (sampleNode.lastTwo sampleTip false).map
      (fun pair => actualSpacing pair.1 pair.2) = some 1 := by
    decide +kernel
  rw [hlast] at htwo
  have hspacing : actualSpacing pindexPrev pindexPrevPrev = 1 := Option.some.inj htwo
  rw [hspacing]
  decide

end NodeState

end MotaCoin
