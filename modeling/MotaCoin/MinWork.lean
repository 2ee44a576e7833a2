import MotaCoin.ProcessBlock
import MotaCoin.Retarget

/-!
# The least work of an honest chain

`ProcessBlock` charges the sender of a block whose target is higher than the last synchronized
checkpoint allows: twice the target of the last block of the kind, and twice as much for every day
begun since. A retarget goes by the spacing of the last two blocks of the kind alone, so that a target
can grow faster on a chain where all targets are the required ones.

## Main definitions

* `NodeState.ObeysRules`, `NodeState.HonestChain`: blocks with the required target and a time that
  `AcceptBlock` takes
* `NodeState.LeadsTo`: the blocks from a checkpoint on
* `TargetTrack`: the target and the times that a chain has come to
* `daysBegun`, `requiredTarget`

## Main results

* `computeMaxBits_target`: what `ComputeMaxBits` allows, without its loop
* `TargetTrack.along_spec`: the target of the next block, from the times since a checkpoint
* `tooLittleWork_honest`: when the next block of an honest chain passes
-/

namespace MotaCoin

/-! ## What is allowed -/

/-- The rounds of the loop of `ComputeMaxBits`, if it is not stopped by the limit. -/
def daysBegun (nTime : Int) : Nat := ((nTime + (24 * 60 * 60 - 1)) / (24 * 60 * 60)).toNat

theorem computeMaxBitsFrom_eq {bnTargetLimit : Int} {fuel : Nat} :
    ∀ {bnResult nTime : Int}, 0 < bnResult → daysBegun nTime ≤ fuel →
      min bnTargetLimit (computeMaxBitsFrom bnTargetLimit fuel bnResult nTime) =
        min bnTargetLimit (bnResult * 2 ^ daysBegun nTime) := by
  induction fuel with
  | zero =>
    intro bnResult nTime _ hdays
    rw [Nat.le_zero.1 hdays, pow_zero, mul_one]
    rfl
  | succ fuel ih =>
    intro bnResult nTime hpos hdays
    rw [computeMaxBitsFrom]
    split
    · next hgo =>
      have hday : daysBegun nTime = daysBegun (nTime - 24 * 60 * 60) + 1 := by
        have := hgo.1
        rw [daysBegun, daysBegun]
        omega
      rw [ih (by omega) (by omega), hday, pow_succ', mul_assoc]
    · next hstop =>
      rcases not_and_or.1 hstop with hnone | hlimit
      · have hday : daysBegun nTime = 0 := by
          rw [daysBegun]
          omega
        rw [hday, pow_zero, mul_one]
      · have hle : bnResult ≤ bnResult * 2 ^ daysBegun nTime :=
          le_mul_of_one_le_right hpos.le (one_le_pow₀ one_le_two)
        rw [min_eq_left (not_lt.1 hlimit), min_eq_left ((not_lt.1 hlimit).trans hle)]

/-- **What `ComputeMaxBits` allows**: the base target, doubled once and for every day begun, within the
limit. -/
theorem computeMaxBits_target {bnTargetLimit : Int} {nBase : Nat} (hbase : 0 < setCompact nBase)
    (nTime : Int) :
    computeMaxBits bnTargetLimit nBase nTime =
      getCompact (min bnTargetLimit (setCompact nBase * 2 ^ (daysBegun nTime + 1))) := by
  have hfuel : daysBegun nTime ≤ (nTime / (24 * 60 * 60)).toNat + 1 := by
    rw [daysBegun]
    omega
  have hclosed := @computeMaxBitsFrom_eq bnTargetLimit _ (setCompact nBase * 2) nTime (by omega) hfuel
  rw [pow_succ', ← mul_assoc, ← hclosed, computeMaxBits]
  split
  · next hmore => rw [min_eq_left hmore.le]
  · next hless => rw [min_eq_right (not_lt.1 hless)]

/-! ## The targets of a chain -/

/-- The target after one that is followed at a spacing. -/
def nextTarget (bnTargetLimit bnTarget nSpacing : Int) : Int :=
  setCompact (getCompact (clampTarget bnTargetLimit
    ((bnTarget * toInt32 (spacingFactor (toInt32 nSpacing))).tdiv 3612)))

theorem setCompact_retarget (bnTargetLimit : Int) (pindexPrev pindexPrevPrev : CBlockIndex) :
    setCompact (NodeState.retarget bnTargetLimit pindexPrev pindexPrevPrev) =
      nextTarget bnTargetLimit (setCompact pindexPrev.nBits)
        (actualSpacing pindexPrev pindexPrevPrev) := rfl

/-- The target of the last block of a kind, its time and the time of the one before it. -/
structure TargetTrack where
  bnTarget : Int
  nTime : Int
  nPrevTime : Int

namespace TargetTrack

variable (fProofOfStake : Bool)

/-- The target of the next block of the kind. -/
def next (track : TargetTrack) : Int :=
  nextTarget (proofLimit fProofOfStake) track.bnTarget (track.nTime - track.nPrevTime)

/-- A block, of this kind or the other, with its time. -/
def extend (block : Bool × Int) (track : TargetTrack) : TargetTrack :=
  if block.1 = fProofOfStake then ⟨track.next fProofOfStake, block.2, track.nTime⟩ else track

/-- The blocks of a chain, the last one first. -/
def along (start : TargetTrack) (blocks : List (Bool × Int)) : TargetTrack :=
  blocks.foldr (extend fProofOfStake) start

/-- The last two blocks of the kind in the tree. -/
def ofLastTwo (pair : CBlockIndex × CBlockIndex) : TargetTrack :=
  ⟨setCompact pair.1.nBits, pair.1.getBlockTime, pair.2.getBlockTime⟩

end TargetTrack

namespace NodeState

/-- What `AcceptBlock` asks of the target and the time of a block on top of an entry. -/
structure ObeysRules (s : NodeState) (pindexPrev : CBlockIndex) (fProofOfStake : Bool) (nBits : Nat)
    (nTime : Int) : Prop where
  nBits : nBits = s.getNextTargetRequired pindexPrev fProofOfStake
  median : s.getMedianTimePast pindexPrev < nTime
  drift : pindexPrev.getBlockTime ≤ nTime + getClockDrift nTime

/-- **Honest chains**: the first block has the highest target, and every other one the required target
and a time that is taken. -/
structure HonestChain (s : NodeState) : Prop where
  root : ∀ h e, s.mapBlockIndex h = some e → s.prev e = none → e.nBits = getCompact bnProofOfWorkLimit
  height : ∀ h e p, s.mapBlockIndex h = some e → s.prev e = some p → e.nHeight = p.nHeight + 1
  rules : ∀ h e p, s.mapBlockIndex h = some e → s.prev e = some p →
    s.ObeysRules p e.isProofOfStake e.nBits e.getBlockTime

/-- The entries that lead from one to another, the last one first. -/
def LeadsTo (s : NodeState) (pindexFirst : CBlockIndex) : List CBlockIndex → CBlockIndex → Prop
  | [], pindexLast => pindexLast = pindexFirst
  | pindex :: path, pindexLast =>
    pindex = pindexLast ∧ ∃ pprev, s.prev pindex = some pprev ∧ s.LeadsTo pindexFirst path pprev

variable {s : NodeState} {e p : CBlockIndex} {fProofOfStake : Bool}

theorem exists_of_prev (h : s.prev e = some p) : ∃ k, s.mapBlockIndex k = some p :=
  (Option.bind_eq_some_iff.1 h).imp fun _ => And.right

/-- One step of `GetLastBlockIndex`. -/
theorem getLastBlockIndex_of_prev (hprev : s.prev e = some p) (hheight : e.nHeight = p.nHeight + 1) :
    s.getLastBlockIndex e fProofOfStake =
      if e.isProofOfStake = fProofOfStake then e else s.getLastBlockIndex p fProofOfStake := by
  rw [getLastBlockIndex, hheight, getLastBlockIndexFrom, hprev]
  dsimp only
  by_cases hkind : e.isProofOfStake = fProofOfStake
  · rw [if_pos hkind, hkind, bne_self_eq_false, if_neg Bool.false_ne_true]
  · rw [if_neg hkind, if_pos (bne_iff_ne.2 hkind), getLastBlockIndex]

theorem getLastBlockIndex_of_root (hprev : s.prev e = none) :
    s.getLastBlockIndex e fProofOfStake = e := by
  rw [getLastBlockIndex]
  cases e.nHeight with
  | zero => rfl
  | succ n => rw [getLastBlockIndexFrom, hprev]

/-- The last two blocks of a kind, on top of a block of the other kind. -/
theorem lastTwo_of_other (hprev : s.prev e = some p) (hheight : e.nHeight = p.nHeight + 1)
    (hkind : e.isProofOfStake ≠ fProofOfStake) : s.lastTwo e fProofOfStake = s.lastTwo p fProofOfStake := by
  rw [lastTwo, lastTwo, getLastBlockIndex_of_prev hprev hheight, if_neg hkind]

/-- The first of the last two is the last block. -/
theorem lastTwo_fst {pair : CBlockIndex × CBlockIndex} (hlast : s.lastTwo p fProofOfStake = some pair) :
    s.getLastBlockIndex p fProofOfStake = pair.1 := by
  rw [lastTwo] at hlast
  dsimp only at hlast
  split at hlast
  · cases hlast
  · split at hlast
    · cases hlast
    · obtain rfl := Option.some.inj hlast
      rfl

/-- On top of a block of the kind it is the last one, and the last one before it comes second. -/
theorem lastTwo_of_kind (hprev : s.prev e = some p) (hheight : e.nHeight = p.nHeight + 1)
    (hkind : e.isProofOfStake = fProofOfStake) {pair : CBlockIndex × CBlockIndex}
    (hlast : s.lastTwo p fProofOfStake = some pair) : s.lastTwo e fProofOfStake = some (e, pair.1) := by
  have hfirst := lastTwo_fst hlast
  obtain ⟨q, hq⟩ : ∃ q, s.prev pair.1 = some q := by
    rw [lastTwo, hfirst] at hlast
    dsimp only at hlast
    split at hlast
    · cases hlast
    · next q hq => exact ⟨q, hq⟩
  rw [lastTwo, getLastBlockIndex_of_prev hprev hheight, if_pos hkind]
  simp only [hprev, hfirst, hq]

end NodeState

namespace TargetTrack

open NodeState

variable {s : NodeState} {fProofOfStake : Bool}

/-- **The last two blocks of a kind along a chain**: their target and their times, from the ones a
checkpoint has and the kinds and times of the blocks since. -/
theorem along_spec (hs : s.HonestChain) {pindexFirst : CBlockIndex} {pair : CBlockIndex × CBlockIndex}
    (hfirst : s.lastTwo pindexFirst fProofOfStake = some pair) {path : List CBlockIndex} :
    ∀ {pindexLast : CBlockIndex}, (∃ k, s.mapBlockIndex k = some pindexLast) →
      s.LeadsTo pindexFirst path pindexLast →
      ∃ pair', s.lastTwo pindexLast fProofOfStake = some pair' ∧
        ofLastTwo pair' = (ofLastTwo pair).along fProofOfStake
          (path.map fun e => (e.isProofOfStake, e.getBlockTime)) := by
  induction path with
  | nil =>
    rintro pindexLast - rfl
    exact ⟨pair, hfirst, rfl⟩
  | cons e path ih =>
    rintro pindexLast ⟨k, hk⟩ ⟨rfl, p, hprev, hpath⟩
    obtain ⟨pair', hlast, htrack⟩ := ih (exists_of_prev hprev) hpath
    have hheight := hs.height k e p hk hprev
    rw [List.map_cons, along, List.foldr_cons]
    rw [along] at htrack
    rw [← htrack, extend]
    by_cases hkind : e.isProofOfStake = fProofOfStake
    · refine ⟨_, lastTwo_of_kind hprev hheight hkind hlast, ?_⟩
      rw [if_pos hkind, next, ofLastTwo, (hs.rules k e p hk hprev).nBits, hkind,
        getNextTargetRequired_of_lastTwo hlast, setCompact_retarget]
      rfl
    · refine ⟨pair', ?_, ?_⟩
      · rw [lastTwo_of_other hprev hheight hkind]
        exact hlast
      · rw [if_neg hkind]

end TargetTrack

/-! ## How fast a target grows -/

/-- The spacings by which the targets of a chain go, the last one first. -/
def TargetTrack.spacings (fProofOfStake : Bool) (start : TargetTrack) : List (Bool × Int) → List Int
  | [] => []
  | block :: blocks =>
    if block.1 = fProofOfStake then
      ((start.along fProofOfStake blocks).nTime - (start.along fProofOfStake blocks).nPrevTime) ::
        start.spacings fProofOfStake blocks
    else start.spacings fProofOfStake blocks

/-- One retarget scales by the factor of the spacing, or less. -/
theorem nextTarget_le {bnTargetLimit bnTarget nSpacing : Int} (htwo : 2 ≤ bnTarget)
    (hlimit : 0 < bnTargetLimit) (hlow : -2 ^ 29 < nSpacing) (hhigh : nSpacing < 2 ^ 29) :
    nextTarget bnTargetLimit bnTarget nSpacing * 3612 ≤ bnTarget * spacingFactor nSpacing := by
  obtain ⟨hfactor_pos, hfactor_lt⟩ := spacingFactor_range hlow hhigh
  have hfactor : 3096 ≤ spacingFactor nSpacing := by
    rcases lt_or_ge nSpacing 0 with hneg | hnonneg
    · rw [spacingFactor_of_neg hneg]
      decide
    · rw [spacingFactor_of_nonneg hnonneg]
      omega
  have hscaled := scaled_pos htwo hfactor
  have hclamp : clampTarget bnTargetLimit ((bnTarget * spacingFactor nSpacing).tdiv 3612) ≤
      (bnTarget * spacingFactor nSpacing).tdiv 3612 := by
    rw [clampTarget]
    split <;> omega
  have hnonneg : 0 ≤ bnTarget * spacingFactor nSpacing := mul_nonneg (by omega) (by omega)
  have hword : toInt32 nSpacing = nSpacing := toInt32_of_lt (by omega) (by omega)
  rw [nextTarget, hword, toInt32_of_lt (by omega) hfactor_lt]
  calc setCompact (getCompact (clampTarget bnTargetLimit
        ((bnTarget * spacingFactor nSpacing).tdiv 3612))) * 3612
      ≤ (bnTarget * spacingFactor nSpacing).tdiv 3612 * 3612 := by
        refine mul_le_mul_of_nonneg_right ?_ (by decide)
        exact (setCompact_getCompact_range (clampTarget_range hlimit _).1 le_rfl).2.trans hclamp
    _ ≤ bnTarget * spacingFactor nSpacing := by
        rw [Int.tdiv_eq_ediv_of_nonneg hnonneg]
        exact Int.ediv_mul_le _ (by decide)

/-- **A target grows by the product of the factors**, or less, while it stays above one. -/
theorem TargetTrack.along_le {fProofOfStake : Bool} {start : TargetTrack} {blocks : List (Bool × Int)}
    (hspacing : ∀ nSpacing ∈ start.spacings fProofOfStake blocks,
      -2 ^ 29 < nSpacing ∧ nSpacing < 2 ^ 29)
    (htwo : ∀ blocks', blocks' <:+ blocks → 2 ≤ (start.along fProofOfStake blocks').bnTarget) :
    (start.along fProofOfStake blocks).bnTarget * 3612 ^ (start.spacings fProofOfStake blocks).length ≤
      start.bnTarget * ((start.spacings fProofOfStake blocks).map spacingFactor).prod := by
  induction blocks with
  | nil => simp [spacings, along]
  | cons block blocks ih =>
    have htwo' := fun blocks' h => htwo blocks' (List.IsSuffix.trans h (List.suffix_cons _ _))
    rw [spacings] at hspacing ⊢
    rw [along, List.foldr_cons, extend]
    split at hspacing
    · next hkind =>
      obtain ⟨hlow, hhigh⟩ := hspacing _ List.mem_cons_self
      have hrest := ih (fun n hn => hspacing n (List.mem_cons_of_mem _ hn)) htwo'
      have hstep := nextTarget_le (htwo' blocks List.suffix_rfl) (proofLimit_pos fProofOfStake) hlow
        hhigh
      have hfactor := (spacingFactor_range hlow hhigh).1
      rw [if_pos hkind, if_pos hkind, List.length_cons, List.map_cons, List.prod_cons]
      set track := start.along fProofOfStake blocks
      set factor := spacingFactor (track.nTime - track.nPrevTime)
      set rest := start.spacings fProofOfStake blocks
      calc track.next fProofOfStake * 3612 ^ (rest.length + 1)
          = track.next fProofOfStake * 3612 * 3612 ^ rest.length := by ring
        _ ≤ track.bnTarget * factor * 3612 ^ rest.length :=
            mul_le_mul_of_nonneg_right hstep (by positivity)
        _ = track.bnTarget * 3612 ^ rest.length * factor := by ring
        _ ≤ start.bnTarget * (rest.map spacingFactor).prod * factor :=
            mul_le_mul_of_nonneg_right hrest hfactor.le
        _ = start.bnTarget * (factor * (rest.map spacingFactor).prod) := by ring
    · next hkind =>
      rw [if_neg hkind, if_neg hkind]
      exact ih hspacing htwo'

/-! ## The test -/

namespace NodeState

variable {s : NodeState} {e p : CBlockIndex} {fProofOfStake : Bool}

/-- What `GetLastBlockIndex` comes to: the first block, or one of the kind. -/
theorem getLastBlockIndex_spec (hs : s.HonestChain) (fProofOfStake : Bool) (n : Nat) :
    ∀ {e : CBlockIndex}, e.nHeight = n → (∃ k, s.mapBlockIndex k = some e) →
      (∃ k, s.mapBlockIndex k = some (s.getLastBlockIndex e fProofOfStake)) ∧
        (s.prev (s.getLastBlockIndex e fProofOfStake) = none ∨
          (s.getLastBlockIndex e fProofOfStake).isProofOfStake = fProofOfStake) := by
  induction n with
  | zero =>
    rintro e hheight ⟨k, hk⟩
    cases hprev : s.prev e with
    | none =>
      rw [getLastBlockIndex_of_root hprev]
      exact ⟨⟨k, hk⟩, Or.inl hprev⟩
    | some p =>
      have hsucc := hs.height k e p hk hprev
      omega
  | succ n ih =>
    rintro e hheight ⟨k, hk⟩
    cases hprev : s.prev e with
    | none =>
      rw [getLastBlockIndex_of_root hprev]
      exact ⟨⟨k, hk⟩, Or.inl hprev⟩
    | some p =>
      have hsucc := hs.height k e p hk hprev
      rw [getLastBlockIndex_of_prev hprev hsucc]
      split
      · next hkind => exact ⟨⟨k, hk⟩, Or.inr hkind⟩
      · exact ih (by omega) (exists_of_prev hprev)

/-- A required target is the compact form of one within the limit. -/
theorem getNextTargetRequired_within (s : NodeState) (pindexLast : CBlockIndex) (fProofOfStake : Bool) :
    ∃ bn, s.getNextTargetRequired pindexLast fProofOfStake = getCompact bn ∧ 0 < bn ∧
      bn ≤ proofLimit fProofOfStake := by
  rw [getNextTargetRequired_eq]
  split
  · exact ⟨_, rfl, proofLimit_pos _, le_rfl⟩
  · exact ⟨_, rfl, clampTarget_range (proofLimit_pos _) _⟩

/-- The base target is positive, and at least half the limit where there is no retarget yet. -/
theorem base_target (hs : s.HonestChain) (fProofOfStake : Bool)
    (hknown : ∃ k, s.mapBlockIndex k = some e) :
    0 < setCompact (s.getLastBlockIndex e fProofOfStake).nBits ∧
      (s.lastTwo e fProofOfStake = none →
        proofLimit fProofOfStake ≤ setCompact (s.getLastBlockIndex e fProofOfStake).nBits * 2) := by
  obtain ⟨⟨k, hk⟩, hkind⟩ := getLastBlockIndex_spec hs fProofOfStake _ rfl hknown
  have hlastTwo : s.lastTwo e fProofOfStake = none →
      ∀ p, s.prev (s.getLastBlockIndex e fProofOfStake) = some p →
        s.prev (s.getLastBlockIndex p fProofOfStake) = none := by
    intro hnone p hprev
    rw [lastTwo, hprev] at hnone
    dsimp only at hnone
    split at hnone
    · assumption
    · cases hnone
  generalize s.getLastBlockIndex e fProofOfStake = base at hk hkind hlastTwo ⊢
  cases hprev : s.prev base with
  | none =>
    rw [hs.root k base hk hprev]
    exact ⟨by decide +kernel, fun _ => by cases fProofOfStake <;> decide +kernel⟩
  | some p =>
    have hbits := (hs.rules k base p hk hprev).nBits
    rw [hkind.resolve_left (by rw [hprev]; exact Option.some_ne_none p)] at hbits
    obtain ⟨bn, heq, hpos, hle⟩ := getNextTargetRequired_within s p fProofOfStake
    rw [hbits, heq]
    refine ⟨(setCompact_getCompact_range hpos hle).1, fun hnone => ?_⟩
    -- the block before it is the first one, so its target is the limit
    have hroot : s.lastTwo p fProofOfStake = none := by
      rw [lastTwo, hlastTwo hnone p hprev]
    rw [← heq, getNextTargetRequired_eq, hroot]
    cases fProofOfStake <;> decide +kernel

/-- A target that was written in compact form is within what is allowed in compact form if it is within
what is allowed. -/
theorem setCompact_getCompact_le_iff {bn bn' : Int} (hpos : 0 < bn) (hpos' : 0 < bn') :
    setCompact (getCompact bn) ≤ setCompact (getCompact bn') ↔ setCompact (getCompact bn) ≤ bn' := by
  obtain ⟨n, rfl⟩ := Int.eq_ofNat_of_zero_le hpos.le
  obtain ⟨n', rfl⟩ := Int.eq_ofNat_of_zero_le hpos'.le
  rw [setCompact_getCompact (by omega), setCompact_getCompact (by omega), Int.ofNat_le, Int.ofNat_le]
  exact Mantissa.floor_le_floor_iff

/-- **The test without its loop**: a required target passes if it is no more than the base target,
doubled once and for every day begun. -/
theorem tooLittleWork_eq_false_iff (hs : s.HonestChain) {b : CBlock}
    (hcheckpoint : s.mapBlockIndex s.hashSyncCheckpoint = some e)
    (hbits : b.nBits = s.getNextTargetRequired p b.isProofOfStake) :
    s.tooLittleWork b = false ↔ setCompact b.nBits ≤
      setCompact (s.getLastBlockIndex e b.isProofOfStake).nBits *
        2 ^ (daysBegun (b.getBlockTime - e.getBlockTime) + 1) := by
  obtain ⟨hbase, -⟩ := base_target hs b.isProofOfStake ⟨_, hcheckpoint⟩
  obtain ⟨bn, hbn, hpos, hle⟩ := getNextTargetRequired_within s p b.isProofOfStake
  have hrange := setCompact_getCompact_range hpos hle
  have hrequired : (if b.isProofOfStake then
        computeMinStake (s.getLastBlockIndex e b.isProofOfStake).nBits (b.getBlockTime - e.nTime)
      else computeMinWork (s.getLastBlockIndex e b.isProofOfStake).nBits (b.getBlockTime - e.nTime)) =
      getCompact (min (proofLimit b.isProofOfStake)
        (setCompact (s.getLastBlockIndex e b.isProofOfStake).nBits *
          2 ^ (daysBegun (b.getBlockTime - e.getBlockTime) + 1))) := by
    rw [proofLimit]
    split
    · exact computeMaxBits_target hbase _
    · exact computeMaxBits_target hbase _
  rw [tooLittleWork, hcheckpoint]
  dsimp only
  rw [hrequired, decide_eq_false_iff_not, not_lt, hbits, hbn, setCompact_getCompact_le_iff hpos
    (lt_min (proofLimit_pos _) (by positivity)), le_min_iff, and_iff_right hrange.2]

end NodeState

/-- The kinds and times of a block and the ones it follows. -/
def CBlock.kindsAndTimes (b : CBlock) (path : List CBlockIndex) : List (Bool × Int) :=
  (b.isProofOfStake, b.getBlockTime) :: path.map fun e => (e.isProofOfStake, e.getBlockTime)

open TargetTrack NodeState

section Gate

variable {s : NodeState} (hs : s.HonestChain) {c p : CBlockIndex} {b : CBlock}
  (hcheckpoint : s.mapBlockIndex s.hashSyncCheckpoint = some c)
  (hlast : ∃ k, s.mapBlockIndex k = some p) {path : List CBlockIndex} (hpath : s.LeadsTo c path p)
  (hb : s.ObeysRules p b.isProofOfStake b.nBits b.getBlockTime)
include hs hcheckpoint hlast hpath hb

/-- The test, where the kind has two blocks at the checkpoint. -/
theorem tooLittleWork_of_lastTwo {pair : CBlockIndex × CBlockIndex}
    (hpair : s.lastTwo c b.isProofOfStake = some pair) :
    s.tooLittleWork b = false ↔
      ((ofLastTwo pair).along b.isProofOfStake (b.kindsAndTimes path)).bnTarget ≤
        setCompact pair.1.nBits * 2 ^ (daysBegun (b.getBlockTime - c.getBlockTime) + 1) := by
  obtain ⟨pair', hlastTwo, htrack⟩ := along_spec hs hpair hlast hpath
  have htarget : setCompact b.nBits =
      ((ofLastTwo pair).along b.isProofOfStake (b.kindsAndTimes path)).bnTarget := by
    rw [CBlock.kindsAndTimes, along, List.foldr_cons]
    rw [along] at htrack
    rw [← htrack, extend, if_pos rfl, hb.nBits, getNextTargetRequired_of_lastTwo hlastTwo,
      setCompact_retarget]
    rfl
  rw [tooLittleWork_eq_false_iff hs hcheckpoint hb.nBits, lastTwo_fst hpair, htarget]

omit hlast hpath in
/-- Where the kind has no two blocks yet, the base target is half the limit or more. -/
theorem tooLittleWork_of_lastTwo_none (hnone : s.lastTwo c b.isProofOfStake = none) :
    s.tooLittleWork b = false := by
  obtain ⟨hbase, hhalf⟩ := base_target hs b.isProofOfStake ⟨_, hcheckpoint⟩
  obtain ⟨bn, hbn, hpos, hle⟩ := getNextTargetRequired_within s p b.isProofOfStake
  have hpow : (2 : Int) ≤ 2 ^ (daysBegun (b.getBlockTime - c.getBlockTime) + 1) := by
    rw [pow_succ]
    exact le_mul_of_one_le_left zero_le_two (one_le_pow₀ one_le_two)
  rw [tooLittleWork_eq_false_iff hs hcheckpoint hb.nBits, hb.nBits, hbn]
  calc setCompact (getCompact bn) ≤ proofLimit b.isProofOfStake :=
        (setCompact_getCompact_range hpos hle).2
    _ ≤ setCompact (s.getLastBlockIndex c b.isProofOfStake).nBits * 2 := hhalf hnone
    _ ≤ _ := mul_le_mul_of_nonneg_left hpow hbase.le

end Gate

/-! ## A gap of an hour and forty minutes -/

/-- The times and targets of a chain: a block every second, and a last one after 6000 seconds. -/
def gapRules : List (Nat × Nat) :=
  [(1000, 504365055), (1001, 504365055), (1002, 504365055), (1003, 504215839), (1004, 504087857),
    (1005, 503978087), (1006, 503883938), (1007, 503803186), (1008, 503733926), (1009, 503674522),
    (1010, 503623571), (1011, 503579870), (7011, 503542388)]

/-- The entry at a height. -/
def gapEntry (nHeight : Nat) (rules : Nat × Nat) : CBlockIndex where
  hash := nHeight
  pprev := if nHeight = 0 then none else some (nHeight - 1 : Nat)
  pnext := none
  nFile := 1
  nBlockPos := 8
  nChainTrust := 1
  nHeight := nHeight
  nMint := 0
  nMoneySupply := 0
  nFlags := 0
  nStakeModifier := 0
  nStakeModifierChecksum := 0
  prevoutStake := .null
  nStakeTime := 0
  hashProofOfStake := 0
  nVersion := 1
  hashMerkleRoot := 0
  nTime := rules.1
  nBits := rules.2
  nNonce := 0

/-- A node with this chain, whose last block is the synchronized checkpoint. -/
def gapNode : NodeState where
  mapBlockIndex k := (gapRules[k]?).map (gapEntry k)
  setStakeSeen := []
  pindexGenesisBlock := some 0
  pindexBest := some 12
  hashBestChain := 12
  nBestHeight := 12
  nBestChainTrust := 1
  nBestInvalidTrust := 0
  pblockindexFBBHLast := none
  hashSyncCheckpoint := 12
  hashPendingCheckpoint := 0
  mempool := ⟨∅, ∅⟩
  txdb := ⟨fun _ => none, none⟩
  blkFiles := fun _ _ => none
  walletSyncs := []

/-- A block on top of it, with the required target. -/
def gapBlock (nTime : Nat) : CBlock where
  nVersion := 1
  hashPrevBlock := 12
  hashMerkleRoot := 0
  nTime := nTime
  nBits := 504260640
  nNonce := 0
  vtx := []
  vchBlockSig := []

theorem gapNode_honestChain : gapNode.HonestChain := by
  have hall : ∀ k < 13, ∀ e ∈ gapNode.mapBlockIndex k,
      ((gapNode.prev e).isNone → e.nBits = getCompact bnProofOfWorkLimit) ∧
      ∀ p ∈ gapNode.prev e, e.nHeight = p.nHeight + 1 ∧
        e.nBits = gapNode.getNextTargetRequired p e.isProofOfStake ∧
        gapNode.getMedianTimePast p < e.getBlockTime ∧
        p.getBlockTime ≤ e.getBlockTime + getClockDrift e.getBlockTime := by
    decide +kernel
  have hlt : ∀ {k : Nat} {e}, gapNode.mapBlockIndex k = some e → k < 13 := by
    intro k e he
    obtain ⟨rules, hrules, -⟩ := Option.map_eq_some_iff.1 he
    exact (List.getElem?_eq_some_iff.1 hrules).1
  refine ⟨fun k e he hroot => ?_, fun k e p he hprev => ?_, fun k e p he hprev => ?_⟩
  · exact (hall k (hlt he) e he).1 (by rw [hroot]; rfl)
  · exact ((hall k (hlt he) e he).2 p hprev).1
  · obtain ⟨-, hbits, hmedian, hdrift⟩ := (hall k (hlt he) e he).2 p hprev
    exact ⟨hbits, hmedian, hdrift⟩

/-- The last block of the chain. -/
def gapTip : CBlockIndex := gapEntry 12 (7011, 503542388)

end MotaCoin
