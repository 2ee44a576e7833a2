import MotaCoin.Consistency
import MotaCoin.Kernel
import Mathlib.Algebra.BigOperators.Group.Finset.Basic
import Mathlib.Algebra.Order.Ring.Int

/-!
# The search for a stake kernel

`CheckStakeKernelHash` without `fCheck` tries the times of an interval from the last one down, and
goes on after a hit from the time that was hit. A time is tested with the weight of the time the search
stands at, which is earlier.

## Main definitions

* `StakeSearch`, `NodeState.searchFrom`, `NodeState.searchStakeKernelHash`: the search
* `NodeState.timesTried`: the times the search tries
* `NodeState.HitDistances`: how far ahead of where it stands the search hits

## Main results

* `searchStakeKernelHash_passes`: what is found passes the check
* `searchStakeKernelHash_exact`: when what is returned is a time of the interval with its hash
-/

namespace MotaCoin

/-- What the search has: whether it hit, and the two values it returns. -/
structure StakeSearch where
  fSuccess : Bool
  nTimeTx : Nat
  hashProofOfStake : Uint256
  deriving DecidableEq

namespace NodeState

variable (C : Crypto) (s : NodeState)

section Search

variable (hash : Nat → Uint256) (hit : Uint256 → Nat → Bool)

/-- The loop of the search: `hash` is the hash at a time, `hit` whether it meets the target with the
weight of a time. The number of rounds left is `nHashDrift - i`. -/
def searchFrom : Nat → StakeSearch → StakeSearch
  | 0, st => st
  | i + 1, st =>
    let nTryTime := (st.nTimeTx + (i + 1)) % 2 ^ 32
    if hit (hash nTryTime) st.nTimeTx then searchFrom i ⟨true, nTryTime, hash nTryTime⟩
    else searchFrom i { st with hashProofOfStake := hash nTryTime }

/-- The times that the search tries, if they fit in 32 bits. -/
def timesTried : Nat → Nat → List Nat
  | 0, _ => []
  | i + 1, nTimeTx =>
    let nTryTime := (nTimeTx + (i + 1)) % 2 ^ 32
    (nTimeTx + (i + 1)) ::
      timesTried i (if hit (hash nTryTime) nTimeTx then nTryTime else nTimeTx)

end Search

/-- The hash of a kernel at a time. -/
def kernelHash (nStakeModifier : Nat) (blockFrom : CBlock) (nTxPrevOffset : Nat)
    (txPrev : CTransaction) (prevout : COutPoint) (nTimeTx : Nat) : Uint256 :=
  C.stakeHash nStakeModifier blockFrom.nTime nTxPrevOffset txPrev.nTime prevout.n nTimeTx

/-- Whether a hash meets the target with the weight that the kernel has at a time. -/
def kernelHit (nBits : Nat) (txPrev : CTransaction) (txout : CTxOut) (hashProofOfStake : Uint256)
    (nTimeTx : Nat) : Bool :=
  stakeTargetHit hashProofOfStake (getWeight txPrev.nTime nTimeTx) txout.nValue (setCompact nBits)

/-- `CheckStakeKernelHash` without `fCheck`. -/
def searchStakeKernelHash (nBits : Nat) (blockFrom : CBlock) (nTxPrevOffset : Nat)
    (txPrev : CTransaction) (prevout : COutPoint) (nTimeTx nHashDrift : Nat)
    (hashProofOfStake : Uint256) : StakeSearch :=
  let st : StakeSearch := ⟨false, nTimeTx, hashProofOfStake⟩
  if nTimeTx < txPrev.nTime then st
  else if nTimeTx < (blockFrom.nTime + nStakeMinAge) % 2 ^ 32 then st
  else
    match s.getKernelStakeModifier (blockFrom.getHash C), txPrev.vout[prevout.n]? with
    | some nStakeModifier, some txout =>
      searchFrom (kernelHash C nStakeModifier blockFrom nTxPrevOffset txPrev prevout)
        (kernelHit nBits txPrev txout) nHashDrift st
    | _, _ => st

/-! ## What is found passes the check -/

theorem getWeight_mono (nIntervalBeginning : Int) {nIntervalEnd nIntervalEnd' : Int}
    (h : nIntervalEnd ≤ nIntervalEnd') :
    getWeight nIntervalBeginning nIntervalEnd ≤ getWeight nIntervalBeginning nIntervalEnd' := by
  rw [getWeight, getWeight]
  omega

/-- A hash that meets a target meets it with a larger weight. -/
theorem stakeTargetHit_mono {hashProofOfStake : Uint256} {nTimeWeight nTimeWeight' nValueIn : Int}
    {bnTargetPerCoinDay : Int} (hvalue : 0 ≤ nValueIn) (htarget : 0 ≤ bnTargetPerCoinDay)
    (hweight : nTimeWeight ≤ nTimeWeight')
    (h : stakeTargetHit hashProofOfStake nTimeWeight nValueIn bnTargetPerCoinDay = true) :
    stakeTargetHit hashProofOfStake nTimeWeight' nValueIn bnTargetPerCoinDay = true := by
  rw [stakeTargetHit, decide_eq_true_eq] at h ⊢
  have hcoins : nValueIn * nTimeWeight ≤ nValueIn * nTimeWeight' :=
    mul_le_mul_of_nonneg_left hweight hvalue
  have hdays : ((nValueIn * nTimeWeight).tdiv COIN).tdiv (24 * 60 * 60) ≤
      ((nValueIn * nTimeWeight').tdiv COIN).tdiv (24 * 60 * 60) :=
    Int.tdiv_le_tdiv (by decide) (Int.tdiv_le_tdiv (by decide) hcoins)
  exact h.trans_le (mul_le_mul_of_nonneg_right hdays htarget)

section Search

variable {hash : Nat → Uint256} {hit : Uint256 → Nat → Bool}

/-- **A search that starts from a hit, or hits, ends with one**: its last hit is one at the time it
stands at. Where no time wraps, the times only grow. -/
theorem searchFrom_hits (hmono : ∀ h {b b' : Nat}, b ≤ b' → hit h b = true → hit h b' = true) {t : Nat}
    {i : Nat} :
    ∀ {st : StakeSearch}, (∀ x ∈ timesTried hash hit i st.nTimeTx, x < 2 ^ 32) → t ≤ st.nTimeTx →
      (st.fSuccess = true → hit (hash st.nTimeTx) st.nTimeTx = true) →
      (searchFrom hash hit i st).fSuccess = true →
      t ≤ (searchFrom hash hit i st).nTimeTx ∧
        hit (hash (searchFrom hash hit i st).nTimeTx) (searchFrom hash hit i st).nTimeTx = true := by
  induction i with
  | zero => exact fun _ hle hst hsuccess => ⟨hle, hst hsuccess⟩
  | succ i ih =>
    intro st hfit hle hst hsuccess
    have hlt : st.nTimeTx + (i + 1) < 2 ^ 32 := hfit _ List.mem_cons_self
    have hrest := fun x hx => hfit x (List.mem_cons_of_mem _ hx)
    rw [searchFrom, Nat.mod_eq_of_lt hlt] at hsuccess ⊢
    rw [Nat.mod_eq_of_lt hlt] at hrest
    split at hsuccess
    · next hhit =>
      rw [if_pos hhit] at hrest
      rw [if_pos hhit]
      refine ih hrest (by dsimp only; omega) (fun _ => ?_) hsuccess
      exact hmono _ (Nat.le_add_right _ _) hhit
    · next hmiss =>
      rw [if_neg hmiss] at hrest
      rw [if_neg hmiss]
      exact ih hrest hle hst hsuccess

end Search

/-- The times that a call of the search tries, if they fit in 32 bits. -/
def kernelTimesTried (nBits : Nat) (blockFrom : CBlock) (nTxPrevOffset : Nat) (txPrev : CTransaction)
    (prevout : COutPoint) (nTimeTx nHashDrift : Nat) : List Nat :=
  match s.getKernelStakeModifier (blockFrom.getHash C), txPrev.vout[prevout.n]? with
  | some nStakeModifier, some txout =>
    timesTried (kernelHash C nStakeModifier blockFrom nTxPrevOffset txPrev prevout)
      (kernelHit nBits txPrev txout) nHashDrift nTimeTx
  | _, _ => []

variable {C s} {nBits : Nat} {blockFrom : CBlock} {nTxPrevOffset : Nat} {txPrev : CTransaction}
  {prevout : COutPoint} {nTimeTx nHashDrift : Nat} {hashProofOfStake : Uint256}

/-- A search that is not refused is the loop, for a modifier and an output. -/
theorem searchStakeKernelHash_cases
    (h : (s.searchStakeKernelHash C nBits blockFrom nTxPrevOffset txPrev prevout nTimeTx nHashDrift
      hashProofOfStake).fSuccess = true) :
    ¬nTimeTx < txPrev.nTime ∧ ¬nTimeTx < (blockFrom.nTime + nStakeMinAge) % 2 ^ 32 ∧
      ∃ nStakeModifier txout, s.getKernelStakeModifier (blockFrom.getHash C) = some nStakeModifier ∧
        txPrev.vout[prevout.n]? = some txout := by
  rw [searchStakeKernelHash] at h
  split at h
  · cases h
  · next hold =>
    split at h
    · cases h
    · next hage =>
      split at h
      · next nStakeModifier txout hmodifier hout =>
        exact ⟨hold, hage, nStakeModifier, txout, hmodifier, hout⟩
      · cases h

/-- Where it is not refused, the search is the loop. -/
theorem searchStakeKernelHash_eq (hold : ¬nTimeTx < txPrev.nTime)
    (hage : ¬nTimeTx < (blockFrom.nTime + nStakeMinAge) % 2 ^ 32) {nStakeModifier : Nat}
    {txout : CTxOut} (hmodifier : s.getKernelStakeModifier (blockFrom.getHash C) = some nStakeModifier)
    (hout : txPrev.vout[prevout.n]? = some txout) :
    s.searchStakeKernelHash C nBits blockFrom nTxPrevOffset txPrev prevout nTimeTx nHashDrift
        hashProofOfStake =
      searchFrom (kernelHash C nStakeModifier blockFrom nTxPrevOffset txPrev prevout)
        (kernelHit nBits txPrev txout) nHashDrift ⟨false, nTimeTx, hashProofOfStake⟩ := by
  rw [searchStakeKernelHash, if_neg hold, if_neg hage, hmodifier, hout]

/-- The check is the test of the hash at its time. -/
theorem checkStakeKernelHash_eq (hold : ¬nTimeTx < txPrev.nTime)
    (hage : ¬nTimeTx < (blockFrom.nTime + nStakeMinAge) % 2 ^ 32) {nStakeModifier : Nat}
    {txout : CTxOut} (hmodifier : s.getKernelStakeModifier (blockFrom.getHash C) = some nStakeModifier)
    (hout : txPrev.vout[prevout.n]? = some txout)
    (hhit : kernelHit nBits txPrev txout
      (kernelHash C nStakeModifier blockFrom nTxPrevOffset txPrev prevout nTimeTx) nTimeTx = true) :
    s.checkStakeKernelHash C nBits blockFrom nTxPrevOffset txPrev prevout nTimeTx =
      some (kernelHash C nStakeModifier blockFrom nTxPrevOffset txPrev prevout nTimeTx) := by
  rw [kernelHit, kernelHash] at hhit
  rw [checkStakeKernelHash, if_neg hold, if_neg hage, hmodifier, hout]
  dsimp only
  rw [if_pos hhit, kernelHash]

/-- A coinstake that spends a kernel, signed, with the transaction of the kernel and its block on
disk. -/
structure StakesKernel (C : Crypto) (env : Env) (s : NodeState) (blockFrom : CBlock)
    (nTxPrevOffset : Nat) (txPrev : CTransaction) (prevout : COutPoint) (tx : CTransaction) : Prop where
  isCoinStake : tx.isCoinStake = true
  spends : tx.vin.head?.map CTxIn.prevout = some prevout
  signed : C.verifySignature txPrev tx 0 = true
  onDisk : ∃ txindex txout,
    CTransaction.readFromDisk (s.sources env) prevout = some (txindex, txPrev, txout) ∧
      s.readBlockAt env txindex.pos.nFile txindex.pos.nBlockPos = some blockFrom ∧
        txindex.pos.nTxPos - txindex.pos.nBlockPos = nTxPrevOffset

/-- `CheckProofOfStake` is the check of the kernel that the coinstake spends. -/
theorem StakesKernel.checkProofOfStake_eq {env : Env} {tx : CTransaction}
    (h : StakesKernel C env s blockFrom nTxPrevOffset txPrev prevout tx) :
    s.checkProofOfStake C env tx nBits =
      s.checkStakeKernelHash C nBits blockFrom nTxPrevOffset txPrev prevout tx.nTime := by
  obtain ⟨txin, hhead, hprevout⟩ := Option.map_eq_some_iff.1 h.spends
  obtain ⟨vin, hvin⟩ : ∃ vin, tx.vin = txin :: vin := List.head?_eq_some_iff.1 hhead
  obtain ⟨txindex, txout, hread, hblock, hoffset⟩ := h.onDisk
  rw [checkProofOfStake, h.isCoinStake, hvin]
  dsimp only
  rw [hprevout, hread, Bool.not_true, if_neg Bool.false_ne_true]
  dsimp only
  rw [h.signed, hblock, hoffset]
  rfl

/-- **What the search finds passes the check**, and the coinstake made of it `CheckProofOfStake`, where
the value and the target are not negative and no time that is tried wraps. -/
theorem searchStakeKernelHash_passes
    (hvalue : ∀ txout, txPrev.vout[prevout.n]? = some txout → 0 ≤ txout.nValue)
    (htarget : 0 ≤ setCompact nBits)
    (hfit : ∀ x ∈ s.kernelTimesTried C nBits blockFrom nTxPrevOffset txPrev prevout nTimeTx nHashDrift,
      x < 2 ^ 32)
    (hfound : (s.searchStakeKernelHash C nBits blockFrom nTxPrevOffset txPrev prevout nTimeTx nHashDrift
      hashProofOfStake).fSuccess = true) :
    (s.checkStakeKernelHash C nBits blockFrom nTxPrevOffset txPrev prevout
        (s.searchStakeKernelHash C nBits blockFrom nTxPrevOffset txPrev prevout nTimeTx nHashDrift
          hashProofOfStake).nTimeTx).isSome = true ∧
      ∀ env tx, StakesKernel C env s blockFrom nTxPrevOffset txPrev prevout tx →
        tx.nTime = (s.searchStakeKernelHash C nBits blockFrom nTxPrevOffset txPrev prevout nTimeTx
          nHashDrift hashProofOfStake).nTimeTx →
        (s.checkProofOfStake C env tx nBits).isSome = true := by
  obtain ⟨hold, hage, nStakeModifier, txout, hmodifier, hout⟩ := searchStakeKernelHash_cases hfound
  rw [kernelTimesTried, hmodifier, hout] at hfit
  rw [searchStakeKernelHash_eq hold hage hmodifier hout] at hfound ⊢
  set r := searchFrom _ _ nHashDrift _ with hr
  have hmono : ∀ h {b b' : Nat}, b ≤ b' → kernelHit nBits txPrev txout h b = true →
      kernelHit nBits txPrev txout h b' = true := by
    intro h b b' hle hhit
    exact stakeTargetHit_mono (hvalue txout hout) htarget
      (getWeight_mono _ (Int.ofNat_le.2 hle)) hhit
  obtain ⟨hle, hhit⟩ := searchFrom_hits hmono (t := nTimeTx) hfit le_rfl (fun hfalse => absurd hfalse Bool.false_ne_true)
    hfound
  rw [← hr] at hle hhit
  have hcheck := checkStakeKernelHash_eq (fun hlt => hold (hle.trans_lt hlt))
    (fun hlt => hage (hle.trans_lt hlt)) hmodifier hout hhit
  refine ⟨by rw [hcheck]; rfl, fun env tx hstakes htime => ?_⟩
  rw [hstakes.checkProofOfStake_eq, htime, hcheck]
  rfl

/-! ## What is returned -/

section Search

variable (hash : Nat → Uint256) (hit : Uint256 → Nat → Bool)

/-- How far ahead the search hits, each time from where it stands by then: the start and the larger of
the distances before it. -/
def HitDistances (t d : Nat) (S : Finset Nat) : Prop :=
  ∀ i, i ∈ S ↔ 1 ≤ i ∧ i ≤ d ∧
    hit (hash (((t + ∑ j ∈ S with i < j, j) % 2 ^ 32 + i) % 2 ^ 32))
      ((t + ∑ j ∈ S with i < j, j) % 2 ^ 32) = true

theorem sum_above (S : Finset Nat) (i : Nat) :
    ∑ j ∈ S with i < j, j = (if i + 1 ∈ S then i + 1 else 0) + ∑ j ∈ S with i + 1 < j, j := by
  split
  · next hmem =>
    have hfilter : (S.filter fun j => i < j) = insert (i + 1) (S.filter fun j => i + 1 < j) := by
      ext j
      rw [Finset.mem_insert, Finset.mem_filter, Finset.mem_filter]
      constructor
      · rintro ⟨hj, hlt⟩
        rcases Nat.eq_or_lt_of_le hlt with rfl | hlt
        · exact Or.inl rfl
        · exact Or.inr ⟨hj, hlt⟩
      · rintro (rfl | ⟨hj, hlt⟩)
        · exact ⟨hmem, Nat.lt_succ_self i⟩
        · exact ⟨hj, Nat.lt_of_succ_lt hlt⟩
    rw [hfilter, Finset.sum_insert fun h => absurd (Finset.mem_filter.1 h).2 (lt_irrefl _)]
  · next hnot =>
    rw [zero_add]
    congr 1
    ext j
    rw [Finset.mem_filter, Finset.mem_filter]
    refine and_congr_right fun hj => ⟨fun hlt => ?_, Nat.lt_of_succ_lt⟩
    exact Nat.lt_of_le_of_ne hlt fun heq => hnot (heq ▸ hj)

/-- A smaller distance does not change the sum of those above another one. -/
theorem sum_above_insert {S : Finset Nat} {e i : Nat} (h : e ≤ i) :
    ∑ j ∈ insert e S with i < j, j = ∑ j ∈ S with i < j, j := by
  rw [Finset.filter_insert, if_neg (not_lt.2 h)]

/-- The distances are determined from the largest down. -/
theorem exists_hitDistances (t d : Nat) : ∃ S, HitDistances hash hit t d S := by
  have hstep (k : Nat) (hk : k ≤ d) : ∃ S : Finset Nat, ∀ i, i ∈ S ↔ d - k < i ∧ i ≤ d ∧
      hit (hash (((t + ∑ j ∈ S with i < j, j) % 2 ^ 32 + i) % 2 ^ 32))
        ((t + ∑ j ∈ S with i < j, j) % 2 ^ 32) = true := by
    induction k with
    | zero => exact ⟨∅, fun i => ⟨fun h => absurd h (Finset.notMem_empty i), fun h => by omega⟩⟩
    | succ k ih =>
      obtain ⟨S, hS⟩ := ih (by omega)
      have hnew : d - k ∉ S := fun hmem => absurd ((hS (d - k)).1 hmem).1 (lt_irrefl _)
      by_cases hhit : hit (hash (((t + ∑ j ∈ S with d - k < j, j) % 2 ^ 32 + (d - k)) % 2 ^ 32))
        ((t + ∑ j ∈ S with d - k < j, j) % 2 ^ 32) = true
      · refine ⟨insert (d - k) S, fun i => ?_⟩
        rw [Finset.mem_insert]
        constructor
        · rintro (rfl | hi)
          · rw [sum_above_insert le_rfl]
            exact ⟨by omega, by omega, hhit⟩
          · obtain ⟨hlt, hle, hi⟩ := (hS i).1 hi
            rw [sum_above_insert hlt.le]
            exact ⟨by omega, hle, hi⟩
        · rintro ⟨hlt, hle, hi⟩
          rw [sum_above_insert (by omega : d - k ≤ i)] at hi
          rcases Nat.eq_or_lt_of_le (by omega : d - k ≤ i) with heq | hlt
          · exact Or.inl heq.symm
          · exact Or.inr ((hS i).2 ⟨hlt, hle, hi⟩)
      · refine ⟨S, fun i => ⟨fun hi => ?_, fun ⟨hlt, hle, hi⟩ => ?_⟩⟩
        · obtain ⟨hlt, hle, hi⟩ := (hS i).1 hi
          exact ⟨by omega, hle, hi⟩
        · rcases Nat.eq_or_lt_of_le (by omega : d - k ≤ i) with rfl | hlt
          · exact absurd hi hhit
          · exact (hS i).2 ⟨hlt, hle, hi⟩
  obtain ⟨S, hS⟩ := hstep d le_rfl
  refine ⟨S, fun i => ?_⟩
  rw [hS, Nat.sub_self, Nat.lt_iff_add_one_le, zero_add]

variable {hash hit}

/-- **Where the search ends**: it moves by the distances at which it hits, and has the hash of the last
time it tried. -/
theorem searchFrom_eq {t d : Nat} {S : Finset Nat} (hS : HitDistances hash hit t d S) {i : Nat} :
    ∀ {st : StakeSearch}, i ≤ d → st.nTimeTx = (t + ∑ j ∈ S with i < j, j) % 2 ^ 32 →
      (st.fSuccess = true ↔ ∃ j ∈ S, i < j) →
      (searchFrom hash hit i st).nTimeTx = (t + ∑ j ∈ S, j) % 2 ^ 32 ∧
        ((searchFrom hash hit i st).fSuccess = true ↔ S.Nonempty) ∧
          (0 < i → (searchFrom hash hit i st).hashProofOfStake =
            hash (((t + ∑ j ∈ S with 1 < j, j) % 2 ^ 32 + 1) % 2 ^ 32)) := by
  have hpos (j : Nat) (hj : j ∈ S) : 0 < j := ((hS j).1 hj).1
  induction i with
  | zero =>
    intro st _ htime hsuccess
    have hall : (S.filter fun j => 0 < j) = S := Finset.filter_true_of_mem hpos
    refine ⟨?_, ?_, nofun⟩
    · rw [searchFrom, htime, hall]
    · rw [searchFrom, hsuccess]
      exact ⟨fun ⟨j, hj, _⟩ => ⟨j, hj⟩, fun ⟨j, hj⟩ => ⟨j, hj, hpos j hj⟩⟩
  | succ i ih =>
    intro st hle htime hsuccess
    have hhit : i + 1 ∈ S ↔ hit (hash ((st.nTimeTx + (i + 1)) % 2 ^ 32)) st.nTimeTx = true := by
      rw [hS, htime]
      exact ⟨fun h => h.2.2, fun h => ⟨by omega, hle, h⟩⟩
    have habove := sum_above S i
    rw [searchFrom]
    by_cases hmem : i + 1 ∈ S
    · rw [if_pos hmem] at habove
      rw [if_pos (hhit.1 hmem)]
      have htime' : (st.nTimeTx + (i + 1)) % 2 ^ 32 = (t + ∑ j ∈ S with i < j, j) % 2 ^ 32 := by
        rw [htime, habove]
        omega
      obtain ⟨hend, hfound, hrest⟩ := @ih ⟨true, _, hash ((st.nTimeTx + (i + 1)) % 2 ^ 32)⟩
        (by omega) htime' ⟨fun _ => ⟨i + 1, hmem, Nat.lt_succ_self i⟩, fun _ => rfl⟩
      refine ⟨hend, hfound, fun _ => ?_⟩
      rcases Nat.eq_zero_or_pos i with rfl | hi
      · rw [searchFrom, htime]
      · exact hrest hi
    · rw [if_neg hmem, zero_add] at habove
      rw [if_neg fun h => hmem (hhit.2 h)]
      have hmore : (∃ j ∈ S, i + 1 < j) ↔ ∃ j ∈ S, i < j := by
        refine ⟨fun ⟨j, hj, hlt⟩ => ⟨j, hj, Nat.lt_of_succ_lt hlt⟩, fun ⟨j, hj, hlt⟩ => ⟨j, hj, ?_⟩⟩
        exact Nat.lt_of_le_of_ne hlt fun heq => hmem (heq ▸ hj)
      obtain ⟨hend, hfound, hrest⟩ := @ih
        { st with hashProofOfStake := hash ((st.nTimeTx + (i + 1)) % 2 ^ 32) }
        (by omega) (by rw [habove]; exact htime) (hsuccess.trans hmore)
      refine ⟨hend, hfound, fun _ => ?_⟩
      rcases Nat.eq_zero_or_pos i with rfl | hi
      · rw [searchFrom, htime]
      · exact hrest hi

/-- No distance is above the interval. -/
theorem HitDistances.none_above {t d : Nat} {S : Finset Nat} (hS : HitDistances hash hit t d S) :
    false = true ↔ ∃ j ∈ S, d < j :=
  ⟨nofun, fun ⟨j, hj, hlt⟩ => absurd ((hS j).1 hj).2.1 (not_le.2 hlt)⟩

theorem HitDistances.start {t d : Nat} {S : Finset Nat} (hS : HitDistances hash hit t d S)
    (ht : t < 2 ^ 32) : t = (t + ∑ j ∈ S with d < j, j) % 2 ^ 32 := by
  have hnone : (S.filter fun j => d < j) = ∅ :=
    Finset.filter_false_of_mem fun j hj => not_lt.2 ((hS j).1 hj).2.1
  rw [hnone, Finset.sum_empty, add_zero, Nat.mod_eq_of_lt ht]

variable (hash)

/-- The distances add up, as a word, to a time within the interval, and the last time tried is a hit or
has the hash of one. -/
def StaysExact (t d : Nat) (S : Finset Nat) : Prop :=
  0 < (∑ j ∈ S, j) % 2 ^ 32 ∧ (∑ j ∈ S, j) % 2 ^ 32 ≤ d ∧ t + (∑ j ∈ S, j) % 2 ^ 32 < 2 ^ 32 ∧
    (1 ∈ S ∨ hash ((t + ∑ j ∈ S, j + 1) % 2 ^ 32) = hash ((t + ∑ j ∈ S, j) % 2 ^ 32))

variable {hash}

/-- When a search that hits returns a time of the interval with its hash. -/
theorem staysExact_iff {t d : Nat} {S : Finset Nat} (ht : t < 2 ^ 32) (hS : HitDistances hash hit t d S)
    {h' : Uint256} (hne : S.Nonempty)
    (hlast : 0 < d → h' = hash (((t + ∑ j ∈ S with 1 < j, j) % 2 ^ 32 + 1) % 2 ^ 32)) :
    (t < (t + ∑ j ∈ S, j) % 2 ^ 32 ∧ (t + ∑ j ∈ S, j) % 2 ^ 32 ≤ t + d ∧
        h' = hash ((t + ∑ j ∈ S, j) % 2 ^ 32)) ↔ StaysExact hash t d S := by
  obtain ⟨i, hi⟩ := hne
  have hd : 0 < d := by
    have hbounds := (hS i).1 hi
    omega
  have hall : (S.filter fun j => 0 < j) = S :=
    Finset.filter_true_of_mem fun j hj => ((hS j).1 hj).1
  have habove := sum_above S 0
  rw [hall, zero_add] at habove
  have hhash : h' = hash ((t + ∑ j ∈ S, j) % 2 ^ 32) ↔
      1 ∈ S ∨ hash ((t + ∑ j ∈ S, j + 1) % 2 ^ 32) = hash ((t + ∑ j ∈ S, j) % 2 ^ 32) := by
    rw [hlast hd]
    by_cases hone : 1 ∈ S
    · rw [if_pos hone] at habove
      refine iff_of_true ?_ (Or.inl hone)
      congr 1
      omega
    · rw [if_neg hone, zero_add] at habove
      rw [← habove, or_iff_right hone, Nat.mod_add_mod]
  rw [hhash, StaysExact, ← and_assoc, ← and_assoc, ← and_assoc]
  refine and_congr_left fun _ => ?_
  omega

end Search

/-- **What the search returns** is a time of the interval with its hash exactly if it is refused, or
hits nowhere, or the distances at which it hits add up to one and the last time tried is the one
returned. -/
theorem searchStakeKernelHash_exact (htime : nTimeTx < 2 ^ 32) :
    ((s.searchStakeKernelHash C nBits blockFrom nTxPrevOffset txPrev prevout nTimeTx nHashDrift
        hashProofOfStake).fSuccess = true →
      nTimeTx < (s.searchStakeKernelHash C nBits blockFrom nTxPrevOffset txPrev prevout nTimeTx
          nHashDrift hashProofOfStake).nTimeTx ∧
        (s.searchStakeKernelHash C nBits blockFrom nTxPrevOffset txPrev prevout nTimeTx nHashDrift
          hashProofOfStake).nTimeTx ≤ nTimeTx + nHashDrift ∧
        ∀ nStakeModifier, s.getKernelStakeModifier (blockFrom.getHash C) = some nStakeModifier →
          (s.searchStakeKernelHash C nBits blockFrom nTxPrevOffset txPrev prevout nTimeTx nHashDrift
            hashProofOfStake).hashProofOfStake =
          kernelHash C nStakeModifier blockFrom nTxPrevOffset txPrev prevout
            (s.searchStakeKernelHash C nBits blockFrom nTxPrevOffset txPrev prevout nTimeTx nHashDrift
              hashProofOfStake).nTimeTx) ↔
      nTimeTx < txPrev.nTime ∨ nTimeTx < (blockFrom.nTime + nStakeMinAge) % 2 ^ 32 ∨
        ∀ nStakeModifier txout, s.getKernelStakeModifier (blockFrom.getHash C) = some nStakeModifier →
          txPrev.vout[prevout.n]? = some txout →
          ∃ S, HitDistances (kernelHash C nStakeModifier blockFrom nTxPrevOffset txPrev prevout)
              (kernelHit nBits txPrev txout) nTimeTx nHashDrift S ∧
            (S = ∅ ∨ StaysExact (kernelHash C nStakeModifier blockFrom nTxPrevOffset txPrev prevout)
              nTimeTx nHashDrift S) := by
  by_cases hrefused : nTimeTx < txPrev.nTime ∨ nTimeTx < (blockFrom.nTime + nStakeMinAge) % 2 ^ 32
  · refine iff_of_true (fun hfound => ?_) (or_assoc.1 (Or.inl hrefused))
    obtain ⟨hold, hage, -⟩ := searchStakeKernelHash_cases hfound
    exact absurd hrefused (not_or.2 ⟨hold, hage⟩)
  · obtain ⟨hold, hage⟩ := not_or.1 hrefused
    rw [or_iff_right hold, or_iff_right hage]
    cases hmodifier : s.getKernelStakeModifier (blockFrom.getHash C) with
    | none =>
      refine iff_of_true (fun hfound => ?_) nofun
      obtain ⟨-, -, m, txout, hsome, -⟩ := searchStakeKernelHash_cases hfound
      rw [hmodifier] at hsome
      cases hsome
    | some nStakeModifier =>
      cases hout : txPrev.vout[prevout.n]? with
      | none =>
        refine iff_of_true (fun hfound => ?_) fun _ _ _ => nofun
        obtain ⟨-, -, m, txout, -, hsome⟩ := searchStakeKernelHash_cases hfound
        rw [hout] at hsome
        cases hsome
      | some txout =>
        rw [searchStakeKernelHash_eq hold hage hmodifier hout]
        set hash := kernelHash C nStakeModifier blockFrom nTxPrevOffset txPrev prevout
        set hit := kernelHit nBits txPrev txout
        -- The loop starts with all distances before it.
        have hend {S : Finset Nat} (hS : HitDistances hash hit nTimeTx nHashDrift S) :=
          @searchFrom_eq hash hit nTimeTx nHashDrift S hS nHashDrift
            ⟨false, nTimeTx, hashProofOfStake⟩ le_rfl (hS.start htime) (hS.none_above)
        constructor
        · rintro hexact m txout' hm hout'
          cases hm
          cases hout'
          obtain ⟨S, hS⟩ := exists_hitDistances hash hit nTimeTx nHashDrift
          refine ⟨S, hS, ?_⟩
          rcases S.eq_empty_or_nonempty with rfl | hne
          · exact Or.inl rfl
          · obtain ⟨hr, hfound, hlast⟩ := hend hS
            obtain ⟨hlt, hle, hhash⟩ := hexact (hfound.2 hne)
            rw [hr] at hlt hle hhash
            exact Or.inr ((staysExact_iff htime hS hne hlast).1 ⟨hlt, hle, hhash _ rfl⟩)
        · intro hexact hsuccess
          obtain ⟨S, hS, hcases⟩ := hexact nStakeModifier txout rfl rfl
          obtain ⟨hr, hfound, hlast⟩ := hend hS
          have hne := hfound.1 hsuccess
          obtain ⟨hlt, hle, hhash⟩ := (staysExact_iff htime hS hne hlast).2
            (hcases.resolve_left hne.ne_empty)
          rw [hr]
          refine ⟨hlt, hle, fun m hm => ?_⟩
          cases hm
          exact hhash

end NodeState

/-! ## A kernel that always hits -/

/-- The block of the kernel. -/
def kernelBlock : CBlock := sampleBlock 0 1 0 0

/-- The transaction of the kernel, worth a million coins. -/
def kernelTx : CTransaction := ⟨1, 1000, [], [⟨1000000 * COIN, []⟩], 0⟩

/-- Hashes with which every time hits. -/
noncomputable def kernelCrypto : Crypto := labelCrypto [kernelTx] [kernelBlock.getBlockHeader]

/-- The block of the kernel, and one after it with a modifier. -/
noncomputable def kernelNode : NodeState :=
  let entry := storedEntry kernelCrypto 0 ⟨kernelBlock, 0, 1⟩
  { storedNode kernelCrypto [] with
    mapBlockIndex := fun h =>
      if h = 1 then some { entry with pnext := some 2 }
      else if h = 2 then
        some { entry with hash := 2, nHeight := 1, nTime := 30000, nFlags := 4, nStakeModifier := 5 }
      else none
    nBestHeight := 1 }

/-- Two of two times hit. -/
theorem searchStakeKernelHash_passes_sample :
    (kernelNode.checkStakeKernelHash kernelCrypto 0x1e0fffff kernelBlock 81 kernelTx ⟨1, 0⟩
      (kernelNode.searchStakeKernelHash kernelCrypto 0x1e0fffff kernelBlock 81 kernelTx ⟨1, 0⟩ 88300 2
        0).nTimeTx).isSome = true := by
  refine (NodeState.searchStakeKernelHash_passes (fun txout hout => ?_) ?_ ?_ ?_).1
  · cases hout
    decide
  · decide
  · decide +kernel
  · decide +kernel

/-- With one time to try, it is returned. -/
theorem searchStakeKernelHash_exact_sample :
    88300 < (kernelNode.searchStakeKernelHash kernelCrypto 0x1e0fffff kernelBlock 81 kernelTx ⟨1, 0⟩
      88300 1 0).nTimeTx := by
  refine (NodeState.searchStakeKernelHash_exact (by decide)).2 (Or.inr (Or.inr ?_)) ?_ |>.1
  · intro nStakeModifier txout _ hout
    cases hout
    refine ⟨{1}, fun i => ?_, Or.inr ⟨by decide, by decide, by decide, Or.inl (by decide)⟩⟩
    rw [Finset.mem_singleton]
    constructor
    · rintro rfl
      refine ⟨le_rfl, le_rfl, ?_⟩
      change NodeState.kernelHit 0x1e0fffff kernelTx _ 0 _ = true
      decide
    · exact fun ⟨hle, hge, _⟩ => le_antisymm hge hle
  · decide +kernel

/-- With two times to try, both hit, and the second is tried ahead of the first: a time after the
interval is returned. -/
theorem not_searchStakeKernelHash_exact :
    (kernelNode.searchStakeKernelHash kernelCrypto 0x1e0fffff kernelBlock 81 kernelTx ⟨1, 0⟩ 88300 2
        0).fSuccess = true ∧
      ¬(kernelNode.searchStakeKernelHash kernelCrypto 0x1e0fffff kernelBlock 81 kernelTx ⟨1, 0⟩ 88300 2
        0).nTimeTx ≤ 88300 + 2 := by
  decide +kernel

end MotaCoin
