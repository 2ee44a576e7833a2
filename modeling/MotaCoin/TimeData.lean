import MotaCoin.NetAddr
import MotaCoin.Lib.SlidingWindow
import Mathlib.Data.Finset.Insert
import Mathlib.Data.List.Sort
import Mathlib.Algebra.Order.Group.Unbundled.Abs
import Mathlib.Algebra.Order.Group.Unbundled.Int

/-!
# Network time

The time samples of the peers go through a median filter with a window of 200 values, of which the
first is the initial one. The offset is set when the number of values is odd. With the 199th peer
the window is full, and has 200 values from then on: the offset that was set with the 198th stays.

## Main definitions

* `CMedianFilter`, with `input`, `median` and `size`
* `addTimeData`: `AddTimeData` on its static data
* `filterAfter`: the filter after a sequence of samples
* `FollowsPeers`: a condition on the samples

## Main results

* `vValues_filterAfter`: the filter holds the last values
* `run_spec`: the offset after any number of peers is that of an earlier window
* `time_offset_iff`: when the offset follows the peers
-/

namespace MotaCoin

open SlidingWindow

/-! ## The median filter -/

/-- `CMedianFilter`: the last values, as they came and in order. -/
structure CMedianFilter (T : Type) [LE T] [DecidableLE T] where
  vValues : List T
  vSorted : List T
  nSize : Nat
  sorted_eq : vSorted = vValues.insertionSort (· ≤ ·)
  ne_nil : vValues ≠ []

namespace CMedianFilter

variable {T : Type} [LE T] [DecidableLE T]

/-- `CMedianFilter(size, initial_value)`. -/
def new (size : Nat) (initialValue : T) : CMedianFilter T where
  vValues := [initialValue]
  vSorted := [initialValue]
  nSize := size
  sorted_eq := rfl
  ne_nil := List.cons_ne_nil _ _

variable (filter : CMedianFilter T)

/-- `input`. -/
def input (value : T) : CMedianFilter T :=
  let vValues := push filter.nSize filter.vValues value
  { filter with
    vValues := vValues
    vSorted := vValues.insertionSort (· ≤ ·)
    sorted_eq := rfl
    ne_nil := List.append_ne_nil_of_right_ne_nil _ (List.cons_ne_nil _ _) }

/-- `size`. -/
def size : Nat := filter.vValues.length

theorem length_vSorted : filter.vSorted.length = filter.size := by
  rw [filter.sorted_eq, List.length_insertionSort]
  rfl

theorem size_pos : 0 < filter.size := List.length_pos_of_ne_nil filter.ne_nil

/-- `median`. -/
def median [Add T] [Div T] [OfNat T 2] : T :=
  have hlen : filter.vSorted.length = filter.size := filter.length_vSorted
  have hpos : 0 < filter.size := filter.size_pos
  if filter.vSorted.length % 2 = 1 then
    filter.vSorted.get ⟨filter.vSorted.length / 2, by omega⟩
  else
    (filter.vSorted.get ⟨filter.vSorted.length / 2 - 1, by omega⟩ +
      filter.vSorted.get ⟨filter.vSorted.length / 2, by omega⟩) / 2

example : ([20, 30, 3, 7, 18, 0].scanl input (new 5 (15 : Int32))).map (fun f => f.median) =
    [15, 17, 20, 17, 15, 18, 7] := by decide +kernel

end CMedianFilter

/-- The filter after a sequence of samples. -/
def filterAfter (samples : List Int64) : CMedianFilter Int64 :=
  samples.foldl CMedianFilter.input (CMedianFilter.new 200 0)

/-! ## Adding time data -/

/-- `abs64`. -/
def abs64 (n : Int64) : Int64 := if 0 ≤ n then n else -n

/-- The static data of `AddTimeData`, and the warning. -/
structure TimeState where
  setKnown : Finset CNetAddr
  vTimeOffsets : CMedianFilter Int64
  nTimeOffset : Int64
  fDone : Bool
  strMiscWarning : String

/-- A call of `AddTimeData`, with what `GetTime` gives. -/
structure TimeCall where
  ip : CNetAddr
  nTime : Int64
  getTime : Int64

/-- The sample of a call. -/
def TimeCall.nOffsetSample (call : TimeCall) : Int64 := call.nTime - call.getTime

/-- The warning. -/
def clockWarning : String :=
  "Warning: Please check that your computer's date and time are correct! " ++
    "If your clock is wrong MotaCoin will not work properly."

/-- The state at the start. -/
def TimeState.init : TimeState where
  setKnown := ∅
  vTimeOffsets := CMedianFilter.new 200 0
  nTimeOffset := 0
  fDone := false
  strMiscWarning := ""

/-- `AddTimeData`. -/
def addTimeData (s : TimeState) (call : TimeCall) : TimeState :=
  if call.ip ∈ s.setKnown then s
  else
    let vTimeOffsets := s.vTimeOffsets.input call.nOffsetSample
    let s := { s with setKnown := insert call.ip s.setKnown, vTimeOffsets := vTimeOffsets }
    if 5 ≤ vTimeOffsets.size ∧ vTimeOffsets.size % 2 = 1 then
      let nMedian := vTimeOffsets.median
      if abs64 nMedian < 70 * 60 then { s with nTimeOffset := nMedian }
      else if s.fDone then { s with nTimeOffset := 0 }
      else
        let fMatch := vTimeOffsets.vSorted.any fun nOffset =>
          nOffset ≠ 0 && abs64 nOffset < 5 * 60
        if fMatch then { s with nTimeOffset := 0 }
        else { s with nTimeOffset := 0, fDone := true, strMiscWarning := clockWarning }
    else s

/-- The state after a sequence of calls. -/
def TimeState.run (calls : List TimeCall) : TimeState := calls.foldl addTimeData init

/-! ## The window -/

section Window

theorem filterAfter_concat (samples : List Int64) (nOffsetSample : Int64) :
    filterAfter (samples ++ [nOffsetSample]) = (filterAfter samples).input nOffsetSample :=
  List.foldl_concat ..

theorem nSize_filterAfter (samples : List Int64) : (filterAfter samples).nSize = 200 := by
  induction samples using List.reverseRecOn with
  | nil => rfl
  | append_singleton samples nOffsetSample ih =>
    rw [filterAfter_concat]
    exact ih

/-- **The filter holds the last values**, of which the initial one is the first. -/
theorem vValues_filterAfter (samples : List Int64) :
    (filterAfter samples).vValues = ((0 : Int64) :: samples).rtake 200 := by
  rw [← foldl_push (by decide)]
  induction samples using List.reverseRecOn with
  | nil => rfl
  | append_singleton samples nOffsetSample ih =>
    rw [filterAfter_concat, List.foldl_concat, ← ih, ← nSize_filterAfter samples]
    rfl

theorem size_filterAfter (samples : List Int64) :
    (filterAfter samples).size = min (samples.length + 1) 200 := by
  rw [CMedianFilter.size, vValues_filterAfter, length_rtake, List.length_cons]

end Window

/-! ## One call -/

section Call

variable (s : TimeState) (call : TimeCall)

/-- The offset for a median, as the code bounds it. -/
def boundedOffset (nMedian : Int64) : Int64 := if abs64 nMedian < 70 * 60 then nMedian else 0

/-- What a call of a new peer does. -/
theorem addTimeData_of_notMem (hnew : call.ip ∉ s.setKnown) :
    (addTimeData s call).setKnown = insert call.ip s.setKnown ∧
    (addTimeData s call).vTimeOffsets = s.vTimeOffsets.input call.nOffsetSample ∧
    (addTimeData s call).nTimeOffset =
      if 5 ≤ (s.vTimeOffsets.input call.nOffsetSample).size ∧
          (s.vTimeOffsets.input call.nOffsetSample).size % 2 = 1 then
        boundedOffset (s.vTimeOffsets.input call.nOffsetSample).median
      else s.nTimeOffset := by
  rw [addTimeData, if_neg hnew, boundedOffset]
  dsimp only
  by_cases hodd : 5 ≤ (s.vTimeOffsets.input call.nOffsetSample).size ∧
      (s.vTimeOffsets.input call.nOffsetSample).size % 2 = 1
  · rw [if_pos hodd, if_pos hodd]
    by_cases hnear : abs64 (s.vTimeOffsets.input call.nOffsetSample).median < 70 * 60
    · rw [if_pos hnear, if_pos hnear]
      exact ⟨rfl, rfl, rfl⟩
    · -- the warning changes neither
      rw [if_neg hnear, if_neg hnear]
      split_ifs <;> exact ⟨rfl, rfl, rfl⟩
  · rw [if_neg hodd, if_neg hodd]
    exact ⟨rfl, rfl, rfl⟩

end Call

/-! ## Any number of peers -/

section Run

/-- The number of samples after which the offset was last set. -/
def samplesUsed (nSamples : Nat) : Nat := min nSamples 198 / 2 * 2

variable {calls : List TimeCall}

theorem run_concat (calls : List TimeCall) (call : TimeCall) :
    TimeState.run (calls ++ [call]) = addTimeData (TimeState.run calls) call :=
  List.foldl_concat ..

/-- **The state after calls of distinct peers.** -/
theorem run_spec (hdistinct : (calls.map TimeCall.ip).Nodup) :
    (∀ ip, ip ∈ (TimeState.run calls).setKnown ↔ ip ∈ calls.map TimeCall.ip) ∧
    (TimeState.run calls).vTimeOffsets = filterAfter (calls.map TimeCall.nOffsetSample) ∧
    (TimeState.run calls).nTimeOffset =
      if 4 ≤ calls.length then
        boundedOffset (filterAfter
          ((calls.map TimeCall.nOffsetSample).take (samplesUsed calls.length))).median
      else 0 := by
  induction calls using List.reverseRecOn with
  | nil => exact ⟨fun ip => by simp [TimeState.run, TimeState.init], rfl, rfl⟩
  | append_singleton calls call ih =>
    rw [List.map_append, List.map_singleton, List.nodup_append_comm] at hdistinct
    obtain ⟨hnew, hdistinct⟩ := List.nodup_cons.mp hdistinct
    obtain ⟨hknown, hfilter, hoffset⟩ := ih hdistinct
    have hstep := addTimeData_of_notMem (TimeState.run calls) call fun hmem =>
      hnew ((hknown _).mp hmem)
    rw [hfilter, ← filterAfter_concat, size_filterAfter, hoffset] at hstep
    obtain ⟨hknown', hfilter', hoffset'⟩ := hstep
    rw [run_concat, List.map_append, List.map_append, List.map_singleton, List.map_singleton]
    refine ⟨fun ip => ?_, hfilter', ?_⟩
    · rw [hknown', Finset.mem_insert, hknown, List.mem_append, List.mem_singleton, or_comm]
    · rw [hoffset', List.length_append, List.length_append, List.length_map, List.length_singleton,
        List.length_singleton]
      by_cases hodd : 5 ≤ min (calls.length + 1 + 1) 200 ∧ min (calls.length + 1 + 1) 200 % 2 = 1
      · -- an odd number of values: the offset is set from all samples
        have hall : samplesUsed (calls.length + 1) = calls.length + 1 := by
          rw [samplesUsed]
          omega
        rw [if_pos hodd, if_pos (by omega), hall, List.take_of_length_le (by simp)]
      · -- an even number, or too few: it stays
        rw [if_neg hodd]
        by_cases hfour : 4 ≤ calls.length
        · have hsame : samplesUsed (calls.length + 1) = samplesUsed calls.length := by
            unfold samplesUsed
            omega
          have hle : samplesUsed calls.length ≤ (calls.map TimeCall.nOffsetSample).length := by
            rw [List.length_map, samplesUsed]
            omega
          rw [if_pos hfour, if_pos (by omega), hsame, List.take_append_of_le_length hle]
        · rw [if_neg hfour, if_neg (by omega)]

end Run

/-! ## When the offset follows the peers -/

section Follows

/-- A median that is near enough. -/
def clampedMedian (nMedian : Int64) : Int64 := if |nMedian.toInt| < 70 * 60 then nMedian else 0

/-- The median after the last sample that is used is not the least number, and after more than 199
samples it leads to the offset that the last median does, or the one before. -/
def FollowsPeers (samples : List Int64) : Prop :=
  let nMedian := (filterAfter (samples.take (samplesUsed samples.length))).median
  nMedian ≠ Int64.minValue ∧ (samples.length ≤ 199 ∨
    clampedMedian nMedian = clampedMedian (filterAfter samples).median ∨
    clampedMedian nMedian = clampedMedian (filterAfter samples.dropLast).median)

/-- The least number has no absolute value, and passes for a small one. -/
theorem abs64_lt_iff (n : Int64) :
    abs64 n < 70 * 60 ↔ |n.toInt| < 70 * 60 ∨ n = Int64.minValue := by
  have hle := n.le_toInt
  have hlt := n.toInt_lt
  have hzero : (0 : Int64).toInt = 0 := rfl
  have hbound : (70 * 60 : Int64).toInt = 70 * 60 := rfl
  rw [Int64.lt_iff_toInt_lt, hbound, ← Int64.toInt_inj, Int64.toInt_minValue, abs64]
  by_cases hsign : 0 ≤ n
  · rw [if_pos hsign]
    rw [Int64.le_iff_toInt_le, hzero] at hsign
    rw [abs_of_nonneg hsign]
    omega
  · rw [if_neg hsign, Int64.toInt_neg]
    rw [Int64.le_iff_toInt_le, hzero] at hsign
    rw [abs_of_neg (Int.not_le.mp hsign)]
    by_cases hmin : n.toInt = -2 ^ 63
    · rw [hmin]
      decide
    · rw [Int.bmod_eq_of_le (by omega) (by omega)]
      omega

theorem boundedOffset_minValue : boundedOffset Int64.minValue = Int64.minValue := rfl

theorem boundedOffset_eq {nMedian : Int64} (h : nMedian ≠ Int64.minValue) :
    boundedOffset nMedian = clampedMedian nMedian := by
  rw [boundedOffset, clampedMedian]
  by_cases hnear : |nMedian.toInt| < 70 * 60
  · rw [if_pos hnear, if_pos ((abs64_lt_iff nMedian).mpr (Or.inl hnear))]
  · rw [if_neg hnear, if_neg fun hlt => ((abs64_lt_iff nMedian).mp hlt).elim hnear h]

theorem clampedMedian_ne_minValue (nMedian : Int64) : clampedMedian nMedian ≠ Int64.minValue := by
  intro heq
  rw [clampedMedian] at heq
  split_ifs at heq with hnear
  · rw [heq] at hnear
    exact absurd hnear (by decide)
  · exact absurd heq (by decide)

/-- **When network time follows the peers**: after calls of five distinct peers or more, the offset
is the clamped median of the window after the last sample, or the last but one, exactly for such
samples. -/
theorem time_offset_iff (calls : List TimeCall) (hdistinct : (calls.map TimeCall.ip).Nodup)
    (hfive : 5 ≤ calls.length) :
    ((TimeState.run calls).nTimeOffset =
        clampedMedian (filterAfter (calls.map TimeCall.nOffsetSample)).median ∨
      (TimeState.run calls).nTimeOffset =
        clampedMedian (filterAfter (calls.map TimeCall.nOffsetSample).dropLast).median) ↔
      FollowsPeers (calls.map TimeCall.nOffsetSample) := by
  obtain ⟨-, -, hoffset⟩ := run_spec hdistinct
  rw [if_pos (by omega)] at hoffset
  have hlen : (calls.map TimeCall.nOffsetSample).length = calls.length := List.length_map ..
  rw [hoffset, FollowsPeers, hlen]
  generalize calls.map TimeCall.nOffsetSample = samples at hlen
  by_cases hmin : (filterAfter (samples.take (samplesUsed calls.length))).median = Int64.minValue
  · rw [hmin, boundedOffset_minValue]
    constructor
    · rintro (heq | heq)
      · exact absurd heq.symm (clampedMedian_ne_minValue _)
      · exact absurd heq.symm (clampedMedian_ne_minValue _)
    · exact fun hfollows => absurd rfl hfollows.1
  · rw [boundedOffset_eq hmin, and_iff_right hmin]
    constructor
    · exact Or.inr
    · rintro (hfew | hsame)
      · -- the window that was used is one of the two
        by_cases hlast : samplesUsed calls.length = calls.length
        · left
          rw [List.take_of_length_le (by omega)]
        · right
          have hone : samplesUsed calls.length = samples.length - 1 := by
            rw [samplesUsed] at hlast ⊢
            omega
          rw [hone, List.dropLast_eq_take]
      · exact hsame

/-- A peer of the samples. -/
def samplePeer (n : Nat) : CNetAddr := ⟨List.replicate 15 1 ++ [UInt8.ofNat n], rfl⟩

theorem nodup_samplePeers {n : Nat} (hn : n ≤ 256) : ((List.range n).map samplePeer).Nodup := by
  refine List.Nodup.map_on (fun i hi j hj heq => ?_) List.nodup_range
  rw [List.mem_range] at hi hj
  have hbyte : UInt8.ofNat i = UInt8.ofNat j :=
    Option.some.inj (congrArg (fun addr : CNetAddr => addr.ip[15]?) heq)
  have hnat := congrArg UInt8.toNat hbyte
  rw [UInt8.toNat_ofNat', UInt8.toNat_ofNat'] at hnat
  omega

/-- Calls of distinct peers with these samples. -/
def sampleCalls (n : Nat) (offset : Nat → Int64) : List TimeCall :=
  (List.range n).map fun i => ⟨samplePeer i, offset i, 0⟩

theorem nodup_sampleCalls {n : Nat} (hn : n ≤ 256) (offset : Nat → Int64) :
    ((sampleCalls n offset).map TimeCall.ip).Nodup := by
  rw [sampleCalls, List.map_map]
  exact nodup_samplePeers hn

/-- Five peers that are a minute ahead: the offset is a minute. -/
theorem time_offset_five :
    (TimeState.run (sampleCalls 5 fun _ => 60)).nTimeOffset = clampedMedian
        (filterAfter ((sampleCalls 5 fun _ => 60).map TimeCall.nOffsetSample)).median ∨
      (TimeState.run (sampleCalls 5 fun _ => 60)).nTimeOffset = clampedMedian
        (filterAfter ((sampleCalls 5 fun _ => 60).map TimeCall.nOffsetSample).dropLast).median :=
  (time_offset_iff (sampleCalls 5 fun _ => 60) (nodup_sampleCalls (by decide) _) (by decide)).mpr
    ⟨by decide +kernel, Or.inl (by decide)⟩

/-- Peers of which the first 99 agree, and 101 later ones are a minute ahead. -/
def lateCalls : List TimeCall := sampleCalls 200 fun i => if i < 99 then 0 else 60

/-- After 200 of these peers the median is a minute, and half a minute before: the offset is still
that of the window after the 198th. -/
theorem time_offset_twoHundred : ¬ ∀ calls : List TimeCall, (calls.map TimeCall.ip).Nodup →
    5 ≤ calls.length →
      (TimeState.run calls).nTimeOffset =
          clampedMedian (filterAfter (calls.map TimeCall.nOffsetSample)).median ∨
        (TimeState.run calls).nTimeOffset =
          clampedMedian (filterAfter (calls.map TimeCall.nOffsetSample).dropLast).median := by
  intro hall
  have hnodup : (lateCalls.map TimeCall.ip).Nodup := nodup_sampleCalls (by decide) _
  obtain ⟨-, -, hoffset⟩ := run_spec hnodup
  have hrun : (TimeState.run lateCalls).nTimeOffset = 0 := by
    rw [hoffset]
    decide +kernel
  have hlast : clampedMedian (filterAfter (lateCalls.map TimeCall.nOffsetSample)).median = 60 := by
    decide +kernel
  have hbefore : clampedMedian
      (filterAfter (lateCalls.map TimeCall.nOffsetSample).dropLast).median = 30 := by
    decide +kernel
  have hall := hall lateCalls hnodup (by decide +kernel)
  rw [hrun, hlast, hbefore] at hall
  exact absurd hall (by decide)

end Follows

end MotaCoin
