import MotaCoin.BlockFiles
import MotaCoin.Lib.Search

/-!
# Importing a block file

`LoadExternalBlockFile` looks for message starts, reads a size and a block behind each, and hands the
block to `ProcessBlock`. It goes on behind the block where that is accepted, and right behind the
message start where it is not, so that the bytes of a refused block are searched too.

## Main definitions

* `scanFrom`: the search for a message start, window by window
* `loadFrom`, `loadExternalBlockFile`: `LoadExternalBlockFile`
* `firstStart`: the first message start from a position on
* `Skips`, `Fades`: what the search meets before a message start, or before it ends
* `fileOf`: a file made of records and separators

## Main results

* `loadFrom_eq`: the windows find every message start that matters
* `submitted_iff`: which files are imported completely
-/

namespace MotaCoin

open Wire

/-! ## The source -/

section Load

variable (file : List UInt8)

/-- `pchData`, as much of it as `fread` fills. -/
def window (nPos : Nat) : List UInt8 := (file.drop nPos).take 65536

/-- The inner loop: the position behind the next message start; none ends the import. In a file
shorter than `2 ^ 31` bytes the positions fit an `unsigned int`. -/
def scanFrom (nPos : Nat) : Option Nat :=
  if _ : (window file nPos).length ≤ 8 then none
  else
    match ((window file nPos).take ((window file nPos).length - 3)).findIdx?
        (some · == pchMessageStart.head?) with
    | some nFind =>
      if ((window file nPos).drop nFind).take 4 = pchMessageStart then some (nPos + nFind + 4)
      else scanFrom (nPos + nFind + 1)
    | none => scanFrom (nPos + 65533)
termination_by file.length - nPos
decreasing_by
  all_goals
    have hlen := ‹¬ (window file nPos).length ≤ 8›
    simp only [window, List.length_take, List.length_drop] at hlen
    omega

variable {σ : Type} (processBlock : σ → CBlock → Bool × σ)

/-- A call of `ProcessBlock`: the position behind the message start, the block, and the result. -/
structure Submission where
  /-- `nPos`. -/
  nPos : Nat
  /-- The block that was read. -/
  block : CBlock
  /-- What `ProcessBlock` returned. -/
  accepted : Bool

theorem scanFrom_lt {nPos nPos' : Nat} (h : scanFrom file nPos = some nPos') :
    nPos < nPos' ∧ nPos' ≤ file.length := by
  fun_induction scanFrom file nPos with
  | case1 => cases h
  | case2 nPos hlen nFind hfind hstart =>
    obtain rfl := Option.some.inj h
    have hmagic := congrArg List.length hstart
    simp only [window, List.length_take, List.length_drop, pchMessageStart, List.length_cons,
      List.length_nil] at hmagic hlen
    omega
  | case3 nPos hlen nFind hfind hstart ih =>
    have := ih h
    omega
  | case4 nPos hlen hfind ih =>
    have := ih h
    omega

/-- The loop of `LoadExternalBlockFile`: the calls of `ProcessBlock`. Where something cannot be read,
an exception ends it. -/
def loadFrom (nPos : Nat) (s : σ) : List Submission :=
  match _ : scanFrom file nPos with
  | none => []
  | some nPos =>
    match readLE 4 (file.drop nPos) with
    | none => []
    | some (nSize, rest) =>
      if 0 < nSize ∧ nSize ≤ MAX_BLOCK_SIZE then
        match CBlock.unserialize SER_DISK rest with
        | none => []
        | some (block, _) =>
          let r := processBlock s block
          ⟨nPos, block, r.1⟩ :: loadFrom (if r.1 then nPos + (4 + nSize) else nPos) r.2
      else loadFrom nPos s
termination_by file.length - nPos
decreasing_by
  all_goals
    have := scanFrom_lt file ‹_›
    first | omega | (split <;> omega)

/-- `LoadExternalBlockFile`: whether a block was loaded, and the calls of `ProcessBlock`. -/
def loadExternalBlockFile (s : σ) : Bool × List Submission :=
  let submitted := loadFrom file processBlock 0 s
  (decide (0 < submitted.countP Submission.accepted), submitted)

end Load

/-! ## The windows find every message start that matters -/

section Scan

variable {file : List UInt8} {nPos p : Nat}

theorem pchMessageStart_ne_nil : pchMessageStart ≠ [] := List.cons_ne_nil _ _

variable (file) in
/-- The position behind the first message start from `nPos` on. -/
def firstStart (nPos : Nat) : Option Nat :=
  (Search.find pchMessageStart (file.drop nPos)).map (nPos + · + 4)

/-- Positions where no message starts can be skipped. -/
theorem firstStart_eq_add {n : Nat}
    (h : ∀ j < n, ¬ pchMessageStart <+: file.drop (nPos + j)) :
    firstStart file nPos = firstStart file (nPos + n) := by
  have hskip : ∀ j < n, ¬ pchMessageStart <+: (file.drop nPos).drop j := by
    intro j hj
    rw [List.drop_drop]
    exact h j hj
  rw [firstStart, firstStart, Search.find_eq_find_drop hskip, List.drop_drop, Option.map_map]
  congr 1
  funext i
  simp only [Function.comp_apply]
  omega

theorem firstStart_of_prefix (h : pchMessageStart <+: file.drop nPos) :
    firstStart file nPos = some (nPos + 4) := by
  rw [firstStart, Search.find_of_isPrefix pchMessageStart_ne_nil h, Option.map_some, Nat.add_zero]

theorem length_of_prefix (h : pchMessageStart <+: file.drop nPos) : nPos + 4 ≤ file.length := by
  have hle := h.length_le
  rw [List.length_drop] at hle
  simp only [pchMessageStart, List.length_cons, List.length_nil] at hle
  omega

theorem lt_of_firstStart (h : firstStart file nPos = some p) :
    nPos < p ∧ p ≤ file.length ∧ pchMessageStart <+: file.drop (p - 4) := by
  obtain ⟨i, hi, rfl⟩ := Option.map_eq_some_iff.mp h
  obtain ⟨hplace, -⟩ := (Search.find_eq_some_iff pchMessageStart_ne_nil).mp hi
  rw [List.drop_drop] at hplace
  refine ⟨by omega, length_of_prefix hplace, ?_⟩
  rwa [Nat.add_sub_cancel]

theorem window_isPrefix (file : List UInt8) (nPos : Nat) : window file nPos <+: file.drop nPos :=
  List.take_prefix _ _

theorem length_window (file : List UInt8) (nPos : Nat) :
    (window file nPos).length = min 65536 (file.length - nPos) := by
  rw [window, List.length_take, List.length_drop]

/-- No message starts where its first byte is not. -/
theorem not_prefix_of_window {j : Nat} (hj : j < (window file nPos).length)
    (hbyte : ¬ (some ((window file nPos)[j]) == pchMessageStart.head?) = true) :
    ¬ pchMessageStart <+: file.drop (nPos + j) := by
  rintro ⟨rest, hrest⟩
  have hget : file[nPos + j]? = pchMessageStart.head? := by
    rw [← Nat.add_zero (nPos + j), ← List.getElem?_drop, ← hrest]
    rfl
  have hwindow : (window file nPos)[j]? = file[nPos + j]? := by
    have hlt : j < 65536 := by
      simp only [window, List.length_take] at hj
      omega
    rw [window, List.getElem?_take_of_lt hlt, List.getElem?_drop]
  rw [List.getElem?_eq_getElem hj, hget] at hwindow
  exact hbyte (beq_iff_eq.mpr hwindow)

/-- The test of a whole message start in the window. -/
theorem take_window_iff {j : Nat} (hj : j + 4 ≤ (window file nPos).length) :
    ((window file nPos).drop j).take 4 = pchMessageStart ↔
      pchMessageStart <+: file.drop (nPos + j) := by
  have hprefix : (window file nPos).drop j <+: file.drop (nPos + j) := by
    rw [← List.drop_drop]
    exact (window_isPrefix file nPos).drop j
  constructor
  · intro h
    rw [← h]
    exact (List.take_prefix _ _).trans hprefix
  · intro h
    have hlen : pchMessageStart.length ≤ ((window file nPos).drop j).length := by
      rw [List.length_drop]
      exact Nat.le_sub_of_add_le (by rw [Nat.add_comm]; exact hj)
    exact (List.prefix_iff_eq_take.mp (List.prefix_of_prefix_length_le h hprefix hlen)).symm

/-- Before the byte that `memchr` finds no message starts, and a whole one would fit behind it. -/
theorem not_prefix_before {nFind : Nat}
    (h : ((window file nPos).take ((window file nPos).length - 3)).findIdx?
      (some · == pchMessageStart.head?) = some nFind) :
    (∀ j < nFind, ¬ pchMessageStart <+: file.drop (nPos + j)) ∧
      nFind + 4 ≤ (window file nPos).length := by
  obtain ⟨hlt, -, hbefore⟩ := List.findIdx?_eq_some_iff_getElem.mp h
  rw [List.length_take] at hlt
  refine ⟨fun j hj => ?_, by omega⟩
  have hbyte := hbefore j hj
  rw [List.getElem_take] at hbyte
  exact not_prefix_of_window (by omega) hbyte

/-- **The windows find the first message start**, one too close to the end of the file aside. -/
theorem scanFrom_spec (file : List UInt8) (nPos : Nat) :
    (∀ p, scanFrom file nPos = some p → firstStart file nPos = some p) ∧
      (scanFrom file nPos = none → ∀ p, firstStart file nPos = some p → file.length ≤ p + 4) := by
  fun_induction scanFrom file nPos with
  | case1 nPos hlen =>
    refine ⟨nofun, fun _ p hp => ?_⟩
    obtain ⟨hlt, -, hplace⟩ := lt_of_firstStart hp
    simp only [window, List.length_take, List.length_drop] at hlen
    have := length_of_prefix hplace
    obtain ⟨i, hi, rfl⟩ := Option.map_eq_some_iff.mp hp
    omega
  | case2 nPos hlen nFind hfind hstart =>
    obtain ⟨hbefore, hle⟩ := not_prefix_before hfind
    refine ⟨fun p hp => ?_, nofun⟩
    rw [firstStart_eq_add hbefore, firstStart_of_prefix ((take_window_iff hle).mp hstart)]
    exact hp
  | case3 nPos hlen nFind hfind hstart ih =>
    obtain ⟨hbefore, hle⟩ := not_prefix_before hfind
    have hhere : ∀ j < nFind + 1, ¬ pchMessageStart <+: file.drop (nPos + j) := by
      intro j hj
      rcases Nat.lt_succ_iff_lt_or_eq.mp hj with hj | rfl
      · exact hbefore j hj
      · exact mt (take_window_iff hle).mpr hstart
    rw [firstStart_eq_add hhere, ← Nat.add_assoc]
    exact ih
  | case4 nPos hlen hfind ih =>
    have hnone : ∀ j < 65533, ¬ pchMessageStart <+: file.drop (nPos + j) := by
      intro j hj hplace
      have hend := length_of_prefix hplace
      have hwindow := length_window file nPos
      have hlt : j < ((window file nPos).take ((window file nPos).length - 3)).length := by
        rw [List.length_take]
        omega
      have hbyte := List.findIdx?_eq_none_iff.mp hfind _ (List.getElem_mem hlt)
      rw [List.getElem_take] at hbyte
      exact not_prefix_of_window (by omega) (Bool.not_eq_true _ ▸ hbyte) hplace
    rw [firstStart_eq_add hnone]
    exact ih

end Scan

/-! ## What is submitted from a position on -/

section Submit

variable {file : List UInt8} {σ : Type} {processBlock : σ → CBlock → Bool × σ} {q p nSize : Nat}
  {rest : List UInt8} {s : σ} {block : CBlock}

/-- The size behind a message start is that of a block. -/
def GoodSize (nSize : Nat) : Prop := 0 < nSize ∧ nSize ≤ MAX_BLOCK_SIZE

instance (nSize : Nat) : Decidable (GoodSize nSize) := inferInstanceAs (Decidable (_ ∧ _))

variable (file processBlock) in
/-- One round of the loop, behind a message start. -/
def loadAt (p : Nat) (s : σ) : List Submission :=
  match readLE 4 (file.drop p) with
  | none => []
  | some (nSize, rest) =>
    if GoodSize nSize then
      match CBlock.unserialize SER_DISK rest with
      | none => []
      | some (block, _) =>
        ⟨p, block, (processBlock s block).1⟩ ::
          loadFrom file processBlock (if (processBlock s block).1 then p + (4 + nSize) else p)
            (processBlock s block).2
    else loadFrom file processBlock p s

theorem loadFrom_of_scanFrom (h : scanFrom file q = some p) :
    loadFrom file processBlock q s = loadAt file processBlock p s := by
  rw [loadFrom]
  split
  · next hnone => cases hnone.symm.trans h
  · next hsome =>
    cases hsome.symm.trans h
    rfl

theorem loadFrom_of_scanFrom_none (h : scanFrom file q = none) :
    loadFrom file processBlock q s = [] := by
  rw [loadFrom]
  split
  · rfl
  · next hsome => cases h.symm.trans hsome

/-- A message start with no more than a size behind it leads to nothing. -/
theorem loadAt_of_length_le (h : file.length ≤ p + 4) : loadAt file processBlock p s = [] := by
  unfold loadAt
  cases hread : readLE 4 (file.drop p) with
  | none => rfl
  | some r =>
    obtain ⟨nSize, rest⟩ := r
    obtain ⟨word, hword, hdrop, -⟩ := exists_reads_readLE hread
    have hlen := congrArg List.length hdrop
    rw [List.length_drop, List.length_append, hword] at hlen
    obtain rfl : rest = [] := List.length_eq_zero_iff.mp (by omega)
    have hscan : scanFrom file p = none := by
      rw [scanFrom, dif_pos]
      rw [length_window]
      omega
    dsimp only
    split_ifs
    · rfl
    · exact loadFrom_of_scanFrom_none hscan

/-- **What is submitted from a position on** is what the first message start leads to. -/
theorem loadFrom_eq (q : Nat) (s : σ) : loadFrom file processBlock q s =
    match firstStart file q with
    | none => []
    | some p => loadAt file processBlock p s := by
  obtain ⟨hfound, hend⟩ := scanFrom_spec file q
  cases hscan : scanFrom file q with
  | some p => rw [hfound p hscan, loadFrom_of_scanFrom hscan]
  | none =>
    rw [loadFrom_of_scanFrom_none hscan]
    cases hfirst : firstStart file q with
    | none => rfl
    | some p => exact (loadAt_of_length_le (hend hscan p hfirst)).symm

theorem loadFrom_of_firstStart (h : firstStart file q = some p) :
    loadFrom file processBlock q s = loadAt file processBlock p s := by
  rw [loadFrom_eq, h]

theorem loadAt_of_not_goodSize (hread : readLE 4 (file.drop p) = some (nSize, rest))
    (hsize : ¬ GoodSize nSize) :
    loadAt file processBlock p s = loadFrom file processBlock p s := by
  rw [loadAt, hread]
  exact if_neg hsize

theorem loadAt_of_block {rest' : List UInt8}
    (hread : readLE 4 (file.drop p) = some (nSize, rest)) (hsize : GoodSize nSize)
    (hblock : CBlock.unserialize SER_DISK rest = some (block, rest')) :
    loadAt file processBlock p s = ⟨p, block, (processBlock s block).1⟩ ::
      loadFrom file processBlock (if (processBlock s block).1 then p + (4 + nSize) else p)
        (processBlock s block).2 := by
  rw [loadAt, hread]
  dsimp only
  rw [if_pos hsize, hblock]

theorem loadAt_of_unreadable (hread : readLE 4 (file.drop p) = some (nSize, rest))
    (hsize : GoodSize nSize) (hblock : CBlock.unserialize SER_DISK rest = none) :
    loadAt file processBlock p s = [] := by
  rw [loadAt, hread]
  dsimp only
  rw [if_pos hsize, hblock]

end Submit

/-! ## What the search meets -/

section Meets

variable (file : List UInt8)

/-- The size behind the message start is not that of a block. -/
def BadSize (p : Nat) : Prop :=
  ∃ nSize rest, readLE 4 (file.drop p) = some (nSize, rest) ∧ ¬ GoodSize nSize

/-- A block is read behind the message start. -/
def BlockAt (p nSize : Nat) (block : CBlock) : Prop :=
  ∃ rest rest', readLE 4 (file.drop p) = some (nSize, rest) ∧ GoodSize nSize ∧
    CBlock.unserialize SER_DISK rest = some (block, rest')

/-- Behind the message start there is no size, or that of a block but none that can be read. -/
def Unreadable (p : Nat) : Prop :=
  readLE 4 (file.drop p) = none ∨ ∃ nSize rest, readLE 4 (file.drop p) = some (nSize, rest) ∧
    GoodSize nSize ∧ CBlock.unserialize SER_DISK rest = none

/-- From `q` on, the search gets to the message start that ends at `p`: the ones before it, each
searched for behind the one before, have a bad size. -/
inductive Skips : Nat → Nat → Prop where
  | found {q p : Nat} (h : firstStart file q = some p) : Skips q p
  | skip {q p' p : Nat} (h : firstStart file q = some p') (hbad : BadSize file p')
    (hrest : Skips p' p) : Skips q p

/-- From `q` on, the search ends before a block is read. -/
inductive Fades : Nat → Prop where
  | none {q : Nat} (h : firstStart file q = none) : Fades q
  | unreadable {q p : Nat} (h : firstStart file q = some p) (hp : Unreadable file p) : Fades q
  | skip {q p : Nat} (h : firstStart file q = some p) (hbad : BadSize file p) (hrest : Fades p) :
    Fades q

variable {file} {σ : Type} {processBlock : σ → CBlock → Bool × σ} {q p : Nat} {s : σ}
  {sub : Submission} {subs : List Submission}

/-- What can stand behind a message start. -/
theorem badSize_or (file : List UInt8) (p : Nat) :
    BadSize file p ∨ Unreadable file p ∨ ∃ nSize block, BlockAt file p nSize block := by
  cases hread : readLE 4 (file.drop p) with
  | none => exact .inr (.inl (.inl hread))
  | some r =>
    obtain ⟨nSize, rest⟩ := r
    by_cases hsize : GoodSize nSize
    · cases hblock : CBlock.unserialize SER_DISK rest with
      | none => exact .inr (.inl (.inr ⟨nSize, rest, hread, hsize, hblock⟩))
      | some r => exact .inr (.inr ⟨nSize, r.1, rest, r.2, hread, hsize, hblock⟩)
    · exact .inl ⟨nSize, rest, hread, hsize⟩

theorem BadSize.loadAt (h : BadSize file p) :
    loadAt file processBlock p s = loadFrom file processBlock p s := by
  obtain ⟨nSize, rest, hread, hsize⟩ := h
  exact loadAt_of_not_goodSize hread hsize

theorem Unreadable.loadAt (h : Unreadable file p) : loadAt file processBlock p s = [] := by
  rcases h with hread | ⟨nSize, rest, hread, hsize, hblock⟩
  · unfold MotaCoin.loadAt
    rw [hread]
  · exact loadAt_of_unreadable hread hsize hblock

theorem Skips.loadFrom (h : Skips file q p) :
    loadFrom file processBlock q s = loadAt file processBlock p s := by
  induction h with
  | found h => exact loadFrom_of_firstStart h
  | skip h hbad _ ih => rw [loadFrom_of_firstStart h, hbad.loadAt, ih]

theorem Fades.loadFrom (h : Fades file q) : loadFrom file processBlock q s = [] := by
  induction h with
  | none h => rw [loadFrom_eq, h]
  | unreadable h hp => rw [loadFrom_of_firstStart h, hp.loadAt]
  | skip h hbad _ ih => rw [loadFrom_of_firstStart h, hbad.loadAt, ih]

/-- **What the search came to**: to the first block that is submitted, or to its end. -/
theorem reached_of_loadFrom (file : List UInt8) (processBlock : σ → CBlock → Bool × σ) (q : Nat)
    (s : σ) : (∀ sub subs, loadFrom file processBlock q s = sub :: subs → Skips file q sub.nPos) ∧
      (loadFrom file processBlock q s = [] → Fades file q) := by
  induction hn : file.length - q using Nat.strong_induction_on generalizing q with
  | _ n ih =>
    subst hn
    cases hfirst : firstStart file q with
    | none =>
      rw [loadFrom_eq, hfirst]
      exact ⟨nofun, fun _ => .none hfirst⟩
    | some p =>
      obtain ⟨hlt, hle, -⟩ := lt_of_firstStart hfirst
      rw [loadFrom_of_firstStart hfirst]
      rcases badSize_or file p with hbad | hunreadable | ⟨nSize, block, rest, rest', hread, hsize,
        hblock⟩
      · obtain ⟨hskips, hfades⟩ := ih _ (by omega) p rfl
        rw [hbad.loadAt]
        exact ⟨fun sub subs h => .skip hfirst hbad (hskips sub subs h),
          fun h => .skip hfirst hbad (hfades h)⟩
      · rw [hunreadable.loadAt]
        exact ⟨nofun, fun _ => .unreadable hfirst hunreadable⟩
      · rw [loadAt_of_block hread hsize hblock]
        refine ⟨fun sub subs h => ?_, nofun⟩
        obtain ⟨rfl, -⟩ := List.cons_eq_cons.mp h
        exact .found hfirst

end Meets

/-! ## Files of records -/

/-- A record: the message start, the size and the block. -/
def record (b : CBlock) : List UInt8 :=
  pchMessageStart ++ (leBytes 4 b.getSerializeSize ++ b.serialize SER_DISK)

/-- A block that a record can hold. -/
structure Recordable (b : CBlock) : Prop where
  fits : b.Fits
  size : b.getSerializeSize ≤ MAX_BLOCK_SIZE

/-- A file of records: bytes in front, and each block with the bytes behind its record. -/
def fileOf : List UInt8 → List (CBlock × List UInt8) → List UInt8
  | sep, [] => sep
  | sep, (b, sep') :: recs => sep ++ (record b ++ fileOf sep' recs)

/-- The bytes between the records are not part of a message start: none starts in them, and none
starts in the three bytes before them and goes on in them. -/
def CleanFile : List UInt8 → List (CBlock × List UInt8) → Prop
  | sep, [] => ∀ j < sep.length, ¬ pchMessageStart <+: (fileOf sep []).drop j
  | sep, (b, sep') :: recs =>
    (∀ j < sep.length, ¬ pchMessageStart <+: (fileOf sep ((b, sep') :: recs)).drop j) ∧
      (∀ j, j < (record b).length → (record b).length < j + 4 → 0 < sep'.length →
        ¬ pchMessageStart <+: (record b ++ fileOf sep' recs).drop j) ∧ CleanFile sep' recs

/-- The records of the part of a file that starts at `base`: the position behind the message start
of each, with its block. -/
def recordsAt : Nat → List UInt8 → List (CBlock × List UInt8) → List (Nat × CBlock)
  | _, _, [] => []
  | base, sep, (b, sep') :: recs =>
    (base + sep.length + 4, b) :: recordsAt (base + sep.length + (record b).length) sep' recs

/-- From `q` on, the search gets to the first of the records, or to its end when there is none. -/
def Reaches (file : List UInt8) (q : Nat) : List (Nat × CBlock) → Prop
  | [] => Fades file q
  | (p, _) :: _ => Skips file q p

/-- **Refused blocks do no harm**: from behind the message start of a block that `ProcessBlock`
refuses, the search gets to the next record. -/
def Harmless (file : List UInt8) {σ : Type} (processBlock : σ → CBlock → Bool × σ) :
    σ → List (Nat × CBlock) → Prop
  | _, [] => True
  | s, (p, b) :: ps =>
    ((processBlock s b).1 = false → Reaches file p ps) ∧
      Harmless file processBlock (processBlock s b).2 ps

/-- A submission by its position and its block. -/
def Submission.place (sub : Submission) : Nat × CBlock := (sub.nPos, sub.block)

section Records

variable {file : List UInt8} {σ : Type} {processBlock : σ → CBlock → Bool × σ} {q q' base : Nat}
  {s : σ} {ps : List (Nat × CBlock)} {b : CBlock} {sep sep' : List UInt8}
  {recs : List (CBlock × List UInt8)}

theorem length_record (b : CBlock) : (record b).length = 4 + (4 + b.getSerializeSize) := by
  have hblock : (b.serialize SER_DISK).length = b.getSerializeSize := CBlock.length_serialize rfl b
  rw [record, List.length_append, List.length_append, length_leBytes, hblock]
  rfl

/-- Both from `q` and from `q'` the search gets to the same record. -/
theorem Reaches.loadFrom_eq (h : Reaches file q ps) (h' : Reaches file q' ps) :
    loadFrom file processBlock q s = loadFrom file processBlock q' s := by
  cases ps with
  | nil => rw [Fades.loadFrom h, Fades.loadFrom h']
  | cons p ps => rw [Skips.loadFrom h, Skips.loadFrom h']

/-- What is submitted shows what the search got to. -/
theorem reaches_of_loadFrom (h : (loadFrom file processBlock q s).map Submission.place = ps) :
    Reaches file q ps := by
  obtain ⟨hskips, hfades⟩ := reached_of_loadFrom file processBlock q s
  cases hload : loadFrom file processBlock q s with
  | nil =>
    rw [hload] at h
    obtain rfl := h
    exact hfades hload
  | cons sub subs =>
    rw [hload] at h
    obtain rfl := h
    exact hskips sub subs hload

/-- A record is read as its block. -/
theorem blockAt_of_record (hb : Recordable b) (rest : List UInt8) {p : Nat}
    (hfile : file.drop p = leBytes 4 b.getSerializeSize ++ (b.serialize SER_DISK ++ rest)) :
    BlockAt file p b.getSerializeSize b := by
  have hmax : b.getSerializeSize < 256 ^ 4 := hb.size.trans_lt (by decide)
  have hpos : 0 < b.getSerializeSize := by
    have hblock : (b.serialize SER_DISK).length = b.getSerializeSize :=
      CBlock.length_serialize rfl b
    rw [← hblock]
    simp [CBlock.serialize]
  have hsized : b.Sized MAX_SIZE := CBlock.sized_of_le (hb.size.trans (by decide))
  refine ⟨b.serialize SER_DISK ++ rest, rest, ?_, ⟨hpos, hb.size⟩, ?_⟩
  · rw [hfile]
    exact reads_readLE hmax _
  · exact CBlock.reads_unserialize (by decide) rfl hb.fits hsized rest

/-- Bytes in front in which no message starts lead to what is behind them. -/
theorem firstStart_of_sep (hbase : file.drop base = sep ++ (record b ++ rest))
    (hclean : ∀ j < sep.length, ¬ pchMessageStart <+: (sep ++ (record b ++ rest)).drop j) :
    firstStart file base = some (base + sep.length + 4) := by
  have hskip : ∀ j < sep.length, ¬ pchMessageStart <+: file.drop (base + j) := by
    intro j hj
    rw [← List.drop_drop, hbase]
    exact hclean j hj
  rw [firstStart_eq_add hskip, firstStart_of_prefix]
  rw [← List.drop_drop, hbase, List.drop_left, record, List.append_assoc]
  exact List.prefix_append _ _

theorem firstStart_of_end (hbase : file.drop base = sep)
    (hclean : ∀ j < sep.length, ¬ pchMessageStart <+: sep.drop j) :
    firstStart file base = none := by
  rw [firstStart, hbase, Option.map_eq_none_iff, Search.find_eq_none_iff pchMessageStart_ne_nil]
  intro i hplace
  rcases Nat.lt_or_ge i sep.length with hi | hi
  · exact hclean i hi hplace
  · rw [List.drop_eq_nil_of_le hi] at hplace
    exact pchMessageStart_ne_nil (List.prefix_nil.mp hplace)

/-- **Which records are submitted**, from the start of a part of the file. -/
theorem loadFrom_records (hbase : file.drop base = fileOf sep recs) (hclean : CleanFile sep recs)
    (hrecs : ∀ r ∈ recs, Recordable r.1) (s : σ) :
    Reaches file base (recordsAt base sep recs) ∧
      ((loadFrom file processBlock base s).map Submission.place = recordsAt base sep recs ↔
        Harmless file processBlock s (recordsAt base sep recs)) := by
  induction recs generalizing base sep s with
  | nil =>
    have hfades : Fades file base := .none (firstStart_of_end hbase hclean)
    refine ⟨hfades, iff_of_true ?_ trivial⟩
    rw [hfades.loadFrom]
    rfl
  | cons r recs ih =>
    obtain ⟨b, sep'⟩ := r
    obtain ⟨hb, hrecs⟩ := List.forall_mem_cons.mp hrecs
    obtain ⟨hsep, -, hclean⟩ := hclean
    have hfirst := firstStart_of_sep hbase hsep
    have hnext : file.drop (base + sep.length + (record b).length) = fileOf sep' recs := by
      rw [Nat.add_assoc, ← List.drop_drop, hbase, fileOf, ← List.append_assoc,
        ← List.length_append, List.drop_left]
    have hblock : BlockAt file (base + sep.length + 4) b.getSerializeSize b := by
      refine blockAt_of_record hb (fileOf sep' recs) ?_
      rw [Nat.add_assoc, ← List.drop_drop, hbase, fileOf, ← List.drop_drop, List.drop_left, record,
        List.append_assoc, List.append_assoc]
      exact List.drop_left' rfl
    obtain ⟨rest, rest', hread, hsize, hunserialize⟩ := hblock
    rw [recordsAt]
    refine ⟨.found hfirst, ?_⟩
    obtain ⟨hreaches, hiff⟩ := ih hnext hclean hrecs (processBlock s b).2
    generalize recordsAt (base + sep.length + (record b).length) sep' recs = ps at hreaches hiff ⊢
    rw [loadFrom_of_firstStart hfirst, loadAt_of_block hread hsize hunserialize, List.map_cons,
      List.cons_eq_cons, Harmless]
    refine (and_iff_right rfl).trans ?_
    cases hok : (processBlock s b).1 with
    | true =>
      -- accepted: the search goes on behind the block
      have hend : base + sep.length + 4 + (4 + b.getSerializeSize) =
          base + sep.length + (record b).length := by
        rw [length_record, Nat.add_assoc]
      rw [if_pos rfl, hend, hiff]
      exact (and_iff_right nofun).symm
    | false =>
      -- refused: it goes on in the bytes of the block
      rw [if_neg Bool.false_ne_true]
      constructor
      · intro h
        have hreaches' := reaches_of_loadFrom h
        rw [hreaches'.loadFrom_eq hreaches] at h
        exact ⟨fun _ => hreaches', hiff.mp h⟩
      · rintro ⟨hreaches', hharmless⟩
        rw [(hreaches' rfl).loadFrom_eq hreaches]
        exact hiff.mpr hharmless

/-- **Which files are imported completely**: every record is submitted, in their order, and nothing
else is, if and only if the refused blocks do no harm. -/
theorem submitted_iff (processBlock : σ → CBlock → Bool × σ) (s : σ) (hclean : CleanFile sep recs)
    (hrecs : ∀ r ∈ recs, Recordable r.1) :
    (loadExternalBlockFile (fileOf sep recs) processBlock s).2.map Submission.place =
        recordsAt 0 sep recs ↔
      Harmless (fileOf sep recs) processBlock s (recordsAt 0 sep recs) :=
  (loadFrom_records rfl hclean hrecs s).2

/-! ### A refused block with a message start in its signature -/

/-- A block without transactions. -/
def bareBlock (vchBlockSig : List UInt8) : CBlock where
  nVersion := 1
  hashPrevBlock := 0
  hashMerkleRoot := 0
  nTime := 0
  nBits := 0
  nNonce := 0
  vtx := []
  vchBlockSig := vchBlockSig

/-- A message start, and the size of a block of one byte. -/
def strayStart : List UInt8 := pchMessageStart ++ [1, 0, 0, 0]

/-- Two records, with a message start in the signature of the first block. -/
def strayRecords : List (CBlock × List UInt8) := [(bareBlock strayStart, []), (bareBlock [], [])]

theorem recordable_strayRecords : ∀ r ∈ strayRecords, Recordable r.1 := by
  intro r hr
  have hfits (vchBlockSig : List UInt8) : (bareBlock vchBlockSig).Fits := by
    refine ⟨⟨?_, ?_, ?_, ?_, ?_, ?_⟩, nofun⟩ <;> simp [bareBlock, CBlock.getBlockHeader]
  rcases List.mem_cons.mp hr with rfl | hr
  · exact ⟨hfits strayStart, by decide⟩
  · obtain rfl := List.mem_singleton.mp hr
    exact ⟨hfits [], by decide⟩

theorem cleanFile_strayRecords : CleanFile [] strayRecords :=
  ⟨nofun, fun _ _ _ h => absurd h (Nat.lt_irrefl 0), nofun,
    fun _ _ _ h => absurd h (Nat.lt_irrefl 0), nofun⟩

theorem submitted_iff_strayRecords :
    (loadExternalBlockFile (fileOf [] strayRecords) (fun s _ => (true, s)) ()).2.map
        Submission.place = recordsAt 0 [] strayRecords ↔
      Harmless (fileOf [] strayRecords) (fun s _ => (true, s)) () (recordsAt 0 [] strayRecords) :=
  submitted_iff _ () cleanFile_strayRecords recordable_strayRecords

/-- Where `ProcessBlock` refuses the first block, its record is not followed by the second one. -/
theorem not_submitted_strayRecords : CleanFile [] strayRecords ∧
    (∀ r ∈ strayRecords, Recordable r.1) ∧ (fileOf [] strayRecords).length < 2 ^ 31 ∧
    (loadExternalBlockFile (fileOf [] strayRecords) (fun s _ => (false, s)) ()).2.map
      Submission.place ≠ recordsAt 0 [] strayRecords := by
  refine ⟨cleanFile_strayRecords, recordable_strayRecords, by decide +kernel, fun hall => ?_⟩
  obtain ⟨hreaches, -⟩ := (loadFrom_records rfl cleanFile_strayRecords recordable_strayRecords
    ()).2.mp hall
  have hskips : Skips (fileOf [] strayRecords) 4 102 := hreaches rfl
  have hstray : firstStart (fileOf [] strayRecords) 4 = some 94 := by decide +kernel
  cases hskips with
  | found h => exact absurd (hstray.symm.trans h) (by decide)
  | skip h hbad _ =>
    obtain rfl := Option.some.inj (hstray.symm.trans h)
    obtain ⟨nSize, rest, hread, hsize⟩ := hbad
    have hone : (readLE 4 ((fileOf [] strayRecords).drop 94)).map Prod.fst = some 1 := by
      decide +kernel
    rw [hread] at hone
    obtain rfl : nSize = 1 := Option.some.inj hone
    exact hsize (by decide)

end Records

end MotaCoin
