import MotaCoin.Chars
import MotaCoin.Primitives
import Mathlib.Data.FinEnum
import Mathlib.Data.List.GetD

/-!
# Amounts as text

`FormatMoney` writes an amount with a decimal point and at least two places, and `ParseMoney`
reads one: digits, a point and up to eight places, with blanks around them. The whole part is
read by `strtoll` and has at most ten digits, so that nothing overflows.

## Main definitions

* `formatMoney`, `parseMoney`: the functions of `util.cpp`
* `MoneyText s n`: the text `s` denotes the amount `n`

## Main results

* `parseMoney_eq_some_iff`: exactly the texts that denote an amount are read, as that amount
* `moneyText_formatMoney`: what is written denotes the amount
* `money_round_trip`: the round trip
-/

namespace MotaCoin

/-! ## The functions -/

section Functions

/-- The decimal point. -/
def pointChar : UInt8 := 0x2E

/-- The loop that counts the zeros to trim, from index `i` down. It ends two places behind the
point, so `i - 2` is an index. -/
def trimCount (str : List UInt8) : ℕ → ℕ
  | i + 2 =>
    if str.getD (i + 2) 0 == 0x30 && isDigit (str.getD i 0) then trimCount str (i + 1) + 1 else 0
  | _ => 0

/-- `FormatMoney`. -/
def formatMoney (n : Int) (fPlus : Bool) : List UInt8 :=
  let n_abs := if n > 0 then n else Int64.wrap (-n)
  let quotient := n_abs.tdiv COIN
  let remainder := n_abs.tmod COIN
  let str := printDec 0 quotient ++ [pointChar] ++ printDec 8 remainder
  -- right-trim excess zeros before the decimal point
  let nTrim := trimCount str (str.length - 1)
  let str := str.take (str.length - nTrim)
  if n < 0 then 0x2D :: str else if fPlus && n > 0 then 0x2B :: str else str

/-- The loop over the places behind the point. -/
def parseUnits (nUnits nMult : Int) : List UInt8 → Int × List UInt8
  | [] => (nUnits, [])
  | c :: p =>
    if isDigit c && nMult > 0 then
      parseUnits (Int64.wrap (nUnits + nMult * (c.toNat - 0x30))) (nMult.tdiv 10) p
    else (nUnits, c :: p)

/-- The loop of `ParseMoney` up to a blank or the end of the amount: `strWhole`, `nUnits` and
what is left. -/
def parseWhole (strWhole : List UInt8) : List UInt8 → Option (List UInt8 × Int × List UInt8)
  | [] => some (strWhole, 0, [])
  | c :: p =>
    if c = pointChar then some (strWhole, parseUnits 0 (CENT * 10) p)
    else if isSpace c then some (strWhole, 0, c :: p)
    else if !isDigit c then none
    else parseWhole (strWhole ++ [c]) p

/-- `ParseMoney`: the amount stored in `nRet`, or `none` when it fails. -/
def parseMoney (str : List UInt8) : Option Int := do
  let (strWhole, nUnits, p) ← parseWhole [] ((cStr str).dropWhile isSpace)
  if p.any fun c => !isSpace c then none
  -- guard against 63 bit overflow
  else if strWhole.length > 10 then none
  else if nUnits < 0 || nUnits > COIN then none
  else
    let nWhole := (strtol (cStr strWhole)).1
    some (Int64.wrap (Int64.wrap (nWhole * COIN) + nUnits))

end Functions

/-! ## Texts that denote amounts -/

section Spec

/-- Blanks, up to ten digits, a point with up to eight places or none, and blanks; the amount is
what the digits denote. -/
def MoneyText (s : List UInt8) (n : Int) : Prop :=
  ∃ lead whole tail units trail, s = lead ++ whole ++ tail ++ trail ∧
    (∀ c ∈ lead, isSpace c = true) ∧ (∀ c ∈ trail, isSpace c = true) ∧
    Digits whole ∧ whole.length ≤ 10 ∧ Digits units ∧ units.length ≤ 8 ∧
    (tail = [] ∧ units = [] ∨ tail = pointChar :: units) ∧
    n = (decimal whole * 10 ^ 8 + decimal units * 10 ^ (8 - units.length) : ℕ)

end Spec

/-! ## Reading -/

section Parse

variable {s whole units trail p : List UInt8}

/-- The place multiplier while `k` more places are read. -/
def placeMult (k : ℕ) : Int := if k = 0 then 0 else 10 ^ (k - 1)

theorem placeMult_succ (k : ℕ) : placeMult (k + 1) = 10 ^ k := if_neg (Nat.succ_ne_zero k)

theorem placeMult_pos_iff (k : ℕ) : placeMult k > 0 ↔ k ≠ 0 := by
  cases k with
  | zero => simp [placeMult]
  | succ k => rw [placeMult_succ]; exact iff_of_true (by positivity) (Nat.succ_ne_zero k)

theorem placeMult_succ_tdiv (k : ℕ) : (placeMult (k + 1)).tdiv 10 = placeMult k := by
  rw [placeMult_succ]
  cases k with
  | zero => rfl
  | succ k => rw [placeMult_succ, pow_succ, Int.mul_tdiv_cancel _ (by decide)]

/-- Up to `k` places are read, and they do not overflow. -/
theorem parseUnits_append {k : ℕ} {u : Int} (hunits : Digits units) (hlen : units.length ≤ k)
    (htrail : units.length = k ∨ ∀ c ∈ trail.head?, isDigit c = false) (hu : 0 ≤ u)
    (hroom : u + 10 ^ k ≤ 10 ^ 8) :
    parseUnits u (placeMult k) (units ++ trail) =
      (u + (decimal units * 10 ^ (k - units.length) : ℕ), trail) := by
  induction units generalizing k u with
  | nil =>
    rw [List.nil_append, decimal_nil, Nat.zero_mul, Nat.cast_zero, add_zero]
    cases trail with
    | nil => rfl
    | cons c trail =>
      refine if_neg fun h => ?_
      rw [Bool.and_eq_true, decide_eq_true_iff, placeMult_pos_iff] at h
      rcases htrail with hk | hc
      · exact h.2 hk.symm
      · rw [hc c rfl] at h
        exact Bool.noConfusion h.1
  | cons c units ih =>
    obtain ⟨k, rfl⟩ : ∃ k', k = k' + 1 := ⟨k - 1, by simp at hlen; omega⟩
    have hc : isDigit c = true := hunits c (List.mem_cons_self ..)
    have hval : (c.toNat : Int) - 0x30 = digitVal c := by
      have := (isDigit_iff c).mp hc
      unfold digitVal
      omega
    have hlt := digitVal_lt hc
    have hpow : (0 : Int) < 10 ^ k := by positivity
    -- the digit takes up less than what one place more had room for
    have hnew : u + placeMult (k + 1) * (c.toNat - 0x30) + 10 ^ k ≤ 10 ^ 8 := by
      rw [hval, placeMult_succ]
      rw [pow_succ] at hroom
      have : (10 : Int) ^ k * digitVal c ≤ 10 ^ k * 9 :=
        mul_le_mul_of_nonneg_left (by omega) hpow.le
      omega
    have hnonneg : 0 ≤ u + placeMult (k + 1) * (c.toNat - 0x30) := by
      rw [hval, placeMult_succ]
      positivity
    have hpos := (placeMult_pos_iff (k + 1)).mpr (Nat.succ_ne_zero k)
    rw [List.cons_append, parseUnits, if_pos (by rw [hc, Bool.true_and, decide_eq_true hpos]),
      Int64.wrap_eq_self ⟨by omega, by omega⟩, placeMult_succ_tdiv,
      ih (fun c hc => hunits c (List.mem_cons_of_mem _ hc)) (by simpa using hlen)
        (by simpa using htrail) hnonneg hnew, hval, placeMult_succ, decimal_cons,
      List.length_cons, Nat.add_sub_add_right, Nat.add_mul, Nat.mul_assoc, ← pow_add,
      Nat.add_sub_cancel' (by simpa using hlen)]
    push_cast
    rw [add_assoc, mul_comm (10 ^ k : Int)]

/-- How the places of a text are cut off. -/
theorem exists_units (p : List UInt8) : ∃ units trail, p = units ++ trail ∧ Digits units ∧
    units.length ≤ 8 ∧ (units.length = 8 ∨ ∀ c ∈ trail.head?, isDigit c = false) := by
  have hprefix := (List.take_prefix 8 _).trans (List.takeWhile_prefix isDigit (l := p))
  refine ⟨(p.takeWhile isDigit).take 8, _, (List.prefix_iff_eq_append.mp hprefix).symm,
    fun c hc => digits_takeWhile p c (List.mem_of_mem_take hc), ?_, ?_⟩
  · rw [List.length_take]
    exact Nat.min_le_left 8 _
  · by_cases hlong : 8 ≤ (p.takeWhile isDigit).length
    · exact Or.inl (by rw [List.length_take, Nat.min_eq_left hlong])
    · right
      intro c hc
      rw [List.take_of_length_le (by omega), drop_length_takeWhile] at hc
      exact head_dropWhile hc

/-- The digits before the point are collected. -/
theorem parseWhole_append (strWhole : List UInt8) (hwhole : Digits whole) (p : List UInt8) :
    parseWhole strWhole (whole ++ p) = parseWhole (strWhole ++ whole) p := by
  induction whole generalizing strWhole with
  | nil => rw [List.nil_append, List.append_nil]
  | cons c whole ih =>
    have hc : isDigit c = true := hwhole c (List.mem_cons_self ..)
    have hpoint : c ≠ pointChar := by
      rintro rfl
      exact absurd hc (by decide)
    rw [List.cons_append, parseWhole, if_neg hpoint, isSpace_eq_false_of_isDigit hc, hc,
      if_neg (by decide), if_neg (by decide), ih _ fun c hc => hwhole c (List.mem_cons_of_mem _ hc),
      List.append_assoc]
    rfl

/-- A point: the places are read. -/
theorem parseWhole_point (whole : List UInt8) (hunits : Digits units) (hlen : units.length ≤ 8)
    (htrail : units.length = 8 ∨ ∀ c ∈ trail.head?, isDigit c = false) :
    parseWhole whole (pointChar :: (units ++ trail)) =
      some (whole, ((decimal units * 10 ^ (8 - units.length) : ℕ) : Int), trail) := by
  have hmult : CENT * 10 = placeMult 8 := rfl
  rw [parseWhole, if_pos rfl, hmult, parseUnits_append hunits hlen htrail le_rfl (by norm_num),
    zero_add]

/-- A blank, or the end: there are no places. -/
theorem parseWhole_blank (whole : List UInt8) (htrail : ∀ c ∈ trail.head?, isSpace c = true) :
    parseWhole whole trail = some (whole, 0, trail) := by
  cases trail with
  | nil => rfl
  | cons c trail =>
    have hc := htrail c rfl
    have hpoint : c ≠ pointChar := by
      rintro rfl
      exact absurd hc (by decide)
    rw [parseWhole, if_neg hpoint, if_pos hc]

/-- Anything else is refused. -/
theorem parseWhole_other (whole : List UInt8) {c : UInt8} (hpoint : c ≠ pointChar)
    (hdigit : isDigit c = false) (hblank : isSpace c = false) (p : List UInt8) :
    parseWhole whole (c :: p) = none := by
  rw [parseWhole, if_neg hpoint, hblank, hdigit, if_neg (by decide), if_pos (by decide)]

/-- A whole part of ten digits and eight places fit in 63 bits. -/
theorem finish_eq (hwhole : Digits whole) (hlen : whole.length ≤ 10) {u : ℕ} (hu : u < 10 ^ 8) :
    Int64.wrap (Int64.wrap ((strtol (cStr whole)).1 * COIN) + (u : Int)) =
      (decimal whole * 10 ^ 8 + u : ℕ) := by
  have hnul : (0 : UInt8) ∉ whole := fun h => absurd (hwhole 0 h) (by decide)
  have hlt : decimal whole < 10 ^ 10 :=
    (decimal_lt hwhole).trans_le (Nat.pow_le_pow_right (by decide) hlen)
  have hread : (strtol (cStr whole)).1 = decimal whole := by
    rw [strtol, cStr_eq_self hnul, readLong_digits hwhole]
    exact clampLong_eq_self ⟨by omega, by omega⟩
  rw [hread, Int64.wrap_eq_self (x := _ * COIN), Int64.wrap_eq_self] <;>
    simp only [Int64.InRange, COIN] <;> push_cast <;> omega

/-- The places that are read are less than a coin. -/
theorem units_lt (hunits : Digits units) (hlen : units.length ≤ 8) :
    decimal units * 10 ^ (8 - units.length) < 10 ^ 8 := by
  calc decimal units * 10 ^ (8 - units.length)
      < 10 ^ units.length * 10 ^ (8 - units.length) :=
        Nat.mul_lt_mul_of_pos_right (decimal_lt hunits) (by positivity)
    _ = 10 ^ 8 := by rw [← pow_add, Nat.add_sub_cancel' hlen]

/-- The checks after the loops. -/
theorem parseMoney_eq (hs : 0 ∉ s) {u : ℕ} (hwhole : Digits whole) (hu : u < 10 ^ 8)
    (h : parseWhole [] (s.dropWhile isSpace) = some (whole, (u : Int), p)) :
    parseMoney s = if (∀ c ∈ p, isSpace c = true) ∧ whole.length ≤ 10 then
      some ((decimal whole * 10 ^ 8 + u : ℕ) : Int) else none := by
  have hblanks : (p.any fun c => !isSpace c) = true ↔ ¬ ∀ c ∈ p, isSpace c = true := by
    simp
  have hrange : ¬ ((decide ((u : Int) < 0) || decide ((u : Int) > COIN)) = true) := by
    rw [Bool.or_eq_true, decide_eq_true_iff, decide_eq_true_iff, COIN]
    omega
  rw [parseMoney, cStr_eq_self hs, h]
  change (if _ then _ else _) = _
  by_cases hp : ∀ c ∈ p, isSpace c = true
  · rw [if_neg (by rw [hblanks]; exact not_not.mpr hp)]
    by_cases hlen : whole.length ≤ 10
    · rw [if_neg (by omega), if_neg hrange, if_pos ⟨hp, hlen⟩]
      exact congrArg some (finish_eq hwhole hlen hu)
    · rw [if_pos (by omega), if_neg fun h => hlen h.2]
  · rw [if_pos (hblanks.mpr hp), if_neg fun h => hp h.1]

/-- A text that denotes an amount is read. -/
theorem parseMoney_of_moneyText (hs : 0 ∉ s) {n : Int} (h : MoneyText s n) :
    parseMoney s = some n := by
  obtain ⟨lead, whole, tail, units, trail, rfl, hlead, htrail, hwhole, hlen, hunits, hulen, htail,
    rfl⟩ := h
  have hhead : ∀ c ∈ trail.head?, isSpace c = true := fun c hc =>
    htrail c (List.mem_of_mem_head? hc)
  have hstop : ∀ c ∈ trail.head?, isDigit c = false := by
    intro c hc
    by_contra h
    rw [Bool.not_eq_false] at h
    exact absurd (hhead c hc) (by rw [isSpace_eq_false_of_isDigit h]; decide)
  have hdrop : ∀ rest, (∀ c ∈ rest.head?, isSpace c = false) →
      (lead ++ rest).dropWhile isSpace = rest := fun rest => dropWhile_isSpace hlead
  rw [List.append_assoc, List.append_assoc] at hs ⊢
  rcases htail with ⟨rfl, rfl⟩ | rfl
  · -- digits alone, or nothing but blanks
    rw [List.nil_append] at hs ⊢
    cases whole with
    | nil =>
      have hall : ∀ c ∈ lead ++ trail, isSpace c = true :=
        List.forall_mem_append.mpr ⟨hlead, htrail⟩
      have hnone := List.dropWhile_eq_nil_iff.mpr hall
      exact (parseMoney_eq hs (u := 0) hwhole (by decide)
        (by rw [List.nil_append, hnone]; rfl)).trans (if_pos ⟨by simp, hlen⟩)
    | cons c whole =>
      have hc := isSpace_eq_false_of_isDigit (hwhole c (List.mem_cons_self ..))
      have hparse := parseWhole_append [] hwhole trail
      rw [List.nil_append, parseWhole_blank _ hhead,
        ← hdrop (c :: whole ++ trail) (by simpa using hc)] at hparse
      exact (parseMoney_eq hs (u := 0) hwhole (by decide) hparse).trans (if_pos ⟨htrail, hlen⟩)
  · have hhead' : ∀ c ∈ (whole ++ (pointChar :: units ++ trail)).head?, isSpace c = false := by
      cases whole with
      | nil => simp; decide
      | cons c whole =>
        simpa using isSpace_eq_false_of_isDigit (hwhole c (List.mem_cons_self ..))
    have hparse := parseWhole_append [] hwhole (pointChar :: units ++ trail)
    rw [List.nil_append, List.cons_append, parseWhole_point whole hunits hulen (Or.inr hstop),
      ← List.cons_append, ← hdrop _ hhead'] at hparse
    exact (parseMoney_eq hs hwhole (units_lt hunits hulen) hparse).trans
      (if_pos ⟨htrail, hlen⟩)

/-- What is read denotes the amount. -/
theorem moneyText_of_parseMoney (hs : 0 ∉ s) {n : Int} (h : parseMoney s = some n) :
    MoneyText s n := by
  obtain ⟨lead, hlead, hsplit⟩ : ∃ lead, (∀ c ∈ lead, isSpace c = true) ∧
      s = lead ++ s.dropWhile isSpace :=
    ⟨s.takeWhile isSpace, fun c hc => List.mem_takeWhile_imp hc,
      List.takeWhile_append_dropWhile.symm⟩
  obtain ⟨whole, q, hq, hwhole, hhead⟩ : ∃ whole q, s.dropWhile isSpace = whole ++ q ∧
      Digits whole ∧ ∀ c ∈ q.head?, isDigit c = false :=
    ⟨_, _, List.takeWhile_append_dropWhile.symm, digits_takeWhile _, fun c hc => head_dropWhile hc⟩
  have hparse := parseWhole_append [] hwhole q
  rw [← hq, List.nil_append] at hparse
  -- the amount ends, goes on with a blank or with a point, or is refused
  by_cases hblank : ∀ c ∈ q.head?, isSpace c = true
  · rw [parseWhole_blank whole hblank] at hparse
    have hread := parseMoney_eq hs (u := 0) hwhole (by decide) hparse
    rw [h] at hread
    split_ifs at hread with hif
    refine ⟨lead, whole, [], [], q, ?_, hlead, hif.1, hwhole, hif.2, by simp [Digits], by simp,
      Or.inl ⟨rfl, rfl⟩, Option.some.inj hread⟩
    rw [List.append_nil, List.append_assoc, ← hq]
    exact hsplit
  · obtain ⟨c, q, rfl⟩ : ∃ c q', q = c :: q' := by
      cases q with
      | nil => exact absurd (by simp) hblank
      | cons c q => exact ⟨c, q, rfl⟩
    have hc : isSpace c = false := by simpa using hblank
    by_cases hpoint : c = pointChar
    · subst hpoint
      obtain ⟨units, trail, rfl, hunits, hlen, htrail⟩ := exists_units q
      rw [parseWhole_point whole hunits hlen htrail] at hparse
      have hread := parseMoney_eq hs hwhole (units_lt hunits hlen) hparse
      rw [h] at hread
      split_ifs at hread with hif
      refine ⟨lead, whole, pointChar :: units, units, trail, ?_, hlead, hif.1, hwhole, hif.2,
        hunits, hlen, Or.inr rfl, Option.some.inj hread⟩
      rw [List.append_assoc, List.append_assoc, List.cons_append, ← hq]
      exact hsplit
    · rw [parseWhole_other whole hpoint (hhead c rfl) hc] at hparse
      rw [parseMoney, cStr_eq_self hs, hparse] at h
      have h : (none : Option Int) = some n := h
      cases h

/-- **Exactly the texts that denote an amount are read**, as that amount. -/
theorem parseMoney_eq_some_iff (hs : 0 ∉ s) (n : Int) : parseMoney s = some n ↔ MoneyText s n :=
  ⟨moneyText_of_parseMoney hs, parseMoney_of_moneyText hs⟩

end Parse

/-! ## Writing -/

section Format

/-- Every character that is counted is a zero, with a digit two places before it. -/
theorem trimCount_spec (str : List UInt8) {i j : ℕ} (hij : i < j + trimCount str i)
    (hji : j ≤ i) : 2 ≤ j ∧ str.getD j 0 = 0x30 ∧ isDigit (str.getD (j - 2) 0) = true := by
  induction i with
  | zero =>
    rw [trimCount] at hij <;> omega
  | succ i ih =>
    cases i with
    | zero => rw [trimCount] at hij <;> omega
    | succ i =>
      rw [trimCount] at hij
      split at hij
      next hzero =>
        rw [Bool.and_eq_true, beq_iff_eq] at hzero
        rcases Nat.lt_or_ge j (i + 2) with hlt | hge
        · exact ih (by omega) (by omega)
        · obtain rfl : j = i + 2 := by omega
          exact ⟨by omega, hzero⟩
      next => omega

variable {w places : List UInt8}

/-- The loop stops at least two places behind the point, and counts zeros only. -/
theorem trimCount_places (w : List UInt8) (hplaces : places.length = 8) :
    ∃ t ≤ 6, trimCount (w ++ pointChar :: places) (w.length + 8) = t ∧
      places = places.take (8 - t) ++ List.replicate t 0x30 := by
  have hspec := @trimCount_spec (w ++ pointChar :: places) (w.length + 8)
  generalize trimCount (w ++ pointChar :: places) (w.length + 8) = t at hspec
  have hle : t ≤ 6 := by
    by_contra hlong
    have := (@hspec (w.length + 2) (by omega) (by omega)).2.2
    rw [Nat.add_sub_cancel, List.getD_append_right _ _ _ _ le_rfl, Nat.sub_self,
      List.getD_cons_zero] at this
    exact absurd this (by decide)
  refine ⟨t, hle, rfl, ?_⟩
  have hzeros : places.drop (8 - t) = List.replicate t 0x30 := by
    refine List.eq_replicate_iff.mpr ⟨by rw [List.length_drop]; omega, fun c hc => ?_⟩
    obtain ⟨k, hk, rfl⟩ := List.getElem_of_mem hc
    rw [List.length_drop] at hk
    have := (@hspec (w.length + 1 + (8 - t + k)) (by omega) (by omega)).2.1
    rw [List.getD_append_right _ _ _ _ (by omega),
      show w.length + 1 + (8 - t + k) - w.length = 8 - t + k + 1 by omega, List.getD_cons_succ,
      List.getD_eq_getElem _ _ (by omega)] at this
    rw [List.getElem_drop]
    exact this
  rw [← hzeros, List.take_append_drop]

/-- What an amount of less than `10 ^ 18` is written as. -/
theorem formatMoney_eq {n : ℕ} (hn : n < 10 ^ 18) :
    ∃ units t, formatMoney n false = printNat (n / 10 ^ 8) ++ pointChar :: units ∧
      zeroPad 8 (printNat (n % 10 ^ 8)) = units ++ List.replicate t 0x30 ∧
      units.length + t = 8 := by
  have hpad : (zeroPad 8 (printNat (n % 10 ^ 8))).length = 8 :=
    length_zeroPad (length_printNat_le (by decide) (Nat.mod_lt _ (by decide)))
  obtain ⟨t, ht, htrim, hplaces⟩ := trimCount_places (printNat (n / 10 ^ 8)) hpad
  have habs : (if (n : Int) > 0 then (n : Int) else Int64.wrap (-n)) = n := by
    split
    · rfl
    next h =>
      obtain rfl : n = 0 := by omega
      rfl
  have hquotient : (n : Int).tdiv COIN = (n / 10 ^ 8 : ℕ) := by
    rw [Int.tdiv_eq_ediv_of_nonneg (by omega)]
    rfl
  have hremainder : (n : Int).tmod COIN = (n % 10 ^ 8 : ℕ) := by
    rw [Int.tmod_eq_emod_of_nonneg (by omega)]
    rfl
  have hprint : printDec 8 ((n % 10 ^ 8 : ℕ) : Int) = zeroPad 8 (printNat (n % 10 ^ 8)) :=
    if_neg (by omega)
  have hlen : (printNat (n / 10 ^ 8) ++ pointChar :: zeroPad 8 (printNat (n % 10 ^ 8))).length =
      (printNat (n / 10 ^ 8)).length + 9 := by
    rw [List.length_append, List.length_cons, hpad]
  refine ⟨(zeroPad 8 (printNat (n % 10 ^ 8))).take (8 - t), t, ?_, hplaces, ?_⟩
  · unfold formatMoney
    dsimp only
    rw [habs, hquotient, hremainder, printDec_zero_natCast, hprint, List.append_assoc,
      List.singleton_append, hlen, Nat.add_sub_cancel (m := 1), htrim, if_neg (by omega),
      if_neg (by rw [Bool.false_and]; decide), List.take_append, List.take_of_length_le (by omega)]
    congr 1
    rw [show (printNat (n / 10 ^ 8)).length + 9 - t - (printNat (n / 10 ^ 8)).length =
      8 - t + 1 by omega, List.take_succ_cons]
  · rw [List.length_take, hpad]
    omega

/-- **What is written denotes the amount.** -/
theorem moneyText_formatMoney {n : ℕ} (hn : n < 10 ^ 18) :
    MoneyText (formatMoney n false) n ∧ 0 ∉ formatMoney n false := by
  obtain ⟨units, t, htext, hplaces, hlen⟩ := formatMoney_eq hn
  have hdigits : Digits (units ++ List.replicate t 0x30) :=
    hplaces ▸ (digits_printNat (n % 10 ^ 8)).zeroPad 8
  have hunits : Digits units := fun c hc => hdigits c (List.mem_append_left _ hc)
  have hwhole := digits_printNat (n / 10 ^ 8)
  have hvalue : decimal units * 10 ^ t = n % 10 ^ 8 := by
    have := congrArg decimal hplaces
    rw [decimal_zeroPad, decimal_printNat, decimal_append, decimal_zeros, Nat.add_zero,
      List.length_replicate] at this
    exact this.symm
  rw [htext]
  constructor
  · refine ⟨[], printNat (n / 10 ^ 8), pointChar :: units, units, [], by simp, by simp, by simp,
      hwhole, length_printNat_le (by decide) (by omega), hunits, by omega, Or.inr rfl, ?_⟩
    rw [decimal_printNat, show 8 - units.length = t by omega, hvalue, Nat.mul_comm,
      Nat.div_add_mod]
  · intro hnul
    rcases List.mem_append.mp hnul with h | h
    · exact absurd (hwhole 0 h) (by decide)
    · rcases List.mem_cons.mp h with h | h
      · exact absurd h (by decide)
      · exact absurd (hunits 0 h) (by decide)

end Format

/-! ## The round trip -/

section RoundTrip

/-- **Amounts as text.** Every amount below `10 ^ 18` is read back from what is written; and
`ParseMoney` succeeds exactly on the texts that denote an amount, with that amount. -/
theorem money_round_trip :
    (∀ n : Int, 0 ≤ n → n < 10 ^ 18 → parseMoney (formatMoney n false) = some n) ∧
    ∀ s : List UInt8, 0 ∉ s → ∀ n, parseMoney s = some n ↔ MoneyText s n := by
  refine ⟨fun n hn hlt => ?_, fun s hs => parseMoney_eq_some_iff hs⟩
  lift n to ℕ using hn
  obtain ⟨htext, hnul⟩ := moneyText_formatMoney (n := n) (by exact_mod_cast hlt)
  exact parseMoney_of_moneyText hnul htext

/-- An amount of one coin and a half, and a text that is refused for its ninth place. -/
theorem money_round_trip_samples : parseMoney (formatMoney 150000000 false) = some 150000000 ∧
    ¬ MoneyText (chars "0.123456789") 12345678 := by
  obtain ⟨hround, hread⟩ := money_round_trip
  refine ⟨hround 150000000 (by decide) (by decide), ?_⟩
  rw [← hread (chars "0.123456789") (by decide)]
  decide

end RoundTrip

end MotaCoin
