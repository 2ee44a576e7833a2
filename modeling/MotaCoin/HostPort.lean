import MotaCoin.Chars

/-!
# Hosts and ports

`SplitHostPort` takes the last colon of a text for a port separator when it is the only colon,
starts the text, or follows a bracketed host. The number after it is read by `strtol` and then
stored in an `int`, so that a number too large for an `int` is taken for another number.

## Main definitions

* `splitHostPort`: the function of `netbase.cpp`
* `SeparatingColon s k`: the colon at `k` separates a port
* `SplitsAsDocumented`: what the function is for
* `NumberFits`: the number after the colon survives the conversion to `int`

## Main results

* `splitHostPort_of_separatingColon`, `splitHostPort_of_not`: what the function does
* `split_host_port_iff`: it does what it is for exactly when the number fits
-/

namespace MotaCoin

/-! ## The function -/

section Function

def colonChar : UInt8 := 0x3A
def openChar : UInt8 := 0x5B
def closeChar : UInt8 := 0x5D

/-- `find_last_of(c)`. -/
def findLastOf (c : UInt8) : List UInt8 → Option ℕ
  | [] => none
  | x :: s =>
    match findLastOf c s with
    | some i => some (i + 1)
    | none => if x = c then some 0 else none

/-- A `long` stored in an `int`. -/
def intOfLong (x : Int) : Int := (x + 2 ^ 31) % 2 ^ 32 - 2 ^ 31

/-- The end of `SplitHostPort`: a pair of brackets around the host is removed. -/
def stripBrackets (s : List UInt8) : List UInt8 :=
  if s.length > 0 && s.getD 0 0 == openChar && s.getD (s.length - 1) 0 == closeChar then
    (s.drop 1).take (s.length - 2)
  else s

/-- `SplitHostPort`: the values of `portOut` and `hostOut` after the call. -/
def splitHostPort (s : List UInt8) (portOut : Int) : Int × List UInt8 :=
  let (s, portOut) :=
    match findLastOf colonChar s with
    | none => (s, portOut)
    | some colon =>
      -- when the text starts with a bracket, `colon - 1` is an index
      let fBracketed := s.getD 0 0 == openChar && s.getD (colon - 1) 0 == closeChar
      -- for a colon at the start `colon - 1` is `npos`, and the whole text is searched
      let fMultiColon := (findLastOf colonChar (if colon = 0 then s else s.take colon)).isSome
      if colon = 0 || fBracketed || !fMultiColon then
        let (v, endp) := strtol (s.drop (colon + 1))
        let n := intOfLong v
        if endp.getD 0 0 = 0 && n ≥ 0 then
          (s.take colon, if n > 0 && n < 0x10000 then n else portOut)
        else (s, portOut)
      else (s, portOut)
  (portOut, stripBrackets s)

end Function

/-! ## What the function is for -/

section Spec

/-- The last colon of `s` is at `k`, and it is the only one, or starts the text, or follows the
closing bracket of a text that starts with an opening one. -/
def SeparatingColon (s : List UInt8) (k : ℕ) : Prop :=
  s[k]? = some colonChar ∧ colonChar ∉ s.drop (k + 1) ∧
    (colonChar ∉ s.take k ∨ k = 0 ∨
      s[0]? = some openChar ∧ 0 < k ∧ s[k - 1]? = some closeChar)

/-- The host without a pair of brackets around it. -/
def Unbracketed (s host : List UInt8) : Prop :=
  (∃ inner, s = openChar :: (inner ++ [closeChar]) ∧ host = inner) ∨
    (∀ inner, s ≠ openChar :: (inner ++ [closeChar])) ∧ host = s

/-- The text after a separating colon is a number `v` that is not negative, and nothing else; no
text counts as zero. -/
def PortAfter (s : List UInt8) (k : ℕ) (v : Int) : Prop :=
  SeparatingColon s k ∧ readLong (s.drop (k + 1)) = (v, []) ∧ 0 ≤ v

/-- The split that is documented: the host before the colon and the port after it, when there is
one in range; else the whole text. -/
def SplitsAsDocumented (s : List UInt8) (portOut : Int) (r : Int × List UInt8) : Prop :=
  (∀ k v, PortAfter s k v → Unbracketed (s.take k) r.2 ∧
    r.1 = if 1 ≤ v ∧ v ≤ 65535 then v else portOut) ∧
  ((∀ k v, ¬ PortAfter s k v) → Unbracketed s r.2 ∧ r.1 = portOut)

/-- The number `v` survives its conversion: it keeps its sign, and is not taken for a port that it
is not, unless the port is that one already. -/
def NumberFits (portOut v : Int) : Prop :=
  if 0 ≤ v then
    v < 2 ^ 63 ∧ v % 2 ^ 32 < 2 ^ 31 ∧
      (v ≤ 65535 ∨ v % 2 ^ 32 = 0 ∨ 65535 < v % 2 ^ 32 ∨ portOut = v % 2 ^ 32)
  else -2 ^ 63 ≤ v ∧ 2 ^ 31 ≤ v % 2 ^ 32

/-- The number `v` is taken for a negative one. -/
def ReadAsNegative (v : Int) : Prop := 2 ^ 63 ≤ v ∨ -2 ^ 63 ≤ v ∧ 2 ^ 31 ≤ v % 2 ^ 32

/-- The number after a separating colon fits, when nothing follows it; and when a NUL follows it,
where `strtol` takes the text to end, it is read as a negative one. -/
def NumberSurvives (s : List UInt8) (portOut : Int) : Prop :=
  ∀ k, SeparatingColon s k →
    ((readLong (s.drop (k + 1))).2 = [] → NumberFits portOut (readLong (s.drop (k + 1))).1) ∧
    ((readLong (s.drop (k + 1))).2.head? = some 0 → ReadAsNegative (readLong (s.drop (k + 1))).1)

end Spec

/-! ## The separating colon -/

section Colon

variable {c : UInt8} {s : List UInt8} {k : ℕ}

theorem findLastOf_eq_none_iff : findLastOf c s = none ↔ c ∉ s := by
  induction s with
  | nil => simp [findLastOf]
  | cons x s ih =>
    rw [findLastOf, List.mem_cons, not_or]
    cases h : findLastOf c s with
    | some i =>
      rw [h] at ih
      exact iff_of_false (Option.some_ne_none _) fun hc =>
        absurd (ih.mpr hc.2) (Option.some_ne_none i)
    | none =>
      have hc : c ∉ s := ih.mp h
      dsimp only
      split
      next hx => exact iff_of_false (Option.some_ne_none _) fun h => h.1 hx.symm
      next hx => exact iff_of_true rfl ⟨fun h => hx h.symm, hc⟩

theorem findLastOf_eq_some_iff :
    findLastOf c s = some k ↔ s[k]? = some c ∧ c ∉ s.drop (k + 1) := by
  induction s generalizing k with
  | nil => simp [findLastOf]
  | cons x s ih =>
    rw [findLastOf]
    cases h : findLastOf c s with
    | some i =>
      have hi := (ih (k := i)).mp h
      have hmem : c ∈ s := List.mem_of_getElem? hi.1
      dsimp only
      cases k with
      | zero =>
        refine iff_of_false (by simp) fun hk => hk.2 ?_
        rwa [List.drop_succ_cons, List.drop_zero]
      | succ k =>
        rw [List.getElem?_cons_succ, List.drop_succ_cons, ← ih, h, Option.some_inj,
          Option.some_inj, Nat.add_right_cancel_iff]
    | none =>
      have hc : c ∉ s := findLastOf_eq_none_iff.mp h
      dsimp only
      cases k with
      | zero =>
        rw [List.getElem?_cons_zero, List.drop_succ_cons, List.drop_zero, Option.some_inj]
        split
        next hx => exact iff_of_true rfl ⟨hx, hc⟩
        next hx => exact iff_of_false nofun fun h => hx h.1
      | succ k =>
        refine iff_of_false (by split <;> simp) fun hk => hc ?_
        rw [List.getElem?_cons_succ] at hk
        exact List.mem_of_getElem? hk.1

theorem SeparatingColon.findLastOf (h : SeparatingColon s k) :
    MotaCoin.findLastOf colonChar s = some k := findLastOf_eq_some_iff.mpr ⟨h.1, h.2.1⟩

theorem SeparatingColon.unique {k' : ℕ} (h : SeparatingColon s k) (h' : SeparatingColon s k') :
    k = k' := Option.some.inj (h.findLastOf.symm.trans h'.findLastOf)

/-- A character that is not NUL, at an index. -/
theorem getD_beq_iff (hc : c ≠ 0) : (s.getD k 0 == c) = true ↔ s[k]? = some c := by
  rw [beq_iff_eq, List.getD_eq_getElem?_getD]
  cases s[k]? with
  | none => exact iff_of_false (fun h => hc h.symm) nofun
  | some x => rw [Option.getD_some, Option.some_inj]

/-- The three conditions on colon positions. -/
theorem separatingColon_iff (h : MotaCoin.findLastOf colonChar s = some k) :
    SeparatingColon s k ↔ (decide (k = 0) ||
      (s.getD 0 0 == openChar && s.getD (k - 1) 0 == closeChar) ||
      !(MotaCoin.findLastOf colonChar (if k = 0 then s else s.take k)).isSome) = true := by
  have hlast := findLastOf_eq_some_iff.mp h
  have hopen : openChar ≠ 0 := by decide
  have hclose : closeChar ≠ 0 := by decide
  rw [Bool.or_eq_true, Bool.or_eq_true, Bool.and_eq_true, decide_eq_true_iff,
    getD_beq_iff hopen, getD_beq_iff hclose, Bool.not_eq_true', Option.isSome_eq_false_iff,
    Option.isNone_iff_eq_none, findLastOf_eq_none_iff]
  unfold SeparatingColon
  by_cases hk : k = 0
  · exact iff_of_true ⟨hlast.1, hlast.2, Or.inr (Or.inl hk)⟩ (Or.inl (Or.inl hk))
  · rw [if_neg hk]
    have hpos : 0 < k := Nat.pos_of_ne_zero hk
    constructor
    · rintro ⟨-, -, h | h | ⟨hfirst, -, hbefore⟩⟩
      · exact Or.inr h
      · exact absurd h hk
      · exact Or.inl (Or.inr ⟨hfirst, hbefore⟩)
    · rintro ((h | ⟨hfirst, hbefore⟩) | h)
      · exact absurd h hk
      · exact ⟨hlast.1, hlast.2, Or.inr (Or.inr ⟨hfirst, hpos, hbefore⟩)⟩
      · exact ⟨hlast.1, hlast.2, Or.inl h⟩

/-- What the number after the colon is stored as. -/
def portNumber (s : List UInt8) (k : ℕ) : Int := intOfLong (strtol (s.drop (k + 1))).1

/-- **What the function does with a separating colon.** -/
theorem splitHostPort_of_separatingColon (h : SeparatingColon s k) (portOut : Int) :
    splitHostPort s portOut =
      if (readLong (s.drop (k + 1))).2.getD 0 0 = 0 ∧ portNumber s k ≥ 0 then
        (if portNumber s k > 0 ∧ portNumber s k < 0x10000 then portNumber s k else portOut,
          stripBrackets (s.take k))
      else (portOut, stripBrackets s) := by
  have hcolon := (separatingColon_iff h.findLastOf).mp h
  have hport : portNumber s k = intOfLong (strtol (s.drop (k + 1))).1 := rfl
  have hend : (readLong (s.drop (k + 1))).2 = (strtol (s.drop (k + 1))).2 := rfl
  unfold splitHostPort
  rw [h.findLastOf, hport, hend]
  dsimp only
  rw [if_pos hcolon]
  generalize strtol (s.drop (k + 1)) = r
  by_cases hif : r.2.getD 0 0 = 0 ∧ intOfLong r.1 ≥ 0
  · rw [if_pos hif, if_pos (by simpa using hif)]
    by_cases hin : intOfLong r.1 > 0 ∧ intOfLong r.1 < 0x10000
    · rw [if_pos hin, if_pos (by simpa using hin)]
    · rw [if_neg hin, if_neg (by simpa using hin)]
  · rw [if_neg hif, if_neg (by simpa using hif)]

/-- Without one, the text is the host. -/
theorem splitHostPort_of_not (h : ∀ k, ¬ SeparatingColon s k) (portOut : Int) :
    splitHostPort s portOut = (portOut, stripBrackets s) := by
  unfold splitHostPort
  cases hlast : MotaCoin.findLastOf colonChar s with
  | none => rfl
  | some k =>
    dsimp only
    rw [if_neg ((separatingColon_iff hlast).not.mp (h k))]

end Colon

/-! ## Brackets -/

section Brackets

variable {s : List UInt8} {k : ℕ}

theorem stripBrackets_bracketed (inner : List UInt8) :
    stripBrackets (openChar :: (inner ++ [closeChar])) = inner := by
  have hlen : (openChar :: (inner ++ [closeChar])).length = inner.length + 2 := by
    rw [List.length_cons, List.length_append, List.length_singleton]
  unfold stripBrackets
  rw [hlen, if_pos, List.drop_succ_cons, List.drop_zero, Nat.add_sub_cancel, List.take_left]
  simp

theorem stripBrackets_of_not (h : ∀ inner, s ≠ openChar :: (inner ++ [closeChar])) :
    stripBrackets s = s := by
  refine if_neg fun hif => ?_
  rw [Bool.and_eq_true, Bool.and_eq_true, getD_beq_iff (by decide), getD_beq_iff (by decide)] at hif
  obtain ⟨⟨-, hopen⟩, hclose⟩ := hif
  cases s with
  | nil => cases hopen
  | cons x s =>
    obtain rfl : x = openChar := Option.some.inj hopen
    cases s using List.reverseRecOn with
    | nil => exact absurd (Option.some.inj hclose) (by decide)
    | append_singleton inner y =>
      refine h inner ?_
      rw [List.length_cons, List.length_append, List.length_singleton, Nat.add_sub_cancel,
        List.getElem?_cons_succ, List.getElem?_append_right le_rfl, Nat.sub_self] at hclose
      rw [Option.some.inj hclose]

/-- **A pair of brackets is removed**, and only a pair of brackets. -/
theorem unbracketed_iff (s host : List UInt8) : Unbracketed s host ↔ host = stripBrackets s := by
  by_cases h : ∃ inner, s = openChar :: (inner ++ [closeChar])
  · obtain ⟨inner, rfl⟩ := h
    rw [stripBrackets_bracketed]
    constructor
    · rintro (⟨inner', heq, rfl⟩ | ⟨hne, -⟩)
      · exact (List.append_cancel_right (List.cons.inj heq).2).symm
      · exact absurd rfl (hne inner)
    · rintro rfl
      exact Or.inl ⟨_, rfl, rfl⟩
  · rw [not_exists] at h
    rw [stripBrackets_of_not h]
    exact ⟨fun hu => hu.elim (fun ⟨inner, heq, _⟩ => absurd heq (h inner)) And.right,
      fun hhost => Or.inr ⟨h, hhost⟩⟩

theorem length_stripBrackets_le (s : List UInt8) : (stripBrackets s).length ≤ s.length := by
  unfold stripBrackets
  split
  · rw [List.length_take, List.length_drop]
    omega
  · exact le_rfl

theorem le_length_stripBrackets (s : List UInt8) : s.length - 2 ≤ (stripBrackets s).length := by
  unfold stripBrackets
  split
  · rw [List.length_take, List.length_drop]
    omega
  · exact Nat.sub_le _ _

/-- A host with something after its colon is not the whole text. -/
theorem stripBrackets_take_ne (hk : k < s.length) (hne : s.drop (k + 1) ≠ [])
    (hclose : s.drop (k + 1) ≠ [closeChar]) : stripBrackets (s.take k) ≠ stripBrackets s := by
  intro heq
  have htake := length_stripBrackets_le (s.take k)
  have hpos := List.length_pos_iff.mpr hne
  rw [heq, List.length_take, Nat.min_eq_left hk.le] at htake
  rw [List.length_drop] at hpos
  have hwhole := le_length_stripBrackets s
  -- the brackets of the whole text leave one character after the colon, the closing bracket
  by_cases hb : ∃ inner, s = openChar :: (inner ++ [closeChar])
  · obtain ⟨inner, rfl⟩ := hb
    rw [stripBrackets_bracketed] at htake hwhole
    rw [List.length_cons, List.length_append, List.length_singleton] at hpos
    refine hclose ?_
    rw [← List.cons_append, List.drop_left' (by rw [List.length_cons]; omega)]
  · rw [stripBrackets_of_not (not_exists.mp hb)] at htake
    omega

end Brackets

/-! ## The number -/

section Number

variable {s : List UInt8} {k : ℕ} {v : Int}

/-- The number is read as a negative one. -/
theorem intOfLong_clampLong_neg_iff (v : Int) :
    intOfLong (clampLong v) < 0 ↔ ReadAsNegative v := by
  unfold intOfLong clampLong ReadAsNegative
  omega

/-- The number fits if it keeps its sign, and the port that it is taken for is the right one. -/
theorem numberFits_iff (portOut v : Int) : NumberFits portOut v ↔
    (0 ≤ v ↔ 0 ≤ intOfLong (clampLong v)) ∧ (0 ≤ v →
      (if intOfLong (clampLong v) > 0 ∧ intOfLong (clampLong v) < 0x10000 then
        intOfLong (clampLong v) else portOut) = if 1 ≤ v ∧ v ≤ 65535 then v else portOut) := by
  unfold NumberFits intOfLong clampLong
  split_ifs <;> omega

theorem length_takeSign_le (p : List UInt8) :
    (takeSign p).2.length + (takeSign p).1.toNat ≤ p.length := by
  unfold takeSign
  split <;> simp

/-- A text that is read to its end is empty, or has digits behind its sign. -/
theorem readLong_cases (h : readLong s = (v, [])) : s = [] ∧ v = 0 ∨
    ∃ (neg : Bool) (ds : List UInt8), Digits ds ∧ ds ≠ [] ∧ ds.length + neg.toNat ≤ s.length ∧
      v = if neg then -(decimal ds : Int) else decimal ds := by
  have hblanks : (s.dropWhile isSpace).length ≤ s.length := (List.dropWhile_sublist _).length_le
  have hsign := length_takeSign_le (s.dropWhile isSpace)
  unfold readLong at h
  dsimp only at h
  generalize takeSign (s.dropWhile isSpace) = r at h hsign
  split_ifs at h with hds hneg
  · obtain ⟨rfl, rfl⟩ := Prod.mk.inj h
    exact Or.inl ⟨rfl, rfl⟩
  all_goals
    obtain ⟨rfl, -⟩ := Prod.mk.inj h
    have hle := (List.takeWhile_sublist (l := r.2) isDigit).length_le
    exact Or.inr ⟨r.1, _, digits_takeWhile r.2, hds, by omega, by simp [hneg]⟩

/-- A number that does not keep its sign has more than one character. -/
theorem two_le_length (h : readLong s = (v, []))
    (hsign : ¬ (0 ≤ v ↔ 0 ≤ intOfLong (clampLong v))) : 2 ≤ s.length := by
  by_contra hshort
  refine hsign ?_
  rcases readLong_cases h with ⟨-, rfl⟩ | ⟨neg, ds, hdigits, hne, hlen, rfl⟩
  · decide
  · have hpos := List.length_pos_iff.mpr hne
    have hlt := decimal_lt hdigits
    have hone : ds.length = 1 ∧ neg = false := by
      cases neg <;> simp at hlen ⊢ <;> omega
    rw [hone.1] at hlt
    rw [hone.2, if_neg Bool.false_ne_true]
    unfold intOfLong clampLong
    omega

end Number

/-! ## The split -/

section Split

variable {s : List UInt8} {k : ℕ} {portOut : Int}

/-- The documented split of a text with a separating colon. -/
theorem splitsAsDocumented_iff (h : SeparatingColon s k) (r : Int × List UInt8) :
    SplitsAsDocumented s portOut r ↔
      if (readLong (s.drop (k + 1))).2 = [] ∧ 0 ≤ (readLong (s.drop (k + 1))).1 then
        r = (if 1 ≤ (readLong (s.drop (k + 1))).1 ∧ (readLong (s.drop (k + 1))).1 ≤ 65535 then
          (readLong (s.drop (k + 1))).1 else portOut, stripBrackets (s.take k))
      else r = (portOut, stripBrackets s) := by
  have hport : ∀ k' v, PortAfter s k' v ↔ k' = k ∧ (readLong (s.drop (k + 1))).1 = v ∧
      (readLong (s.drop (k + 1))).2 = [] ∧ 0 ≤ (readLong (s.drop (k + 1))).1 := by
    intro k' v
    constructor
    · rintro ⟨hsep, hread, hv⟩
      obtain rfl := hsep.unique h
      rw [hread]
      exact ⟨rfl, rfl, rfl, hv⟩
    · rintro ⟨rfl, rfl, hrest, hv⟩
      exact ⟨h, Prod.ext rfl hrest, hv⟩
  unfold SplitsAsDocumented
  by_cases hif : (readLong (s.drop (k + 1))).2 = [] ∧ 0 ≤ (readLong (s.drop (k + 1))).1
  · rw [if_pos hif, Prod.ext_iff, ← unbracketed_iff]
    constructor
    · rintro ⟨hdoc, -⟩
      exact (hdoc k _ ((hport k _).mpr ⟨rfl, rfl, hif⟩)).symm
    · rintro ⟨hfst, hsnd⟩
      refine ⟨fun k' v hp => ?_, fun hnone => absurd ((hport k _).mpr ⟨rfl, rfl, hif⟩) (hnone k _)⟩
      obtain ⟨rfl, rfl, -⟩ := (hport k' v).mp hp
      exact ⟨hsnd, hfst⟩
  · rw [if_neg hif, Prod.ext_iff, ← unbracketed_iff]
    have hnone : ∀ k' v, ¬ PortAfter s k' v := fun k' v hp => hif ((hport k' v).mp hp).2.2
    exact ⟨fun hdoc => (hdoc.2 hnone).symm, fun hr => ⟨fun k' v hp => absurd hp (hnone k' v),
      fun _ => hr.symm⟩⟩

/-- **The documented split is made exactly when the number survives its conversion.** -/
theorem split_host_port_iff (s : List UInt8) (portOut : Int) :
    SplitsAsDocumented s portOut (splitHostPort s portOut) ↔ NumberSurvives s portOut := by
  by_cases hsep : ∃ k, SeparatingColon s k
  · obtain ⟨k, h⟩ := hsep
    have hk : k < s.length := (List.getElem?_eq_some_iff.mp h.1).1
    have hsurvives : NumberSurvives s portOut ↔
        ((readLong (s.drop (k + 1))).2 = [] → NumberFits portOut (readLong (s.drop (k + 1))).1) ∧
        ((readLong (s.drop (k + 1))).2.head? = some 0 →
          ReadAsNegative (readLong (s.drop (k + 1))).1) :=
      ⟨fun hall => hall k h, fun hk k' h' => h.unique h' ▸ hk⟩
    have hnumber : portNumber s k = intOfLong (clampLong (readLong (s.drop (k + 1))).1) := rfl
    rw [splitsAsDocumented_iff h, splitHostPort_of_separatingColon h, hsurvives, hnumber,
      numberFits_iff, ← intOfLong_clampLong_neg_iff]
    obtain ⟨⟨v, rest⟩, hread⟩ : ∃ r, readLong (s.drop (k + 1)) = r := ⟨_, rfl⟩
    rw [hread]
    dsimp only
    have hne : ∀ x : Int, stripBrackets (s.take k) ≠ stripBrackets s →
        (x, stripBrackets (s.take k)) ≠ (portOut, stripBrackets s) := fun x h heq =>
      h (Prod.mk.inj heq).2
    cases rest with
    | nil =>
      -- the whole text was read; its sign decides whether there is a port
      have hhosts : ¬ (0 ≤ v ↔ 0 ≤ intOfLong (clampLong v)) →
          stripBrackets (s.take k) ≠ stripBrackets s := by
        intro hsign
        have hlen := two_le_length hread hsign
        refine stripBrackets_take_ne hk ?_ ?_ <;> rintro heq <;> rw [heq] at hlen <;> simp at hlen
      by_cases hv : 0 ≤ v <;> by_cases hn : 0 ≤ intOfLong (clampLong v)
      · rw [if_pos ⟨rfl, hv⟩, if_pos ⟨rfl, hn⟩, Prod.ext_iff]
        simp [hv, hn]
      · have := hhosts fun h => hn (h.mp hv)
        rw [if_pos ⟨rfl, hv⟩, if_neg fun h => hn h.2]
        exact iff_of_false (fun heq => this (Prod.mk.inj heq).2.symm) fun h =>
          hn ((h.1 rfl).1.mp hv)
      · have := hhosts fun h => hv (h.mpr hn)
        rw [if_neg fun h => hv h.2, if_pos ⟨rfl, hn⟩]
        exact iff_of_false (hne _ this) fun h => hv ((h.1 rfl).1.mpr hn)
      · rw [if_neg fun h => hv h.2, if_neg fun h => hn h.2]
        exact iff_of_true rfl ⟨fun _ => ⟨iff_of_false hv hn, fun h => absurd h hv⟩, nofun⟩
    | cons c rest =>
      -- something is left, which `strtol` takes for the end when it is a NUL
      rw [if_neg fun h => List.cons_ne_nil _ _ h.1, List.getD_cons_zero, List.head?_cons,
        Option.some_inj]
      by_cases hif : c = 0 ∧ intOfLong (clampLong v) ≥ 0
      · obtain ⟨rfl, hn⟩ := hif
        have hhosts : stripBrackets (s.take k) ≠ stripBrackets s := by
          refine stripBrackets_take_ne hk ?_ ?_ <;> rintro heq <;> rw [heq] at hread
          · exact List.cons_ne_nil _ _ (Prod.mk.inj hread).2.symm
          · have hclose : readLong [closeChar] = (0, [closeChar]) := by decide
            rw [hclose] at hread
            exact absurd (List.cons.inj (Prod.mk.inj hread).2).1 (by decide)
        rw [if_pos ⟨rfl, hn⟩]
        exact iff_of_false (hne _ hhosts) fun h => absurd (h.2 rfl) (not_lt.mpr hn)
      · rw [if_neg hif]
        refine iff_of_true rfl ⟨nofun, fun hc => ?_⟩
        exact lt_of_not_ge fun hn => hif ⟨hc, hn⟩
  · rw [not_exists] at hsep
    rw [splitHostPort_of_not hsep]
    refine iff_of_true ⟨fun k v hp => absurd hp.1 (hsep k), fun _ => ?_⟩ fun k h =>
      absurd h (hsep k)
    exact ⟨(unbracketed_iff s _).mpr rfl, rfl⟩

/-- `"host:4294967376"`, with the number `2 ^ 32 + 80` after its colon. -/
def overflowingPort : List UInt8 := chars "host:4294967376"

/-- The documented split leaves the port unchanged; the function sets it to 80. -/
theorem split_host_port_overflow : splitHostPort overflowingPort 0 = (80, chars "host") ∧
    ¬ SplitsAsDocumented overflowingPort 0 (splitHostPort overflowingPort 0) := by
  have hsep : SeparatingColon overflowingPort 4 := by
    refine ⟨by decide, by decide, Or.inl (by decide)⟩
  have hread : readLong (overflowingPort.drop 5) = (4294967376, []) := by decide
  have hsplit : splitHostPort overflowingPort 0 = (80, chars "host") := by decide
  refine ⟨hsplit, fun hdoc => ?_⟩
  have := (hdoc.1 4 4294967376 ⟨hsep, hread, by decide⟩).2
  rw [hsplit] at this
  exact absurd this (by decide)

end Split

end MotaCoin
