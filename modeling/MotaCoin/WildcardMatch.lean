import Mathlib.Computability.Language
import MotaCoin.Chars

/-!
# Wildcard masks

`WildcardMatch` compares a text with a mask character by character; at a star it tries the rest of
the mask on every end of the text. A pointer into a C string is the list of the bytes from there to
the end of its array, and reading beyond the array is a call without a result.

## Main definitions

* `wildcardMatch`: `WildcardMatch` on two pointers
* `maskLanguage`: the texts that a mask stands for

## Main results

* `wildcardMatch_spec`: the call ends within the two strings, and finds the texts of the mask
-/

namespace MotaCoin

/-! ## The texts of a mask -/

section Mask

/-- What a character of a mask stands for. -/
def maskChar (c : UInt8) : Language UInt8 :=
  {s | if c = 0x2A then True else if c = 0x3F then s.length = 1 else s = [c]}

/-- The texts that a mask stands for: those of its characters, one after the other. -/
def maskLanguage (mask : List UInt8) : Language UInt8 := (mask.map maskChar).prod

variable {psz mask : List UInt8} {c : UInt8}

theorem mem_maskLanguage_nil : psz ∈ maskLanguage [] ↔ psz = [] := Language.mem_one psz

theorem maskLanguage_cons (c : UInt8) (mask : List UInt8) :
    maskLanguage (c :: mask) = maskChar c * maskLanguage mask := by
  simp [maskLanguage]

/-- A star takes nothing, or one character and then what a star takes. -/
theorem mem_maskLanguage_star : psz ∈ maskLanguage (0x2A :: mask) ↔
    psz ∈ maskLanguage mask ∨ ∃ c t, psz = c :: t ∧ t ∈ maskLanguage (0x2A :: mask) := by
  have hstar (s : List UInt8) : s ∈ maskChar 0x2A := trivial
  simp only [maskLanguage_cons, Language.mem_mul]
  constructor
  · rintro ⟨front, -, rest, hrest, rfl⟩
    cases front with
    | nil => exact Or.inl hrest
    | cons c t => exact Or.inr ⟨c, t ++ rest, rfl, t, hstar t, rest, hrest, rfl⟩
  · rintro (hnone | ⟨c, t, rfl, front, -, rest, hrest, rfl⟩)
    · exact ⟨[], hstar [], psz, hnone, rfl⟩
    · exact ⟨c :: front, hstar _, rest, hrest, rfl⟩

theorem mem_maskLanguage_question :
    psz ∈ maskLanguage (0x3F :: mask) ↔ ∃ c t, psz = c :: t ∧ t ∈ maskLanguage mask := by
  have hone (s : List UInt8) : s ∈ maskChar 0x3F ↔ ∃ c, s = [c] := List.length_eq_one_iff
  simp only [maskLanguage_cons, Language.mem_mul]
  constructor
  · rintro ⟨front, hfront, rest, hrest, rfl⟩
    obtain ⟨c, rfl⟩ := (hone front).mp hfront
    exact ⟨c, rest, rfl, hrest⟩
  · rintro ⟨c, t, rfl, ht⟩
    exact ⟨[c], (hone _).mpr ⟨c, rfl⟩, t, ht, rfl⟩

/-- Every other character stands for itself. -/
theorem mem_maskLanguage_char (hstar : c ≠ 0x2A) (hquestion : c ≠ 0x3F) :
    psz ∈ maskLanguage (c :: mask) ↔ ∃ t, psz = c :: t ∧ t ∈ maskLanguage mask := by
  have hone (s : List UInt8) : s ∈ maskChar c ↔ s = [c] := by
    show (if c = 0x2A then True else if c = 0x3F then s.length = 1 else s = [c]) ↔ s = [c]
    rw [if_neg hstar, if_neg hquestion]
  simp only [maskLanguage_cons, Language.mem_mul, hone]
  constructor
  · rintro ⟨front, rfl, rest, hrest, rfl⟩
    exact ⟨rest, rfl, hrest⟩
  · rintro ⟨t, rfl, ht⟩
    exact ⟨[c], rfl, t, ht, rfl⟩

end Mask

/-! ## The matcher -/

section Match

/-- `WildcardMatch(psz, mask)`; there is no result where a pointer is read that is past the end of
its array. The `while` is the last call of each branch. -/
def wildcardMatch (psz mask : List UInt8) : Option Bool :=
  match mask with
  | [] => none
  | m :: mask' =>
    if m = 0 then psz.head?.map (· == 0)
    else if m = 0x2A then
      match wildcardMatch psz mask' with
      | some false =>
        match psz with
        | [] => none
        | c :: psz' => if c = 0 then some false else wildcardMatch psz' (m :: mask')
      | r => r
    else if m = 0x3F then
      match psz with
      | [] => none
      | c :: psz' => if c = 0 then some false else wildcardMatch psz' mask'
    else
      match psz with
      | [] => none
      | c :: psz' => if c ≠ m then some false else wildcardMatch psz' mask'
termination_by mask.length + psz.length

/-- The result of a call that ends within the two strings. -/
def MatchEnds (psz mask past past' : List UInt8) : Prop :=
  ∃ r, wildcardMatch (psz ++ 0 :: past) (mask ++ 0 :: past') = some r ∧
    (r = true ↔ psz ∈ maskLanguage mask)

variable {psz mask past past' : List UInt8} {c m : UInt8}

theorem matchEnds_nil (hpsz : 0 ∉ psz) : MatchEnds psz [] past past' := by
  rw [MatchEnds, List.nil_append, wildcardMatch.eq_def]
  simp only [if_true, mem_maskLanguage_nil]
  cases psz with
  | nil => exact ⟨true, rfl, by simp⟩
  | cons c t =>
    have hc : c ≠ 0 := fun h => hpsz (h ▸ List.mem_cons_self ..)
    exact ⟨false, by simp [hc], by simp⟩

/-- A question mark passes over one character, and fails at the end of the text. -/
theorem matchEnds_question (hpsz : 0 ∉ psz)
    (ih : ∀ t, 0 ∉ t → MatchEnds t mask past past') : MatchEnds psz (0x3F :: mask) past past' := by
  rw [MatchEnds, List.cons_append, wildcardMatch.eq_def]
  simp only [mem_maskLanguage_question]
  cases psz with
  | nil => exact ⟨false, by simp, by simp⟩
  | cons c t =>
    rw [List.mem_cons, not_or] at hpsz
    obtain ⟨r, hr, hiff⟩ := ih t hpsz.2
    refine ⟨r, ?_, ?_⟩
    · simpa [Ne.symm hpsz.1] using hr
    · simpa using hiff

/-- Another character is compared; the end of the text is none of them. -/
theorem matchEnds_char (hm : m ≠ 0) (hstar : m ≠ 0x2A) (hquestion : m ≠ 0x3F) (hpsz : 0 ∉ psz)
    (ih : ∀ t, 0 ∉ t → MatchEnds t mask past past') : MatchEnds psz (m :: mask) past past' := by
  rw [MatchEnds, List.cons_append, wildcardMatch.eq_def]
  simp only [if_neg hm, if_neg hstar, if_neg hquestion, mem_maskLanguage_char hstar hquestion]
  cases psz with
  | nil => exact ⟨false, by simp [hm.symm], by simp⟩
  | cons c t =>
    rw [List.mem_cons, not_or] at hpsz
    obtain ⟨r, hr, hiff⟩ := ih t hpsz.2
    by_cases hc : c = m
    · exact ⟨r, by simpa [hc] using hr, by simpa [hc] using hiff⟩
    · exact ⟨false, by simp [hc], by simp [hc]⟩

/-- A star: first the rest of the mask is tried, and then a text that is shorter by one. -/
theorem matchEnds_star (hpsz : 0 ∉ psz)
    (ih : ∀ t, 0 ∉ t → MatchEnds t mask past past') : MatchEnds psz (0x2A :: mask) past past' := by
  induction psz with
  | nil =>
    obtain ⟨r, hr, hiff⟩ := ih [] hpsz
    rw [MatchEnds, List.cons_append, wildcardMatch.eq_def, mem_maskLanguage_star, ← hiff]
    simp only [hr]
    -- at the end of the text nothing is left to try
    cases r with
    | true => exact ⟨true, by simp, by simp⟩
    | false => exact ⟨false, by simp, by simp⟩
  | cons c t iht =>
    obtain ⟨r, hr, hiff⟩ := ih (c :: t) hpsz
    rw [List.mem_cons, not_or] at hpsz
    obtain ⟨r', hr', hiff'⟩ := iht hpsz.2
    rw [List.cons_append] at hr hr'
    rw [MatchEnds, List.cons_append, List.cons_append, wildcardMatch.eq_def, mem_maskLanguage_star,
      ← hiff]
    simp only [hr]
    cases r with
    | true => exact ⟨true, by simp, by simp⟩
    | false =>
      refine ⟨r', ?_, ?_⟩
      · simpa [Ne.symm hpsz.1] using hr'
      · simpa using hiff'

/-- The call ends within the two strings, whatever the mask. -/
theorem matchEnds_all (hpsz : 0 ∉ psz) (hmask : 0 ∉ mask) (past past' : List UInt8) :
    MatchEnds psz mask past past' := by
  induction mask generalizing psz with
  | nil => exact matchEnds_nil hpsz
  | cons m mask ih =>
    rw [List.mem_cons, not_or] at hmask
    have ih (t : List UInt8) (ht : 0 ∉ t) : MatchEnds t mask past past' := ih ht hmask.2
    by_cases hstar : m = 0x2A
    · rw [hstar]
      exact matchEnds_star hpsz ih
    · by_cases hquestion : m = 0x3F
      · rw [hquestion]
        exact matchEnds_question hpsz ih
      · exact matchEnds_char (Ne.symm hmask.1) hstar hquestion hpsz ih

/-- **A text and a mask.** The call has a result, even where the arrays end with the terminators; it
depends on nothing behind them, and is true for the texts of the mask. -/
theorem wildcardMatch_spec (hpsz : 0 ∉ psz) (hmask : 0 ∉ mask) :
    ∃ r, (∀ past past', wildcardMatch (psz ++ 0 :: past) (mask ++ 0 :: past') = some r) ∧
      (r = true ↔ psz ∈ maskLanguage mask) := by
  obtain ⟨r, hr, hiff⟩ := matchEnds_all hpsz hmask [] []
  refine ⟨r, fun past past' => ?_, hiff⟩
  -- a text is one of the mask or not, whatever is behind it
  obtain ⟨r', hr', hiff'⟩ := matchEnds_all hpsz hmask past past'
  rw [hr', Bool.eq_iff_iff.mpr (hiff'.trans hiff.symm)]

/-- An address and a mask with a star. -/
theorem wildcardMatch_spec_address :
    ∃ r, (∀ past past', wildcardMatch (chars "127.0.0.1" ++ 0 :: past) (chars "127.*" ++ 0 :: past') =
      some r) ∧ (r = true ↔ chars "127.0.0.1" ∈ maskLanguage (chars "127.*")) :=
  wildcardMatch_spec (by decide) (by decide)

end Match

end MotaCoin
