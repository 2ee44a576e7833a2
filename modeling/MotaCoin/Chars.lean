import MotaCoin.Lib.Int64
import Mathlib.Data.List.TakeWhile
import Mathlib.Data.Nat.Digits.Lemmas

/-!
# Characters and C strings

A string of the source is a list of bytes. What the functions on text use of the C library is
defined here: the character classes of the C locale, a string up to its first NUL, and numbers in
decimal, printed and read. A `long` has 64 bits.

## Main definitions

* `chars s`: the bytes of an ASCII text
* `isSpace`, `isDigit`, `toLower`: the character classes
* `cStr s`: the string as a C function sees it
* `decimal s`: the number that digits denote
* `printDec w x`: what `printf` prints for `%0wd`
* `strtol s`: the number at the front of a text, and what is left

## Main results

* `decimal_append`, `decimal_lt`: numbers of several digits
* `decimal_printNat`, `length_printNat_le`: what is printed denotes the number
* `decimal_zeroPad`: leading zeros change nothing
-/

namespace MotaCoin

/-! ## Characters -/

section Chars

/-- The bytes of an ASCII text. -/
def chars (s : String) : List UInt8 := s.toList.map fun c => UInt8.ofNat c.toNat

/-- `isspace` in the C locale. -/
def isSpace (c : UInt8) : Bool := c == 0x20 || (0x09 ≤ c && c ≤ 0x0D)

/-- `isdigit`. -/
def isDigit (c : UInt8) : Bool := 0x30 ≤ c && c ≤ 0x39

/-- `tolower` in the C locale. -/
def toLower (c : UInt8) : UInt8 := if 0x41 ≤ c && c ≤ 0x5A then c + 0x20 else c

/-- The string up to its first NUL, as the functions that take a `const char*` see it. -/
def cStr (s : List UInt8) : List UInt8 := s.takeWhile (· ≠ 0)

theorem cStr_eq_self {s : List UInt8} (h : 0 ∉ s) : cStr s = s := by
  refine List.takeWhile_eq_self_iff.mpr fun c hc => decide_eq_true ?_
  rintro rfl
  exact h hc

theorem isDigit_iff (c : UInt8) : isDigit c = true ↔ 48 ≤ c.toNat ∧ c.toNat ≤ 57 := by
  rw [isDigit, Bool.and_eq_true, decide_eq_true_iff, decide_eq_true_iff, UInt8.le_iff_toNat_le,
    UInt8.le_iff_toNat_le]
  rfl

theorem isSpace_iff (c : UInt8) :
    isSpace c = true ↔ c.toNat = 32 ∨ 9 ≤ c.toNat ∧ c.toNat ≤ 13 := by
  rw [isSpace, Bool.or_eq_true, Bool.and_eq_true, beq_iff_eq, decide_eq_true_iff,
    decide_eq_true_iff, UInt8.le_iff_toNat_le, UInt8.le_iff_toNat_le, ← UInt8.toNat_inj]
  rfl

theorem isSpace_eq_false_of_isDigit {c : UInt8} (h : isDigit c = true) : isSpace c = false := by
  rw [isDigit_iff] at h
  rw [Bool.eq_false_iff, Ne, isSpace_iff]
  omega

/-- What is left after the characters of a class. -/
theorem drop_length_takeWhile (f : UInt8 → Bool) (p : List UInt8) :
    p.drop (p.takeWhile f).length = p.dropWhile f :=
  List.append_cancel_left ((List.prefix_iff_eq_append.mp (List.takeWhile_prefix f)).trans
    List.takeWhile_append_dropWhile.symm)

theorem head_dropWhile {f : UInt8 → Bool} {p : List UInt8} {c : UInt8}
    (h : c ∈ (p.dropWhile f).head?) : f c = false := by
  have := List.head?_dropWhile_not f p
  rw [Option.mem_def.mp h] at this
  simpa using this

end Chars

/-! ## Decimal numbers -/

section Decimal

variable {s : List UInt8}

/-- The value of a digit. -/
def digitVal (c : UInt8) : ℕ := c.toNat - 48

/-- The number that digits denote, most significant first. -/
def decimal (s : List UInt8) : ℕ := s.foldl (fun n c => n * 10 + digitVal c) 0

/-- All characters are digits. -/
def Digits (s : List UInt8) : Prop := ∀ c ∈ s, isDigit c = true

instance (s : List UInt8) : Decidable (Digits s) := inferInstanceAs (Decidable (∀ c ∈ s, _))

theorem digitVal_lt {c : UInt8} (h : isDigit c = true) : digitVal c < 10 := by
  rw [isDigit_iff] at h
  unfold digitVal
  omega

@[simp] theorem decimal_nil : decimal [] = 0 := rfl

theorem decimal_append_singleton (s : List UInt8) (c : UInt8) :
    decimal (s ++ [c]) = decimal s * 10 + digitVal c := by
  rw [decimal, List.foldl_append]
  rfl

theorem decimal_append (s t : List UInt8) :
    decimal (s ++ t) = decimal s * 10 ^ t.length + decimal t := by
  induction t using List.reverseRecOn with
  | nil => rw [List.append_nil, List.length_nil, pow_zero, Nat.mul_one, decimal_nil, Nat.add_zero]
  | append_singleton t c ih =>
    rw [← List.append_assoc, decimal_append_singleton, ih, decimal_append_singleton,
      List.length_append, List.length_singleton, pow_succ]
    ring

theorem decimal_cons (c : UInt8) (s : List UInt8) :
    decimal (c :: s) = digitVal c * 10 ^ s.length + decimal s := by
  have hone : decimal [c] = digitVal c := Nat.zero_add _
  rw [← List.singleton_append, decimal_append, hone]

@[simp] theorem decimal_zeros (k : ℕ) : decimal (List.replicate k 0x30) = 0 := by
  induction k with
  | zero => rfl
  | succ k ih => rw [List.replicate_succ', decimal_append_singleton, ih]; rfl

theorem decimal_lt (h : Digits s) : decimal s < 10 ^ s.length := by
  induction s using List.reverseRecOn with
  | nil => exact Nat.one_pos
  | append_singleton s c ih =>
    have hs := ih fun c hc => h c (List.mem_append_left _ hc)
    have hc := digitVal_lt (h c (by simp))
    rw [decimal_append_singleton, List.length_append, List.length_singleton, pow_succ]
    omega

theorem Digits.append {t : List UInt8} (hs : Digits s) (ht : Digits t) : Digits (s ++ t) := by
  intro c hc
  rcases List.mem_append.mp hc with hc | hc
  · exact hs c hc
  · exact ht c hc

theorem digits_takeWhile (s : List UInt8) : Digits (s.takeWhile isDigit) := fun _ hc =>
  List.mem_takeWhile_imp hc

end Decimal

/-! ## Printing -/

section Print

/-- The character of a digit. -/
def digitChar (d : ℕ) : UInt8 := UInt8.ofNat (48 + d)

/-- A number in decimal. -/
def printNat (n : ℕ) : List UInt8 :=
  if n = 0 then [0x30] else (Nat.digits 10 n).reverse.map digitChar

/-- Zeros in front, up to a width. -/
def zeroPad (w : ℕ) (s : List UInt8) : List UInt8 := List.replicate (w - s.length) 0x30 ++ s

/-- What `printf` prints for `%0wd`. -/
def printDec (w : ℕ) (x : Int) : List UInt8 :=
  if x < 0 then 0x2D :: zeroPad (w - 1) (printNat x.natAbs) else zeroPad w (printNat x.toNat)

theorem toNat_digitChar {d : ℕ} (h : d < 10) : (digitChar d).toNat = 48 + d :=
  UInt8.toNat_ofNat_of_lt' (show 48 + d < 256 by omega)

theorem isDigit_digitChar {d : ℕ} (h : d < 10) : isDigit (digitChar d) = true := by
  rw [isDigit_iff, toNat_digitChar h]
  omega

theorem digitVal_digitChar {d : ℕ} (h : d < 10) : digitVal (digitChar d) = d := by
  rw [digitVal, toNat_digitChar h, Nat.add_sub_cancel_left]

theorem digits_printNat (n : ℕ) : Digits (printNat n) := by
  unfold printNat
  split
  · intro c hc
    rw [List.mem_singleton.mp hc]
    rfl
  · intro c hc
    obtain ⟨d, hd, rfl⟩ := List.mem_map.mp hc
    exact isDigit_digitChar (Nat.digits_lt_base (by decide) (List.mem_reverse.mp hd))

/-- Digits of a number, printed, denote the number. -/
theorem decimal_map_digitChar {ds : List ℕ} (h : ∀ d ∈ ds, d < 10) :
    decimal (ds.reverse.map digitChar) = Nat.ofDigits 10 ds := by
  induction ds with
  | nil => rfl
  | cons d ds ih =>
    rw [List.forall_mem_cons] at h
    rw [List.reverse_cons, List.map_append, List.map_singleton, decimal_append_singleton, ih h.2,
      digitVal_digitChar h.1, Nat.ofDigits_cons]
    omega

/-- **What is printed denotes the number.** -/
theorem decimal_printNat (n : ℕ) : decimal (printNat n) = n := by
  unfold printNat
  split
  next hzero => rw [hzero]; rfl
  next =>
    rw [decimal_map_digitChar fun d hd => Nat.digits_lt_base (by decide) hd, Nat.ofDigits_digits]

theorem length_printNat_le {n k : ℕ} (hk : 0 < k) (h : n < 10 ^ k) : (printNat n).length ≤ k := by
  unfold printNat
  split
  · exact hk
  · rw [List.length_map, List.length_reverse]
    exact (Nat.digits_length_le_iff (by decide) n).mpr h

@[simp] theorem decimal_zeroPad (w : ℕ) (s : List UInt8) : decimal (zeroPad w s) = decimal s := by
  rw [zeroPad, decimal_append, decimal_zeros, Nat.zero_mul, Nat.zero_add]

theorem length_zeroPad {w : ℕ} {s : List UInt8} (h : s.length ≤ w) :
    (zeroPad w s).length = w := by
  rw [zeroPad, List.length_append, List.length_replicate]
  omega

theorem Digits.zeroPad {s : List UInt8} (h : Digits s) (w : ℕ) : Digits (zeroPad w s) :=
  Digits.append (fun c hc => by rw [List.eq_of_mem_replicate hc]; rfl) h

@[simp] theorem printDec_zero_natCast (n : ℕ) : printDec 0 n = printNat n := by
  rw [printDec, if_neg (by omega), zeroPad, Nat.zero_sub, List.replicate_zero, List.nil_append,
    Int.toNat_natCast]

end Print

/-! ## Reading -/

section Read

/-- A number brought into the range of a `long`. -/
def clampLong (x : Int) : Int := max (-2 ^ 63) (min x (2 ^ 63 - 1))

/-- The sign in front of a number, and the text after it. -/
def takeSign : List UInt8 → Bool × List UInt8
  | 0x2B :: p => (false, p)
  | 0x2D :: p => (true, p)
  | p => (false, p)

/-- The number at the front of a text, before it is brought into range, and what is left: blanks,
a sign and digits are read, and nothing at all when there are no digits. -/
def readLong (s : List UInt8) : Int × List UInt8 :=
  let (neg, p) := takeSign (s.dropWhile isSpace)
  let ds := p.takeWhile isDigit
  if ds = [] then (0, s) else (if neg then -decimal ds else decimal ds, p.drop ds.length)

/-- `strtol` in base ten: the number, and where it ends. -/
def strtol (s : List UInt8) : Int × List UInt8 := (clampLong (readLong s).1, (readLong s).2)

/-- Blanks in front are passed over, and nothing but blanks. -/
theorem dropWhile_isSpace {lead s : List UInt8} (hlead : ∀ c ∈ lead, isSpace c = true)
    (hs : ∀ c ∈ s.head?, isSpace c = false) : (lead ++ s).dropWhile isSpace = s := by
  rw [List.dropWhile_append_of_pos hlead]
  cases s with
  | nil => rfl
  | cons c s => rw [List.dropWhile_cons_of_neg (by simp [hs c rfl])]

theorem takeSign_of_isDigit {c : UInt8} (h : isDigit c = true) (s : List UInt8) :
    takeSign (c :: s) = (false, c :: s) := by
  rw [isDigit_iff] at h
  unfold takeSign
  split
  next heq =>
    obtain ⟨rfl, -⟩ := List.cons.inj heq
    exact absurd h.1 (by decide)
  next heq =>
    obtain ⟨rfl, -⟩ := List.cons.inj heq
    exact absurd h.1 (by decide)
  next => rfl

/-- Digits alone are read as the number that they denote. -/
theorem readLong_digits {s : List UInt8} (h : Digits s) : readLong s = ((decimal s : Int), []) := by
  cases s with
  | nil => rfl
  | cons c s =>
    have hc : isDigit c = true := h c (List.mem_cons_self ..)
    have hdrop := @dropWhile_isSpace [] (c :: s) (by simp)
      (by simpa using isSpace_eq_false_of_isDigit hc)
    have htake : (c :: s).takeWhile isDigit = c :: s := List.takeWhile_eq_self_iff.mpr h
    rw [List.nil_append] at hdrop
    unfold readLong
    rw [hdrop, takeSign_of_isDigit hc]
    dsimp only
    rw [htake, if_neg (List.cons_ne_nil _ _), List.drop_length]
    rfl

theorem clampLong_eq_self {x : Int} (h : Int64.InRange x) : clampLong x = x := by
  unfold Int64.InRange at h
  unfold clampLong
  omega

end Read

end MotaCoin
