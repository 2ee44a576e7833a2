import MotaCoin.BaseUintBits
import MotaCoin.Chars
import MotaCoin.Lib.Wire

/-!
# Fixed-width integers in hexadecimal

`GetHex` prints the bytes of the array from the highest down, as a little-endian machine has them in
memory. `SetHex` skips spaces and a `0x`, takes the hexadecimal digits that follow, and writes them
into the bytes from the last digit on, as far as the array goes.

## Main definitions

* `getHex`, `setHex`: the two functions
* `hexNumber s`: the number that hexadecimal digits denote

## Main results

* `toNat_setHex`: the digits that are read, modulo the width
* `hexNumber_getHex`: the digits that are printed
* `setHex_getHex`: what is printed is read back
* `base_uint_spec`: all operators compute on the numbers, modulo the width
-/

namespace MotaCoin

open Wire

namespace BaseUint

variable {width : ℕ}

/-! ## Bytes -/

section Bytes

/-- The array as bytes. -/
def bytes (pn : List UInt32) : List UInt8 := pn.flatMap fun x => leBytes 4 x.toNat

/-- The words that bytes make. -/
def words : (width : ℕ) → List UInt8 → List UInt32
  | 0, _ => []
  | width + 1, bytes => UInt32.ofNat (ofLE (bytes.take 4)) :: words width (bytes.drop 4)

@[simp] theorem length_words (width : ℕ) (bytes : List UInt8) :
    (words width bytes).length = width := by
  induction width generalizing bytes with
  | zero => rfl
  | succ width ih => rw [words, List.length_cons, ih]

theorem ofLE_bytes (pn : List UInt32) : ofLE (bytes pn) = value pn := by
  induction pn with
  | nil => rfl
  | cons x pn ih =>
    have hx : ofLE (leBytes 4 x.toNat) = x.toNat := by
      rw [ofLE_leBytes]
      exact Nat.mod_eq_of_lt x.toNat_lt
    have hcons : bytes (x :: pn) = leBytes 4 x.toNat ++ bytes pn := List.flatMap_cons
    rw [hcons, ofLE_append, hx, length_leBytes, ih, value_cons]
    rfl

theorem value_words {width : ℕ} {bytes : List UInt8} (hlen : bytes.length = 4 * width) :
    value (words width bytes) = ofLE bytes := by
  induction width generalizing bytes with
  | zero =>
    rw [List.eq_nil_of_length_eq_zero hlen]
    rfl
  | succ width ih =>
    have htake : (bytes.take 4).length = 4 := by
      rw [List.length_take]
      omega
    have hlt : ofLE (bytes.take 4) < 2 ^ 32 := by
      have hlt := ofLE_lt (bytes.take 4)
      rwa [htake] at hlt
    have hdrop : value (words width (bytes.drop 4)) = ofLE (bytes.drop 4) := by
      apply ih
      rw [List.length_drop]
      omega
    rw [words, value_cons, UInt32.toNat_ofNat', Nat.mod_eq_of_lt hlt, hdrop]
    conv_rhs => rw [← List.take_append_drop 4 bytes, ofLE_append, htake]
    rfl

end Bytes

/-! ## Digits -/

section Digits

/-- The table of `SetHex`. -/
def phexdigitTable : List UInt8 :=
  [0,0,0,0,0,0,0,0,0,0,0,0,0,0,0,0, 0,0,0,0,0,0,0,0,0,0,0,0,0,0,0,0,
   0,0,0,0,0,0,0,0,0,0,0,0,0,0,0,0, 0,1,2,3,4,5,6,7,8,9,0,0,0,0,0,0,
   0,0xa,0xb,0xc,0xd,0xe,0xf,0,0,0,0,0,0,0,0,0, 0,0,0,0,0,0,0,0,0,0,0,0,0,0,0,0,
   0,0xa,0xb,0xc,0xd,0xe,0xf,0,0,0,0,0,0,0,0,0]

/-- `phexdigit`, which is zero from the end of the table on. -/
def phexdigit (c : UInt8) : UInt8 := phexdigitTable.getD c.toNat 0

/-- The test with which `SetHex` goes through the digits. -/
def isHexDigit (c : UInt8) : Bool := phexdigit c ≠ 0 || c == 0x30

/-- A digit that `%x` prints. -/
def hexChar (d : UInt8) : UInt8 := if d < 10 then 0x30 + d else 0x61 + (d - 10)

/-- `%02x` of a byte. -/
def printf02x (b : UInt8) : List UInt8 := [hexChar (b / 16), hexChar (b % 16)]

/-- The number that hexadecimal digits denote, most significant first. -/
def hexNumber (s : List UInt8) : ℕ := s.foldl (fun n c => n * 16 + (phexdigit c).toNat) 0

end Digits

/-! ## The two functions -/

section Hex

/-- `GetHex`. -/
def getHex (a : BaseUint width) : List UInt8 := (bytes a.pn).reverse.flatMap printf02x

/-- The step over `0x`. -/
def skip0x : List UInt8 → List UInt8
  | c :: x :: psz => if c = 0x30 ∧ toLower x = 0x78 then psz else c :: x :: psz
  | psz => psz

/-- The digits that `SetHex` takes from a text. -/
def hexText (psz : List UInt8) : List UInt8 :=
  (skip0x ((cStr psz).dropWhile isSpace)).takeWhile isHexDigit

/-- The loop of `SetHex` over the digits, from the last one on, as long as there is room. -/
def fillHex : (room : ℕ) → List UInt8 → List UInt8
  | 0, _ => []
  | room + 1, lo :: hi :: psz => (phexdigit lo ||| phexdigit hi <<< 4) :: fillHex room psz
  | room + 1, [lo] => phexdigit lo :: List.replicate room 0
  | room + 1, [] => List.replicate (room + 1) 0

/-- `SetHex`. -/
def setHex (width : ℕ) (psz : List UInt8) : BaseUint width :=
  ⟨words width (fillHex (4 * width) (hexText psz).reverse), length_words width _⟩

end Hex

/-! ## Numbers -/

section Numbers

variable {c d lo hi : UInt8} {s : List UInt8}

theorem toNat_phexdigit_lt (c : UInt8) : (phexdigit c).toNat < 16 := by
  have hall : ∀ d ∈ phexdigitTable, d.toNat < 16 := by decide +kernel
  rw [phexdigit, List.getD_eq_getElem?_getD]
  cases hget : phexdigitTable[c.toNat]? with
  | none => decide
  | some d => exact hall d (List.mem_of_getElem? hget)

theorem phexdigit_hexChar (hd : d < 16) : phexdigit (hexChar d) = d := by
  have hall : ∀ n < 16, phexdigit (hexChar (UInt8.ofNat n)) = UInt8.ofNat n := by decide
  simpa using hall d.toNat hd

theorem isHexDigit_hexChar (hd : d < 16) : isHexDigit (hexChar d) = true := by
  have hall : ∀ n < 16, isHexDigit (hexChar (UInt8.ofNat n)) = true := by decide
  simpa using hall d.toNat hd

/-- A digit ends neither the string, nor is it a space or the `x` after a zero. -/
theorem isHexDigit_spec (hc : isHexDigit c = true) :
    c ≠ 0 ∧ isSpace c = false ∧ toLower c ≠ 0x78 := by
  have hall : ∀ n < 256, isHexDigit (UInt8.ofNat n) = true →
      UInt8.ofNat n ≠ 0 ∧ isSpace (UInt8.ofNat n) = false ∧ toLower (UInt8.ofNat n) ≠ 0x78 := by
    decide +kernel
  have hspec := hall c.toNat c.toNat_lt
  rw [UInt8.ofNat_toNat] at hspec
  exact hspec hc

@[simp] theorem hexNumber_nil : hexNumber [] = 0 := rfl

theorem hexNumber_append_singleton (s : List UInt8) (c : UInt8) :
    hexNumber (s ++ [c]) = hexNumber s * 16 + (phexdigit c).toNat := by
  rw [hexNumber, List.foldl_append]
  rfl

/-- Two digits in a byte. -/
theorem toNat_hexByte (lo hi : UInt8) : (phexdigit lo ||| phexdigit hi <<< 4).toNat =
    (phexdigit lo).toNat + 16 * (phexdigit hi).toNat := by
  have hlo := toNat_phexdigit_lt lo
  have hhi := toNat_phexdigit_lt hi
  have hshift : (phexdigit hi <<< 4).toNat = (phexdigit hi).toNat <<< 4 := by
    rw [UInt8.toNat_shiftLeft]
    refine Nat.mod_eq_of_lt ?_
    show (phexdigit hi).toNat <<< 4 < 2 ^ 8
    rw [Nat.shiftLeft_eq]
    omega
  rw [UInt8.toNat_or, hshift, Nat.or_comm, ← Nat.shiftLeft_add_eq_or_of_lt hlo, Nat.shiftLeft_eq]
  omega

@[simp] theorem length_fillHex (room : ℕ) (s : List UInt8) : (fillHex room s).length = room := by
  fun_induction fillHex room s with
  | case1 => rfl
  | case2 room lo hi s ih => rw [List.length_cons, ih]
  | case3 room lo => rw [List.length_cons, List.length_replicate]
  | case4 room => rw [List.length_replicate]

theorem ofLE_zeros (k : ℕ) : ofLE (List.replicate k 0) = 0 := by
  induction k with
  | zero => rfl
  | succ k ih =>
    rw [List.replicate_succ, ofLE, ih]
    rfl

/-- The digits go into the bytes from the last one on, and those that have no room are lost. -/
theorem ofLE_fillHex (room : ℕ) (s : List UInt8) :
    ofLE (fillHex room s) = hexNumber s.reverse % 256 ^ room := by
  fun_induction fillHex room s with
  | case1 s => exact (Nat.mod_one _).symm
  | case2 room lo hi s ih =>
    have hlo := toNat_phexdigit_lt lo
    have hhi := toNat_phexdigit_lt hi
    have hnumber : hexNumber (lo :: hi :: s).reverse =
        (phexdigit lo).toNat + 16 * (phexdigit hi).toNat + 256 * hexNumber s.reverse := by
      rw [List.reverse_cons, List.reverse_cons, hexNumber_append_singleton,
        hexNumber_append_singleton]
      ring
    have hbyte : (phexdigit lo).toNat + 16 * (phexdigit hi).toNat < 256 := by omega
    rw [ofLE, ih, toNat_hexByte, hnumber, Nat.pow_succ', Nat.mod_mul, Nat.add_mul_mod_self_left,
      Nat.add_mul_div_left _ _ (by decide), Nat.mod_eq_of_lt hbyte, Nat.div_eq_of_lt hbyte,
      Nat.zero_add]
  | case3 room lo =>
    -- an odd number of digits: the first one is the low half of the last byte
    have hlo := toNat_phexdigit_lt lo
    have hpow : 256 ≤ 256 ^ (room + 1) := Nat.le_self_pow (Nat.succ_ne_zero room) 256
    rw [ofLE, ofLE_zeros, List.reverse_singleton, ← List.nil_append [lo],
      hexNumber_append_singleton, hexNumber_nil, Nat.mod_eq_of_lt (by omega)]
    omega
  | case4 room => rw [ofLE_zeros, List.reverse_nil, hexNumber_nil, Nat.zero_mod]

/-- **What `SetHex` reads**: the number that the digits denote, modulo the width. -/
theorem toNat_setHex (width : ℕ) (psz : List UInt8) :
    (setHex width psz).toNat = hexNumber (hexText psz) % 2 ^ (32 * width) := by
  have hpow : 256 ^ (4 * width) = 2 ^ (32 * width) := by
    rw [pow_mul, ← pow_bits]
    rfl
  show value (words width (fillHex (4 * width) (hexText psz).reverse)) = _
  rw [value_words (length_fillHex _ _), ofLE_fillHex, List.reverse_reverse, hpow]

/-- Text that is nothing but digits is taken as a whole. -/
theorem hexText_of_digits (hs : ∀ c ∈ s, isHexDigit c = true) : hexText s = s := by
  have hcStr : cStr s = s := cStr_eq_self fun h => (isHexDigit_spec (hs 0 h)).1 rfl
  have hspaces : s.dropWhile isSpace = s := by
    cases s with
    | nil => rfl
    | cons c s => simp [(isHexDigit_spec (hs c List.mem_cons_self)).2.1]
  -- a zero in front is no `0x`, since the next character is a digit
  have hprefix : skip0x s = s := by
    match s with
    | [] => rfl
    | [c] => rfl
    | c :: x :: s =>
      have hx := (isHexDigit_spec (hs x (by simp))).2.2
      rw [skip0x, if_neg fun h => hx h.2]
  rw [hexText, hcStr, hspaces, hprefix]
  exact List.takeWhile_eq_self_iff.mpr hs

theorem toNat_div_lt (b : UInt8) : b / 16 < 16 := by
  rw [UInt8.lt_iff_toNat_lt, UInt8.toNat_div]
  exact Nat.div_lt_of_lt_mul b.toNat_lt

theorem toNat_mod_lt (b : UInt8) : b % 16 < 16 := by
  rw [UInt8.lt_iff_toNat_lt, UInt8.toNat_mod]
  exact Nat.mod_lt _ (by decide)

theorem isHexDigit_of_mem_getHex {a : BaseUint width} (hc : c ∈ getHex a) :
    isHexDigit c = true := by
  obtain ⟨b, -, hb⟩ := List.mem_flatMap.mp hc
  simp only [printf02x, List.mem_cons, List.not_mem_nil, or_false] at hb
  rcases hb with rfl | rfl
  · exact isHexDigit_hexChar (toNat_div_lt b)
  · exact isHexDigit_hexChar (toNat_mod_lt b)

theorem hexNumber_printf02x (bytes : List UInt8) :
    hexNumber (bytes.reverse.flatMap printf02x) = ofLE bytes := by
  induction bytes with
  | nil => rfl
  | cons b bytes ih =>
    have hb := Nat.div_add_mod b.toNat 16
    have hsplit : (b :: bytes).reverse.flatMap printf02x =
        bytes.reverse.flatMap printf02x ++ [hexChar (b / 16)] ++ [hexChar (b % 16)] := by
      simp [printf02x]
    rw [hsplit, hexNumber_append_singleton, hexNumber_append_singleton, ih,
      phexdigit_hexChar (toNat_div_lt b), phexdigit_hexChar (toNat_mod_lt b), ofLE,
      UInt8.toNat_div, UInt8.toNat_mod]
    simp only [UInt8.reduceToNat]
    omega

/-- **What `GetHex` prints** denotes the number. -/
theorem hexNumber_getHex (a : BaseUint width) : hexNumber (getHex a) = a.toNat :=
  (hexNumber_printf02x _).trans (ofLE_bytes a.pn)

/-- **What `GetHex` prints is read back by `SetHex`.** -/
theorem setHex_getHex (a : BaseUint width) : setHex width (getHex a) = a := by
  rw [← toNat_inj, toNat_setHex, hexText_of_digits fun _ => isHexDigit_of_mem_getHex,
    hexNumber_getHex]
  exact Nat.mod_eq_of_lt a.toNat_lt

end Numbers

/-! ## The operators and the text -/

/-- **Every operator computes on the numbers**, modulo `2 ^ BITS`, and the text of a number is read
back. -/
theorem base_uint_spec (a b : BaseUint width) (shift : UInt32) (b64 : UInt64) :
    (a.add b).toNat = (a.toNat + b.toNat) % 2 ^ (32 * width) ∧
    ((a.sub b).toNat : ℤ) = ((a.toNat : ℤ) - b.toNat) % 2 ^ (32 * width) ∧
    (a.addUInt64 b64).toNat = (a.toNat + b64.toNat) % 2 ^ (32 * width) ∧
    ((a.subUInt64 b64).toNat : ℤ) = ((a.toNat : ℤ) - b64.toNat) % 2 ^ (32 * width) ∧
    a.incr.toNat = (a.toNat + 1) % 2 ^ (32 * width) ∧
    (a.decr.toNat : ℤ) = ((a.toNat : ℤ) - 1) % 2 ^ (32 * width) ∧
    (a.neg.toNat : ℤ) = -(a.toNat : ℤ) % 2 ^ (32 * width) ∧
    a.compl.toNat = 2 ^ (32 * width) - 1 - a.toNat ∧
    (a.shiftLeft shift).toNat = a.toNat * 2 ^ shift.toNat % 2 ^ (32 * width) ∧
    (a.shiftRight shift).toNat = a.toNat / 2 ^ shift.toNat ∧
    (a.lt b = true ↔ a.toNat < b.toNat) ∧ (a.le b = true ↔ a.toNat ≤ b.toNat) ∧
    (a.gt b = true ↔ a.toNat > b.toNat) ∧ (a.ge b = true ↔ a.toNat ≥ b.toNat) ∧
    (a.eq b = true ↔ a.toNat = b.toNat) ∧ (a.ne b = true ↔ a.toNat ≠ b.toNat) ∧
    (a.eqUInt64 b64 = true ↔ a.toNat = b64.toNat) ∧
    (a.neUInt64 b64 = true ↔ a.toNat ≠ b64.toNat) ∧
    setHex width (getHex a) = a :=
  ⟨toNat_add a b, toNat_sub a b, toNat_addUInt64 a b64, toNat_subUInt64 a b64, toNat_incr a,
    toNat_decr a, toNat_neg a, toNat_compl a, toNat_shiftLeft a shift, toNat_shiftRight a shift,
    lt_iff, le_iff, gt_iff, ge_iff, eq_iff, ne_iff, eqUInt64_iff, neUInt64_iff, setHex_getHex a⟩

end BaseUint

end MotaCoin
