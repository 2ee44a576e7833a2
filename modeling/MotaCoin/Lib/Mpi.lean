import MotaCoin.Lib.Mantissa
import MotaCoin.Lib.Wire

/-!
# Numbers with their length in front

The MPI format of a signed number: the length of its body as four bytes, and then the body. The
body is the magnitude, highest byte first, and the top bit of the first byte is the sign. A number
is written with the shortest body that leaves this bit free. Nothing here is about one program.

## Main definitions

* `Mpi.frame body`: a body with its length in front
* `Mpi.value body`, `Mpi.body x`: the number that a body denotes, and the shortest body of a number
* `Mpi.Codec`: functions that write and read the format

## Main results

* `toNat_getD_body`: the bytes of a body, the magnitude and the sign
* `value_cons`: the number that a body denotes, by its first byte
-/

namespace Mpi

open Wire

/-! ## Bytes, highest first -/

/-- The number with the given bytes, highest first. -/
def ofBE (bytes : List UInt8) : ℕ := ofLE bytes.reverse

/-- The `w` low bytes of a number, highest first. -/
def beBytes (w n : ℕ) : List UInt8 := (leBytes w n).reverse

@[simp] theorem length_beBytes (w n : ℕ) : (beBytes w n).length = w := by simp [beBytes]

@[simp] theorem ofBE_nil : ofBE [] = 0 := rfl

theorem ofBE_cons (byte : UInt8) (bytes : List UInt8) :
    ofBE (byte :: bytes) = byte.toNat * 256 ^ bytes.length + ofBE bytes := by
  simp only [ofBE, List.reverse_cons, ofLE_append, ofLE, List.length_reverse]
  ring

@[simp] theorem ofBE_zeros (k : ℕ) : ofBE (List.replicate k 0) = 0 := by
  induction k with
  | zero => rfl
  | succ k ih => simp [List.replicate_succ, ofBE_cons, ih]

theorem getD_leBytes {w i : ℕ} (h : i < w) (n : ℕ) :
    ((leBytes w n).getD i 0).toNat = n / 256 ^ i % 256 := by
  induction w generalizing n i with
  | zero => exact absurd h (Nat.not_lt_zero i)
  | succ w ih =>
    cases i with
    | zero => simp [leBytes]
    | succ i =>
      rw [leBytes, List.getD_cons_succ, ih (Nat.lt_of_succ_lt_succ h), Nat.div_div_eq_div_mul,
        pow_succ']

theorem getD_beBytes {w i : ℕ} (h : i < w) (n : ℕ) :
    ((beBytes w n).getD i 0).toNat = n / 256 ^ (w - 1 - i) % 256 := by
  have hlen : i < (leBytes w n).length := by simpa using h
  rw [beBytes, List.getD_eq_getElem?_getD, List.getElem?_reverse hlen, length_leBytes,
    ← List.getD_eq_getElem?_getD, getD_leBytes (by omega)]

/-- A number of one byte, in four. -/
theorem beBytes_four {n : ℕ} (h : n < 256) : beBytes 4 n = [0, 0, 0, UInt8.ofNat n] := by
  have hzero : n / 256 = 0 := Nat.div_eq_of_lt h
  simp [beBytes, leBytes, hzero]

/-! ## The format -/

/-- A body with its length in front. -/
def frame (body : List UInt8) : List UInt8 := beBytes 4 body.length ++ body

/-- The number that a body denotes. -/
def value : List UInt8 → ℤ
  | [] => 0
  | first :: rest =>
    if first < 0x80 then ofBE (first :: rest) else -(ofBE ((first &&& 0x7f) :: rest) : ℤ)

/-- How long the shortest body of a number is. -/
def width (x : ℤ) : ℕ := if x = 0 then 0 else Mantissa.size x.natAbs

/-- The shortest body of a number. -/
def body (x : ℤ) : List UInt8 :=
  match beBytes (width x) x.natAbs with
  | [] => []
  | first :: rest => (if x < 0 then first ||| 0x80 else first) :: rest

/-- Functions that write and read the format, as long as the length of a body fits an `int`. -/
structure Codec where
  /-- Write a number. -/
  write : ℤ → List UInt8
  /-- Read a number. -/
  read : List UInt8 → Option ℤ
  /-- A number is written with its shortest body. -/
  write_eq : ∀ x, (body x).length < 2 ^ 31 → write x = frame (body x)
  /-- Any body is read. -/
  read_frame : ∀ bytes : List UInt8, bytes.length < 2 ^ 31 → read (frame bytes) = some (value bytes)

/-- The functions that do nothing else. -/
def codec : Codec where
  write x := frame (body x)
  read bytes :=
    if bytes.length < 4 ∨ ofBE (bytes.take 4) + 4 ≠ bytes.length then none
    else some (value (bytes.drop 4))
  write_eq _ _ := rfl
  read_frame bytes hlen := by
    have hfront : (beBytes 4 bytes.length).length = 4 := length_beBytes _ _
    have hlength : ofBE (beBytes 4 bytes.length) = bytes.length := by
      rw [ofBE, beBytes, List.reverse_reverse, ofLE_leBytes]
      exact Nat.mod_eq_of_lt (by omega)
    have htake : (frame bytes).take 4 = beBytes 4 bytes.length := List.take_left' hfront
    have hdrop : (frame bytes).drop 4 = bytes := List.drop_left' hfront
    have hframe : (frame bytes).length = bytes.length + 4 := by simp [frame, Nat.add_comm]
    rw [htake, hdrop, hlength, hframe, if_neg (by omega)]

theorem value_cons (first : UInt8) (rest : List UInt8) :
    value (first :: rest) =
      if first.toNat < 128 then ((first.toNat % 128 * 256 ^ rest.length + ofBE rest : ℕ) : ℤ)
      else -((first.toNat % 128 * 256 ^ rest.length + ofBE rest : ℕ) : ℤ) := by
  have hlow : (first &&& 0x7f).toNat = first.toNat % 128 := by
    rw [UInt8.toNat_and]
    exact Nat.and_two_pow_sub_one_eq_mod _ 7
  have htop : first < 0x80 ↔ first.toNat < 128 := UInt8.lt_iff_toNat_lt
  rw [value, ofBE_cons, ofBE_cons, hlow, if_congr htop rfl rfl]
  split
  · next hlt => rw [Nat.mod_eq_of_lt hlt]
  · rfl

@[simp] theorem length_body (x : ℤ) : (body x).length = width x := by
  have hlen := length_beBytes (width x) x.natAbs
  unfold body
  split
  · next hnil => rw [← hlen, hnil]
  · next hcons => rw [← hlen, hcons, List.length_cons, List.length_cons]

/-- The first byte of a magnitude leaves the top bit free. -/
theorem getD_beBytes_zero_lt (x : ℤ) : ((beBytes (width x) x.natAbs).getD 0 0).toNat < 128 := by
  unfold width
  split
  · simp [beBytes, leBytes]
  · have hsize : 0 < Mantissa.size x.natAbs := Nat.succ_pos _
    have hlt := Mantissa.lt_pow_size x.natAbs
    have hpow : 2 ^ (8 * Mantissa.size x.natAbs - 1) = 256 ^ (Mantissa.size x.natAbs - 1) * 128 := by
      have hexp : 8 * Mantissa.size x.natAbs - 1 = 8 * (Mantissa.size x.natAbs - 1) + 7 := by omega
      rw [hexp, pow_add, Mantissa.pow_256]
      norm_num
    rw [getD_beBytes hsize, Nat.sub_zero]
    apply (Nat.mod_le _ _).trans_lt
    apply Nat.div_lt_of_lt_mul
    rwa [← hpow]

/-- The bytes of a body: those of the magnitude, and the sign. -/
theorem toNat_getD_body (x : ℤ) (i : ℕ) :
    ((body x).getD i 0).toNat =
      ((beBytes (width x) x.natAbs).getD i 0).toNat + if x < 0 ∧ i = 0 then 128 else 0 := by
  have htop := getD_beBytes_zero_lt x
  have hpos : x < 0 → 0 < width x := by
    intro hneg
    rw [width, if_neg hneg.ne]
    exact Nat.succ_pos _
  have hlen := length_beBytes (width x) x.natAbs
  unfold body
  split
  · next hnil =>
    rw [hnil, if_neg]
    · rfl
    · rintro ⟨hneg, -⟩
      rw [hnil, List.length_nil] at hlen
      exact (hpos hneg).ne hlen
  · next first rest hcons =>
    rw [hcons] at htop ⊢
    cases i with
    | zero =>
      rw [List.getD_cons_zero] at htop
      by_cases hneg : x < 0
      · -- the bit of the sign is free
        have hor := Nat.shiftLeft_add_eq_or_of_lt (i := 7) htop 1
        simp only [hneg, if_true, List.getD_cons_zero, UInt8.toNat_or, and_self]
        rw [Nat.or_comm, Nat.add_comm]
        exact hor.symm
      · simp [hneg]
    | succ i => simp

end Mpi
