import MotaCoin.Lib.Bijective
import MotaCoin.Lib.Wire
import Mathlib.Data.Nat.Bitwise

/-!
# Variable-length integers

`WriteVarInt` writes a number in groups of seven bits, the high bit of a byte saying that another
group follows, and takes one from all groups but the last, so that no number can be written in
two ways. The groups come lowest first into a buffer whose size is fixed by the integer type, and
leave it in the opposite order. The width `w` of the unsigned type `I` is a parameter, and its
arithmetic is modulo `2 ^ w`.

## Main definitions

* `getSizeOfVarInt`, `writeVarInt w`, `readVarInt w`: the codec
* `Terminated`, `varIntFormula`: the sequences of the source's comment, and what they encode

## Main results

* `writeVarInt_eq`: what is written, the buffer never being overrun
* `reads_readVarInt`: every terminated sequence is read as its formula, modulo `2 ^ w`
* `exists_unique_varInt`: the codec is one to one
-/

namespace MotaCoin

/-! ## The codec -/

section Codec

variable (w : ℕ)

/-- `GetSizeOfVarInt`: the number of bytes `WriteVarInt` writes. -/
def getSizeOfVarInt (n : ℕ) : ℕ :=
  if n ≤ 0x7F then 1 else 1 + getSizeOfVarInt ((n >>> 7) - 1)
termination_by n
decreasing_by
  have := Nat.shiftRight_le n 7
  omega

/-- The byte `(n & 0x7F) | (len ? 0x80 : 0x00)`. -/
def varIntByte (len n : ℕ) : UInt8 :=
  UInt8.ofNat ((n &&& 0x7F) ||| (if len ≠ 0 then 0x80 else 0x00))

/-- The first loop of `WriteVarInt`: the groups go into the buffer, lowest first. A byte of the
buffer that was not written yet is `none`, and so is the result when the buffer is overrun. -/
def fillVarInt (tmp : List (Option UInt8)) (len n : ℕ) : Option (List (Option UInt8) × ℕ) :=
  if len < tmp.length then
    let tmp := tmp.set len (some (varIntByte len n))
    if n ≤ 0x7F then some (tmp, len) else fillVarInt tmp (len + 1) ((n >>> 7) - 1)
  else none
termination_by n
decreasing_by
  have := Nat.shiftRight_le n 7
  omega

/-- The second loop of `WriteVarInt`: from `tmp[len]` down to `tmp[0]`. -/
def flushVarInt (tmp : List (Option UInt8)) : ℕ → Option (List UInt8)
  | 0 => do
    let byte ← tmp[0]?.join
    pure [byte]
  | len + 1 => do
    let byte ← tmp[len + 1]?.join
    let bytes ← flushVarInt tmp len
    pure (byte :: bytes)

/-- `WriteVarInt`: the bytes written. -/
def writeVarInt (n : ℕ) : Option (List UInt8) := do
  let (tmp, len) ← fillVarInt (List.replicate ((w + 6) / 7) none) 0 n
  flushVarInt tmp len

/-- The loop of `ReadVarInt`; the stream fails when it has no more bytes. -/
def readVarIntFrom (n : ℕ) : Wire.Reader ℕ
  | [] => none
  | chData :: s =>
    let n := ((n <<< 7) ||| (chData &&& 0x7F).toNat) % 2 ^ w
    if chData &&& 0x80 ≠ 0 then readVarIntFrom ((n + 1) % 2 ^ w) s else some (n, s)

/-- `ReadVarInt`. -/
def readVarInt : Wire.Reader ℕ := readVarIntFrom w 0

end Codec

/-! ## The sequences of the comment -/

section Formula

/-- All bytes but the last have bit 128 set, and the last does not. -/
def Terminated (a : List UInt8) : Prop :=
  ∃ init last, a = init ++ [last] ∧ (∀ byte ∈ init, byte &&& 0x80 ≠ 0) ∧ last &&& 0x80 = 0

/-- The number that a sequence encodes, as the comment gives it. -/
def varIntFormula (a : List UInt8) : ℕ :=
  (a.getD (a.length - 1) 0 &&& 0x7F).toNat +
    ∑ i ∈ Finset.Ico 1 a.length, 128 ^ i * ((a.getD (a.length - i - 1) 0 &&& 0x7F).toNat + 1)

end Formula

/-! ## Bytes and groups -/

section Groups

/-- The seven bits of a byte that count. -/
def group (byte : UInt8) : ℕ := (byte &&& 0x7F).toNat

theorem group_eq (byte : UInt8) : group byte = byte.toNat % 128 := by
  rw [group, UInt8.toNat_and]
  exact Nat.and_two_pow_sub_one_eq_mod byte.toNat 7

theorem group_lt (byte : UInt8) : group byte < 128 := by
  rw [group_eq]
  exact Nat.mod_lt _ (by decide)

theorem high_eq_zero_iff (byte : UInt8) : byte &&& 0x80 = 0 ↔ byte.toNat < 128 := by
  have hlt := byte.toNat_lt
  have hbit : (byte &&& 0x80).toNat = byte.toNat / 128 % 2 * 128 := by
    rw [UInt8.toNat_and]
    have := Nat.and_two_pow byte.toNat 7
    rwa [Nat.toNat_testBit] at this
  rw [← UInt8.toNat_inj, hbit, UInt8.toNat_zero]
  omega

/-- A byte is its high bit and its group. -/
theorem byte_ext {x y : UInt8} (hhigh : x &&& 0x80 = 0 ↔ y &&& 0x80 = 0)
    (hlow : group x = group y) : x = y := by
  rw [high_eq_zero_iff, high_eq_zero_iff] at hhigh
  rw [group_eq, group_eq] at hlow
  have hx := x.toNat_lt
  have hy := y.toNat_lt
  exact UInt8.toNat_inj.mp (by omega)

theorem toNat_varIntByte (len n : ℕ) :
    (varIntByte len n).toNat = n % 128 + if len = 0 then 0 else 128 := by
  have hlow : n &&& 0x7F = n % 128 := Nat.and_two_pow_sub_one_eq_mod n 7
  have hlt : n % 128 < 128 := Nat.mod_lt _ (by decide)
  rw [varIntByte, hlow, UInt8.toNat_ofNat']
  by_cases hlen : len = 0
  · rw [if_neg (not_not.mpr hlen), if_pos hlen, Nat.or_zero]
    omega
  · have hor := Nat.two_pow_add_eq_or_of_lt (i := 7) hlt 1
    rw [if_pos hlen, if_neg hlen, Nat.or_comm, ← hor]
    omega

theorem varIntByte_high (len n : ℕ) : varIntByte len n &&& 0x80 = 0 ↔ len = 0 := by
  rw [high_eq_zero_iff, toNat_varIntByte]
  split <;> omega

theorem group_varIntByte (len n : ℕ) : group (varIntByte len n) = n % 128 := by
  rw [group_eq, toNat_varIntByte]
  split <;> omega

end Groups

/-! ## Writing -/

section Write

/-- The bytes that go into the buffer from index `len` on. -/
def varIntBytes (len n : ℕ) : List UInt8 :=
  varIntByte len n :: if n ≤ 0x7F then [] else varIntBytes (len + 1) ((n >>> 7) - 1)
termination_by n
decreasing_by
  have := Nat.shiftRight_le n 7
  omega

variable {w len n : ℕ}

theorem varIntBytes_of_le (h : n ≤ 0x7F) : varIntBytes len n = [varIntByte len n] := by
  rw [varIntBytes, if_pos h]

theorem varIntBytes_of_lt (h : ¬ n ≤ 0x7F) :
    varIntBytes len n = varIntByte len n :: varIntBytes (len + 1) ((n >>> 7) - 1) := by
  rw [varIntBytes, if_neg h]

theorem varIntBytes_ne_nil (len n : ℕ) : varIntBytes len n ≠ [] := by
  rw [varIntBytes]
  exact List.cons_ne_nil _ _

/-- What is left of `n` when a group is cut off. -/
theorem shiftRight_seven (h : ¬ n ≤ 0x7F) : (n >>> 7) - 1 + 1 = n / 128 ∧ (n >>> 7) - 1 < n := by
  rw [Nat.shiftRight_eq_div_pow]
  omega

theorem length_varIntBytes (len n : ℕ) : (varIntBytes len n).length = getSizeOfVarInt n := by
  induction n using Nat.strong_induction_on generalizing len with
  | _ n ih =>
    rw [getSizeOfVarInt]
    by_cases h : n ≤ 0x7F
    · rw [varIntBytes_of_le h, if_pos h, List.length_singleton]
    · rw [varIntBytes_of_lt h, if_neg h, List.length_cons, ih _ (shiftRight_seven h).2,
        Nat.add_comm]

/-- The groups are the digits of the number that is one more. -/
theorem group_varIntBytes (len n : ℕ) :
    (varIntBytes len n).reverse.map group = Bijective.digits 128 (n + 1) := by
  induction n using Nat.strong_induction_on generalizing len with
  | _ n ih =>
    rw [Bijective.digits_succ]
    by_cases h : n ≤ 0x7F
    · rw [varIntBytes_of_le h, Nat.div_eq_of_lt (by omega), Bijective.digits_zero,
        List.reverse_singleton, List.map_singleton, group_varIntByte, List.nil_append]
    · obtain ⟨hdiv, hlt⟩ := shiftRight_seven h
      rw [varIntBytes_of_lt h, List.reverse_cons, List.map_append, ih _ hlt, hdiv,
        List.map_singleton, group_varIntByte]

theorem high_varIntBytes (hlen : len ≠ 0) (n : ℕ) :
    ∀ byte ∈ varIntBytes len n, byte &&& 0x80 ≠ 0 := by
  induction n using Nat.strong_induction_on generalizing len with
  | _ n ih =>
    intro byte hbyte
    have hhead := mt (varIntByte_high len n).mp hlen
    by_cases h : n ≤ 0x7F
    · rw [varIntBytes_of_le h, List.mem_singleton] at hbyte
      rwa [hbyte]
    · rw [varIntBytes_of_lt h, List.mem_cons] at hbyte
      rcases hbyte with rfl | hbyte
      · exact hhead
      · exact ih _ (shiftRight_seven h).2 (Nat.succ_ne_zero len) byte hbyte

theorem terminated_varIntBytes (n : ℕ) : Terminated (varIntBytes 0 n).reverse := by
  have hlow := (varIntByte_high 0 n).mpr rfl
  by_cases h : n ≤ 0x7F
  · exact ⟨[], varIntByte 0 n, by rw [varIntBytes_of_le h]; rfl, by simp, hlow⟩
  · refine ⟨_, varIntByte 0 n, by rw [varIntBytes_of_lt h, List.reverse_cons], ?_, hlow⟩
    intro byte hbyte
    exact high_varIntBytes (by decide) _ byte (List.mem_reverse.mp hbyte)

/-- While a group is left to write, the buffer has room for one more. -/
theorem lt_of_mul_pow_le (h : ¬ n ≤ 0x7F) (hroom : (n + 1) * 128 ^ len ≤ 2 ^ w) :
    len + 1 < (w + 6) / 7 ∧ ((n >>> 7) - 1 + 1) * 128 ^ (len + 1) ≤ 2 ^ w := by
  constructor
  · have hpow : 2 ^ (7 * (len + 1)) < 2 ^ w := by
      rw [pow_mul, pow_succ]
      have : 0 < (2 ^ 7) ^ len := by positivity
      calc (2 ^ 7) ^ len * 2 ^ 7 < (2 ^ 7) ^ len * (n + 1) :=
            Nat.mul_lt_mul_of_pos_left (by omega) this
        _ = (n + 1) * 128 ^ len := by rw [Nat.mul_comm]; norm_num
        _ ≤ 2 ^ w := hroom
    have := (Nat.pow_lt_pow_iff_right (by decide)).mp hpow
    omega
  · rw [(shiftRight_seven h).1]
    calc n / 128 * 128 ^ (len + 1) = n / 128 * 128 * 128 ^ len := by ring
      _ ≤ (n + 1) * 128 ^ len :=
        Nat.mul_le_mul_right _ ((Nat.div_mul_le_self n 128).trans (Nat.le_succ n))
      _ ≤ 2 ^ w := hroom

/-- The first loop: the bytes are appended to those written, and the buffer is not overrun. -/
theorem fillVarInt_eq (done : List UInt8) (k n : ℕ)
    (hsize : done.length + (k + 1) = (w + 6) / 7)
    (hroom : (n + 1) * 128 ^ done.length ≤ 2 ^ w) :
    ∃ free, fillVarInt (done.map some ++ List.replicate (k + 1) none) done.length n =
      some ((done ++ varIntBytes done.length n).map some ++ free,
        (done ++ varIntBytes done.length n).length - 1) := by
  induction n using Nat.strong_induction_on generalizing done k with
  | _ n ih =>
    have hset : (done.map some ++ List.replicate (k + 1) none).set done.length
        (some (varIntByte done.length n)) =
        (done ++ [varIntByte done.length n]).map some ++ List.replicate k none := by
      rw [List.set_append_right _ _ (by simp), List.length_map, Nat.sub_self,
        List.replicate_succ, List.set_cons_zero, List.map_append, List.append_assoc]
      rfl
    rw [fillVarInt, if_pos (by simp), hset]
    by_cases h : n ≤ 0x7F
    · refine ⟨List.replicate k none, ?_⟩
      dsimp only
      rw [if_pos h, varIntBytes_of_le h, List.length_append, List.length_singleton,
        Nat.add_sub_cancel]
    · obtain ⟨hlt, hroom'⟩ := lt_of_mul_pow_le h hroom
      obtain ⟨k, rfl⟩ : ∃ k', k = k' + 1 := ⟨k - 1, by omega⟩
      have hlen : (done ++ [varIntByte done.length n]).length = done.length + 1 := by simp
      obtain ⟨free, hfree⟩ := ih _ (shiftRight_seven h).2 (done ++ [varIntByte done.length n]) k
        (by omega) (by rwa [hlen])
      refine ⟨free, ?_⟩
      dsimp only
      rw [if_neg h, ← hlen, hfree, hlen, varIntBytes_of_lt h, List.append_assoc]
      rfl

/-- The second loop takes the bytes out of the buffer in the opposite order. -/
theorem flushVarInt_eq (bytes : List UInt8) (free : List (Option UInt8)) {k : ℕ}
    (hk : k < bytes.length) :
    flushVarInt (bytes.map some ++ free) k = some (bytes.take (k + 1)).reverse := by
  have hget : ∀ i < bytes.length, (bytes.map some ++ free)[i]?.join = bytes[i]? := by
    intro i hi
    rw [List.getElem?_append_left (by simpa using hi), List.getElem?_map,
      List.getElem?_eq_getElem hi]
    rfl
  induction k with
  | zero =>
    rw [flushVarInt, hget 0 hk, List.getElem?_eq_getElem hk, List.take_one,
      List.head?_eq_getElem?, List.getElem?_eq_getElem hk]
    rfl
  | succ k ih =>
    rw [flushVarInt, hget _ hk, ih (by omega), List.getElem?_eq_getElem hk,
      List.take_add_one (i := k + 1), List.getElem?_eq_getElem hk, List.reverse_append]
    rfl

/-- **The buffer is never overrun**, and what leaves it. -/
theorem writeVarInt_eq (hw : 0 < w) (hn : n < 2 ^ w) :
    writeVarInt w n = some (varIntBytes 0 n).reverse := by
  obtain ⟨k, hk⟩ : ∃ k, (w + 6) / 7 = k + 1 := ⟨(w + 6) / 7 - 1, by omega⟩
  obtain ⟨free, hfill⟩ := fillVarInt_eq [] k n (by rw [List.length_nil, hk, Nat.zero_add])
    (by rw [List.length_nil, pow_zero, Nat.mul_one]; exact hn)
  rw [List.map_nil, List.nil_append, List.length_nil, List.nil_append] at hfill
  have hpos := List.length_pos_iff.mpr (varIntBytes_ne_nil 0 n)
  rw [writeVarInt, hk, hfill]
  change flushVarInt _ _ = _
  rw [flushVarInt_eq _ _ (Nat.sub_lt hpos Nat.one_pos), Nat.sub_add_cancel hpos,
    List.take_length]

end Write

/-! ## Reading -/

section Read

variable {w : ℕ}

/-- The bits that come in are those that were shifted free. -/
theorem shiftLeft_or_group (n : ℕ) (byte : UInt8) :
    (n <<< 7) ||| (byte &&& 0x7F).toNat = n * 128 + group byte := by
  rw [← group, ← Nat.shiftLeft_add_eq_or_of_lt (group_lt byte), Nat.shiftLeft_eq]

/-- One byte that is followed by another. -/
theorem readVarIntFrom_of_high {byte : UInt8} (h : byte &&& 0x80 ≠ 0) (n : ℕ) (s : List UInt8) :
    readVarIntFrom w n (byte :: s) =
      readVarIntFrom w ((n * 128 + (group byte + 1)) % 2 ^ w) s := by
  rw [readVarIntFrom, shiftLeft_or_group, if_pos h, Nat.mod_add_mod, Nat.add_assoc]

/-- The last byte. -/
theorem readVarIntFrom_of_low {byte : UInt8} (h : byte &&& 0x80 = 0) (n : ℕ) (s : List UInt8) :
    readVarIntFrom w n (byte :: s) = some ((n * 128 + group byte) % 2 ^ w, s) := by
  rw [readVarIntFrom, shiftLeft_or_group, if_neg (not_not.mpr h)]

/-- The bytes before the last: the loop counts modulo `2 ^ w`. -/
theorem readVarIntFrom_append {init : List UInt8} (h : ∀ byte ∈ init, byte &&& 0x80 ≠ 0)
    (s : List UInt8) :
    readVarIntFrom w 0 (init ++ s) =
      readVarIntFrom w (Bijective.value 128 (init.map group) % 2 ^ w) s := by
  induction init using List.reverseRecOn generalizing s with
  | nil => rw [List.map_nil, Bijective.value_nil, Nat.zero_mod, List.nil_append]
  | append_singleton init byte ih =>
    rw [List.append_assoc, ih fun b hb => h b (List.mem_append_left _ hb), List.singleton_append,
      readVarIntFrom_of_high (h byte (by simp)), List.map_append, List.map_singleton,
      Bijective.value_append_singleton, Nat.add_mod, Nat.mod_mul_mod, ← Nat.add_mod]

/-- The formula of the comment is the number with these digits, less one. -/
theorem varIntFormula_add_one {a : List UInt8} (h : a ≠ []) :
    varIntFormula a + 1 = Bijective.value 128 (a.map group) := by
  have hget : ∀ i, (a.map group).getD i 0 = group (a.getD i 0) := fun i =>
    List.getD_map a 0 group
  have hpos := List.length_pos_iff.mpr h
  rw [Bijective.value_eq_sum, List.length_map, Finset.range_eq_Ico,
    Finset.sum_eq_sum_Ico_succ_bot hpos, Nat.sub_zero, pow_zero, Nat.one_mul, hget, varIntFormula,
    Nat.add_right_comm]
  congr 1
  refine Finset.sum_congr rfl fun i _ => ?_
  rw [hget, Nat.sub_right_comm]
  rfl

/-- **Every terminated sequence is read as its formula**, modulo `2 ^ w`. -/
theorem reads_readVarInt {a : List UInt8} (h : Terminated a) :
    Wire.Reads (readVarInt w) a (varIntFormula a % 2 ^ w) := by
  intro rest
  obtain ⟨init, last, rfl, hinit, hlast⟩ := h
  have hvalue := varIntFormula_add_one (a := init ++ [last]) (by simp)
  rw [List.map_append, List.map_singleton, Bijective.value_append_singleton,
    ← Nat.add_assoc, Nat.add_right_cancel_iff] at hvalue
  rw [readVarInt, List.append_assoc, readVarIntFrom_append hinit, List.singleton_append,
    readVarIntFrom_of_low hlast, hvalue, Nat.add_mod, Nat.mod_mul_mod, ← Nat.add_mod]

end Read

/-! ## One to one -/

section Unique

variable {w n : ℕ}

theorem Terminated.ne_nil {a : List UInt8} (h : Terminated a) : a ≠ [] := by
  obtain ⟨init, last, rfl, -, -⟩ := h
  exact List.append_ne_nil_of_right_ne_nil _ (List.cons_ne_nil _ _)

theorem varIntFormula_varIntBytes (n : ℕ) : varIntFormula (varIntBytes 0 n).reverse = n := by
  have h := varIntFormula_add_one (terminated_varIntBytes n).ne_nil
  rwa [group_varIntBytes, Bijective.value_digits, Nat.add_right_cancel_iff] at h

/-- Where the high bits stand is told by the length alone. -/
theorem Terminated.ext {a a' : List UInt8} (h : Terminated a) (h' : Terminated a')
    (hgroup : a.map group = a'.map group) : a = a' := by
  obtain ⟨init, last, rfl, hinit, hlast⟩ := h
  obtain ⟨init', last', rfl, hinit', hlast'⟩ := h'
  rw [List.map_append, List.map_append, List.map_singleton, List.map_singleton] at hgroup
  obtain ⟨hinits, hlasts⟩ := List.append_inj' hgroup rfl
  have hlast_eq := byte_ext (iff_of_true hlast hlast') (List.singleton_inj.mp hlasts)
  have hinit_eq : init = init' := by
    have hlen : init.length = init'.length := by simpa using congrArg List.length hinits
    refine List.ext_getElem hlen fun i hi hi' => ?_
    refine byte_ext (iff_of_false (hinit _ (List.getElem_mem hi))
      (hinit' _ (List.getElem_mem hi'))) ?_
    have := List.getElem_of_eq hinits (by simpa using hi)
    rwa [List.getElem_map, List.getElem_map] at this
  rw [hinit_eq, hlast_eq]

/-- No two sequences have the same formula value. -/
theorem Terminated.formula_inj {a a' : List UInt8} (h : Terminated a) (h' : Terminated a')
    (heq : varIntFormula a = varIntFormula a') : a = a' := by
  have hvalue : Bijective.value 128 (a.map group) = Bijective.value 128 (a'.map group) := by
    rw [← varIntFormula_add_one h.ne_nil, heq, varIntFormula_add_one h'.ne_nil]
  have hlt : ∀ a : List UInt8, ∀ d ∈ a.map group, d < 128 := by
    intro a d hd
    obtain ⟨byte, -, rfl⟩ := List.mem_map.mp hd
    exact group_lt byte
  exact h.ext h' (Bijective.value_inj (hlt a) (hlt a') hvalue)

/-- **The codec of variable-length integers.** What is written for a value of the type is read
back, in as many bytes as announced and within the buffer; every terminated sequence is read as
its formula modulo `2 ^ w`; and every value has one sequence among those whose formula does not
overflow. -/
theorem varInt_codec (hw : 0 < w) :
    (∀ n < 2 ^ w, ∃ bytes, writeVarInt w n = some bytes ∧ Terminated bytes ∧
      Wire.Reads (readVarInt w) bytes n ∧ getSizeOfVarInt n = bytes.length) ∧
    (∀ a, Terminated a → Wire.Reads (readVarInt w) a (varIntFormula a % 2 ^ w)) ∧
    ∀ n < 2 ^ w, ∃! a, Terminated a ∧ varIntFormula a < 2 ^ w ∧
      Wire.Reads (readVarInt w) a n := by
  have hwritten : ∀ n < 2 ^ w, Wire.Reads (readVarInt w) (varIntBytes 0 n).reverse n := by
    intro n hn
    have := reads_readVarInt (w := w) (terminated_varIntBytes n)
    rwa [varIntFormula_varIntBytes, Nat.mod_eq_of_lt hn] at this
  refine ⟨fun n hn => ?_, fun a ha => reads_readVarInt ha, fun n hn => ?_⟩
  · refine ⟨_, writeVarInt_eq hw hn, terminated_varIntBytes n, hwritten n hn, ?_⟩
    rw [List.length_reverse, length_varIntBytes]
  · refine ⟨(varIntBytes 0 n).reverse, ⟨terminated_varIntBytes n, ?_, hwritten n hn⟩, ?_⟩
    · rwa [varIntFormula_varIntBytes]
    · rintro a ⟨ha, hlt, hreads⟩
      refine ha.formula_inj (terminated_varIntBytes n) ?_
      -- the formula does not overflow, so what is read is the formula
      have hread := reads_readVarInt (w := w) ha []
      rw [hreads [], Nat.mod_eq_of_lt hlt] at hread
      rw [varIntFormula_varIntBytes]
      exact (congrArg Prod.fst (Option.some.inj hread)).symm

/-- The comment's table at 32 bits, where its last entry overflows. -/
theorem varInt_codec_thirtyTwo :
    (∃ bytes, writeVarInt 32 16511 = some bytes ∧ getSizeOfVarInt 16511 = bytes.length) ∧
    Wire.Reads (readVarInt 32) [0x8E, 0xFE, 0xFE, 0xFF, 0x00] 0 := by
  obtain ⟨hwrite, hread, -⟩ := varInt_codec (w := 32) (by decide)
  obtain ⟨bytes, hbytes, -, -, hlen⟩ := hwrite 16511 (by decide)
  refine ⟨⟨bytes, hbytes, hlen⟩, ?_⟩
  exact hread [0x8E, 0xFE, 0xFE, 0xFF, 0x00]
    ⟨[0x8E, 0xFE, 0xFE, 0xFF], 0x00, rfl, by decide +kernel, by decide⟩

end Unique

end MotaCoin
