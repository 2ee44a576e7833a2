import Mathlib.Data.List.GetD
import MotaCoin.Lib.Mpi
import MotaCoin.Retarget

/-!
# Compact targets through the MPI format

`GetCompact` writes a number in the MPI format and packs the length of the body with its first
three bytes into 32 bits; `SetCompact` writes a body of that length and has it read. Both agree
with the compact form that the retarget computes with.

## Main definitions

* `CBigNum.getCompact`, `CBigNum.setCompact`: the two functions, over any codec of the format

## Main results

* `CBigNum.toNat_getCompact`, `CBigNum.setCompact_eq`: what they compute, without the format
* `CBigNum.compact_spec`: how far a target is rounded when it is written and read
-/

namespace MotaCoin

namespace CBigNum

variable (mpi : Mpi.Codec)

/-- `CBigNum::GetCompact`, with `BN_bn2mpi` as `mpi.write`. -/
def getCompact (bn : Int) : UInt32 :=
  let vch := mpi.write bn
  let nSize := UInt32.ofNat vch.length - 4
  let nCompact := nSize <<< 24
  let nCompact := if 1 ≤ nSize then nCompact ||| (vch.getD 4 0).toUInt32 <<< 16 else nCompact
  let nCompact := if 2 ≤ nSize then nCompact ||| (vch.getD 5 0).toUInt32 <<< 8 else nCompact
  if 3 ≤ nSize then nCompact ||| (vch.getD 6 0).toUInt32 else nCompact

/-- `CBigNum::SetCompact` on a number `bn`, with `BN_mpi2bn` as `mpi.read`; where that fails the
number is as it was. -/
def setCompact (bn : Int) (nCompact : UInt32) : Int :=
  let nSize := nCompact >>> 24
  let vch : List UInt8 := List.replicate (4 + nSize.toNat) 0
  let vch := vch.set 3 nSize.toUInt8
  let vch := if 1 ≤ nSize then vch.set 4 ((nCompact >>> 16) &&& 0xff).toUInt8 else vch
  let vch := if 2 ≤ nSize then vch.set 5 ((nCompact >>> 8) &&& 0xff).toUInt8 else vch
  let vch := if 3 ≤ nSize then vch.set 6 (nCompact &&& 0xff).toUInt8 else vch
  (mpi.read vch).getD bn

variable {mpi} {bn : Int} {nCompact : UInt32}

/-! ## Writing -/

section Write

/-- A number is moved up to make room for another one. -/
theorem shiftLeft_or {x y i : Nat} (j : Nat) (hy : y < 2 ^ i) :
    x <<< (i + j) ||| y <<< j = (x * 2 ^ i + y) <<< j := by
  rw [Nat.shiftLeft_add, ← Nat.shiftLeft_or_distrib, ← Nat.shiftLeft_add_eq_or_of_lt hy,
    Nat.shiftLeft_eq x]

/-- Four bytes in one word. -/
theorem toNat_pack (nSize : UInt32) (hsize : nSize.toNat < 2 ^ 8) (b₀ b₁ b₂ : UInt8) :
    (nSize <<< 24 ||| b₀.toUInt32 <<< 16 ||| b₁.toUInt32 <<< 8 ||| b₂.toUInt32).toNat =
      nSize.toNat * 2 ^ 24 + b₀.toNat * 2 ^ 16 + b₁.toNat * 2 ^ 8 + b₂.toNat := by
  have h₀ := b₀.toNat_lt
  have h₁ := b₁.toNat_lt
  have h₂ := b₂.toNat_lt
  have hshift (x i : Nat) (h : x * 2 ^ i < 2 ^ 32) : x <<< i % 2 ^ 32 = x <<< i := by
    rw [Nat.shiftLeft_eq]
    exact Nat.mod_eq_of_lt h
  simp only [UInt32.toNat_or, UInt32.toNat_shiftLeft, UInt8.toNat_toUInt32, UInt32.reduceToNat,
    Nat.reduceMod]
  rw [hshift _ 24 (by omega), hshift _ 16 (by omega), hshift _ 8 (by omega)]
  rw [shiftLeft_or (i := 8) 16 h₀, shiftLeft_or (i := 8) 8 h₁]
  -- the last byte is not moved
  have hlast := shiftLeft_or (x := (nSize.toNat * 2 ^ 8 + b₀.toNat) * 2 ^ 8 + b₁.toNat) 0 h₂
  rw [Nat.shiftLeft_zero, Nat.shiftLeft_zero] at hlast
  rw [hlast]
  omega

theorem or_of_ite {c : Prop} [Decidable c] {x y : UInt32} (h : ¬ c → y = 0) :
    (if c then x ||| y else x) = x ||| y := by
  split
  · rfl
  · next hc => rw [h hc, UInt32.or_zero]

/-- The body of a number of less than 256 bytes is packed as it is; a byte that it does not have
is zero. -/
theorem toNat_getCompact_of_body (h : Mpi.width bn < 2 ^ 8) :
    (getCompact mpi bn).toNat = Mpi.width bn * 2 ^ 24 + ((Mpi.body bn).getD 0 0).toNat * 2 ^ 16 +
      ((Mpi.body bn).getD 1 0).toNat * 2 ^ 8 + ((Mpi.body bn).getD 2 0).toNat := by
  have hbody := Mpi.length_body bn
  have hwrite := mpi.write_eq bn (by rw [hbody]; omega)
  have hget (i : Nat) : (mpi.write bn).getD (i + 4) 0 = (Mpi.body bn).getD i 0 := by
    have hfront := Mpi.length_beBytes 4 (Mpi.body bn).length
    rw [hwrite, Mpi.frame, List.getD_append_right _ _ _ _ (by omega), hfront, Nat.add_sub_cancel]
  have hlen : UInt32.ofNat (mpi.write bn).length - 4 = UInt32.ofNat (Mpi.width bn) := by
    rw [hwrite, Mpi.frame, List.length_append, hbody, Mpi.length_beBytes, Nat.add_comm]
    simp
  have hsize : (UInt32.ofNat (Mpi.width bn)).toNat = Mpi.width bn :=
    UInt32.toNat_ofNat_of_lt' (by simp only [UInt32.size]; omega)
  -- where the body ends, nothing is added
  have hnone {c : UInt32} (i : Nat) (hc : c.toNat = i + 1) (hle : ¬ c ≤ UInt32.ofNat (Mpi.width bn)) :
      ((Mpi.body bn).getD i 0).toUInt32 = 0 := by
    rw [UInt32.le_iff_toNat_le, hsize, hc] at hle
    rw [List.getD_eq_default _ _ (by omega)]
    rfl
  have hpack := toNat_pack (UInt32.ofNat (Mpi.width bn)) (by rwa [hsize])
    ((Mpi.body bn).getD 0 0) ((Mpi.body bn).getD 1 0) ((Mpi.body bn).getD 2 0)
  rw [hsize] at hpack
  rw [← hpack]
  unfold getCompact
  dsimp only
  rw [hlen, show (mpi.write bn).getD 4 0 = _ from hget 0, show (mpi.write bn).getD 5 0 = _ from hget 1,
    show (mpi.write bn).getD 6 0 = _ from hget 2]
  rw [or_of_ite (hnone 2 rfl), or_of_ite fun h => by rw [hnone 1 rfl h]; rfl,
    or_of_ite fun h => by rw [hnone 0 rfl h]; rfl]

/-- The first three bytes of a number that has `w` of them. -/
theorem leading_beBytes {w n : Nat} (h : n < 256 ^ w) :
    ((Mpi.beBytes w n).getD 0 0).toNat * 2 ^ 16 + ((Mpi.beBytes w n).getD 1 0).toNat * 2 ^ 8 +
        ((Mpi.beBytes w n).getD 2 0).toNat =
      if w ≤ 3 then n * 256 ^ (3 - w) else n / 256 ^ (w - 3) := by
  have hnone (i : Nat) (hi : w ≤ i) : ((Mpi.beBytes w n).getD i 0).toNat = 0 := by
    rw [List.getD_eq_default _ _ (by simpa using hi)]
    rfl
  match w with
  | 0 =>
    rw [hnone 0 (by omega), hnone 1 (by omega), hnone 2 (by omega)]
    simp only [pow_zero] at h
    simp
    omega
  | 1 =>
    rw [hnone 1 (by omega), hnone 2 (by omega), Mpi.getD_beBytes (by omega)]
    simp
    omega
  | 2 =>
    rw [hnone 2 (by omega), Mpi.getD_beBytes (by omega), Mpi.getD_beBytes (by omega)]
    simp
    omega
  | k + 3 =>
    rw [Mpi.getD_beBytes (by omega), Mpi.getD_beBytes (by omega), Mpi.getD_beBytes (by omega)]
    -- the three bytes are those of the number without the bytes after them
    have hq : n / 256 ^ k < 256 ^ 3 := by
      rw [Nat.div_lt_iff_lt_mul (by positivity), ← pow_add, Nat.add_comm]
      exact h
    have hdiv (i : Nat) : n / 256 ^ (k + i) = n / 256 ^ k / 256 ^ i := by
      rw [pow_add, Nat.div_div_eq_div_mul]
    have hsmall : (if k + 3 ≤ 3 then n * 256 ^ (3 - (k + 3)) else n / 256 ^ (k + 3 - 3)) =
        n / 256 ^ k := by
      split
      · next hk =>
        obtain rfl : k = 0 := by omega
        simp
      · rw [Nat.add_sub_cancel]
    rw [hsmall, show k + 3 - 1 - 0 = k + 2 by omega, show k + 3 - 1 - 1 = k + 1 by omega,
      show k + 3 - 1 - 2 = k by omega, hdiv 2, hdiv 1]
    omega

theorem natAbs_lt_pow_width (bn : Int) : bn.natAbs < 256 ^ Mpi.width bn := by
  unfold Mpi.width
  split
  · next hzero => simp [hzero]
  · rw [Mantissa.pow_256]
    exact (Mantissa.lt_pow_size _).trans_le (Nat.pow_le_pow_right (by decide) (by omega))

/-- **What `GetCompact` computes**, for a number whose length fits the size byte. -/
theorem toNat_getCompact (h : Mpi.width bn < 2 ^ 8) :
    (getCompact mpi bn).toNat = MotaCoin.getCompact bn := by
  have hlead := leading_beBytes (natAbs_lt_pow_width bn)
  have hsize : Mpi.width bn = if bn.natAbs = 0 then 0 else (bn.natAbs.log2 + 1) / 8 + 1 := by
    simp only [Mpi.width, Int.natAbs_eq_zero]
    rfl
  rw [toNat_getCompact_of_body h, Mpi.toNat_getD_body, Mpi.toNat_getD_body, Mpi.toNat_getD_body]
  unfold MotaCoin.getCompact
  dsimp only
  rw [← hsize, ← hlead]
  clear hlead hsize
  simp only [and_true, one_ne_zero, OfNat.ofNat_ne_zero, and_false, if_false, Nat.add_zero]
  split
  · omega
  · omega

end Write

/-! ## Reading -/

section Read

/-- The three bytes of a compact form after the size. -/
theorem toNat_compactBytes (nCompact : UInt32) :
    ((nCompact >>> 16) &&& 0xff).toUInt8.toNat = nCompact.toNat / 2 ^ 16 % 256 ∧
      ((nCompact >>> 8) &&& 0xff).toUInt8.toNat = nCompact.toNat / 2 ^ 8 % 256 ∧
      (nCompact &&& 0xff).toUInt8.toNat = nCompact.toNat % 256 := by
  have hand (n : Nat) : n &&& 255 = n % 256 := Nat.and_two_pow_sub_one_eq_mod n 8
  simp [Nat.shiftRight_eq_div_pow, hand]

/-- What `SetCompact` has read: a body of the given size, three bytes and then zeros. -/
theorem setCompact_eq_value {s : Nat} (hs : (nCompact >>> 24).toNat = s) (hlt : s < 256) :
    setCompact mpi bn nCompact =
      Mpi.value (([((nCompact >>> 16) &&& 0xff).toUInt8, ((nCompact >>> 8) &&& 0xff).toUInt8,
        (nCompact &&& 0xff).toUInt8] ++ List.replicate (s - 3) 0).take s) := by
  have hbyte : (nCompact >>> 24).toUInt8 = UInt8.ofNat s := by
    apply UInt8.toNat_inj.mp
    rw [UInt32.toNat_toUInt8, hs, UInt8.toNat_ofNat']
  have hle (c : UInt32) : c ≤ nCompact >>> 24 ↔ c.toNat ≤ s := by rw [UInt32.le_iff_toNat_le, hs]
  have hread (body : List UInt8) (hlen : body.length = s) :
      (mpi.read ([0, 0, 0, UInt8.ofNat s] ++ body)).getD bn = Mpi.value body := by
    have hframe := mpi.read_frame body (by omega)
    rw [Mpi.frame, hlen, Mpi.beBytes_four hlt] at hframe
    rw [hframe]
    rfl
  rw [← hread _ (by simp; omega)]
  simp only [setCompact, hle, hs, hbyte]
  generalize ((nCompact >>> 16) &&& 0xff).toUInt8 = b₀
  generalize ((nCompact >>> 8) &&& 0xff).toUInt8 = b₁
  generalize (nCompact &&& 0xff).toUInt8 = b₂
  match s with
  | 0 => rfl
  | 1 => rfl
  | 2 => rfl
  | k + 3 =>
    have hzeros : List.replicate (4 + (k + 3)) (0 : UInt8) =
        [0, 0, 0, 0, 0, 0, 0] ++ List.replicate k 0 := by
      rw [show 4 + (k + 3) = 7 + k by omega, ← List.replicate_append_replicate]
      rfl
    have hlong (c : UInt32) (hc : c.toNat ≤ 3) : c.toNat ≤ k + 3 := by omega
    rw [if_pos (hlong 1 (by decide)), if_pos (hlong 2 (by decide)), if_pos (hlong 3 (by decide)),
      hzeros, Nat.add_sub_cancel, List.take_of_length_le (by simp)]
    rfl

/-- **What `SetCompact` computes**, whatever the number was before. -/
theorem setCompact_eq (bn : Int) (nCompact : UInt32) :
    setCompact mpi bn nCompact = MotaCoin.setCompact nCompact.toNat := by
  obtain ⟨h₀, h₁, h₂⟩ := toNat_compactBytes nCompact
  have hn := nCompact.toNat_lt
  have hs : (nCompact >>> 24).toNat = nCompact.toNat / 2 ^ 24 := by
    rw [UInt32.toNat_shiftRight]
    exact Nat.shiftRight_eq_div_pow _ _
  rw [setCompact_eq_value hs (by omega), MotaCoin.setCompact]
  generalize ((nCompact >>> 16) &&& 0xff).toUInt8 = b₀ at h₀ ⊢
  generalize ((nCompact >>> 8) &&& 0xff).toUInt8 = b₁ at h₁ ⊢
  generalize (nCompact &&& 0xff).toUInt8 = b₂ at h₂ ⊢
  generalize nCompact.toNat / 2 ^ 24 = s
  -- the sign and the top byte are the same; what is left to compare is the magnitude
  have hclose (rest : List UInt8) {m : Nat} (hpos : 1 ≤ s)
      (hm : m = b₀.toNat % 128 * 256 ^ rest.length + Mpi.ofBE rest) :
      Mpi.value (b₀ :: rest) =
        if nCompact.toNat.testBit 23 && decide (1 ≤ s) then -(m : Int) else m := by
    have hsign : nCompact.toNat.testBit 23 = true ↔ ¬ b₀.toNat < 128 := by
      rw [Nat.testBit_eq_decide_div_mod_eq, decide_eq_true_iff, h₀]
      omega
    rw [Mpi.value_cons, ← hm]
    by_cases hlow : b₀.toNat < 128
    · simp [hlow, hsign]
    · simp [hlow, hsign, hpos]
  rcases s with _ | _ | _ | k
  · simp [Mpi.value]
    omega
  · apply hclose [] (by omega)
    simp
    omega
  · apply hclose [b₁] (by omega)
    simp [Mpi.ofBE_cons]
    omega
  · have hmantissa : nCompact.toNat % 2 ^ 23 =
        b₀.toNat % 128 * 2 ^ 16 + b₁.toNat * 2 ^ 8 + b₂.toNat := by omega
    have hscale : (if k + 3 ≤ 3 then nCompact.toNat % 2 ^ 23 / 256 ^ (3 - (k + 3))
        else nCompact.toNat % 2 ^ 23 * 256 ^ (k + 3 - 3)) = nCompact.toNat % 2 ^ 23 * 256 ^ k := by
      split
      · next hk =>
        obtain rfl : k = 0 := by omega
        simp
      · rw [Nat.add_sub_cancel]
    rw [List.take_of_length_le (by simp), hscale, hmantissa]
    apply hclose (b₁ :: b₂ :: List.replicate k 0) (by omega)
    simp only [List.length_cons, List.length_replicate, Mpi.ofBE_cons, Mpi.ofBE_zeros]
    ring

end Read

/-! ## Writing and reading -/

section Round

variable {n m : Nat}

theorem width_lt (hn : n < 2 ^ 256) : Mpi.width n < 2 ^ 8 := by
  unfold Mpi.width
  split
  · decide
  · next hne =>
    have hlog : n.log2 < 256 := (Nat.log2_lt (by omega)).mpr hn
    rw [Int.natAbs_natCast, Mantissa.size]
    omega

/-- The size byte. -/
theorem toNat_getCompact_size (hn : n < 2 ^ 256) : (getCompact mpi n >>> 24).toNat = Mpi.width n := by
  have h₀ := ((Mpi.body n).getD 0 0).toNat_lt
  have h₁ := ((Mpi.body n).getD 1 0).toNat_lt
  have h₂ := ((Mpi.body n).getD 2 0).toNat_lt
  have hshift : (getCompact mpi n >>> 24).toNat = (getCompact mpi n).toNat / 2 ^ 24 := by
    rw [UInt32.toNat_shiftRight]
    exact Nat.shiftRight_eq_div_pow _ _
  rw [hshift, toNat_getCompact_of_body (width_lt hn)]
  omega

/-- **A target that is written and read keeps its leading bytes.** -/
theorem setCompact_getCompact_eq_floor (bn : Int) (hn : n < 2 ^ 256) :
    setCompact mpi bn (getCompact mpi n) = (Mantissa.floor n : Nat) := by
  rw [setCompact_eq, toNat_getCompact (width_lt hn)]
  rcases Nat.eq_zero_or_pos n with rfl | hpos
  · rfl
  · exact MotaCoin.setCompact_getCompact hpos

theorem getCompact_floor (hn : n < 2 ^ 256) : getCompact mpi (Mantissa.floor n : Nat) = getCompact mpi n := by
  apply UInt32.toNat_inj.mp
  rw [toNat_getCompact (width_lt ((Mantissa.floor_le n).trans_lt hn)), toNat_getCompact (width_lt hn)]
  rcases Nat.eq_zero_or_pos n with rfl | hpos
  · rfl
  · rw [getCompact_natCast hpos, getCompact_natCast (Mantissa.floor_pos hpos), Mantissa.size_floor,
      Mantissa.leading_floor]

/-- **The rounding of compact targets.** A number is rounded down by less than one in the last of
the three places that are kept, and not at all if it has no more; what was rounded is written the
same way again; and the order is kept. -/
theorem compact_spec (mpi : Mpi.Codec) (bn : Int) (hn : n < 2 ^ 256) (hm : m < 2 ^ 256) :
    setCompact mpi bn (getCompact mpi n) ≤ n ∧
      (3 < (getCompact mpi n >>> 24).toNat → (n : Int) - setCompact mpi bn (getCompact mpi n) <
        (2 : Int) ^ (8 * ((getCompact mpi n >>> 24).toNat - 3))) ∧
      ((getCompact mpi n >>> 24).toNat ≤ 3 → setCompact mpi bn (getCompact mpi n) = n) ∧
      getCompact mpi (setCompact mpi bn (getCompact mpi n)) = getCompact mpi n ∧
      (n ≤ m → setCompact mpi bn (getCompact mpi n) ≤ setCompact mpi bn (getCompact mpi m)) := by
  have hsize : n ≠ 0 → Mpi.width n = Mantissa.size n := fun hne => if_neg (Int.natCast_ne_zero.mpr hne)
  rw [setCompact_getCompact_eq_floor bn hn, setCompact_getCompact_eq_floor bn hm, getCompact_floor hn,
    toNat_getCompact_size hn]
  refine ⟨Int.ofNat_le.mpr (Mantissa.floor_le n), fun hlarge => ?_, fun hsmall => ?_, rfl, fun hle => ?_⟩
  · have hne : n ≠ 0 := by
      rintro rfl
      exact absurd hlarge (by decide)
    rw [hsize hne] at hlarge ⊢
    have hlt := Mantissa.lt_floor_add hlarge
    rw [Mantissa.pow_256] at hlt
    zify at hlt
    linarith
  · rcases Nat.eq_zero_or_pos n with rfl | hpos
    · rfl
    · rw [hsize hpos.ne'] at hsmall
      rw [Mantissa.floor_eq_self hsmall]
  · exact Int.ofNat_le.mpr (Mantissa.floor_mono hle)

/-- A number whose top bit is set takes one byte more, and loses that many. -/
theorem compact_spec_topBit :
    setCompact Mpi.codec 0 (getCompact Mpi.codec (0x92345678 : Nat)) ≤ (0x92345678 : Nat) ∧
      (3 < (getCompact Mpi.codec (0x92345678 : Nat) >>> 24).toNat →
        ((0x92345678 : Nat) : Int) - setCompact Mpi.codec 0 (getCompact Mpi.codec (0x92345678 : Nat)) <
          (2 : Int) ^ (8 * ((getCompact Mpi.codec (0x92345678 : Nat) >>> 24).toNat - 3))) ∧
      ((getCompact Mpi.codec (0x92345678 : Nat) >>> 24).toNat ≤ 3 →
        setCompact Mpi.codec 0 (getCompact Mpi.codec (0x92345678 : Nat)) = (0x92345678 : Nat)) ∧
      getCompact Mpi.codec (setCompact Mpi.codec 0 (getCompact Mpi.codec (0x92345678 : Nat))) =
        getCompact Mpi.codec (0x92345678 : Nat) ∧
      (0x92345678 ≤ 0x92345679 → setCompact Mpi.codec 0 (getCompact Mpi.codec (0x92345678 : Nat)) ≤
        setCompact Mpi.codec 0 (getCompact Mpi.codec (0x92345679 : Nat))) :=
  compact_spec Mpi.codec 0 (by norm_num) (by norm_num)

example : getCompact Mpi.codec 0x92345678 = 0x05009234 := by decide

end Round

end CBigNum

end MotaCoin
