import MotaCoin.Lib.Regroup
import MotaCoin.Chars
import Mathlib.Data.List.Induction
import Mathlib.Data.List.TakeWhile

/-!
# Base64 and Base32

An encoder takes a string byte by byte and puts out characters of its alphabet, holding the bits
that do not make up a character yet; a decoder goes the other way and stops at the first
character outside the alphabet. Which bits are held is told by the phase. The decoders report a
text as invalid when the bits that are held at the end are not zero, or when the padding is not
the one that their number calls for.

## Main definitions

* `encodeBase64`, `decodeBase64`: the codec of `util.cpp` for groups of six bits
* `encodeBase32`, `decodeBase32`: that for groups of five bits

## Main results

* `encodeBase64_eq`, `encodeBase32_eq`: what is encoded, as regrouped bits
* `decodes_decodeBase64`, `decodes_decodeBase32`: what is decoded, and when it is reported valid
* `base64_base32_codec`: the round trips, and that only encodings are reported valid
-/

namespace MotaCoin

open Regroup

/-! ## The codecs -/

section Codecs

/-- A state of an encoder or a decoder: what was put out, the phase, and the bits that are held. -/
structure CodecState where
  /-- `strRet` or `vchRet`. -/
  ret : List UInt8
  /-- The phase. -/
  mode : ℕ
  /-- The bits that are held. -/
  left : ℕ

/-- The state before the first byte. -/
def CodecState.start : CodecState := ⟨[], 0, 0⟩

/-- The character that fills up a text. -/
def padChar : UInt8 := 0x3D

def pbase64 : List UInt8 :=
  chars "ABCDEFGHIJKLMNOPQRSTUVWXYZabcdefghijklmnopqrstuvwxyz0123456789+/"

def decode64Table : List Int :=
  [
    -1, -1, -1, -1, -1, -1, -1, -1, -1, -1, -1, -1, -1, -1, -1, -1, -1, -1, -1, -1,
    -1, -1, -1, -1, -1, -1, -1, -1, -1, -1, -1, -1, -1, -1, -1, -1, -1, -1, -1, -1,
    -1, -1, -1, 62, -1, -1, -1, 63, 52, 53, 54, 55, 56, 57, 58, 59, 60, 61, -1, -1,
    -1, -1, -1, -1, -1,  0,  1,  2,  3,  4,  5,  6,  7,  8,  9, 10, 11, 12, 13, 14,
    15, 16, 17, 18, 19, 20, 21, 22, 23, 24, 25, -1, -1, -1, -1, -1, -1, 26, 27, 28,
    29, 30, 31, 32, 33, 34, 35, 36, 37, 38, 39, 40, 41, 42, 43, 44, 45, 46, 47, 48,
    49, 50, 51, -1, -1, -1, -1, -1, -1, -1, -1, -1, -1, -1, -1, -1, -1, -1, -1, -1,
    -1, -1, -1, -1, -1, -1, -1, -1, -1, -1, -1, -1, -1, -1, -1, -1, -1, -1, -1, -1,
    -1, -1, -1, -1, -1, -1, -1, -1, -1, -1, -1, -1, -1, -1, -1, -1, -1, -1, -1, -1,
    -1, -1, -1, -1, -1, -1, -1, -1, -1, -1, -1, -1, -1, -1, -1, -1, -1, -1, -1, -1,
    -1, -1, -1, -1, -1, -1, -1, -1, -1, -1, -1, -1, -1, -1, -1, -1, -1, -1, -1, -1,
    -1, -1, -1, -1, -1, -1, -1, -1, -1, -1, -1, -1, -1, -1, -1, -1, -1, -1, -1, -1,
    -1, -1, -1, -1, -1, -1, -1, -1, -1, -1, -1, -1, -1, -1, -1, -1
  ]

/-- One round of the loop of `EncodeBase64`. -/
def encodeBase64Step (st : CodecState) (enc : ℕ) : CodecState :=
  let digit n := pbase64.getD n 0
  match st.mode with
  | 0 => ⟨st.ret ++ [digit (enc >>> 2)], 1, (enc &&& 3) <<< 4⟩
  | 1 => ⟨st.ret ++ [digit (st.left ||| enc >>> 4)], 2, (enc &&& 15) <<< 2⟩
  | 2 => ⟨st.ret ++ [digit (st.left ||| enc >>> 6), digit (enc &&& 63)], 0, st.left⟩
  | _ => st

/-- `EncodeBase64`. -/
def encodeBase64 (s : List UInt8) : List UInt8 :=
  let st := (s.map UInt8.toNat).foldl encodeBase64Step CodecState.start
  if st.mode ≠ 0 then
    st.ret ++ [pbase64.getD st.left 0] ++ [padChar] ++ (if st.mode = 1 then [padChar] else [])
  else st.ret

/-- One round of the loop of `DecodeBase64`; bytes are truncated as they are pushed. -/
def decodeBase64Step (st : CodecState) (dec : ℕ) : CodecState :=
  match st.mode with
  | 0 => ⟨st.ret, 1, dec⟩
  | 1 => ⟨st.ret ++ [UInt8.ofNat (st.left <<< 2 ||| dec >>> 4)], 2, dec &&& 15⟩
  | 2 => ⟨st.ret ++ [UInt8.ofNat (st.left <<< 4 ||| dec >>> 2)], 3, dec &&& 3⟩
  | 3 => ⟨st.ret ++ [UInt8.ofNat (st.left <<< 6 ||| dec)], 0, st.left⟩
  | _ => st

/-- The entry of a decoding table for the first character of `p`, or for the terminating NUL. -/
def entry (table : List Int) (p : List UInt8) : Int := table.getD (p.getD 0 0).toNat (-1)

/-- The loop of a decoder: to the first character without an entry. -/
def decodeLoop (table : List Int) (step : CodecState → ℕ → CodecState) :
    CodecState → List UInt8 → CodecState × List UInt8
  | st, [] => (st, [])
  | st, c :: p =>
    let dec := entry table (c :: p)
    if dec = -1 then (st, c :: p) else decodeLoop table step (step st dec.toNat) p

/-- The check at the end of a decoder: bits are held that are not zero, or the text does not go
on with `n` padding characters and then a character without an entry. -/
def badPadding (table : List Int) (left : ℕ) (p : List UInt8) (n : ℕ) : Bool :=
  left != 0 || (List.range n).any (fun k => p.getD k 0 != padChar) ||
    entry table (p.drop n) != -1

/-- `DecodeBase64`: the bytes, and `*pfInvalid`. -/
def decodeBase64 (p : List UInt8) : List UInt8 × Bool :=
  let (st, p) := decodeLoop decode64Table decodeBase64Step CodecState.start p
  (st.ret, match st.mode with
    | 0 => false
    | 1 => true
    | 2 => badPadding decode64Table st.left p 2
    | 3 => badPadding decode64Table st.left p 1
    | _ => false)

def pbase32 : List UInt8 := chars "abcdefghijklmnopqrstuvwxyz234567"

def decode32Table : List Int :=
  [
    -1, -1, -1, -1, -1, -1, -1, -1, -1, -1, -1, -1, -1, -1, -1, -1, -1, -1, -1, -1,
    -1, -1, -1, -1, -1, -1, -1, -1, -1, -1, -1, -1, -1, -1, -1, -1, -1, -1, -1, -1,
    -1, -1, -1, -1, -1, -1, -1, -1, -1, -1, 26, 27, 28, 29, 30, 31, -1, -1, -1, -1,
    -1, -1, -1, -1, -1,  0,  1,  2,  3,  4,  5,  6,  7,  8,  9, 10, 11, 12, 13, 14,
    15, 16, 17, 18, 19, 20, 21, 22, 23, 24, 25, -1, -1, -1, -1, -1, -1,  0,  1,  2,
    3,  4,  5,  6,  7,  8,  9, 10, 11, 12, 13, 14, 15, 16, 17, 18, 19, 20, 21, 22,
    23, 24, 25, -1, -1, -1, -1, -1, -1, -1, -1, -1, -1, -1, -1, -1, -1, -1, -1, -1,
    -1, -1, -1, -1, -1, -1, -1, -1, -1, -1, -1, -1, -1, -1, -1, -1, -1, -1, -1, -1,
    -1, -1, -1, -1, -1, -1, -1, -1, -1, -1, -1, -1, -1, -1, -1, -1, -1, -1, -1, -1,
    -1, -1, -1, -1, -1, -1, -1, -1, -1, -1, -1, -1, -1, -1, -1, -1, -1, -1, -1, -1,
    -1, -1, -1, -1, -1, -1, -1, -1, -1, -1, -1, -1, -1, -1, -1, -1, -1, -1, -1, -1,
    -1, -1, -1, -1, -1, -1, -1, -1, -1, -1, -1, -1, -1, -1, -1, -1, -1, -1, -1, -1,
    -1, -1, -1, -1, -1, -1, -1, -1, -1, -1, -1, -1, -1, -1, -1, -1
  ]

/-- One round of the loop of `EncodeBase32`. -/
def encodeBase32Step (st : CodecState) (enc : ℕ) : CodecState :=
  let digit n := pbase32.getD n 0
  match st.mode with
  | 0 => ⟨st.ret ++ [digit (enc >>> 3)], 1, (enc &&& 7) <<< 2⟩
  | 1 => ⟨st.ret ++ [digit (st.left ||| enc >>> 6), digit ((enc >>> 1) &&& 31)], 2,
      (enc &&& 1) <<< 4⟩
  | 2 => ⟨st.ret ++ [digit (st.left ||| enc >>> 4)], 3, (enc &&& 15) <<< 1⟩
  | 3 => ⟨st.ret ++ [digit (st.left ||| enc >>> 7), digit ((enc >>> 2) &&& 31)], 4,
      (enc &&& 3) <<< 3⟩
  | 4 => ⟨st.ret ++ [digit (st.left ||| enc >>> 5), digit (enc &&& 31)], 0, st.left⟩
  | _ => st

def nPadding : List ℕ := [0, 6, 4, 3, 1]

/-- `EncodeBase32`. -/
def encodeBase32 (s : List UInt8) : List UInt8 :=
  let st := (s.map UInt8.toNat).foldl encodeBase32Step CodecState.start
  if st.mode ≠ 0 then
    st.ret ++ [pbase32.getD st.left 0] ++ List.replicate (nPadding.getD st.mode 0) padChar
  else st.ret

/-- One round of the loop of `DecodeBase32`; bytes are truncated as they are pushed. -/
def decodeBase32Step (st : CodecState) (dec : ℕ) : CodecState :=
  match st.mode with
  | 0 => ⟨st.ret, 1, dec⟩
  | 1 => ⟨st.ret ++ [UInt8.ofNat (st.left <<< 3 ||| dec >>> 2)], 2, dec &&& 3⟩
  | 2 => ⟨st.ret, 3, st.left <<< 5 ||| dec⟩
  | 3 => ⟨st.ret ++ [UInt8.ofNat (st.left <<< 1 ||| dec >>> 4)], 4, dec &&& 15⟩
  | 4 => ⟨st.ret ++ [UInt8.ofNat (st.left <<< 4 ||| dec >>> 1)], 5, dec &&& 1⟩
  | 5 => ⟨st.ret, 6, st.left <<< 5 ||| dec⟩
  | 6 => ⟨st.ret ++ [UInt8.ofNat (st.left <<< 2 ||| dec >>> 3)], 7, dec &&& 7⟩
  | 7 => ⟨st.ret ++ [UInt8.ofNat (st.left <<< 5 ||| dec)], 0, st.left⟩
  | _ => st

/-- `DecodeBase32`: the bytes, and `*pfInvalid`. -/
def decodeBase32 (p : List UInt8) : List UInt8 × Bool :=
  let (st, p) := decodeLoop decode32Table decodeBase32Step CodecState.start p
  (st.ret, match st.mode with
    | 0 => false
    | 1 => true
    | 3 => true
    | 6 => true
    | 2 => badPadding decode32Table st.left p 6
    | 4 => badPadding decode32Table st.left p 4
    | 5 => badPadding decode32Table st.left p 3
    | 7 => badPadding decode32Table st.left p 1
    | _ => false)

end Codecs

/-! ## Encoding -/

section Encode

variable {b held : ℕ} {alphabet : List UInt8}

/-- The characters that were put out, and the bits `pend` that are held, are those of `s`. -/
def Encodes (b : ℕ) (alphabet : List UInt8) (held : ℕ) (ret : List UInt8) (pend : ℕ)
    (s : List ℕ) : Prop :=
  pend < 2 ^ held ∧ ∃ digits, (∀ d ∈ digits, d < 2 ^ b) ∧
    ret = digits.map (alphabet.getD · 0) ∧ wordBits 8 s = wordBits b digits ++ bits held pend

namespace Encodes

variable {ret : List UInt8} {pend q x : ℕ} {s : List ℕ}

theorem nil : Encodes b alphabet 0 [] 0 [] := ⟨Nat.one_pos, [], by simp, rfl, rfl⟩

/-- A byte that completes one character. -/
theorem one (h : Encodes b alphabet held ret pend s) (hx : x < 2 ^ 8) (hheld : held ≤ b)
    (hq : q ≤ 8) (hwidth : held + 8 = b + q) :
    Encodes b alphabet q (ret ++ [alphabet.getD (pend <<< (b - held) ||| x >>> q) 0])
      (x &&& 2 ^ q - 1) (s ++ [x]) := by
  obtain ⟨hpend, digits, hdigits, rfl, hbits⟩ := h
  refine ⟨mask_lt _ _,
    digits ++ [pend <<< (b - held) ||| x >>> q], ?_, by rw [List.map_append]; rfl, ?_⟩
  · intro d hd
    rcases List.mem_append.mp hd with hd | hd
    · exact hdigits d hd
    · rw [List.mem_singleton.mp hd]
      exact emit_lt hpend hx hheld hwidth
  · rw [wordBits_append, hbits, wordBits_singleton, List.append_assoc, bits_emit hx hq hwidth,
      wordBits_append, wordBits_singleton, List.append_assoc]

/-- A byte that completes two characters. -/
theorem two (h : Encodes b alphabet held ret pend s) (hx : x < 2 ^ 8) (hheld : held ≤ b)
    (hq : b + q ≤ 8) (hwidth : held + 8 = b + (b + q)) :
    Encodes b alphabet q
      (ret ++ [alphabet.getD (pend <<< (b - held) ||| x >>> (b + q)) 0,
        alphabet.getD ((x >>> q) &&& 2 ^ b - 1) 0]) (x &&& 2 ^ q - 1) (s ++ [x]) := by
  obtain ⟨-, digits, hdigits, hret, hbits⟩ := h.one hx hheld hq hwidth
  refine ⟨mask_lt _ _,
    digits ++ [(x >>> q) &&& 2 ^ b - 1], ?_, ?_, ?_⟩
  · intro d hd
    rcases List.mem_append.mp hd with hd | hd
    · exact hdigits d hd
    · rw [List.mem_singleton.mp hd]
      exact mask_lt _ _
  · rw [List.map_append, ← hret, List.append_assoc]
    rfl
  · rw [hbits, bits_split, wordBits_append, wordBits_singleton, List.append_assoc]

/-- Nothing is held at the end. -/
theorem regroups (h : Encodes b alphabet 0 ret pend s) (hs : ∀ x ∈ s, x < 2 ^ 8) (hb : 0 < b) :
    ∃ digits, Regroups 8 b 0 s digits ∧ ret = digits.map (alphabet.getD · 0) := by
  obtain ⟨-, digits, hdigits, hret, hbits⟩ := h
  refine ⟨digits, ⟨hs, hdigits, hb, ?_⟩, hret⟩
  rw [hbits, bits_zero_width, List.append_nil, List.replicate_zero, List.append_nil]

/-- The bits that are held at the end make up one more character. -/
theorem regroups_last (h : Encodes b alphabet held ret pend s) (hs : ∀ x ∈ s, x < 2 ^ 8)
    (hpos : 0 < held) (hheld : held < b) :
    ∃ digits, Regroups 8 b (b - held) s digits ∧
      ret ++ [alphabet.getD (pend <<< (b - held)) 0] = digits.map (alphabet.getD · 0) := by
  obtain ⟨hpend, digits, hdigits, rfl, hbits⟩ := h
  refine ⟨digits ++ [pend <<< (b - held)], ⟨hs, ?_, by omega, ?_⟩,
    by rw [List.map_append]; rfl⟩
  · intro d hd
    rcases List.mem_append.mp hd with hd | hd
    · exact hdigits d hd
    · rw [List.mem_singleton.mp hd]
      have := emit_lt (x := 0) hpend (c := b - held) (q := 0) (by positivity) hheld.le (by omega)
      rwa [Nat.zero_shiftRight, Nat.or_zero] at this
  · have hfill := bits_fill held (b - held) pend
    rw [Nat.add_sub_cancel' hheld.le] at hfill
    rw [hbits, List.append_assoc, ← hfill, wordBits_append, wordBits_singleton,
      Nat.shiftLeft_eq]

end Encodes

/-- The bits that an encoder holds in each phase. -/
def heldWhenEncoding (held : List ℕ) (b : ℕ) (alphabet : List UInt8) (st : CodecState)
    (s : List ℕ) : Prop :=
  st.mode < held.length ∧ ∃ pend,
    (st.mode ≠ 0 → st.left = pend <<< (b - held.getD st.mode 0)) ∧
    Encodes b alphabet (held.getD st.mode 0) st.ret pend s

/-- What an encoder puts out: the characters of the regrouped bits, and the padding. -/
def EncodedAs (b : ℕ) (alphabet : List UInt8) (pad : ℕ → ℕ) (s text : List UInt8) : Prop :=
  ∃ k digits, Regroups 8 b k (s.map UInt8.toNat) digits ∧
    text = digits.map (alphabet.getD · 0) ++ List.replicate (pad k) padChar

/-- A run of an encoder keeps what holds at its start and is kept by every round. -/
theorem encoder_run (held : List ℕ) {step : CodecState → ℕ → CodecState}
    (hstart : heldWhenEncoding held b alphabet CodecState.start [])
    (hstep : ∀ st s x, x < 2 ^ 8 → heldWhenEncoding held b alphabet st s →
      heldWhenEncoding held b alphabet (step st x) (s ++ [x])) (s : List UInt8) :
    heldWhenEncoding held b alphabet ((s.map UInt8.toNat).foldl step CodecState.start)
      (s.map UInt8.toNat) := by
  induction s using List.reverseRecOn with
  | nil => exact hstart
  | append_singleton s c ih =>
    rw [List.map_append, List.foldl_append]
    exact hstep _ _ _ c.toNat_lt ih

theorem toNat_lt_of_mem {s : List UInt8} : ∀ x ∈ s.map UInt8.toNat, x < 2 ^ 8 := by
  intro x hx
  obtain ⟨c, -, rfl⟩ := List.mem_map.mp hx
  exact c.toNat_lt

/-- The padding of a Base64 text that was filled up with `k` bits. -/
def pad64 (k : ℕ) : ℕ := k / 2

theorem heldWhenEncoding_step64 (st : CodecState) (s : List ℕ) (x : ℕ) (hx : x < 2 ^ 8)
    (h : heldWhenEncoding [0, 2, 4] 6 pbase64 st s) :
    heldWhenEncoding [0, 2, 4] 6 pbase64 (encodeBase64Step st x) (s ++ [x]) := by
  obtain ⟨ret, mode, left⟩ := st
  obtain ⟨hmode, pend, hleft, henc⟩ := h
  match mode, hmode with
  | 0, _ =>
    have henc : Encodes 6 pbase64 0 ret pend s := henc
    obtain rfl : pend = 0 := Nat.lt_one_iff.mp henc.1
    have := henc.one (q := 2) hx (by decide) (by decide) (by decide)
    rw [Nat.zero_shiftLeft, Nat.zero_or] at this
    exact ⟨(by decide : 1 < 3), x &&& 3, fun _ => rfl, this⟩
  | 1, _ =>
    obtain rfl : left = pend <<< 4 := hleft (by decide : 1 ≠ 0)
    have henc : Encodes 6 pbase64 2 ret pend s := henc
    exact ⟨(by decide : 2 < 3), x &&& 15, fun _ => rfl,
      henc.one (q := 4) hx (by decide) (by decide) (by decide)⟩
  | 2, _ =>
    obtain rfl : left = pend <<< 2 := hleft (by decide : 2 ≠ 0)
    have henc : Encodes 6 pbase64 4 ret pend s := henc
    exact ⟨(by decide : 0 < 3), x &&& 0, fun h => absurd rfl h,
      henc.two (q := 0) hx (by decide) (by decide) (by decide)⟩

/-- **What `EncodeBase64` puts out.** -/
theorem encodeBase64_eq (s : List UInt8) : EncodedAs 6 pbase64 pad64 s (encodeBase64 s) := by
  obtain ⟨hmode, pend, hleft, henc⟩ := encoder_run [0, 2, 4]
    ⟨by decide, 0, fun h => absurd rfl h, Encodes.nil⟩ heldWhenEncoding_step64 s
  unfold encodeBase64
  generalize (s.map UInt8.toNat).foldl encodeBase64Step CodecState.start = st at *
  obtain ⟨ret, mode, left⟩ := st
  match mode, hmode with
  | 0, _ =>
    obtain ⟨digits, hgroups, rfl⟩ := henc.regroups toNat_lt_of_mem (by decide)
    exact ⟨0, digits, hgroups, (List.append_nil _).symm⟩
  | 1, _ =>
    obtain rfl : left = pend <<< 4 := hleft (by decide : 1 ≠ 0)
    have henc : Encodes 6 pbase64 2 ret pend (s.map UInt8.toNat) := henc
    obtain ⟨digits, hgroups, hret⟩ := henc.regroups_last toNat_lt_of_mem (by decide) (by decide)
    exact ⟨4, digits, hgroups, by rw [← hret]; simp [pad64]⟩
  | 2, _ =>
    obtain rfl : left = pend <<< 2 := hleft (by decide : 2 ≠ 0)
    have henc : Encodes 6 pbase64 4 ret pend (s.map UInt8.toNat) := henc
    obtain ⟨digits, hgroups, hret⟩ := henc.regroups_last toNat_lt_of_mem (by decide) (by decide)
    exact ⟨2, digits, hgroups, by rw [← hret]; simp [pad64]⟩

/-- The padding of a Base32 text that was filled up with `k` bits. -/
def pad32 (k : ℕ) : ℕ := [0, 3, 6, 1, 4].getD k 0

theorem heldWhenEncoding_step32 (st : CodecState) (s : List ℕ) (x : ℕ) (hx : x < 2 ^ 8)
    (h : heldWhenEncoding [0, 3, 1, 4, 2] 5 pbase32 st s) :
    heldWhenEncoding [0, 3, 1, 4, 2] 5 pbase32 (encodeBase32Step st x) (s ++ [x]) := by
  obtain ⟨ret, mode, left⟩ := st
  obtain ⟨hmode, pend, hleft, henc⟩ := h
  match mode, hmode with
  | 0, _ =>
    have henc : Encodes 5 pbase32 0 ret pend s := henc
    obtain rfl : pend = 0 := Nat.lt_one_iff.mp henc.1
    have := henc.one (q := 3) hx (by decide) (by decide) (by decide)
    rw [Nat.zero_shiftLeft, Nat.zero_or] at this
    exact ⟨(by decide : 1 < 5), x &&& 7, fun _ => rfl, this⟩
  | 1, _ =>
    obtain rfl : left = pend <<< 2 := hleft (by decide : 1 ≠ 0)
    have henc : Encodes 5 pbase32 3 ret pend s := henc
    exact ⟨(by decide : 2 < 5), x &&& 1, fun _ => rfl,
      henc.two (q := 1) hx (by decide) (by decide) (by decide)⟩
  | 2, _ =>
    obtain rfl : left = pend <<< 4 := hleft (by decide : 2 ≠ 0)
    have henc : Encodes 5 pbase32 1 ret pend s := henc
    exact ⟨(by decide : 3 < 5), x &&& 15, fun _ => rfl,
      henc.one (q := 4) hx (by decide) (by decide) (by decide)⟩
  | 3, _ =>
    obtain rfl : left = pend <<< 1 := hleft (by decide : 3 ≠ 0)
    have henc : Encodes 5 pbase32 4 ret pend s := henc
    exact ⟨(by decide : 4 < 5), x &&& 3, fun _ => rfl,
      henc.two (q := 2) hx (by decide) (by decide) (by decide)⟩
  | 4, _ =>
    obtain rfl : left = pend <<< 3 := hleft (by decide : 4 ≠ 0)
    have henc : Encodes 5 pbase32 2 ret pend s := henc
    exact ⟨(by decide : 0 < 5), x &&& 0, fun h => absurd rfl h,
      henc.two (q := 0) hx (by decide) (by decide) (by decide)⟩

/-- **What `EncodeBase32` puts out.** -/
theorem encodeBase32_eq (s : List UInt8) : EncodedAs 5 pbase32 pad32 s (encodeBase32 s) := by
  obtain ⟨hmode, pend, hleft, henc⟩ := encoder_run [0, 3, 1, 4, 2]
    ⟨by decide, 0, fun h => absurd rfl h, Encodes.nil⟩ heldWhenEncoding_step32 s
  unfold encodeBase32
  generalize (s.map UInt8.toNat).foldl encodeBase32Step CodecState.start = st at *
  obtain ⟨ret, mode, left⟩ := st
  by_cases hzero : mode = 0
  · subst hzero
    obtain ⟨digits, hgroups, rfl⟩ := henc.regroups toNat_lt_of_mem (by decide)
    exact ⟨0, digits, hgroups, (List.append_nil _).symm⟩
  · have hheld : 0 < [0, 3, 1, 4, 2].getD mode 0 ∧ [0, 3, 1, 4, 2].getD mode 0 < 5 ∧
        nPadding.getD mode 0 = pad32 (5 - [0, 3, 1, 4, 2].getD mode 0) := by
      match mode, hmode with
      | 0, _ => exact absurd rfl hzero
      | 1, _ | 2, _ | 3, _ | 4, _ => decide
    obtain ⟨digits, hgroups, hret⟩ := henc.regroups_last toNat_lt_of_mem hheld.1 hheld.2.1
    refine ⟨_, digits, hgroups, ?_⟩
    dsimp only at hleft ⊢
    rw [if_pos hzero, hleft hzero, hret, hheld.2.2]

end Encode

/-! ## Decoding -/

section Decode

variable {b held : ℕ} {table : List Int} {step : CodecState → ℕ → CodecState}

/-- The bytes that were put out, and the bits `pend` that are held, are those of the digits. -/
def Decodes (b held : ℕ) (ret : List UInt8) (pend : ℕ) (digits : List ℕ) : Prop :=
  pend < 2 ^ held ∧ wordBits 8 (ret.map UInt8.toNat) ++ bits held pend = wordBits b digits

namespace Decodes

variable {ret : List UInt8} {pend q x : ℕ} {digits : List ℕ}

theorem nil : Decodes b 0 [] 0 [] := ⟨Nat.one_pos, rfl⟩

/-- A digit that completes a byte; the byte is not truncated. -/
theorem emit (h : Decodes b held ret pend digits) (hx : x < 2 ^ b) (hheld : held ≤ 8)
    (hq : q ≤ b) (hwidth : held + b = 8 + q) :
    Decodes b q (ret ++ [UInt8.ofNat (pend <<< (8 - held) ||| x >>> q)]) (x &&& 2 ^ q - 1)
      (digits ++ [x]) := by
  obtain ⟨hpend, hbits⟩ := h
  refine ⟨mask_lt _ _, ?_⟩
  rw [List.map_append, List.map_singleton, UInt8.toNat_ofNat_of_lt' (emit_lt hpend hx hheld hwidth),
    wordBits_append, wordBits_append, wordBits_singleton, wordBits_singleton, List.append_assoc,
    ← bits_emit hx hq hwidth, ← List.append_assoc, hbits]

/-- A digit that does not. -/
theorem keep (h : Decodes b held ret pend digits) (hx : x < 2 ^ b) :
    Decodes b (held + b) ret (pend <<< b ||| x) (digits ++ [x]) := by
  obtain ⟨hpend, hbits⟩ := h
  constructor
  · have := emit_lt (b := held + b) (q := 0) hpend hx (Nat.le_add_right held b) rfl
    rwa [Nat.add_sub_cancel_left] at this
  · rw [← bits_keep held pend hx, ← List.append_assoc, hbits, wordBits_append,
      wordBits_singleton]

end Decodes

/-- The bits that a decoder holds in each phase. -/
def heldWhenDecoding (held : List ℕ) (b : ℕ) (st : CodecState) (digits : List ℕ) : Prop :=
  st.mode < held.length ∧ ∃ pend, (st.mode ≠ 0 → st.left = pend) ∧
    Decodes b (held.getD st.mode 0) st.ret pend digits

/-- The characters up to the first without an entry. -/
def inTable (table : List Int) (p : List UInt8) : List UInt8 :=
  p.takeWhile fun c => entry table [c] ≠ -1

/-- The digits of characters. -/
def digitsOf (table : List Int) (p : List UInt8) : List ℕ :=
  p.map fun c => (entry table [c]).toNat

/-- The text ends, or goes on with a character outside the alphabet. -/
def Outside (table : List Int) (rest : List UInt8) : Prop :=
  ∀ c ∈ rest.head?, entry table [c] = -1

theorem entry_cons (table : List Int) (c : UInt8) (p : List UInt8) :
    entry table (c :: p) = entry table [c] := rfl

/-- The loop stops at the first character without an entry. -/
theorem decodeLoop_eq (st : CodecState) (p : List UInt8) :
    decodeLoop table step st p =
      ((digitsOf table (inTable table p)).foldl step st, p.drop (inTable table p).length) := by
  induction p generalizing st with
  | nil => rfl
  | cons c p ih =>
    rw [decodeLoop]
    by_cases hc : entry table [c] = -1
    · rw [entry_cons, if_pos hc, inTable, List.takeWhile_cons_of_neg (by simpa using hc)]
      rfl
    · have htake : inTable table (c :: p) = c :: inTable table p :=
        List.takeWhile_cons_of_pos (by simpa using hc)
      rw [entry_cons, if_neg hc, ih, htake]
      rfl

/-- A run of a decoder keeps what holds at its start and is kept by every round. -/
theorem decoder_run (held : List ℕ) (hstart : heldWhenDecoding held b CodecState.start [])
    (hentry : ∀ c : UInt8, (entry table [c]).toNat < 2 ^ b)
    (hstep : ∀ st digits x, x < 2 ^ b → heldWhenDecoding held b st digits →
      heldWhenDecoding held b (step st x) (digits ++ [x])) (t : List UInt8) :
    heldWhenDecoding held b ((digitsOf table t).foldl step CodecState.start)
      (digitsOf table t) := by
  induction t using List.reverseRecOn with
  | nil => exact hstart
  | append_singleton t c ih =>
    rw [digitsOf, List.map_append, List.foldl_append]
    exact hstep _ _ _ (hentry c) ih

/-- An entry is no larger than those of the table; what has none counts as zero. -/
theorem entry_lt {table : List Int} {n : ℕ} (hall : ∀ d ∈ table, d.toNat < 2 ^ n) (c : UInt8) :
    (entry table [c]).toNat < 2 ^ n := by
  rw [entry, List.getD_eq_getElem?_getD]
  cases hget : table[([c].getD 0 0).toNat]? with
  | none => exact Nat.two_pow_pos n
  | some d => exact hall d (List.mem_of_getElem? hget)

theorem entry_lt64 (c : UInt8) : (entry decode64Table [c]).toNat < 2 ^ 6 :=
  entry_lt (by decide +kernel) c

theorem entry_lt32 (c : UInt8) : (entry decode32Table [c]).toNat < 2 ^ 5 :=
  entry_lt (by decide +kernel) c

theorem heldWhenDecoding_step64 (st : CodecState) (digits : List ℕ) (x : ℕ) (hx : x < 2 ^ 6)
    (h : heldWhenDecoding [0, 6, 4, 2] 6 st digits) :
    heldWhenDecoding [0, 6, 4, 2] 6 (decodeBase64Step st x) (digits ++ [x]) := by
  obtain ⟨ret, mode, left⟩ := st
  obtain ⟨hmode, pend, hleft, hdec⟩ := h
  match mode, hmode with
  | 0, _ =>
    have hdec : Decodes 6 0 ret pend digits := hdec
    obtain rfl : pend = 0 := Nat.lt_one_iff.mp hdec.1
    have := hdec.keep hx
    rw [Nat.zero_shiftLeft, Nat.zero_or] at this
    exact ⟨(by decide : 1 < 4), x, fun _ => rfl, this⟩
  | 1, _ =>
    obtain rfl : left = pend := hleft (by decide : 1 ≠ 0)
    have hdec : Decodes 6 6 ret left digits := hdec
    exact ⟨(by decide : 2 < 4), x &&& 15, fun _ => rfl,
      hdec.emit (q := 4) hx (by decide) (by decide) (by decide)⟩
  | 2, _ =>
    obtain rfl : left = pend := hleft (by decide : 2 ≠ 0)
    have hdec : Decodes 6 4 ret left digits := hdec
    exact ⟨(by decide : 3 < 4), x &&& 3, fun _ => rfl,
      hdec.emit (q := 2) hx (by decide) (by decide) (by decide)⟩
  | 3, _ =>
    obtain rfl : left = pend := hleft (by decide : 3 ≠ 0)
    have hdec : Decodes 6 2 ret left digits := hdec
    exact ⟨(by decide : 0 < 4), x &&& 0, fun h => absurd rfl h,
      hdec.emit (q := 0) hx (by decide) (by decide) (by decide)⟩

theorem heldWhenDecoding_step32 (st : CodecState) (digits : List ℕ) (x : ℕ) (hx : x < 2 ^ 5)
    (h : heldWhenDecoding [0, 5, 2, 7, 4, 1, 6, 3] 5 st digits) :
    heldWhenDecoding [0, 5, 2, 7, 4, 1, 6, 3] 5 (decodeBase32Step st x) (digits ++ [x]) := by
  obtain ⟨ret, mode, left⟩ := st
  obtain ⟨hmode, pend, hleft, hdec⟩ := h
  match mode, hmode with
  | 0, _ =>
    have hdec : Decodes 5 0 ret pend digits := hdec
    obtain rfl : pend = 0 := Nat.lt_one_iff.mp hdec.1
    have := hdec.keep hx
    rw [Nat.zero_shiftLeft, Nat.zero_or] at this
    exact ⟨(by decide : 1 < 8), x, fun _ => rfl, this⟩
  | 1, _ =>
    obtain rfl : left = pend := hleft (by decide : 1 ≠ 0)
    have hdec : Decodes 5 5 ret left digits := hdec
    exact ⟨(by decide : 2 < 8), x &&& 3, fun _ => rfl,
      hdec.emit (q := 2) hx (by decide) (by decide) (by decide)⟩
  | 2, _ =>
    obtain rfl : left = pend := hleft (by decide : 2 ≠ 0)
    have hdec : Decodes 5 2 ret left digits := hdec
    exact ⟨(by decide : 3 < 8), left <<< 5 ||| x, fun _ => rfl, hdec.keep hx⟩
  | 3, _ =>
    obtain rfl : left = pend := hleft (by decide : 3 ≠ 0)
    have hdec : Decodes 5 7 ret left digits := hdec
    exact ⟨(by decide : 4 < 8), x &&& 15, fun _ => rfl,
      hdec.emit (q := 4) hx (by decide) (by decide) (by decide)⟩
  | 4, _ =>
    obtain rfl : left = pend := hleft (by decide : 4 ≠ 0)
    have hdec : Decodes 5 4 ret left digits := hdec
    exact ⟨(by decide : 5 < 8), x &&& 1, fun _ => rfl,
      hdec.emit (q := 1) hx (by decide) (by decide) (by decide)⟩
  | 5, _ =>
    obtain rfl : left = pend := hleft (by decide : 5 ≠ 0)
    have hdec : Decodes 5 1 ret left digits := hdec
    exact ⟨(by decide : 6 < 8), left <<< 5 ||| x, fun _ => rfl, hdec.keep hx⟩
  | 6, _ =>
    obtain rfl : left = pend := hleft (by decide : 6 ≠ 0)
    have hdec : Decodes 5 6 ret left digits := hdec
    exact ⟨(by decide : 7 < 8), x &&& 7, fun _ => rfl,
      hdec.emit (q := 3) hx (by decide) (by decide) (by decide)⟩
  | 7, _ =>
    obtain rfl : left = pend := hleft (by decide : 7 ≠ 0)
    have hdec : Decodes 5 3 ret left digits := hdec
    exact ⟨(by decide : 0 < 8), x &&& 0, fun h => absurd rfl h,
      hdec.emit (q := 0) hx (by decide) (by decide) (by decide)⟩

/-- What a decoder gives for the text `p`: the bytes of the regrouped bits; and it reports the
text valid if and only if the bits that are left are zeros, less than a digit, and followed by
the padding that their number calls for and by no digit. -/
def DecodedAs (b : ℕ) (table : List Int) (pad : ℕ → ℕ) (p : List UInt8)
    (r : List UInt8 × Bool) : Prop :=
  ∃ held pend, held < 8 ∧ Decodes b held r.1 pend (digitsOf table (inTable table p)) ∧
    (r.2 = false ↔ held < b ∧ pend = 0 ∧ ∃ rest, Outside table rest ∧
      p = inTable table p ++ List.replicate (pad held) padChar ++ rest)

/-- The check at the end of a decoder. -/
theorem badPadding_eq_false_iff {left n : ℕ} {p : List UInt8} (hnul : entry table [] = -1) :
    badPadding table left p n = false ↔ left = 0 ∧ ∃ rest, Outside table rest ∧
      p = List.replicate n padChar ++ rest := by
  have houtside : ∀ q, entry table q = -1 ↔ Outside table q := by
    intro q
    cases q with
    | nil => exact iff_of_true hnul (by simp [Outside])
    | cons c q => rw [entry_cons]; simp [Outside]
  have hpads : (∀ k < n, p.getD k 0 = padChar) ↔
      p = List.replicate n padChar ++ p.drop n := by
    constructor
    · intro h
      refine List.ext_getElem? fun k => ?_
      by_cases hk : k < n
      · have := h k hk
        rw [List.getElem?_append_left (by simpa using hk), List.getElem?_replicate, if_pos hk]
        rw [List.getD_eq_getElem?_getD] at this
        cases hget : p[k]? with
        | none => rw [hget] at this; exact absurd this (by decide)
        | some c => rw [hget] at this; exact congrArg some this
      · rw [List.getElem?_append_right (by simpa using hk), List.getElem?_drop,
          List.length_replicate, Nat.add_sub_cancel' (Nat.le_of_not_lt hk)]
    · intro h k hk
      rw [h, List.getD_eq_getElem?_getD, List.getElem?_append_left (by simpa using hk),
        List.getElem?_replicate, if_pos hk, Option.getD_some]
  unfold badPadding
  rw [Bool.or_eq_false_iff, Bool.or_eq_false_iff, bne_eq_false_iff_eq, bne_eq_false_iff_eq,
    List.any_eq_false, houtside]
  constructor
  · rintro ⟨⟨hleft, hall⟩, hrest⟩
    refine ⟨hleft, p.drop n, hrest, hpads.mp fun k hk => ?_⟩
    simpa using hall k (List.mem_range.mpr hk)
  · rintro ⟨hleft, rest, hrest, rfl⟩
    refine ⟨⟨hleft, fun k hk => ?_⟩, ?_⟩
    · have := hpads.mpr (by rw [List.drop_left' (List.length_replicate ..)]) k
        (List.mem_range.mp hk)
      simpa using this
    · rwa [List.drop_left' (List.length_replicate ..)]

/-- The text is its digits and what the decoder has not read. -/
theorem inTable_append_drop (table : List Int) (p : List UInt8) :
    inTable table p ++ p.drop (inTable table p).length = p :=
  List.prefix_iff_eq_append.mp (List.takeWhile_prefix _)

theorem outside_drop (table : List Int) (p : List UInt8) :
    Outside table (p.drop (inTable table p).length) := by
  intro c hc
  rw [inTable, drop_length_takeWhile] at hc
  simpa using head_dropWhile hc

/-- The check at the end of a decoder, in terms of the whole text. -/
theorem badPadding_drop_iff {left n : ℕ} (p : List UInt8) (hnul : entry table [] = -1) :
    badPadding table left (p.drop (inTable table p).length) n = false ↔
      left = 0 ∧ ∃ rest, Outside table rest ∧
        p = inTable table p ++ List.replicate n padChar ++ rest := by
  rw [badPadding_eq_false_iff hnul]
  refine and_congr_right fun _ => exists_congr fun rest => and_congr_right fun _ => ?_
  conv_rhs => lhs; rw [← inTable_append_drop table p]
  rw [List.append_assoc, List.append_cancel_left_eq]

/-- No padding is called for when nothing is held. -/
theorem exists_outside (table : List Int) (p : List UInt8) :
    ∃ rest, Outside table rest ∧ p = inTable table p ++ List.replicate 0 padChar ++ rest :=
  ⟨_, outside_drop table p, by
    rw [List.replicate_zero, List.append_nil, inTable_append_drop]⟩

/-- **What `DecodeBase64` gives.** -/
theorem decodes_decodeBase64 (p : List UInt8) :
    DecodedAs 6 decode64Table pad64 p (decodeBase64 p) := by
  have hnul : entry decode64Table [] = -1 := by decide
  obtain ⟨hmode, pend, hleft, hdec⟩ := decoder_run [0, 6, 4, 2]
    ⟨by decide, 0, fun h => absurd rfl h, Decodes.nil⟩ entry_lt64 heldWhenDecoding_step64
    (inTable decode64Table p)
  unfold decodeBase64
  rw [decodeLoop_eq]
  generalize (digitsOf decode64Table (inTable decode64Table p)).foldl decodeBase64Step
    CodecState.start = st at *
  obtain ⟨ret, mode, left⟩ := st
  match mode, hmode with
  | 0, _ =>
    have hdec : Decodes 6 0 ret pend _ := hdec
    exact ⟨0, pend, by decide, hdec, iff_of_true rfl
      ⟨by decide, Nat.lt_one_iff.mp hdec.1, exists_outside _ p⟩⟩
  | 1, _ =>
    exact ⟨6, pend, by decide, hdec, iff_of_false Bool.noConfusion fun h => absurd h.1 (by decide)⟩
  | 2, _ =>
    obtain rfl : left = pend := hleft (by decide : 2 ≠ 0)
    exact ⟨4, left, by decide, hdec,
      (badPadding_drop_iff p hnul).trans (and_iff_right (by decide)).symm⟩
  | 3, _ =>
    obtain rfl : left = pend := hleft (by decide : 3 ≠ 0)
    exact ⟨2, left, by decide, hdec,
      (badPadding_drop_iff p hnul).trans (and_iff_right (by decide)).symm⟩

/-- **What `DecodeBase32` gives.** -/
theorem decodes_decodeBase32 (p : List UInt8) :
    DecodedAs 5 decode32Table pad32 p (decodeBase32 p) := by
  have hnul : entry decode32Table [] = -1 := by decide
  obtain ⟨hmode, pend, hleft, hdec⟩ := decoder_run [0, 5, 2, 7, 4, 1, 6, 3]
    ⟨by decide, 0, fun h => absurd rfl h, Decodes.nil⟩ entry_lt32
    heldWhenDecoding_step32 (inTable decode32Table p)
  unfold decodeBase32
  rw [decodeLoop_eq]
  generalize (digitsOf decode32Table (inTable decode32Table p)).foldl decodeBase32Step
    CodecState.start = st at *
  obtain ⟨ret, mode, left⟩ := st
  match mode, hmode with
  | 0, _ =>
    have hdec : Decodes 5 0 ret pend _ := hdec
    exact ⟨0, pend, by decide, hdec, iff_of_true rfl
      ⟨by decide, Nat.lt_one_iff.mp hdec.1, exists_outside _ p⟩⟩
  | 1, _ =>
    exact ⟨5, pend, by decide, hdec, iff_of_false Bool.noConfusion fun h => absurd h.1 (by decide)⟩
  | 2, _ =>
    obtain rfl : left = pend := hleft (by decide : 2 ≠ 0)
    exact ⟨2, left, by decide, hdec,
      (badPadding_drop_iff p hnul).trans (and_iff_right (by decide)).symm⟩
  | 3, _ =>
    exact ⟨7, pend, by decide, hdec, iff_of_false Bool.noConfusion fun h => absurd h.1 (by decide)⟩
  | 4, _ =>
    obtain rfl : left = pend := hleft (by decide : 4 ≠ 0)
    exact ⟨4, left, by decide, hdec,
      (badPadding_drop_iff p hnul).trans (and_iff_right (by decide)).symm⟩
  | 5, _ =>
    obtain rfl : left = pend := hleft (by decide : 5 ≠ 0)
    exact ⟨1, left, by decide, hdec,
      (badPadding_drop_iff p hnul).trans (and_iff_right (by decide)).symm⟩
  | 6, _ =>
    exact ⟨6, pend, by decide, hdec, iff_of_false Bool.noConfusion fun h => absurd h.1 (by decide)⟩
  | 7, _ =>
    obtain rfl : left = pend := hleft (by decide : 7 ≠ 0)
    exact ⟨3, left, by decide, hdec,
      (badPadding_drop_iff p hnul).trans (and_iff_right (by decide)).symm⟩

end Decode

/-! ## Round trips -/

section RoundTrip

variable {b : ℕ} {alphabet : List UInt8} {table : List Int} {pad : ℕ → ℕ}

/-- The characters of an alphabet are read back as the digits they stand for. -/
theorem digitsOf_map {digits : List ℕ} (hdigits : ∀ d ∈ digits, d < 2 ^ b)
    (htable : ∀ d < 2 ^ b, entry table [alphabet.getD d 0] = d) :
    digitsOf table (digits.map (alphabet.getD · 0)) = digits := by
  rw [digitsOf, List.map_map]
  conv_rhs => rw [← List.map_id digits]
  refine List.map_congr_left fun d hd => ?_
  rw [Function.comp_apply, htable d (hdigits d hd)]
  rfl

/-- The decoder reads the characters of an encoding, and none of its padding. -/
theorem inTable_encoding {digits : List ℕ} (n : ℕ) (hdigits : ∀ d ∈ digits, d < 2 ^ b)
    (htable : ∀ d < 2 ^ b, entry table [alphabet.getD d 0] = d)
    (hpad : entry table [padChar] = -1) :
    inTable table (digits.map (alphabet.getD · 0) ++ List.replicate n padChar) =
      digits.map (alphabet.getD · 0) := by
  have hall : ∀ c ∈ digits.map (alphabet.getD · 0), decide (entry table [c] ≠ -1) = true := by
    intro c hc
    obtain ⟨d, hd, rfl⟩ := List.mem_map.mp hc
    rw [decide_eq_true_iff, htable d (hdigits d hd)]
    omega
  rw [inTable, List.takeWhile_append_of_pos hall]
  cases n with
  | zero => rw [List.replicate_zero, List.takeWhile_nil, List.append_nil]
  | succ n =>
    rw [List.replicate_succ, List.takeWhile_cons_of_neg (by simp [hpad]), List.append_nil]

/-- **What was encoded is decoded**, and reported valid. -/
theorem decode_encode {s text : List UInt8} {r : List UInt8 × Bool} (hb : b ≤ 8)
    (htable : ∀ d < 2 ^ b, entry table [alphabet.getD d 0] = d)
    (hpad : entry table [padChar] = -1) (henc : EncodedAs b alphabet pad s text)
    (hdec : DecodedAs b table pad text r) : r = (s, false) := by
  obtain ⟨k, digits, hgroups, rfl⟩ := henc
  obtain ⟨held, pend, hheld, ⟨hpend, hbits⟩, hvalid⟩ := hdec
  have hin := inTable_encoding (pad k) hgroups.right_lt htable hpad
  rw [hin, digitsOf_map hgroups.right_lt htable] at hbits
  obtain ⟨hret, hfill⟩ := hgroups.left_unique hb toNat_lt_of_mem
    (by rwa [length_bits]) hbits
  -- what is left are the zeros that the encoder filled up with
  have hk : held = k := by
    have := congrArg List.length hfill
    rwa [length_bits, List.length_replicate] at this
  subst hk
  have hzero : pend = 0 := by
    refine bits_inj hpend (by positivity) ?_
    rw [hfill, bits_zero]
  refine Prod.ext ((List.map_injective_iff.mpr fun x y => UInt8.toNat_inj.mp) hret) ?_
  refine hvalid.mpr ⟨hgroups.fill_lt, hzero, [], by simp [Outside], ?_⟩
  rw [hin, List.append_nil]

/-- **Only encodings are reported valid**: a text that is, is the encoding of its bytes up to
`norm`, and then ends or goes on with a character outside the alphabet. -/
theorem encode_decode {text enc : List UInt8} {r : List UInt8 × Bool}
    (norm : UInt8 → UInt8)
    (hlt : ∀ c : UInt8, (entry table [c]).toNat < 2 ^ b)
    (hnorm : ∀ c : UInt8, entry table [c] ≠ -1 →
      alphabet.getD (entry table [c]).toNat 0 = norm c) (hpad : norm padChar = padChar)
    (hdec : DecodedAs b table pad text r) (henc : EncodedAs b alphabet pad r.1 enc)
    (hvalid : r.2 = false) :
    ∃ t rest, text = t ++ rest ∧ t.map norm = enc ∧ Outside table rest := by
  obtain ⟨held, pend, -, ⟨-, hbits⟩, hiff⟩ := hdec
  obtain ⟨hheld, rfl, rest, hrest, htext⟩ := hiff.mp hvalid
  obtain ⟨k, digits, hgroups, rfl⟩ := henc
  rw [bits_zero] at hbits
  have hread : Regroups 8 b held (r.1.map UInt8.toNat) (digitsOf table (inTable table text)) :=
    { left_lt := toNat_lt_of_mem
      right_lt := by
        intro d hd
        obtain ⟨c, -, rfl⟩ := List.mem_map.mp hd
        exact hlt c
      fill_lt := hheld
      bits_eq := hbits }
  obtain ⟨rfl, hdigits⟩ := hread.right_unique hgroups
  refine ⟨_, rest, htext, ?_, hrest⟩
  rw [List.map_append, List.map_replicate, hpad, ← hdigits, digitsOf, List.map_map]
  congr 1
  refine List.map_congr_left fun c hc => ?_
  have hentry : entry table [c] ≠ -1 := by simpa using List.mem_takeWhile_imp hc
  exact (hnorm c hentry).symm

end RoundTrip

/-! ## The codecs are right -/

section Main

theorem entry_pbase64 : ∀ d < 2 ^ 6, entry decode64Table [pbase64.getD d 0] = d := by
  decide +kernel

theorem entry_pbase32 : ∀ d < 2 ^ 5, entry decode32Table [pbase32.getD d 0] = d := by
  decide +kernel

/-- What the entries of a table lead back to, checked position by position. -/
theorem alphabet_entry {table : List Int} {alphabet : List UInt8} {f : UInt8 → UInt8}
    (hall : ∀ p ∈ table.zipIdx, p.1 ≠ -1 → alphabet.getD p.1.toNat 0 = f (UInt8.ofNat p.2))
    (c : UInt8) (h : entry table [c] ≠ -1) : alphabet.getD (entry table [c]).toNat 0 = f c := by
  have hentry : entry table [c] = table[c.toNat]?.getD (-1) := List.getD_eq_getElem?_getD
  rw [hentry] at h ⊢
  cases hget : table[c.toNat]? with
  | none => exact absurd (by rw [hget]; rfl) h
  | some d =>
    rw [hget] at h
    have hchar := hall (d, c.toNat) (List.mem_zipIdx_iff_getElem?.mpr hget) h
    rwa [UInt8.ofNat_toNat] at hchar

theorem pbase64_entry (c : UInt8) (h : entry decode64Table [c] ≠ -1) :
    pbase64.getD (entry decode64Table [c]).toNat 0 = c :=
  @alphabet_entry decode64Table pbase64 id (by decide +kernel) c h

/-- The Base32 alphabet is that of small letters. -/
theorem pbase32_entry (c : UInt8) (h : entry decode32Table [c] ≠ -1) :
    pbase32.getD (entry decode32Table [c]).toNat 0 = toLower c :=
  @alphabet_entry decode32Table pbase32 toLower (by decide +kernel) c h

theorem decodeBase64_encodeBase64 (s : List UInt8) : decodeBase64 (encodeBase64 s) = (s, false) :=
  decode_encode (by decide) entry_pbase64 (by decide) (encodeBase64_eq s) (decodes_decodeBase64 _)

theorem decodeBase32_encodeBase32 (s : List UInt8) : decodeBase32 (encodeBase32 s) = (s, false) :=
  decode_encode (by decide) entry_pbase32 (by decide) (encodeBase32_eq s) (decodes_decodeBase32 _)

theorem encodeBase32_ne_nil {s : List UInt8} (h : s ≠ []) : encodeBase32 s ≠ [] := by
  obtain ⟨k, digits, hgroups, htext⟩ := encodeBase32_eq s
  intro hnil
  rw [htext, List.append_eq_nil_iff, List.map_eq_nil_iff] at hnil
  have hbits := hgroups.bits_eq
  rw [hnil.1, wordBits_nil, List.append_eq_nil_iff, ← List.length_eq_zero_iff, length_wordBits,
    List.length_map] at hbits
  have := List.length_pos_iff.mpr h
  omega

/-- **Base64 and Base32.** What is encoded is decoded and reported valid; and a text that is
reported valid is the encoding of the bytes returned, with its padding and, in Base32, up to the
case of letters, after which it ends or goes on with a character outside the alphabet. -/
theorem base64_base32_codec :
    (∀ s, decodeBase64 (encodeBase64 s) = (s, false)) ∧
    (∀ s, decodeBase32 (encodeBase32 s) = (s, false)) ∧
    (∀ text, (decodeBase64 text).2 = false →
      ∃ rest, text = encodeBase64 (decodeBase64 text).1 ++ rest ∧ Outside decode64Table rest) ∧
    ∀ text, (decodeBase32 text).2 = false →
      ∃ t rest, text = t ++ rest ∧ t.map toLower = encodeBase32 (decodeBase32 text).1 ∧
        Outside decode32Table rest := by
  refine ⟨decodeBase64_encodeBase64, decodeBase32_encodeBase32, fun text hvalid => ?_,
    fun text hvalid => ?_⟩
  · obtain ⟨t, rest, htext, ht, hrest⟩ := encode_decode id entry_lt64 pbase64_entry rfl
      (decodes_decodeBase64 text) (encodeBase64_eq _) hvalid
    rw [List.map_id] at ht
    exact ⟨rest, by rw [← ht]; exact htext, hrest⟩
  · exact encode_decode toLower entry_lt32 pbase32_entry (by decide) (decodes_decodeBase32 text)
      (encodeBase32_eq _) hvalid

/-- Texts that end their encoding with a blank. -/
theorem base64_base32_codec_samples :
    (∃ rest, chars "Zm9vYg== " = encodeBase64 (chars "foob") ++ rest ∧
      Outside decode64Table rest) ∧
    ∃ t rest, chars "MZXW6yq= " = t ++ rest ∧ t.map toLower = encodeBase32 (chars "foob") ∧
      Outside decode32Table rest := by
  obtain ⟨-, -, h64, h32⟩ := base64_base32_codec
  have hdec64 : decodeBase64 (chars "Zm9vYg== ") = (chars "foob", false) := by decide +kernel
  have hdec32 : decodeBase32 (chars "MZXW6yq= ") = (chars "foob", false) := by decide +kernel
  have hread64 := h64 (chars "Zm9vYg== ") (by rw [hdec64])
  have hread32 := h32 (chars "MZXW6yq= ") (by rw [hdec32])
  rw [hdec64] at hread64
  rw [hdec32] at hread32
  exact ⟨hread64, hread32⟩

end Main

end MotaCoin
