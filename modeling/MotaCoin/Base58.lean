import MotaCoin.Chars
import MotaCoin.Interpreter
import MotaCoin.Ownership
import MotaCoin.Lib.Rebase
import Mathlib.Data.List.DropRight
import Mathlib.Data.List.GetD

/-!
# Base58

A byte string is a numeral in base 256, and its Base58 text is that numeral in base 58: leading
zero bytes become leading characters `1`, the rest goes through a `CBigNum`. With a checksum and
a version byte such texts are addresses and secret keys.

## Main definitions

* `encodeBase58`, `decodeBase58`: the conversions
* `encodeBase58Check`, `decodeBase58Check`: with the first four bytes of the hash
* `CBase58Data`, `CBitcoinAddress`, `CBitcoinSecret`: what is encoded so

## Main results

* `encodeBase58_eq`, `decodeBase58_eq_some_iff`: both are changes of base
* `decodeBase58_encodeBase58`, `encodeBase58_of_decodeBase58`: the round trips
* `base58_round_trips`: these, and the round trips of addresses and secrets
-/

namespace MotaCoin

open Rebase

/-! ## The conversions -/

section Conversions

def pszBase58 : List UInt8 := chars "123456789ABCDEFGHJKLMNPQRSTUVWXYZabcdefghijkmnopqrstuvwxyz"

/-- `EncodeBase58`. The zero byte at the end makes the number positive; its digits come lowest
first. -/
def encodeBase58 (v : Valtype) : List UInt8 :=
  let vchTmp := v.reverse ++ [0]
  let bn := CBigNum.setvch vchTmp
  let str := (Nat.digits 58 bn.toNat).map (pszBase58.getD · 0)
  -- leading zeroes encoded as base58 zeros
  let str := str ++ (v.takeWhile (· = 0)).map fun _ => pszBase58.getD 0 0
  str.reverse

/-- The loop of `DecodeBase58` over the characters: the number, unless something else than blanks
follows them. -/
def decodeBase58Loop (bn : Int) : List UInt8 → Option Int
  | [] => some bn
  | c :: p =>
    match pszBase58.idxOf? c with
    | none => if (c :: p).dropWhile isSpace ≠ [] then none else some bn
    | some i => decodeBase58Loop (bn * 58 + i) p

/-- The sign byte is trimmed off if present. -/
def trimSign (vchTmp : Valtype) : Valtype :=
  if vchTmp.length ≥ 2 && vchTmp.getD (vchTmp.length - 1) 0 == 0 &&
      vchTmp.getD (vchTmp.length - 2) 0 ≥ 0x80 then vchTmp.dropLast
  else vchTmp

/-- `DecodeBase58`: the bytes stored in `vchRet`, or `none` when it fails and leaves it empty. -/
def decodeBase58 (text : List UInt8) : Option Valtype := do
  let psz := (cStr text).dropWhile isSpace
  let bn ← decodeBase58Loop 0 psz
  let vchTmp := trimSign (CBigNum.getvch bn)
  -- restore leading zeros
  let nLeadingZeros := (psz.takeWhile (· = pszBase58.getD 0 0)).length
  pure (List.replicate nLeadingZeros 0 ++ vchTmp.reverse)

end Conversions

/-! ## The alphabet -/

section Alphabet

/-- The character of a digit. -/
def base58Char (d : ℕ) : UInt8 := pszBase58.getD d 0

/-- The digit of a character. -/
def base58Digit (c : UInt8) : ℕ := pszBase58.idxOf c

theorem base58Digit_base58Char {d : ℕ} (h : d < 58) : base58Digit (base58Char d) = d := by
  have hall : ∀ d < 58, base58Digit (base58Char d) = d := by decide +kernel
  exact hall d h

theorem base58Char_base58Digit {c : UInt8} (h : c ∈ pszBase58) :
    base58Char (base58Digit c) = c := by
  have hlt := List.idxOf_lt_length_iff.mpr h
  rw [base58Char, base58Digit, List.getD_eq_getElem _ _ hlt, List.getElem_idxOf]

theorem base58Digit_lt {c : UInt8} (h : c ∈ pszBase58) : base58Digit c < 58 :=
  List.idxOf_lt_length_iff.mpr h

theorem base58Char_mem {d : ℕ} (h : d < 58) : base58Char d ∈ pszBase58 := by
  rw [base58Char, List.getD_eq_getElem _ _ h]
  exact List.getElem_mem _

theorem isSpace_of_mem {c : UInt8} (h : c ∈ pszBase58) : isSpace c = false := by
  have hall : ∀ c ∈ pszBase58, isSpace c = false := by decide +kernel
  exact hall c h

theorem ne_zero_of_mem {c : UInt8} (h : c ∈ pszBase58) : c ≠ 0 := by
  rintro rfl
  exact absurd h (by decide)

end Alphabet

/-! ## Encoding as a change of base -/

section Encode

theorem ofLE_eq_ofDigits (bytes : List UInt8) :
    Wire.ofLE bytes = Nat.ofDigits 256 (bytes.map UInt8.toNat) := by
  induction bytes with
  | nil => rfl
  | cons b bytes ih => rw [Wire.ofLE, ih, List.map_cons, Nat.ofDigits_cons]

/-- With a zero byte at the end the number is not negative. -/
theorem setvch_append_zero (v : Valtype) :
    CBigNum.setvch (v.reverse ++ [0]) = value 256 (v.map UInt8.toNat) := by
  have hvalue : Wire.ofLE (v.reverse ++ [0]) = value 256 (v.map UInt8.toNat) := by
    have := Nat.ofDigits_append_zero (b := 256) (v.map UInt8.toNat).reverse
    rw [ofLE_eq_ofDigits, List.map_append, List.map_reverse]
    exact this
  unfold CBigNum.setvch
  rw [List.getLast?_concat, ← hvalue]
  exact if_pos (by decide)

/-- Leading zero bytes. -/
theorem length_takeWhile_zero (v : Valtype) :
    (v.takeWhile (· = 0)).length = leading (v.map UInt8.toNat) := by
  rw [leading, List.takeWhile_map, List.length_map]
  congr 2
  funext c
  exact decide_eq_decide.mpr UInt8.toNat_inj.symm

/-- **Encoding is a change of base.** -/
theorem encodeBase58_eq (v : Valtype) :
    encodeBase58 v = (rebase 256 58 (v.map UInt8.toNat)).map base58Char := by
  have hzeros : (v.takeWhile (· = 0)).map (fun _ => pszBase58.getD 0 0) =
      List.replicate (leading (v.map UInt8.toNat)) (base58Char 0) := by
    rw [List.map_const', length_takeWhile_zero]
    rfl
  unfold encodeBase58
  dsimp only
  rw [hzeros, setvch_append_zero, Int.toNat_natCast, List.reverse_append, List.reverse_replicate,
    rebase, numeral, List.map_append, List.map_replicate, List.map_reverse]
  rfl

theorem mem_of_mem_encodeBase58 {v : Valtype} {c : UInt8} (h : c ∈ encodeBase58 v) :
    c ∈ pszBase58 := by
  rw [encodeBase58_eq] at h
  obtain ⟨d, hd, rfl⟩ := List.mem_map.mp h
  exact base58Char_mem (rebase_lt (by decide) d hd)

end Encode

/-! ## Decoding as a change of base -/

section Decode

variable {body trail text : List UInt8} {v : Valtype}

/-- The bytes of a number that is not negative, without the sign byte. -/
theorem trimSign_getvch (n : ℕ) :
    trimSign (CBigNum.getvch n) = (Nat.digits 256 n).map UInt8.ofNat := by
  have hlast : ∀ top ∈ ((Nat.digits 256 n).map UInt8.ofNat).getLast?, top ≠ 0 := by
    rintro top htop rfl
    rw [List.getLast?_map] at htop
    obtain ⟨d, hd, hzero⟩ := Option.map_eq_some_iff.mp htop
    have hne : n ≠ 0 := by
      rintro rfl
      rw [Nat.digits_zero] at hd
      cases hd
    rw [List.getLast?_eq_some_getLast (Nat.digits_ne_nil_iff_ne_zero.mpr hne),
      Option.some_inj] at hd
    have hlt : d < 256 := hd ▸ Nat.digits_lt_base (by decide) (List.getLast_mem _)
    have hd0 : d = 0 := by
      have := congrArg UInt8.toNat hzero
      rwa [UInt8.toNat_ofNat_of_lt' hlt] at this
    exact Nat.getLast_digit_ne_zero 256 hne (hd.trans hd0)
  unfold CBigNum.getvch
  rw [Int.natAbs_natCast]
  dsimp only
  generalize (Nat.digits 256 n).map UInt8.ofNat = bytes at hlast
  cases htop : bytes.getLast? with
  | none =>
    rw [List.getLast?_eq_none_iff.mp htop]
    rfl
  | some top =>
    obtain ⟨init, rfl⟩ := List.getLast?_eq_some_iff.mp htop
    have hne : top ≠ 0 := hlast top htop
    have hpos : ¬ ((n : Int) < 0) := by omega
    dsimp only
    by_cases hsign : 0x80 ≤ top
    · -- a sign byte was added, and is trimmed off
      rw [if_pos hsign, if_neg hpos, trimSign, if_pos, List.dropLast_concat]
      simp [hsign]
    · rw [if_neg hsign, if_neg hpos, trimSign, if_neg]
      simp [hne]

/-- The loop reads the characters of the alphabet, and accepts nothing but blanks after them. -/
theorem decodeBase58Loop_append (bn : Int) (hbody : ∀ c ∈ body, c ∈ pszBase58)
    (htrail : ∀ c ∈ trail.head?, c ∉ pszBase58) :
    decodeBase58Loop bn (body ++ trail) =
      if trail.dropWhile isSpace = [] then
        some (body.foldl (fun (bn : Int) c => bn * 58 + base58Digit c) bn) else none := by
  induction body generalizing bn with
  | nil =>
    cases trail with
    | nil => rfl
    | cons c trail =>
      have hc : pszBase58.idxOf? c = none := List.idxOf?_eq_none_iff.mpr (htrail c rfl)
      rw [List.nil_append, decodeBase58Loop, hc]
      exact ite_not ..
  | cons c body ih =>
    rw [List.forall_mem_cons] at hbody
    have hc : pszBase58.idxOf? c = some (base58Digit c) := by
      obtain ⟨i, hi⟩ := Option.isSome_iff_exists.mp (List.isSome_idxOf?.mpr hbody.1)
      rw [base58Digit, List.idxOf_eq_getD_idxOf?, hi]
      rfl
    rw [List.cons_append, decodeBase58Loop, hc]
    exact ih _ hbody.2

/-- The number that the loop counts. -/
theorem foldl_base58Digit (body : List UInt8) :
    body.foldl (fun (bn : Int) c => bn * 58 + base58Digit c) 0 =
      value 58 (body.map base58Digit) := by
  induction body using List.reverseRecOn with
  | nil => rfl
  | append_singleton body c ih =>
    rw [List.foldl_append, ih, List.map_append, List.map_singleton, value, value,
      List.reverse_append, List.reverse_singleton, List.singleton_append, Nat.ofDigits_cons]
    push_cast
    rw [List.foldl_cons, List.foldl_nil]
    ring

/-- Leading characters `1`. -/
theorem length_takeWhile_one (hbody : ∀ c ∈ body, c ∈ pszBase58)
    (htrail : ∀ c ∈ trail, isSpace c = true) :
    ((body ++ trail).takeWhile (· = pszBase58.getD 0 0)).length =
      leading (body.map base58Digit) := by
  induction body with
  | nil =>
    cases trail with
    | nil => rfl
    | cons c trail =>
      have hc : c ≠ pszBase58.getD 0 0 := by
        rintro rfl
        exact absurd (htrail _ (List.mem_cons_self ..)) (by decide)
      rw [List.nil_append, List.takeWhile_cons_of_neg (by simpa using hc)]
      rfl
  | cons c body ih =>
    rw [List.forall_mem_cons] at hbody
    rw [leading, List.cons_append, List.map_cons]
    by_cases hc : c = pszBase58.getD 0 0
    · have hzero : base58Digit c = 0 := by
        rw [hc]
        decide
      rw [List.takeWhile_cons_of_pos (by simpa using hc),
        List.takeWhile_cons_of_pos (by simpa using hzero), List.length_cons, List.length_cons,
        ih hbody.2]
      rfl
    · have hzero : base58Digit c ≠ 0 := by
        intro h
        have := base58Char_base58Digit hbody.1
        rw [h] at this
        exact hc this.symm
      rw [List.takeWhile_cons_of_neg (by simpa using hc),
        List.takeWhile_cons_of_neg (by simpa using hzero)]
      rfl

/-- **Decoding is a change of base**, of the characters between the blanks. -/
theorem decodeBase58_eq_some_iff : decodeBase58 text = some v ↔
    ∃ body trail, (cStr text).dropWhile isSpace = body ++ trail ∧
      (∀ c ∈ body, c ∈ pszBase58) ∧ (∀ c ∈ trail, isSpace c = true) ∧
      v = (rebase 58 256 (body.map base58Digit)).map UInt8.ofNat := by
  -- what is decoded once the text is split
  have hdecode : ∀ body trail, (cStr text).dropWhile isSpace = body ++ trail →
      (∀ c ∈ body, c ∈ pszBase58) → (∀ c ∈ trail, isSpace c = true) →
      decodeBase58 text = some ((rebase 58 256 (body.map base58Digit)).map UInt8.ofNat) := by
    intro body trail hsplit hbody htrail
    have hstop : ∀ c ∈ trail.head?, c ∉ pszBase58 := by
      intro c hc hmem
      have := htrail c (List.mem_of_mem_head? hc)
      rw [isSpace_of_mem hmem] at this
      exact Bool.noConfusion this
    rw [decodeBase58, hsplit, decodeBase58Loop_append 0 hbody hstop,
      if_pos (List.dropWhile_eq_nil_iff.mpr htrail), foldl_base58Digit]
    change some _ = some _
    rw [length_takeWhile_one hbody htrail, trimSign_getvch, rebase, numeral, List.map_append,
      List.map_replicate, List.map_reverse]
    rfl
  constructor
  · intro h
    have hsplit : (cStr text).dropWhile isSpace =
        ((cStr text).dropWhile isSpace).takeWhile (· ∈ pszBase58) ++
          ((cStr text).dropWhile isSpace).dropWhile (· ∈ pszBase58) :=
      List.takeWhile_append_dropWhile.symm
    have hbody : ∀ c ∈ ((cStr text).dropWhile isSpace).takeWhile (· ∈ pszBase58),
        c ∈ pszBase58 := fun c hc => by simpa using List.mem_takeWhile_imp hc
    have hstop : ∀ c ∈ (((cStr text).dropWhile isSpace).dropWhile (· ∈ pszBase58)).head?,
        c ∉ pszBase58 := fun c hc => by simpa using head_dropWhile hc
    have htrail : ∀ c ∈ ((cStr text).dropWhile isSpace).dropWhile (· ∈ pszBase58),
        isSpace c = true := by
      by_contra hblank
      rw [decodeBase58, hsplit, decodeBase58Loop_append 0 hbody hstop,
        if_neg (List.dropWhile_eq_nil_iff.not.mpr hblank)] at h
      cases h
    refine ⟨_, _, hsplit, hbody, htrail, ?_⟩
    exact Option.some.inj (h.symm.trans (hdecode _ _ hsplit hbody htrail))
  · rintro ⟨body, trail, hsplit, hbody, htrail, rfl⟩
    exact hdecode body trail hsplit hbody htrail

end Decode

/-! ## The round trips of byte strings -/

section RoundTrip

/-- A text without the blanks around it. -/
def trimBlanks (s : List UInt8) : List UInt8 := (s.dropWhile isSpace).rdropWhile isSpace

theorem toNat_map_ofNat {ds : List ℕ} (h : ∀ d ∈ ds, d < 256) :
    (ds.map UInt8.ofNat).map UInt8.toNat = ds := by
  rw [List.map_map]
  conv_rhs => rw [← List.map_id ds]
  exact List.map_congr_left fun d hd => UInt8.toNat_ofNat_of_lt' (h d hd)

theorem digit_map_char {ds : List ℕ} (h : ∀ d ∈ ds, d < 58) :
    (ds.map base58Char).map base58Digit = ds := by
  rw [List.map_map]
  conv_rhs => rw [← List.map_id ds]
  exact List.map_congr_left fun d hd => base58Digit_base58Char (h d hd)

theorem char_map_digit {body : List UInt8} (h : ∀ c ∈ body, c ∈ pszBase58) :
    (body.map base58Digit).map base58Char = body := by
  rw [List.map_map]
  conv_rhs => rw [← List.map_id body]
  exact List.map_congr_left fun c hc => base58Char_base58Digit (h c hc)

/-- **What was encoded is decoded.** -/
theorem decodeBase58_encodeBase58 (v : Valtype) : decodeBase58 (encodeBase58 v) = some v := by
  have hmem : ∀ c ∈ encodeBase58 v, c ∈ pszBase58 := fun c hc => mem_of_mem_encodeBase58 hc
  have hcstr : cStr (encodeBase58 v) = encodeBase58 v :=
    cStr_eq_self fun h => ne_zero_of_mem (hmem 0 h) rfl
  have hblank : ∀ c ∈ (encodeBase58 v).head?, isSpace c = false := fun c hc =>
    isSpace_of_mem (hmem c (List.mem_of_mem_head? hc))
  refine decodeBase58_eq_some_iff.mpr ⟨encodeBase58 v, [], ?_, hmem, by simp, ?_⟩
  · rw [hcstr, List.append_nil]
    exact @dropWhile_isSpace [] _ (by simp) hblank
  · rw [encodeBase58_eq, digit_map_char (rebase_lt (by decide)),
      rebase_rebase (by decide) fun d hd => ?_, List.map_map]
    · conv_lhs => rw [← List.map_id v]
      exact List.map_congr_left fun c _ => (UInt8.ofNat_toNat).symm
    · obtain ⟨c, -, rfl⟩ := List.mem_map.mp hd
      exact c.toNat_lt

/-- **What was decoded is encoded** as the text, without the blanks around it. -/
theorem encodeBase58_of_decodeBase58 {text : List UInt8} {v : Valtype}
    (h : decodeBase58 text = some v) : encodeBase58 v = trimBlanks (cStr text) := by
  obtain ⟨body, trail, hsplit, hbody, htrail, rfl⟩ := decodeBase58_eq_some_iff.mp h
  have hlast : body.rdropWhile isSpace = body := by
    rw [List.rdropWhile_eq_self_iff]
    intro hne
    rw [isSpace_of_mem (hbody _ (List.getLast_mem hne))]
    decide
  have htrim : (body ++ trail).rdropWhile isSpace = body := by
    rw [List.rdropWhile, List.reverse_append,
      List.dropWhile_append_of_pos fun c hc => htrail c (List.mem_reverse.mp hc)]
    exact hlast
  have hdigits : ∀ d ∈ body.map base58Digit, d < 58 := by
    intro d hd
    obtain ⟨c, hc, rfl⟩ := List.mem_map.mp hd
    exact base58Digit_lt (hbody c hc)
  rw [encodeBase58_eq, toNat_map_ofNat (rebase_lt (by decide)), rebase_rebase (by decide) hdigits,
    char_map_digit hbody, trimBlanks, hsplit, htrim]

end RoundTrip

/-! ## Checksums -/

section Check

variable (hash : Valtype → Uint256)

/-- `EncodeBase58Check`: with the first four bytes of the hash behind. -/
def encodeBase58Check (vchIn : Valtype) : List UInt8 :=
  encodeBase58 (vchIn ++ Wire.leBytes 4 (hash vchIn))

/-- `DecodeBase58Check`: the bytes left in `vchRet`, or `none` when it fails and leaves none. -/
def decodeBase58Check (psz : List UInt8) : Option Valtype := do
  let vchRet ← decodeBase58 psz
  if vchRet.length < 4 then none
  else
    let vch := vchRet.take (vchRet.length - 4)
    if Wire.leBytes 4 (hash vch) ≠ vchRet.drop (vchRet.length - 4) then none else some vch

theorem decodeBase58Check_encodeBase58Check (vch : Valtype) :
    decodeBase58Check hash (encodeBase58Check hash vch) = some vch := by
  have hlen : (vch ++ Wire.leBytes 4 (hash vch)).length - 4 = vch.length := by
    rw [List.length_append, Wire.length_leBytes, Nat.add_sub_cancel]
  rw [decodeBase58Check, encodeBase58Check, decodeBase58_encodeBase58]
  change (if _ then _ else _) = _
  rw [if_neg (by rw [List.length_append, Wire.length_leBytes]; omega), hlen, List.take_left,
    List.drop_left]
  exact if_neg (not_not.mpr rfl)

end Check

/-! ## Addresses and secrets -/

/-- `CBase58Data`: a version byte and the data. -/
structure CBase58Data where
  nVersion : UInt8
  vchData : Valtype
  deriving DecidableEq

namespace CBase58Data

variable (hash : Valtype → Uint256)

/-- `SetString`: the object after the call, and what it returns. -/
def setString (psz : List UInt8) : CBase58Data × Bool :=
  match decodeBase58Check hash psz with
  | none => (⟨0, []⟩, false)
  | some [] => (⟨0, []⟩, false)
  | some (nVersion :: vchData) => (⟨nVersion, vchData⟩, true)

/-- `ToString`. -/
def toString (data : CBase58Data) : List UInt8 :=
  encodeBase58Check hash (data.nVersion :: data.vchData)

/-- **An object is parsed from its text.** -/
theorem setString_toString (data : CBase58Data) :
    setString hash (data.toString hash) = (data, true) := by
  rw [setString, toString, decodeBase58Check_encodeBase58Check]

end CBase58Data

namespace CBitcoinAddress

def PUBKEY_ADDRESS : UInt8 := 50
def SCRIPT_ADDRESS : UInt8 := 110
def PUBKEY_ADDRESS_TEST : UInt8 := 111
def SCRIPT_ADDRESS_TEST : UInt8 := 196

variable (fTestNet : Bool)

/-- `CBitcoinAddress(dest)`: an object without data for no destination. -/
def ofDestination : CTxDestination → CBase58Data
  | .noDestination => ⟨0, []⟩
  | .keyID id => ⟨if fTestNet then PUBKEY_ADDRESS_TEST else PUBKEY_ADDRESS, Wire.leBytes 20 id⟩
  | .scriptID id => ⟨if fTestNet then SCRIPT_ADDRESS_TEST else SCRIPT_ADDRESS, Wire.leBytes 20 id⟩

/-- `IsValid`. -/
def isValid (addr : CBase58Data) : Bool :=
  if addr.nVersion = PUBKEY_ADDRESS ∨ addr.nVersion = SCRIPT_ADDRESS then
    fTestNet == false && addr.vchData.length == 20
  else if addr.nVersion = PUBKEY_ADDRESS_TEST ∨ addr.nVersion = SCRIPT_ADDRESS_TEST then
    fTestNet == true && addr.vchData.length == 20
  else false

/-- `Get`. -/
def get (addr : CBase58Data) : CTxDestination :=
  if !isValid fTestNet addr then .noDestination
  else if addr.nVersion = PUBKEY_ADDRESS ∨ addr.nVersion = PUBKEY_ADDRESS_TEST then
    .keyID (Wire.ofLE (addr.vchData.take 20))
  else if addr.nVersion = SCRIPT_ADDRESS ∨ addr.nVersion = SCRIPT_ADDRESS_TEST then
    .scriptID (Wire.ofLE (addr.vchData.take 20))
  else .noDestination

/-- The hash of a destination is one. -/
def Hashed : CTxDestination → Prop
  | .noDestination => False
  | .keyID id => id < 2 ^ 160
  | .scriptID id => id < 2 ^ 160

theorem get_ofDestination {dest : CTxDestination} (h : Hashed dest) :
    get fTestNet (ofDestination fTestNet dest) = dest := by
  have hread : ∀ id < 2 ^ 160, Wire.ofLE ((Wire.leBytes 20 id).take 20) = id := by
    intro id hid
    rw [List.take_of_length_le (by rw [Wire.length_leBytes]), Wire.ofLE_leBytes]
    exact Nat.mod_eq_of_lt (hid.trans_eq (by norm_num))
  cases dest with
  | noDestination => exact h.elim
  | keyID id =>
    cases fTestNet <;> exact congrArg CTxDestination.keyID (hread id h)
  | scriptID id =>
    cases fTestNet <;> exact congrArg CTxDestination.scriptID (hread id h)

end CBitcoinAddress

namespace CBitcoinSecret

variable (fTestNet : Bool)

/-- The version byte of a secret. -/
def version : UInt8 :=
  128 + if fTestNet then CBitcoinAddress.PUBKEY_ADDRESS_TEST else CBitcoinAddress.PUBKEY_ADDRESS

/-- `CBitcoinSecret(vchSecret, fCompressed)`; a secret has 32 bytes. -/
def setSecret (vchSecret : CSecret) (fCompressed : Bool) : CBase58Data :=
  ⟨version fTestNet, vchSecret ++ if fCompressed then [1] else []⟩

/-- `GetSecret`, with `fCompressedOut`. -/
def getSecret (secret : CBase58Data) : CSecret × Bool :=
  (secret.vchData.take 32, secret.vchData.length == 33)

/-- `IsValid`. -/
def isValid (secret : CBase58Data) : Bool :=
  let sized := secret.vchData.length == 32 ||
    (secret.vchData.length == 33 && secret.vchData.getD 32 0 == 1)
  if secret.nVersion = 128 + CBitcoinAddress.PUBKEY_ADDRESS then fTestNet == false && sized
  else if secret.nVersion = 128 + CBitcoinAddress.PUBKEY_ADDRESS_TEST then
    fTestNet == true && sized
  else false

/-- `SetString`. -/
def setString (hash : Valtype → Uint256) (psz : List UInt8) : CBase58Data × Bool :=
  let (secret, ok) := CBase58Data.setString hash psz
  (secret, ok && isValid fTestNet secret)

theorem isValid_setSecret {vchSecret : CSecret} (h : vchSecret.length = 32) (fCompressed : Bool) :
    isValid fTestNet (setSecret fTestNet vchSecret fCompressed) = true ∧
      getSecret (setSecret fTestNet vchSecret fCompressed) = (vchSecret, fCompressed) := by
  have htake : ∀ more, (vchSecret ++ more).take 32 = vchSecret := fun more => List.take_left' h
  cases fTestNet <;> cases fCompressed <;>
    simp [isValid, setSecret, version, getSecret, h, htake] <;> decide

theorem setString_toString (hash : Valtype → Uint256) {secret : CBase58Data}
    (h : isValid fTestNet secret = true) :
    setString fTestNet hash (secret.toString hash) = (secret, true) := by
  rw [setString, CBase58Data.setString_toString]
  exact Prod.ext rfl h

end CBitcoinSecret

/-! ## The round trips -/

section Main

/-- **Base58.** Byte strings are decoded from their encoding; a text that is decoded is the
encoding of the result, without the blanks around it; and addresses and secret keys are parsed
from their text. -/
theorem base58_round_trips (hash : Valtype → Uint256) (fTestNet : Bool) :
    (∀ v, decodeBase58 (encodeBase58 v) = some v) ∧
    (∀ text v, decodeBase58 text = some v → encodeBase58 v = trimBlanks (cStr text)) ∧
    (∀ dest, CBitcoinAddress.Hashed dest →
      ∃ addr, CBitcoinAddress.ofDestination fTestNet dest = addr ∧
        CBase58Data.setString hash (addr.toString hash) = (addr, true) ∧
        CBitcoinAddress.get fTestNet addr = dest) ∧
    (∀ secret, CBitcoinSecret.isValid fTestNet secret = true →
      CBitcoinSecret.setString fTestNet hash (secret.toString hash) = (secret, true)) ∧
    ∀ (vchSecret : CSecret) (fCompressed : Bool), vchSecret.length = 32 →
      ∃ secret, CBitcoinSecret.setSecret fTestNet vchSecret fCompressed = secret ∧
        CBitcoinSecret.setString fTestNet hash (secret.toString hash) = (secret, true) ∧
        CBitcoinSecret.getSecret secret = (vchSecret, fCompressed) := by
  refine ⟨decodeBase58_encodeBase58, fun text v => encodeBase58_of_decodeBase58,
    fun dest hdest => ⟨_, rfl, ?_, CBitcoinAddress.get_ofDestination fTestNet hdest⟩,
    fun secret => CBitcoinSecret.setString_toString fTestNet hash,
    fun vchSecret fCompressed hlen => ⟨_, rfl, ?_, ?_⟩⟩
  · exact CBase58Data.setString_toString hash _
  · exact CBitcoinSecret.setString_toString fTestNet hash
      (CBitcoinSecret.isValid_setSecret fTestNet hlen fCompressed).1
  · exact (CBitcoinSecret.isValid_setSecret fTestNet hlen fCompressed).2

/-- The double SHA-256 of the version byte 50 and twenty zero bytes. -/
def hashOfZeroKeyID : Uint256 :=
  0x19b0a04d8eae92b9fafeaf0bdf4a85b13a4d74c9c4f117c6745fe109183e6907

/-- The address of the key hash zero, and the secret key of 32 zero bytes. -/
theorem base58_round_trips_zero : ∃ hash : Valtype → Uint256,
    hash (50 :: List.replicate 20 0) = hashOfZeroKeyID ∧
    CBase58Data.toString hash (CBitcoinAddress.ofDestination false (.keyID 0)) =
      chars "M7uAERuQW2AotfyLDyewFGcLUDtAYu9v5V" ∧
    (∃ addr, CBitcoinAddress.ofDestination false (.keyID 0) = addr ∧
      CBase58Data.setString hash (addr.toString hash) = (addr, true) ∧
      CBitcoinAddress.get false addr = .keyID 0) ∧
    ∃ secret, CBitcoinSecret.setSecret false (List.replicate 32 0) true = secret ∧
      CBitcoinSecret.setString false hash (secret.toString hash) = (secret, true) ∧
      CBitcoinSecret.getSecret secret = (List.replicate 32 0, true) := by
  obtain ⟨-, -, haddr, -, hsecret⟩ := base58_round_trips (fun _ => hashOfZeroKeyID) false
  exact ⟨fun _ => hashOfZeroKeyID, rfl, by decide +kernel,
    haddr (.keyID 0) (show (0 : ℕ) < 2 ^ 160 by decide),
    hsecret (List.replicate 32 0) true (List.length_replicate ..)⟩

end Main

end MotaCoin
