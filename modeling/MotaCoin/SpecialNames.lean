import MotaCoin.Base64
import MotaCoin.NetAddr

/-!
# Names of hidden services

Addresses of Tor and I2P are kept in two IPv6 ranges, and printed as the Base32 text of their last
ten bytes with the name of the network behind it. `SetSpecial` reads such names. Its branch for
I2P copies the first bytes of the range of Tor, and so an I2P address is read as a Tor address.

## Main definitions

* `CNetAddr.setSpecial`, `CNetAddr.toStringIP`

## Main results

* `CNetAddr.setSpecial_onion`, `CNetAddr.setSpecial_i2p`: what the two names are read as
* `CNetAddr.special_name_round_trip_iff`: exactly the I2P addresses are not read back
-/

namespace MotaCoin

namespace CNetAddr

/-! ## Names -/

section Names

/-- `".onion"`. -/
def onionSuffix : List UInt8 := chars ".onion"

/-- `".oc.b32.i2p"`. -/
def i2pSuffix : List UInt8 := chars ".oc.b32.i2p"

/-- `strName.size() > n && strName.substr(strName.size() - n, n) == suffix`, with the size `n` of
the suffix. -/
def endsIn (strName suffix : List UInt8) : Bool :=
  strName.length > suffix.length && strName.drop (strName.length - suffix.length) == suffix

/-- `strName.substr(0, strName.size() - n)`. -/
def withoutSuffix (strName suffix : List UInt8) : List UInt8 :=
  strName.take (strName.length - suffix.length)

/-- The address with the first bytes `pch` and then `vchAddr`, when these are sixteen. -/
def ofParts (pch vchAddr : List UInt8) : Option CNetAddr :=
  if h : (pch ++ vchAddr).length = 16 then some ⟨pch ++ vchAddr, h⟩ else none

/-- `SetSpecial`: the address that is set, or `none` when it returns false. -/
def setSpecial (strName : List UInt8) : Option CNetAddr :=
  if endsIn strName onionSuffix then
    let vchAddr := (decodeBase32 (withoutSuffix strName onionSuffix)).1
    if vchAddr.length ≠ 16 - pchOnionCat.length then none
    else ofParts pchOnionCat vchAddr
  else if endsIn strName i2pSuffix then
    let vchAddr := (decodeBase32 (withoutSuffix strName i2pSuffix)).1
    if vchAddr.length ≠ 16 - pchGarliCat.length then none
    -- as many bytes as `pchGarliCat` has, copied from `pchOnionCat`
    else ofParts (pchOnionCat.take pchGarliCat.length) vchAddr
  else none

/-- `ToStringIP`. The text of an address of another network is `numeric`. -/
def toStringIP (numeric : CNetAddr → List UInt8) (addr : CNetAddr) : List UInt8 :=
  if addr.isTor then encodeBase32 ((addr.ip.drop 6).take 10) ++ onionSuffix
  else if addr.isI2P then encodeBase32 ((addr.ip.drop 6).take 10) ++ i2pSuffix
  else numeric addr

end Names

/-! ## Reading names back -/

section RoundTrip

variable {name payload : List UInt8}

theorem endsIn_append (hname : name ≠ []) (suffix : List UInt8) :
    endsIn (name ++ suffix) suffix = true := by
  have hpos := List.length_pos_iff.mpr hname
  rw [endsIn, List.length_append, Nat.add_sub_cancel, List.drop_left, beq_self_eq_true,
    Bool.and_true, decide_eq_true_iff]
  omega

theorem withoutSuffix_append (name suffix : List UInt8) :
    withoutSuffix (name ++ suffix) suffix = name := by
  rw [withoutSuffix, List.length_append, Nat.add_sub_cancel, List.take_left]

/-- No name ends in both suffixes. -/
theorem endsIn_onion_append_i2p (name : List UInt8) :
    endsIn (name ++ i2pSuffix) onionSuffix = false := by
  have hlen : (name ++ i2pSuffix).length - onionSuffix.length = name.length + 5 := by
    rw [List.length_append]
    exact Nat.add_sub_assoc (by decide) _
  have hne : (i2pSuffix.drop 5 == onionSuffix) = false := by decide
  rw [endsIn, hlen, List.drop_append, List.drop_of_length_le (Nat.le_add_right _ 5),
    List.nil_append, Nat.add_sub_cancel_left, hne, Bool.and_false]

theorem ofParts_eq {pch : List UInt8} (h : (pch ++ payload).length = 16) :
    ofParts pch payload = some ⟨pch ++ payload, h⟩ := dif_pos h

/-- A name of Tor is read as the address in the range of Tor. -/
theorem setSpecial_onion (h : payload.length = 10) :
    setSpecial (encodeBase32 payload ++ onionSuffix) = ofParts pchOnionCat payload := by
  have hne : encodeBase32 payload ≠ [] := encodeBase32_ne_nil (by rintro rfl; cases h)
  unfold setSpecial
  rw [if_pos (endsIn_append hne _), withoutSuffix_append, decodeBase32_encodeBase32]
  exact if_neg (not_not.mpr h)

/-- **A name of I2P is read as the address in the range of Tor** too. -/
theorem setSpecial_i2p (h : payload.length = 10) :
    setSpecial (encodeBase32 payload ++ i2pSuffix) = ofParts pchOnionCat payload := by
  have hne : encodeBase32 payload ≠ [] := encodeBase32_ne_nil (by rintro rfl; cases h)
  unfold setSpecial
  rw [endsIn_onion_append_i2p, if_neg Bool.false_ne_true, if_pos (endsIn_append hne _),
    withoutSuffix_append, decodeBase32_encodeBase32]
  exact if_neg (not_not.mpr h)

variable (addr : CNetAddr)

theorem length_payload : ((addr.ip.drop 6).take 10).length = 10 := by
  rw [List.length_take, List.length_drop, addr.length_ip]
  rfl

/-- An address in a range with six fixed bytes. -/
theorem ofParts_payload {pch : List UInt8} (hlen : pch.length = 6)
    (h : addr.startsWith pch = true) : ofParts pch ((addr.ip.drop 6).take 10) = some addr := by
  have htake : addr.ip.take 6 = pch := by
    rw [← hlen]
    exact beq_iff_eq.mp h
  have hall : (addr.ip.drop 6).take 10 = addr.ip.drop 6 :=
    List.take_of_length_le (by rw [List.length_drop, addr.length_ip])
  have hip : pch ++ (addr.ip.drop 6).take 10 = addr.ip := by
    rw [← htake, hall, List.take_append_drop]
  rw [ofParts_eq (by rw [hip, addr.length_ip])]
  obtain ⟨ip, hip'⟩ := addr
  exact congrArg some (CNetAddr.mk.injEq .. ▸ hip)

/-- An address that was put together lies in the range of its first bytes. -/
theorem startsWith_of_ofParts {pch : List UInt8} (h : ofParts pch payload = some addr) :
    addr.startsWith pch = true := by
  unfold ofParts at h
  split_ifs at h with hlen
  rw [← Option.some.inj h]
  exact beq_iff_eq.mpr (List.take_left' rfl)

/-- The ranges of the two networks have no address in common. -/
theorem isI2P_eq_false_of_isTor (h : addr.isTor = true) : addr.isI2P = false := by
  have htake : addr.ip.take 6 = pchOnionCat := beq_iff_eq.mp h
  change (addr.ip.take 6 == pchGarliCat) = false
  rw [htake]
  decide

/-- **Exactly the I2P addresses are not read back** from the name they are printed as. -/
theorem special_name_round_trip_iff (numeric : CNetAddr → List UInt8) :
    ((addr.isTor = true ∨ addr.isI2P = true) →
      setSpecial (addr.toStringIP numeric) = some addr) ↔ addr.isI2P = false := by
  constructor
  · intro h
    by_contra hi2p
    rw [Bool.not_eq_false] at hi2p
    have htor : addr.isTor = false := by
      by_contra htor
      rw [Bool.not_eq_false] at htor
      rw [isI2P_eq_false_of_isTor addr htor] at hi2p
      exact Bool.noConfusion hi2p
    have hread := h (Or.inr hi2p)
    rw [toStringIP, htor, if_neg Bool.false_ne_true, if_pos hi2p,
      setSpecial_i2p (length_payload addr)] at hread
    have hin : addr.isTor = true := startsWith_of_ofParts addr hread
    rw [htor] at hin
    exact Bool.noConfusion hin
  · rintro hi2p (htor | hi2p')
    · rw [toStringIP, if_pos htor, setSpecial_onion (length_payload addr)]
      exact ofParts_payload addr rfl htor
    · rw [hi2p] at hi2p'
      exact Bool.noConfusion hi2p'

/-- The I2P address whose last ten bytes are zero. -/
def zeroI2P : CNetAddr := ⟨pchGarliCat ++ List.replicate 10 0, rfl⟩

/-- That address is printed as an I2P name, and read as a Tor address. -/
theorem special_name_zeroI2P : zeroI2P.isI2P = true ∧
    ∀ numeric, setSpecial (zeroI2P.toStringIP numeric) =
      some ⟨pchOnionCat ++ List.replicate 10 0, rfl⟩ ∧
    setSpecial (zeroI2P.toStringIP numeric) ≠ some zeroI2P := by
  refine ⟨by decide, fun numeric => ?_⟩
  have hname : zeroI2P.toStringIP numeric = encodeBase32 (List.replicate 10 0) ++ i2pSuffix := by
    rw [toStringIP, if_neg (by decide), if_pos (by decide)]
    rfl
  rw [hname, setSpecial_i2p (by decide)]
  constructor <;> decide

end RoundTrip

end CNetAddr

end MotaCoin
