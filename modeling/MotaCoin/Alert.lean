import MotaCoin.Lib.AssocFold
import MotaCoin.Serialize

/-!
# Alerts

`alert.cpp`: what an alert message holds, when it is in effect, and what `ProcessAlert` does with
it. An alert comes in as a message and a signature; everything else is read from the message once
the signature was found good. The sets of an alert are only asked for membership, so they are the
lists of what was read. Where reading the message throws, nothing was changed before, and the call
counts as refused.

## Main definitions

* `CUnsignedAlert` with `serialize` and `unserialize`, `CAlert`
* `CAlert.isInEffect`, `CAlert.cancels`, `CAlert.meetsReserved`
* `CAlert.processAlert`: one call, on `mapAlerts`
* `runAlerts`: calls one after the other
-/

namespace MotaCoin

open Wire

/-- `std::numeric_limits<int>::max()`. -/
def maxInt : Int := 2147483647

/-- `CUnsignedAlert`. -/
structure CUnsignedAlert where
  nVersion : Int
  nRelayUntil : Int
  nExpiration : Int
  nID : Int
  nCancel : Int
  setCancel : List Int
  nMinVer : Int
  nMaxVer : Int
  setSubVer : List (List UInt8)
  nPriority : Int
  strComment : List UInt8
  strStatusBar : List UInt8
  strReserved : List UInt8
deriving DecidableEq

/-- `Unserialize` of a `std::set`: its elements one by one. -/
def unserializeSet {α : Type} (r : Reader α) : Reader (List α) := do
  let nSize ← readCompactSize
  readN r nSize

/-- `Unserialize` of a `std::string`. -/
def unserializeString : Reader (List UInt8) := do
  let nSize ← readCompactSize
  read nSize

/-- `Unserialize` of a `CUnsignedAlert`. -/
def CUnsignedAlert.unserialize : Reader CUnsignedAlert := do
  let nVersion ← readInt 4
  let nRelayUntil ← readInt 8
  let nExpiration ← readInt 8
  let nID ← readInt 4
  let nCancel ← readInt 4
  let setCancel ← unserializeSet (readInt 4)
  let nMinVer ← readInt 4
  let nMaxVer ← readInt 4
  let setSubVer ← unserializeSet unserializeString
  let nPriority ← readInt 4
  let strComment ← unserializeString
  let strStatusBar ← unserializeString
  let strReserved ← unserializeString
  pure ⟨nVersion, nRelayUntil, nExpiration, nID, nCancel, setCancel, nMinVer, nMaxVer, setSubVer,
    nPriority, strComment, strStatusBar, strReserved⟩

/-- `Serialize` of a `CUnsignedAlert`. -/
def CUnsignedAlert.serialize (a : CUnsignedAlert) : List UInt8 :=
  intBytes 4 a.nVersion ++ intBytes 8 a.nRelayUntil ++ intBytes 8 a.nExpiration
    ++ intBytes 4 a.nID ++ intBytes 4 a.nCancel ++ serializeVector (intBytes 4) a.setCancel
    ++ intBytes 4 a.nMinVer ++ intBytes 4 a.nMaxVer ++ serializeVector serializeBytes a.setSubVer
    ++ intBytes 4 a.nPriority ++ serializeBytes a.strComment ++ serializeBytes a.strStatusBar
    ++ serializeBytes a.strReserved

/-- `CAlert`. -/
structure CAlert extends CUnsignedAlert where
  vchMsg : List UInt8
  vchSig : List UInt8
deriving DecidableEq

/-- `Hash` of a message, and the check of a signature of it with the alert key. -/
structure AlertKey where
  hash : List UInt8 → Uint256
  verify : Uint256 → List UInt8 → Bool

/-- An alert as it comes in: the message and the signature, received at a time. -/
structure AlertCall where
  vchMsg : List UInt8
  vchSig : List UInt8
  adjustedTime : Int

/-- `mapAlerts`, by the hashes of the messages. -/
abbrev MapAlerts := AList fun _ : Uint256 => CAlert

namespace CAlert

/-- `IsInEffect`, at the adjusted time `now`. -/
def isInEffect (now : Int) (a : CAlert) : Bool := decide (now < a.nExpiration)

/-- The test of `Cancels` for an alert with the id `nID`. -/
def covers (a : CAlert) (nID : Int) : Bool := decide (nID ≤ a.nCancel) || a.setCancel.contains nID

/-- `Cancels`. -/
def cancels (now : Int) (a alert : CAlert) : Bool := a.isInEffect now && a.covers alert.nID

/-- The status bar text of an alert that says the alert key is compromised. -/
def strKeyCompromised : List UInt8 :=
  "URGENT: Alert key compromised, upgrade required".toList.map fun c => UInt8.ofNat c.toNat

/-- What an alert with the id `maxInt` must look like: it never expires, applies to all versions,
cancels all previous alerts and has the pre-defined message. -/
def meetsReserved (a : CAlert) : Bool :=
  a.nID != maxInt ||
    (a.nExpiration == maxInt && a.nCancel == maxInt - 1 && a.nMinVer == 0 && a.nMaxVer == maxInt
      && a.setSubVer.isEmpty && a.nPriority == maxInt && a.strStatusBar == strKeyCompromised)

variable (K : AlertKey)

/-- `CheckSignature`: the alert that the message holds, if its signature is good. -/
def checkSignature (vchMsg vchSig : List UInt8) : Option CAlert :=
  if K.verify (K.hash vchMsg) vchSig then
    (CUnsignedAlert.unserialize vchMsg).map fun r => ⟨r.1, vchMsg, vchSig⟩
  else none

/-- The alert of a call, if the call gets as far as `mapAlerts`. -/
def checked (c : AlertCall) : Option CAlert :=
  (checkSignature K c.vchMsg c.vchSig).filter fun a => a.isInEffect c.adjustedTime && a.meetsReserved

/-- The first loop of `ProcessAlert`: alerts that `a` cancels or that have expired are erased. -/
def cancelPrevious (now : Int) (a : CAlert) (mapAlerts : MapAlerts) : MapAlerts :=
  mapAlerts.entries.foldl
    (fun m e => if a.cancels now e.2 || !e.2.isInEffect now then m.erase e.1 else m) mapAlerts

/-- `ProcessAlert`: whether the alert was accepted, and `mapAlerts` afterwards. -/
def processAlert (c : AlertCall) (mapAlerts : MapAlerts) : Bool × MapAlerts :=
  match checked K c with
  | none => (false, mapAlerts)
  | some a =>
    let m := a.cancelPrevious c.adjustedTime mapAlerts
    if m.entries.any fun e => e.2.cancels c.adjustedTime a then (false, m)
    else if (m.lookup (K.hash a.vchMsg)).isSome then (true, m)
    else (true, m.insert (K.hash a.vchMsg) a)

/-- Calls of `ProcessAlert`, one after the other. -/
def runAlerts (calls : List AlertCall) (mapAlerts : MapAlerts) : MapAlerts :=
  calls.foldl (fun m c => (processAlert K c m).2) mapAlerts

end CAlert

end MotaCoin
