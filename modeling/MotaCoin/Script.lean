import MotaCoin.Lib.Wire
import MotaCoin.Primitives

/-!
# Scripts

`CScript`: how a script is read operation by operation, how a data item is appended to it, and the
functions of `script.h` and `script.cpp` that only read it. An iterator into a script is the list
of the bytes from there to the end.

## Main definitions

* The opcodes the parsing functions name
* `getOp2`: one operation, with its data and the bytes after it
* `pushData`: `operator<<` for a data item
* `findAndDelete`, `isPushOnly`, `isPayToScriptHash`
* `getSigOpCount`, `getSigOpCountP2SH`: the static count of signature operations

## Main results

* `getOp2_length_lt`, `getOp2_suffix`: an operation takes at least one byte, from the front
-/

namespace MotaCoin

open Wire

/-- `valtype`: an element of the stack. -/
abbrev Valtype := List UInt8

/-! ## Opcodes -/

/-- `OP_PUSHDATA1`. -/
def OP_PUSHDATA1 : Nat := 0x4c

/-- `OP_PUSHDATA2`. -/
def OP_PUSHDATA2 : Nat := 0x4d

/-- `OP_PUSHDATA4`. -/
def OP_PUSHDATA4 : Nat := 0x4e

/-- `OP_1`. -/
def OP_1 : Nat := 0x51

/-- `OP_16`. -/
def OP_16 : Nat := 0x60

/-- `OP_EQUAL`. -/
def OP_EQUAL : Nat := 0x87

/-- `OP_HASH160`. -/
def OP_HASH160 : Nat := 0xa9

/-- `OP_CODESEPARATOR`. -/
def OP_CODESEPARATOR : Nat := 0xab

/-- `OP_CHECKSIG`. -/
def OP_CHECKSIG : Nat := 0xac

/-- `OP_CHECKSIGVERIFY`. -/
def OP_CHECKSIGVERIFY : Nat := 0xad

/-- `OP_CHECKMULTISIG`. -/
def OP_CHECKMULTISIG : Nat := 0xae

/-- `OP_CHECKMULTISIGVERIFY`. -/
def OP_CHECKMULTISIGVERIFY : Nat := 0xaf

/-- `OP_INVALIDOPCODE`. -/
def OP_INVALIDOPCODE : Nat := 0xff

/-! ## Reading operations -/

/-- The size of the immediate operand of `opcode`, with the bytes after it: the opcode itself, or
the bytes that follow a `OP_PUSHDATA`. -/
def readPushSize (opcode : Nat) (pc : CScript) : Option (Nat × CScript) :=
  if opcode < OP_PUSHDATA1 then some (opcode, pc)
  else if opcode = OP_PUSHDATA1 then readLE 1 pc
  else if opcode = OP_PUSHDATA2 then readLE 2 pc
  else if opcode = OP_PUSHDATA4 then readLE 4 pc
  else some (0, pc)

/-- `GetOp2`: the opcode, its data and the bytes after it. The number of bytes left is compared
with the size as an `unsigned int`. -/
def getOp2 : CScript → Option (Nat × Valtype × CScript)
  | [] => none
  | byte :: pc =>
    if byte.toNat ≤ OP_PUSHDATA4 then
      match readPushSize byte.toNat pc with
      | none => none
      | some (nSize, pc') =>
        if pc'.length % 2 ^ 32 < nSize then none
        else some (byte.toNat, pc'.take nSize, pc'.drop nSize)
    else some (byte.toNat, [], pc)

theorem readLE_suffix {w n : Nat} {pc pc' : CScript} (h : readLE w pc = some (n, pc')) :
    pc' <:+ pc := by
  change ((Wire.read w pc).bind fun p => some (ofLE p.1, p.2)) = _ at h
  obtain ⟨p, hp, heq⟩ := Option.bind_eq_some_iff.mp h
  unfold Wire.read at hp
  split_ifs at hp
  obtain rfl := Option.some.inj hp
  obtain ⟨-, rfl⟩ := Prod.mk.inj (Option.some.inj heq)
  exact List.drop_suffix _ _

theorem readPushSize_suffix {opcode nSize : Nat} {pc pc' : CScript}
    (h : readPushSize opcode pc = some (nSize, pc')) : pc' <:+ pc := by
  unfold readPushSize at h
  split_ifs at h
  · obtain ⟨-, rfl⟩ := Prod.mk.inj (Option.some.inj h)
    exact List.suffix_rfl
  · exact readLE_suffix h
  · exact readLE_suffix h
  · exact readLE_suffix h
  · obtain ⟨-, rfl⟩ := Prod.mk.inj (Option.some.inj h)
    exact List.suffix_rfl

/-- What is left after an operation is a proper end of the script. -/
theorem getOp2_cons_suffix {byte : UInt8} {pc pc' : CScript} {opcode : Nat} {data : Valtype}
    (h : getOp2 (byte :: pc) = some (opcode, data, pc')) : opcode = byte.toNat ∧ pc' <:+ pc := by
  rw [getOp2] at h
  split at h
  · split at h
    · cases h
    · next nSize pc'' hsize =>
      split at h
      · cases h
      · simp only [Option.some.injEq, Prod.mk.injEq] at h
        obtain ⟨rfl, -, rfl⟩ := h
        exact ⟨rfl, (List.drop_suffix _ _).trans (readPushSize_suffix hsize)⟩
  · simp only [Option.some.injEq, Prod.mk.injEq] at h
    obtain ⟨rfl, -, rfl⟩ := h
    exact ⟨rfl, List.suffix_rfl⟩

theorem getOp2_length_lt {pc pc' : CScript} {opcode : Nat} {data : Valtype}
    (h : getOp2 pc = some (opcode, data, pc')) : pc'.length < pc.length := by
  cases pc with
  | nil => cases h
  | cons byte pc =>
    have := (getOp2_cons_suffix h).2.length_le
    rw [List.length_cons]
    omega

/-! ## Appending data -/

/-- `operator<<` for a data item: the bytes it appends. -/
def pushData (b : Valtype) : CScript :=
  if b.length < OP_PUSHDATA1 then leBytes 1 b.length ++ b
  else if b.length ≤ 0xff then leBytes 1 OP_PUSHDATA1 ++ (leBytes 1 b.length ++ b)
  else if b.length ≤ 0xffff then leBytes 1 OP_PUSHDATA2 ++ (leBytes 2 b.length ++ b)
  else leBytes 1 OP_PUSHDATA4 ++ (leBytes 4 b.length ++ b)

/-- `CScript(opcode)`. -/
def ofOpcode (opcode : Nat) : CScript := [UInt8.ofNat opcode]

/-! ## Deleting a pattern -/

/-- The inner loop of `FindAndDelete`: erase the pattern `b` as long as the script from here on
starts with it. The second component is the number erased. -/
def eraseFront (b pc : CScript) : CScript × Nat :=
  if b ≠ [] ∧ b <+: pc then
    let r := eraseFront b (pc.drop b.length)
    (r.1, r.2 + 1)
  else (pc, 0)
termination_by pc.length
decreasing_by
  rename_i h
  have := h.2.length_le
  have := List.length_pos_iff.mpr h.1
  rw [List.length_drop]
  omega

theorem eraseFront_length_le (b pc : CScript) : (eraseFront b pc).1.length ≤ pc.length := by
  induction hn : pc.length using Nat.strong_induction_on generalizing pc with
  | _ n ih =>
    subst hn
    rw [eraseFront]
    split
    · next h =>
      have hpos := List.length_pos_iff.mpr h.1
      have hle := h.2.length_le
      have hdrop : (pc.drop b.length).length < pc.length := by
        rw [List.length_drop]
        omega
      exact (ih _ hdrop _ rfl).trans hdrop.le
    · exact le_rfl

/-- The loop of `FindAndDelete` from `pc` on: what is left of the script there, and the number
erased. -/
def findAndDeleteFrom (b pc : CScript) : CScript × Nat :=
  let r := eraseFront b pc
  match _ : getOp2 r.1 with
  | none => r
  | some (_, _, pc') =>
    let rest := findAndDeleteFrom b pc'
    (r.1.take (r.1.length - pc'.length) ++ rest.1, r.2 + rest.2)
termination_by pc.length
decreasing_by
  exact lt_of_lt_of_le (getOp2_length_lt ‹_›) (eraseFront_length_le b pc)

/-- `FindAndDelete`: the script without the pattern `b`. -/
def findAndDelete (script b : CScript) : CScript :=
  if b = [] then script else (findAndDeleteFrom b script).1

theorem findAndDeleteFrom_length_le (b pc : CScript) :
    (findAndDeleteFrom b pc).1.length ≤ pc.length := by
  induction hn : pc.length using Nat.strong_induction_on generalizing pc with
  | _ n ih =>
    subst hn
    have herase := eraseFront_length_le b pc
    rw [findAndDeleteFrom]
    split
    · exact herase
    · next opcode data pc' hop =>
      have hlt := getOp2_length_lt hop
      have hrest := ih _ (hlt.trans_le herase) pc' rfl
      simp only [List.length_append, List.length_take]
      omega

theorem findAndDelete_length_le (script b : CScript) :
    (findAndDelete script b).length ≤ script.length := by
  unfold findAndDelete
  split
  · exact le_rfl
  · exact findAndDeleteFrom_length_le b script

/-! ## Reading scripts -/

/-- `IsPushOnly`. -/
def isPushOnly (pc : CScript) : Bool :=
  if pc = [] then true
  else
    match _ : getOp2 pc with
    | none => false
    | some (opcode, _, pc') => if OP_16 < opcode then false else isPushOnly pc'
termination_by pc.length
decreasing_by exact getOp2_length_lt ‹_›

/-- `IsPayToScriptHash`. -/
def isPayToScriptHash (script : CScript) : Bool :=
  script.length == 23 && script[0]? == some (UInt8.ofNat OP_HASH160) && script[1]? == some 0x14
    && script[22]? == some (UInt8.ofNat OP_EQUAL)

/-- `DecodeOP_N` of an opcode from `OP_1` to `OP_16`. -/
def decodeOpN (opcode : Nat) : Nat := opcode - (OP_1 - 1)

/-- What one operation adds to the count of `GetSigOpCount`. -/
def sigOpsOf (fAccurate : Bool) (lastOpcode opcode : Nat) : Nat :=
  if opcode = OP_CHECKSIG ∨ opcode = OP_CHECKSIGVERIFY then 1
  else if opcode = OP_CHECKMULTISIG ∨ opcode = OP_CHECKMULTISIGVERIFY then
    if fAccurate ∧ OP_1 ≤ lastOpcode ∧ lastOpcode ≤ OP_16 then decodeOpN lastOpcode else 20
  else 0

/-- The loop of `GetSigOpCount(fAccurate)` from `pc` on. -/
def sigOpCountFrom (fAccurate : Bool) (lastOpcode : Nat) (pc : CScript) : Nat :=
  match _ : getOp2 pc with
  | none => 0
  | some (opcode, _, pc') =>
    sigOpsOf fAccurate lastOpcode opcode + sigOpCountFrom fAccurate opcode pc'
termination_by pc.length
decreasing_by exact getOp2_length_lt ‹_›

/-- `GetSigOpCount(fAccurate)`. -/
def getSigOpCount (fAccurate : Bool) (script : CScript) : Nat :=
  sigOpCountFrom fAccurate OP_INVALIDOPCODE script

/-- The loop of `GetSigOpCount(scriptSig)`: the data of the last operation, or none when an
operation cannot be read or is no push. -/
def lastPushFrom (data : Valtype) (pc : CScript) : Option Valtype :=
  if pc = [] then some data
  else
    match _ : getOp2 pc with
    | none => none
    | some (opcode, data', pc') => if OP_16 < opcode then none else lastPushFrom data' pc'
termination_by pc.length
decreasing_by exact getOp2_length_lt ‹_›

/-- `GetSigOpCount(scriptSig)` of an output script. -/
def getSigOpCountP2SH (scriptPubKey scriptSig : CScript) : Nat :=
  if isPayToScriptHash scriptPubKey then
    match lastPushFrom [] scriptSig with
    | none => 0
    | some data => getSigOpCount true data
  else getSigOpCount true scriptPubKey

end MotaCoin
