import MotaCoin.Lib.Counted
import MotaCoin.SignatureHash
import Mathlib.Data.Nat.Digits.Defs

/-!
# The script interpreter

`EvalScript` and `VerifyScript`, with the number of times they call `CheckSig`. A stack is a list
with its top in front. `return false` and an exception caught at the end of `EvalScript` are both
a failure.

## Main definitions

* `CBigNum.setvch`, `CBigNum.getvch`, `castToBigNum`, `castToBool`: elements as numbers and flags
* `ScriptCrypto`, `checkSig`, `isCanonicalPubKey`, `isCanonicalSignature`
* `ScriptOp`, `ScriptOp.ofOpcode`, `ScriptOp.exec`: the operations of the switch that check no
  signature
* `evalCheckSig`, `evalCheckMultiSig`, `evalRound`, `evalScript`, `verifyScript`

## Main results

* `evalFrom_count_le`: the calls are bounded by the accurate count of the operations
* `evalFrom_pushOnly`: what a script of pushes leaves on top of the stack
* `checkSig_calls_le`: the static counts bound the calls
-/

namespace MotaCoin

open Wire

/-! ## Elements of the stack -/

namespace CBigNum

/-- `CBigNum::setvch`: little-endian bytes, the sign in the highest bit of the last. -/
def setvch (vch : Valtype) : Int :=
  match vch.getLast? with
  | none => 0
  | some top =>
    if top < 0x80 then ofLE vch else -(ofLE (vch.dropLast ++ [top &&& 0x7f]) : Int)

/-- `CBigNum::getvch`: the shortest such bytes. -/
def getvch (n : Int) : Valtype :=
  let vch := (Nat.digits 256 n.natAbs).map UInt8.ofNat
  match vch.getLast? with
  | none => []
  | some top =>
    if 0x80 ≤ top then vch ++ [if n < 0 then 0x80 else 0]
    else if n < 0 then vch.dropLast ++ [top ||| 0x80] else vch

end CBigNum

/-- `CastToBigNum`; an element of more than four bytes throws. The number fits an `int`, so that
`getint` does not change it. -/
def castToBigNum (vch : Valtype) : Option Int :=
  if 4 < vch.length then none else some (CBigNum.setvch vch)

/-- `CastToBool`: whether some byte is not zero, a negative zero aside. -/
def castToBool : Valtype → Bool
  | [] => false
  | [byte] => byte != 0 && byte != 0x80
  | byte :: vch => byte != 0 || castToBool vch

/-- `vchTrue` or `vchFalse`. -/
def vchBool (fValue : Bool) : Valtype := if fValue then [1] else []

/-- A flag as a number. -/
def bnBool (fValue : Bool) : Int := if fValue then 1 else 0

/-! ## Signatures -/

/-- The functions of the crypto library that the interpreter calls. -/
structure ScriptCrypto where
  /-- `RIPEMD160`. -/
  ripemd160 : Valtype → Valtype
  /-- `SHA1`. -/
  sha1 : Valtype → Valtype
  /-- `SHA256`. -/
  sha256 : Valtype → Valtype
  /-- `key.SetPubKey(vchPubKey) && key.Verify(sighash, vchSig)`. -/
  verify : Valtype → Uint256 → Valtype → Bool

/-- `Hash160`. -/
def ScriptCrypto.hash160 (k : ScriptCrypto) (vch : Valtype) : Valtype := k.ripemd160 (k.sha256 vch)

/-- `Hash`, as bytes. -/
def ScriptCrypto.hash256 (k : ScriptCrypto) (vch : Valtype) : Valtype := k.sha256 (k.sha256 vch)

/-- `IsCanonicalPubKey`. -/
def isCanonicalPubKey (vchPubKey : Valtype) : Bool :=
  if vchPubKey.length < 33 then false
  else if vchPubKey[0]? = some 0x04 then vchPubKey.length == 65
  else if vchPubKey[0]? = some 0x02 ∨ vchPubKey[0]? = some 0x03 then vchPubKey.length == 33
  else false

/-- One of the two numbers of a canonical signature, `nLen` bytes from `i` on: its type, and
neither empty nor negative nor padded. -/
def isCanonicalNumber (vchSig : Valtype) (i nLen : Nat) : Bool :=
  vchSig[i - 2]? == some 0x02 && nLen != 0 && vchSig.getD i 0 < 0x80
    && !(1 < nLen && vchSig[i]? == some 0 && vchSig.getD (i + 1) 0 < 0x80)

/-- `IsCanonicalSignature`. -/
def isCanonicalSignature (vchSig : Valtype) : Bool :=
  let size := vchSig.length
  let nHashType := vchSig.getD (size - 1) 0 &&& 0x7f
  let nLenR := (vchSig.getD 3 0).toNat
  let nLenS := (vchSig.getD (5 + nLenR) 0).toNat
  if size < 9 ∨ 73 < size then false
  else if nHashType < 1 ∨ 3 < nHashType then false
  else if vchSig[0]? ≠ some 0x30 ∨ (vchSig.getD 1 0).toNat ≠ size - 3 then false
  else if size ≤ 5 + nLenR ∨ nLenR + nLenS + 7 ≠ size then false
  else isCanonicalNumber vchSig 4 nLenR && isCanonicalNumber vchSig (6 + nLenR) nLenS
    && nLenS ≤ 32

/-! ## Operations that check no signature -/

/-- The operations on one number. -/
inductive UnaryOp where
  | oneAdd | oneSub | negate | abs | not | zeroNotEqual
  deriving DecidableEq, Repr

/-- The operations on two numbers. -/
inductive BinaryOp where
  | add | sub | boolAnd | boolOr | numEqual | numEqualVerify | numNotEqual | lessThan
  | greaterThan | lessThanOrEqual | greaterThanOrEqual | min | max
  deriving DecidableEq, Repr

/-- The operations that hash. -/
inductive HashOp where
  | ripemd160 | sha1 | sha256 | hash160 | hash256
  deriving DecidableEq, Repr

/-- The cases of the switch of `EvalScript`, those that check signatures aside. -/
inductive ScriptOp where
  | num (n : Int)
  | nop
  | if_ | notIf | else_ | endIf
  | verify | return_
  | toAltStack | fromAltStack
  | twoDrop | twoDup | threeDup | twoOver | twoRot | twoSwap | ifDup | depth | drop | dup | nip
  | over | pick | roll | rot | swap | tuck
  | size
  | equal | equalVerify
  | unary (op : UnaryOp)
  | binary (op : BinaryOp)
  | within
  | hash (op : HashOp)
  | codeSeparator
  deriving DecidableEq, Repr

/-- `OP_1NEGATE`. -/
def OP_1NEGATE : Nat := 0x4f

/-- `OP_IF`. -/
def OP_IF : Nat := 0x63

/-- `OP_ENDIF`. -/
def OP_ENDIF : Nat := 0x68

/-- `OP_NOP1`. -/
def OP_NOP1 : Nat := 0xb0

/-- `OP_NOP10`. -/
def OP_NOP10 : Nat := 0xb9

/-- The case of the switch that an opcode selects; none is the default. -/
def ScriptOp.ofOpcode (opcode : Nat) : Option ScriptOp :=
  if opcode = OP_1NEGATE ∨ OP_1 ≤ opcode ∧ opcode ≤ OP_16 then some (.num ((opcode : Int) - 0x50))
  else if OP_NOP1 ≤ opcode ∧ opcode ≤ OP_NOP10 then some .nop
  else
    match opcode with
    | 0x61 => some .nop
    | 0x63 => some .if_
    | 0x64 => some .notIf
    | 0x67 => some .else_
    | 0x68 => some .endIf
    | 0x69 => some .verify
    | 0x6a => some .return_
    | 0x6b => some .toAltStack
    | 0x6c => some .fromAltStack
    | 0x6d => some .twoDrop
    | 0x6e => some .twoDup
    | 0x6f => some .threeDup
    | 0x70 => some .twoOver
    | 0x71 => some .twoRot
    | 0x72 => some .twoSwap
    | 0x73 => some .ifDup
    | 0x74 => some .depth
    | 0x75 => some .drop
    | 0x76 => some .dup
    | 0x77 => some .nip
    | 0x78 => some .over
    | 0x79 => some .pick
    | 0x7a => some .roll
    | 0x7b => some .rot
    | 0x7c => some .swap
    | 0x7d => some .tuck
    | 0x82 => some .size
    | 0x87 => some .equal
    | 0x88 => some .equalVerify
    | 0x8b => some (.unary .oneAdd)
    | 0x8c => some (.unary .oneSub)
    | 0x8f => some (.unary .negate)
    | 0x90 => some (.unary .abs)
    | 0x91 => some (.unary .not)
    | 0x92 => some (.unary .zeroNotEqual)
    | 0x93 => some (.binary .add)
    | 0x94 => some (.binary .sub)
    | 0x9a => some (.binary .boolAnd)
    | 0x9b => some (.binary .boolOr)
    | 0x9c => some (.binary .numEqual)
    | 0x9d => some (.binary .numEqualVerify)
    | 0x9e => some (.binary .numNotEqual)
    | 0x9f => some (.binary .lessThan)
    | 0xa0 => some (.binary .greaterThan)
    | 0xa1 => some (.binary .lessThanOrEqual)
    | 0xa2 => some (.binary .greaterThanOrEqual)
    | 0xa3 => some (.binary .min)
    | 0xa4 => some (.binary .max)
    | 0xa5 => some .within
    | 0xa6 => some (.hash .ripemd160)
    | 0xa7 => some (.hash .sha1)
    | 0xa8 => some (.hash .sha256)
    | 0xa9 => some (.hash .hash160)
    | 0xaa => some (.hash .hash256)
    | 0xab => some .codeSeparator
    | _ => none

/-- The opcodes that fail even where they are not executed. -/
def isDisabled (opcode : Nat) : Bool :=
  [0x7e, 0x7f, 0x80, 0x81, 0x83, 0x84, 0x85, 0x86, 0x8d, 0x8e, 0x95, 0x96, 0x97, 0x98,
    0x99].contains opcode

/-- What `EvalScript` keeps between two operations. -/
structure EvalState where
  /-- `stack`, its top in front. -/
  stack : List Valtype
  /-- `altstack`, its top in front. -/
  altstack : List Valtype
  /-- `vfExec`, the innermost condition in front. -/
  vfExec : List Bool
  /-- `nOpCount`. -/
  nOpCount : Nat
  /-- The script from `pbegincodehash` to its end. -/
  codeHash : CScript

/-- `fExec`: no condition around is false. -/
def EvalState.fExec (s : EvalState) : Bool := s.vfExec.all id

/-- The operations on one number. -/
def UnaryOp.apply : UnaryOp → Int → Int
  | .oneAdd, bn => bn + 1
  | .oneSub, bn => bn - 1
  | .negate, bn => -bn
  | .abs, bn => if bn < 0 then -bn else bn
  | .not, bn => bnBool (bn == 0)
  | .zeroNotEqual, bn => bnBool (bn != 0)

/-- The operations on two numbers. -/
def BinaryOp.apply : BinaryOp → Int → Int → Int
  | .add, bn1, bn2 => bn1 + bn2
  | .sub, bn1, bn2 => bn1 - bn2
  | .boolAnd, bn1, bn2 => bnBool (bn1 != 0 && bn2 != 0)
  | .boolOr, bn1, bn2 => bnBool (bn1 != 0 || bn2 != 0)
  | .numEqual, bn1, bn2 => bnBool (bn1 == bn2)
  | .numEqualVerify, bn1, bn2 => bnBool (bn1 == bn2)
  | .numNotEqual, bn1, bn2 => bnBool (bn1 != bn2)
  | .lessThan, bn1, bn2 => bnBool (bn1 < bn2)
  | .greaterThan, bn1, bn2 => bnBool (bn2 < bn1)
  | .lessThanOrEqual, bn1, bn2 => bnBool (bn1 ≤ bn2)
  | .greaterThanOrEqual, bn1, bn2 => bnBool (bn2 ≤ bn1)
  | .min, bn1, bn2 => if bn1 < bn2 then bn1 else bn2
  | .max, bn1, bn2 => if bn2 < bn1 then bn1 else bn2

/-- The operations that hash. -/
def HashOp.apply (k : ScriptCrypto) : HashOp → Valtype → Valtype
  | .ripemd160 => k.ripemd160
  | .sha1 => k.sha1
  | .sha256 => k.sha256
  | .hash160 => k.hash160
  | .hash256 => k.hash256

/-- `OP_PICK` and `OP_ROLL` on the stack below the position `n`: the element there, and the stack
it is put on. -/
def pickAt (fRoll : Bool) (n : Int) (stack : List Valtype) : Option (List Valtype) :=
  if n < 0 then none
  else
    match stack[n.toNat]? with
    | none => none
    | some vch => some (vch :: if fRoll then stack.eraseIdx n.toNat else stack)

/-- The operations that read and change the stack only. -/
def ScriptOp.execStack (k : ScriptCrypto) : ScriptOp → List Valtype → Option (List Valtype)
  | .num n, stack => some (CBigNum.getvch n :: stack)
  | .verify, vch :: stack => if castToBool vch then some stack else none
  | .twoDrop, _ :: _ :: stack => some stack
  | .twoDup, vch2 :: vch1 :: stack => some (vch2 :: vch1 :: vch2 :: vch1 :: stack)
  | .threeDup, vch3 :: vch2 :: vch1 :: stack =>
    some (vch3 :: vch2 :: vch1 :: vch3 :: vch2 :: vch1 :: stack)
  | .twoOver, x4 :: x3 :: vch2 :: vch1 :: stack =>
    some (vch2 :: vch1 :: x4 :: x3 :: vch2 :: vch1 :: stack)
  | .twoRot, x6 :: x5 :: x4 :: x3 :: vch2 :: vch1 :: stack =>
    some (vch2 :: vch1 :: x6 :: x5 :: x4 :: x3 :: stack)
  | .twoSwap, x4 :: x3 :: x2 :: x1 :: stack => some (x2 :: x1 :: x4 :: x3 :: stack)
  | .ifDup, vch :: stack => some (if castToBool vch then vch :: vch :: stack else vch :: stack)
  | .depth, stack => some (CBigNum.getvch stack.length :: stack)
  | .drop, _ :: stack => some stack
  | .dup, vch :: stack => some (vch :: vch :: stack)
  | .nip, x2 :: _ :: stack => some (x2 :: stack)
  | .over, x2 :: vch :: stack => some (vch :: x2 :: vch :: stack)
  | .pick, n :: x :: stack => (castToBigNum n).bind fun n => pickAt false n (x :: stack)
  | .roll, n :: x :: stack => (castToBigNum n).bind fun n => pickAt true n (x :: stack)
  | .rot, x3 :: x2 :: x1 :: stack => some (x1 :: x3 :: x2 :: stack)
  | .swap, x2 :: x1 :: stack => some (x1 :: x2 :: stack)
  | .tuck, vch :: x1 :: stack => some (vch :: x1 :: vch :: stack)
  | .size, vch :: stack => some (CBigNum.getvch vch.length :: vch :: stack)
  | .equal, vch2 :: vch1 :: stack => some (vchBool (vch1 == vch2) :: stack)
  | .equalVerify, vch2 :: vch1 :: stack => if vch1 == vch2 then some stack else none
  | .unary op, vch :: stack =>
    (castToBigNum vch).map fun bn => CBigNum.getvch (op.apply bn) :: stack
  | .binary op, vch2 :: vch1 :: stack => do
    let bn1 ← castToBigNum vch1
    let bn2 ← castToBigNum vch2
    let vch := CBigNum.getvch (op.apply bn1 bn2)
    if op = .numEqualVerify then if castToBool vch then some stack else none
    else some (vch :: stack)
  | .within, vch3 :: vch2 :: vch1 :: stack => do
    let bn1 ← castToBigNum vch1
    let bn2 ← castToBigNum vch2
    let bn3 ← castToBigNum vch3
    some (vchBool (bn2 ≤ bn1 && bn1 < bn3) :: stack)
  | .hash op, vch :: stack => some (op.apply k vch :: stack)
  | _, _ => none

/-- `OP_IF` and `OP_NOTIF`: where nothing is executed, the condition is false and the stack is not
read. -/
def execIf (fNot : Bool) (s : EvalState) : Option EvalState :=
  if s.fExec then
    match s.stack with
    | [] => none
    | vch :: stack =>
      some { s with stack := stack, vfExec := (castToBool vch != fNot) :: s.vfExec }
  else some { s with vfExec := false :: s.vfExec }

/-- One case of the switch. The script after the operation is `pc`. -/
def ScriptOp.exec (k : ScriptCrypto) (op : ScriptOp) (pc : CScript) (s : EvalState) :
    Option EvalState :=
  match op with
  | .nop => some s
  | .if_ => execIf false s
  | .notIf => execIf true s
  | .else_ =>
    match s.vfExec with
    | [] => none
    | fExec :: vfExec => some { s with vfExec := (!fExec) :: vfExec }
  | .endIf =>
    match s.vfExec with
    | [] => none
    | _ :: vfExec => some { s with vfExec := vfExec }
  | .return_ => none
  | .toAltStack =>
    match s.stack with
    | [] => none
    | vch :: stack => some { s with stack := stack, altstack := vch :: s.altstack }
  | .fromAltStack =>
    match s.altstack with
    | [] => none
    | vch :: altstack => some { s with stack := vch :: s.stack, altstack := altstack }
  | .codeSeparator => some { s with codeHash := pc }
  | op => (op.execStack k s.stack).map fun stack => { s with stack := stack }

/-! ## Operations that check signatures -/

/-- The arguments that `EvalScript` passes on to `CheckSig`, besides those on the stack. -/
structure SigContext where
  /-- The functions of the crypto library. -/
  crypto : ScriptCrypto
  /-- `txTo`. -/
  txTo : CTransaction
  /-- `nIn`. -/
  nIn : Nat
  /-- `nHashType`. -/
  nHashType : UInt32

variable (ctx : SigContext)

/-- `CheckSig`. The cache of valid signatures only holds what was verified before, so that it
changes no result and is left out. -/
def checkSig (vchSig vchPubKey : Valtype) (scriptCode : CScript) : Bool :=
  match vchSig.getLast? with
  | none => false
  | some back =>
    let nHashType := UInt32.ofNat back.toNat
    if ctx.nHashType = 0 ∨ ctx.nHashType = nHashType then
      let sighash := signatureHash (fun ss => ofLE (ctx.crypto.hash256 ss)) scriptCode ctx.txTo
        ctx.nIn nHashType
      ctx.crypto.verify vchPubKey sighash vchSig.dropLast
    else false

/-- How the four operations end: the result is pushed, or, for the `VERIFY` ones, required. -/
def pushSuccess (fVerify fSuccess : Bool) (s : EvalState) : Counted EvalState :=
  if fVerify then if fSuccess then pure s else .fail
  else pure { s with stack := vchBool fSuccess :: s.stack }

/-- `OP_CHECKSIG` and `OP_CHECKSIGVERIFY`. `CheckSig` is called whatever the signature and the key
look like. -/
def evalCheckSig (fVerify : Bool) (s : EvalState) : Counted EvalState :=
  match s.stack with
  | vchPubKey :: vchSig :: stack => do
    let scriptCode := findAndDelete s.codeHash (pushData vchSig)
    let fCheckSig ← Counted.tick (checkSig ctx vchSig vchPubKey scriptCode)
    let fSuccess := isCanonicalSignature vchSig && isCanonicalPubKey vchPubKey && fCheckSig
    pushSuccess fVerify fSuccess { s with stack := stack }
  | _ => .fail

/-- What `OP_CHECKMULTISIG` takes from the stack. -/
structure MultiSigArgs where
  /-- The keys, from `ikey` on. -/
  keys : List Valtype
  /-- The signatures, from `isig` on. -/
  sigs : List Valtype
  /-- The stack below. -/
  stack : List Valtype
  /-- `nOpCount`, with the keys. -/
  nOpCount : Nat

/-- The first part of `OP_CHECKMULTISIG`: the arguments, and one more element that is popped with
them. -/
def multiSigArgs (stack : List Valtype) (nOpCount : Nat) : Option MultiSigArgs := do
  let nKeysCount ← stack.head? >>= castToBigNum
  guard (0 ≤ nKeysCount ∧ nKeysCount ≤ 20)
  let nKeys := nKeysCount.toNat
  guard (nOpCount + nKeys ≤ 201)
  let nSigsCount ← stack[1 + nKeys]? >>= castToBigNum
  guard (0 ≤ nSigsCount ∧ nSigsCount ≤ nKeysCount)
  let nSigs := nSigsCount.toNat
  guard (3 + nKeys + nSigs ≤ stack.length)
  pure
    { keys := (stack.drop 1).take nKeys
      sigs := (stack.drop (2 + nKeys)).take nSigs
      stack := stack.drop (3 + nKeys + nSigs)
      nOpCount := nOpCount + nKeys }

/-- `fOk` of `OP_CHECKMULTISIG`: `CheckSig` is called only for a canonical signature and key. -/
def checkCanonicalSig (vchSig vchPubKey : Valtype) (scriptCode : CScript) : Counted Bool :=
  if isCanonicalSignature vchSig && isCanonicalPubKey vchPubKey then
    .tick (checkSig ctx vchSig vchPubKey scriptCode)
  else pure false

/-- The loop of `OP_CHECKMULTISIG`: every round uses up a key, and a signature when it fits. -/
def checkMultiSigLoop (scriptCode : CScript) : List Valtype → List Valtype → Counted Bool
  | _, [] => pure true
  | [], _ :: _ => pure false
  | vchPubKey :: keys, vchSig :: sigs => do
    let fOk ← checkCanonicalSig ctx vchSig vchPubKey scriptCode
    let sigs' := if fOk then sigs else vchSig :: sigs
    if keys.length < sigs'.length then pure false else checkMultiSigLoop scriptCode keys sigs'

/-- `OP_CHECKMULTISIG` and `OP_CHECKMULTISIGVERIFY`. -/
def evalCheckMultiSig (fVerify : Bool) (s : EvalState) : Counted EvalState :=
  match multiSigArgs s.stack s.nOpCount with
  | none => .fail
  | some args => do
    let scriptCode := args.sigs.foldl (fun code sig => findAndDelete code (pushData sig)) s.codeHash
    let fSuccess ← checkMultiSigLoop ctx scriptCode args.keys args.sigs
    pushSuccess fVerify fSuccess { s with stack := args.stack, nOpCount := args.nOpCount }

/-! ## Evaluating a script -/

/-- The switch of `EvalScript`. -/
def evalSwitch (opcode : Nat) (pc : CScript) (s : EvalState) : Counted EvalState :=
  if opcode = OP_CHECKSIG ∨ opcode = OP_CHECKSIGVERIFY then
    evalCheckSig ctx (opcode == OP_CHECKSIGVERIFY) s
  else if opcode = OP_CHECKMULTISIG ∨ opcode = OP_CHECKMULTISIGVERIFY then
    evalCheckMultiSig ctx (opcode == OP_CHECKMULTISIGVERIFY) s
  else .ofOption ((ScriptOp.ofOpcode opcode).bind fun op => op.exec ctx.crypto pc s)

/-- What a round does with an operation it has read and admitted: a push, a case of the switch, or
nothing where nothing is executed. -/
def evalOp (opcode : Nat) (vchPushValue : Valtype) (pc : CScript) (s : EvalState) :
    Counted EvalState :=
  if s.fExec ∧ opcode ≤ OP_PUSHDATA4 then pure { s with stack := vchPushValue :: s.stack }
  else if s.fExec ∨ OP_IF ≤ opcode ∧ opcode ≤ OP_ENDIF then evalSwitch ctx opcode pc s
  else pure s

/-- The operation counted, unless it is a push. -/
def EvalState.countOp (opcode : Nat) (s : EvalState) : EvalState :=
  { s with nOpCount := if OP_16 < opcode then s.nOpCount + 1 else s.nOpCount }

/-- A round of the loop of `EvalScript`, the operation read. -/
def evalRound (opcode : Nat) (vchPushValue : Valtype) (pc : CScript) (s : EvalState) :
    Counted EvalState :=
  if 520 < vchPushValue.length then .fail
  else if OP_16 < opcode ∧ 201 < (s.countOp opcode).nOpCount then .fail
  else if isDisabled opcode then .fail
  else do
    let s' ← evalOp ctx opcode vchPushValue pc (s.countOp opcode)
    if 1000 < s'.stack.length + s'.altstack.length then .fail else pure s'

/-- The loop of `EvalScript` from `pc` on. -/
def evalFrom (pc : CScript) (s : EvalState) : Counted EvalState :=
  if pc = [] then pure s
  else
    match _ : getOp2 pc with
    | none => .fail
    | some (opcode, vchPushValue, pc') => do
      let s' ← evalRound ctx opcode vchPushValue pc' s
      evalFrom pc' s'
termination_by pc.length
decreasing_by exact getOp2_length_lt ‹_›

/-- What `EvalScript` starts from. -/
def EvalState.start (stack : List Valtype) (script : CScript) : EvalState where
  stack := stack
  altstack := []
  vfExec := []
  nOpCount := 0
  codeHash := script

/-- `EvalScript`: the stack it leaves. -/
def evalScript (stack : List Valtype) (script : CScript) : Counted (List Valtype) :=
  if 10000 < script.length then .fail
  else do
    let s ← evalFrom ctx script (.start stack script)
    if s.vfExec = [] then pure s.stack else .fail

/-- The verdict of `VerifyScript`, and how often `CheckSig` was called in each of the scripts it
evaluates. -/
structure VerifyTrace where
  /-- In `scriptSig`. -/
  scriptSig : Nat
  /-- In `scriptPubKey`. -/
  scriptPubKey : Nat
  /-- In `pubKey2`, the script that `scriptSig` ends with. -/
  redeem : Nat
  /-- What `VerifyScript` returns. -/
  verdict : Bool
  deriving DecidableEq, Repr

/-- Whether an evaluation leaves something true on top of the stack. -/
def leavesTrue : Option (List Valtype) → Bool
  | some (vch :: _) => castToBool vch
  | _ => false

/-- The part of `VerifyScript` for spend-to-script-hash outputs, from the copy of the stack. -/
def evalRedeem (scriptSig : CScript) (stackCopy : List Valtype) : Nat × Bool :=
  if isPushOnly scriptSig then
    match stackCopy with
    | [] => (0, false)
    | pubKeySerialized :: stackCopy =>
      let r := evalScript ctx stackCopy pubKeySerialized
      (r.count, leavesTrue r.result)
  else (0, false)

/-- `VerifyScript`. -/
def verifyScript (scriptSig scriptPubKey : CScript) : VerifyTrace :=
  let r₁ := evalScript ctx [] scriptSig
  match r₁.result with
  | none => ⟨r₁.count, 0, 0, false⟩
  | some stackCopy =>
    let r₂ := evalScript ctx stackCopy scriptPubKey
    if leavesTrue r₂.result then
      if isPayToScriptHash scriptPubKey then
        let r₃ := evalRedeem ctx scriptSig stackCopy
        ⟨r₁.count, r₂.count, r₃.1, r₃.2⟩
      else ⟨r₁.count, r₂.count, 0, true⟩
    else ⟨r₁.count, r₂.count, 0, false⟩

/-! ## What one operation costs -/

section Costs

variable {ctx} {s s' : EvalState} {pc : CScript} {opcode lastOpcode : Nat}

theorem count_pushSuccess (fVerify fSuccess : Bool) (s : EvalState) :
    (pushSuccess fVerify fSuccess s).count = 0 := by
  unfold pushSuccess
  split_ifs <;> rfl

theorem evalCheckSig_count_le (fVerify : Bool) (s : EvalState) :
    (evalCheckSig ctx fVerify s).count ≤ 1 := by
  unfold evalCheckSig
  split
  · exact Counted.count_bind_le le_rfl fun _ _ => (count_pushSuccess _ _ _).le
  · exact Nat.zero_le _

/-- No key is checked twice. -/
theorem checkMultiSigLoop_count_le (scriptCode : CScript) (keys sigs : List Valtype) :
    (checkMultiSigLoop ctx scriptCode keys sigs).count ≤ keys.length := by
  induction keys generalizing sigs with
  | nil => cases sigs <;> exact Nat.zero_le _
  | cons vchPubKey keys ih =>
    cases sigs with
    | nil => exact Nat.zero_le _
    | cons vchSig sigs =>
      rw [checkMultiSigLoop, List.length_cons, Nat.add_comm]
      refine Counted.count_bind_le ?_ fun fOk _ => ?_
      · unfold checkCanonicalSig
        split <;> simp
      · dsimp only
        split_ifs <;> first | exact Nat.zero_le _ | exact ih _

/-- The number of keys is what the top of the stack says, and at most twenty. -/
theorem multiSigArgs_spec {stack : List Valtype} {nOpCount : Nat} {args : MultiSigArgs}
    (h : multiSigArgs stack nOpCount = some args) :
    ∃ top n, stack.head? = some top ∧ castToBigNum top = some n ∧
      args.keys.length ≤ n.toNat ∧ n.toNat ≤ 20 := by
  obtain ⟨nKeysCount, hkeys, h⟩ := Option.bind_eq_some_iff.mp h
  obtain ⟨top, htop, hcast⟩ := Option.bind_eq_some_iff.mp hkeys
  obtain ⟨_, hrange, h⟩ := Option.bind_eq_some_iff.mp h
  obtain ⟨-, -, h⟩ := Option.bind_eq_some_iff.mp h
  obtain ⟨nSigsCount, -, h⟩ := Option.bind_eq_some_iff.mp h
  obtain ⟨-, -, h⟩ := Option.bind_eq_some_iff.mp h
  obtain ⟨-, -, h⟩ := Option.bind_eq_some_iff.mp h
  obtain rfl := Option.some.inj h
  have hle : nKeysCount.toNat ≤ 20 := by
    simp only [Option.guard_eq_some'] at hrange
    omega
  exact ⟨top, nKeysCount, htop, hcast, List.length_take_le _ _, hle⟩

theorem evalCheckMultiSig_count_le (fVerify : Bool) (s : EvalState) {m : Nat}
    (hm : ∀ top n, s.stack.head? = some top → castToBigNum top = some n → n.toNat ≤ 20 →
      n.toNat ≤ m) : (evalCheckMultiSig ctx fVerify s).count ≤ m := by
  unfold evalCheckMultiSig
  split
  · exact Nat.zero_le _
  · next args hargs =>
    obtain ⟨top, n, htop, hcast, hkeys, hle⟩ := multiSigArgs_spec hargs
    refine Counted.count_bind_le ?_ fun _ _ => (count_pushSuccess _ _ _).le
    exact (checkMultiSigLoop_count_le _ _ _).trans (hkeys.trans (hm top n htop hcast hle))

/-- What the accurate count relies on: after an operation `OP_1` to `OP_16`, its number is on top
of the stack, if it was executed at all. -/
def NumberOnTop (lastOpcode : Nat) (s : EvalState) : Prop :=
  OP_1 ≤ lastOpcode → lastOpcode ≤ OP_16 → s.fExec →
    s.stack.head? = some (CBigNum.getvch (decodeOpN lastOpcode))

/-- The small numbers are read back. -/
theorem castToBigNum_decodeOpN (h : OP_1 ≤ opcode) (h' : opcode ≤ OP_16) :
    castToBigNum (CBigNum.getvch (decodeOpN opcode)) = some (decodeOpN opcode : Int) := by
  have hall : ∀ n : Fin 17, castToBigNum (CBigNum.getvch n.val) = some (n.val : Int) := by decide
  have hlt : decodeOpN opcode < 17 := by
    unfold decodeOpN
    simp only [OP_1, OP_16] at *
    omega
  exact hall ⟨decodeOpN opcode, hlt⟩

/-- An operation calls `CheckSig` at most as often as the accurate count says. -/
theorem evalSwitch_count_le (hexec : s.fExec) (htop : NumberOnTop lastOpcode s) :
    (evalSwitch ctx opcode pc s).count ≤ sigOpsOf true lastOpcode opcode := by
  unfold evalSwitch sigOpsOf
  split_ifs with hsig hmulti hlast
  · exact evalCheckSig_count_le _ _
  · -- the number of keys is the one just pushed
    refine evalCheckMultiSig_count_le _ _ fun top n hhead hcast _ => ?_
    rw [htop hlast.2.1 hlast.2.2 hexec] at hhead
    obtain rfl := Option.some.inj hhead
    rw [castToBigNum_decodeOpN hlast.2.1 hlast.2.2] at hcast
    obtain rfl := Option.some.inj hcast
    exact le_rfl
  · exact evalCheckMultiSig_count_le _ _ fun _ _ _ _ hle => hle
  · exact le_rfl

theorem evalOp_count_le (vchPushValue : Valtype) (htop : NumberOnTop lastOpcode s) :
    (evalOp ctx opcode vchPushValue pc s).count ≤ sigOpsOf true lastOpcode opcode := by
  unfold evalOp
  split_ifs with hpush hswitch
  · exact Nat.zero_le _
  · by_cases hexec : s.fExec
    · exact evalSwitch_count_le hexec htop
    · -- only the control operations get here
      obtain ⟨hge, hle⟩ := hswitch.resolve_left hexec
      simp only [OP_IF, OP_ENDIF] at hge hle
      unfold evalSwitch
      rw [if_neg, if_neg]
      · exact Nat.zero_le _
      · simp only [OP_CHECKMULTISIG, OP_CHECKMULTISIGVERIFY]
        omega
      · simp only [OP_CHECKSIG, OP_CHECKSIGVERIFY]
        omega
  · exact Nat.zero_le _

theorem evalRound_count_le (vchPushValue : Valtype) (htop : NumberOnTop lastOpcode s) :
    (evalRound ctx opcode vchPushValue pc s).count ≤ sigOpsOf true lastOpcode opcode := by
  have htop' : NumberOnTop lastOpcode (s.countOp opcode) := htop
  unfold evalRound
  split_ifs
  · exact Nat.zero_le _
  · exact Nat.zero_le _
  · exact Nat.zero_le _
  · refine Counted.count_bind_le (y := 0) (evalOp_count_le _ htop') fun s' _ => ?_
    split_ifs <;> exact le_rfl

/-! ### The operations that push a number -/

theorem evalSwitch_num (h : opcode = OP_1NEGATE ∨ OP_1 ≤ opcode ∧ opcode ≤ OP_16) :
    (evalSwitch ctx opcode pc s).result =
      some { s with stack := CBigNum.getvch ((opcode : Int) - 0x50) :: s.stack } := by
  have hop : ScriptOp.ofOpcode opcode = some (.num ((opcode : Int) - 0x50)) := if_pos h
  simp only [OP_1NEGATE, OP_1, OP_16] at h
  unfold evalSwitch
  rw [if_neg, if_neg, hop]
  · rfl
  · simp only [OP_CHECKMULTISIG, OP_CHECKMULTISIGVERIFY]
    omega
  · simp only [OP_CHECKSIG, OP_CHECKSIGVERIFY]
    omega

/-- What a round that goes on has done. -/
theorem exists_of_evalRound {vchPushValue : Valtype}
    (h : (evalRound ctx opcode vchPushValue pc s).result = some s') :
    vchPushValue.length ≤ 520 ∧
      (evalOp ctx opcode vchPushValue pc (s.countOp opcode)).result = some s' := by
  unfold evalRound at h
  split_ifs at h with hlen
  · cases h
  · cases h
  · cases h
  · obtain ⟨s₁, hop, hs₁⟩ := Counted.exists_of_result_bind h
    split_ifs at hs₁
    · cases hs₁
    · obtain rfl := Option.some.inj hs₁
      exact ⟨Nat.le_of_not_lt hlen, hop⟩

theorem numberOnTop_of_evalOp {vchPushValue : Valtype}
    (h : (evalOp ctx opcode vchPushValue pc s).result = some s') : NumberOnTop opcode s' := by
  intro hge hle hexec
  unfold evalOp at h
  split_ifs at h with hpush hswitch
  · simp only [OP_PUSHDATA4, OP_1] at hpush hge
    omega
  · rw [evalSwitch_num (.inr ⟨hge, hle⟩)] at h
    obtain rfl := Option.some.inj h
    have hcast : ((decodeOpN opcode : Nat) : Int) = (opcode : Int) - 0x50 := by
      unfold decodeOpN
      simp only [OP_1] at *
      omega
    rw [hcast]
    rfl
  · obtain rfl := Option.some.inj h
    exact absurd (.inl hexec) hswitch

end Costs

/-! ## What a whole script costs -/

section Runs

variable {ctx} {s s' : EvalState} {pc script : CScript} {lastOpcode : Nat}

theorem sigOpCountFrom_eq {fAccurate : Bool} {opcode : Nat} {data : Valtype} {pc' : CScript}
    (h : getOp2 pc = some (opcode, data, pc')) : sigOpCountFrom fAccurate lastOpcode pc =
      sigOpsOf fAccurate lastOpcode opcode + sigOpCountFrom fAccurate opcode pc' := by
  rw [sigOpCountFrom]
  split
  · next hnone => simp [h] at hnone
  · next hsome =>
    simp only [h, Option.some.injEq, Prod.mk.injEq] at hsome
    obtain ⟨rfl, -, rfl⟩ := hsome
    rfl

/-- The loop calls `CheckSig` at most as often as the accurate count of the rest of the script
says. The scan goes on where the run fails, and looks into the branches not taken. -/
theorem evalFrom_count_le (htop : NumberOnTop lastOpcode s) :
    (evalFrom ctx pc s).count ≤ sigOpCountFrom true lastOpcode pc := by
  induction hn : pc.length using Nat.strong_induction_on generalizing pc s lastOpcode with
  | _ n ih =>
    subst hn
    rw [evalFrom]
    split
    · exact Nat.zero_le _
    · split
      · exact Nat.zero_le _
      · next opcode vchPushValue pc' hop =>
        rw [sigOpCountFrom_eq hop]
        refine Counted.count_bind_le (evalRound_count_le _ htop) fun s' hs' => ?_
        have htop' := numberOnTop_of_evalOp (exists_of_evalRound hs').2
        exact ih _ (getOp2_length_lt hop) htop' rfl

theorem numberOnTop_start (stack : List Valtype) (script : CScript) :
    NumberOnTop OP_INVALIDOPCODE (.start stack script) := by
  intro _ hle
  exact absurd hle (by decide)

theorem evalScript_count_le_accurate (stack : List Valtype) (script : CScript) :
    (evalScript ctx stack script).count ≤ getSigOpCount true script := by
  unfold evalScript
  split
  · exact Nat.zero_le _
  · refine Counted.count_bind_le (y := 0) (evalFrom_count_le (numberOnTop_start stack script))
      fun s _ => ?_
    split <;> exact le_rfl

/-- Scripts over the limit are not evaluated. -/
theorem evalScript_count_eq_zero {stack : List Valtype} (h : 10000 < script.length) :
    (evalScript ctx stack script).count = 0 := by
  unfold evalScript
  rw [if_pos h]
  rfl

/-! ### The static counts -/

theorem decodeOpN_le {opcode : Nat} (h : opcode ≤ OP_16) : decodeOpN opcode ≤ 16 := by
  unfold decodeOpN
  simp only [OP_1, OP_16] at *
  omega

theorem sigOpsOf_le (fAccurate : Bool) (lastOpcode opcode : Nat) :
    sigOpsOf fAccurate lastOpcode opcode ≤ 20 := by
  unfold sigOpsOf
  split_ifs with hsig hmulti hlast
  · decide
  · exact (decodeOpN_le hlast.2.2).trans (by decide)
  · exact le_rfl
  · exact Nat.zero_le _

theorem sigOpsOf_true_le (lastOpcode opcode : Nat) :
    sigOpsOf true lastOpcode opcode ≤ sigOpsOf false lastOpcode opcode := by
  by_cases hmulti : opcode = OP_CHECKMULTISIG ∨ opcode = OP_CHECKMULTISIGVERIFY
  · have hfalse : sigOpsOf false lastOpcode opcode = 20 := by
      rcases hmulti with rfl | rfl <;> rfl
    exact hfalse ▸ sigOpsOf_le true lastOpcode opcode
  · unfold sigOpsOf
    rw [if_neg hmulti, if_neg hmulti]

theorem sigOpCountFrom_true_le (lastOpcode : Nat) (pc : CScript) :
    sigOpCountFrom true lastOpcode pc ≤ sigOpCountFrom false lastOpcode pc := by
  induction hn : pc.length using Nat.strong_induction_on generalizing pc lastOpcode with
  | _ n ih =>
    subst hn
    rw [sigOpCountFrom, sigOpCountFrom]
    split
    · exact le_rfl
    · next opcode data pc' hop =>
      exact Nat.add_le_add (sigOpsOf_true_le _ _) (ih _ (getOp2_length_lt hop) _ _ rfl)

/-- An operation counts twenty at most and takes a byte at least. -/
theorem sigOpCountFrom_le (fAccurate : Bool) (lastOpcode : Nat) (pc : CScript) :
    sigOpCountFrom fAccurate lastOpcode pc ≤ 20 * pc.length := by
  induction hn : pc.length using Nat.strong_induction_on generalizing pc lastOpcode with
  | _ n ih =>
    subst hn
    rw [sigOpCountFrom]
    split
    · exact Nat.zero_le _
    · next opcode data pc' hop =>
      have hlt := getOp2_length_lt hop
      have hrest := ih _ hlt opcode pc' rfl
      have hop := sigOpsOf_le fAccurate lastOpcode opcode
      omega

/-- The counter is an `unsigned int`, which scripts that can be evaluated do not overflow. -/
theorem getSigOpCount_mod {fAccurate : Bool} (h : script.length ≤ 10000) :
    getSigOpCount fAccurate script % 2 ^ 32 = getSigOpCount fAccurate script := by
  have := sigOpCountFrom_le fAccurate OP_INVALIDOPCODE script
  refine Nat.mod_eq_of_lt ?_
  unfold getSigOpCount
  omega

/-! ### Scripts of pushes -/

/-- After the operations read so far, of which `data` is the data of the last, nothing is open and
what is on top of the stack has no more signature operations than `data`. They are the same but for
the numbers, which `GetSigOpCount` takes for empty data. -/
structure PushedLast (data : Valtype) (s : EvalState) : Prop where
  closed : s.vfExec = []
  length_le : data.length ≤ 520
  count_le : ∀ top, s.stack.head? = some top → getSigOpCount true top ≤ getSigOpCount true data

/-- The numbers that have an opcode of their own contain no signature operation. -/
theorem getSigOpCount_getvch {opcode : Nat}
    (h : opcode = OP_1NEGATE ∨ OP_1 ≤ opcode ∧ opcode ≤ OP_16) :
    getSigOpCount true (CBigNum.getvch ((opcode : Int) - 0x50)) = 0 := by
  have hall : ∀ i : Fin 0x61, i.val = OP_1NEGATE ∨ OP_1 ≤ i.val →
      getSigOpCount true (CBigNum.getvch ((i.val : Int) - 0x50)) = 0 := by
    decide +kernel
  have hlt : opcode < 0x61 := by
    simp only [OP_1NEGATE, OP_16] at h
    omega
  exact hall ⟨opcode, hlt⟩ (h.imp_right And.left)

theorem pushedLast_of_evalRound {opcode : Nat} {data : Valtype} (hpush : opcode ≤ OP_16)
    (hclosed : s.vfExec = []) (h : (evalRound ctx opcode data pc s).result = some s') :
    PushedLast data s' := by
  obtain ⟨hlen, hop⟩ := exists_of_evalRound h
  have hexec : (s.countOp opcode).fExec = true := by
    change s.vfExec.all id = true
    rw [hclosed]
    rfl
  unfold evalOp at hop
  rw [hexec] at hop
  split_ifs at hop with hdata hswitch
  · obtain rfl := Option.some.inj hop
    refine ⟨hclosed, hlen, fun top htop => ?_⟩
    obtain rfl := Option.some.inj htop
    exact le_rfl
  · by_cases hnum : opcode = OP_1NEGATE ∨ OP_1 ≤ opcode ∧ opcode ≤ OP_16
    · rw [evalSwitch_num hnum] at hop
      obtain rfl := Option.some.inj hop
      refine ⟨hclosed, hlen, fun top htop => ?_⟩
      obtain rfl := Option.some.inj htop
      rw [getSigOpCount_getvch hnum]
      exact Nat.zero_le _
    · -- `OP_RESERVED` is left
      have hreserved : opcode = 0x50 := by
        simp only [OP_1NEGATE, OP_1, OP_16, OP_PUSHDATA4, true_and] at *
        omega
      subst hreserved
      cases hop
  · exact absurd (.inl rfl) hswitch

/-- What a script of pushes leaves on top of the stack is what `GetSigOpCount(scriptSig)` finds
there. -/
theorem evalFrom_pushOnly {data : Valtype} (hpush : isPushOnly pc) (hlast : PushedLast data s)
    (h : (evalFrom ctx pc s).result = some s') :
    ∃ data', lastPushFrom data pc = some data' ∧ PushedLast data' s' := by
  induction hn : pc.length using Nat.strong_induction_on generalizing pc s data with
  | _ n ih =>
    subst hn
    rw [evalFrom] at h
    rw [isPushOnly] at hpush
    rw [lastPushFrom]
    split_ifs at h hpush ⊢ with hnil
    · obtain rfl := Option.some.inj h
      exact ⟨data, rfl, hlast⟩
    · -- the three loops read the same operation
      split at h
      · cases h
      · next opcode data' pc' hop =>
        have hnext : ∀ r, getOp2 pc = some r → r = (opcode, data', pc') := fun r hr =>
          Option.some.inj (hr.symm.trans hop)
        split at hpush
        · next hnone => simp [hop] at hnone
        · next hsome =>
          cases hnext _ hsome
          split_ifs at hpush with hle
          rw [if_neg hle]
          obtain ⟨s₁, hs₁, h⟩ := Counted.exists_of_result_bind h
          have hround := pushedLast_of_evalRound (Nat.le_of_not_lt hle) hlast.closed hs₁
          exact ih _ (getOp2_length_lt hop) hpush hround h rfl

/-- Evaluating the script that `scriptSig` ends with costs no more than `GetSigOpCount(scriptSig)`
of the output says. -/
theorem verifyScript_redeem_le (scriptSig scriptPubKey : CScript) :
    (verifyScript ctx scriptSig scriptPubKey).redeem ≤
      getSigOpCountP2SH scriptPubKey scriptSig % 2 ^ 32 := by
  unfold verifyScript
  dsimp only
  split
  · exact Nat.zero_le _
  · next stackCopy heval =>
    split_ifs with htrue hp2sh
    · unfold evalRedeem
      split
      · next hpush =>
        cases stackCopy with
        | nil => exact Nat.zero_le _
        | cons pubKeySerialized stackCopy =>
          -- the stack is what the loop over `scriptSig` left
          unfold evalScript at heval
          split at heval
          · cases heval
          obtain ⟨s, hs, hstack⟩ := Counted.exists_of_result_bind heval
          split at hstack
          · obtain hstack := Option.some.inj hstack
            have hstart : PushedLast [] (.start [] scriptSig) := ⟨rfl, Nat.zero_le _, nofun⟩
            obtain ⟨data, hdata, hlast⟩ := evalFrom_pushOnly hpush hstart hs
            have hcount := hlast.count_le pubKeySerialized (by rw [hstack]; rfl)
            have hmod : getSigOpCount true data % 2 ^ 32 = getSigOpCount true data :=
              getSigOpCount_mod (hlast.length_le.trans (by decide))
            unfold getSigOpCountP2SH
            rw [if_pos hp2sh, hdata]
            dsimp only
            rw [hmod]
            exact (evalScript_count_le_accurate _ _).trans hcount
          · cases hstack
      · exact Nat.zero_le _
    · exact Nat.zero_le _
    · exact Nat.zero_le _

end Runs

/-- **The static counts bound the calls of `CheckSig`**: `GetSigOpCount(false)` of a script those of
`EvalScript`, and `GetSigOpCount(scriptSig)` of an output those of the script that a
spend-to-script-hash input evaluates in the end. Both are an `unsigned int`. -/
theorem checkSig_calls_le (ctx : SigContext) :
    (∀ stack script, (evalScript ctx stack script).count ≤ getSigOpCount false script % 2 ^ 32) ∧
    ∀ scriptSig scriptPubKey, (verifyScript ctx scriptSig scriptPubKey).redeem ≤
      getSigOpCountP2SH scriptPubKey scriptSig % 2 ^ 32 := by
  refine ⟨fun stack script => ?_, verifyScript_redeem_le⟩
  by_cases hlong : 10000 < script.length
  · rw [evalScript_count_eq_zero hlong]
    exact Nat.zero_le _
  · rw [getSigOpCount_mod (Nat.le_of_not_lt hlong)]
    exact (evalScript_count_le_accurate stack script).trans (sigOpCountFrom_true_le _ _)

end MotaCoin
