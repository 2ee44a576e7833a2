import MotaCoin.Interpreter
import MotaCoin.Lib.StackAccess

/-!
# The stack accesses of the interpreter

`EvalScript` and `VerifyScript` once more, now with every access to a stack as the source makes
it: the size check, `stacktop`, `popstack`, `erase`, `insert` and `back`, each of which may miss.
None does, and what is computed is what the interpreter computes.

## Main definitions

* `EvalReason`: why the interpreter gives up by itself
* `ScriptOp.access`, `accessCheckSig`, `accessCheckMultiSig`, `accessRound`, `accessScript`,
  `accessVerify`: the source with its accesses

## Main results

* `ScriptOp.exact_access`, `exact_accessMultiSigLoop`: no case of the switch leaves the stack
* `exact_accessScript`, `exact_accessVerify`: nor does a whole evaluation
-/

namespace MotaCoin

/-- Why `EvalScript` gives up, its stack apart. -/
inductive EvalReason where
  /-- `return false`. -/
  | returnFalse
  /-- `CastToBigNum` throws. -/
  | overflow
  deriving DecidableEq, Repr

/-- A piece of `EvalScript`. -/
abbrev Eval := Access EvalReason

namespace Eval

/-- `if (!p) return false`. -/
def require (p : Prop) [Decidable p] : Eval Unit := Access.require .returnFalse p

/-- `return false`. -/
def returnFalse {α : Type} : Eval α := Access.refuse .returnFalse

/-- `CastToBigNum`. -/
def bigNum (vch : Valtype) : Eval Int := Access.ofOption .overflow (castToBigNum vch)

end Eval

open Eval Access

/-- `stacktop(-i)`. -/
def stacktop (stack : List Valtype) (i : Nat) : Eval Valtype := Access.top stack i

/-- `popstack`. -/
def popstack (stack : List Valtype) : Eval (List Valtype) := Access.pop stack

/-! ## The cases of the switch -/

/-- `OP_PICK` and `OP_ROLL`. -/
def accessPick (fRoll : Bool) (stack : List Valtype) : Eval (List Valtype) := do
  require (2 ≤ stack.length)
  let n ← bigNum (← stacktop stack 1)
  let stack ← popstack stack
  require (¬(n < 0 ∨ (stack.length : Int) ≤ n))
  let vch ← stacktop stack (n.toNat + 1)
  let stack ← if fRoll then Access.eraseTop stack (n.toNat + 1) n.toNat else pure stack
  pure (vch :: stack)

/-- The cases that read and change the stack only. -/
def ScriptOp.accessStack (k : ScriptCrypto) (op : ScriptOp) (stack : List Valtype) :
    Eval (List Valtype) :=
  match op with
  | .num n => pure (CBigNum.getvch n :: stack)
  | .verify => do
    require (1 ≤ stack.length)
    let fValue := castToBool (← stacktop stack 1)
    if fValue then popstack stack else returnFalse
  | .twoDrop => do
    require (2 ≤ stack.length)
    popstack (← popstack stack)
  | .twoDup => do
    require (2 ≤ stack.length)
    let vch1 ← stacktop stack 2
    let vch2 ← stacktop stack 1
    pure (vch2 :: vch1 :: stack)
  | .threeDup => do
    require (3 ≤ stack.length)
    let vch1 ← stacktop stack 3
    let vch2 ← stacktop stack 2
    let vch3 ← stacktop stack 1
    pure (vch3 :: vch2 :: vch1 :: stack)
  | .twoOver => do
    require (4 ≤ stack.length)
    let vch1 ← stacktop stack 4
    let vch2 ← stacktop stack 3
    pure (vch2 :: vch1 :: stack)
  | .twoRot => do
    require (6 ≤ stack.length)
    let vch1 ← stacktop stack 6
    let vch2 ← stacktop stack 5
    let stack ← Access.eraseTop stack 6 4
    pure (vch2 :: vch1 :: stack)
  | .twoSwap => do
    require (4 ≤ stack.length)
    let stack ← Access.swapTop stack 4 2
    Access.swapTop stack 3 1
  | .ifDup => do
    require (1 ≤ stack.length)
    let vch ← stacktop stack 1
    if castToBool vch then pure (vch :: stack) else pure stack
  | .depth => pure (CBigNum.getvch stack.length :: stack)
  | .drop => do
    require (1 ≤ stack.length)
    popstack stack
  | .dup => do
    require (1 ≤ stack.length)
    let vch ← stacktop stack 1
    pure (vch :: stack)
  | .nip => do
    require (2 ≤ stack.length)
    Access.eraseTop stack 2 1
  | .over => do
    require (2 ≤ stack.length)
    let vch ← stacktop stack 2
    pure (vch :: stack)
  | .pick => accessPick false stack
  | .roll => accessPick true stack
  | .rot => do
    require (3 ≤ stack.length)
    let stack ← Access.swapTop stack 3 2
    Access.swapTop stack 2 1
  | .swap => do
    require (2 ≤ stack.length)
    Access.swapTop stack 2 1
  | .tuck => do
    require (2 ≤ stack.length)
    let vch ← stacktop stack 1
    Access.insertTop stack 2 vch
  | .size => do
    require (1 ≤ stack.length)
    let vch ← stacktop stack 1
    pure (CBigNum.getvch vch.length :: stack)
  | .equal => do
    require (2 ≤ stack.length)
    let vch1 ← stacktop stack 2
    let vch2 ← stacktop stack 1
    let stack ← popstack (← popstack stack)
    pure (vchBool (vch1 == vch2) :: stack)
  | .equalVerify => do
    require (2 ≤ stack.length)
    let vch1 ← stacktop stack 2
    let vch2 ← stacktop stack 1
    let stack ← popstack (← popstack stack)
    if vch1 == vch2 then popstack (vchBool (vch1 == vch2) :: stack) else returnFalse
  | .unary op => do
    require (1 ≤ stack.length)
    let bn ← bigNum (← stacktop stack 1)
    let stack ← popstack stack
    pure (CBigNum.getvch (op.apply bn) :: stack)
  | .binary op => do
    require (2 ≤ stack.length)
    let bn1 ← bigNum (← stacktop stack 2)
    let bn2 ← bigNum (← stacktop stack 1)
    let stack ← popstack (← popstack stack)
    let stack := CBigNum.getvch (op.apply bn1 bn2) :: stack
    if op = .numEqualVerify then
      if castToBool (← stacktop stack 1) then popstack stack else returnFalse
    else pure stack
  | .within => do
    require (3 ≤ stack.length)
    let bn1 ← bigNum (← stacktop stack 3)
    let bn2 ← bigNum (← stacktop stack 2)
    let bn3 ← bigNum (← stacktop stack 1)
    let stack ← popstack (← popstack (← popstack stack))
    pure (vchBool (bn2 ≤ bn1 && bn1 < bn3) :: stack)
  | .hash op => do
    require (1 ≤ stack.length)
    let vch ← stacktop stack 1
    let stack ← popstack stack
    pure (op.apply k vch :: stack)
  | _ => returnFalse

/-- `OP_IF` and `OP_NOTIF`. -/
def accessIf (fNot : Bool) (s : EvalState) : Eval EvalState := do
  if s.fExec then
    require (1 ≤ s.stack.length)
    let vch ← stacktop s.stack 1
    let fValue := if fNot then !castToBool vch else castToBool vch
    let stack ← popstack s.stack
    pure { s with stack := stack, vfExec := fValue :: s.vfExec }
  else pure { s with vfExec := false :: s.vfExec }

/-- One case of the switch. -/
def ScriptOp.access (k : ScriptCrypto) (op : ScriptOp) (pc : CScript) (s : EvalState) :
    Eval EvalState :=
  match op with
  | .nop => pure s
  | .if_ => accessIf false s
  | .notIf => accessIf true s
  | .else_ => do
    require (s.vfExec ≠ [])
    let fExec ← Access.top s.vfExec 1
    pure { s with vfExec := s.vfExec.set 0 (!fExec) }
  | .endIf => do
    require (s.vfExec ≠ [])
    let vfExec ← Access.pop s.vfExec
    pure { s with vfExec := vfExec }
  | .return_ => returnFalse
  | .toAltStack => do
    require (1 ≤ s.stack.length)
    let vch ← stacktop s.stack 1
    let stack ← popstack s.stack
    pure { s with stack := stack, altstack := vch :: s.altstack }
  | .fromAltStack => do
    require (1 ≤ s.altstack.length)
    let vch ← stacktop s.altstack 1
    let altstack ← popstack s.altstack
    pure { s with stack := vch :: s.stack, altstack := altstack }
  | .codeSeparator => pure { s with codeHash := pc }
  | op => do
    let stack ← op.accessStack k s.stack
    pure { s with stack := stack }

variable (ctx : SigContext)

/-- How the operations that check signatures end: the result is pushed, and, by the `VERIFY` ones,
popped again. -/
def accessPush (fVerify fSuccess : Bool) (s : EvalState) (stack : List Valtype) :
    Eval EvalState := do
  let stack := vchBool fSuccess :: stack
  if fVerify then
    if fSuccess then
      let stack ← popstack stack
      pure { s with stack := stack }
    else returnFalse
  else pure { s with stack := stack }

/-- `OP_CHECKSIG` and `OP_CHECKSIGVERIFY`. -/
def accessCheckSig (fVerify : Bool) (s : EvalState) : Eval EvalState := do
  require (2 ≤ s.stack.length)
  let vchSig ← stacktop s.stack 2
  let vchPubKey ← stacktop s.stack 1
  let scriptCode := findAndDelete s.codeHash (pushData vchSig)
  let fCheckSig := checkSig ctx vchSig vchPubKey scriptCode
  let fSuccess := isCanonicalSignature vchSig && isCanonicalPubKey vchPubKey && fCheckSig
  let stack ← popstack (← popstack s.stack)
  accessPush fVerify fSuccess s stack

/-- The loop that drops `n` signatures, from position `isig` on, from the script. -/
def accessDropSigs (stack : List Valtype) : Nat → Nat → CScript → Eval CScript
  | _, 0, scriptCode => pure scriptCode
  | isig, n + 1, scriptCode => do
    let vchSig ← stacktop stack isig
    accessDropSigs stack (isig + 1) n (findAndDelete scriptCode (pushData vchSig))

/-- The loop over the keys and signatures. `nKeysCount` is an `int` of the source, and nothing but
the last test keeps it from running below zero. -/
def accessMultiSigLoop (stack : List Valtype) (scriptCode : CScript)
    (isig ikey nSigsCount : Nat) (nKeysCount : Int) : Eval Bool :=
  if nSigsCount = 0 then pure true
  else do
    let vchSig ← stacktop stack isig
    let vchPubKey ← stacktop stack ikey
    let fOk := isCanonicalSignature vchSig && isCanonicalPubKey vchPubKey &&
      checkSig ctx vchSig vchPubKey scriptCode
    let isig' := if fOk then isig + 1 else isig
    let nSigsCount' := if fOk then nSigsCount - 1 else nSigsCount
    if nKeysCount - 1 < nSigsCount' then pure false
    else accessMultiSigLoop stack scriptCode isig' (ikey + 1) nSigsCount' (nKeysCount - 1)
termination_by nKeysCount.toNat
decreasing_by omega

/-- The second part of `OP_CHECKMULTISIG`, with the keys from position 2 on, the signatures from
`isig` on and `i` arguments in all. -/
def accessMultiSigs (fVerify : Bool) (nKeysCount nSigsCount : Int) (isig i : Nat) (s : EvalState) :
    Eval EvalState := do
  let ikey := 2
  let scriptCode ← accessDropSigs s.stack isig nSigsCount.toNat s.codeHash
  let fSuccess ← accessMultiSigLoop ctx s.stack scriptCode isig ikey nSigsCount.toNat nKeysCount
  let stack ← Access.popMany i s.stack
  accessPush fVerify fSuccess s stack

/-- `OP_CHECKMULTISIG` and `OP_CHECKMULTISIGVERIFY`; the position `i` runs over the arguments. -/
def accessCheckMultiSig (fVerify : Bool) (s : EvalState) : Eval EvalState := do
  require (1 ≤ s.stack.length)
  let nKeysCount ← bigNum (← stacktop s.stack 1)
  require (¬(nKeysCount < 0 ∨ 20 < nKeysCount))
  let nOpCount := s.nOpCount + nKeysCount.toNat
  require (¬201 < nOpCount)
  let i := 2 + nKeysCount.toNat
  require (i ≤ s.stack.length)
  let nSigsCount ← bigNum (← stacktop s.stack i)
  require (¬(nSigsCount < 0 ∨ nKeysCount < nSigsCount))
  let isig := i + 1
  let i := isig + nSigsCount.toNat
  require (i ≤ s.stack.length)
  accessMultiSigs ctx fVerify nKeysCount nSigsCount isig i { s with nOpCount := nOpCount }

/-! ## Whole scripts -/

/-- The switch of `EvalScript`. -/
def accessSwitch (opcode : Nat) (pc : CScript) (s : EvalState) : Eval EvalState :=
  if opcode = OP_CHECKSIG ∨ opcode = OP_CHECKSIGVERIFY then
    accessCheckSig ctx (opcode == OP_CHECKSIGVERIFY) s
  else if opcode = OP_CHECKMULTISIG ∨ opcode = OP_CHECKMULTISIGVERIFY then
    accessCheckMultiSig ctx (opcode == OP_CHECKMULTISIGVERIFY) s
  else
    match ScriptOp.ofOpcode opcode with
    | none => returnFalse
    | some op => op.access ctx.crypto pc s

/-- What a round does with an operation it has read and admitted. -/
def accessOp (opcode : Nat) (vchPushValue : Valtype) (pc : CScript) (s : EvalState) :
    Eval EvalState :=
  if s.fExec ∧ opcode ≤ OP_PUSHDATA4 then pure { s with stack := vchPushValue :: s.stack }
  else if s.fExec ∨ OP_IF ≤ opcode ∧ opcode ≤ OP_ENDIF then accessSwitch ctx opcode pc s
  else pure s

/-- A round of the loop of `EvalScript`, the operation read. -/
def accessRound (opcode : Nat) (vchPushValue : Valtype) (pc : CScript) (s : EvalState) :
    Eval EvalState := do
  require (¬520 < vchPushValue.length)
  let s := s.countOp opcode
  require (¬(OP_16 < opcode ∧ 201 < s.nOpCount))
  require (¬isDisabled opcode)
  let s ← accessOp ctx opcode vchPushValue pc s
  require (¬1000 < s.stack.length + s.altstack.length)
  pure s

/-- The loop of `EvalScript` from `pc` on. -/
def accessFrom (pc : CScript) (s : EvalState) : Eval EvalState :=
  if pc = [] then pure s
  else
    match _ : getOp2 pc with
    | none => returnFalse
    | some (opcode, vchPushValue, pc') => do
      let s' ← accessRound ctx opcode vchPushValue pc' s
      accessFrom pc' s'
termination_by pc.length
decreasing_by exact getOp2_length_lt ‹_›

/-- `EvalScript`, with all it leaves behind. -/
def accessScript (stack : List Valtype) (script : CScript) : Eval EvalState := do
  require (¬10000 < script.length)
  let s ← accessFrom ctx script (.start stack script)
  require (s.vfExec = [])
  pure s

/-- The tests of `VerifyScript` on a stack it is left with: `stack.empty()`, then
`CastToBool(stack.back())`. -/
def accessLeavesTrue (stack : List Valtype) : Eval Unit := do
  require (stack ≠ [])
  let back ← Access.top stack 1
  require (castToBool back)

/-- The part of `VerifyScript` after both scripts are evaluated, for spend-to-script-hash
outputs: `stackCopy.back()` is read without a test. -/
def accessRedeem (scriptSig : CScript) (stackCopy : List Valtype) : Eval Unit := do
  require (isPushOnly scriptSig)
  let pubKeySerialized ← Access.top stackCopy 1
  let stackCopy ← popstack stackCopy
  let s ← accessScript ctx stackCopy pubKeySerialized
  accessLeavesTrue s.stack

/-- `VerifyScript`. -/
def accessVerify (scriptSig scriptPubKey : CScript) : Eval Unit := do
  let s ← accessScript ctx [] scriptSig
  let stackCopy := s.stack
  let s ← accessScript ctx s.stack scriptPubKey
  accessLeavesTrue s.stack
  if isPayToScriptHash scriptPubKey then accessRedeem ctx scriptSig stackCopy

/-! ## The cases stay within the stack -/

section Cases

variable (k : ScriptCrypto)

theorem exact_bigNum (vch : Valtype) : Exact (bigNum vch) (castToBigNum vch) :=
  .ofOption _ _

theorem exact_accessPick (fRoll : Bool) (n x : Valtype) (stack : List Valtype) :
    Exact (accessPick fRoll (n :: x :: stack))
      ((castToBigNum n).bind fun n => pickAt fRoll n (x :: stack)) := by
  change Exact (bigNum n >>= _) _
  refine (exact_bigNum n).bind fun n _ => ?_
  change Exact (Access.require _ _ >>= _) _
  refine .require (fun hn => ?_) fun hn => ?_
  · -- the element is there, and so is what `erase` takes out
    have hlt : n.toNat < (x :: stack).length := by omega
    have hget := List.getElem?_eq_getElem hlt
    have hpick : pickAt fRoll n (x :: stack) = some ((x :: stack)[n.toNat] ::
        if fRoll then (x :: stack).eraseIdx n.toNat else x :: stack) := by
      unfold pickAt
      rw [if_neg (by omega), hget]
    rw [hpick]
    refine .top hget ?_
    cases fRoll with
    | false => exact rfl
    | true =>
      have herase : (Access.eraseTop (x :: stack) (n.toNat + 1) n.toNat : Eval _) =
          .ok ((x :: stack).eraseIdx n.toNat) := by
        unfold Access.eraseTop
        rw [if_pos ⟨Nat.le_succ _, hlt⟩, List.eraseIdx_eq_take_drop_succ]
        rfl
      change Exact (Access.eraseTop _ _ _ >>= _) _
      rw [herase]
      exact rfl
  · unfold pickAt
    by_cases hneg : n < 0
    · exact if_pos hneg
    · rw [if_neg hneg, List.getElem?_eq_none (by omega)]

theorem exact_accessStack_binary (op : BinaryOp) (vch2 vch1 : Valtype) (stack : List Valtype) :
    Exact (ScriptOp.accessStack k (.binary op) (vch2 :: vch1 :: stack))
      (ScriptOp.execStack k (.binary op) (vch2 :: vch1 :: stack)) := by
  change Exact (bigNum vch1 >>= _) (Option.bind _ _)
  refine (exact_bigNum vch1).bind fun bn1 _ => ?_
  refine (exact_bigNum vch2).bind fun bn2 _ => ?_
  change Exact (if op = .numEqualVerify then (if _ then _ else _) else _) _
  dsimp only
  split_ifs <;> exact rfl

theorem exact_accessStack_within (vch3 vch2 vch1 : Valtype) (stack : List Valtype) :
    Exact (ScriptOp.accessStack k .within (vch3 :: vch2 :: vch1 :: stack))
      (ScriptOp.execStack k .within (vch3 :: vch2 :: vch1 :: stack)) := by
  change Exact (bigNum vch1 >>= _) (Option.bind _ _)
  refine (exact_bigNum vch1).bind fun bn1 _ => ?_
  refine (exact_bigNum vch2).bind fun bn2 _ => ?_
  refine (exact_bigNum vch3).bind fun bn3 _ => ?_
  exact rfl

/-- The cases that read and change the stack stay within it: each looks at no more elements than
its size check asks for. -/
theorem ScriptOp.exact_accessStack (op : ScriptOp) (stack : List Valtype) :
    Exact (op.accessStack k stack) (op.execStack k stack) := by
  cases op
  case verify =>
    rcases stack with _ | ⟨vch, stack⟩
    · exact rfl
    · change Exact (if castToBool vch then _ else _) (if castToBool vch then _ else _)
      split_ifs <;> exact rfl
  case ifDup =>
    rcases stack with _ | ⟨vch, stack⟩
    · exact rfl
    · change Exact (if castToBool vch then _ else _) (some (if castToBool vch then _ else _))
      split_ifs <;> exact rfl
  case equalVerify =>
    rcases stack with _ | ⟨vch2, _ | ⟨vch1, stack⟩⟩
    · exact rfl
    · exact rfl
    · change Exact (if vch1 == vch2 then _ else _) (if vch1 == vch2 then _ else _)
      split_ifs <;> exact rfl
  case pick =>
    rcases stack with _ | ⟨n, _ | ⟨x, stack⟩⟩
    · exact rfl
    · exact rfl
    · exact exact_accessPick false n x stack
  case roll =>
    rcases stack with _ | ⟨n, _ | ⟨x, stack⟩⟩
    · exact rfl
    · exact rfl
    · exact exact_accessPick true n x stack
  case unary op =>
    rcases stack with _ | ⟨vch, stack⟩
    · exact rfl
    · change Exact (bigNum vch >>= _) (Option.map _ _)
      rw [Option.map_eq_bind]
      exact (exact_bigNum vch).bind fun bn _ => rfl
  case binary op =>
    rcases stack with _ | ⟨vch2, _ | ⟨vch1, stack⟩⟩
    · exact rfl
    · exact rfl
    · exact exact_accessStack_binary k op vch2 vch1 stack
  case within =>
    rcases stack with _ | ⟨vch3, _ | ⟨vch2, _ | ⟨vch1, stack⟩⟩⟩
    · exact rfl
    · exact rfl
    · exact rfl
    · exact exact_accessStack_within k vch3 vch2 vch1 stack
  case twoRot =>
    -- the one that looks deeper than four elements
    rcases stack with _ | ⟨x6, _ | ⟨x5, _ | ⟨x4, _ | ⟨x3, _ | ⟨vch2, _ | ⟨vch1, stack⟩⟩⟩⟩⟩⟩ <;>
      exact rfl
  all_goals rcases stack with _ | ⟨x4, _ | ⟨x3, _ | ⟨x2, _ | ⟨x1, stack⟩⟩⟩⟩ <;> exact rfl

theorem exact_accessIf (fNot : Bool) (s : EvalState) :
    Exact (accessIf fNot s) (execIf fNot s) := by
  unfold accessIf execIf
  by_cases hexec : s.fExec
  · rw [if_pos hexec, if_pos hexec]
    rcases s with ⟨_ | ⟨vch, stack⟩, altstack, vfExec, nOpCount, codeHash⟩
    · exact rfl
    · have hvalue : (castToBool vch != fNot) = if fNot then !castToBool vch else castToBool vch := by
        cases fNot
        · exact Bool.bne_false _
        · exact Bool.bne_true _
      dsimp only
      rw [hvalue]
      exact rfl
  · rw [if_neg hexec, if_neg hexec]
    exact rfl

theorem ScriptOp.exact_access (op : ScriptOp) (pc : CScript) (s : EvalState) :
    Exact (op.access k pc s) (op.exec k pc s) := by
  have hstack : Exact (op.accessStack k s.stack >>= fun stack => pure { s with stack := stack })
      ((op.execStack k s.stack).map fun stack => { s with stack := stack }) := by
    rw [Option.map_eq_bind]
    exact (op.exact_accessStack k s.stack).bind fun _ _ => rfl
  rcases s with ⟨stack, altstack, vfExec, nOpCount, codeHash⟩
  cases op
  case nop => exact rfl
  case if_ => exact exact_accessIf false _
  case notIf => exact exact_accessIf true _
  case else_ => cases vfExec <;> exact rfl
  case endIf => cases vfExec <;> exact rfl
  case return_ => exact rfl
  case toAltStack => cases stack <;> exact rfl
  case fromAltStack => cases altstack <;> exact rfl
  case codeSeparator => exact rfl
  all_goals exact hstack

end Cases

section Signatures

variable {ctx}

theorem exact_accessPush (fVerify fSuccess : Bool) (s : EvalState) (stack : List Valtype) :
    Exact (accessPush fVerify fSuccess s stack)
      (pushSuccess fVerify fSuccess { s with stack := stack }).result := by
  cases fVerify <;> cases fSuccess <;> exact rfl

theorem exact_accessCheckSig (ctx : SigContext) (fVerify : Bool) (s : EvalState) :
    Exact (accessCheckSig ctx fVerify s) (evalCheckSig ctx fVerify s).result := by
  rcases s with ⟨_ | ⟨vchPubKey, _ | ⟨vchSig, stack⟩⟩, altstack, vfExec, nOpCount, codeHash⟩
  · exact rfl
  · exact rfl
  · exact exact_accessPush _ _ _ _

/-- The signatures that are dropped from the script are those above `isig + n`. -/
theorem exact_accessDropSigs {stack : List Valtype} {n isig : Nat} (h : isig + n ≤ stack.length)
    (scriptCode : CScript) : Exact (accessDropSigs stack (isig + 1) n scriptCode)
      (some (((stack.drop isig).take n).foldl
        (fun code sig => findAndDelete code (pushData sig)) scriptCode)) := by
  induction n generalizing isig scriptCode with
  | zero => exact rfl
  | succ n ih =>
    have hlt : isig < stack.length := by omega
    rw [List.drop_eq_getElem_cons hlt, List.take_succ_cons, List.foldl_cons]
    exact .top (List.getElem?_eq_getElem hlt) (ih (by omega) _)

theorem result_checkCanonicalSig (ctx : SigContext) (vchSig vchPubKey : Valtype)
    (scriptCode : CScript) : (checkCanonicalSig ctx vchSig vchPubKey scriptCode).result =
      some (isCanonicalSignature vchSig && isCanonicalPubKey vchPubKey &&
        checkSig ctx vchSig vchPubKey scriptCode) := by
  unfold checkCanonicalSig
  cases isCanonicalSignature vchSig && isCanonicalPubKey vchPubKey <;> rfl

/-- The loop of `OP_CHECKMULTISIG` stays within its arguments: there are never more signatures left
than keys, so that a key is read only while there is one. -/
theorem exact_accessMultiSigLoop (ctx : SigContext) {stack : List Valtype} (scriptCode : CScript)
    {isig ikey nSigs nKeys : Nat} (hsigs : isig + nSigs ≤ stack.length)
    (hkeys : ikey + nKeys ≤ stack.length) (hle : nSigs ≤ nKeys) :
    Exact (accessMultiSigLoop ctx stack scriptCode (isig + 1) (ikey + 1) nSigs nKeys)
      (checkMultiSigLoop ctx scriptCode ((stack.drop ikey).take nKeys)
        ((stack.drop isig).take nSigs)).result := by
  induction nKeys generalizing isig ikey nSigs with
  | zero =>
    obtain rfl : nSigs = 0 := Nat.le_zero.mp hle
    rw [accessMultiSigLoop]
    exact rfl
  | succ nKeys ih =>
    rw [accessMultiSigLoop]
    cases nSigs with
    | zero => 
      rw [List.take_zero]
      cases (stack.drop ikey).take (nKeys + 1) <;> exact rfl
    | succ nSigs =>
      -- with one key used up, what follows depends on the signatures left
      have hnext (isig' nSigs' : Nat) (hsigs' : isig' + nSigs' ≤ stack.length) :
          Exact (if (nKeys : Int) < nSigs' then pure false
            else accessMultiSigLoop ctx stack scriptCode (isig' + 1) (ikey + 1 + 1) nSigs' nKeys)
          (if ((stack.drop (ikey + 1)).take nKeys).length < ((stack.drop isig').take nSigs').length
            then pure false
            else checkMultiSigLoop ctx scriptCode ((stack.drop (ikey + 1)).take nKeys)
              ((stack.drop isig').take nSigs')).result := by
        have hkeysLeft : ((stack.drop (ikey + 1)).take nKeys).length = nKeys := by
          rw [List.length_take, List.length_drop]
          omega
        have hsigsLeft : ((stack.drop isig').take nSigs').length = nSigs' := by
          rw [List.length_take, List.length_drop]
          omega
        rw [hkeysLeft, hsigsLeft]
        by_cases hmore : nKeys < nSigs'
        · rw [if_pos hmore, if_pos (Int.ofNat_lt.mpr hmore)]
          exact rfl
        · rw [if_neg hmore, if_neg (mt Int.ofNat_lt.mp hmore)]
          exact ih hsigs' (by omega) (Nat.le_of_not_lt hmore)
      have hisig : isig < stack.length := by omega
      have hikey : ikey < stack.length := by omega
      have hkey : ((nKeys + 1 : Nat) : Int) - 1 = nKeys := by omega
      rw [if_neg (Nat.succ_ne_zero _), hkey, List.drop_eq_getElem_cons hisig,
        List.drop_eq_getElem_cons hikey, List.take_succ_cons, List.take_succ_cons,
        checkMultiSigLoop]
      refine .top (List.getElem?_eq_getElem hisig) (.top (List.getElem?_eq_getElem hikey) ?_)
      rw [Counted.result_bind, result_checkCanonicalSig]
      generalize (isCanonicalSignature stack[isig] && isCanonicalPubKey stack[ikey] &&
        checkSig ctx stack[isig] stack[ikey] scriptCode) = fOk
      cases fOk with
      | true => exact hnext (isig + 1) nSigs (by omega)
      | false =>
        have hsame := hnext isig (nSigs + 1) hsigs
        rw [List.drop_eq_getElem_cons hisig, List.take_succ_cons] at hsame
        exact hsame

/-- What `OP_CHECKMULTISIG` does with its arguments, all of which the stack has. -/
theorem exact_accessMultiSigs (ctx : SigContext) (fVerify : Bool) {nKeys nSigs : Nat}
    {s : EvalState} (hlen : 3 + nKeys + nSigs ≤ s.stack.length) (hle : nSigs ≤ nKeys) :
    Exact (accessMultiSigs ctx fVerify nKeys nSigs (3 + nKeys) (3 + nKeys + nSigs) s)
      (checkMultiSigLoop ctx (((s.stack.drop (2 + nKeys)).take nSigs).foldl
          (fun code sig => findAndDelete code (pushData sig)) s.codeHash)
        ((s.stack.drop 1).take nKeys) ((s.stack.drop (2 + nKeys)).take nSigs) >>= fun fSuccess =>
          pushSuccess fVerify fSuccess
            { s with stack := s.stack.drop (3 + nKeys + nSigs) }).result := by
  have hisig : 3 + nKeys = 2 + nKeys + 1 := by omega
  unfold accessMultiSigs
  rw [Int.toNat_natCast, popMany_eq hlen, hisig, Counted.result_bind]
  refine (exact_accessDropSigs (by omega) _).bind_some ?_
  refine (exact_accessMultiSigLoop ctx _ (by omega) (by omega) hle).bind fun fSuccess _ => ?_
  exact exact_accessPush fVerify fSuccess s _

/-- `OP_CHECKMULTISIG` reads and pops its arguments only, which the size checks have counted. -/
theorem exact_accessCheckMultiSig (ctx : SigContext) (fVerify : Bool) (s : EvalState) :
    Exact (accessCheckMultiSig ctx fVerify s) (evalCheckMultiSig ctx fVerify s).result := by
  have hargs : (evalCheckMultiSig ctx fVerify s).result =
      (multiSigArgs s.stack s.nOpCount).bind fun args =>
        (checkMultiSigLoop ctx (args.sigs.foldl
          (fun code sig => findAndDelete code (pushData sig)) s.codeHash) args.keys args.sigs
          >>= fun fSuccess => pushSuccess fVerify fSuccess
            { s with stack := args.stack, nOpCount := args.nOpCount }).result := by
    unfold evalCheckMultiSig
    cases multiSigArgs s.stack s.nOpCount <;> rfl
  rw [hargs]
  rcases s with ⟨_ | ⟨vch, stack⟩, altstack, vfExec, nOpCount, codeHash⟩
  · exact rfl
  unfold multiSigArgs
  simp only [Option.bind_eq_bind, Option.bind_assoc, List.head?_cons, Option.bind_some]
  change Exact (bigNum vch >>= _) _
  refine (exact_bigNum vch).bind fun nKeysCount _ => ?_
  refine .require_guard (by omega) fun hkeys => ?_
  refine .require_guard Nat.not_lt fun hops => ?_
  -- the number of signatures is there just when the second size check passes
  refine .require (fun hi => ?_) fun hi => ?_
  · have hlt : 1 + nKeysCount.toNat < (vch :: stack).length := by
      dsimp only at hi
      omega
    have hget := List.getElem?_eq_getElem hlt
    rw [hget, Option.bind_some, show 2 + nKeysCount.toNat = 1 + nKeysCount.toNat + 1 by omega]
    refine .top hget ?_
    refine (exact_bigNum _).bind fun nSigsCount _ => ?_
    refine .require_guard (by omega) fun hsigs => ?_
    refine .require_guard (by dsimp only; omega) fun hlen => ?_
    obtain ⟨nKeys, rfl⟩ := Int.eq_ofNat_of_zero_le hkeys.1
    obtain ⟨nSigs, rfl⟩ := Int.eq_ofNat_of_zero_le hsigs.1
    rw [show 1 + (nKeys : Int).toNat + 1 = 2 + nKeys by omega,
      show 2 + nKeys + 1 = 3 + nKeys by omega]
    exact exact_accessMultiSigs ctx fVerify
      (s := ⟨vch :: stack, altstack, vfExec, nOpCount + nKeys, codeHash⟩) hlen
      (Int.ofNat_le.mp hsigs.2)
  · have hnone : (vch :: stack)[1 + nKeysCount.toNat]? = none :=
      List.getElem?_eq_none (by dsimp only at hi; omega)
    rw [hnone]
    rfl

end Signatures

/-! ## Whole evaluations stay within the stacks -/

section Runs

variable (ctx : SigContext)

theorem exact_accessSwitch (opcode : Nat) (pc : CScript) (s : EvalState) :
    Exact (accessSwitch ctx opcode pc s) (evalSwitch ctx opcode pc s).result := by
  unfold accessSwitch evalSwitch
  split_ifs
  · exact exact_accessCheckSig ctx _ s
  · exact exact_accessCheckMultiSig ctx _ s
  · rw [Counted.result_ofOption]
    cases ScriptOp.ofOpcode opcode with
    | none => exact rfl
    | some op => exact op.exact_access ctx.crypto pc s

theorem exact_accessOp (opcode : Nat) (vchPushValue : Valtype) (pc : CScript) (s : EvalState) :
    Exact (accessOp ctx opcode vchPushValue pc s) (evalOp ctx opcode vchPushValue pc s).result := by
  unfold accessOp evalOp
  split_ifs
  · exact rfl
  · exact exact_accessSwitch ctx opcode pc s
  · exact rfl

theorem exact_sizeLimit (s : EvalState) :
    Exact (Eval.require (¬1000 < s.stack.length + s.altstack.length) >>= fun _ => pure s)
      (if 1000 < s.stack.length + s.altstack.length then .fail else pure s : Counted _).result := by
  refine .require (fun hsize => ?_) fun hsize => ?_
  · rw [if_neg hsize]
    exact rfl
  · rw [if_pos (not_not.mp hsize)]
    rfl

theorem exact_accessRound (opcode : Nat) (vchPushValue : Valtype) (pc : CScript) (s : EvalState) :
    Exact (accessRound ctx opcode vchPushValue pc s)
      (evalRound ctx opcode vchPushValue pc s).result := by
  unfold accessRound evalRound
  refine .require (fun hlen => ?_) fun hlen => ?_
  · rw [if_neg hlen]
    refine .require (fun hcount => ?_) fun hcount => ?_
    · rw [if_neg hcount]
      refine .require (fun hdisabled => ?_) fun hdisabled => ?_
      · rw [if_neg hdisabled, Counted.result_bind]
        refine (exact_accessOp ctx opcode vchPushValue pc _).bind fun s' _ => ?_
        exact exact_sizeLimit s'
      · rw [if_pos (not_not.mp hdisabled)]
        rfl
    · rw [if_pos (not_not.mp hcount)]
      rfl
  · rw [if_pos (not_not.mp hlen)]
    rfl

variable {pc pc' : CScript} {opcode : Nat} {vchPushValue : Valtype}

theorem evalFrom_of_getOp2 (h : getOp2 pc = some (opcode, vchPushValue, pc')) (s : EvalState) :
    evalFrom ctx pc s = evalRound ctx opcode vchPushValue pc' s >>= evalFrom ctx pc' := by
  have hne : pc ≠ [] := by
    rintro rfl
    cases h
  rw [evalFrom, if_neg hne]
  split
  · next hnone => cases hnone.symm.trans h
  · next hsome =>
    cases hsome.symm.trans h
    rfl

theorem accessFrom_of_getOp2 (h : getOp2 pc = some (opcode, vchPushValue, pc')) (s : EvalState) :
    accessFrom ctx pc s = accessRound ctx opcode vchPushValue pc' s >>= accessFrom ctx pc' := by
  have hne : pc ≠ [] := by
    rintro rfl
    cases h
  rw [accessFrom, if_neg hne]
  split
  · next hnone => cases hnone.symm.trans h
  · next hsome =>
    cases hsome.symm.trans h
    rfl

/-- Where an operation cannot be read, both give up. -/
theorem exact_accessFrom_none (hne : pc ≠ []) (h : getOp2 pc = none) (s : EvalState) :
    Exact (accessFrom ctx pc s) (evalFrom ctx pc s).result := by
  have haccess : accessFrom ctx pc s = returnFalse := by
    rw [accessFrom, if_neg hne]
    split
    · rfl
    · next hsome => cases h.symm.trans hsome
  have heval : evalFrom ctx pc s = .fail := by
    rw [evalFrom, if_neg hne]
    split
    · rfl
    · next hsome => cases h.symm.trans hsome
  rw [haccess, heval]
  exact rfl

/-- The loop of `EvalScript` stays within the stacks, whatever it starts from. -/
theorem exact_accessFrom (pc : CScript) (s : EvalState) :
    Exact (accessFrom ctx pc s) (evalFrom ctx pc s).result := by
  induction hn : pc.length using Nat.strong_induction_on generalizing pc s with
  | _ n ih =>
    subst hn
    by_cases hne : pc = []
    · rw [accessFrom, evalFrom, if_pos hne, if_pos hne]
      exact rfl
    · cases hop : getOp2 pc with
      | none => exact exact_accessFrom_none ctx hne hop s
      | some op =>
        obtain ⟨opcode, vchPushValue, pc'⟩ := op
        rw [accessFrom_of_getOp2 ctx hop, evalFrom_of_getOp2 ctx hop, Counted.result_bind]
        refine (exact_accessRound ctx opcode vchPushValue pc' s).bind fun s' _ => ?_
        exact ih _ (getOp2_length_lt hop) pc' s' rfl

/-- What `EvalScript` ends with where it returns true. -/
def finalState (stack : List Valtype) (script : CScript) : Option EvalState :=
  if 10000 < script.length then none
  else (evalFrom ctx script (.start stack script)).result.filter fun s => s.vfExec = []

theorem evalScript_eq_finalState (stack : List Valtype) (script : CScript) :
    (evalScript ctx stack script).result = (finalState ctx stack script).map EvalState.stack := by
  unfold evalScript finalState
  split_ifs
  · rfl
  · rw [Counted.result_bind]
    cases (evalFrom ctx script (.start stack script)).result with
    | none => rfl
    | some s =>
      rw [Option.bind_some, Option.filter_some]
      simp only [decide_eq_true_eq]
      split_ifs <;> rfl

/-- `EvalScript` stays within its stacks. -/
theorem exact_accessScript (stack : List Valtype) (script : CScript) :
    Exact (accessScript ctx stack script) (finalState ctx stack script) := by
  unfold accessScript finalState
  refine .require (fun hlen => ?_) fun hlen => ?_
  · rw [if_neg hlen]
    have hfilter (o : Option EvalState) : o.filter (fun s => s.vfExec = []) =
        o.bind fun s => if s.vfExec = [] then some s else none := by
      cases o with
      | none => rfl
      | some s => simp [Option.filter_some]
    rw [hfilter]
    refine (exact_accessFrom ctx script _).bind fun s _ => ?_
    refine .require (fun hclosed => ?_) fun hopen => ?_
    · rw [if_pos hclosed]
      exact rfl
    · exact if_neg hopen
  · exact if_pos (not_not.mp hlen)

/-- A verdict: it is granted or not. -/
def granted : Bool → Option Unit
  | true => some ()
  | false => none

theorem exact_accessLeavesTrue (stack : List Valtype) :
    Exact (accessLeavesTrue stack) (granted (leavesTrue (some stack))) := by
  rcases stack with _ | ⟨vch, stack⟩
  · exact rfl
  · change Exact (if castToBool vch then _ else _) (granted (castToBool vch))
    cases castToBool vch <;> exact rfl

theorem granted_leavesTrue (stack : List Valtype) (script : CScript) :
    granted (leavesTrue (evalScript ctx stack script).result) =
      (finalState ctx stack script).bind fun s => granted (leavesTrue (some s.stack)) := by
  rw [evalScript_eq_finalState]
  cases finalState ctx stack script <;> rfl

/-- Spend-to-script-hash outputs start by reading the top of the stack, so that nothing is left of
an empty one. -/
theorem finalState_of_isPayToScriptHash {scriptPubKey : CScript}
    (h : isPayToScriptHash scriptPubKey) : finalState ctx [] scriptPubKey = none := by
  unfold isPayToScriptHash at h
  simp only [Bool.and_eq_true, beq_iff_eq] at h
  obtain ⟨⟨⟨hlen, hop⟩, -⟩, -⟩ := h
  rcases scriptPubKey with _ | ⟨byte, pc⟩
  · cases hlen
  obtain rfl : byte = UInt8.ofNat OP_HASH160 := Option.some.inj hop
  have hop : getOp2 (UInt8.ofNat OP_HASH160 :: pc) = some (OP_HASH160, [], pc) := rfl
  unfold finalState
  rw [evalFrom_of_getOp2 ctx hop, Counted.result_bind]
  split_ifs <;> rfl

theorem exact_accessRedeem (scriptSig : CScript) {stackCopy : List Valtype} (h : stackCopy ≠ []) :
    Exact (accessRedeem ctx scriptSig stackCopy) (granted (evalRedeem ctx scriptSig stackCopy).2) := by
  rcases stackCopy with _ | ⟨pubKeySerialized, stackCopy⟩
  · exact absurd rfl h
  unfold accessRedeem evalRedeem
  refine .require (fun hpush => ?_) fun hpush => ?_
  · rw [if_pos hpush]
    change Exact (accessScript ctx stackCopy pubKeySerialized >>= _)
      (granted (leavesTrue (evalScript ctx stackCopy pubKeySerialized).result))
    rw [granted_leavesTrue]
    exact (exact_accessScript ctx _ _).bind fun s _ => exact_accessLeavesTrue s.stack
  · rw [if_neg hpush]
    rfl

/-- The verdict of `VerifyScript`, one script after the other. -/
theorem granted_verdict (scriptSig scriptPubKey : CScript) :
    granted (verifyScript ctx scriptSig scriptPubKey).verdict =
      (finalState ctx [] scriptSig).bind fun s =>
        (finalState ctx s.stack scriptPubKey).bind fun s' =>
          (granted (leavesTrue (some s'.stack))).bind fun _ =>
            if isPayToScriptHash scriptPubKey then granted (evalRedeem ctx scriptSig s.stack).2
            else some () := by
  unfold verifyScript
  simp only [evalScript_eq_finalState]
  cases finalState ctx [] scriptSig with
  | none => rfl
  | some s =>
    simp only [Option.map_some, Option.bind_some]
    cases finalState ctx s.stack scriptPubKey with
    | none => rfl
    | some s' =>
      simp only [Option.map_some, Option.bind_some]
      by_cases htrue : leavesTrue (some s'.stack)
      · rw [if_pos htrue, htrue]
        split_ifs <;> rfl
      · rw [if_neg htrue, Bool.eq_false_of_not_eq_true htrue]
        rfl

/-- `VerifyScript` stays within the stacks it looks at, the saved one too. -/
theorem exact_accessVerify (scriptSig scriptPubKey : CScript) :
    Exact (accessVerify ctx scriptSig scriptPubKey)
      (granted (verifyScript ctx scriptSig scriptPubKey).verdict) := by
  rw [granted_verdict]
  refine (exact_accessScript ctx [] scriptSig).bind fun s _ => ?_
  refine (exact_accessScript ctx s.stack scriptPubKey).bind fun s' hs' => ?_
  refine (exact_accessLeavesTrue s'.stack).bind fun _ _ => ?_
  split_ifs with hp2sh
  · -- from an empty saved stack the output could not have been evaluated
    refine exact_accessRedeem ctx scriptSig fun hnil => ?_
    rw [hnil, finalState_of_isPayToScriptHash ctx hp2sh] at hs'
    cases hs'
  · exact rfl

end Runs

end MotaCoin
