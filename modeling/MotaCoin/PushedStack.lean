import MotaCoin.EvalLimits
import MotaCoin.PushCodec

/-!
# Stacks and the scripts that push them

`PushAll` writes the script that pushes a given stack. Evaluating it gives the stack back, within
the limits of `EvalScript`, and does not depend on a transaction. `EvalScript` works on the
caller's stack: where it fails, this is left as it was at that moment.

## Main definitions

* `pushAll`: `PushAll`
* `stackLeft`: the stack that `EvalScript` leaves, also where it fails

## Main results

* `stackLeft_of_evalScript`: where it does not fail, this is the result
* `evalScript_pushAll`: the script of a stack pushes this stack
* `evalScript_of_isPushOnly`: a script of pushes does the same in every context
-/

namespace MotaCoin

open Wire

/-- `PushAll`; the stack has its top in front. -/
def pushAll (values : List Valtype) : CScript := values.reverse.flatMap pushData

/-! ## What is left where EvalScript fails -/

/-- The stack that a failing case of the switch leaves: some take their operands first. -/
def ScriptOp.stackLeft : ScriptOp → List Valtype → List Valtype
  | .equalVerify, _ :: _ :: stack => vchBool false :: stack
  | .binary .numEqualVerify, vch2 :: vch1 :: stack =>
    -- a number that is too long throws before anything is popped
    if (castToBigNum vch1).isSome && (castToBigNum vch2).isSome then CBigNum.getvch 0 :: stack
    else vch2 :: vch1 :: stack
  | .pick, n :: x :: stack => if (castToBigNum n).isSome then x :: stack else n :: x :: stack
  | .roll, n :: x :: stack => if (castToBigNum n).isSome then x :: stack else n :: x :: stack
  | _, stack => stack

section Left

variable (ctx : SigContext)

/-- The same for the whole switch. -/
def switchStackLeft (opcode : Nat) (s : EvalState) : List Valtype :=
  if opcode = OP_CHECKSIG ∨ opcode = OP_CHECKSIGVERIFY then
    match s.stack with
    | _ :: _ :: stack => vchBool false :: stack
    | stack => stack
  else if opcode = OP_CHECKMULTISIG ∨ opcode = OP_CHECKMULTISIGVERIFY then
    match multiSigArgs s.stack s.nOpCount with
    | none => s.stack
    | some args => vchBool false :: args.stack
  else
    match ScriptOp.ofOpcode opcode with
    | none => s.stack
    | some op => op.stackLeft s.stack

/-- The same for a round of the loop. -/
def roundStackLeft (opcode : Nat) (vchPushValue : Valtype) (pc : CScript) (s : EvalState) :
    List Valtype :=
  if 520 < vchPushValue.length then s.stack
  else if OP_16 < opcode ∧ 201 < (s.countOp opcode).nOpCount then s.stack
  else if isDisabled opcode then s.stack
  else
    match (evalOp ctx opcode vchPushValue pc (s.countOp opcode)).result with
    | none => switchStackLeft opcode (s.countOp opcode)
    -- too many elements
    | some s' => s'.stack

/-- The stack that the loop of `EvalScript` leaves from `pc` on. -/
def stackLeftFrom (pc : CScript) (s : EvalState) : List Valtype :=
  if pc = [] then s.stack
  else
    match _ : getOp2 pc with
    | none => s.stack
    | some (opcode, vchPushValue, pc') =>
      match (evalRound ctx opcode vchPushValue pc' s).result with
      | none => roundStackLeft ctx opcode vchPushValue pc' s
      | some s' => stackLeftFrom pc' s'
termination_by pc.length
decreasing_by exact getOp2_length_lt ‹_›

/-- The stack that `EvalScript` leaves of an empty one, whether it returns true or not. -/
def stackLeft (script : CScript) : List Valtype :=
  if 10000 < script.length then [] else stackLeftFrom ctx script (.start [] script)

variable {ctx} {script pc : CScript} {s s' : EvalState} {stack : List Valtype}

theorem stackLeftFrom_of_evalFrom (h : (evalFrom ctx pc s).result = some s') :
    stackLeftFrom ctx pc s = s'.stack := by
  induction hn : pc.length using Nat.strong_induction_on generalizing pc s with
  | _ n ih =>
    subst hn
    rw [stackLeftFrom]
    by_cases hne : pc = []
    · rw [evalFrom, if_pos hne] at h
      rw [if_pos hne, Option.some.inj h]
    · rw [if_neg hne]
      split
      · next hnone =>
        rw [evalFrom, if_neg hne] at h
        split at h
        · cases h
        · next hsome => cases hnone.symm.trans hsome
      · next opcode vchPushValue pc' hop =>
        rw [evalFrom_of_getOp2 ctx hop] at h
        obtain ⟨s₁, hround, hrest⟩ := Counted.exists_of_result_bind h
        rw [hround]
        exact ih _ (getOp2_length_lt hop) hrest rfl

/-- Where `EvalScript` returns true, the stack left is the one it evaluates to. -/
theorem stackLeft_of_evalScript (h : (evalScript ctx [] script).result = some stack) :
    stackLeft ctx script = stack := by
  unfold evalScript at h
  unfold stackLeft
  split_ifs at h ⊢
  · cases h
  · obtain ⟨s, hrun, hend⟩ := Counted.exists_of_result_bind h
    split_ifs at hend
    · rw [stackLeftFrom_of_evalFrom hrun]
      exact Option.some.inj hend
    · cases hend

end Left

/-! ## Pushes -/

section Pushes

variable {ctx ctx' : SigContext} {script pc pc' : CScript} {s : EvalState} {stack : List Valtype}
  {opcode : Nat} {data : Valtype}

/-- A push that `operator<<` appended is read back. -/
theorem getOp2_pushData (hdata : data.length ≤ 520) (hlen : pc.length < 2 ^ 31) :
    ∃ opcode, getOp2 (pushData data ++ pc) = some (opcode, data, pc) ∧ opcode ≤ OP_PUSHDATA4 := by
  refine ⟨pushOpcode data, getOp2_push ?_, pushOpcode_le data⟩
  rw [List.length_append]
  omega

theorem isDisabled_of_le (h : opcode ≤ OP_16) : isDisabled opcode = false := by
  simp only [OP_16] at h
  simp only [isDisabled, List.contains_eq_mem, List.mem_cons, List.not_mem_nil, or_false,
    decide_eq_false_iff_not, not_or]
  omega

/-- One push. -/
theorem evalRound_push (hpush : opcode ≤ OP_PUSHDATA4) (hexec : s.vfExec = []) :
    (evalRound ctx opcode data pc s).result =
      if data.length ≤ 520 ∧ s.stack.length + s.altstack.length < 1000 then
        some { s with stack := data :: s.stack } else none := by
  have hcount : s.countOp opcode = s := by
    unfold EvalState.countOp
    rw [if_neg (by simp only [OP_16, OP_PUSHDATA4] at *; omega)]
  have hfExec : s.fExec = true := by
    unfold EvalState.fExec
    rw [hexec]
    rfl
  have hop : evalOp ctx opcode data pc s = pure { s with stack := data :: s.stack } :=
    if_pos ⟨hfExec, hpush⟩
  unfold evalRound
  rw [hcount, isDisabled_of_le (hpush.trans (by decide))]
  by_cases hlen : 520 < data.length
  · rw [if_pos hlen, if_neg (by omega)]
    rfl
  · rw [if_neg hlen, if_neg (by simp only [OP_16, OP_PUSHDATA4] at *; omega),
      if_neg Bool.false_ne_true, hop, Counted.result_bind, Counted.result_pure, Option.bind_some]
    dsimp only [List.length_cons]
    by_cases hmax : s.stack.length + s.altstack.length < 1000
    · rw [if_neg (by omega), if_pos ⟨by omega, hmax⟩]
      rfl
    · rw [if_pos (by omega), if_neg (by omega)]
      rfl

/-- One push, and the rest of the script. -/
theorem evalFrom_push (hop : getOp2 pc = some (opcode, data, pc')) (hpush : opcode ≤ OP_PUSHDATA4)
    (hexec : s.vfExec = []) : (evalFrom ctx pc s).result =
      if data.length ≤ 520 ∧ s.stack.length + s.altstack.length < 1000 then
        (evalFrom ctx pc' { s with stack := data :: s.stack }).result else none := by
  rw [evalFrom_of_getOp2 ctx hop, Counted.result_bind, evalRound_push hpush hexec]
  split_ifs <;> rfl

theorem evalFrom_nil (s : EvalState) : (evalFrom ctx [] s).result = some s := by
  rw [evalFrom, if_pos rfl]
  rfl

/-- What a stack is pushed by has been pushed in the end. -/
theorem evalFrom_flatMap_pushData {values : List Valtype} (hsized : Sized values)
    (hlen : (values.flatMap pushData).length < 2 ^ 31) (hexec : s.vfExec = [])
    (hmax : values.length + s.stack.length + s.altstack.length ≤ 1000) :
    (evalFrom ctx (values.flatMap pushData) s).result =
      some { s with stack := values.reverse ++ s.stack } := by
  induction values generalizing s with
  | nil => exact evalFrom_nil s
  | cons data values ih =>
    rw [List.flatMap_cons] at hlen ⊢
    have hrest : (values.flatMap pushData).length < 2 ^ 31 := by
      rw [List.length_append] at hlen
      omega
    rw [List.length_cons] at hmax
    obtain ⟨opcode, hop, hpush⟩ := getOp2_pushData (hsized data List.mem_cons_self) hrest
    have ih := ih (s := { s with stack := data :: s.stack })
      (fun vch h => hsized vch (List.mem_cons_of_mem _ h)) hrest hexec
      (by dsimp only [List.length_cons]; omega)
    rw [evalFrom_push hop hpush hexec, if_pos ⟨hsized data List.mem_cons_self, by omega⟩, ih,
      List.reverse_cons, List.append_assoc]
    rfl

/-- **The script of a stack pushes this stack**, within the limits. -/
theorem evalScript_pushAll (hsized : Sized stack) (hlen : (pushAll stack).length ≤ 10000)
    (hmax : stack.length ≤ 1000) : (evalScript ctx [] (pushAll stack)).result = some stack := by
  have hrun : (evalFrom ctx (pushAll stack) (.start [] (pushAll stack))).result =
      some { EvalState.start [] (pushAll stack) with stack := stack } := by
    unfold pushAll at hlen ⊢
    rw [evalFrom_flatMap_pushData (fun vch h => hsized vch (List.mem_reverse.mp h)) (by omega) rfl
      (by rw [List.length_reverse]; exact hmax), List.reverse_reverse]
    exact congrArg (fun l => some { EvalState.start [] _ with stack := l }) (List.append_nil stack)
  unfold evalScript
  rw [if_neg (Nat.not_lt.mpr hlen), Counted.result_bind, hrun]
  rfl

theorem isPushOnly_of_getOp2 (h : getOp2 pc = some (opcode, data, pc')) :
    isPushOnly pc ↔ opcode ≤ OP_16 ∧ isPushOnly pc' := by
  have hne : pc ≠ [] := by
    rintro rfl
    cases h
  rw [isPushOnly, if_neg hne]
  split
  · next hnone => cases hnone.symm.trans h
  · next hsome =>
    cases hsome.symm.trans h
    by_cases hop : OP_16 < opcode
    · rw [if_pos hop]
      exact iff_of_false Bool.false_ne_true fun hboth => absurd hboth.1 (Nat.not_le.mpr hop)
    · rw [if_neg hop]
      exact (and_iff_right (Nat.le_of_not_lt hop)).symm

theorem isPushOnly_flatMap_pushData {values : List Valtype} (hsized : Sized values)
    (hlen : (values.flatMap pushData).length < 2 ^ 31) : isPushOnly (values.flatMap pushData) := by
  induction values with
  | nil =>
    rw [List.flatMap_nil, isPushOnly]
    rfl
  | cons data values ih =>
    rw [List.flatMap_cons] at hlen ⊢
    have hrest : (values.flatMap pushData).length < 2 ^ 31 := by
      rw [List.length_append] at hlen
      omega
    obtain ⟨opcode, hop, hpush⟩ := getOp2_pushData (hsized data List.mem_cons_self) hrest
    refine (isPushOnly_of_getOp2 hop).mpr ⟨hpush.trans (by decide), ?_⟩
    exact ih (fun vch h => hsized vch (List.mem_cons_of_mem _ h)) hrest

/-- `PushAll` writes pushes only. -/
theorem isPushOnly_pushAll (hsized : Sized stack) (hlen : (pushAll stack).length ≤ 10000) :
    isPushOnly (pushAll stack) := by
  unfold pushAll at hlen ⊢
  exact isPushOnly_flatMap_pushData (fun vch h => hsized vch (List.mem_reverse.mp h)) (by omega)

/-! ### Scripts of pushes in different contexts -/

/-- An operation up to `OP_16` reads neither the transaction nor the signatures. -/
theorem evalRound_congr (hcrypto : ctx.crypto = ctx'.crypto) (hop : opcode ≤ OP_16) :
    evalRound ctx opcode data pc s = evalRound ctx' opcode data pc s := by
  have hswitch (s : EvalState) : evalSwitch ctx opcode pc s = evalSwitch ctx' opcode pc s := by
    simp only [OP_16] at hop
    unfold evalSwitch
    rw [if_neg, if_neg, if_neg, if_neg, hcrypto] <;>
      simp only [OP_CHECKSIG, OP_CHECKSIGVERIFY, OP_CHECKMULTISIG, OP_CHECKMULTISIGVERIFY] <;> omega
  unfold evalRound evalOp
  rw [hswitch]

theorem evalFrom_congr (hcrypto : ctx.crypto = ctx'.crypto) (hpush : isPushOnly pc) :
    evalFrom ctx pc s = evalFrom ctx' pc s := by
  induction hn : pc.length using Nat.strong_induction_on generalizing pc s with
  | _ n ih =>
    subst hn
    by_cases hne : pc = []
    · rw [evalFrom, evalFrom, if_pos hne, if_pos hne]
    · cases hop : getOp2 pc with
      | none =>
        rw [isPushOnly, if_neg hne] at hpush
        split at hpush
        · cases hpush
        · next hsome => cases hop.symm.trans hsome
      | some op =>
        obtain ⟨opcode, data, pc'⟩ := op
        obtain ⟨hle, hrest⟩ := (isPushOnly_of_getOp2 hop).mp hpush
        have hrun : evalFrom ctx pc' = evalFrom ctx' pc' :=
          funext fun s => ih _ (getOp2_length_lt hop) (s := s) hrest rfl
        rw [evalFrom_of_getOp2 ctx hop, evalFrom_of_getOp2 ctx' hop, evalRound_congr hcrypto hle,
          hrun]

/-- **A script of pushes does the same in every context.** -/
theorem evalScript_of_isPushOnly (hcrypto : ctx.crypto = ctx'.crypto) (hpush : isPushOnly script) :
    evalScript ctx stack script = evalScript ctx' stack script := by
  unfold evalScript
  rw [evalFrom_congr hcrypto hpush]

end Pushes

end MotaCoin
