import MotaCoin.MultiSig
import MotaCoin.PushedStack
import MotaCoin.SolverForms
import Mathlib.Data.List.AList
import Mathlib.Data.List.Sort

/-!
# Combining signatures

`CombineSignatures`, which makes one `scriptSig` of two, and what `VerifyScript` says of it. For a
single signature it keeps one of the two, for several it collects the signatures of both.

## Main definitions

* `combineMultisig`, `combineSolved`, `combineSignatures`: `CombineMultisig` and the two functions
  `CombineSignatures`
* `Unlocks`, `Opens`: what `VerifyScript` asks of a stack
* `Collectable`, `Merges`, `MergesRedeem`: what is kept of two stacks is valid

## Main results

* `accepts_iff`: `VerifyScript` by the stack that `scriptSig` leaves
* `unlocks_scriptHash`, `MultiSigForm.unlocks_iff`: the stacks that unlock a script hash, and keys some
  of which have to sign
* `combineSignatures_keeps`: the result is valid
-/

namespace MotaCoin

open Greedy

/-! ## The code -/

section Code

variable (ctx : SigContext)

/-- The inner loop of `CombineMultisig`: the signature goes to the first key that has none yet and
that it is valid for. -/
def addSig (scriptPubKey : CScript) (sig : Valtype) (sigs : AList fun _ : Valtype => Valtype) :
    List Valtype → AList fun _ : Valtype => Valtype
  | [] => sigs
  | pubkey :: pubKeys =>
    if pubkey ∈ sigs then addSig scriptPubKey sig sigs pubKeys
    else if checkSig ctx sig pubkey scriptPubKey then sigs.insert pubkey sig
    else addSig scriptPubKey sig sigs pubKeys

/-- The merged script from a key on, where so many signatures are still required: placeholders fill
in for those that are missing. -/
def mergeSigs (sigs : AList fun _ : Valtype => Valtype) : List Valtype → Nat → CScript
  | pubkey :: pubKeys, nSigs + 1 =>
    match sigs.lookup pubkey with
    | some sig => pushData sig ++ mergeSigs sigs pubKeys nSigs
    | none => mergeSigs sigs pubKeys (nSigs + 1)
  | _, nSigs => (List.replicate nSigs (ofOpcode OP_0)).flatten

/-- `allsigs`: the elements of both stacks that are not empty, in the order of the set. -/
def allSigs (sigs1 sigs2 : List Valtype) : List Valtype :=
  ((sigs1.reverse ++ sigs2.reverse).filter (· ≠ [])).dedup.insertionSort (· ≤ ·)

/-- The keys among the solutions of a `TX_MULTISIG` script. -/
def pubKeysOf (vSolutions : List Valtype) : List Valtype :=
  (vSolutions.drop 1).take (vSolutions.length - 2)

/-- `CombineMultisig`. -/
def combineMultisig (scriptPubKey : CScript) (vSolutions sigs1 sigs2 : List Valtype) : CScript :=
  let nSigsRequired := ((vSolutions.headD []).headD 0).toNat
  let pubKeys := pubKeysOf vSolutions
  let sigs := (allSigs sigs1 sigs2).foldl
    (fun sigs sig => addSig ctx scriptPubKey sig sigs pubKeys) ∅
  ofOpcode OP_0 ++ mergeSigs sigs pubKeys nSigsRequired

/-- The first stack of a single signature is empty or starts with an empty element: the second is
kept instead. -/
def IsPlaceholder (sigs : List Valtype) : Prop := sigs = [] ∨ sigs.getLast? = some []

instance (sigs : List Valtype) : Decidable (IsPlaceholder sigs) :=
  inferInstanceAs (Decidable (_ ∨ _))

/-- `CombineSignatures` of two stacks, for a script that was solved. The stacks have their tops in
front. -/
def combineSolved (scriptPubKey : CScript) (txType : TxnOutType) (vSolutions : List Valtype) :
    List Valtype → List Valtype → CScript
  | sigs1, sigs2 =>
    match txType with
    | .nonstandard => if sigs2.length ≤ sigs1.length then pushAll sigs1 else pushAll sigs2
    | .pubKey | .pubKeyHash => if IsPlaceholder sigs1 then pushAll sigs2 else pushAll sigs1
    | .scriptHash =>
      match sigs1, sigs2 with
      | [], _ => pushAll sigs2
      | [] :: _, _ => pushAll sigs2
      | _, [] => pushAll sigs1
      | _, [] :: _ => pushAll sigs1
      | spk :: sigs1, _ :: sigs2 =>
        let s := solver spk
        combineSolved spk s.type s.vSolutions sigs1 sigs2 ++ pushData spk
    | .multiSig => combineMultisig ctx scriptPubKey vSolutions sigs1 sigs2
termination_by sigs1 => sigs1.length

/-- The context in which `CombineSignatures` evaluates the two scripts: `CTransaction()`, the clock
in its `nTime`. -/
def SigContext.blank (nAdjustedTime : Nat) : SigContext :=
  { ctx with txTo := { CTransaction.empty with nTime := nAdjustedTime }, nIn := 0, nHashType := 0 }

/-- `CombineSignatures`. Whether `EvalScript` fails does not matter to it. -/
def combineSignatures (nAdjustedTime : Nat) (scriptPubKey scriptSig1 scriptSig2 : CScript) :
    CScript :=
  let s := solver scriptPubKey
  combineSolved { ctx with nHashType := 0 } scriptPubKey s.type s.vSolutions
    (stackLeft (ctx.blank nAdjustedTime) scriptSig1)
    (stackLeft (ctx.blank nAdjustedTime) scriptSig2)

end Code

/-! ## What the keys are assigned -/

section Assign

variable {ctx : SigContext} {code : CScript} {sig sig' key : Valtype}
  {sigs : AList fun _ : Valtype => Valtype} {pubKeys allsigs : List Valtype}

/-- A key that gets a signature gets one that is valid for it. -/
theorem lookup_addSig (h : (addSig ctx code sig sigs pubKeys).lookup key = some sig') :
    sigs.lookup key = some sig' ∨ sig' = sig ∧ checkSig ctx sig key code := by
  induction pubKeys with
  | nil => exact .inl h
  | cons pubkey pubKeys ih =>
    rw [addSig] at h
    split_ifs at h with hmem hcheck
    · exact ih h
    · by_cases hkey : key = pubkey
      · subst hkey
        rw [AList.lookup_insert] at h
        exact .inr ⟨(Option.some.inj h).symm, hcheck⟩
      · rw [AList.lookup_insert_ne hkey] at h
        exact .inl h
    · exact ih h

/-- No key loses its signature. -/
theorem mem_addSig_of_mem (h : key ∈ sigs) : key ∈ addSig ctx code sig sigs pubKeys := by
  induction pubKeys with
  | nil => exact h
  | cons pubkey pubKeys ih =>
    rw [addSig]
    split_ifs
    · exact ih
    · exact AList.mem_insert sigs |>.mpr (.inr h)
    · exact ih

/-- The one key that a signature is valid for has one afterwards. -/
theorem mem_addSig (hkey : key ∈ pubKeys) (hcheck : checkSig ctx sig key code)
    (hone : ∀ k ∈ pubKeys, checkSig ctx sig k code → k = key) :
    key ∈ addSig ctx code sig sigs pubKeys := by
  induction pubKeys with
  | nil => exact absurd hkey List.not_mem_nil
  | cons pubkey pubKeys ih =>
    have ih := fun hkey => ih hkey fun k hk => hone k (List.mem_cons_of_mem _ hk)
    rw [addSig]
    split_ifs with hmem hpubkey
    · rcases List.mem_cons.mp hkey with rfl | hkey
      · exact mem_addSig_of_mem hmem
      · exact ih hkey
    · -- the signature is used up here, so that this is its key
      rw [hone pubkey List.mem_cons_self hpubkey]
      exact AList.mem_insert sigs |>.mpr (.inl rfl)
    · rcases List.mem_cons.mp hkey with rfl | hkey
      · exact absurd hcheck hpubkey
      · exact ih hkey

/-- What the keys have in the end. -/
theorem lookup_foldl_addSig
    (h : (allsigs.foldl (fun sigs sig => addSig ctx code sig sigs pubKeys) sigs).lookup key =
      some sig') : sigs.lookup key = some sig' ∨ sig' ∈ allsigs ∧ checkSig ctx sig' key code := by
  induction allsigs generalizing sigs with
  | nil => exact .inl h
  | cons sig allsigs ih =>
    rcases ih h with hadd | ⟨hmem, hcheck⟩
    · rcases lookup_addSig hadd with hold | ⟨rfl, hcheck⟩
      · exact .inl hold
      · exact .inr ⟨List.mem_cons_self, hcheck⟩
    · exact .inr ⟨List.mem_cons_of_mem _ hmem, hcheck⟩

theorem mem_foldl_addSig_of_mem (h : key ∈ sigs) :
    key ∈ allsigs.foldl (fun sigs sig => addSig ctx code sig sigs pubKeys) sigs := by
  induction allsigs generalizing sigs with
  | nil => exact h
  | cons sig allsigs ih => exact ih (mem_addSig_of_mem h)

/-- A key that some signature is valid for has one in the end, though not always this one. -/
theorem mem_foldl_addSig (hsig : sig ∈ allsigs) (hkey : key ∈ pubKeys)
    (hcheck : checkSig ctx sig key code)
    (hone : ∀ k ∈ pubKeys, checkSig ctx sig k code → k = key) :
    key ∈ allsigs.foldl (fun sigs sig => addSig ctx code sig sigs pubKeys) sigs := by
  induction allsigs generalizing sigs with
  | nil => exact absurd hsig List.not_mem_nil
  | cons sig' allsigs ih =>
    rcases List.mem_cons.mp hsig with rfl | hsig
    · rw [List.foldl_cons]
      exact mem_foldl_addSig_of_mem (mem_addSig hkey hcheck hone)
    · exact ih hsig

theorem mem_allSigs {sigs1 sigs2 : List Valtype} :
    sig ∈ allSigs sigs1 sigs2 ↔ sig ∈ sigs1 ++ sigs2 ∧ sig ≠ [] := by
  simp [allSigs, or_and_right]

/-- The merged script, where enough keys have a signature. -/
theorem mergeSigs_eq {n : Nat} (h : n ≤ (pubKeys.filterMap sigs.lookup).length) :
    mergeSigs sigs pubKeys n = ((pubKeys.filterMap sigs.lookup).take n).flatMap pushData := by
  induction pubKeys generalizing n with
  | nil =>
    obtain rfl : n = 0 := Nat.le_zero.mp h
    rfl
  | cons pubkey pubKeys ih =>
    cases n with
    | zero => rfl
    | succ n =>
      rw [mergeSigs]
      rw [List.filterMap_cons] at h ⊢
      cases hlookup : sigs.lookup pubkey with
      | none =>
        rw [hlookup] at h
        exact ih h
      | some sig =>
        rw [hlookup] at h
        dsimp only at h ⊢
        rw [ih (Nat.le_of_succ_le_succ h), List.take_succ_cons, List.flatMap_cons]

end Assign

/-! ## What VerifyScript asks of a stack -/

section Verify

variable (ctx : SigContext)

/-- The script leaves something true on top of the stack. -/
def Unlocks (stack : List Valtype) (script : CScript) : Prop :=
  leavesTrue (evalScript ctx stack script).result

/-- What `VerifyScript` asks of the stack that `scriptSig` leaves. -/
def Opens (stack : List Valtype) (scriptPubKey : CScript) : Prop :=
  Unlocks ctx stack scriptPubKey ∧ (isPayToScriptHash scriptPubKey →
    ∃ redeem rest, stack = redeem :: rest ∧ Unlocks ctx rest redeem)

/-- `VerifyScript` returns true. -/
def Accepts (scriptSig scriptPubKey : CScript) : Prop :=
  (verifyScript ctx scriptSig scriptPubKey).verdict

instance (stack : List Valtype) (script : CScript) : Decidable (Unlocks ctx stack script) :=
  inferInstanceAs (Decidable (_ = true))

instance (scriptSig scriptPubKey : CScript) : Decidable (Accepts ctx scriptSig scriptPubKey) :=
  inferInstanceAs (Decidable (_ = true))

variable {ctx} {scriptSig scriptPubKey script : CScript} {stack rest : List Valtype}

/-- **`VerifyScript` looks at the stack that `scriptSig` leaves**, and, for a script hash, at
whether it has pushes only. -/
theorem accepts_iff : Accepts ctx scriptSig scriptPubKey ↔
    ∃ stack, (evalScript ctx [] scriptSig).result = some stack ∧ Opens ctx stack scriptPubKey ∧
      (isPayToScriptHash scriptPubKey → isPushOnly scriptSig) := by
  unfold Accepts verifyScript Opens Unlocks evalRedeem
  dsimp only
  cases heval : (evalScript ctx [] scriptSig).result with
  | none => simp
  | some stack =>
    dsimp only
    by_cases htrue : leavesTrue (evalScript ctx stack scriptPubKey).result
    · rw [if_pos htrue]
      by_cases hp2sh : isPayToScriptHash scriptPubKey
      · rw [if_pos hp2sh]
        by_cases hpush : isPushOnly scriptSig
        · rw [if_pos hpush]
          cases stack <;> simp [htrue, hp2sh, hpush]
        · rw [if_neg hpush]
          simp [hp2sh, hpush]
      · rw [if_neg hp2sh]
        simp [htrue, hp2sh]
    · rw [if_neg htrue]
      simp [htrue]

/-- The elements that an accepted `scriptSig` leaves are within the limits. -/
theorem limits_of_evalScript (hk : ctx.crypto.Sized)
    (h : (evalScript ctx [] script).result = some stack) :
    Sized stack ∧ stack.length ≤ 1000 := by
  rw [evalScript_eq_finalState] at h
  obtain ⟨s, hs, rfl⟩ := Option.map_eq_some_iff.mp h
  have hrun := ((exact_accessScript ctx [] script).ok_iff s).mpr hs
  have hlimits := (@limits_of_accessScript ctx hk [] script s (Nat.zero_le _) nofun hrun).1
  have hlen := hlimits.length_le
  exact ⟨hlimits.stack, by omega⟩

/-- What a script that unlocks does. -/
theorem unlocks_iff : Unlocks ctx stack script ↔ script.length ≤ 10000 ∧
    ∃ s, (evalFrom ctx script (.start stack script)).result = some s ∧ s.vfExec = [] ∧
      leavesTrue (some s.stack) := by
  unfold Unlocks evalScript
  by_cases hlen : 10000 < script.length
  · rw [if_pos hlen]
    exact iff_of_false Bool.false_ne_true fun h => absurd h.1 (Nat.not_le.mpr hlen)
  · rw [if_neg hlen, Counted.result_bind, and_iff_right (Nat.le_of_not_lt hlen)]
    cases (evalFrom ctx script (.start stack script)).result with
    | none => simp [leavesTrue]
    | some s =>
      rw [Option.bind_some]
      by_cases hexec : s.vfExec = []
      · simp [hexec]
      · simp [hexec, leavesTrue]

/-- A stack that opens the output can be pushed. -/
theorem accepts_pushAll (hopens : Opens ctx stack scriptPubKey) (hsized : Sized stack)
    (hlen : (pushAll stack).length ≤ 10000) (hmax : stack.length ≤ 1000) :
    Accepts ctx (pushAll stack) scriptPubKey :=
  accepts_iff.mpr ⟨stack, evalScript_pushAll hsized hlen hmax, hopens,
    fun _ => isPushOnly_pushAll hsized hlen⟩

end Verify

/-! ## Keys some of which have to sign -/

section MultiSigScript

variable {ctx : SigContext} {pc pc' script : CScript} {s : EvalState} {stack : List Valtype}
  {opcode m : Nat} {keys : List Operation} {ops : List Operation}

/-- An operation after `OP_16`, where nothing is in the way of it. -/
theorem evalRound_plain (hgt : OP_16 < opcode) (hdisabled : isDisabled opcode = false)
    (hcount : s.nOpCount < 201) (hexec : s.vfExec = []) :
    (evalRound ctx opcode [] pc s).result =
      (evalSwitch ctx opcode pc { s with nOpCount := s.nOpCount + 1 }).result.bind fun s' =>
        if 1000 < s'.stack.length + s'.altstack.length then none else some s' := by
  have hcountOp : s.countOp opcode = { s with nOpCount := s.nOpCount + 1 } := by
    unfold EvalState.countOp
    rw [if_pos hgt]
  have hfExec : EvalState.fExec { s with nOpCount := s.nOpCount + 1 } = true := by
    unfold EvalState.fExec
    rw [hexec]
    rfl
  have hop : evalOp ctx opcode [] pc { s with nOpCount := s.nOpCount + 1 } =
      evalSwitch ctx opcode pc { s with nOpCount := s.nOpCount + 1 } := by
    unfold evalOp
    rw [if_neg (by simp only [OP_16, OP_PUSHDATA4] at *; omega), if_pos (.inl hfExec)]
  unfold evalRound
  rw [hcountOp, if_neg (by decide), if_neg (by dsimp only; omega), hdisabled,
    if_neg Bool.false_ne_true, hop, Counted.result_bind]
  refine congrArg _ (funext fun s' => ?_)
  split_ifs <;> rfl

theorem castToBool_vchBool (fValue : Bool) : castToBool (vchBool fValue) = fValue := by
  cases fValue <;> rfl

/-- An operation after `OP_16`, and the rest of the script. -/
theorem evalFrom_plain {s' : EvalState} (hop : getOp2 pc = some (opcode, [], pc'))
    (hgt : OP_16 < opcode) (hdisabled : isDisabled opcode = false) (hcount : s.nOpCount < 201)
    (hexec : s.vfExec = [])
    (hswitch : (evalSwitch ctx opcode pc' { s with nOpCount := s.nOpCount + 1 }).result = some s') :
    (evalFrom ctx pc s).result =
      if s'.stack.length + s'.altstack.length ≤ 1000 then (evalFrom ctx pc' s').result
      else none := by
  rw [evalFrom_of_getOp2 ctx hop, Counted.result_bind,
    evalRound_plain hgt hdisabled hcount hexec, hswitch, Option.bind_some]
  by_cases hlen : s'.stack.length + s'.altstack.length ≤ 1000
  · rw [if_neg (Nat.not_lt.mpr hlen), if_pos hlen]
    rfl
  · rw [if_pos (Nat.lt_of_not_le hlen), if_neg hlen]
    rfl

/-- **A script hash asks for the script**, whatever is below it. -/
theorem unlocks_scriptHash {hash top : Valtype} {rest : List Valtype} (hhash : hash.length = 20) :
    Unlocks ctx (top :: rest) (ofOpcode OP_HASH160 ++ 0x14 :: hash ++ ofOpcode OP_EQUAL) ↔
      rest.length + 2 ≤ 1000 ∧ ctx.crypto.hash160 top = hash := by
  have hpush : 0x14 :: hash = pushData hash := by
    unfold pushData
    rw [hhash]
    rfl
  obtain ⟨opcode, hop, hle⟩ := @getOp2_pushData (ofOpcode OP_EQUAL) hash (by omega) (by decide)
  have hlen : (ofOpcode OP_HASH160 ++ 0x14 :: hash ++ ofOpcode OP_EQUAL).length ≤ 10000 := by
    simp only [ofOpcode, List.length_append, List.length_cons, List.length_nil, hhash]
    decide
  rw [unlocks_iff, and_iff_right hlen]
  generalize hscript : ofOpcode OP_HASH160 ++ 0x14 :: hash ++ ofOpcode OP_EQUAL = script
  have hfirst : getOp2 script = some (OP_HASH160, [], pushData hash ++ ofOpcode OP_EQUAL) := by
    rw [← hscript, ← hpush]
    rfl
  have hlast : getOp2 (ofOpcode OP_EQUAL) = some (OP_EQUAL, [], []) := rfl
  have hhash160 (s : EvalState) (pc : CScript) (hstack : s.stack = top :: rest) :
      (evalSwitch ctx OP_HASH160 pc s).result =
        some { s with stack := ctx.crypto.hash160 top :: rest } := by
    obtain ⟨_, _, _, _, _⟩ := s
    obtain rfl := hstack
    rfl
  have hequal (s : EvalState) (pc : CScript)
      (hstack : s.stack = hash :: ctx.crypto.hash160 top :: rest) :
      (evalSwitch ctx OP_EQUAL pc s).result =
        some { s with stack := vchBool (ctx.crypto.hash160 top == hash) :: rest } := by
    obtain ⟨_, _, _, _, _⟩ := s
    obtain rfl := hstack
    rfl
  -- the states after each of the three operations
  let s₁ : EvalState := ⟨ctx.crypto.hash160 top :: rest, [], [], 1, script⟩
  let s₂ : EvalState := ⟨hash :: ctx.crypto.hash160 top :: rest, [], [], 1, script⟩
  let s₃ : EvalState := ⟨vchBool (ctx.crypto.hash160 top == hash) :: rest, [], [], 2, script⟩
  have hrun₁ : (evalFrom ctx script (.start (top :: rest) script)).result =
      if rest.length + 1 ≤ 1000 then (evalFrom ctx (pushData hash ++ ofOpcode OP_EQUAL) s₁).result
      else none :=
    evalFrom_plain hfirst (by decide) (by decide) (Nat.succ_pos 200) rfl (hhash160 _ _ rfl)
  have hrun₂ : (evalFrom ctx (pushData hash ++ ofOpcode OP_EQUAL) s₁).result =
      if hash.length ≤ 520 ∧ rest.length + 1 < 1000 then
        (evalFrom ctx (ofOpcode OP_EQUAL) s₂).result else none :=
    evalFrom_push hop hle rfl
  have hrun₃ : (evalFrom ctx (ofOpcode OP_EQUAL) s₂).result =
      if rest.length + 1 ≤ 1000 then (evalFrom ctx [] s₃).result else none :=
    evalFrom_plain hlast (by decide) (by decide) (Nat.succ_lt_succ (Nat.succ_pos 199)) rfl
      (hequal _ _ rfl)
  have hrun : (evalFrom ctx script (.start (top :: rest) script)).result =
      if rest.length + 2 ≤ 1000 then some s₃ else none := by
    rw [hrun₁, hrun₂, hrun₃, evalFrom_nil]
    split_ifs <;> first | rfl | omega
  rw [hrun]
  by_cases hroom : rest.length + 2 ≤ 1000
  · rw [if_pos hroom, and_iff_right hroom]
    constructor
    · rintro ⟨s, hs, -, htrue⟩
      obtain rfl := Option.some.inj hs
      exact beq_iff_eq.mp ((castToBool_vchBool _).symm.trans htrue)
    · intro heq
      exact ⟨_, rfl, rfl, (castToBool_vchBool _).trans (beq_iff_eq.mpr heq)⟩
  · rw [if_neg hroom]
    refine iff_of_false ?_ fun hboth => hroom hboth.1
    rintro ⟨s, hs, -⟩
    cases hs

/-- The operation that pushes a number from 1 to 16, and the rest of the script. -/
theorem evalFrom_opN (hop : getOp2 pc = some (opN m, [], pc')) (hm : 1 ≤ m) (hmax : m ≤ 16)
    (hexec : s.vfExec = []) : (evalFrom ctx pc s).result =
      if s.stack.length + s.altstack.length < 1000 then
        (evalFrom ctx pc' { s with stack := CBigNum.getvch m :: s.stack }).result else none := by
  have hrange : OP_1 ≤ opN m ∧ opN m ≤ OP_16 := by
    simp only [opN, OP_1, OP_16]
    omega
  have hcount : s.countOp (opN m) = s := by
    unfold EvalState.countOp
    rw [if_neg (Nat.not_lt.mpr hrange.2)]
  have hfExec : s.fExec = true := by
    unfold EvalState.fExec
    rw [hexec]
    rfl
  have hcast : ((opN m : Nat) : Int) - 0x50 = (m : Int) := by
    simp only [opN, OP_1]
    omega
  have hswitch : (evalOp ctx (opN m) [] pc' s).result =
      some { s with stack := CBigNum.getvch m :: s.stack } := by
    unfold evalOp
    rw [if_neg (by simp only [OP_1, OP_PUSHDATA4] at *; omega), if_pos (.inl hfExec),
      evalSwitch_num (.inr hrange), hcast]
  have hround : (evalRound ctx (opN m) [] pc' s).result =
      if s.stack.length + s.altstack.length < 1000 then
        some { s with stack := CBigNum.getvch m :: s.stack } else none := by
    unfold evalRound
    rw [hcount, if_neg (by decide), if_neg (fun h => absurd h.1 (Nat.not_lt.mpr hrange.2)),
      isDisabled_of_le hrange.2, if_neg Bool.false_ne_true, Counted.result_bind, hswitch,
      Option.bind_some]
    dsimp only [List.length_cons]
    by_cases hlt : s.stack.length + s.altstack.length < 1000
    · rw [if_neg (by omega), if_pos hlt]
      rfl
    · rw [if_pos (by omega), if_neg hlt]
      rfl
  rw [evalFrom_of_getOp2 ctx hop, Counted.result_bind, hround]
  split_ifs <;> rfl

/-- The keys. -/
theorem evalFrom_keys (hkeys : ∀ key ∈ keys, Operation.IsKey key) (hparse : ParsesAs pc (keys ++ ops))
    (hexec : s.vfExec = []) (hlen : s.stack.length + s.altstack.length ≤ 1000) :
    ∃ pc', ParsesAs pc' ops ∧ (evalFrom ctx pc s).result =
      if s.stack.length + s.altstack.length + keys.length ≤ 1000 then
        (evalFrom ctx pc' { s with stack := (keys.map Prod.snd).reverse ++ s.stack }).result
      else none := by
  induction keys generalizing pc s with
  | nil => exact ⟨pc, hparse, (if_pos hlen).symm⟩
  | cons key keys ih =>
    obtain ⟨pc₁, hop, hrest⟩ := parsesAs_cons_iff.mp hparse
    have hkey := hkeys key List.mem_cons_self
    rw [evalFrom_push hop hkey.1 hexec]
    by_cases hmax : s.stack.length + s.altstack.length < 1000
    · obtain ⟨pc', hpc', heval⟩ := @ih pc₁ { s with stack := key.2 :: s.stack }
        (fun k hk => hkeys k (List.mem_cons_of_mem _ hk)) hrest hexec
        (by dsimp only [List.length_cons]; omega)
      refine ⟨pc', hpc', ?_⟩
      rw [if_pos ⟨hkey.2.2.trans (by decide), hmax⟩, heval, List.map_cons, List.reverse_cons,
        List.append_assoc]
      refine if_congr ?_ rfl rfl
      dsimp only [List.length_cons]
      omega
    · -- there is no room for this key, let alone for all
      obtain ⟨pc', hpc', -⟩ := @ih pc₁ (.start [] [])
        (fun k hk => hkeys k (List.mem_cons_of_mem _ hk)) hrest rfl (Nat.zero_le _)
      refine ⟨pc', hpc', ?_⟩
      rw [if_neg (by omega), if_neg (by rw [List.length_cons]; omega)]

/-! ### What the signatures sign -/

/-- What no operation of the script pushes is not deleted from it. -/
theorem findAndDelete_pushData {data : Valtype} (hparse : ParsesAs script ops)
    (hlen : script.length < 2 ^ 31) (hdata : data.length ≤ 520) (hnot : ∀ op ∈ ops, op.2 ≠ data) :
    findAndDelete script (pushData data) = script := by
  obtain ⟨opcode, hop, -⟩ := @getOp2_pushData [] data hdata (Nat.zero_lt_of_lt hlen)
  rw [List.append_nil] at hop
  refine (findAndDelete_eq_without ⟨opcode, data, hop⟩ (by omega)).trans ?_
  refine Chunks.Reader.without_of_forall_ne fun rest op hrest hnext item hitem => ?_
  obtain ⟨opcode', hop', -⟩ := @getOp2_pushData rest data hdata
    (by rw [List.length_append] at hrest; omega)
  rintro rfl
  rw [scriptReader_next.mpr hop'] at hnext
  refine hnot item.value ?_ ?_
  · rw [← hparse.1]
    exact List.mem_map_of_mem hitem
  · rw [← (Prod.mk.inj (Option.some.inj hnext)).1]

/-- The signatures do not sign themselves, which matters for none of the script. -/
theorem multiSigCode_eq {sigs : List Valtype} (hparse : ParsesAs script ops)
    (hlen : script.length < 2 ^ 31) (hsized : Sized sigs)
    (hnot : ∀ sig ∈ sigs, ∀ op ∈ ops, op.2 ≠ sig) : multiSigCode script sigs = script := by
  induction sigs with
  | nil => rfl
  | cons sig sigs ih =>
    have ih := ih (fun vch h => hsized vch (List.mem_cons_of_mem _ h))
      fun sig h => hnot sig (List.mem_cons_of_mem _ h)
    unfold multiSigCode at ih ⊢
    rw [List.foldr_cons, ih]
    exact findAndDelete_pushData hparse hlen (hsized sig List.mem_cons_self)
      (hnot sig List.mem_cons_self)

/-! ### The script -/

variable {sigs rest : List Valtype} {extra : Valtype}

/-- A script of `m` of the keys. -/
structure MultiSigForm (script : CScript) (m : Nat) (keys : List Operation) : Prop where
  pos : 1 ≤ m
  le : m ≤ keys.length
  max : keys.length ≤ 16
  isKey : ∀ key ∈ keys, Operation.IsKey key
  parses : ParsesAs script (.plain (opN m) :: keys ++
    [.plain (opN keys.length), .plain OP_CHECKMULTISIG])

/-- All operations of the script but the last are pushes. -/
theorem MultiSigForm.evalFrom (h : MultiSigForm script m keys) (hexec : s.vfExec = []) :
    (evalFrom ctx script s).result =
      if s.stack.length + s.altstack.length + keys.length + 2 ≤ 1000 then
        (evalRound ctx OP_CHECKMULTISIG [] [] { s with stack := CBigNum.getvch keys.length ::
          ((keys.map Prod.snd).reverse ++ CBigNum.getvch m :: s.stack) }).result
      else none := by
  obtain ⟨pc₁, hm, hparse⟩ := parsesAs_cons_iff.mp h.parses
  rw [evalFrom_opN hm h.pos (h.le.trans h.max) hexec]
  by_cases hroom : s.stack.length + s.altstack.length < 1000
  · obtain ⟨pc₂, hpc₂, hkeys⟩ := @evalFrom_keys ctx pc₁
      { s with stack := CBigNum.getvch m :: s.stack } keys _ h.isKey hparse hexec
      (by dsimp only [List.length_cons]; omega)
    obtain ⟨pc₃, hn, hlast⟩ := parsesAs_cons_iff.mp hpc₂
    obtain ⟨pc₄, hcheck, hend⟩ := parsesAs_cons_iff.mp hlast
    obtain rfl := parsesAs_nil_iff.mp hend
    have hpos : 1 ≤ keys.length := h.pos.trans h.le
    have hnum := @evalFrom_opN ctx pc₂ pc₃
      { s with stack := (keys.map Prod.snd).reverse ++ CBigNum.getvch m :: s.stack }
      keys.length hn hpos h.max hexec
    simp only [List.length_append, List.length_reverse, List.length_map, List.length_cons] at hnum
    rw [if_pos hroom, hkeys, hnum, evalFrom_of_getOp2 ctx hcheck, Counted.result_bind]
    dsimp only [List.length_cons]
    by_cases hmax : s.stack.length + s.altstack.length + keys.length + 2 ≤ 1000
    · rw [if_pos (by omega), if_pos (by omega), if_pos hmax, funext evalFrom_nil,
        Option.bind_fun_some]
      rfl
    · rw [if_neg hmax]
      split_ifs
      · omega
      · rfl
      · rfl
  · rw [if_neg hroom, if_neg (by omega)]

/-- The operation needs one more element below the signatures. -/
theorem lt_length_of_multiSigArgs {nKeys nSigs : Valtype} {keys : List Valtype} {nOpCount : Nat}
    {args : MultiSigArgs} (hkeys : castToBigNum nKeys = some (keys.length : Int))
    (hsigs : castToBigNum nSigs = some (m : Int))
    (h : multiSigArgs (nKeys :: (keys ++ nSigs :: stack)) nOpCount = some args) :
    m < stack.length := by
  obtain ⟨nKeysCount, hkeys', h⟩ := Option.bind_eq_some_iff.mp h
  obtain rfl : nKeysCount = keys.length := Option.some.inj (hkeys'.symm.trans hkeys)
  obtain ⟨_, -, h⟩ := Option.bind_eq_some_iff.mp h
  obtain ⟨_, -, h⟩ := Option.bind_eq_some_iff.mp h
  obtain ⟨nSigsCount, hsigs', h⟩ := Option.bind_eq_some_iff.mp h
  obtain rfl : nSigsCount = m := by
    rw [Int.toNat_natCast, Nat.add_comm, List.getElem?_cons_succ,
      List.getElem?_append_right le_rfl, Nat.sub_self] at hsigs'
    exact Option.some.inj (hsigs'.symm.trans hsigs)
  obtain ⟨_, -, h⟩ := Option.bind_eq_some_iff.mp h
  obtain ⟨_, hle, -⟩ := Option.bind_eq_some_iff.mp h
  simp only [Option.guard_eq_some', Int.toNat_natCast, List.length_cons, List.length_append]
    at hle
  omega

theorem castToBigNum_getvch {n : Nat} (hpos : 1 ≤ n) (hmax : n ≤ 16) :
    castToBigNum (CBigNum.getvch n) = some (n : Int) := by
  have hge : OP_1 ≤ opN n := by
    simp only [opN, OP_1]
    omega
  have hle : opN n ≤ OP_16 := by
    simp only [opN, OP_1, OP_16]
    omega
  have hcast := castToBigNum_decodeOpN hge hle
  rwa [decodeOpN_opN] at hcast

/-- **The script asks for an assignment of the signatures to keys in order.** -/
theorem MultiSigForm.unlocks_iff (h : MultiSigForm script m keys) (hlen : script.length ≤ 10000)
    (hsigs : sigs.length = m)
    (hroom : (sigs.reverse ++ extra :: rest).length + keys.length + 2 ≤ 1000) :
    Unlocks ctx (sigs.reverse ++ extra :: rest) script ↔
      Matches (SigFits ctx (multiSigCode script sigs)) (keys.map Prod.snd) sigs := by
  have hmaxKeys := h.max
  have hlenKeys : (keys.map Prod.snd).length = keys.length := List.length_map _
  -- the state in which the signatures are checked
  let start := EvalState.start (sigs.reverse ++ extra :: rest) script
  let stack := multiSigStack (CBigNum.getvch keys.length) (keys.map Prod.snd) (CBigNum.getvch m)
    sigs extra rest
  have hstack : EvalState.stack { start with stack := stack, nOpCount := 1 } = multiSigStack
    (CBigNum.getvch keys.length) (keys.map Prod.snd) (CBigNum.getvch m) sigs extra rest := rfl
  obtain ⟨fSuccess, hswitch, hiff⟩ := exists_evalSwitch_checkMultiSig ctx [] (.inl rfl) hstack
    (by rw [hlenKeys]; exact castToBigNum_getvch (h.pos.trans h.le) hmaxKeys)
    (by rw [hsigs]; exact castToBigNum_getvch h.pos (h.le.trans hmaxKeys)) (by omega)
    (by rw [hsigs, hlenKeys]; exact h.le) (by dsimp only; omega)
  have hround : (evalRound ctx OP_CHECKMULTISIG [] [] { start with stack := stack }).result =
      some { start with stack := vchBool fSuccess :: rest, nOpCount := 1 + keys.length } := by
    rw [evalRound_plain (by decide) (by decide) (Nat.succ_pos 200) rfl]
    refine (congrArg (Option.bind · _) hswitch).trans ?_
    have hrest : (vchBool fSuccess :: rest).length + 0 ≤ 1000 := by
      simp only [List.length_append, List.length_cons] at hroom ⊢
      omega
    rw [hlenKeys]
    exact if_neg (Nat.not_lt.mpr hrest)
  have heval : (MotaCoin.evalFrom ctx script start).result =
      some { start with stack := vchBool fSuccess :: rest, nOpCount := 1 + keys.length } := by
    rw [h.evalFrom rfl, if_pos (by exact hroom)]
    exact hround
  rw [MotaCoin.unlocks_iff, and_iff_right hlen, matches_iff_strictMono]
  constructor
  · rintro ⟨s, hs, -, htrue⟩
    obtain rfl := Option.some.inj (heval.symm.trans hs)
    exact hiff.mp ((castToBool_vchBool fSuccess).symm.trans htrue)
  · intro hmatch
    exact ⟨_, heval, rfl, (castToBool_vchBool fSuccess).trans (hiff.mpr hmatch)⟩

/-- What unlocks the script has the signatures on top. -/
theorem MultiSigForm.exists_of_unlocks (h : MultiSigForm script m keys)
    (hunlocks : Unlocks ctx stack script) : ∃ sigs extra rest,
      stack = sigs.reverse ++ extra :: rest ∧ sigs.length = m ∧
      Matches (SigFits ctx (multiSigCode script sigs)) (keys.map Prod.snd) sigs := by
  obtain ⟨hlen, s, hs, -, -⟩ := MotaCoin.unlocks_iff.mp hunlocks
  rw [h.evalFrom rfl] at hs
  split_ifs at hs with hroom
  obtain ⟨-, hop⟩ := exists_of_evalRound hs
  have hargs : m < stack.length := by
    have hswitch : (evalCheckMultiSig ctx false { EvalState.start stack script with
        stack := CBigNum.getvch keys.length ::
          ((keys.map Prod.snd).reverse ++ CBigNum.getvch m :: stack)
        nOpCount := 1 }).result = some s := hop
    unfold evalCheckMultiSig at hswitch
    split at hswitch
    · cases hswitch
    · next hsome =>
      refine lt_length_of_multiSigArgs ?_ (castToBigNum_getvch h.pos (h.le.trans h.max)) hsome
      rw [List.length_reverse, List.length_map]
      exact castToBigNum_getvch (h.pos.trans h.le) h.max
  obtain ⟨extra, rest, hdrop⟩ : ∃ extra rest, stack.drop m = extra :: rest := by
    cases hdrop : stack.drop m with
    | nil => exact absurd (List.drop_eq_nil_iff.mp hdrop) (Nat.not_le.mpr hargs)
    | cons extra rest => exact ⟨extra, rest, rfl⟩
  have hstack : stack = (stack.take m).reverse.reverse ++ extra :: rest := by
    rw [List.reverse_reverse, ← hdrop, List.take_append_drop]
  have hsigs : (stack.take m).reverse.length = m := by
    rw [List.length_reverse, List.length_take_of_le hargs.le]
  refine ⟨_, _, _, hstack, hsigs, ?_⟩
  rw [hstack] at hunlocks
  have hroom : ((stack.take m).reverse.reverse ++ extra :: rest).length + keys.length + 2 ≤ 1000 := by
    rw [← hstack]
    exact hroom
  exact (h.unlocks_iff hlen hsigs hroom).mp hunlocks

end MultiSigScript

/-! ## What is kept of two stacks -/

section Merge

variable (ctx : SigContext)

/-- What is asked of the elements of two stacks where signatures are collected. -/
structure Collectable (script : CScript) (pubKeys sigs1 sigs2 : List Valtype) : Prop where
  /-- Each is a signature for one of the keys at most. -/
  oneKey : ∀ sig ∈ sigs1 ++ sigs2, ∀ key ∈ pubKeys, ∀ key' ∈ pubKeys,
    checkSig ctx sig key script → checkSig ctx sig key' script → key = key'
  /-- What is a signature for a key is canonical, and so is the key. -/
  canonical : ∀ sig ∈ sigs1 ++ sigs2, ∀ key ∈ pubKeys, checkSig ctx sig key script →
    isCanonicalSignature sig ∧ isCanonicalPubKey key
  /-- No signature is one of the keys. -/
  not_key : ∀ sig ∈ sigs1 ++ sigs2, isCanonicalSignature sig → sig ∉ pubKeys

/-- Of two stacks, of which the first is valid where `p1` and the second where `p2`, what is kept
for the script is valid: for a single signature, the stack that the code chooses; for several, all
that `Collectable` asks for. -/
def Merges (script : CScript) (sigs1 sigs2 : List Valtype) (p1 p2 : Prop) : Prop :=
  ∃ type vSolutions, StandardForm script type vSolutions ∧
    match type with
    | .pubKey | .pubKeyHash => if IsPlaceholder sigs1 then p2 else p1
    | .multiSig => (p1 ∨ p2) ∧ Collectable ctx script (pubKeysOf vSolutions) sigs1 sigs2
    | _ => False

/-- The same for a script hash. A stack with nothing on top is not kept; otherwise the script on top
of the first stack is, and the second is valid for it only with the same script on top. -/
def MergesRedeem : List Valtype → List Valtype → Prop → Prop → Prop
  | [], _, _, p2 => p2
  | [] :: _, _, _, p2 => p2
  | _, [], p1, _ => p1
  | _, [] :: _, p1, _ => p1
  | spk1 :: sigs1, spk2 :: sigs2, p1, p2 => Merges ctx spk1 sigs1 sigs2 p1 (p2 ∧ spk2 = spk1)

/-- The script leaves the same stack in the context of `CombineSignatures`, and the stack can be
pushed. -/
def Replays (nAdjustedTime : Nat) (script : CScript) : Prop :=
  (evalScript ctx [] script).result = some (stackLeft (ctx.blank nAdjustedTime) script) ∧
    (pushAll (stackLeft (ctx.blank nAdjustedTime) script)).length ≤ 10000

variable {ctx} {script : CScript} {sigs1 sigs2 : List Valtype} {p1 p2 : Prop}

theorem length_le_of_isCanonicalSignature {sig : Valtype} (h : isCanonicalSignature sig) :
    9 ≤ sig.length ∧ sig.length ≤ 73 := by
  unfold isCanonicalSignature at h
  dsimp only at h
  split_ifs at h with hsize
  all_goals omega

theorem length_pushData_le {data : Valtype} (h : data.length ≤ 520) :
    (pushData data).length ≤ data.length + 3 := by
  unfold pushData
  split_ifs <;> simp only [List.length_append, Wire.length_leBytes] <;> omega

/-- Canonical signatures take little room. -/
theorem length_flatMap_pushData_le {sigs : List Valtype}
    (h : ∀ sig ∈ sigs, isCanonicalSignature sig) :
    (sigs.flatMap pushData).length ≤ 76 * sigs.length := by
  induction sigs with
  | nil => exact le_rfl
  | cons sig sigs ih =>
    have ih := ih fun s hs => h s (List.mem_cons_of_mem _ hs)
    have hlen := (length_le_of_isCanonicalSignature (h sig List.mem_cons_self)).2
    have hpush := length_pushData_le (hlen.trans (by decide))
    rw [List.flatMap_cons, List.length_append, List.length_cons]
    omega

variable (ctx) in
/-- A small stack of its own that unlocks the script. -/
structure Merged (script : CScript) (stack : List Valtype) : Prop where
  unlocks : Unlocks ctx stack script
  sized : Sized stack
  length_le : stack.length ≤ 17
  length_pushAll_le : (pushAll stack).length ≤ 2000

/-- Where no signature is a key, the signatures sign the whole script. -/
theorem MultiSigForm.multiSigCode_eq {m : Nat} {keys : List Operation} {sigs : List Valtype}
    (h : MultiSigForm script m keys) (hlen : script.length ≤ 10000)
    (hsigs : ∀ sig ∈ sigs, isCanonicalSignature sig ∧ sig ∉ keys.map Prod.snd) :
    multiSigCode script sigs = script := by
  refine MotaCoin.multiSigCode_eq h.parses (by omega) (fun sig hsig => ?_) fun sig hsig op hop => ?_
  · have := (length_le_of_isCanonicalSignature (hsigs sig hsig).1).2
    omega
  · obtain ⟨hcanonical, hnot⟩ := hsigs sig hsig
    have hne : sig ≠ [] := fun hnil => by
      have := (length_le_of_isCanonicalSignature hcanonical).1
      rw [hnil, List.length_nil] at this
      omega
    rintro rfl
    -- the operations that push something are the keys
    simp only [List.cons_append, List.mem_cons, List.mem_append, List.not_mem_nil,
      or_false] at hop
    rcases hop with rfl | hkey | rfl | rfl
    · exact hne rfl
    · exact hnot (List.mem_map_of_mem hkey)
    · exact hne rfl
    · exact hne rfl

/-- **Collected signatures unlock the script**, if those of one of the stacks did. -/
theorem MultiSigForm.merged {m : Nat} {keys : List Operation} (h : MultiSigForm script m keys)
    (hlen : script.length ≤ 10000)
    (hcollect : Collectable ctx script (keys.map Prod.snd) sigs1 sigs2)
    (hunlocks : Unlocks ctx sigs1 script ∨ Unlocks ctx sigs2 script) :
    ∃ stack, Merged ctx script stack ∧
      ofOpcode OP_0 ++ mergeSigs ((allSigs sigs1 sigs2).foldl
        (fun sigs sig => addSig ctx script sig sigs (keys.map Prod.snd)) ∅) (keys.map Prod.snd) m =
      pushAll stack := by
  generalize hsigs : (allSigs sigs1 sigs2).foldl
    (fun sigs sig => addSig ctx script sig sigs (keys.map Prod.snd)) ∅ = sigs
  -- what a key has is a signature for it
  have hfits : ∀ key ∈ keys.map Prod.snd, ∀ sig, sigs.lookup key = some sig →
      SigFits ctx script sig key ∧ sig ∈ sigs1 ++ sigs2 := by
    intro key hkey sig hlookup
    rw [← hsigs] at hlookup
    rcases lookup_foldl_addSig hlookup with hold | ⟨hmem, hcheck⟩
    · cases hold
    · obtain ⟨hmem, -⟩ := mem_allSigs.mp hmem
      obtain ⟨hsig, hkey⟩ := hcollect.canonical sig hmem key hkey hcheck
      exact ⟨⟨hsig, hkey, hcheck⟩, hmem⟩
  -- the stack that unlocks has signatures for enough keys
  have hcount : m ≤ ((keys.map Prod.snd).filterMap sigs.lookup).length := by
    have henough (stack : List Valtype) (hsub : ∀ sig ∈ stack, sig ∈ sigs1 ++ sigs2)
        (hunlocks : Unlocks ctx stack script) :
        m ≤ ((keys.map Prod.snd).filterMap sigs.lookup).length := by
      obtain ⟨signed, extra, rest, hstack, hsigned, hmatch⟩ := h.exists_of_unlocks hunlocks
      have hmem : ∀ sig ∈ signed, sig ∈ sigs1 ++ sigs2 := fun sig hsig =>
        hsub sig (hstack ▸ List.mem_append_left _ (List.mem_reverse.mpr hsig))
      have hcanonical : ∀ sig ∈ signed, isCanonicalSignature sig ∧ sig ∉ keys.map Prod.snd := by
        intro sig hsig
        obtain ⟨chosen, -, hfit⟩ := hmatch
        obtain ⟨key, -, hfit⟩ := exists_request hfit.flip hsig
        exact ⟨hfit.1, hcollect.not_key sig (hmem sig hsig) hfit.1⟩
      rw [h.multiSigCode_eq hlen hcanonical] at hmatch
      rw [← hsigned]
      refine hmatch.length_le_filterMap fun sig hsig key hkey hfit => ?_
      have hne : sig ≠ [] := by
        rintro rfl
        exact absurd hfit.1 (by decide)
      have hsig := hmem sig hsig
      rw [AList.lookup_isSome, ← hsigs]
      exact mem_foldl_addSig (mem_allSigs.mpr ⟨hsig, hne⟩) hkey hfit.2.2
        fun key' hkey' hcheck => hcollect.oneKey sig hsig key' hkey' key hkey hcheck hfit.2.2
    rcases hunlocks with hunlocks | hunlocks
    · exact henough sigs1 (fun _ => List.mem_append_left _) hunlocks
    · exact henough sigs2 (fun _ => List.mem_append_right _) hunlocks
  have hmatch : Matches (SigFits ctx script) (keys.map Prod.snd)
      (((keys.map Prod.snd).filterMap sigs.lookup).take m) :=
    (matches_filterMap fun key hkey sig hlookup => (hfits key hkey sig hlookup).1).take m
  generalize hchosen : ((keys.map Prod.snd).filterMap sigs.lookup).take m = chosen at hmatch
  have hlenChosen : chosen.length = m := by
    rw [← hchosen]
    exact List.length_take_of_le hcount
  have hcanonical : ∀ sig ∈ chosen, isCanonicalSignature sig ∧ sig ∉ keys.map Prod.snd := by
    intro sig hsig
    rw [← hchosen] at hsig
    obtain ⟨key, hkey, hlookup⟩ := List.mem_filterMap.mp (List.mem_of_mem_take hsig)
    obtain ⟨hfit, hmem⟩ := hfits key hkey sig hlookup
    exact ⟨hfit.1, hcollect.not_key sig hmem hfit.1⟩
  have hpush : ofOpcode OP_0 ++ mergeSigs sigs (keys.map Prod.snd) m =
      pushAll (chosen.reverse ++ [[]]) := by
    rw [mergeSigs_eq hcount, hchosen, pushAll, List.reverse_append, List.reverse_reverse]
    rfl
  have hmax := h.le.trans h.max
  have hlenStack : (chosen.reverse ++ [[]]).length = m + 1 := by
    rw [List.length_append, List.length_reverse, hlenChosen]
    rfl
  refine ⟨chosen.reverse ++ [[]], ⟨?_, ?_, ?_, ?_⟩, hpush⟩
  · refine (h.unlocks_iff hlen hlenChosen ?_).mpr ?_
    · have := h.max
      omega
    · rwa [h.multiSigCode_eq hlen hcanonical]
  · intro sig hsig
    rcases List.mem_append.mp hsig with hsig | hsig
    · have := length_le_of_isCanonicalSignature (hcanonical sig (List.mem_reverse.mp hsig)).1
      omega
    · obtain rfl := List.mem_singleton.mp hsig
      exact Nat.zero_le _
  · omega
  · rw [← hpush, mergeSigs_eq hcount, hchosen, List.length_append]
    have hlen := length_flatMap_pushData_le fun sig hsig => (hcanonical sig hsig).1
    have hzero : (ofOpcode OP_0).length = 1 := rfl
    omega

/-- **What is kept is valid**: one of the stacks as it is, or a stack of collected signatures. -/
theorem Merges.spec (h : Merges ctx script sigs1 sigs2 p1 p2) (hlen : script.length ≤ 10000)
    (h1 : p1 → Unlocks ctx sigs1 script) (h2 : p2 → Unlocks ctx sigs2 script) :
    ∃ stack, combineSolved ctx script (solver script).type (solver script).vSolutions sigs1 sigs2 =
      pushAll stack ∧ (p1 ∧ stack = sigs1 ∨ p2 ∧ stack = sigs2 ∨ (p1 ∨ p2) ∧ Merged ctx script stack) := by
  obtain ⟨type, vSolutions, hform, hmerge⟩ := h
  rw [hform.solver_eq]
  -- for a single signature the code keeps one of the stacks
  have hsingle (htype : type = .pubKey ∨ type = .pubKeyHash)
      (hkept : if IsPlaceholder sigs1 then p2 else p1) :
      ∃ stack, combineSolved ctx script type vSolutions sigs1 sigs2 = pushAll stack ∧
        (p1 ∧ stack = sigs1 ∨ p2 ∧ stack = sigs2 ∨ (p1 ∨ p2) ∧ Merged ctx script stack) := by
    have hcode : combineSolved ctx script type vSolutions sigs1 sigs2 =
        if IsPlaceholder sigs1 then pushAll sigs2 else pushAll sigs1 := by
      rcases htype with rfl | rfl <;> rw [combineSolved]
    -- the branch is the one that the condition is about
    rw [hcode]
    split_ifs at hkept ⊢ with hplaceholder
    · exact ⟨sigs2, rfl, .inr (.inl ⟨hkept, rfl⟩)⟩
    · exact ⟨sigs1, rfl, .inl ⟨hkept, rfl⟩⟩
  cases type with
  | nonstandard => exact hmerge.elim
  | scriptHash => exact hmerge.elim
  | pubKey => exact hsingle (.inl rfl) hmerge
  | pubKeyHash => exact hsingle (.inr rfl) hmerge
  | multiSig =>
    obtain ⟨m, keys, hpos, hle, hmax, hkeys, hparse, rfl⟩ := hform
    obtain ⟨hvalid, hcollect⟩ := hmerge
    have hpubKeys : pubKeysOf ([UInt8.ofNat m] :: keys.map Prod.snd ++ [[UInt8.ofNat keys.length]]) =
        keys.map Prod.snd := by
      rw [pubKeysOf]
      simp
    have hrequired : ((([UInt8.ofNat m] :: keys.map Prod.snd ++
        [[UInt8.ofNat keys.length]]).headD []).headD 0).toNat = m := by
      change (UInt8.ofNat m).toNat = m
      rw [UInt8.toNat_ofNat']
      exact Nat.mod_eq_of_lt (by omega)
    rw [hpubKeys] at hcollect
    have hform : MultiSigForm script m keys := ⟨hpos, hle, hmax, hkeys, hparse⟩
    obtain ⟨stack, hmerged, hcode⟩ := hform.merged hlen hcollect (hvalid.imp h1 h2)
    refine ⟨stack, ?_, .inr (.inr ⟨hvalid, hmerged⟩)⟩
    rw [combineSolved, combineMultisig, hpubKeys, hrequired]
    exact hcode

theorem Merges.valid (h : Merges ctx script sigs1 sigs2 p1 p2) : p1 ∨ p2 := by
  obtain ⟨type, _, _, hmerge⟩ := h
  have hsingle (hkept : if IsPlaceholder sigs1 then p2 else p1) : p1 ∨ p2 := by
    split_ifs at hkept
    · exact .inr hkept
    · exact .inl hkept
  cases type with
  | nonstandard => exact hmerge.elim
  | scriptHash => exact hmerge.elim
  | pubKey => exact hsingle hmerge
  | pubKeyHash => exact hsingle hmerge
  | multiSig => exact hmerge.1

end Merge

/-! ## The result -/

section Result

variable {ctx : SigContext} {scriptPubKey : CScript} {stack sigs1 sigs2 : List Valtype}
  {p1 p2 : Prop}

/-- A stack that opens the output, and that can be pushed. -/
structure Pushable (ctx : SigContext) (scriptPubKey : CScript) (stack : List Valtype) : Prop where
  opens : Opens ctx stack scriptPubKey
  sized : Sized stack
  length_le : stack.length ≤ 1000
  length_pushAll_le : (pushAll stack).length ≤ 10000

theorem Pushable.accepts (h : Pushable ctx scriptPubKey stack) :
    Accepts ctx (pushAll stack) scriptPubKey :=
  accepts_pushAll h.opens h.sized h.length_pushAll_le h.length_le

/-- What a valid `scriptSig` leaves in the context of `CombineSignatures`. -/
theorem pushable_of_accepts (hk : ctx.crypto.Sized) {nAdjustedTime : Nat} {scriptSig : CScript}
    (haccepts : Accepts ctx scriptSig scriptPubKey) (h : Replays ctx nAdjustedTime scriptSig) :
    Pushable ctx scriptPubKey (stackLeft (ctx.blank nAdjustedTime) scriptSig) := by
  obtain ⟨stack, heval, hopens, -⟩ := accepts_iff.mp haccepts
  obtain ⟨hsame, hlen⟩ := h
  obtain rfl := Option.some.inj (heval.symm.trans hsame)
  obtain ⟨hsized, hmax⟩ := limits_of_evalScript hk heval
  exact ⟨hopens, hsized, hmax, hlen⟩

theorem pushAll_cons (top : Valtype) (stack : List Valtype) :
    pushAll (top :: stack) = pushAll stack ++ pushData top := by
  unfold pushAll
  rw [List.reverse_cons, List.flatMap_append, List.flatMap_singleton]

/-- The result for an output that is no script hash. -/
theorem Merges.accepts (h : Merges ctx scriptPubKey sigs1 sigs2 p1 p2)
    (hp2sh : ¬ isPayToScriptHash scriptPubKey) (h1 : p1 → Pushable ctx scriptPubKey sigs1)
    (h2 : p2 → Pushable ctx scriptPubKey sigs2) :
    Accepts ctx (combineSolved ctx scriptPubKey (solver scriptPubKey).type
      (solver scriptPubKey).vSolutions sigs1 sigs2) scriptPubKey := by
  have hlen : scriptPubKey.length ≤ 10000 := by
    rcases h.valid with hp | hp
    · exact (unlocks_iff.mp (h1 hp).opens.1).1
    · exact (unlocks_iff.mp (h2 hp).opens.1).1
  obtain ⟨stack, hcode, hstack⟩ := h.spec hlen (fun hp => (h1 hp).opens.1) fun hp => (h2 hp).opens.1
  rw [hcode]
  rcases hstack with ⟨hp, rfl⟩ | ⟨hp, rfl⟩ | ⟨-, hmerged⟩
  · exact (h1 hp).accepts
  · exact (h2 hp).accepts
  · have := hmerged.length_le
    have := hmerged.length_pushAll_le
    exact Pushable.accepts ⟨⟨hmerged.unlocks, fun h => absurd h hp2sh⟩, hmerged.sized, by omega,
      by omega⟩

/-- The script on top of a stack for a script hash is valid for what is below it, and is what the
output asks for. -/
theorem Pushable.redeem {spk : Valtype} (h : Pushable ctx scriptPubKey (spk :: stack))
    (hp2sh : isPayToScriptHash scriptPubKey) : Unlocks ctx stack spk ∧ spk.length ≤ 520 ∧
      ∀ sigs : List Valtype, sigs.length ≤ 17 → Unlocks ctx (spk :: sigs) scriptPubKey := by
  obtain ⟨redeem, rest, heq, hunlocks⟩ := h.opens.2 hp2sh
  obtain ⟨rfl, rfl⟩ := List.cons_eq_cons.mp heq
  refine ⟨hunlocks, h.sized spk List.mem_cons_self, fun sigs hsigs => ?_⟩
  obtain ⟨hash, hlen, rfl⟩ := isPayToScriptHash_iff.mp hp2sh
  exact (unlocks_scriptHash hlen).mpr ⟨by omega, ((unlocks_scriptHash hlen).mp h.opens.1).2⟩

/-- The result for a script hash, where both stacks have a script on top. -/
theorem Merges.accepts_redeem {spk1 spk2 : Valtype}
    (h : Merges ctx spk1 sigs1 sigs2 p1 (p2 ∧ spk2 = spk1))
    (hp2sh : isPayToScriptHash scriptPubKey) (h1 : p1 → Pushable ctx scriptPubKey (spk1 :: sigs1))
    (h2 : p2 → Pushable ctx scriptPubKey (spk2 :: sigs2)) :
    Accepts ctx (combineSolved ctx spk1 (solver spk1).type (solver spk1).vSolutions sigs1 sigs2 ++
      pushData spk1) scriptPubKey := by
  have h2 : p2 ∧ spk2 = spk1 → Pushable ctx scriptPubKey (spk1 :: sigs2) := by
    rintro ⟨hp, rfl⟩
    exact h2 hp
  obtain ⟨hsized, hhash⟩ : spk1.length ≤ 520 ∧ ∀ sigs : List Valtype, sigs.length ≤ 17 →
      Unlocks ctx (spk1 :: sigs) scriptPubKey := by
    rcases h.valid with hp | hp
    · exact ((h1 hp).redeem hp2sh).2
    · exact ((h2 hp).redeem hp2sh).2
  obtain ⟨stack, hcode, hstack⟩ := h.spec (by omega) (fun hp => ((h1 hp).redeem hp2sh).1)
    fun hp => ((h2 hp).redeem hp2sh).1
  rw [hcode, ← pushAll_cons]
  rcases hstack with ⟨hp, rfl⟩ | ⟨hp, rfl⟩ | ⟨-, hmerged⟩
  · exact (h1 hp).accepts
  · exact (h2 hp).accepts
  · have hmax := hmerged.length_le
    have hpush := hmerged.length_pushAll_le
    refine Pushable.accepts ⟨⟨hhash stack hmax, fun _ => ⟨spk1, stack, rfl, hmerged.unlocks⟩⟩,
      hmerged.sized.cons hsized, by rw [List.length_cons]; omega, ?_⟩
    rw [pushAll_cons, List.length_append]
    have := length_pushData_le hsized
    omega

/-- The result for a script hash. -/
theorem MergesRedeem.accepts (h : MergesRedeem ctx sigs1 sigs2 p1 p2)
    (hp2sh : isPayToScriptHash scriptPubKey) (h1 : p1 → Pushable ctx scriptPubKey sigs1)
    (h2 : p2 → Pushable ctx scriptPubKey sigs2) (vSolutions : List Valtype) :
    Accepts ctx (combineSolved ctx scriptPubKey .scriptHash vSolutions sigs1 sigs2)
      scriptPubKey := by
  -- the cases are those of the code
  rcases sigs1 with _ | ⟨_ | ⟨b1, spk1⟩, sigs1⟩
  · rw [combineSolved]
    exact (h2 h).accepts
  · rw [combineSolved]
    exact (h2 h).accepts
  · rcases sigs2 with _ | ⟨_ | ⟨b2, spk2⟩, sigs2⟩
    · rw [combineSolved]
      · exact (h1 h).accepts
      all_goals nofun
    · rw [combineSolved]
      · exact (h1 h).accepts
      all_goals nofun
    · rw [combineSolved]
      · exact Merges.accepts_redeem h hp2sh h1 h2
      all_goals nofun

/-- A valid `scriptSig` of pushes is evaluated to the same stack once more. -/
theorem replays_of_isPushOnly {nAdjustedTime : Nat} {scriptSig : CScript}
    (hpush : isPushOnly scriptSig) (heval : (evalScript ctx [] scriptSig).result = some stack)
    (hlen : (pushAll stack).length ≤ 10000) : Replays ctx nAdjustedTime scriptSig := by
  have hblank : (evalScript (ctx.blank nAdjustedTime) [] scriptSig).result = some stack := by
    rwa [@evalScript_of_isPushOnly (ctx.blank nAdjustedTime) ctx scriptSig [] rfl hpush]
  rw [Replays, stackLeft_of_evalScript hblank]
  exact ⟨heval, hlen⟩

/-- **A merge of two `scriptSig`s is valid** if what is kept of the stacks is: for a key or the hash of a key, the stack that the code chooses; for several keys, one stack at
least, as long as the signatures of both are such as the interpreter takes; and for a script hash,
the same for the script on top of the first stack. -/
theorem combineSignatures_keeps (crypto : ScriptCrypto) (hcrypto : crypto.Sized)
    (txTo : CTransaction) (nIn nAdjustedTime : Nat) (scriptPubKey scriptSig1 scriptSig2 : CScript)
    (h1 : Accepts ⟨crypto, txTo, nIn, 0⟩ scriptSig1 scriptPubKey →
      Replays ⟨crypto, txTo, nIn, 0⟩ nAdjustedTime scriptSig1)
    (h2 : Accepts ⟨crypto, txTo, nIn, 0⟩ scriptSig2 scriptPubKey →
      Replays ⟨crypto, txTo, nIn, 0⟩ nAdjustedTime scriptSig2)
    (hmerge : (if isPayToScriptHash scriptPubKey then MergesRedeem ⟨crypto, txTo, nIn, 0⟩
        else Merges ⟨crypto, txTo, nIn, 0⟩ scriptPubKey)
      (stackLeft (.blank ⟨crypto, txTo, nIn, 0⟩ nAdjustedTime) scriptSig1)
      (stackLeft (.blank ⟨crypto, txTo, nIn, 0⟩ nAdjustedTime) scriptSig2)
      (Accepts ⟨crypto, txTo, nIn, 0⟩ scriptSig1 scriptPubKey)
      (Accepts ⟨crypto, txTo, nIn, 0⟩ scriptSig2 scriptPubKey)) :
    Accepts ⟨crypto, txTo, nIn, 0⟩ (combineSignatures ⟨crypto, txTo, nIn, 0⟩ nAdjustedTime
      scriptPubKey scriptSig1 scriptSig2) scriptPubKey := by
  unfold combineSignatures
  have hpush1 := fun h => pushable_of_accepts hcrypto h (h1 h)
  have hpush2 := fun h => pushable_of_accepts hcrypto h (h2 h)
  by_cases hp2sh : isPayToScriptHash scriptPubKey
  · rw [if_pos hp2sh] at hmerge
    have hsolver : (solver scriptPubKey).type = .scriptHash := by
      unfold solver
      rw [if_pos hp2sh]
    dsimp only
    rw [hsolver]
    exact hmerge.accepts hp2sh hpush1 hpush2 _
  · rw [if_neg hp2sh] at hmerge
    exact hmerge.accepts hp2sh hpush1 hpush2

/-- All signatures are valid for the keys that start with `0x03`. -/
def oddKeyCrypto : ScriptCrypto :=
  { emptyStringCrypto with verify := fun vchPubKey _ _ => vchPubKey.head? == some 0x03 }

/-- `1 <key> <key> 2 OP_CHECKMULTISIG`. -/
def oneOfTwoScript : CScript :=
  ofOpcode OP_1 ++ pushData (compressedKey 2 5) ++ pushData (compressedKey 3 5) ++ ofOpcode 0x52 ++
    ofOpcode OP_CHECKMULTISIG

/-- Of a `scriptSig` with a signature and an empty one. -/
theorem combineSignatures_keeps_oneOfTwo :
    Accepts ⟨oddKeyCrypto, .empty, 0, 0⟩ (combineSignatures ⟨oddKeyCrypto, .empty, 0, 0⟩ 0
      oneOfTwoScript (ofOpcode OP_0 ++ pushData shortSig) []) oneOfTwoScript := by
  have hsized : oddKeyCrypto.Sized := ⟨fun _ => rfl, fun _ => rfl, fun _ => rfl⟩
  have hone : (evalScript ⟨oddKeyCrypto, .empty, 0, 0⟩ [] (ofOpcode OP_0 ++ pushData shortSig)).result =
      some [shortSig, []] := by
    decide +kernel
  have hleft1 : stackLeft (.blank ⟨oddKeyCrypto, .empty, 0, 0⟩ 0)
      (ofOpcode OP_0 ++ pushData shortSig) = [shortSig, []] := by
    decide +kernel
  have hleft2 : stackLeft (.blank ⟨oddKeyCrypto, .empty, 0, 0⟩ 0) [] = [] := by
    decide +kernel
  have hform : StandardForm oneOfTwoScript .multiSig
      [[1], compressedKey 2 5, compressedKey 3 5, [2]] :=
    standardForm_of_solver (by decide +kernel)
  refine combineSignatures_keeps oddKeyCrypto hsized .empty 0 0 oneOfTwoScript _ _
    (fun _ => replays_of_isPushOnly (by decide +kernel) hone (by decide +kernel))
    (fun h => absurd h (by decide +kernel)) ?_
  rw [if_neg (by decide +kernel), hleft1, hleft2]
  refine ⟨_, _, hform, .inl (by decide +kernel), ?_, ?_, ?_⟩
  all_goals decide +kernel

/-- Two stacks do not always merge into a valid one: an element that is no signature stands in for
the signature of the other. -/
theorem not_combineSignatures_keeps :
    ¬ ∀ (crypto : ScriptCrypto) (txTo : CTransaction) (nIn nAdjustedTime : Nat)
      (scriptPubKey scriptSig1 scriptSig2 : CScript) (type : TxnOutType)
      (vSolutions : List Valtype), crypto.Sized → StandardForm scriptPubKey type vSolutions →
      (∀ sig, ∀ key ∈ vSolutions, ∀ key' ∈ vSolutions,
        checkSig ⟨crypto, txTo, nIn, 0⟩ sig key scriptPubKey →
        checkSig ⟨crypto, txTo, nIn, 0⟩ sig key' scriptPubKey → key = key') →
      Accepts ⟨crypto, txTo, nIn, 0⟩ scriptSig1 scriptPubKey ∨
        Accepts ⟨crypto, txTo, nIn, 0⟩ scriptSig2 scriptPubKey →
      Accepts ⟨crypto, txTo, nIn, 0⟩ (combineSignatures ⟨crypto, txTo, nIn, 0⟩ nAdjustedTime
        scriptPubKey scriptSig1 scriptSig2) scriptPubKey := by
  intro h
  have hsized : oddKeyCrypto.Sized := ⟨fun _ => rfl, fun _ => rfl, fun _ => rfl⟩
  have hform : StandardForm (pushData (compressedKey 3 5) ++ ofOpcode OP_CHECKSIG) .pubKey
      [compressedKey 3 5] :=
    standardForm_of_solver (by decide +kernel)
  have hvalid := h oddKeyCrypto .empty 0 0 (pushData (compressedKey 3 5) ++ ofOpcode OP_CHECKSIG)
    (pushData [1]) (pushData shortSig) .pubKey [compressedKey 3 5] hsized hform
    (fun sig key hkey key' hkey' _ _ =>
      (List.mem_singleton.mp hkey).trans (List.mem_singleton.mp hkey').symm)
    (.inr (by decide +kernel))
  -- the first stack has an element, so that it is kept
  exact absurd hvalid (by decide +kernel)

end Result

end MotaCoin
