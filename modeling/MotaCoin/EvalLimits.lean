import MotaCoin.EvalAccess
import Mathlib.Data.Nat.Digits.Lemmas

/-!
# The limits of the interpreter

What `EvalScript` keeps to while it runs: the sizes of the elements, how many there are on the two
stacks, and how many operations it has counted.

## Main definitions

* `ScriptCrypto.Sized`: the sizes of the hashes
* `Sized stack`: no element is larger than 520 bytes
* `EvalState.Limits`: the limits between two operations
* `countedOps`: the operations of a script that are counted

## Main results

* `ScriptOp.sized_exec`: no operation makes a large element
* `EvalState.Limits.evalFrom`: the loop keeps the limits
* `evalScript_safe`: no access leaves a stack, and the limits hold wherever `EvalScript` returns true
-/

namespace MotaCoin

open Wire Access

/-- The sizes of the hashes, which the source writes into buffers of this size. -/
structure ScriptCrypto.Sized (k : ScriptCrypto) : Prop where
  ripemd160 : ∀ vch, (k.ripemd160 vch).length = 20
  sha1 : ∀ vch, (k.sha1 vch).length = 20
  sha256 : ∀ vch, (k.sha256 vch).length = 32

/-- No element is larger than 520 bytes. -/
def Sized (stack : List Valtype) : Prop := ∀ vch ∈ stack, vch.length ≤ 520

/-! ## The sizes of numbers -/

theorem CBigNum.natAbs_setvch_lt (vch : Valtype) : (setvch vch).natAbs < 256 ^ vch.length := by
  unfold setvch
  split
  · exact Nat.pow_pos (by decide)
  · next top htop =>
    split_ifs
    · exact ofLE_lt vch
    · have hlen : (vch.dropLast ++ [top &&& 0x7f]).length = vch.length := by
        have := List.length_pos_of_ne_nil (List.ne_nil_of_mem (List.mem_of_getLast? htop))
        rw [List.length_append, List.length_dropLast, List.length_singleton]
        omega
      rw [Int.natAbs_neg, Int.natAbs_natCast, ← hlen]
      exact ofLE_lt _

theorem CBigNum.length_getvch_le {n : Int} {m : Nat} (h : n.natAbs < 256 ^ m) :
    (getvch n).length ≤ m + 1 := by
  have hdigits : ((Nat.digits 256 n.natAbs).map UInt8.ofNat).length ≤ m := by
    rw [List.length_map]
    exact (Nat.digits_length_le_iff (by decide) _).mpr h
  unfold getvch
  dsimp only
  split
  · exact Nat.zero_le _
  · split
    · rw [List.length_append]
      exact Nat.add_le_add_right hdigits 1
    · split
      · rw [List.length_append, List.length_dropLast]
        exact Nat.add_le_add_right ((Nat.sub_le _ 1).trans hdigits) 1
      · exact hdigits.trans (Nat.le_succ m)

theorem natAbs_lt_of_castToBigNum {vch : Valtype} {n : Int} (h : castToBigNum vch = some n) :
    n.natAbs < 256 ^ 4 := by
  unfold castToBigNum at h
  split_ifs at h with hlen
  obtain rfl := Option.some.inj h
  exact (CBigNum.natAbs_setvch_lt vch).trans_le
    (Nat.pow_le_pow_right (by decide) (Nat.le_of_not_lt hlen))

theorem natAbs_bnBool_le (b : Bool) : (bnBool b).natAbs ≤ 1 := by
  cases b <;> decide

theorem UnaryOp.natAbs_apply_le (op : UnaryOp) (bn : Int) :
    (op.apply bn).natAbs ≤ bn.natAbs + 1 := by
  cases op <;> simp only [UnaryOp.apply]
  case not => exact (natAbs_bnBool_le _).trans (Nat.le_add_left 1 _)
  case zeroNotEqual => exact (natAbs_bnBool_le _).trans (Nat.le_add_left 1 _)
  all_goals omega

theorem BinaryOp.natAbs_apply_le (op : BinaryOp) (bn1 bn2 : Int) :
    (op.apply bn1 bn2).natAbs ≤ bn1.natAbs + bn2.natAbs + 1 := by
  have hbool (b : Bool) : (bnBool b).natAbs ≤ bn1.natAbs + bn2.natAbs + 1 :=
    (natAbs_bnBool_le b).trans (Nat.le_add_left 1 _)
  cases op <;> simp only [BinaryOp.apply]
  case add => omega
  case sub => omega
  case min => split_ifs <;> omega
  case max => split_ifs <;> omega
  all_goals exact hbool _

/-! ## No operation makes a large element -/

theorem HashOp.length_apply_le {k : ScriptCrypto} (hk : k.Sized) (op : HashOp) (vch : Valtype) :
    (op.apply k vch).length ≤ 520 := by
  cases op
  case sha1 => exact (hk.sha1 vch).trans_le (by decide)
  case ripemd160 => exact (hk.ripemd160 vch).trans_le (by decide)
  case hash160 => exact (hk.ripemd160 _).trans_le (by decide)
  all_goals exact (hk.sha256 _).trans_le (by decide)

theorem length_vchBool_le (b : Bool) : (vchBool b).length ≤ 520 := by
  cases b <;> decide

theorem sized_cons {vch : Valtype} {stack : List Valtype} :
    Sized (vch :: stack) ↔ vch.length ≤ 520 ∧ Sized stack := List.forall_mem_cons

theorem Sized.cons {vch : Valtype} {stack : List Valtype} (hvch : vch.length ≤ 520)
    (h : Sized stack) : Sized (vch :: stack) := sized_cons.mpr ⟨hvch, h⟩

/-- What is made of elements there are is no larger than they. -/
theorem Sized.of_subset {stack stack' : List Valtype} (h : Sized stack) (hsub : stack' ⊆ stack) :
    Sized stack' := fun vch hvch => h vch (hsub hvch)

theorem pickAt_subset {fRoll : Bool} {n : Int} {stack stack' : List Valtype}
    (h : pickAt fRoll n stack = some stack') : stack' ⊆ stack := by
  have hrest : (if fRoll then stack.eraseIdx n.toNat else stack) ⊆ stack := by
    split
    · exact List.eraseIdx_subset
    · exact List.Subset.refl stack
  unfold pickAt at h
  split at h
  · cases h
  · split at h
    · cases h
    · next vch hvch =>
      obtain rfl := Option.some.inj h
      exact List.cons_subset.mpr ⟨List.mem_of_getElem? hvch, hrest⟩

/-- Numbers of five bytes and less are small elements. -/
theorem length_getvch_le {n : Int} (h : n.natAbs < 256 ^ 5) :
    (CBigNum.getvch n).length ≤ 520 :=
  (CBigNum.length_getvch_le h).trans (by decide)

theorem UnaryOp.length_getvch_apply_le (op : UnaryOp) {vch : Valtype} {bn : Int}
    (h : castToBigNum vch = some bn) : (CBigNum.getvch (op.apply bn)).length ≤ 520 := by
  have := op.natAbs_apply_le bn
  have := natAbs_lt_of_castToBigNum h
  exact length_getvch_le (by omega)

theorem BinaryOp.length_getvch_apply_le (op : BinaryOp) {vch1 vch2 : Valtype} {bn1 bn2 : Int}
    (h1 : castToBigNum vch1 = some bn1) (h2 : castToBigNum vch2 = some bn2) :
    (CBigNum.getvch (op.apply bn1 bn2)).length ≤ 520 := by
  have := op.natAbs_apply_le bn1 bn2
  have := natAbs_lt_of_castToBigNum h1
  have := natAbs_lt_of_castToBigNum h2
  exact length_getvch_le (by omega)

theorem ScriptOp.sized_execStack {k : ScriptCrypto} (hk : k.Sized) {op : ScriptOp}
    {stack stack' : List Valtype} (hnum : ∀ n, op = .num n → n.natAbs < 256)
    (hlen : stack.length ≤ 1000) (h : Sized stack)
    (hop : op.execStack k stack = some stack') : Sized stack' := by
  cases op
  case num n =>
    obtain rfl := Option.some.inj hop
    have := hnum n rfl
    exact h.cons (length_getvch_le (by omega))
  case pick =>
    rcases stack with _ | ⟨n, _ | ⟨x, stack⟩⟩
    · cases hop
    · cases hop
    · obtain ⟨bn, -, hpick⟩ := Option.bind_eq_some_iff.mp hop
      exact h.of_subset fun x hx => List.mem_cons_of_mem n (pickAt_subset hpick hx)
  case roll =>
    rcases stack with _ | ⟨n, _ | ⟨x, stack⟩⟩
    · cases hop
    · cases hop
    · obtain ⟨bn, -, hpick⟩ := Option.bind_eq_some_iff.mp hop
      exact h.of_subset fun x hx => List.mem_cons_of_mem n (pickAt_subset hpick hx)
  case unary op =>
    rcases stack with _ | ⟨vch, stack⟩
    · cases hop
    · obtain ⟨bn, hbn, rfl⟩ := Option.map_eq_some_iff.mp hop
      exact .cons (op.length_getvch_apply_le hbn) (h.of_subset (List.subset_cons_self _ _))
  case binary op =>
    rcases stack with _ | ⟨vch2, _ | ⟨vch1, stack⟩⟩
    · cases hop
    · cases hop
    · obtain ⟨bn1, hbn1, hop⟩ := Option.bind_eq_some_iff.mp hop
      obtain ⟨bn2, hbn2, hop⟩ := Option.bind_eq_some_iff.mp hop
      have hrest : Sized stack := h.of_subset fun x hx => by simp [hx]
      dsimp only at hop
      split_ifs at hop
      · obtain rfl := Option.some.inj hop
        exact hrest
      · obtain rfl := Option.some.inj hop
        exact .cons (op.length_getvch_apply_le hbn1 hbn2) hrest
  case within =>
    rcases stack with _ | ⟨vch3, _ | ⟨vch2, _ | ⟨vch1, stack⟩⟩⟩
    · cases hop
    · cases hop
    · cases hop
    · obtain ⟨bn1, -, hop⟩ := Option.bind_eq_some_iff.mp hop
      obtain ⟨bn2, -, hop⟩ := Option.bind_eq_some_iff.mp hop
      obtain ⟨bn3, -, hop⟩ := Option.bind_eq_some_iff.mp hop
      obtain rfl := Option.some.inj hop
      exact .cons (length_vchBool_le _) (h.of_subset fun x hx => by simp [hx])
  case hash op =>
    rcases stack with _ | ⟨vch, stack⟩
    · cases hop
    · obtain rfl := Option.some.inj hop
      exact .cons (op.length_apply_le hk vch) (h.of_subset (List.subset_cons_self _ _))
  case depth =>
    obtain rfl := Option.some.inj hop
    exact h.cons (length_getvch_le (by omega))
  case size =>
    rcases stack with _ | ⟨vch, stack⟩
    · cases hop
    · obtain rfl := Option.some.inj hop
      have := h vch List.mem_cons_self
      exact h.cons (length_getvch_le (by omega))
  case equal =>
    rcases stack with _ | ⟨vch2, _ | ⟨vch1, stack⟩⟩
    · cases hop
    · cases hop
    · obtain rfl := Option.some.inj hop
      exact .cons (length_vchBool_le _) (h.of_subset fun x hx => by simp [hx])
  case equalVerify =>
    rcases stack with _ | ⟨vch2, _ | ⟨vch1, stack⟩⟩
    · cases hop
    · cases hop
    · simp only [ScriptOp.execStack] at hop
      split_ifs at hop
      obtain rfl := Option.some.inj hop
      exact h.of_subset fun x hx => by simp [hx]
  case verify =>
    rcases stack with _ | ⟨vch, stack⟩
    · cases hop
    · simp only [ScriptOp.execStack] at hop
      split_ifs at hop
      obtain rfl := Option.some.inj hop
      exact h.of_subset (List.subset_cons_self _ _)
  case ifDup =>
    rcases stack with _ | ⟨vch, stack⟩
    · cases hop
    · obtain rfl := Option.some.inj hop
      split
      · exact h.cons (h vch List.mem_cons_self)
      · exact h
  case twoRot =>
    rcases stack with _ | ⟨x6, _ | ⟨x5, _ | ⟨x4, _ | ⟨x3, _ | ⟨vch2, _ | ⟨vch1, stack⟩⟩⟩⟩⟩⟩ <;>
      cases hop
    simp only [sized_cons] at h ⊢
    simp [h]
  -- the other ones only move elements around
  all_goals
    rcases stack with _ | ⟨x4, _ | ⟨x3, _ | ⟨x2, _ | ⟨x1, stack⟩⟩⟩⟩ <;> cases hop <;>
      simp only [sized_cons] at h ⊢ <;> simp [h]

/-! ## The loop keeps the limits -/

/-- The limits between two operations. -/
structure EvalState.Limits (s : EvalState) : Prop where
  stack : Sized s.stack
  altstack : Sized s.altstack
  length_le : s.stack.length + s.altstack.length ≤ 1000
  nOpCount_le : s.nOpCount ≤ 201

/-- What one operation keeps of the limits: the number of elements is tested after it. -/
structure EvalState.Kept (s s' : EvalState) : Prop where
  stack : Sized s'.stack
  altstack : Sized s'.altstack
  le_nOpCount : s.nOpCount ≤ s'.nOpCount
  nOpCount_le : s'.nOpCount ≤ 201

section Steps

variable {ctx : SigContext} {s s' : EvalState} {pc : CScript} {opcode : Nat}

theorem EvalState.Limits.kept (h : s.Limits) : s.Kept s :=
  ⟨h.stack, h.altstack, le_rfl, h.nOpCount_le⟩

theorem natAbs_lt_of_ofOpcode {n : Int} (h : ScriptOp.ofOpcode opcode = some (.num n)) :
    n.natAbs < 256 := by
  unfold ScriptOp.ofOpcode at h
  split at h
  · next hrange =>
    simp only [OP_1NEGATE, OP_1, OP_16] at hrange
    cases h
    omega
  · split at h
    · cases h
    · split at h <;> cases h

theorem kept_execIf {fNot : Bool} (h : s.Limits) (hop : execIf fNot s = some s') : s.Kept s' := by
  unfold execIf at hop
  split at hop
  · split at hop
    · cases hop
    · next vch stack hstack =>
      cases hop
      have hrest : Sized stack := h.stack.of_subset (hstack ▸ List.subset_cons_self _ _)
      exact ⟨hrest, h.altstack, le_rfl, h.nOpCount_le⟩
  · cases hop
    exact ⟨h.stack, h.altstack, le_rfl, h.nOpCount_le⟩

theorem ScriptOp.kept_exec (hk : ctx.crypto.Sized) {op : ScriptOp}
    (hnum : ∀ n, op = .num n → n.natAbs < 256) (h : s.Limits)
    (hop : op.exec ctx.crypto pc s = some s') : s.Kept s' := by
  have hstack : ((op.execStack ctx.crypto s.stack).map fun stack => { s with stack := stack }) =
      some s' → s.Kept s' := by
    intro hmap
    obtain ⟨stack, hexec, rfl⟩ := Option.map_eq_some_iff.mp hmap
    have hlen : s.stack.length ≤ 1000 := (Nat.le_add_right _ _).trans h.length_le
    exact ⟨sized_execStack hk hnum hlen h.stack hexec, h.altstack, le_rfl, h.nOpCount_le⟩
  cases op
  case if_ => exact kept_execIf h hop
  case notIf => exact kept_execIf h hop
  case nop => cases hop; exact h.kept
  case codeSeparator => cases hop; exact ⟨h.stack, h.altstack, le_rfl, h.nOpCount_le⟩
  case return_ => cases hop
  case else_ =>
    simp only [ScriptOp.exec] at hop
    split at hop <;> cases hop
    exact ⟨h.stack, h.altstack, le_rfl, h.nOpCount_le⟩
  case endIf =>
    simp only [ScriptOp.exec] at hop
    split at hop <;> cases hop
    exact ⟨h.stack, h.altstack, le_rfl, h.nOpCount_le⟩
  case toAltStack =>
    simp only [ScriptOp.exec] at hop
    split at hop
    · cases hop
    · next vch stack hs =>
      cases hop
      obtain ⟨hvch, hrest⟩ := List.forall_mem_cons.mp (hs ▸ h.stack)
      exact ⟨hrest, h.altstack.cons hvch, le_rfl, h.nOpCount_le⟩
  case fromAltStack =>
    simp only [ScriptOp.exec] at hop
    split at hop
    · cases hop
    · next vch altstack hs =>
      cases hop
      obtain ⟨hvch, hrest⟩ := List.forall_mem_cons.mp (hs ▸ h.altstack)
      exact ⟨h.stack.cons hvch, hrest, le_rfl, h.nOpCount_le⟩
  all_goals exact hstack hop

theorem kept_pushSuccess {fVerify fSuccess : Bool} {s₁ : EvalState} (h : s.Kept s₁)
    (hop : (pushSuccess fVerify fSuccess s₁).result = some s') : s.Kept s' := by
  unfold pushSuccess at hop
  split_ifs at hop
  · cases hop
    exact h
  · cases hop
  · cases hop
    exact ⟨h.stack.cons (length_vchBool_le _), h.altstack, h.le_nOpCount, h.nOpCount_le⟩

theorem kept_evalCheckSig {fVerify : Bool} (h : s.Limits)
    (hop : (evalCheckSig ctx fVerify s).result = some s') : s.Kept s' := by
  unfold evalCheckSig at hop
  split at hop
  · next vchPubKey vchSig stack hstack =>
    obtain ⟨fCheckSig, -, hop⟩ := Counted.exists_of_result_bind hop
    have hrest : Sized stack := h.stack.of_subset fun x hx => by simp [hstack, hx]
    have hpopped : s.Kept { s with stack := stack } := ⟨hrest, h.altstack, le_rfl, h.nOpCount_le⟩
    exact kept_pushSuccess hpopped hop
  · cases hop

/-- The keys are counted with the operation, and still within the limit. -/
theorem multiSigArgs_nOpCount {stack : List Valtype} {nOpCount : Nat} {args : MultiSigArgs}
    (h : multiSigArgs stack nOpCount = some args) :
    nOpCount ≤ args.nOpCount ∧ args.nOpCount ≤ 201 ∧ args.stack ⊆ stack := by
  obtain ⟨nKeysCount, -, h⟩ := Option.bind_eq_some_iff.mp h
  obtain ⟨-, -, h⟩ := Option.bind_eq_some_iff.mp h
  obtain ⟨_, hops, h⟩ := Option.bind_eq_some_iff.mp h
  obtain ⟨nSigsCount, -, h⟩ := Option.bind_eq_some_iff.mp h
  obtain ⟨-, -, h⟩ := Option.bind_eq_some_iff.mp h
  obtain ⟨-, -, h⟩ := Option.bind_eq_some_iff.mp h
  cases h
  exact ⟨Nat.le_add_right _ _, (Option.guard_eq_some' _).mp hops, List.drop_subset _ _⟩

theorem kept_evalCheckMultiSig {fVerify : Bool} (h : s.Limits)
    (hop : (evalCheckMultiSig ctx fVerify s).result = some s') : s.Kept s' := by
  unfold evalCheckMultiSig at hop
  split at hop
  · cases hop
  · next args hargs =>
    obtain ⟨hle, hlimit, hsub⟩ := multiSigArgs_nOpCount hargs
    obtain ⟨fSuccess, -, hop⟩ := Counted.exists_of_result_bind hop
    have hpopped : s.Kept { s with stack := args.stack, nOpCount := args.nOpCount } :=
      ⟨h.stack.of_subset hsub, h.altstack, hle, hlimit⟩
    exact kept_pushSuccess hpopped hop

theorem kept_evalSwitch (hk : ctx.crypto.Sized) (h : s.Limits)
    (hop : (evalSwitch ctx opcode pc s).result = some s') : s.Kept s' := by
  unfold evalSwitch at hop
  split_ifs at hop
  · exact kept_evalCheckSig h hop
  · exact kept_evalCheckMultiSig h hop
  · rw [Counted.result_ofOption] at hop
    obtain ⟨op, hopcode, hop⟩ := Option.bind_eq_some_iff.mp hop
    refine op.kept_exec hk (fun n hn => ?_) h hop
    exact natAbs_lt_of_ofOpcode (hn ▸ hopcode)

theorem kept_evalOp (hk : ctx.crypto.Sized) {vchPushValue : Valtype}
    (hlen : vchPushValue.length ≤ 520) (h : s.Limits)
    (hop : (evalOp ctx opcode vchPushValue pc s).result = some s') : s.Kept s' := by
  unfold evalOp at hop
  split_ifs at hop
  · cases hop
    exact ⟨h.stack.cons hlen, h.altstack, le_rfl, h.nOpCount_le⟩
  · exact kept_evalSwitch hk h hop
  · cases hop
    exact h.kept

/-- A round that goes on keeps the limits, and counts its operation unless it is a push. -/
theorem EvalState.Limits.evalRound (hk : ctx.crypto.Sized) {vchPushValue : Valtype}
    (h : s.Limits) (hround : (evalRound ctx opcode vchPushValue pc s).result = some s') :
    s'.Limits ∧ (s.countOp opcode).nOpCount ≤ s'.nOpCount := by
  unfold MotaCoin.evalRound at hround
  split_ifs at hround with hlen hcount hdisabled
  · cases hround
  · cases hround
  · cases hround
  · obtain ⟨s₁, hop, hround⟩ := Counted.exists_of_result_bind hround
    split_ifs at hround with hsize
    · cases hround
    · cases hround
      have hadmitted : (s.countOp opcode).Limits := by
        refine ⟨h.stack, h.altstack, h.length_le, ?_⟩
        by_cases hpush : OP_16 < opcode
        · exact Nat.le_of_not_lt fun hlt => hcount ⟨hpush, hlt⟩
        · unfold EvalState.countOp
          rw [if_neg hpush]
          exact h.nOpCount_le
      have hkept := kept_evalOp hk (Nat.le_of_not_lt hlen) hadmitted hop
      exact ⟨⟨hkept.stack, hkept.altstack, Nat.le_of_not_lt hsize, hkept.nOpCount_le⟩,
        hkept.le_nOpCount⟩

end Steps

section Runs

variable {ctx : SigContext}

/-- The operations from `pc` on that `EvalScript` counts, one each. -/
def countedOps (pc : CScript) : Nat :=
  match _ : getOp2 pc with
  | none => 0
  | some (opcode, _, pc') => (if OP_16 < opcode then 1 else 0) + countedOps pc'
termination_by pc.length
decreasing_by exact getOp2_length_lt ‹_›

theorem countedOps_of_getOp2 {pc pc' : CScript} {opcode : Nat} {data : Valtype}
    (h : getOp2 pc = some (opcode, data, pc')) :
    countedOps pc = (if OP_16 < opcode then 1 else 0) + countedOps pc' := by
  rw [countedOps]
  split
  · next hnone => cases hnone.symm.trans h
  · next hsome =>
    cases hsome.symm.trans h
    rfl

/-- The loop keeps the limits, and has counted all operations when it ends. -/
theorem EvalState.Limits.evalFrom (hk : ctx.crypto.Sized) {pc : CScript} {s s' : EvalState}
    (h : s.Limits) (hrun : (evalFrom ctx pc s).result = some s') :
    s'.Limits ∧ s.nOpCount + countedOps pc ≤ s'.nOpCount := by
  induction hn : pc.length using Nat.strong_induction_on generalizing pc s with
  | _ n ih =>
    subst hn
    by_cases hne : pc = []
    · subst hne
      rw [MotaCoin.evalFrom, if_pos rfl] at hrun
      cases hrun
      rw [countedOps]
      exact ⟨h, le_rfl⟩
    · cases hop : getOp2 pc with
      | none =>
        rw [MotaCoin.evalFrom, if_neg hne] at hrun
        split at hrun
        · cases hrun
        · next hsome => cases hop.symm.trans hsome
      | some op =>
        obtain ⟨opcode, vchPushValue, pc'⟩ := op
        rw [evalFrom_of_getOp2 ctx hop] at hrun
        obtain ⟨s₁, hround, hrun⟩ := Counted.exists_of_result_bind hrun
        obtain ⟨h₁, hcount⟩ := h.evalRound hk hround
        obtain ⟨h', hrest⟩ := ih _ (getOp2_length_lt hop) h₁ hrun rfl
        refine ⟨h', ?_⟩
        rw [countedOps_of_getOp2 hop]
        have hcounted : (s.countOp opcode).nOpCount =
            s.nOpCount + if OP_16 < opcode then 1 else 0 := by
          unfold EvalState.countOp
          split_ifs <;> rfl
        omega

/-- What a script leaves is within the limits when what it is given is. -/
theorem limits_of_accessScript (hk : ctx.crypto.Sized) {stack : List Valtype} {script : CScript}
    {s : EvalState} (hlen : stack.length ≤ 1000) (hsized : Sized stack)
    (hrun : accessScript ctx stack script = .ok s) :
    s.Limits ∧ countedOps script ≤ s.nOpCount := by
  have hfinal := ((exact_accessScript ctx stack script).ok_iff s).mp hrun
  unfold finalState at hfinal
  split_ifs at hfinal
  obtain ⟨hrun, -⟩ := Option.filter_eq_some_iff.mp hfinal
  have hstart : (EvalState.start stack script).Limits := ⟨hsized, nofun, hlen, Nat.zero_le _⟩
  obtain ⟨hlimits, hcount⟩ := hstart.evalFrom hk hrun
  rw [show (EvalState.start stack script).nOpCount = 0 from rfl, Nat.zero_add] at hcount
  exact ⟨hlimits, hcount⟩

/-- **`EvalScript` is safe**: no access of it leaves a stack, whatever the stack it is given; from
one within the limits it returns true only within the limits; and `VerifyScript` finds an element
wherever it looks at the back of a stack, the saved one too. -/
theorem evalScript_safe (ctx : SigContext) :
    (∀ stack script, accessScript ctx stack script ≠ .error .outOfRange) ∧
    (ctx.crypto.Sized → ∀ stack script s, stack.length ≤ 1000 → Sized stack →
      accessScript ctx stack script = .ok s →
        s.stack.length + s.altstack.length ≤ 1000 ∧ Sized s.stack ∧ Sized s.altstack ∧
        countedOps script ≤ s.nOpCount ∧ s.nOpCount ≤ 201) ∧
    ∀ scriptSig scriptPubKey, accessVerify ctx scriptSig scriptPubKey ≠ .error .outOfRange := by
  refine ⟨fun stack script => (exact_accessScript ctx stack script).ne_outOfRange,
    fun hk stack script s hlen hsized hrun => ?_,
    fun scriptSig scriptPubKey => (exact_accessVerify ctx scriptSig scriptPubKey).ne_outOfRange⟩
  obtain ⟨hlimits, hcount⟩ := limits_of_accessScript hk hlen hsized hrun
  exact ⟨hlimits.length_le, hlimits.stack, hlimits.altstack, hcount, hlimits.nOpCount_le⟩

end Runs

/-- Hashes that are right for the empty string. -/
def emptyStringCrypto : ScriptCrypto where
  ripemd160 _ := [0x9c, 0x11, 0x85, 0xa5, 0xc5, 0xe9, 0xfc, 0x54, 0x61, 0x28, 0x08, 0x97, 0x7e,
    0xe8, 0xf5, 0x48, 0xb2, 0x25, 0x8d, 0x31]
  sha1 _ := [0xda, 0x39, 0xa3, 0xee, 0x5e, 0x6b, 0x4b, 0x0d, 0x32, 0x55, 0xbf, 0xef, 0x95, 0x60,
    0x18, 0x90, 0xaf, 0xd8, 0x07, 0x09]
  sha256 _ := [0xe3, 0xb0, 0xc4, 0x42, 0x98, 0xfc, 0x1c, 0x14, 0x9a, 0xfb, 0xf4, 0xc8, 0x99, 0x6f,
    0xb9, 0x24, 0x27, 0xae, 0x41, 0xe4, 0x64, 0x9b, 0x93, 0x4c, 0xa4, 0x95, 0x99, 0x1b, 0x78, 0x52,
    0xb8, 0x55]
  verify _ _ _ := false

/-- `OP_0 OP_SHA256` evaluated on an empty stack leaves one element, within the limits. -/
theorem evalScript_safe_emptyString : ∃ s,
    accessScript ⟨emptyStringCrypto, .empty, 0, 1⟩ [] [0x00, 0xa8] = .ok s ∧
      s.stack.length = 1 ∧ Sized s.stack ∧ s.nOpCount ≤ 201 := by
  have hrun : ∃ s, accessScript ⟨emptyStringCrypto, .empty, 0, 1⟩ [] [0x00, 0xa8] = .ok s ∧
      s.stack.length = 1 := by
    have hpush : getOp2 [0x00, 0xa8] = some (0x00, [], [0xa8]) := rfl
    have hhash : getOp2 [0xa8] = some (0xa8, [], []) := rfl
    have hend (ctx : SigContext) : accessFrom ctx [] = pure := by
      funext s
      rw [accessFrom, if_pos rfl]
    unfold accessScript
    rw [accessFrom_of_getOp2 _ hpush, funext (accessFrom_of_getOp2 _ hhash), hend]
    exact ⟨_, rfl, rfl⟩
  obtain ⟨s, hs, hlen⟩ := hrun
  obtain ⟨-, hlimits, -⟩ := evalScript_safe ⟨emptyStringCrypto, .empty, 0, 1⟩
  have hsized : emptyStringCrypto.Sized := ⟨fun _ => rfl, fun _ => rfl, fun _ => rfl⟩
  obtain ⟨-, hstack, -, -, hcount⟩ := hlimits hsized [] _ s (Nat.zero_le _) (List.forall_mem_nil _) hs
  exact ⟨s, hs, hlen, hstack, hcount⟩

end MotaCoin
