import MotaCoin.EvalAccess
import MotaCoin.Lib.Greedy
import Mathlib.Data.List.Forall2

/-!
# What OP_CHECKMULTISIG decides

The loop walks down the keys and the signatures from the top of the stack, and gives up once there
are fewer keys than signatures left. It succeeds just when the signatures can be assigned to keys
in order.

## Main definitions

* `SigFits`: a signature passes the three checks with a key
* `multiSigCode`: the script that the signatures sign
* `multiSigStack`: the stack that the operation works on

## Main results

* `checkMultiSigLoop_eq_serve`: the loop is the greedy choice
* `evalSwitch_checkMultiSig`: the operation succeeds just when an increasing assignment exists
-/

namespace MotaCoin

open Greedy

variable (ctx : SigContext)

/-- The signature is canonical, so is the key, and `CheckSig` accepts the one with the other. -/
def SigFits (scriptCode : CScript) (vchSig vchPubKey : Valtype) : Prop :=
  isCanonicalSignature vchSig ∧ isCanonicalPubKey vchPubKey ∧
    checkSig ctx vchSig vchPubKey scriptCode

instance (scriptCode : CScript) (vchSig vchPubKey : Valtype) :
    Decidable (SigFits ctx scriptCode vchSig vchPubKey) :=
  inferInstanceAs (Decidable (_ ∧ _ ∧ _))

/-- The script that the signatures sign: from the last `OP_CODESEPARATOR` on, without them. -/
def multiSigCode (codeHash : CScript) (sigs : List Valtype) : CScript :=
  sigs.foldr (fun sig code => findAndDelete code (pushData sig)) codeHash

/-- The stack of `OP_CHECKMULTISIG`, its top in front. Keys and signatures are in the order they
were pushed in, and one more element is below them. -/
def multiSigStack (nKeys : Valtype) (keys : List Valtype) (nSigs : Valtype) (sigs : List Valtype)
    (vchExtra : Valtype) (rest : List Valtype) : List Valtype :=
  nKeys :: (keys.reverse ++ nSigs :: (sigs.reverse ++ vchExtra :: rest))

/-! ## The loop -/

/-- One round: `fOk` is whether the signature fits. -/
theorem checkCanonicalSig_eq_decide (scriptCode : CScript) (vchSig vchPubKey : Valtype) :
    (checkCanonicalSig ctx vchSig vchPubKey scriptCode).result =
      some (decide (SigFits ctx scriptCode vchSig vchPubKey)) := by
  rw [result_checkCanonicalSig, Option.some_inj, Bool.eq_iff_iff]
  simp only [SigFits, Bool.and_eq_true, and_assoc]
  exact decide_eq_true_iff.symm

/-- With fewer keys than signatures there is nothing more to hope for. -/
theorem serve_eq_false_of_length_lt {scriptCode : CScript} {keys sigs : List Valtype}
    (h : keys.length < sigs.length) : serve (SigFits ctx scriptCode) keys sigs = false := by
  rw [← Bool.not_eq_true, serve_iff]
  exact not_matches_of_length_lt h

/-- **The loop is the greedy choice.** Its early exit changes nothing. -/
theorem checkMultiSigLoop_eq_serve (scriptCode : CScript) (keys sigs : List Valtype) :
    (checkMultiSigLoop ctx scriptCode keys sigs).result =
      some (serve (SigFits ctx scriptCode) keys sigs) := by
  induction keys generalizing sigs with
  | nil => cases sigs <;> rfl
  | cons vchPubKey keys ih =>
    cases sigs with
    | nil => rfl
    | cons vchSig sigs =>
      -- what the loop does with the signatures that are left
      have hrest (sigs' : List Valtype) :
          (if keys.length < sigs'.length then pure false
            else checkMultiSigLoop ctx scriptCode keys sigs' : Counted Bool).result =
          some (serve (SigFits ctx scriptCode) keys sigs') := by
        split_ifs with hlt
        · rw [serve_eq_false_of_length_lt ctx hlt]
          rfl
        · exact ih sigs'
      rw [checkMultiSigLoop, Counted.result_bind, checkCanonicalSig_eq_decide, Option.bind_some,
        hrest, serve]
      by_cases hfit : SigFits ctx scriptCode vchSig vchPubKey
      · rw [decide_eq_true hfit, if_pos hfit, if_pos rfl]
      · rw [decide_eq_false hfit, if_neg hfit, if_neg Bool.false_ne_true]

/-! ## The operation -/

section Operation

variable {nKeys nSigs vchExtra : Valtype} {keys sigs rest : List Valtype} {nOpCount : Nat}

/-- The arguments, where they are within the limits. -/
theorem multiSigArgs_multiSigStack (hkeys : castToBigNum nKeys = some (keys.length : Int))
    (hsigs : castToBigNum nSigs = some (sigs.length : Int)) (hmax : keys.length ≤ 20)
    (hle : sigs.length ≤ keys.length) (hops : nOpCount + keys.length ≤ 201) :
    multiSigArgs (multiSigStack nKeys keys nSigs sigs vchExtra rest) nOpCount =
      some ⟨keys.reverse, sigs.reverse, rest, nOpCount + keys.length⟩ := by
  have hnSigs : (multiSigStack nKeys keys nSigs sigs vchExtra rest)[1 + keys.length]? =
      some nSigs := by
    rw [multiSigStack, Nat.add_comm, List.getElem?_cons_succ,
      List.getElem?_append_right (by simp), List.length_reverse, Nat.sub_self]
    rfl
  have hdropKeys : (multiSigStack nKeys keys nSigs sigs vchExtra rest).drop (2 + keys.length) =
      sigs.reverse ++ vchExtra :: rest := by
    rw [multiSigStack, show 2 + keys.length = keys.reverse.length + 1 + 1 by simp; omega,
      List.drop_succ_cons, ← List.drop_drop, List.drop_left]
    rfl
  have hdropAll : (multiSigStack nKeys keys nSigs sigs vchExtra rest).drop
      (3 + keys.length + sigs.length) = rest := by
    rw [show 3 + keys.length + sigs.length = 2 + keys.length + (sigs.reverse.length + 1) by
      simp; omega, ← List.drop_drop, hdropKeys, ← List.drop_drop, List.drop_left]
    rfl
  have hlen : 3 + keys.length + sigs.length ≤
      (multiSigStack nKeys keys nSigs sigs vchExtra rest).length := by
    simp only [multiSigStack, List.length_cons, List.length_append, List.length_reverse]
    omega
  have htakeKeys : ((multiSigStack nKeys keys nSigs sigs vchExtra rest).drop 1).take keys.length =
      keys.reverse := by
    rw [multiSigStack, List.drop_one, List.tail_cons, List.take_left' (List.length_reverse)]
  have hhead : (multiSigStack nKeys keys nSigs sigs vchExtra rest).head? >>= castToBigNum =
      some (keys.length : Int) := hkeys
  have hguard (p : Prop) [Decidable p] (h : p) : (guard p : Option Unit) = some () := if_pos h
  unfold multiSigArgs
  rw [hhead]
  simp only [Option.bind_eq_bind, Option.bind_some, Int.toNat_natCast, hnSigs, hsigs, htakeKeys,
    hdropKeys, hdropAll]
  rw [hguard _ (by omega), hguard _ hops, hguard _ (by omega), hguard _ hlen,
    List.take_left' List.length_reverse]
  rfl

/-- What the operation leaves, where the arguments are within the limits. -/
theorem evalCheckMultiSig_multiSigStack {s : EvalState} {fVerify : Bool}
    (hstack : s.stack = multiSigStack nKeys keys nSigs sigs vchExtra rest)
    (hkeys : castToBigNum nKeys = some (keys.length : Int))
    (hsigs : castToBigNum nSigs = some (sigs.length : Int)) (hmax : keys.length ≤ 20)
    (hle : sigs.length ≤ keys.length) (hops : s.nOpCount + keys.length ≤ 201) :
    (evalCheckMultiSig ctx fVerify s).result =
      (pushSuccess fVerify
        (serve (SigFits ctx (multiSigCode s.codeHash sigs)) keys.reverse sigs.reverse)
        { s with stack := rest, nOpCount := s.nOpCount + keys.length }).result := by
  unfold evalCheckMultiSig
  rw [hstack, multiSigArgs_multiSigStack hkeys hsigs hmax hle hops]
  dsimp only
  rw [Counted.result_bind, checkMultiSigLoop_eq_serve, List.foldl_reverse]
  rfl

/-- The answer, which the operation pushes or verifies. -/
theorem exists_evalSwitch_checkMultiSig (ctx : SigContext) (pc : CScript) {s : EvalState} {opcode : Nat}
    (hopcode : opcode = OP_CHECKMULTISIG ∨ opcode = OP_CHECKMULTISIGVERIFY)
    (hstack : s.stack = multiSigStack nKeys keys nSigs sigs vchExtra rest)
    (hkeys : castToBigNum nKeys = some (keys.length : Int))
    (hsigs : castToBigNum nSigs = some (sigs.length : Int)) (hmax : keys.length ≤ 20)
    (hle : sigs.length ≤ keys.length) (hops : s.nOpCount + keys.length ≤ 201) :
    ∃ fSuccess : Bool,
      (evalSwitch ctx opcode pc s).result =
        (pushSuccess (opcode == OP_CHECKMULTISIGVERIFY) fSuccess
          { s with stack := rest, nOpCount := s.nOpCount + keys.length }).result ∧
      (fSuccess = true ↔ ∃ f : Fin sigs.length → Fin keys.length, StrictMono f ∧
        ∀ i, SigFits ctx (multiSigCode s.codeHash sigs) (sigs.get i) (keys.get (f i))) := by
  refine ⟨serve (SigFits ctx (multiSigCode s.codeHash sigs)) keys.reverse sigs.reverse, ?_, ?_⟩
  · have hnot : ¬(opcode = OP_CHECKSIG ∨ opcode = OP_CHECKSIGVERIFY) := by
      rcases hopcode with rfl | rfl <;> decide
    unfold evalSwitch
    rw [if_neg hnot, if_pos hopcode]
    exact evalCheckMultiSig_multiSigStack ctx hstack hkeys hsigs hmax hle hops
  · -- the loop starts from the top of the stack, the other end of the two lists
    rw [serve_iff, matches_reverse, matches_iff_strictMono]

/-- **`OP_CHECKMULTISIG` decides whether the signatures can be assigned to keys in order.** The
`VERIFY` operation fails where they cannot, the other one pushes the answer. -/
theorem evalSwitch_checkMultiSig (ctx : SigContext) (pc : CScript) {s : EvalState} {opcode : Nat}
    (hopcode : opcode = OP_CHECKMULTISIG ∨ opcode = OP_CHECKMULTISIGVERIFY)
    (hstack : s.stack = multiSigStack nKeys keys nSigs sigs vchExtra rest)
    (hkeys : castToBigNum nKeys = some (keys.length : Int))
    (hsigs : castToBigNum nSigs = some (sigs.length : Int)) (hmax : keys.length ≤ 20)
    (hle : sigs.length ≤ keys.length) (hops : s.nOpCount + keys.length ≤ 201) :
    ∃ fSuccess : Bool,
      (evalSwitch ctx opcode pc s).result =
        (pushSuccess (opcode == OP_CHECKMULTISIGVERIFY) fSuccess
          { s with stack := rest, nOpCount := s.nOpCount + keys.length }).result ∧
      (fSuccess = true ↔ ∃ f : Fin sigs.length → Fin keys.length, StrictMono f ∧
        ∀ i, SigFits ctx (multiSigCode s.codeHash sigs) (sigs.get i) (keys.get (f i))) :=
  exists_evalSwitch_checkMultiSig ctx pc hopcode hstack hkeys hsigs hmax hle hops

/-! ### One signature for two keys -/

/-- A context in which a signature is valid for the keys that start with `0x03`. -/
def oddKeyContext : SigContext where
  crypto :=
    { ripemd160 := id
      sha1 := id
      sha256 := id
      verify := fun vchPubKey _ _ => vchPubKey.head? == some 0x03 }
  txTo := .empty
  nIn := 0
  nHashType := 0

/-- The compressed key `n` with this first byte. -/
def compressedKey (parity n : UInt8) : Valtype := parity :: List.replicate 32 n

/-- The shortest canonical signature. -/
def shortSig : Valtype := [0x30, 6, 2, 1, 1, 2, 1, 1, 1]

/-- `1 <key> <key> 2 OP_CHECKMULTISIG` about to check its signature. -/
def oneOfTwoState : EvalState where
  stack := multiSigStack [2] [compressedKey 2 5, compressedKey 3 5] [1] [shortSig] [] []
  altstack := []
  vfExec := []
  nOpCount := 1
  codeHash := []

theorem evalSwitch_checkMultiSig_oneOfTwo :
    ∃ fSuccess : Bool,
      (evalSwitch oddKeyContext OP_CHECKMULTISIG [] oneOfTwoState).result =
        (pushSuccess (OP_CHECKMULTISIG == OP_CHECKMULTISIGVERIFY) fSuccess
          { oneOfTwoState with stack := [], nOpCount := 3 }).result ∧
      (fSuccess = true ↔ ∃ f : Fin 1 → Fin 2, StrictMono f ∧
        ∀ i, SigFits oddKeyContext (multiSigCode [] [shortSig]) ([shortSig].get i)
          ([compressedKey 2 5, compressedKey 3 5].get (f i))) :=
  evalSwitch_checkMultiSig oddKeyContext [] (s := oneOfTwoState) (.inl rfl) rfl (by decide)
    (by decide) (by decide) (by decide) (by decide)

end Operation

end MotaCoin
