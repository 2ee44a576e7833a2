import MotaCoin.Script

/-!
# Standard scripts

`Solver`, which matches a script against the templates of the standard ones.

## Main definitions

* `TxnOutType`: `txnouttype`
* `mTemplates`: the templates
* `takePubKeys`, `matchOp`, `matchTemplate`: matching one template
* `solver`: `Solver`
-/

namespace MotaCoin

/-- `txnouttype`. -/
inductive TxnOutType where
  | nonstandard | pubKey | pubKeyHash | scriptHash | multiSig
  deriving DecidableEq, Repr

/-- `OP_0`. -/
def OP_0 : Nat := 0x00

/-- `OP_DUP`. -/
def OP_DUP : Nat := 0x76

/-- `OP_EQUALVERIFY`. -/
def OP_EQUALVERIFY : Nat := 0x88

/-- `OP_SMALLINTEGER`, of templates only, as the next three. -/
def OP_SMALLINTEGER : Nat := 0xfa

/-- `OP_PUBKEYS`. -/
def OP_PUBKEYS : Nat := 0xfb

/-- `OP_PUBKEYHASH`. -/
def OP_PUBKEYHASH : Nat := 0xfd

/-- `OP_PUBKEY`. -/
def OP_PUBKEY : Nat := 0xfe

/-- `mTemplates`, in the order of its keys. -/
def mTemplates : List (TxnOutType × CScript) :=
  [(.pubKey, ofOpcode OP_PUBKEY ++ ofOpcode OP_CHECKSIG),
    (.pubKeyHash, ofOpcode OP_DUP ++ ofOpcode OP_HASH160 ++ ofOpcode OP_PUBKEYHASH ++
      ofOpcode OP_EQUALVERIFY ++ ofOpcode OP_CHECKSIG),
    (.multiSig, ofOpcode OP_SMALLINTEGER ++ ofOpcode OP_PUBKEYS ++ ofOpcode OP_SMALLINTEGER ++
      ofOpcode OP_CHECKMULTISIG)]

/-- An operation read from the script, with the bytes after it, and the solutions found so far. -/
structure ScriptMatch where
  /-- `opcode1`. -/
  opcode1 : Nat
  /-- `vch1`. -/
  vch1 : Valtype
  /-- The script from `pc1` on. -/
  pc1 : CScript
  /-- `vSolutionsRet`. -/
  vSolutions : List Valtype

/-- The loop for `OP_PUBKEYS`: it takes the keys, and ends with the first operation that is none.
What cannot be read is `OP_INVALIDOPCODE`. -/
def takePubKeys (opcode1 : Nat) (vch1 : Valtype) (pc1 : CScript) (vSolutions : List Valtype) :
    ScriptMatch :=
  if 33 ≤ vch1.length ∧ vch1.length ≤ 120 then
    match _ : getOp2 pc1 with
    | none => ⟨OP_INVALIDOPCODE, [], pc1, vSolutions ++ [vch1]⟩
    | some (opcode, vch, pc) => takePubKeys opcode vch pc (vSolutions ++ [vch1])
  else ⟨opcode1, vch1, pc1, vSolutions⟩
termination_by pc1.length
decreasing_by exact getOp2_length_lt ‹_›

/-- An operation of the script against one of the template: the solutions with it, or no match. -/
def matchOp (m : ScriptMatch) (opcode2 : Nat) (vch2 : Valtype) : Option (List Valtype) :=
  if opcode2 = OP_PUBKEY then
    if m.vch1.length < 33 ∨ 120 < m.vch1.length then none else some (m.vSolutions ++ [m.vch1])
  else if opcode2 = OP_PUBKEYHASH then
    if m.vch1.length ≠ 20 then none else some (m.vSolutions ++ [m.vch1])
  else if opcode2 = OP_SMALLINTEGER then
    if m.opcode1 = OP_0 ∨ OP_1 ≤ m.opcode1 ∧ m.opcode1 ≤ OP_16 then
      some (m.vSolutions ++ [[UInt8.ofNat (decodeOpN m.opcode1)]])
    else none
  else if m.opcode1 ≠ opcode2 ∨ m.vch1 ≠ vch2 then none
  else some m.vSolutions

/-- The loop of `Solver` over one template: the solutions, or no match. -/
def matchTemplate (pc1 pc2 : CScript) (vSolutions : List Valtype) : Option (List Valtype) :=
  if pc1 = [] ∧ pc2 = [] then some vSolutions
  else
    match getOp2 pc1 with
    | none => none
    | some (opcode1, vch1, pc1) =>
      match _ : getOp2 pc2 with
      | none => none
      | some (opcode2, vch2, pc2') =>
        if opcode2 = OP_PUBKEYS then
          let m := takePubKeys opcode1 vch1 pc1 vSolutions
          match _ : getOp2 pc2' with
          | none => none
          | some (opcode2, vch2, pc2'') =>
            (matchOp m opcode2 vch2).bind fun vSolutions => matchTemplate m.pc1 pc2'' vSolutions
        else
          (matchOp ⟨opcode1, vch1, pc1, vSolutions⟩ opcode2 vch2).bind fun vSolutions =>
            matchTemplate pc1 pc2' vSolutions
termination_by pc2.length
decreasing_by
  · exact (getOp2_length_lt ‹_›).trans (getOp2_length_lt ‹_›)
  · exact getOp2_length_lt ‹_›

/-- The additional checks for `TX_MULTISIG`. -/
def checkMultiSigSolutions (vSolutions : List Valtype) : Bool :=
  let m := ((vSolutions.headD []).headD 0).toNat
  let n := ((vSolutions.getLastD []).headD 0).toNat
  !(decide (m < 1) || decide (n < 1) || decide (n < m) || vSolutions.length - 2 != n)

/-- What `Solver` returns. -/
structure Solution where
  /-- The result. -/
  solved : Bool
  /-- `typeRet`. -/
  type : TxnOutType
  /-- `vSolutionsRet`. -/
  vSolutions : List Valtype
  deriving DecidableEq, Repr

/-- The scan of the templates. -/
def scanTemplates (scriptPubKey : CScript) : List (TxnOutType × CScript) → Solution
  | [] => ⟨false, .nonstandard, []⟩
  | (type, template) :: templates =>
    match matchTemplate scriptPubKey template [] with
    | none => scanTemplates scriptPubKey templates
    | some vSolutions =>
      ⟨type != .multiSig || checkMultiSigSolutions vSolutions, type, vSolutions⟩

/-- `Solver`. -/
def solver (scriptPubKey : CScript) : Solution :=
  if isPayToScriptHash scriptPubKey then
    ⟨true, .scriptHash, [(scriptPubKey.drop 2).take 20]⟩
  else scanTemplates scriptPubKey mTemplates

end MotaCoin
