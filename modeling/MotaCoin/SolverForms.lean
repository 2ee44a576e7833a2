import MotaCoin.ScriptParse
import MotaCoin.Solver

/-!
# The standard forms

`Solver` recognises the scripts of four forms and no others: a script hash, a key, the hash of a
key, and keys some of which have to sign. A form is stated by the operations that the script is
parsed as, or by its bytes; what `Solver` matches them with does not appear in it.

## Main definitions

* `ParsesAs`: the operations of a script that is parsed to its end
* `StandardForm`: the four forms, with their solutions

## Main results

* `matchTemplate_pubKey`, `matchTemplate_pubKeyHash`, `matchTemplate_multiSig`: what the templates match
* `solver_iff`: `Solver` recognises the four forms exactly
-/

namespace MotaCoin

open Chunks

/-- An operation: its opcode and its data. -/
abbrev Operation := Nat × Valtype

/-- The script is parsed to its end, as these operations. -/
def ParsesAs (script : CScript) (ops : List Operation) : Prop := scriptReader.ReadsAs script ops

/-- The operation of an opcode that pushes nothing. -/
def Operation.plain (opcode : Nat) : Operation := (opcode, [])

/-- A push of as many bytes as a key may have. -/
def Operation.IsKey (op : Operation) : Prop :=
  op.1 ≤ OP_PUSHDATA4 ∧ 33 ≤ op.2.length ∧ op.2.length ≤ 120

/-- The opcode of a number from 1 to 16. -/
def opN (n : Nat) : Nat := OP_1 - 1 + n

/-- A script of the standard form of the type, with its solutions. -/
def StandardForm (script : CScript) : TxnOutType → List Valtype → Prop
  | .nonstandard, _ => False
  | .scriptHash, s => ∃ hash : Valtype, hash.length = 20 ∧
      script = ofOpcode OP_HASH160 ++ 0x14 :: hash ++ ofOpcode OP_EQUAL ∧ s = [hash]
  | .pubKey, s => ∃ key : Operation, key.IsKey ∧
      ParsesAs script [key, .plain OP_CHECKSIG] ∧ s = [key.2]
  | .pubKeyHash, s => ∃ hash : Operation, hash.1 ≤ OP_PUSHDATA4 ∧ hash.2.length = 20 ∧
      ParsesAs script [.plain OP_DUP, .plain OP_HASH160, hash, .plain OP_EQUALVERIFY,
        .plain OP_CHECKSIG] ∧ s = [hash.2]
  | .multiSig, s => ∃ (m : Nat) (keys : List Operation), 1 ≤ m ∧ m ≤ keys.length ∧
      keys.length ≤ 16 ∧ (∀ key ∈ keys, key.IsKey) ∧
      ParsesAs script (.plain (opN m) :: keys ++
        [.plain (opN keys.length), .plain OP_CHECKMULTISIG]) ∧
      s = [UInt8.ofNat m] :: keys.map Prod.snd ++ [[UInt8.ofNat keys.length]]

/-! ## Parsing operation by operation -/

section Parsing

variable {pc pc' : CScript} {op : Operation} {ops : List Operation}

theorem parsesAs_cons_iff : ParsesAs pc (op :: ops) ↔
    ∃ pc', getOp2 pc = some (op.1, op.2, pc') ∧ ParsesAs pc' ops := by
  unfold ParsesAs
  rw [Reader.readsAs_cons_iff]
  exact exists_congr fun pc' => and_congr_left' scriptReader_next

theorem parsesAs_nil_iff : ParsesAs pc [] ↔ pc = [] := Reader.readsAs_nil_iff

/-- Only pushes have data. -/
theorem getOp2_data_eq_nil {opcode : Nat} {data : Valtype}
    (h : getOp2 pc = some (opcode, data, pc')) (hop : opcode = OP_0 ∨ OP_PUSHDATA4 < opcode) :
    data = [] := by
  cases pc with
  | nil => cases h
  | cons byte pc =>
    obtain rfl := (getOp2_cons_suffix h).1
    rw [getOp2] at h
    split_ifs at h with hpush
    · have hzero : byte.toNat = 0 := hop.resolve_right (Nat.not_lt.mpr hpush)
      rw [hzero] at h
      change (if pc.length % 2 ^ 32 < 0 then none else _) = _ at h
      rw [if_neg (Nat.not_lt_zero _)] at h
      simp only [Option.some.injEq, Prod.mk.injEq] at h
      exact h.2.1.symm
    · simp only [Option.some.injEq, Prod.mk.injEq] at h
      exact h.2.1.symm

end Parsing

/-! ## What one template matches -/

section Templates

variable {pc pc2 pc2' : CScript} {vSolutions s : List Valtype} {opcode2 : Nat} {vch2 : Valtype}

theorem matchTemplate_nil : matchTemplate pc [] vSolutions = some s ↔ pc = [] ∧ s = vSolutions := by
  have hnone : getOp2 ([] : CScript) = none := rfl
  rw [matchTemplate]
  split_ifs with h
  · simp [h.1, eq_comm]
  · have hne : pc ≠ [] := fun hpc => h ⟨hpc, rfl⟩
    refine iff_of_false ?_ fun hboth => hne hboth.1
    cases getOp2 pc with
    | none => nofun
    | some op => exact nofun

/-- An operation of the template that is not `OP_PUBKEYS`: one operation of the script is matched
with it. -/
theorem matchTemplate_cons (h : getOp2 pc2 = some (opcode2, vch2, pc2'))
    (hkeys : opcode2 ≠ OP_PUBKEYS) :
    matchTemplate pc pc2 vSolutions = some s ↔ ∃ op : Operation, ∃ pc',
      getOp2 pc = some (op.1, op.2, pc') ∧ ∃ vSolutions',
        matchOp ⟨op.1, op.2, pc', vSolutions⟩ opcode2 vch2 = some vSolutions' ∧
          matchTemplate pc' pc2' vSolutions' = some s := by
  have hne : pc2 ≠ [] := by
    rintro rfl
    cases h
  rw [matchTemplate, if_neg fun hboth => hne hboth.2]
  cases hop : getOp2 pc with
  | none => simp
  | some op =>
    obtain ⟨opcode, vch, pc'⟩ := op
    dsimp only
    split
    · next h' => cases h'.symm.trans h
    · next h' =>
      cases h'.symm.trans h
      rw [if_neg hkeys, Option.bind_eq_some_iff]
      constructor
      · rintro ⟨vSolutions', hmatch, hrest⟩
        exact ⟨(opcode, vch), pc', rfl, vSolutions', hmatch, hrest⟩
      · rintro ⟨op, pc'', heq, vSolutions', hmatch, hrest⟩
        cases heq
        exact ⟨vSolutions', hmatch, hrest⟩

/-- An opcode that stands for itself in a template. -/
def IsPlain (opcode2 : Nat) : Prop :=
  opcode2 ≠ OP_PUBKEY ∧ opcode2 ≠ OP_PUBKEYHASH ∧ opcode2 ≠ OP_SMALLINTEGER ∧
    opcode2 ≠ OP_PUBKEYS

instance (opcode2 : Nat) : Decidable (IsPlain opcode2) := inferInstanceAs (Decidable (_ ∧ _))

/-- The opcode of a small number. -/
def IsSmall (opcode : Nat) : Prop := opcode = OP_0 ∨ OP_1 ≤ opcode ∧ opcode ≤ OP_16

theorem not_isSmall_invalid : ¬ IsSmall OP_INVALIDOPCODE := by
  unfold IsSmall
  decide

variable {m : ScriptMatch} {op : Operation}

theorem matchOp_pubKey_iff : matchOp m OP_PUBKEY vch2 = some s ↔
    (33 ≤ m.vch1.length ∧ m.vch1.length ≤ 120) ∧ s = m.vSolutions ++ [m.vch1] := by
  unfold matchOp
  rw [if_pos rfl]
  split_ifs with hlen
  · exact iff_of_false nofun fun hboth => by omega
  · rw [Option.some_inj, eq_comm]
    exact (and_iff_right (by omega)).symm

theorem matchOp_pubKeyHash_iff : matchOp m OP_PUBKEYHASH vch2 = some s ↔
    m.vch1.length = 20 ∧ s = m.vSolutions ++ [m.vch1] := by
  unfold matchOp
  rw [if_neg (by decide), if_pos rfl]
  split_ifs with hlen
  · exact iff_of_false nofun fun hboth => hlen hboth.1
  · rw [Option.some_inj, eq_comm]
    exact (and_iff_right (not_not.mp hlen)).symm

theorem matchOp_smallInteger_iff : matchOp m OP_SMALLINTEGER vch2 = some s ↔
    IsSmall m.opcode1 ∧ s = m.vSolutions ++ [[UInt8.ofNat (decodeOpN m.opcode1)]] := by
  unfold matchOp
  rw [if_neg (by decide), if_neg (by decide), if_pos rfl]
  split_ifs with hsmall
  · rw [Option.some_inj, eq_comm]
    exact (and_iff_right hsmall).symm
  · exact iff_of_false nofun fun hboth => hsmall hboth.1

theorem matchOp_plain_iff (h : IsPlain opcode2) : matchOp m opcode2 vch2 = some s ↔
    (m.opcode1 = opcode2 ∧ m.vch1 = vch2) ∧ s = m.vSolutions := by
  unfold matchOp
  rw [if_neg h.1, if_neg h.2.1, if_neg h.2.2.1]
  split_ifs with hne
  · exact iff_of_false nofun fun hboth => hne.elim (· hboth.1.1) (· hboth.1.2)
  · rw [not_or, not_not, not_not] at hne
    rw [Option.some_inj, eq_comm]
    exact (and_iff_right hne).symm

/-- An opcode that stands for itself is the next operation of the script. -/
theorem matchTemplate_plain (h : getOp2 pc2 = some (opcode2, [], pc2')) (hplain : IsPlain opcode2) :
    matchTemplate pc pc2 vSolutions = some s ↔ ∃ pc', getOp2 pc = some (opcode2, [], pc') ∧
      matchTemplate pc' pc2' vSolutions = some s := by
  rw [matchTemplate_cons h hplain.2.2.2]
  simp only [matchOp_plain_iff hplain]
  constructor
  · rintro ⟨⟨opcode, vch⟩, pc', hop, vSolutions', ⟨⟨rfl, rfl⟩, rfl⟩, hrest⟩
    exact ⟨pc', hop, hrest⟩
  · rintro ⟨pc', hop, hrest⟩
    exact ⟨(opcode2, []), pc', hop, vSolutions, ⟨⟨rfl, rfl⟩, rfl⟩, hrest⟩

/-- The last opcode of a template, one that stands for itself. -/
theorem matchTemplate_last (h : getOp2 pc2 = some (opcode2, [], [])) (hplain : IsPlain opcode2) :
    matchTemplate pc pc2 vSolutions = some s ↔
      ParsesAs pc [.plain opcode2] ∧ s = vSolutions := by
  simp only [matchTemplate_plain h hplain, matchTemplate_nil, parsesAs_cons_iff, parsesAs_nil_iff,
    Operation.plain]
  constructor
  · rintro ⟨pc', hop, rfl, rfl⟩
    exact ⟨⟨[], hop, rfl⟩, rfl⟩
  · rintro ⟨⟨pc', hop, rfl⟩, rfl⟩
    exact ⟨[], hop, rfl, rfl⟩

/-- What has the length of a key is a push. -/
theorem isKey_of_getOp2 (h : getOp2 pc = some (op.1, op.2, pc2'))
    (hlen : 33 ≤ op.2.length ∧ op.2.length ≤ 120) : op.IsKey := by
  refine ⟨Nat.le_of_not_lt fun hgt => ?_, hlen⟩
  rw [getOp2_data_eq_nil h (.inr hgt), List.length_nil] at hlen
  omega

theorem matchTemplate_pubKey :
    matchTemplate pc (ofOpcode OP_PUBKEY ++ ofOpcode OP_CHECKSIG) [] = some s ↔
      StandardForm pc .pubKey s := by
  have hpc2 : getOp2 (ofOpcode OP_PUBKEY ++ ofOpcode OP_CHECKSIG) =
      some (OP_PUBKEY, [], ofOpcode OP_CHECKSIG) := rfl
  have hlast : getOp2 (ofOpcode OP_CHECKSIG) = some (OP_CHECKSIG, [], []) := rfl
  rw [matchTemplate_cons hpc2 (by decide)]
  simp only [matchOp_pubKey_iff, matchTemplate_last hlast (by decide), StandardForm]
  constructor
  · rintro ⟨key, pc', hop, _, ⟨hlen, rfl⟩, hrest, rfl⟩
    exact ⟨key, isKey_of_getOp2 hop hlen, parsesAs_cons_iff.mpr ⟨pc', hop, hrest⟩, rfl⟩
  · rintro ⟨key, hkey, hparse, rfl⟩
    obtain ⟨pc', hop, hrest⟩ := parsesAs_cons_iff.mp hparse
    exact ⟨key, pc', hop, _, ⟨hkey.2, rfl⟩, hrest, rfl⟩

theorem matchTemplate_pubKeyHash :
    matchTemplate pc (ofOpcode OP_DUP ++ ofOpcode OP_HASH160 ++ ofOpcode OP_PUBKEYHASH ++
      ofOpcode OP_EQUALVERIFY ++ ofOpcode OP_CHECKSIG) [] = some s ↔
      StandardForm pc .pubKeyHash s := by
  have hdup : getOp2 (ofOpcode OP_DUP ++ ofOpcode OP_HASH160 ++ ofOpcode OP_PUBKEYHASH ++
      ofOpcode OP_EQUALVERIFY ++ ofOpcode OP_CHECKSIG) = some (OP_DUP, [], ofOpcode OP_HASH160 ++
        ofOpcode OP_PUBKEYHASH ++ ofOpcode OP_EQUALVERIFY ++ ofOpcode OP_CHECKSIG) := rfl
  have hhash160 : getOp2 (ofOpcode OP_HASH160 ++ ofOpcode OP_PUBKEYHASH ++
      ofOpcode OP_EQUALVERIFY ++ ofOpcode OP_CHECKSIG) = some (OP_HASH160, [],
        ofOpcode OP_PUBKEYHASH ++ ofOpcode OP_EQUALVERIFY ++ ofOpcode OP_CHECKSIG) := rfl
  have hhash : getOp2 (ofOpcode OP_PUBKEYHASH ++ ofOpcode OP_EQUALVERIFY ++
      ofOpcode OP_CHECKSIG) = some (OP_PUBKEYHASH, [],
        ofOpcode OP_EQUALVERIFY ++ ofOpcode OP_CHECKSIG) := rfl
  have hverify : getOp2 (ofOpcode OP_EQUALVERIFY ++ ofOpcode OP_CHECKSIG) =
      some (OP_EQUALVERIFY, [], ofOpcode OP_CHECKSIG) := rfl
  have hlast : getOp2 (ofOpcode OP_CHECKSIG) = some (OP_CHECKSIG, [], []) := rfl
  simp only [matchTemplate_plain hdup (by decide), matchTemplate_plain hhash160 (by decide),
    matchTemplate_cons hhash (by decide), matchOp_pubKeyHash_iff,
    matchTemplate_plain hverify (by decide), matchTemplate_last hlast (by decide), StandardForm]
  constructor
  · rintro ⟨pc₁, h₁, pc₂, h₂, hash, pc₃, h₃, _, ⟨hlen, rfl⟩, pc₄, h₄, hrest, rfl⟩
    refine ⟨hash, Nat.le_of_not_lt fun hgt => ?_, hlen, ?_, rfl⟩
    · rw [getOp2_data_eq_nil h₃ (.inr hgt)] at hlen
      cases hlen
    · exact parsesAs_cons_iff.mpr ⟨pc₁, h₁, parsesAs_cons_iff.mpr ⟨pc₂, h₂,
        parsesAs_cons_iff.mpr ⟨pc₃, h₃, parsesAs_cons_iff.mpr ⟨pc₄, h₄, hrest⟩⟩⟩⟩
  · rintro ⟨hash, -, hlen, hparse, rfl⟩
    obtain ⟨pc₁, h₁, hparse⟩ := parsesAs_cons_iff.mp hparse
    obtain ⟨pc₂, h₂, hparse⟩ := parsesAs_cons_iff.mp hparse
    obtain ⟨pc₃, h₃, hparse⟩ := parsesAs_cons_iff.mp hparse
    obtain ⟨pc₄, h₄, hrest⟩ := parsesAs_cons_iff.mp hparse
    exact ⟨pc₁, h₁, pc₂, h₂, hash, pc₃, h₃, _, ⟨hlen, rfl⟩, pc₄, h₄, hrest, rfl⟩

/-! ### The keys of several signatures -/

/-- An operation of the script was read; with those after it, the script goes on as `ops`. -/
def ReadsOn (op : Operation) (pc : CScript) (ops : List Operation) : Prop :=
  ∃ rest, op :: rest = ops ∧ ParsesAs pc rest

/-- The end of the template for several signatures: keys, a small number and the last opcode. -/
def KeysForm (ops : List Operation) (s : List Valtype) : Prop :=
  ∃ keys opcode, (∀ key ∈ keys, Operation.IsKey key) ∧ IsSmall opcode ∧
    ops = keys ++ [.plain opcode, .plain OP_CHECKMULTISIG] ∧
    s = keys.map Prod.snd ++ [[UInt8.ofNat (decodeOpN opcode)]]

theorem KeysForm.ne_nil {ops : List Operation} (h : KeysForm ops s) : ops ≠ [] := by
  obtain ⟨keys, opcode, -, -, rfl, -⟩ := h
  exact List.append_ne_nil_of_right_ne_nil keys (List.cons_ne_nil _ _)

theorem keysForm_cons_of_isKey {rest : List Operation} (hop : op.IsKey) :
    KeysForm (op :: rest) s ↔ ∃ s', KeysForm rest s' ∧ s = op.2 :: s' := by
  constructor
  · rintro ⟨keys, opcode, hkeys, hsmall, heq, rfl⟩
    cases keys with
    | nil =>
      obtain ⟨rfl, -⟩ := List.cons_eq_cons.mp heq
      exact absurd hop.2.1 (Nat.not_succ_le_zero 32)
    | cons key keys =>
      obtain ⟨rfl, rfl⟩ := List.cons_eq_cons.mp heq
      exact ⟨_, ⟨keys, opcode, fun k hk => hkeys k (List.mem_cons_of_mem _ hk), hsmall, rfl, rfl⟩,
        rfl⟩
  · rintro ⟨s', ⟨keys, opcode, hkeys, hsmall, rfl, rfl⟩, rfl⟩
    exact ⟨op :: keys, opcode, List.forall_mem_cons.mpr ⟨hop, hkeys⟩, hsmall, rfl, rfl⟩

theorem keysForm_cons_of_not_isKey {rest : List Operation} (hop : ¬ op.IsKey) :
    KeysForm (op :: rest) s ↔ IsSmall op.1 ∧ op.2 = [] ∧ rest = [.plain OP_CHECKMULTISIG] ∧
      s = [[UInt8.ofNat (decodeOpN op.1)]] := by
  constructor
  · rintro ⟨keys, opcode, hkeys, hsmall, heq, rfl⟩
    cases keys with
    | nil =>
      obtain ⟨rfl, rfl⟩ := List.cons_eq_cons.mp heq
      exact ⟨hsmall, rfl, rfl, rfl⟩
    | cons key keys =>
      obtain ⟨rfl, -⟩ := List.cons_eq_cons.mp heq
      exact absurd (hkeys _ List.mem_cons_self) hop
  · rintro ⟨hsmall, hdata, rfl, rfl⟩
    obtain ⟨opcode, data⟩ := op
    obtain rfl : data = [] := hdata
    exact ⟨[], opcode, nofun, hsmall, rfl, rfl⟩

/-- The small number after the keys, and the last opcode. -/
theorem matchOp_small_last {sols : List Valtype} (hop : ¬ op.IsKey)
    (hdata : op.1 = OP_0 ∨ OP_PUSHDATA4 < op.1 → op.2 = []) :
    (∃ sols', matchOp ⟨op.1, op.2, pc, sols⟩ OP_SMALLINTEGER [] = some sols' ∧
      matchTemplate pc (ofOpcode OP_CHECKMULTISIG) sols' = some s) ↔
    ∃ ops s', ReadsOn op pc ops ∧ KeysForm ops s' ∧ s = sols ++ s' := by
  have hlast : getOp2 (ofOpcode OP_CHECKMULTISIG) = some (OP_CHECKMULTISIG, [], []) := rfl
  simp only [matchOp_smallInteger_iff, matchTemplate_last hlast (by decide)]
  constructor
  · rintro ⟨_, ⟨hsmall, rfl⟩, hparse, rfl⟩
    have hnil : op.2 = [] := by
      refine hdata (hsmall.imp_right fun hrange => ?_)
      simp only [OP_1, OP_PUSHDATA4] at *
      omega
    exact ⟨_, _, ⟨_, rfl, hparse⟩,
      (keysForm_cons_of_not_isKey hop).mpr ⟨hsmall, hnil, rfl, rfl⟩, rfl⟩
  · rintro ⟨_, s', ⟨rest, rfl, hparse⟩, hform, rfl⟩
    obtain ⟨hsmall, -, rfl, rfl⟩ := (keysForm_cons_of_not_isKey hop).mp hform
    exact ⟨_, ⟨hsmall, rfl⟩, hparse, rfl⟩

/-- **The loop for the keys**: from an operation that was read to the end of the template. -/
theorem takePubKeys_iff {sols : List Valtype}
    (hdata : op.1 = OP_0 ∨ OP_PUSHDATA4 < op.1 → op.2 = []) :
    (∃ sols', matchOp (takePubKeys op.1 op.2 pc sols) OP_SMALLINTEGER [] = some sols' ∧
      matchTemplate (takePubKeys op.1 op.2 pc sols).pc1 (ofOpcode OP_CHECKMULTISIG) sols' =
        some s) ↔
    ∃ ops s', ReadsOn op pc ops ∧ KeysForm ops s' ∧ s = sols ++ s' := by
  induction hn : pc.length using Nat.strong_induction_on generalizing op pc sols with
  | _ n ih =>
    subst hn
    by_cases hlen : 33 ≤ op.2.length ∧ op.2.length ≤ 120
    · have hkey : op.IsKey := by
        refine ⟨Nat.le_of_not_lt fun hgt => ?_, hlen⟩
        rw [hdata (.inr hgt), List.length_nil] at hlen
        omega
      rw [takePubKeys, if_pos hlen]
      split
      · next hnone =>
        -- the loop ends with an opcode that no template has
        refine iff_of_false ?_ ?_
        · rintro ⟨sols', hmatch, -⟩
          exact absurd (matchOp_smallInteger_iff.mp hmatch).1 not_isSmall_invalid
        · rintro ⟨_, s', ⟨rest, rfl, hparse⟩, hform, rfl⟩
          obtain ⟨s'', hform', -⟩ := (keysForm_cons_of_isKey hkey).mp hform
          obtain ⟨o, rest, rfl⟩ := List.exists_cons_of_ne_nil hform'.ne_nil
          obtain ⟨pc', hop, -⟩ := parsesAs_cons_iff.mp hparse
          cases hnone.symm.trans hop
      · next opcode vch pc' hop =>
        have hdata' : (opcode, vch).1 = OP_0 ∨ OP_PUSHDATA4 < (opcode, vch).1 →
            (opcode, vch).2 = [] := getOp2_data_eq_nil hop
        rw [ih _ (getOp2_length_lt hop) hdata' rfl]
        constructor
        · rintro ⟨_, s', ⟨rest, rfl, hparse⟩, hform, rfl⟩
          refine ⟨op :: (opcode, vch) :: rest, op.2 :: s',
            ⟨_, rfl, parsesAs_cons_iff.mpr ⟨pc', hop, hparse⟩⟩,
            (keysForm_cons_of_isKey hkey).mpr ⟨s', hform, rfl⟩, ?_⟩
          rw [List.append_assoc, List.singleton_append]
        · rintro ⟨_, s', ⟨rest, rfl, hparse⟩, hform, rfl⟩
          obtain ⟨s'', hform', rfl⟩ := (keysForm_cons_of_isKey hkey).mp hform
          obtain ⟨o, rest, rfl⟩ := List.exists_cons_of_ne_nil hform'.ne_nil
          obtain ⟨pc'', hop', hparse⟩ := parsesAs_cons_iff.mp hparse
          cases hop.symm.trans hop'
          refine ⟨_, s'', ⟨rest, rfl, hparse⟩, hform', ?_⟩
          rw [List.append_assoc, List.singleton_append]
    · have hkey : ¬ op.IsKey := fun hkey => hlen hkey.2
      rw [takePubKeys, if_neg hlen]
      exact matchOp_small_last hkey hdata

theorem matchTemplate_pubKeys :
    matchTemplate pc (ofOpcode OP_PUBKEYS ++ ofOpcode OP_SMALLINTEGER ++
      ofOpcode OP_CHECKMULTISIG) vSolutions = some s ↔
    ∃ ops s', ParsesAs pc ops ∧ KeysForm ops s' ∧ s = vSolutions ++ s' := by
  have hkeys : getOp2 (ofOpcode OP_PUBKEYS ++ ofOpcode OP_SMALLINTEGER ++
      ofOpcode OP_CHECKMULTISIG) = some (OP_PUBKEYS, [], ofOpcode OP_SMALLINTEGER ++
        ofOpcode OP_CHECKMULTISIG) := rfl
  have hsmall : getOp2 (ofOpcode OP_SMALLINTEGER ++ ofOpcode OP_CHECKMULTISIG) =
      some (OP_SMALLINTEGER, [], ofOpcode OP_CHECKMULTISIG) := rfl
  rw [matchTemplate, if_neg fun hboth => List.cons_ne_nil _ _ hboth.2]
  cases hop : getOp2 pc with
  | none =>
    refine iff_of_false (fun hsome => by cases hsome) ?_
    rintro ⟨ops, s', hparse, hform, -⟩
    obtain ⟨o, rest, rfl⟩ := List.exists_cons_of_ne_nil hform.ne_nil
    obtain ⟨pc', hop', -⟩ := parsesAs_cons_iff.mp hparse
    cases hop.symm.trans hop'
  | some op =>
    obtain ⟨opcode, vch, pc'⟩ := op
    dsimp only
    split
    · next h' => cases h'.symm.trans hkeys
    · next h' =>
      cases h'.symm.trans hkeys
      rw [if_pos rfl]
      split
      · next h' => cases h'.symm.trans hsmall
      · next h' =>
        cases h'.symm.trans hsmall
        have hdata : (opcode, vch).1 = OP_0 ∨ OP_PUSHDATA4 < (opcode, vch).1 →
            (opcode, vch).2 = [] := getOp2_data_eq_nil hop
        rw [Option.bind_eq_some_iff]
        refine (takePubKeys_iff hdata).trans (exists₂_congr fun ops s' => and_congr_left' ?_)
        constructor
        · rintro ⟨rest, rfl, hparse⟩
          exact parsesAs_cons_iff.mpr ⟨pc', hop, hparse⟩
        · intro hparse
          cases ops with
          | nil => exact absurd (parsesAs_nil_iff.mp hparse) (by rintro rfl; cases hop)
          | cons o rest =>
            obtain ⟨pc'', hop', hparse⟩ := parsesAs_cons_iff.mp hparse
            cases hop.symm.trans hop'
            exact ⟨rest, rfl, hparse⟩

/-- What the template for several signatures matches, before the additional checks. -/
theorem matchTemplate_multiSig_iff :
    matchTemplate pc (ofOpcode OP_SMALLINTEGER ++ ofOpcode OP_PUBKEYS ++
      ofOpcode OP_SMALLINTEGER ++ ofOpcode OP_CHECKMULTISIG) [] = some s ↔
    ∃ opcode ops s', IsSmall opcode ∧ ParsesAs pc (.plain opcode :: ops) ∧ KeysForm ops s' ∧
      s = [UInt8.ofNat (decodeOpN opcode)] :: s' := by
  have hsmall : getOp2 (ofOpcode OP_SMALLINTEGER ++ ofOpcode OP_PUBKEYS ++
      ofOpcode OP_SMALLINTEGER ++ ofOpcode OP_CHECKMULTISIG) = some (OP_SMALLINTEGER, [],
        ofOpcode OP_PUBKEYS ++ ofOpcode OP_SMALLINTEGER ++ ofOpcode OP_CHECKMULTISIG) := rfl
  simp only [matchTemplate_cons hsmall (by decide), matchOp_smallInteger_iff,
    matchTemplate_pubKeys]
  constructor
  · rintro ⟨op, pc', hop, _, ⟨hop₁, rfl⟩, ops, s', hparse, hform, rfl⟩
    have hnil : op.2 = [] := by
      refine getOp2_data_eq_nil hop (hop₁.imp_right fun hrange => ?_)
      simp only [OP_1, OP_PUSHDATA4] at *
      omega
    rw [hnil] at hop
    exact ⟨op.1, ops, s', hop₁, parsesAs_cons_iff.mpr ⟨pc', hop, hparse⟩, hform, rfl⟩
  · rintro ⟨opcode, ops, s', hop₁, hparse, hform, rfl⟩
    obtain ⟨pc', hop, hparse⟩ := parsesAs_cons_iff.mp hparse
    exact ⟨.plain opcode, pc', hop, _, ⟨hop₁, rfl⟩, ops, s', hparse, hform, rfl⟩

end Templates

/-! ## The additional checks -/

section Checks

variable {pc : CScript} {s : List Valtype} {opcode : Nat}

theorem decodeOpN_opN (n : Nat) : decodeOpN (opN n) = n :=
  Nat.add_sub_cancel_left _ _

theorem isSmall_opN {n : Nat} (h : 1 ≤ n) (h' : n ≤ 16) : IsSmall (opN n) := by
  right
  simp only [opN, OP_1, OP_16]
  omega

/-- A small number is zero, or it is at most sixteen and has its opcode. -/
theorem IsSmall.decode (h : IsSmall opcode) :
    decodeOpN opcode ≤ 16 ∧ (1 ≤ decodeOpN opcode → opcode = opN (decodeOpN opcode)) := by
  unfold IsSmall at h
  simp only [decodeOpN, opN, OP_0, OP_1, OP_16] at *
  omega

/-- The additional checks on the solutions of the template. -/
theorem checkMultiSigSolutions_iff {m n : Nat} {keys : List Valtype} (hm : m ≤ 16) (hn : n ≤ 16) :
    checkMultiSigSolutions ([UInt8.ofNat m] :: (keys ++ [[UInt8.ofNat n]])) ↔
      1 ≤ m ∧ m ≤ n ∧ n = keys.length := by
  have hofNat {k : Nat} (h : k ≤ 16) : (UInt8.ofNat k).toNat = k :=
    UInt8.toNat_ofNat_of_lt' (h.trans_lt (by decide))
  have hlast : ([UInt8.ofNat m] :: (keys ++ [[UInt8.ofNat n]])).getLastD [] = [UInt8.ofNat n] := by
    rw [← List.cons_append, List.getLastD_concat]
  unfold checkMultiSigSolutions
  rw [hlast]
  simp only [List.headD_cons, hofNat hm, hofNat hn, List.length_cons, List.length_append,
    List.length_nil, Bool.not_eq_true', Bool.or_eq_false_iff, decide_eq_false_iff_not,
    bne_eq_false_iff_eq]
  omega

/-- **The template for several signatures and its checks.** -/
theorem matchTemplate_multiSig :
    (matchTemplate pc (ofOpcode OP_SMALLINTEGER ++ ofOpcode OP_PUBKEYS ++
      ofOpcode OP_SMALLINTEGER ++ ofOpcode OP_CHECKMULTISIG) [] = some s ∧
        checkMultiSigSolutions s) ↔ StandardForm pc .multiSig s := by
  rw [matchTemplate_multiSig_iff]
  constructor
  · rintro ⟨⟨opcode, ops, s', hsmall, hparse, ⟨keys, opcode', hkeys, hsmall', rfl, rfl⟩, rfl⟩,
      hcheck⟩
    obtain ⟨hle, hopcode⟩ := hsmall.decode
    obtain ⟨hle', hopcode'⟩ := hsmall'.decode
    obtain ⟨hm, hmn, hn⟩ := (checkMultiSigSolutions_iff hle hle').mp hcheck
    rw [List.length_map] at hn
    rw [hopcode hm, hopcode' (by omega), hn] at hparse
    refine ⟨decodeOpN opcode, keys, hm, by omega, by omega, hkeys, hparse, ?_⟩
    rw [hn, List.cons_append]
  · rintro ⟨m, keys, hm, hle, hmax, hkeys, hparse, rfl⟩
    refine ⟨⟨opN m, _, _, isSmall_opN hm (by omega), hparse,
      ⟨keys, opN keys.length, hkeys, isSmall_opN (by omega) hmax, rfl, rfl⟩, ?_⟩, ?_⟩
    · rw [decodeOpN_opN, decodeOpN_opN, List.cons_append]
    · rw [List.cons_append]
      refine (checkMultiSigSolutions_iff (by omega) hmax).mpr ⟨hm, hle, ?_⟩
      rw [List.length_map]

end Checks

/-! ## The four forms -/

section Forms

variable {script : CScript} {s : List Valtype} {type : TxnOutType}

/-- The form of a script hash, by its bytes. -/
theorem isPayToScriptHash_iff : isPayToScriptHash script ↔ ∃ hash : Valtype, hash.length = 20 ∧
    script = ofOpcode OP_HASH160 ++ 0x14 :: hash ++ ofOpcode OP_EQUAL := by
  unfold isPayToScriptHash
  simp only [Bool.and_eq_true, beq_iff_eq]
  constructor
  · rintro ⟨⟨⟨hlen, h₀⟩, h₁⟩, h₂₂⟩
    rcases script with _ | ⟨x, _ | ⟨y, script⟩⟩
    · cases hlen
    · cases hlen
    · obtain rfl : x = UInt8.ofNat OP_HASH160 := Option.some.inj h₀
      obtain rfl : y = 0x14 := Option.some.inj h₁
      have hlen : script.length = 20 + 1 := by simpa using hlen
      obtain ⟨z, hz⟩ := List.length_eq_one_iff.mp
        (show (script.drop 20).length = 1 by rw [List.length_drop, hlen])
      have hsplit := List.take_append_drop 20 script
      rw [hz] at hsplit
      have htake : (script.take 20).length = 20 := by
        rw [List.length_take, hlen]
        rfl
      refine ⟨script.take 20, htake, ?_⟩
      have hz : z = UInt8.ofNat OP_EQUAL := by
        have hget : script[20]? = some (UInt8.ofNat OP_EQUAL) := h₂₂
        rw [← hsplit, List.getElem?_append_right htake.le, htake] at hget
        exact Option.some.inj hget
      rw [hz] at hsplit
      exact congrArg (fun l => UInt8.ofNat OP_HASH160 :: 0x14 :: l) hsplit.symm
  · rintro ⟨hash, hlen, rfl⟩
    refine ⟨⟨⟨?_, rfl⟩, rfl⟩, ?_⟩
    · simp [ofOpcode, hlen]
    · change (hash ++ ofOpcode OP_EQUAL)[20]? = _
      rw [List.getElem?_append_right hlen.le, hlen]
      rfl

/-- The form that the first operation of a script leaves possible. -/
def formOf (op : Operation) : TxnOutType :=
  if op.2 ≠ [] then .pubKey
  else if op.1 = OP_DUP then .pubKeyHash
  else if op.1 = OP_HASH160 then .scriptHash
  else .multiSig

theorem StandardForm.formOf (h : StandardForm script type s) :
    ∃ op : Operation, ∃ pc', getOp2 script = some (op.1, op.2, pc') ∧ MotaCoin.formOf op = type := by
  cases type with
  | nonstandard => exact h.elim
  | scriptHash =>
    obtain ⟨hash, -, rfl, -⟩ := h
    exact ⟨.plain OP_HASH160, _, rfl, rfl⟩
  | pubKey =>
    obtain ⟨key, hkey, hparse, -⟩ := h
    obtain ⟨pc', hop, -⟩ := parsesAs_cons_iff.mp hparse
    have hne : key.2 ≠ [] := fun hnil => by
      have := hkey.2.1
      rw [hnil, List.length_nil] at this
      omega
    exact ⟨key, pc', hop, if_pos hne⟩
  | pubKeyHash =>
    obtain ⟨hash, -, -, hparse, -⟩ := h
    obtain ⟨pc', hop, -⟩ := parsesAs_cons_iff.mp hparse
    exact ⟨_, pc', hop, rfl⟩
  | multiSig =>
    obtain ⟨m, keys, hm, hle, hmax, -, hparse, -⟩ := h
    obtain ⟨pc', hop, -⟩ := parsesAs_cons_iff.mp hparse
    have hdup : opN m ≠ OP_DUP := by
      simp only [opN, OP_1, OP_DUP]
      omega
    have hhash : opN m ≠ OP_HASH160 := by
      simp only [opN, OP_1, OP_HASH160]
      omega
    refine ⟨_, pc', hop, ?_⟩
    change (if ([] : Valtype) ≠ [] then _ else if opN m = OP_DUP then _
      else if opN m = OP_HASH160 then _ else TxnOutType.multiSig) = _
    rw [if_neg (not_not.mpr rfl), if_neg hdup, if_neg hhash]

/-- No script has two forms. -/
theorem StandardForm.type_unique {type' : TxnOutType} {s' : List Valtype}
    (h : StandardForm script type s) (h' : StandardForm script type' s') : type = type' := by
  obtain ⟨op, pc, hop, rfl⟩ := h.formOf
  obtain ⟨op', pc', hop', rfl⟩ := h'.formOf
  rw [hop] at hop'
  simp only [Option.some.injEq, Prod.mk.injEq] at hop'
  rw [Prod.ext hop'.1 hop'.2.1]

/-- What is recognised is a form, and the form has no other solutions. -/
theorem solved_iff {type' : TxnOutType} {s' : List Valtype} (h : StandardForm script type' s')
    (hunique : StandardForm script type' s → s = s') :
    (⟨true, type', s'⟩ : Solution) = ⟨true, type, s⟩ ↔ StandardForm script type s := by
  constructor
  · intro heq
    cases heq
    exact h
  · intro hform
    obtain rfl := hform.type_unique h
    rw [hunique hform]

/-- A script that no template matches has no form. -/
theorem not_standardForm (hp2sh : ¬ isPayToScriptHash script)
    (hpubKey : ¬ StandardForm script .pubKey s) (hpubKeyHash : ¬ StandardForm script .pubKeyHash s)
    (hmultiSig : ¬ StandardForm script .multiSig s) : ¬ StandardForm script type s := by
  intro hform
  cases type with
  | nonstandard => exact hform
  | scriptHash =>
    obtain ⟨hash, hlen, hscript, -⟩ := hform
    exact hp2sh (isPayToScriptHash_iff.mpr ⟨hash, hlen, hscript⟩)
  | pubKey => exact hpubKey hform
  | pubKeyHash => exact hpubKeyHash hform
  | multiSig => exact hmultiSig hform

/-- The last template, its checks included, where the others do not match. -/
theorem scanTemplates_multiSig (hp2sh : ¬ isPayToScriptHash script)
    (hpubKey : ¬ StandardForm script .pubKey s)
    (hpubKeyHash : ¬ StandardForm script .pubKeyHash s) :
    scanTemplates script [(.multiSig, ofOpcode OP_SMALLINTEGER ++ ofOpcode OP_PUBKEYS ++
      ofOpcode OP_SMALLINTEGER ++ ofOpcode OP_CHECKMULTISIG)] = ⟨true, type, s⟩ ↔
        StandardForm script type s := by
  rw [scanTemplates]
  split
  · next hnone =>
    refine iff_of_false nofun (not_standardForm hp2sh hpubKey hpubKeyHash fun hform => ?_)
    cases hnone.symm.trans (matchTemplate_multiSig.mpr hform).1
  · next s' hsome =>
    have hunique (hform : StandardForm script .multiSig s) : s = s' :=
      Option.some.inj ((matchTemplate_multiSig.mpr hform).1.symm.trans hsome)
    cases hcheck : checkMultiSigSolutions s' with
    | true => exact solved_iff (matchTemplate_multiSig.mp ⟨hsome, hcheck⟩) hunique
    | false =>
      refine iff_of_false nofun (not_standardForm hp2sh hpubKey hpubKeyHash fun hform => ?_)
      have htrue := (matchTemplate_multiSig.mpr hform).2
      rw [hunique hform, hcheck] at htrue
      cases htrue

theorem solver_eq_iff : solver script = ⟨true, type, s⟩ ↔ StandardForm script type s := by
  unfold solver
  split_ifs with hp2sh
  · obtain ⟨hash, hlen, rfl⟩ := isPayToScriptHash_iff.mp hp2sh
    have htake : ((ofOpcode OP_HASH160 ++ 0x14 :: hash ++ ofOpcode OP_EQUAL).drop 2).take 20 =
        hash := List.take_left' hlen
    rw [htake]
    refine solved_iff ⟨hash, hlen, rfl, rfl⟩ ?_
    rintro ⟨hash', hlen', heq, rfl⟩
    have hcancel := List.append_cancel_right heq
    rw [(List.cons_eq_cons.mp (List.append_cancel_left hcancel)).2]
  · -- the templates, one after the other
    unfold mTemplates
    rw [scanTemplates]
    split
    · next hpubKey =>
      rw [scanTemplates]
      split
      · next hpubKeyHash =>
        refine scanTemplates_multiSig hp2sh (fun hform => ?_) fun hform => ?_
        · cases hpubKey.symm.trans (matchTemplate_pubKey.mpr hform)
        · cases hpubKeyHash.symm.trans (matchTemplate_pubKeyHash.mpr hform)
      · next s' hpubKeyHash =>
        refine solved_iff (matchTemplate_pubKeyHash.mp hpubKeyHash) fun hform => ?_
        exact Option.some.inj ((matchTemplate_pubKeyHash.mpr hform).symm.trans hpubKeyHash)
    · next s' hpubKey =>
      refine solved_iff (matchTemplate_pubKey.mp hpubKey) fun hform => ?_
      exact Option.some.inj ((matchTemplate_pubKey.mpr hform).symm.trans hpubKey)

theorem StandardForm.solver_eq (h : StandardForm script type s) : solver script = ⟨true, type, s⟩ :=
  solver_eq_iff.mpr h

theorem standardForm_of_solver (h : solver script = ⟨true, type, s⟩) : StandardForm script type s :=
  solver_eq_iff.mp h

/-- **`Solver` recognises the four standard forms and nothing else.** -/
theorem solver_iff (script : CScript) (type : TxnOutType) (s : List Valtype) :
    solver script = ⟨true, type, s⟩ ↔ StandardForm script type s :=
  ⟨standardForm_of_solver, StandardForm.solver_eq⟩

end Forms

end MotaCoin
