import MotaCoin.Lib.Chunks
import MotaCoin.Script

/-!
# Scripts as operations

A script is split by `GetOp2` into the bytes of its operations and a tail that cannot be parsed.
`FindAndDelete`, which compares and erases bytes while it parses, leaves out the operations that
equal the pattern and keeps all other bytes, as long as the script is shorter than the sizes that
`GetOp2` compares.

## Main definitions

* `scriptReader`: `GetOp2` as a reader
* `IsOperation`: the bytes are one complete operation

## Main results

* `scriptReader_stable`: what is parsed depends on the bytes of the operation only
* `findAndDelete_operation`: `FindAndDelete` removes the operations that equal the pattern
* `findAndDelete_overlong`: in a script of more than four gigabytes it may remove something else
-/

namespace MotaCoin

open Wire Chunks

/-- `GetOp2` as a reader: an operation is its opcode and its data. -/
def scriptReader : Reader UInt8 (Nat × Valtype) where
  next pc := (getOp2 pc).map fun (opcode, data, pc') => ((opcode, data), pc')
  suffix := by
    intro pc op pc' h
    obtain ⟨⟨opcode, data, pc'⟩, hop, heq⟩ := Option.map_eq_some_iff.mp h
    obtain ⟨-, rfl⟩ := Prod.mk.inj heq
    cases pc with
    | nil => cases hop
    | cons byte pc => exact (getOp2_cons_suffix hop).2.trans (List.suffix_cons byte pc)
  length_lt := by
    intro pc op pc' h
    obtain ⟨⟨opcode, data, pc'⟩, hop, heq⟩ := Option.map_eq_some_iff.mp h
    obtain ⟨-, rfl⟩ := Prod.mk.inj heq
    exact getOp2_length_lt hop

variable {pc pc' : CScript} {opcode : Nat} {data : Valtype}

@[simp] theorem scriptReader_next :
    scriptReader.next pc = some ((opcode, data), pc') ↔ getOp2 pc = some (opcode, data, pc') := by
  simp [scriptReader]

@[simp] theorem scriptReader_next_eq_none : scriptReader.next pc = none ↔ getOp2 pc = none := by
  simp [scriptReader]

/-! ## What is parsed depends on the bytes of the operation -/

/-- The size of the operand is read from the bytes in front of it. -/
theorem exists_reads_readPushSize {nSize : Nat} (h : readPushSize opcode pc = some (nSize, pc')) :
    ∃ bytes, pc = bytes ++ pc' ∧ Reads (readPushSize opcode) bytes nSize := by
  unfold readPushSize at h
  unfold readPushSize
  split_ifs at h ⊢
  · obtain ⟨rfl, rfl⟩ := Prod.mk.inj (Option.some.inj h)
    exact ⟨[], rfl, fun _ => rfl⟩
  · exact (exists_reads_readLE h).imp fun _ => And.right
  · exact (exists_reads_readLE h).imp fun _ => And.right
  · exact (exists_reads_readLE h).imp fun _ => And.right
  · obtain ⟨rfl, rfl⟩ := Prod.mk.inj (Option.some.inj h)
    exact ⟨[], rfl, fun _ => rfl⟩

/-- **What is parsed depends on the bytes of the operation only**, while the number of bytes left
fits an `unsigned int`. -/
theorem scriptReader_stable : scriptReader.StableBelow (2 ^ 32) := by
  rintro c t t' ⟨opcode, data⟩ h hlen hlen'
  rw [scriptReader_next] at h ⊢
  cases c with
  | nil => exact absurd (getOp2_length_lt h) (Nat.lt_irrefl _)
  | cons byte c =>
    rw [List.cons_append, getOp2] at h ⊢
    rw [List.cons_append, List.length_cons, List.length_append] at hlen hlen'
    split_ifs at h ⊢ with hpush
    · split at h
      · cases h
      · next nSize pc hsize =>
        obtain ⟨bytes, hpc, hreads⟩ := exists_reads_readPushSize hsize
        split_ifs at h with hle
        simp only [Option.some.injEq, Prod.mk.injEq] at h
        obtain ⟨rfl, rfl, hdrop⟩ := h
        -- the operand is the front of the bytes after the size, and the rest is behind it
        have hpclen : pc.length < 2 ^ 32 := by
          have := congrArg List.length hpc
          simp only [List.length_append] at this
          omega
        rw [Nat.mod_eq_of_lt hpclen, Nat.not_lt] at hle
        have hoperand := List.take_append_drop nSize pc
        rw [hdrop] at hoperand
        have hc : c = bytes ++ pc.take nSize := by
          rw [← hoperand, ← List.append_assoc] at hpc
          exact List.append_cancel_right hpc
        have htake : (pc.take nSize).length = nSize := List.length_take_of_le hle
        have hlen₂ : (pc.take nSize ++ t').length < 2 ^ 32 := by
          rw [hc, List.length_append] at hlen'
          rw [List.length_append]
          omega
        rw [hc, List.append_assoc, hreads]
        dsimp only
        rw [Nat.mod_eq_of_lt hlen₂, if_neg (by rw [List.length_append]; omega),
          List.take_left' htake, List.drop_left' htake]
    · simp only [Option.some.injEq, Prod.mk.injEq] at h
      obtain ⟨rfl, rfl, ht⟩ := h
      obtain rfl : c = [] := List.append_left_eq_self.mp ht
      rfl

/-! ## What FindAndDelete deletes -/

/-- The bytes are one complete push or opcode. -/
def IsOperation (b : CScript) : Prop := ∃ opcode data, getOp2 b = some (opcode, data, [])

section Delete

variable {b : CScript} {opcode' : Nat} {data' : Valtype}

theorem IsOperation.ne_nil (hb : IsOperation b) : b ≠ [] := by
  rintro rfl
  obtain ⟨opcode, data, h⟩ := hb
  cases h

/-- The pattern is an operation wherever it stands in front. -/
theorem IsOperation.next (hb : IsOperation b) {rest : CScript}
    (hlen : (b ++ rest).length < 2 ^ 32) : ∃ op, scriptReader.next (b ++ rest) = some (op, rest) := by
  obtain ⟨opcode, data, h⟩ := hb
  refine ⟨(opcode, data), ?_⟩
  refine scriptReader_stable (t := []) ?_ ?_ hlen
  · rw [List.append_nil]
    exact scriptReader_next.mpr h
  · rw [List.length_append] at hlen
    rw [List.append_nil]
    omega

theorem eraseFront_append (hb : b ≠ []) (rest : CScript) :
    eraseFront b (b ++ rest) = ((eraseFront b rest).1, (eraseFront b rest).2 + 1) := by
  rw [eraseFront, if_pos ⟨hb, List.prefix_append b rest⟩, List.drop_left]

theorem eraseFront_of_not_prefix (h : ¬ b <+: pc) : eraseFront b pc = (pc, 0) := by
  rw [eraseFront, if_neg fun hboth => h hboth.2]

/-- The pattern in front is erased, and the parsing starts again behind it. -/
theorem findAndDeleteFrom_append (hb : b ≠ []) (rest : CScript) :
    findAndDeleteFrom b (b ++ rest) =
      ((findAndDeleteFrom b rest).1, (findAndDeleteFrom b rest).2 + 1) := by
  rw [findAndDeleteFrom, findAndDeleteFrom, eraseFront_append hb]
  dsimp only
  split
  · rfl
  · exact Prod.ext rfl (Nat.add_right_comm _ _ _)

theorem findAndDeleteFrom_of_none (hnot : ¬ b <+: pc) (h : getOp2 pc = none) :
    findAndDeleteFrom b pc = (pc, 0) := by
  rw [findAndDeleteFrom, eraseFront_of_not_prefix hnot]
  split
  · rfl
  · next h' => cases h.symm.trans h'

/-- Another operation in front is kept. -/
theorem findAndDeleteFrom_of_some {c : CScript} (hnot : ¬ b <+: c ++ pc')
    (h : getOp2 (c ++ pc') = some (opcode, data, pc')) :
    findAndDeleteFrom b (c ++ pc') =
      (c ++ (findAndDeleteFrom b pc').1, (findAndDeleteFrom b pc').2) := by
  rw [findAndDeleteFrom, eraseFront_of_not_prefix hnot]
  split
  · next h' => cases h'.symm.trans h
  · next h' =>
    cases h'.symm.trans h
    dsimp only
    rw [List.length_append, Nat.add_sub_cancel, List.take_left, Nat.zero_add]

/-- **`FindAndDelete` removes the operations that equal the pattern**, counts them, and keeps
everything else. -/
theorem findAndDeleteFrom_eq (hb : IsOperation b) (hlen : pc.length < 2 ^ 32) :
    findAndDeleteFrom b pc = (scriptReader.without b pc, scriptReader.count b pc) := by
  induction pc using scriptReader.induction with
  | none pc h =>
    have hnot : ¬ b <+: pc := by
      rintro ⟨rest, rfl⟩
      obtain ⟨op, hop⟩ := hb.next hlen
      cases h.symm.trans hop
    rw [findAndDeleteFrom_of_none hnot (scriptReader_next_eq_none.mp h),
      (Reader.without_of_none h).1, (Reader.without_of_none h).2]
  | some c rest op h ih =>
    have hrest : rest.length < 2 ^ 32 := by
      rw [List.length_append] at hlen
      omega
    have ih := ih hrest
    by_cases hc : c = b
    · subst hc
      rw [findAndDeleteFrom_append hb.ne_nil, ih, (Reader.without_append_of_eq h).1,
        (Reader.without_append_of_eq h).2]
    · have hnot : ¬ b <+: c ++ rest := by
        rintro ⟨rest', heq⟩
        -- the pattern would be the operation that is read
        rw [← heq] at hlen
        obtain ⟨op', hop⟩ := hb.next hlen
        rw [heq, h] at hop
        obtain rfl : rest = rest' := (Prod.mk.inj (Option.some.inj hop)).2
        exact hc (List.append_cancel_right heq).symm
      rw [findAndDeleteFrom_of_some hnot (scriptReader_next.mp h), ih,
        (Reader.without_append_of_ne h hc).1, (Reader.without_append_of_ne h hc).2]

theorem findAndDelete_eq_without {script : CScript} (hb : IsOperation b)
    (hlen : script.length < 2 ^ 32) : findAndDelete script b = scriptReader.without b script := by
  rw [findAndDelete, if_neg hb.ne_nil, findAndDeleteFrom_eq hb hlen]

/-- **`FindAndDelete` of one operation.** The operations that equal the pattern are removed, the
other bytes are kept, the tail that cannot be parsed among them; the number removed is returned;
and a second call finds nothing. -/
theorem findAndDelete_operation (script : CScript) (hb : IsOperation b)
    (hlen : script.length < 2 ^ 32) :
    findAndDelete script b =
        ((scriptReader.split script).1.filter fun op => op.chunk ≠ b).flatMap Item.chunk ++
          (scriptReader.split script).2 ∧
      (findAndDeleteFrom b script).2 =
        (scriptReader.split script).1.countP (fun op => op.chunk = b) ∧
      findAndDeleteFrom b (findAndDelete script b) = (findAndDelete script b, 0) := by
  have hfirst := findAndDelete_eq_without hb hlen
  have hlen₂ : (scriptReader.without b script).length < 2 ^ 32 := by
    rw [← hfirst]
    exact (findAndDelete_length_le script b).trans_lt hlen
  obtain ⟨hagain, hcount⟩ := Reader.without_without (b := b) scriptReader_stable hlen
  refine ⟨hfirst, congrArg Prod.snd (findAndDeleteFrom_eq hb hlen), ?_⟩
  rw [hfirst, findAndDeleteFrom_eq hb hlen₂, hagain, hcount]

/-- The operation that pushes one byte. -/
def pushOneByte : CScript := [0x01, 0xaa]

theorem isOperation_pushOneByte : IsOperation pushOneByte := ⟨1, [0xaa], rfl⟩

theorem findAndDelete_operation_pushOneByte :
    findAndDelete [0x01, 0xaa, 0x51, 0x01, 0xaa, 0x4c] pushOneByte =
        ((scriptReader.split [0x01, 0xaa, 0x51, 0x01, 0xaa, 0x4c]).1.filter fun op =>
          op.chunk ≠ pushOneByte).flatMap Item.chunk ++
            (scriptReader.split [0x01, 0xaa, 0x51, 0x01, 0xaa, 0x4c]).2 ∧
      (findAndDeleteFrom pushOneByte [0x01, 0xaa, 0x51, 0x01, 0xaa, 0x4c]).2 =
        (scriptReader.split [0x01, 0xaa, 0x51, 0x01, 0xaa, 0x4c]).1.countP
          (fun op => op.chunk = pushOneByte) ∧
      findAndDeleteFrom pushOneByte
          (findAndDelete [0x01, 0xaa, 0x51, 0x01, 0xaa, 0x4c] pushOneByte) =
        (findAndDelete [0x01, 0xaa, 0x51, 0x01, 0xaa, 0x4c] pushOneByte, 0) :=
  findAndDelete_operation _ isOperation_pushOneByte (by decide)

/-! ### More than four gigabytes -/

/-- The number of bytes left is a multiple of `2 ^ 32`, and is taken to be none. -/
theorem getOp2_overlong {rest : CScript} (h : rest.length = 2 ^ 32 - 1) :
    getOp2 (pushOneByte ++ rest) = none := by
  have hlen : (0xaa :: rest : CScript).length % 2 ^ 32 < 1 := by
    rw [List.length_cons, h]
    decide
  change (if (0xaa :: rest : CScript).length % 2 ^ 32 < 1 then none else _) = none
  exact if_pos hlen

/-- An operation is removed that the parser does not read as one. -/
theorem findAndDelete_overlong : ¬ ∀ script b : CScript, IsOperation b →
    findAndDelete script b =
      ((scriptReader.split script).1.filter fun op => op.chunk ≠ b).flatMap Item.chunk ++
        (scriptReader.split script).2 := by
  intro h
  obtain ⟨rest, hrest⟩ : ∃ rest : CScript, rest.length = 2 ^ 32 - 1 :=
    ⟨List.replicate (2 ^ 32 - 1) 0, List.length_replicate⟩
  have hall := h (pushOneByte ++ rest) pushOneByte isOperation_pushOneByte
  rw [Reader.split_of_none (scriptReader_next_eq_none.mpr (getOp2_overlong hrest)),
    findAndDelete, if_neg isOperation_pushOneByte.ne_nil,
    findAndDeleteFrom_append isOperation_pushOneByte.ne_nil] at hall
  -- the pattern in front is gone
  have hle := findAndDeleteFrom_length_le pushOneByte rest
  have hlen := congrArg List.length hall
  simp only [List.filter_nil, List.flatMap_nil, List.nil_append, List.length_append,
    pushOneByte, List.length_cons] at hlen hle
  omega

end Delete

end MotaCoin
