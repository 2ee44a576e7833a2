import MotaCoin.ScriptParse

/-!
# Pushed data items

`operator<<` writes a data item in one of four forms, by its length; `GetOp` reads each form with
a check of its own. Whatever was appended to a script of less than four gigabytes is read back.

## Main definitions

* `pushOpcode`: the opcode of the form that a data item is written in
* `appendData`: `operator<<` for a data item, on a script

## Main results

* `getOp2_push`: a push is read back, whatever follows it
* `readsAs_pushed`: `GetOp` reads the data items that a script was made of, to its end
-/

namespace MotaCoin

open Wire Chunks

variable {b : Valtype} {pc script : CScript} {items : List Valtype}

/-- The opcode in front of a data item: its length, if it is short. -/
def pushOpcode (b : Valtype) : Nat :=
  if b.length < OP_PUSHDATA1 then b.length
  else if b.length ≤ 0xff then OP_PUSHDATA1
  else if b.length ≤ 0xffff then OP_PUSHDATA2
  else OP_PUSHDATA4

/-- `operator<<` for a data item. -/
def appendData (script : CScript) (b : Valtype) : CScript := script ++ pushData b

theorem pushOpcode_le (b : Valtype) : pushOpcode b ≤ OP_PUSHDATA4 := by
  unfold pushOpcode
  split_ifs with hshort
  · exact hshort.le.trans (by decide)
  · decide
  · decide
  · decide

/-! ## One push -/

/-- What `GetOp2` makes of a push, once it has read the size: all bytes are there. -/
theorem getOp2_of_reads (byte : UInt8) {size : List UInt8} (hbyte : byte.toNat ≤ OP_PUSHDATA4)
    (hsize : Reads (readPushSize byte.toNat) size b.length) (hlen : (b ++ pc).length < 2 ^ 32) :
    getOp2 (byte :: (size ++ (b ++ pc))) = some (byte.toNat, b, pc) := by
  have hroom : ¬ (b ++ pc).length % 2 ^ 32 < b.length := by
    rw [Nat.mod_eq_of_lt hlen, List.length_append]
    omega
  rw [getOp2, if_pos hbyte, hsize]
  dsimp only
  rw [if_neg hroom, List.take_left, List.drop_left]

/-- **A push is read back**, whatever follows it, as long as the bytes from its data on are counted
by an `unsigned int`. -/
theorem getOp2_push (hlen : (b ++ pc).length < 2 ^ 32) :
    getOp2 (pushData b ++ pc) = some (pushOpcode b, b, pc) := by
  have hb : b.length < 2 ^ 32 := by
    rw [List.length_append] at hlen
    omega
  unfold pushData pushOpcode
  split_ifs with hshort hone htwo
  · -- the length is the opcode
    have hbyte : (UInt8.ofNat b.length).toNat = b.length := by
      rw [UInt8.toNat_ofNat']
      exact Nat.mod_eq_of_lt (hshort.trans (by decide))
    have hsize : Reads (readPushSize (UInt8.ofNat b.length).toNat) [] b.length := by
      intro rest
      rw [hbyte, readPushSize, if_pos hshort]
      rfl
    have hle : (UInt8.ofNat b.length).toNat ≤ OP_PUSHDATA4 := by
      rw [hbyte]
      exact hshort.le.trans (by decide)
    have hread := getOp2_of_reads _ hle hsize hlen
    rw [hbyte] at hread
    exact hread
  · rw [List.append_assoc, List.append_assoc]
    -- the length is a little-endian word behind the opcode
    exact getOp2_of_reads 0x4c (by decide) (reads_readLE (w := 1) (by omega)) hlen
  · rw [List.append_assoc, List.append_assoc]
    exact getOp2_of_reads 0x4d (by decide) (reads_readLE (w := 2) (by omega)) hlen
  · rw [List.append_assoc, List.append_assoc]
    exact getOp2_of_reads 0x4e (by decide) (reads_readLE (w := 4) hb) hlen

/-- The data is the end of the push. -/
theorem suffix_pushData (b : Valtype) : b <:+ pushData b := by
  unfold pushData
  split_ifs
  · exact List.suffix_append _ _
  all_goals
    rw [← List.append_assoc]
    exact List.suffix_append _ _

/-! ## A script of pushes -/

theorem foldl_appendData (script : CScript) (items : List Valtype) :
    items.foldl appendData script = script ++ items.flatMap pushData := by
  induction items generalizing script with
  | nil => exact (List.append_nil script).symm
  | cons b items ih =>
    rw [List.foldl_cons, ih, appendData, List.flatMap_cons, List.append_assoc]

/-- Pushes in front of a script are read one after the other, and then the script. -/
theorem readsAs_flatMap_pushData (hlen : (items.flatMap pushData).length < 2 ^ 32) :
    scriptReader.ReadsAs (items.flatMap pushData) (items.map fun b => (pushOpcode b, b)) := by
  induction items with
  | nil => exact Reader.readsAs_nil_iff.mpr rfl
  | cons b items ih =>
    rw [List.flatMap_cons, List.length_append] at hlen
    have hdata := (suffix_pushData b).length_le
    -- the data and what is behind it are no longer than the script
    have hnext : getOp2 (pushData b ++ items.flatMap pushData) =
        some (pushOpcode b, b, items.flatMap pushData) := by
      refine getOp2_push ?_
      rw [List.length_append]
      omega
    rw [List.flatMap_cons, List.map_cons]
    exact Reader.readsAs_cons_iff.mpr
      ⟨_, scriptReader_next.mpr hnext, ih ((Nat.le_add_left _ _).trans_lt hlen)⟩

/-- **The data items that a script was made of are read back**, in order and to the end of the
script, each with the opcode of its form. -/
theorem readsAs_pushed (items : List Valtype)
    (hlen : (items.foldl appendData []).length < 2 ^ 32) :
    scriptReader.ReadsAs (items.foldl appendData []) (items.map fun b => (pushOpcode b, b)) := by
  rw [foldl_appendData, List.nil_append] at hlen ⊢
  exact readsAs_flatMap_pushData hlen

/-- An empty item, a short one and one that takes `OP_PUSHDATA1`. -/
theorem readsAs_pushed_three :
    scriptReader.ReadsAs ([[], [0x07, 0x08], List.replicate 76 0xaa].foldl appendData [])
      ([[], [0x07, 0x08], List.replicate 76 0xaa].map fun b => (pushOpcode b, b)) :=
  readsAs_pushed _ (by decide)

end MotaCoin
