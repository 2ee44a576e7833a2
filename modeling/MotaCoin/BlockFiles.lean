import Mathlib.Algebra.Order.BigOperators.Group.List
import Mathlib.Data.List.Infix
import MotaCoin.BranchVerdict
import MotaCoin.Consistency
import MotaCoin.Serialize

/-!
# The bytes of the block files

`WriteToDisk` appends a block to the current block file and returns where its bytes start;
`ConnectBlock` computes from there where each transaction starts, without looking at the file. What
`WriteToDisk` wrote is read back as the block, and at the positions that `ConnectBlock` computed there
are the transactions.

## Main definitions

* `BlockFiles`, `appendBlockFile`, `writeToDisk`: the files and what is appended to them
* `CBlock.readFromDisk`, `CTransaction.readFromDisk`: reading at a position
* `firstTxPos32`, `txOffsets32`: the running `nTxPos` in an `unsigned int`
* `PointsAt`: a position leads to the bytes of the `i`-th transaction of a record

## Main results

* `connectBlock_pointsAt`: what `ConnectBlock` records leads to the transactions
-/

namespace MotaCoin

open Wire

/-- The first bytes of a message and of a record of the block files. -/
def pchMessageStart : List UInt8 := [0x30, 0x4A, 0x30, 0x4A]

/-! ## Files -/

/-- The contents of the block files, the first of them being number 1, and the number of the file
that is appended to. -/
structure BlockFiles where
  files : List (List UInt8)
  nCurrentBlockFile : Nat
  one_le : 1 ≤ nCurrentBlockFile

namespace BlockFiles

variable (disk : BlockFiles)

/-- The content of a file; one that is not there yet is empty. -/
def file (nFile : Nat) : List UInt8 := (disk.files[nFile - 1]?).getD []

/-- The file numbers `OpenBlockFile` accepts. -/
def openable (nFile : Nat) : Bool := decide (1 ≤ nFile ∧ nFile ≠ 4294967295)

/-- The loop of `AppendBlockFile`, over the files from number `nFile` on: the first one that is
short enough. -/
def appendFrom : List (List UInt8) → Nat → Option Nat
  | [], nFile => if openable nFile then some nFile else none
  | content :: files, nFile =>
    if !openable nFile then none
    else if content.length < 0x7F000000 - MAX_SIZE then some nFile
    else appendFrom files (nFile + 1)

/-- `AppendBlockFile`: the number of the file to append to. -/
def appendBlockFile : Option Nat :=
  appendFrom (disk.files.drop (disk.nCurrentBlockFile - 1)) disk.nCurrentBlockFile

/-- The files with another content of the file `nFile`, from the current one on, which becomes the
current one. -/
def put (nFile : Nat) (content : List UInt8) : BlockFiles where
  files := (disk.files ++ List.replicate (nFile - disk.files.length) []).set (nFile - 1) content
  nCurrentBlockFile := max disk.nCurrentBlockFile nFile
  one_le := disk.one_le.trans (le_max_left _ _)

/-- `CBlock::WriteToDisk`: the file, the offset and the files with the record appended. The offset
`ftell` gives is stored in an `unsigned int`. -/
def writeToDisk (b : CBlock) : Option (Nat × Nat × BlockFiles) :=
  disk.appendBlockFile.map fun nFile =>
    let header := disk.file nFile ++ (pchMessageStart ++ leBytes 4 b.getSerializeSize32)
    (nFile, header.length % 2 ^ 32, disk.put nFile (header ++ b.serialize SER_DISK))

/-- `CTransaction::ReadFromDisk(pos)`. -/
def readTransaction (pos : CDiskTxPos) : Option CTransaction :=
  if openable pos.nFile then
    (CTransaction.unserialize ((disk.file pos.nFile).drop pos.nTxPos)).map Prod.fst
  else none

/-! ## Appending -/

theorem appendFrom_spec {files : List (List UInt8)} :
    ∀ {n nFile : Nat}, appendFrom files n = some nFile →
      openable nFile = true ∧ n ≤ nFile ∧
        ((files[nFile - n]?).getD []).length < 0x7F000000 - MAX_SIZE := by
  induction files with
  | nil =>
    intro n nFile h
    rw [appendFrom] at h
    split_ifs at h with hopen
    obtain rfl := Option.some.inj h
    exact ⟨hopen, le_rfl, by simp [MAX_SIZE]⟩
  | cons content files ih =>
    intro n nFile h
    rw [appendFrom] at h
    split_ifs at h with hopen hshort
    · obtain rfl := Option.some.inj h
      exact ⟨by simpa using hopen, le_rfl, by simpa using hshort⟩
    · obtain ⟨hopen', hle, hlen⟩ := ih h
      have hindex : nFile - n = (nFile - (n + 1)) + 1 := by omega
      refine ⟨hopen', by omega, ?_⟩
      rwa [hindex, List.getElem?_cons_succ]

variable {disk}

/-- The file that is appended to stays under two gigabytes. -/
theorem appendBlockFile_spec {nFile : Nat} (h : disk.appendBlockFile = some nFile) :
    openable nFile = true ∧ (disk.file nFile).length < 0x7F000000 - MAX_SIZE := by
  have hcurrent := disk.one_le
  obtain ⟨hopen, hle, hlen⟩ := appendFrom_spec h
  refine ⟨hopen, ?_⟩
  rw [List.getElem?_drop] at hlen
  rwa [show disk.nCurrentBlockFile - 1 + (nFile - disk.nCurrentBlockFile) = nFile - 1 by omega]
    at hlen

theorem file_put (nFile : Nat) (content : List UInt8) (hopen : openable nFile = true) :
    (disk.put nFile content).file nFile = content := by
  have hpos : 1 ≤ nFile := (of_decide_eq_true hopen).1
  have hlt : nFile - 1 < (disk.files ++ List.replicate (nFile - disk.files.length) []).length := by
    simp only [List.length_append, List.length_replicate]
    omega
  simp [file, put, List.getElem?_set_self hlt]

theorem file_put_ne {nFile nFile' : Nat} (content : List UInt8) (hpos : 1 ≤ nFile)
    (hpos' : 1 ≤ nFile') (hne : nFile' ≠ nFile) :
    (disk.put nFile content).file nFile' = disk.file nFile' := by
  simp only [file, put]
  rw [List.getElem?_set_ne (by omega), List.getElem?_append]
  split
  · rfl
  · next hge =>
    rw [List.getElem?_eq_none (by omega : disk.files.length ≤ nFile' - 1)]
    simp only [List.getElem?_replicate]
    split <;> rfl

/-- **What `WriteToDisk` did**: the record is at the end of its file, at the offset returned, and
no other file changed. -/
theorem writeToDisk_spec {b : CBlock} {nFile nBlockPos : Nat} {disk' : BlockFiles}
    (h : disk.writeToDisk b = some (nFile, nBlockPos, disk')) :
    openable nFile = true ∧ nBlockPos < 0x7F000000 - MAX_SIZE + 8 ∧
      (∃ header, header.length = nBlockPos ∧ disk.file nFile <+: header ∧
        disk'.file nFile = header ++ b.serialize SER_DISK) ∧
      ∀ nFile', 1 ≤ nFile' → nFile' ≠ nFile → disk'.file nFile' = disk.file nFile' := by
  obtain ⟨nFile₀, happend, heq⟩ := Option.map_eq_some_iff.mp h
  obtain ⟨hopen, hlen⟩ := appendBlockFile_spec happend
  simp only [Prod.mk.injEq] at heq
  obtain ⟨rfl, hoffset, rfl⟩ := heq
  have hpos : (disk.file nFile₀ ++ (pchMessageStart ++ leBytes 4 b.getSerializeSize32)).length =
      (disk.file nFile₀).length + 8 := by simp [pchMessageStart]
  have hmod : ((disk.file nFile₀).length + 8) % 2 ^ 32 = (disk.file nFile₀).length + 8 :=
    Nat.mod_eq_of_lt (by omega)
  rw [hpos, hmod] at hoffset
  refine ⟨hopen, by omega, ⟨_, hpos.trans hoffset, List.prefix_append _ _, file_put _ _ hopen⟩, ?_⟩
  exact fun nFile' hpos' hne => file_put_ne _ (of_decide_eq_true hopen).1 hpos' hne

end BlockFiles

/-! ## Sizes -/

/-- The elements of a vector, and their number, are bounded by the bytes they take. -/
theorem length_and_mem_le_sum {α : Type} (size : α → Nat) (hsize : ∀ a, 1 ≤ size a) (v : List α) :
    v.length ≤ (v.map size).sum ∧ ∀ a ∈ v, size a ≤ (v.map size).sum := by
  refine ⟨?_, fun a ha => List.single_le_sum (by simp) _ (List.mem_map_of_mem ha)⟩
  have := List.length_le_sum_of_one_le (v.map size) (by simpa using fun a _ => hsize a)
  rwa [List.length_map] at this

theorem CTransaction.sized_of_le {tx : CTransaction} {n : Nat} (h : tx.getSerializeSize ≤ n) :
    tx.Sized n := by
  unfold CTransaction.getSerializeSize at h
  obtain ⟨hin, hins⟩ := length_and_mem_le_sum CTxIn.getSerializeSize
    (fun txin => by unfold CTxIn.getSerializeSize; omega) tx.vin
  obtain ⟨hout, houts⟩ := length_and_mem_le_sum CTxOut.getSerializeSize
    (fun txout => by unfold CTxOut.getSerializeSize; omega) tx.vout
  refine ⟨by omega, by omega, fun txin hmem => ?_, fun txout hmem => ?_⟩
  · have := hins txin hmem
    simp only [CTxIn.getSerializeSize, bytesSize] at this
    omega
  · have := houts txout hmem
    simp only [CTxOut.getSerializeSize, bytesSize] at this
    omega

/-- A block has no vector longer than the bytes it takes. -/
theorem CBlock.sized_of_le {b : CBlock} {n : Nat} (h : b.getSerializeSize ≤ n) : b.Sized n := by
  unfold CBlock.getSerializeSize bytesSize at h
  obtain ⟨htx, htxs⟩ := length_and_mem_le_sum CTransaction.getSerializeSize
    CTransaction.getSerializeSize_pos b.vtx
  refine ⟨by omega, fun tx hmem => CTransaction.sized_of_le ?_, by omega⟩
  have := htxs tx hmem
  omega

theorem CBlock.getSerializeSize_le_of_checkBlock {C : Crypto} {adjustedTime : Int} {b : CBlock}
    {fCheckPOW fCheckMerkleRoot fCheckSig : Bool}
    (h : b.checkBlock C adjustedTime fCheckPOW fCheckMerkleRoot fCheckSig = true) :
    b.getSerializeSize ≤ MAX_BLOCK_SIZE ∧ (b.vtx.map C.hashTx).Nodup := by
  unfold CBlock.checkBlock at h
  split at h
  · cases h
  · simp only [Bool.and_eq_true, decide_eq_true_eq] at h
    obtain ⟨⟨⟨⟨⟨⟨⟨⟨⟨⟨⟨-, hsize⟩, -⟩, -⟩, -⟩, -⟩, -⟩, -⟩, -⟩, hnodup⟩, -⟩, -⟩ := h
    exact ⟨hsize, hnodup⟩

/-! ## Offsets -/

/-- The first `nTxPos` of `ConnectBlock`, in an `unsigned int`. -/
def firstTxPos32 (nBlockPos : Nat) (b : CBlock) : Nat :=
  let nEmpty := CBlock.getSerializeSize32 ⟨1, 0, 0, 0, 0, 0, [], []⟩
  addSize (addSize nBlockPos nEmpty + 2 ^ 32 - 2 * getSizeOfCompactSize 0)
    (getSizeOfCompactSize b.vtx.length)

/-- The `nTxPos` of each transaction in the loop of `ConnectBlock`, in an `unsigned int`. -/
def txOffsets32 (nTxPos : Nat) : List CTransaction → List Nat
  | [] => []
  | tx :: vtx => nTxPos :: txOffsets32 (addSize nTxPos tx.getSerializeSize32) vtx

theorem firstTxPos32_eq {nBlockPos : Nat} (h : nBlockPos < 2 ^ 31) (b : CBlock) :
    firstTxPos32 nBlockPos b = firstTxPos nBlockPos b := by
  have hempty : CBlock.getSerializeSize32 ⟨1, 0, 0, 0, 0, 0, [], []⟩ = 82 := by decide
  have hle : getSizeOfCompactSize b.vtx.length ≤ 9 := by
    unfold getSizeOfCompactSize
    split_ifs <;> omega
  simp only [firstTxPos32, hempty, firstTxPos, addSize, getSizeOfCompactSize_of_lt (show 0 < 253 by decide)]
  omega

/-- While the end of the block is below `2^32`, no offset wraps. -/
theorem txOffsets32_eq {vtx : List CTransaction} :
    ∀ {nTxPos : Nat}, nTxPos + (vtx.map CTransaction.getSerializeSize).sum < 2 ^ 32 →
      txOffsets32 nTxPos vtx = (txOffsets nTxPos vtx).map Prod.snd := by
  induction vtx with
  | nil =>
    intro nTxPos _
    rfl
  | cons tx vtx ih =>
    intro nTxPos h
    rw [List.map_cons, List.sum_cons] at h
    have hadd : addSize nTxPos tx.getSerializeSize32 = nTxPos + tx.getSerializeSize := by
      rw [addSize, CTransaction.getSerializeSize32_eq, Nat.mod_eq_of_lt (by omega),
        Nat.mod_eq_of_lt (by omega)]
    rw [txOffsets32, txOffsets, List.map_cons, hadd, ih (by omega)]

theorem getElem?_txOffsets (nTxPos i : Nat) (vtx : List CTransaction) :
    (txOffsets nTxPos vtx)[i]? = vtx[i]?.map fun tx =>
      (tx, nTxPos + ((vtx.take i).map CTransaction.getSerializeSize).sum) := by
  induction vtx generalizing nTxPos i with
  | nil => simp [txOffsets]
  | cons tx vtx ih =>
    cases i with
    | zero => simp [txOffsets]
    | succ i => simp only [txOffsets, List.getElem?_cons_succ, ih, List.take_succ_cons,
        List.map_cons, List.sum_cons, add_assoc]

/-- The bytes of a block before its `i`-th transaction: the header, the count and the transactions
before. -/
def CBlock.bytesBefore (b : CBlock) (i : Nat) : List UInt8 :=
  b.getBlockHeader.serialize ++
    (writeCompactSize b.vtx.length ++ (b.vtx.take i).flatMap CTransaction.serialize)

theorem CBlock.length_bytesBefore (b : CBlock) (i nBlockPos : Nat) :
    nBlockPos + (b.bytesBefore i).length =
      firstTxPos nBlockPos b + ((b.vtx.take i).map CTransaction.getSerializeSize).sum := by
  have hflat : ((b.vtx.take i).flatMap CTransaction.serialize).length =
      ((b.vtx.take i).map CTransaction.getSerializeSize).sum := by
    simp [List.length_flatMap, CTransaction.length_serialize]
  simp only [CBlock.bytesBefore, List.length_append, CBlockHeader.length_serialize,
    length_writeCompactSize, hflat, firstTxPos]
  omega

/-- The `i`-th transaction follows the bytes before it. -/
theorem CBlock.bytesBefore_append_isPrefix {b : CBlock} {i : Nat} {tx : CTransaction}
    (hi : b.vtx[i]? = some tx) : b.bytesBefore i ++ tx.serialize <+: b.serialize SER_DISK := by
  obtain ⟨hlt, rfl⟩ := List.getElem?_eq_some_iff.mp hi
  have hsplit : b.vtx.flatMap CTransaction.serialize =
      (b.vtx.take i).flatMap CTransaction.serialize ++
        (b.vtx[i].serialize ++ (b.vtx.drop (i + 1)).flatMap CTransaction.serialize) := by
    rw [← List.flatMap_cons, ← List.drop_eq_getElem_cons hlt, ← List.flatMap_append,
      List.take_append_drop]
  refine ⟨(b.vtx.drop (i + 1)).flatMap CTransaction.serialize ++ serializeBytes b.vchBlockSig, ?_⟩
  simp only [CBlock.bytesBefore, CBlock.serialize, show headerOnly SER_DISK = false from rfl,
    Bool.false_eq_true, if_false, serializeVector, hsplit, List.append_assoc]

/-! ## What the files hold -/

namespace BlockFiles

variable {disk disk' : BlockFiles} {b : CBlock} {nFile nBlockPos i : Nat} {tx : CTransaction}

/-- A position leads to the bytes of the `i`-th transaction of the record at `nBlockPos`. -/
structure PointsAt (disk : BlockFiles) (b : CBlock) (nBlockPos i : Nat) (tx : CTransaction)
    (pos : CDiskTxPos) : Prop where
  offset : pos.nTxPos = nBlockPos + (b.bytesBefore i).length
  record : b.bytesBefore i ++ tx.serialize <+: b.serialize SER_DISK
  bytes : tx.serialize <+: (disk.file pos.nFile).drop pos.nTxPos
  read : disk.readTransaction pos = some tx

/-- **The positions `ConnectBlock` computes lead to the transactions** of a record that is in the
files. -/
theorem pointsAt_of_record (hopen : openable nFile = true) (hfits : b.Fits)
    (hsized : b.Sized MAX_SIZE) (hrecord : b.serialize SER_DISK <+: (disk.file nFile).drop nBlockPos)
    (hi : b.vtx[i]? = some tx) :
    ∃ nTxPos, (txOffsets (firstTxPos nBlockPos b) b.vtx)[i]? = some (tx, nTxPos) ∧
      PointsAt disk b nBlockPos i tx ⟨nFile, nBlockPos, nTxPos⟩ := by
  have hmem : tx ∈ b.vtx := List.mem_of_getElem? hi
  have hbefore := CBlock.bytesBefore_append_isPrefix hi
  have hbytes : tx.serialize <+:
      (disk.file nFile).drop (nBlockPos + (b.bytesBefore i).length) := by
    have := (hbefore.trans hrecord).drop (b.bytesBefore i).length
    rwa [List.drop_left, List.drop_drop] at this
  refine ⟨nBlockPos + (b.bytesBefore i).length, ?_, rfl, hbefore, hbytes, ?_⟩
  · rw [getElem?_txOffsets, hi, CBlock.length_bytesBefore]
    rfl
  · rw [readTransaction, if_pos hopen]
    exact (CTransaction.reads_unserialize (by decide) (hfits.vtx tx hmem)
      (hsized.txs tx hmem)).of_isPrefix hbytes

end BlockFiles

/-! ## What `ConnectBlock` records -/

section Recorded

variable {C : Crypto} {src : Sources} {ctx : CTransaction.ConnectCtx}

/-- Where an index says a transaction is. -/
def posOf (idx : TxIndexMap) (hash : Uint256) : Option CDiskTxPos :=
  (idx hash).map SpendIndex.Record.pos

theorem posOf_update (idx : TxIndexMap) (hash : Uint256) (r : CTxIndex) :
    posOf (Function.update idx hash (some r)) = Function.update (posOf idx) hash (some r.pos) := by
  funext hash'
  by_cases hh : hash' = hash
  · subst hh
    simp [posOf]
  · simp [posOf, Function.update_of_ne hh]

/-- Spending outputs moves no transaction. -/
theorem posOf_markAll (idx : TxIndexMap) (os : List (Uint256 × Nat)) (pos : CDiskTxPos) :
    posOf (SpendIndex.markAll idx os pos) = posOf idx := by
  funext hash
  simp only [posOf, SpendIndex.markAll_apply, Option.map_map]
  rfl

/-- One round of the loop of `ConnectBlock` records the position of its transaction and changes no
other. -/
theorem posOf_connectTx {t t' : ConnectTotals} {tx : CTransaction} {posThisTx : CDiskTxPos}
    (h : connectTx C src ctx t tx posThisTx = some t') :
    posOf (overlay src.readTxIndex t'.mapQueuedChanges) =
      Function.update (posOf (overlay src.readTxIndex t.mapQueuedChanges)) (C.hashTx tx)
        (some posThisTx) := by
  obtain ⟨_, q, -, hqueue, -, hcases⟩ := connectTx_cases h
  have hq : posOf (overlay src.readTxIndex q) =
      posOf (overlay src.readTxIndex t.mapQueuedChanges) := by
    rcases hcases with ⟨-, rfl, -⟩ | ⟨hcb, _, hok, -, hconnect, -⟩
    · rfl
    · rw [(connectInputs_spec C rfl hcb (fetchInputs_spec rfl hcb hok) hconnect).1, posOf_markAll]
  rw [hqueue, overlay_insert, posOf_update, hq]
  rfl

/-- The loop of `ConnectBlock` records the position of every transaction, the ids being distinct,
and leaves the others as they were. -/
theorem posOf_connectTxs {txs : List (CTransaction × CDiskTxPos)} :
    ∀ {t t' : ConnectTotals}, (txs.map fun p => C.hashTx p.1).Nodup →
      connectTxs C src ctx txs t = some t' →
      (∀ p ∈ txs, posOf (overlay src.readTxIndex t'.mapQueuedChanges) (C.hashTx p.1) = some p.2) ∧
        ∀ hash, hash ∉ (txs.map fun p => C.hashTx p.1) →
          posOf (overlay src.readTxIndex t'.mapQueuedChanges) hash =
            posOf (overlay src.readTxIndex t.mapQueuedChanges) hash := by
  induction txs with
  | nil =>
    intro t t' _ h
    obtain rfl := Option.some.inj h
    exact ⟨fun _ hp => absurd hp List.not_mem_nil, fun _ _ => rfl⟩
  | cons p txs ih =>
    intro t t' hnodup h
    rw [connectTxs] at h
    split at h
    · cases h
    · next t₁ ht₁ =>
      obtain ⟨hnotin, hnodup'⟩ := List.nodup_cons.mp hnodup
      obtain ⟨hlater, hother⟩ := ih hnodup' h
      have hstep := posOf_connectTx ht₁
      refine ⟨fun p' hp' => ?_, fun hash hhash => ?_⟩
      · rcases List.mem_cons.mp hp' with rfl | hp'
        · rw [hother _ hnotin, hstep, Function.update_self]
        · exact hlater p' hp'
      · obtain ⟨hne, hnot⟩ := not_or.mp (mt List.mem_cons.mpr hhash)
        rw [hother hash hnot, hstep, Function.update_of_ne hne]

end Recorded

/-- **What `ConnectBlock` records leads to the transactions**: for a block that `WriteToDisk` put
at `nBlockPos`, the record kept for its `i`-th transaction has the position that the running
`nTxPos` gives, and this is where the bytes of the transaction start in the written record;
reading there gives the transaction, and still does after more was appended to the file. -/
theorem connectBlock_pointsAt {C : Crypto} {env : Env} {disk disk' : BlockFiles} {b : CBlock}
    {nFile nBlockPos : Nat} (hfits : b.Fits)
    (hwrite : disk.writeToDisk b = some (nFile, nBlockPos, disk')) {s : NodeState} {hash : Uint256}
    {pindex : CBlockIndex} (hindex : s.mapBlockIndex hash = some pindex)
    (hfile : pindex.nFile = nFile) (hpos : pindex.nBlockPos = nBlockPos)
    (hok : (s.connectBlock C env b hash).1 = true) :
    (disk'.file nFile).drop nBlockPos = b.serialize SER_DISK ∧
    ∀ i tx, b.vtx[i]? = some tx → ∃ txindex nTxPos,
      (s.connectBlock C env b hash).2.txdb.readTxIndex (C.hashTx tx) = some txindex ∧
      (txOffsets32 (firstTxPos32 nBlockPos b) b.vtx)[i]? = some nTxPos ∧
      txindex.pos = ⟨nFile, nBlockPos, nTxPos⟩ ∧
      ∀ later : BlockFiles, disk'.file nFile <+: later.file nFile →
        BlockFiles.PointsAt later b nBlockPos i tx txindex.pos := by
  obtain ⟨hcheck, -⟩ := (connectBlock_fst_iff hindex).mp hok
  obtain ⟨hsize, hnodup⟩ := CBlock.getSerializeSize_le_of_checkBlock hcheck
  have hsized : b.Sized MAX_SIZE := CBlock.sized_of_le (hsize.trans (by decide))
  obtain ⟨hopen, hbound, ⟨header, hlen, -, hcontent⟩, -⟩ := BlockFiles.writeToDisk_spec hwrite
  have hdrop : (disk'.file nFile).drop nBlockPos = b.serialize SER_DISK := by
    rw [hcontent, ← hlen, List.drop_left]
  refine ⟨hdrop, fun i tx hi => ?_⟩
  -- the offsets do not wrap, so they are the ones of the loop on natural numbers
  have hbound' : nBlockPos < 2 ^ 31 := lt_of_lt_of_le hbound (by decide)
  have hnowrap : firstTxPos nBlockPos b + (b.vtx.map CTransaction.getSerializeSize).sum < 2 ^ 32 := by
    have hfirst := CBlock.length_bytesBefore b b.vtx.length nBlockPos
    have hrecord : (b.serialize SER_DISK).length = b.getSerializeSize := CBlock.length_serialize rfl b
    simp only [CBlock.getSerializeSize, MAX_BLOCK_SIZE] at hsize
    simp only [firstTxPos, getSizeOfCompactSize_of_lt (show 0 < 253 by decide)]
    omega
  have hhere : b.serialize SER_DISK <+: (disk'.file nFile).drop nBlockPos := by rw [hdrop]
  obtain ⟨nTxPos, hn, -⟩ := BlockFiles.pointsAt_of_record hopen hfits hsized hhere hi
  -- what the loop recorded
  obtain ⟨e, t, he, htxs, -, hs'⟩ := connectBlock_eq_true C env hok
  obtain rfl := Option.some.inj (he.symm.trans hindex)
  have hmem : (tx, (⟨nFile, nBlockPos, nTxPos⟩ : CDiskTxPos)) ∈ txPositions e.nFile e.nBlockPos b := by
    rw [hfile, hpos]
    exact List.mem_map.mpr ⟨(tx, nTxPos), List.mem_of_getElem? hn, rfl⟩
  have hids : ((txPositions e.nFile e.nBlockPos b).map fun p => C.hashTx p.1).Nodup := by
    have hmap := List.map_map (g := C.hashTx) (f := Prod.fst)
      (l := txPositions e.nFile e.nBlockPos b)
    rw [map_fst_txPositions] at hmap
    exact hmap ▸ hnodup
  have hrecorded := (posOf_connectTxs hids htxs).1 _ hmem
  obtain ⟨txindex, hread, hat⟩ := Option.map_eq_some_iff.mp hrecorded
  refine ⟨txindex, nTxPos, ?_, ?_, hat, fun later hlater => ?_⟩
  · rw [CTxDB.readTxIndex_eq, hs', txIndex_connectWrites, ← s.sources_readTxIndex env]
    exact hread
  · rw [firstTxPos32_eq hbound', txOffsets32_eq hnowrap, List.getElem?_map, hn]
    rfl
  · have hthere : b.serialize SER_DISK <+: (later.file nFile).drop nBlockPos :=
      hdrop ▸ hlater.drop nBlockPos
    obtain ⟨nTxPos', hn', hpoints⟩ :=
      BlockFiles.pointsAt_of_record hopen hfits hsized hthere hi
    obtain rfl : nTxPos' = nTxPos := by simpa using hn'.symm.trans hn
    rw [hat]
    exact hpoints

/-- No block file yet. -/
def emptyDisk : BlockFiles := ⟨[], 1, le_rfl⟩

theorem sampleCoinbase_fits (n : UInt8) (nValue : Int) (h : Int64.InRange nValue) :
    (sampleCoinbase n nValue).Fits := by
  have hn : n.toNat < 256 := n.toNat_lt
  refine ⟨by simp [sampleCoinbase], ?_, ?_, by simpa [sampleCoinbase] using h,
    by simp [sampleCoinbase]⟩
  · simp only [sampleCoinbase]
    omega
  · intro txin hin
    obtain rfl : txin = ⟨COutPoint.null, [n, n], 4294967295⟩ := by simpa [sampleCoinbase] using hin
    exact ⟨by simp [COutPoint.null], by simp [COutPoint.null], by simp⟩

theorem sampleGenesis_fits : sampleGenesis.block.Fits := by
  refine ⟨⟨by decide, by decide, by decide, by decide, by decide, by decide⟩, fun tx htx => ?_⟩
  obtain rfl : tx = sampleCoinbase 0 0 := by simpa [sampleGenesis, sampleBlock] using htx
  exact sampleCoinbase_fits 0 0 (by decide)

/-- The sample genesis block, written to an empty disk and connected. -/
theorem connectBlock_pointsAt_genesis :
    (sampleNode.connectBlock sampleCrypto (sampleEnv false) sampleGenesis.block 1).1 = true ∧
      ∃ (disk' : BlockFiles) (txindex : CTxIndex),
        emptyDisk.writeToDisk sampleGenesis.block = some (1, 8, disk') ∧
        txindex.pos = ⟨1, 8, 89⟩ ∧
        BlockFiles.PointsAt disk' sampleGenesis.block 8 0 (sampleCoinbase 0 0) txindex.pos := by
  have hok : (sampleNode.connectBlock sampleCrypto (sampleEnv false) sampleGenesis.block 1).1 =
      true := by decide +kernel
  obtain ⟨disk', hwrite⟩ : ∃ disk', emptyDisk.writeToDisk sampleGenesis.block = some (1, 8, disk') :=
    ⟨_, rfl⟩
  have hindex : sampleNode.mapBlockIndex 1 = some (storedEntry sampleCrypto 0 sampleGenesis) := by
    decide +kernel
  obtain ⟨-, hall⟩ := connectBlock_pointsAt sampleGenesis_fits hwrite hindex rfl rfl hok
  obtain ⟨txindex, nTxPos, -, hoffset, hat, hpoints⟩ := hall 0 (sampleCoinbase 0 0) rfl
  have hfirst : (txOffsets32 (firstTxPos32 8 sampleGenesis.block) sampleGenesis.block.vtx)[0]? =
      some 89 := by decide
  obtain rfl := Option.some.inj (hoffset.symm.trans hfirst)
  exact ⟨hok, disk', txindex, hwrite, hat, hpoints disk' List.prefix_rfl⟩

end MotaCoin
