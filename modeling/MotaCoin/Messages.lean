import MotaCoin.BlockFiles
import MotaCoin.Lib.Framing

/-!
# The framing of peer messages

What a peer sends is appended to `vRecv` in chunks. `ProcessMessages` searches it for message starts
and hands every complete message with a valid header and a matching checksum to `ProcessMessage`. It
works on the buffer in place, through a cursor that moves back when a message is not complete.
Nothing of this shows from outside: the messages are those of a scan of the whole stream. After a
header that is not a message's, the scan goes on behind the header and not behind the message start.
The buffer is held small by flood control, so the cursor does not overflow.

## Main definitions

* `CDataStream`: the buffer and its cursor, with `read`, `ignore`, `erase`, `insert`, `compact`
* `CMessageHeader`, `CMessageHeader.isValid`, `CMessageHeader.getCommand`
* `nextMessage`, `processMessages`: one round of the loop, and the call
* `scanNext`, `scan`: the same on the bytes alone
* `SendBuffer.beginMessage`, `SendBuffer.endMessage`: how messages are framed

## Main results

* `nextMessage_map`: a round does on the buffer what the scan does on the bytes
* `scan_incremental`: scanning in parts
* `scan_spec`: the messages of a scan are complete messages of the stream, one behind the other
* `dispatched_eq`: every way to cut a stream gives the messages of its scan
-/

namespace MotaCoin

open Framing (Next search)
open Wire (leBytes ofLE)

/-! ## CDataStream -/

/-- `CDataStream`: the bytes and the cursor. -/
structure CDataStream where
  vch : List UInt8
  nReadPos : Nat

namespace CDataStream

variable (s : CDataStream)

/-- `size`. -/
def size : Nat := s.vch.length - s.nReadPos

/-- The bytes from `begin()` to `end()`. -/
def data : List UInt8 := s.vch.drop s.nReadPos

/-- `resize` by the length of a chunk and `memcpy` of the chunk, as the socket thread does. -/
def append (chunk : List UInt8) : CDataStream := { s with vch := s.vch ++ chunk }

/-- `read`: the bytes and the stream; it throws at the end of the data. -/
def read (nSize : Nat) : Option (List UInt8 × CDataStream) :=
  let nReadPosNext := s.nReadPos + nSize
  if s.vch.length ≤ nReadPosNext then
    if s.vch.length < nReadPosNext then none
    else some (s.data.take nSize, ⟨[], 0⟩)
  else some (s.data.take nSize, { s with nReadPos := nReadPosNext })

/-- `ignore`. -/
def ignore (nSize : Nat) : Option CDataStream :=
  let nReadPosNext := s.nReadPos + nSize
  if s.vch.length ≤ nReadPosNext then
    if s.vch.length < nReadPosNext then none else some ⟨[], 0⟩
  else some { s with nReadPos := nReadPosNext }

/-- `erase` of the bytes between two places of `vch`. From the front it only moves the cursor. -/
def erase (first last : Nat) : CDataStream :=
  if first = s.nReadPos then
    if last = s.vch.length then ⟨[], 0⟩ else { s with nReadPos := last }
  else { s with vch := s.vch.take first ++ s.vch.drop last }

/-- `insert` of bytes at a place of `vch`. At the front they go into the room before the cursor. -/
def insert (it : Nat) (bytes : List UInt8) : CDataStream :=
  if it = s.nReadPos ∧ bytes.length ≤ s.nReadPos then
    let nReadPos := s.nReadPos - bytes.length
    { vch := s.vch.take nReadPos ++ bytes ++ s.vch.drop s.nReadPos
      nReadPos := nReadPos }
  else { s with vch := s.vch.take it ++ bytes ++ s.vch.drop it }

/-- `Compact`. -/
def compact : CDataStream := ⟨s.vch.drop s.nReadPos, 0⟩

/-- The cursor is in the buffer. -/
def OK : Prop := s.nReadPos ≤ s.vch.length

@[simp] theorem length_data : s.data.length = s.size := List.length_drop

variable {s}

theorem read_spec (h : s.OK) {n : Nat} (hn : n ≤ s.size) :
    ∃ s', s.read n = some (s.data.take n, s') ∧ s'.OK ∧ s'.data = s.data.drop n := by
  unfold OK at h
  unfold size at hn
  unfold read
  simp only
  split
  · next hend =>
    rw [if_neg (by omega)]
    refine ⟨⟨[], 0⟩, rfl, Nat.le_refl 0, ?_⟩
    rw [List.drop_eq_nil_of_le (by rw [length_data, size]; omega)]
    rfl
  · refine ⟨_, rfl, ?_, ?_⟩
    · simp only [OK]
      omega
    · simp only [data, List.drop_drop]

theorem ignore_spec (h : s.OK) {n : Nat} (hn : n ≤ s.size) :
    ∃ s', s.ignore n = some s' ∧ s'.OK ∧ s'.data = s.data.drop n := by
  unfold OK at h
  unfold size at hn
  unfold ignore
  simp only
  split
  · rw [if_neg (by omega)]
    refine ⟨⟨[], 0⟩, rfl, Nat.le_refl 0, ?_⟩
    rw [List.drop_eq_nil_of_le (by rw [length_data, size]; omega)]
    rfl
  · refine ⟨_, rfl, ?_, ?_⟩
    · simp only [OK]
      omega
    · simp only [data, List.drop_drop]

/-- Erasing up to a place at or before the end leaves what is behind it, also when the cursor has
passed the place. -/
theorem erase_spec (s : CDataStream) {last : Nat} (hlast : last < s.vch.length) :
    (s.erase s.nReadPos last).OK ∧ (s.erase s.nReadPos last).data = s.vch.drop last := by
  unfold erase
  rw [if_pos rfl, if_neg (by omega)]
  exact ⟨hlast.le, rfl⟩

/-- Bytes that are inserted at the front come before the others. -/
theorem insert_spec (h : s.OK) (bytes : List UInt8) :
    (s.insert s.nReadPos bytes).OK ∧ (s.insert s.nReadPos bytes).data = bytes ++ s.data := by
  unfold OK at h
  unfold insert
  split
  · constructor
    · simp only [OK, List.length_append, List.length_take, List.length_drop]
      omega
    · simp only [data, List.append_assoc]
      exact List.drop_left' (by rw [List.length_take]; omega)
  · constructor
    · simp only [OK, List.length_append, List.length_take, List.length_drop]
      omega
    · simp only [data, List.append_assoc]
      exact List.drop_left' (by rw [List.length_take]; omega)

end CDataStream

/-! ## Headers -/

/-- `CMessageHeader`. -/
structure CMessageHeader where
  pchMessageStart : List UInt8
  pchCommand : List UInt8
  nMessageSize : Nat
  nChecksum : Nat

/-- `GetSerializeSize` of a header. -/
def nHeaderSize : Nat := 24

namespace CMessageHeader

/-- The header in 24 bytes. -/
def ofBytes (bytes : List UInt8) : CMessageHeader where
  pchMessageStart := bytes.take 4
  pchCommand := (bytes.drop 4).take 12
  nMessageSize := ofLE ((bytes.drop 16).take 4)
  nChecksum := ofLE ((bytes.drop 20).take 4)

/-- `vRecv >> hdr`: field after field. -/
def unserialize (s : CDataStream) : Option (CMessageHeader × CDataStream) := do
  let (pchMessageStart, s₁) ← s.read 4
  let (pchCommand, s₂) ← s₁.read 12
  let (nMessageSize, s₃) ← s₂.read 4
  let (nChecksum, s₄) ← s₃.read 4
  pure (⟨pchMessageStart, pchCommand, ofLE nMessageSize, ofLE nChecksum⟩, s₄)

/-- The test of `IsValid` on the command: printable characters, then zeros. -/
def isValidCommand : List UInt8 → Bool
  | [] => true
  | c :: rest =>
    if c = 0 then rest.all (· == 0) else decide (0x20 ≤ c ∧ c ≤ 0x7E) && isValidCommand rest

/-- `IsValid`. -/
def isValid (hdr : CMessageHeader) : Bool :=
  hdr.pchMessageStart == MotaCoin.pchMessageStart && isValidCommand hdr.pchCommand
    && decide (hdr.nMessageSize ≤ MAX_SIZE)

/-- `GetCommand`: the characters before the first zero, or all of them. -/
def getCommand (hdr : CMessageHeader) : List UInt8 :=
  if hdr.pchCommand[11]? = some 0 then hdr.pchCommand.takeWhile (· != 0) else hdr.pchCommand

theorem unserialize_spec {s : CDataStream} (h : s.OK) (hsize : nHeaderSize ≤ s.size) :
    ∃ s', unserialize s = some (ofBytes (s.data.take nHeaderSize), s') ∧ s'.OK ∧
      s'.data = s.data.drop nHeaderSize := by
  unfold nHeaderSize at hsize
  obtain ⟨s₁, h₁, hok₁, hdata₁⟩ := CDataStream.read_spec h (n := 4) (by omega)
  have hsize₁ : s₁.size = s.size - 4 := by
    rw [← CDataStream.length_data, hdata₁, List.length_drop, CDataStream.length_data]
  obtain ⟨s₂, h₂, hok₂, hdata₂⟩ := CDataStream.read_spec hok₁ (n := 12) (by omega)
  have hsize₂ : s₂.size = s₁.size - 12 := by
    rw [← CDataStream.length_data, hdata₂, List.length_drop, CDataStream.length_data]
  obtain ⟨s₃, h₃, hok₃, hdata₃⟩ := CDataStream.read_spec hok₂ (n := 4) (by omega)
  have hsize₃ : s₃.size = s₂.size - 4 := by
    rw [← CDataStream.length_data, hdata₃, List.length_drop, CDataStream.length_data]
  obtain ⟨s₄, h₄, hok₄, hdata₄⟩ := CDataStream.read_spec hok₃ (n := 4) (by omega)
  refine ⟨s₄, ?_, hok₄, ?_⟩
  · have htake : ∀ m n : Nat, m + n ≤ 24 → ((s.data.take 24).drop m).take n =
        (s.data.drop m).take n := by
      intro m n hmn
      rw [List.drop_take, List.take_take, Nat.min_eq_left (by omega)]
    simp only [unserialize, h₁, h₂, h₃, h₄, Option.bind_eq_bind, Option.bind_some, Option.pure_def,
      ofBytes, nHeaderSize, hdata₃, hdata₂, hdata₁, List.drop_drop, htake 4 12 (by omega),
      htake 16 4 (by omega), htake 20 4 (by omega), List.take_take]
    rfl
  · rw [hdata₄, hdata₃, hdata₂, hdata₁, List.drop_drop, List.drop_drop, List.drop_drop]
    rfl

end CMessageHeader

/-! ## ProcessMessages -/

/-- A message for `ProcessMessage`: `strCommand` and the bytes of `vMsg`. -/
abbrev Message := List UInt8 × List UInt8

/-- The checksum of a payload: the low bytes of its hash. -/
def checksum (hash : List UInt8 → Uint256) (payload : List UInt8) : Nat := hash payload % 2 ^ 32

section Process

variable (hash : List UInt8 → Uint256)

/-- The rest of a round, on a buffer that starts with a message start. -/
def readMessage (vRecv : CDataStream) : Next Message CDataStream :=
  let vHeaderSave := vRecv.data.take nHeaderSize
  match CMessageHeader.unserialize vRecv with
  | none => .stop vRecv
  | some (hdr, vRecv) =>
    if !hdr.isValid then .skip vRecv
    else if MAX_SIZE < hdr.nMessageSize then .skip vRecv
    else if vRecv.size < hdr.nMessageSize then
      -- rewind and wait for the rest of the message
      .stop (vRecv.insert vRecv.nReadPos vHeaderSave)
    else
      let vMsg := vRecv.data.take hdr.nMessageSize
      if checksum hash vMsg ≠ hdr.nChecksum then .skip vRecv
      else
        match vRecv.ignore hdr.nMessageSize with
        | none => .stop vRecv
        | some vRecv => .emit (hdr.getCommand, vMsg) vRecv

/-- One round of the loop of `ProcessMessages`. `sendFull` is the test of the send buffer, which may
come out in another way in every round. -/
def nextMessage (sendFull : CDataStream → Bool) (vRecv : CDataStream) : Next Message CDataStream :=
  if sendFull vRecv then .stop vRecv
  else
    let pstart := vRecv.nReadPos + search pchMessageStart vRecv.data
    if vRecv.vch.length - pstart < nHeaderSize then
      if nHeaderSize < vRecv.size then
        -- four bytes are read for the log, which moves the cursor
        match vRecv.read 4 with
        | none => .stop vRecv
        | some (_, vRecv) => .stop (vRecv.erase vRecv.nReadPos (vRecv.vch.length - nHeaderSize))
      else .stop vRecv
    else readMessage hash (vRecv.erase vRecv.nReadPos pstart)

/-! ## The scan -/

/-- What is behind a header: skip it, wait for the rest, or take the message. -/
def scanPayload (start : List UInt8) : Next Message (List UInt8) :=
  let hdr := CMessageHeader.ofBytes (start.take nHeaderSize)
  let rest := start.drop nHeaderSize
  if !hdr.isValid then .skip rest
  else if rest.length < hdr.nMessageSize then .stop start
  else
    let payload := rest.take hdr.nMessageSize
    if checksum hash payload ≠ hdr.nChecksum then .skip rest
    else .emit (hdr.getCommand, payload) (rest.drop hdr.nMessageSize)

/-- **One step of the scan of a stream**: go to the first message start and look at its header. Where
there is no header to look at, the last bytes are kept. -/
def scanNext (bytes : List UInt8) : Next Message (List UInt8) :=
  let start := bytes.drop (search pchMessageStart bytes)
  if start.length < nHeaderSize then .stop (bytes.drop (bytes.length - nHeaderSize))
  else scanPayload hash start

theorem scanPayload_goes (start : List UInt8) (h : nHeaderSize ≤ start.length) :
    (scanPayload hash start).Goes fun rest => rest.length < start.length := by
  unfold scanPayload nHeaderSize at *
  simp only
  repeat' split
  all_goals simp only [Next.Goes, List.length_drop]
  all_goals omega

theorem scanNext_goes (bytes : List UInt8) :
    (scanNext hash bytes).Goes fun rest => rest.length < bytes.length := by
  unfold scanNext
  simp only
  split
  · trivial
  · next hlen =>
    have hgoes := scanPayload_goes hash _ (Nat.le_of_not_lt hlen)
    have hle : (bytes.drop (search pchMessageStart bytes)).length ≤ bytes.length := by
      rw [List.length_drop]
      omega
    revert hgoes
    rcases scanPayload hash _ with rest | rest | ⟨m, rest⟩
    · exact id
    · exact fun hlt => Nat.lt_of_lt_of_le hlt hle
    · exact fun hlt => Nat.lt_of_lt_of_le hlt hle

/-- **The scan of a stream**: its messages, and the bytes that are kept. -/
def scan (bytes : List UInt8) : List Message × List UInt8 :=
  Framing.run List.length (scanNext hash) (scanNext_goes hash) bytes

/-! ## The loop does what the scan does -/

theorem readMessage_spec {s : CDataStream} (h : s.OK) (hsize : nHeaderSize ≤ s.size) :
    (readMessage hash s).All CDataStream.OK ∧
      (readMessage hash s).map CDataStream.data = scanPayload hash s.data := by
  obtain ⟨s', hread, hok, hdata⟩ := CMessageHeader.unserialize_spec h hsize
  simp only [readMessage, hread, scanPayload]
  generalize CMessageHeader.ofBytes (s.data.take nHeaderSize) = hdr
  rw [← hdata, CDataStream.length_data]
  by_cases hvalid : hdr.isValid = true
  · have hmax : hdr.nMessageSize ≤ MAX_SIZE := by
      simp only [CMessageHeader.isValid, Bool.and_eq_true, decide_eq_true_eq] at hvalid
      exact hvalid.2
    simp only [hvalid, Bool.not_true, Bool.false_eq_true, if_false, if_neg (Nat.not_lt.mpr hmax)]
    by_cases hlong : s'.size < hdr.nMessageSize
    · -- not complete: the header goes back to the front
      obtain ⟨hok', hdata'⟩ := CDataStream.insert_spec hok (s.data.take nHeaderSize)
      rw [if_pos hlong, if_pos hlong]
      refine ⟨hok', ?_⟩
      rw [Next.map, hdata', hdata, List.take_append_drop]
    · obtain ⟨s'', hignore, hok'', hdata''⟩ :=
        CDataStream.ignore_spec hok (Nat.le_of_not_lt hlong)
      rw [if_neg hlong, if_neg hlong, hignore]
      split
      · exact ⟨hok, rfl⟩
      · refine ⟨hok'', ?_⟩
        rw [Next.map, hdata'']
  · rw [Bool.not_eq_true] at hvalid
    simp only [hvalid, Bool.not_false, if_true]
    exact ⟨hok, rfl⟩

/-- **A round of the loop does on the buffer what a step of the scan does on its bytes**, and keeps
the cursor in the buffer. -/
theorem nextMessage_spec {sendFull : CDataStream → Bool} {s : CDataStream} (h : s.OK)
    (hfull : sendFull s = false) :
    (nextMessage hash sendFull s).All CDataStream.OK ∧
      (nextMessage hash sendFull s).map CDataStream.data = scanNext hash s.data := by
  have hok := h
  unfold CDataStream.OK at hok
  have hsearch : search pchMessageStart s.data ≤ s.size := by
    rw [← CDataStream.length_data]
    exact Framing.search_le _ _
  have hrest : s.vch.length - (s.nReadPos + search pchMessageStart s.data) =
      (s.data.drop (search pchMessageStart s.data)).length := by
    rw [List.length_drop, CDataStream.length_data, CDataStream.size]
    omega
  unfold nextMessage scanNext
  simp only [hfull, Bool.false_eq_true, if_false, hrest, CDataStream.length_data]
  split
  · split
    · next hsize =>
      -- the four bytes do not matter: the cursor is set anew
      unfold CDataStream.size nHeaderSize at hsize
      have hread : s.read 4 = some (s.data.take 4, { s with nReadPos := s.nReadPos + 4 }) := by
        unfold CDataStream.read
        simp only
        rw [if_neg (by omega)]
      have hlast : s.vch.length - nHeaderSize < s.vch.length := by
        unfold nHeaderSize
        omega
      obtain ⟨hok', hdata⟩ :=
        CDataStream.erase_spec { s with nReadPos := s.nReadPos + 4 } hlast
      simp only [hread]
      refine ⟨hok', ?_⟩
      rw [Next.map, hdata]
      simp only [CDataStream.data, List.drop_drop, CDataStream.size, nHeaderSize]
      congr 2
      omega
    · next hsize =>
      refine ⟨h, ?_⟩
      rw [Nat.sub_eq_zero_of_le (Nat.le_of_not_lt hsize)]
      rfl
  · next hlen =>
    unfold nHeaderSize at hlen
    rw [List.length_drop, CDataStream.length_data, CDataStream.size] at hlen
    have hlast : s.nReadPos + search pchMessageStart s.data < s.vch.length := by omega
    obtain ⟨hok', hdata⟩ := CDataStream.erase_spec s hlast
    have hdrop : s.vch.drop (s.nReadPos + search pchMessageStart s.data) =
        s.data.drop (search pchMessageStart s.data) := by
      rw [CDataStream.data, List.drop_drop]
    rw [hdrop] at hdata
    have hspec := readMessage_spec hash hok' (by
      rw [← CDataStream.length_data, hdata, List.length_drop, CDataStream.length_data,
        CDataStream.size, nHeaderSize]
      omega)
    rw [hdata] at hspec
    exact hspec

/-- Every round but the last makes the buffer smaller. -/
theorem nextMessage_goes (sendFull : CDataStream → Bool) (s : CDataStream) :
    (nextMessage hash sendFull s).Goes fun s' => s'.size < s.size := by
  by_cases hfull : sendFull s = true
  · rw [nextMessage, if_pos hfull]
    trivial
  · by_cases hok : s.OK
    · obtain ⟨-, hmap⟩ := nextMessage_spec hash hok (Bool.eq_false_iff.mpr hfull)
      have hgoes := scanNext_goes hash s.data
      rw [← hmap] at hgoes
      simp only [← CDataStream.length_data]
      revert hgoes
      rcases nextMessage hash sendFull s with s' | s' | ⟨m, s'⟩ <;> exact id
    · -- a cursor past the end: there is nothing to read
      unfold CDataStream.OK at hok
      rw [nextMessage, if_neg hfull]
      simp only
      rw [if_pos (by unfold nHeaderSize; omega), if_neg (by unfold CDataStream.size; omega)]
      trivial

/-- **`ProcessMessages`**: the messages handed to `ProcessMessage`, and the buffer. -/
def processMessages (sendFull : CDataStream → Bool) (vRecv : CDataStream) :
    List Message × CDataStream :=
  if vRecv.size = 0 then ([], vRecv)
  else
    let r := Framing.run CDataStream.size (nextMessage hash sendFull)
      (nextMessage_goes hash sendFull) vRecv
    (r.1, r.2.compact)

/-- A chunk comes in, and `ProcessMessages` is called; the messages up to then are in front. -/
def receive (sendFull : CDataStream → Bool) (st : List Message × CDataStream)
    (chunk : List UInt8) : List Message × CDataStream :=
  let r := processMessages hash sendFull (st.2.append chunk)
  (st.1 ++ r.1, r.2)

/-- The messages handed to `ProcessMessage` while the chunks come in, with a send buffer that is
never full. -/
def dispatched (chunks : List (List UInt8)) : List Message :=
  (chunks.foldl (receive hash fun _ => false) ([], ⟨[], 0⟩)).1

theorem scan_of_lt {bytes : List UInt8} (h : bytes.length < nHeaderSize) :
    scan hash bytes = ([], bytes) := by
  have hnext : scanNext hash bytes = .stop bytes := by
    unfold scanNext
    simp only
    rw [if_pos (by rw [List.length_drop]; omega), Nat.sub_eq_zero_of_le h.le]
    rfl
  exact Framing.run_of_stop hnext

/-- **A call of `ProcessMessages` scans what the buffer holds.** -/
theorem processMessages_spec {s : CDataStream} (h : s.OK) :
    scan hash s.data = ((processMessages hash (fun _ => false) s).1,
        (processMessages hash (fun _ => false) s).2.data) ∧
      (processMessages hash (fun _ => false) s).2.OK := by
  unfold processMessages
  split
  · next hempty =>
    have hnil : s.data = [] := List.length_eq_zero_iff.mp (by rw [CDataStream.length_data, hempty])
    rw [hnil]
    exact ⟨scan_of_lt hash (by decide), h⟩
  · refine ⟨?_, Nat.zero_le _⟩
    exact (Framing.run_map (fun s hs => (nextMessage_spec hash hs rfl).1)
      (fun s hs => (nextMessage_spec hash hs rfl).2) h).1

theorem foldl_receive (chunks : List (List UInt8)) (st : List Message × CDataStream)
    (h : st.2.OK) :
    chunks.foldl (Framing.feed (scan hash)) (st.1, st.2.data) =
      ((chunks.foldl (receive hash fun _ => false) st).1,
        (chunks.foldl (receive hash fun _ => false) st).2.data) := by
  induction chunks generalizing st with
  | nil => rfl
  | cons chunk chunks ih =>
    have hok : (st.2.append chunk).OK := by
      simp only [CDataStream.OK, CDataStream.append, List.length_append] at h ⊢
      omega
    have hdata : (st.2.append chunk).data = st.2.data ++ chunk := List.drop_append_of_le_length h
    obtain ⟨hscan, hok'⟩ := processMessages_spec hash hok
    rw [hdata] at hscan
    have hreceive : (receive hash (fun _ => false) st chunk).2.OK := hok'
    rw [List.foldl_cons, List.foldl_cons, ← ih _ hreceive, Framing.feed, hscan]
    rfl

/-! ## Scanning in parts -/

/-- Leaving out bytes in front of the first message start changes nothing, as long as the bytes that
are kept are there. -/
theorem scanNext_drop {bytes : List UInt8} {k : Nat} (hk : k ≤ search pchMessageStart bytes)
    (hkeep : k ≤ bytes.length - nHeaderSize) :
    scanNext hash (bytes.drop k) = scanNext hash bytes := by
  have hsearch := Framing.search_drop hk
  have hstart : (bytes.drop k).drop (search pchMessageStart (bytes.drop k)) =
      bytes.drop (search pchMessageStart bytes) := by
    rw [List.drop_drop, ← hsearch, Nat.add_comm]
  have htrim : (bytes.drop k).drop ((bytes.drop k).length - nHeaderSize) =
      bytes.drop (bytes.length - nHeaderSize) := by
    rw [List.drop_drop, List.length_drop]
    congr 1
    omega
  unfold scanNext
  simp only [hstart, htrim]

/-- What a header leads to does not change when more bytes come in, unless the message was not
complete. -/
theorem scanPayload_append {start : List UInt8} (h : nHeaderSize ≤ start.length) (y : List UInt8) :
    scanPayload hash start = .stop start ∨
      (∃ rest, scanPayload hash start = .skip rest ∧
        scanPayload hash (start ++ y) = .skip (rest ++ y)) ∨
      ∃ m rest, scanPayload hash start = .emit m rest ∧
        scanPayload hash (start ++ y) = .emit m (rest ++ y) := by
  unfold scanPayload
  simp only [List.take_append_of_le_length h, List.drop_append_of_le_length h]
  generalize CMessageHeader.ofBytes (start.take nHeaderSize) = hdr
  generalize start.drop nHeaderSize = rest
  by_cases hvalid : hdr.isValid = true
  · by_cases hlong : rest.length < hdr.nMessageSize
    · simp [hvalid, hlong]
    · have hlong' : ¬ (rest ++ y).length < hdr.nMessageSize := by
        rw [List.length_append]
        omega
      rw [List.take_append_of_le_length (Nat.le_of_not_lt hlong),
        List.drop_append_of_le_length (Nat.le_of_not_lt hlong)]
      simp only [hvalid, Bool.not_true, Bool.false_eq_true, if_false, if_neg hlong, if_neg hlong']
      by_cases hsum : checksum hash (rest.take hdr.nMessageSize) = hdr.nChecksum
      · simp [hsum]
      · simp [hsum]
  · simp [hvalid]

/-- **The scan can be done in parts.** -/
theorem scan_incremental : Framing.Incremental (scan hash) := by
  intro x y
  induction hn : x.length using Nat.strongRecOn generalizing x with
  | _ n ih =>
    by_cases hshort : (x.drop (search pchMessageStart x)).length < nHeaderSize
    · -- no header: the bytes that are kept hold whatever start is completed by `y`
      have hx : scan hash x = ([], x.drop (x.length - nHeaderSize)) := by
        refine Framing.run_of_stop ?_
        unfold scanNext
        simp only [if_pos hshort]
      have hk : x.length - nHeaderSize ≤ search pchMessageStart (x ++ y) := by
        rw [List.length_drop] at hshort
        rcases Nat.lt_or_ge (search pchMessageStart x) x.length with hlt | hge
        · rw [Framing.search_append hlt]
          omega
        · have hlast := Framing.length_lt_search_append (by decide : pchMessageStart ≠ [])
            (Nat.le_antisymm (Framing.search_le _ _) hge) y
          have hfour : pchMessageStart.length = 4 := rfl
          unfold nHeaderSize
          omega
      have hsame := scanNext_drop hash hk (by rw [List.length_append]; omega)
      rw [List.drop_append_of_le_length (Nat.sub_le _ _)] at hsame
      rw [hx, List.nil_append]
      exact Framing.run_congr hsame.symm
    · have hlt : search pchMessageStart x < x.length := by
        rw [List.length_drop] at hshort
        unfold nHeaderSize at hshort
        omega
      have hpre := Framing.prefix_drop_search hlt
      have hle := Nat.le_of_not_lt hshort
      have hstart : (x ++ y).drop (search pchMessageStart (x ++ y)) =
          x.drop (search pchMessageStart x) ++ y := by
        rw [Framing.search_append hlt, List.drop_append_of_le_length hlt.le]
      have hlong : ¬ ((x.drop (search pchMessageStart x) ++ y).length < nHeaderSize) := by
        rw [List.length_append]
        omega
      have hx : scanNext hash x = scanPayload hash (x.drop (search pchMessageStart x)) := by
        unfold scanNext
        simp only [if_neg hshort]
      have hxy : scanNext hash (x ++ y) =
          scanPayload hash (x.drop (search pchMessageStart x) ++ y) := by
        unfold scanNext
        simp only [hstart, if_neg hlong]
      have hlen : (x.drop (search pchMessageStart x)).length ≤ x.length := by
        rw [List.length_drop]
        omega
      have hgoes := scanNext_goes hash x
      rcases scanPayload_append hash hle y with hstop | ⟨rest, hskip, hskip'⟩ |
        ⟨m, rest, hemit, hemit'⟩
      · -- the message is not complete yet: the bytes from its start on are kept
        have hscan : scan hash x = ([], x.drop (search pchMessageStart x)) :=
          Framing.run_of_stop (hx.trans hstop)
        rw [hscan, List.nil_append]
        refine Framing.run_congr (hxy.trans ?_)
        unfold scanNext
        simp only [Framing.search_of_isPrefix (hpre.trans (List.prefix_append _ y)), List.drop_zero,
          if_neg hlong]
      · rw [hx, hskip] at hgoes
        have hscan : scan hash x = scan hash rest := Framing.run_of_skip (hx.trans hskip)
        have hscan' : scan hash (x ++ y) = scan hash (rest ++ y) :=
          Framing.run_of_skip (hxy.trans hskip')
        rw [hscan, hscan']
        exact ih rest.length (hn ▸ hgoes) rest rfl
      · rw [hx, hemit] at hgoes
        have hscan : scan hash x = (m :: (scan hash rest).1, (scan hash rest).2) :=
          Framing.run_of_emit (hx.trans hemit)
        have hscan' : scan hash (x ++ y) = (m :: (scan hash (rest ++ y)).1,
            (scan hash (rest ++ y)).2) := Framing.run_of_emit (hxy.trans hemit')
        rw [hscan, hscan', ih rest.length (hn ▸ hgoes) rest rfl]
        rfl

/-- **Every way to cut a stream into chunks gives the messages of its scan.** -/
theorem dispatched_eq_scan (chunks : List (List UInt8)) :
    dispatched hash chunks = (scan hash chunks.flatten).1 := by
  have hfold := foldl_receive hash chunks ([], ⟨[], 0⟩) (Nat.le_refl 0)
  have hstart : ([], (⟨[], 0⟩ : CDataStream).data) = scan hash [] :=
    (scan_of_lt hash (by decide)).symm
  rw [hstart, (scan_incremental hash).foldl_feed, List.nil_append] at hfold
  rw [dispatched, hfold]

/-! ## What is dispatched stands in the stream -/

/-- The bytes are a complete message: a valid header, and a payload of its size with its
checksum. -/
structure IsMessage (header payload : List UInt8) : Prop where
  length_header : header.length = nHeaderSize
  valid : (CMessageHeader.ofBytes header).isValid = true
  size : (CMessageHeader.ofBytes header).nMessageSize = payload.length
  sum : checksum hash payload = (CMessageHeader.ofBytes header).nChecksum

/-- The stream carries these messages: complete messages one behind the other, with other bytes
between them. -/
inductive Carries : List UInt8 → List Message → Prop
  | nil (bytes : List UInt8) : Carries bytes []
  | skip (gap : List UInt8) {rest : List UInt8} {ms : List Message} (h : Carries rest ms) :
    Carries (gap ++ rest) ms
  | message {header payload rest : List UInt8} {ms : List Message}
    (hm : IsMessage hash header payload) (h : Carries rest ms) :
    Carries (header ++ payload ++ rest)
      (((CMessageHeader.ofBytes header).getCommand, payload) :: ms)

theorem scanPayload_carries {start : List UInt8} (h : nHeaderSize ≤ start.length) :
    match scanPayload hash start with
    | .stop _ => True
    | .skip rest => ∃ gap, start = gap ++ rest
    | .emit m rest => ∃ header payload, IsMessage hash header payload ∧
        m = ((CMessageHeader.ofBytes header).getCommand, payload) ∧
        start = header ++ payload ++ rest := by
  have hsplit := (List.take_append_drop nHeaderSize start).symm
  have hlen : (start.take nHeaderSize).length = nHeaderSize := List.length_take_of_le h
  unfold scanPayload
  simp only
  generalize start.take nHeaderSize = header at hsplit hlen ⊢
  generalize start.drop nHeaderSize = rest at hsplit ⊢
  by_cases hvalid : (CMessageHeader.ofBytes header).isValid = true
  · simp only [hvalid, Bool.not_true, Bool.false_eq_true, if_false]
    by_cases hlong : rest.length < (CMessageHeader.ofBytes header).nMessageSize
    · rw [if_pos hlong]
      trivial
    · rw [if_neg hlong]
      by_cases hsum : checksum hash (rest.take (CMessageHeader.ofBytes header).nMessageSize) =
          (CMessageHeader.ofBytes header).nChecksum
      · simp only [hsum, ne_eq, not_true_eq_false, if_false]
        refine ⟨header, _, ⟨hlen, hvalid, ?_, hsum⟩, rfl, ?_⟩
        · exact (List.length_take_of_le (Nat.le_of_not_lt hlong)).symm
        · rw [List.append_assoc, List.take_append_drop]
          exact hsplit
      · simp only [ne_eq, hsum, not_false_eq_true, if_true]
        exact ⟨header, hsplit⟩
  · simp only [hvalid, Bool.not_false, if_true]
    exact ⟨header, hsplit⟩

/-- **The messages of a scan are complete messages of the stream, one behind the other.** -/
theorem scan_carries (bytes : List UInt8) : Carries hash bytes (scan hash bytes).1 := by
  induction hn : bytes.length using Nat.strongRecOn generalizing bytes with
  | _ n ih =>
    have hgoes := scanNext_goes hash bytes
    by_cases hshort : (bytes.drop (search pchMessageStart bytes)).length < nHeaderSize
    · have hstop : scan hash bytes = ([], bytes.drop (bytes.length - nHeaderSize)) := by
        refine Framing.run_of_stop ?_
        unfold scanNext
        simp only [if_pos hshort]
      rw [hstop]
      exact .nil bytes
    · have hnext : scanNext hash bytes =
          scanPayload hash (bytes.drop (search pchMessageStart bytes)) := by
        unfold scanNext
        simp only [if_neg hshort]
      have hpart := scanPayload_carries hash (Nat.le_of_not_lt hshort)
      have hfront := (List.take_append_drop (search pchMessageStart bytes) bytes).symm
      rw [hnext] at hgoes
      rcases hp : scanPayload hash (bytes.drop (search pchMessageStart bytes)) with
        rest | rest | ⟨m, rest⟩
      · have hscan : scan hash bytes = ([], rest) := Framing.run_of_stop (hnext.trans hp)
        rw [hscan]
        exact .nil bytes
      · rw [hp] at hgoes hpart
        have hscan : scan hash bytes = scan hash rest := Framing.run_of_skip (hnext.trans hp)
        obtain ⟨gap, hgap⟩ := hpart
        rw [hscan, hfront, hgap]
        exact .skip _ (.skip gap (ih rest.length (hn ▸ hgoes) rest rfl))
      · rw [hp] at hgoes hpart
        have hscan : scan hash bytes = (m :: (scan hash rest).1, (scan hash rest).2) :=
          Framing.run_of_emit (hnext.trans hp)
        obtain ⟨header, payload, hm, rfl, hstart⟩ := hpart
        rw [hscan, hfront, hstart]
        exact .skip _ (.message hm (ih rest.length (hn ▸ hgoes) rest rfl))

end Process

/-! ## Sending -/

namespace CMessageHeader

/-- The bytes of a header. -/
def serialize (hdr : CMessageHeader) : List UInt8 :=
  hdr.pchMessageStart ++ (hdr.pchCommand ++ (leBytes 4 hdr.nMessageSize ++ leBytes 4 hdr.nChecksum))

/-- `strncpy` of a command into its field. -/
def commandField (pszCommand : List UInt8) : List UInt8 :=
  pszCommand.take 12 ++ List.replicate (12 - pszCommand.length) 0

/-- The constructor from a command and a size. -/
def ofCommand (pszCommand : List UInt8) (nMessageSize : Nat) : CMessageHeader :=
  ⟨MotaCoin.pchMessageStart, commandField pszCommand, nMessageSize, 0⟩

theorem length_commandField (pszCommand : List UInt8) : (commandField pszCommand).length = 12 := by
  rw [commandField, List.length_append, List.length_take, List.length_replicate]
  omega

theorem length_serialize {hdr : CMessageHeader} (hstart : hdr.pchMessageStart.length = 4)
    (hcommand : hdr.pchCommand.length = 12) : hdr.serialize.length = nHeaderSize := by
  simp [serialize, hstart, hcommand, nHeaderSize]

theorem ofBytes_serialize {hdr : CMessageHeader} (hstart : hdr.pchMessageStart.length = 4)
    (hcommand : hdr.pchCommand.length = 12) (hsize : hdr.nMessageSize < 2 ^ 32)
    (hsum : hdr.nChecksum < 2 ^ 32) : ofBytes hdr.serialize = hdr := by
  obtain ⟨start, command, size, sum⟩ := hdr
  simp only [show (2 : Nat) ^ 32 = 256 ^ 4 by decide] at hstart hcommand hsize hsum
  have h₄ : (serialize ⟨start, command, size, sum⟩).drop 4 =
      command ++ (leBytes 4 size ++ leBytes 4 sum) := List.drop_left' hstart
  have h₁₆ : (serialize ⟨start, command, size, sum⟩).drop 16 = leBytes 4 size ++ leBytes 4 sum := by
    rw [show (16 : Nat) = 4 + 12 from rfl, ← List.drop_drop, h₄]
    exact List.drop_left' hcommand
  have h₂₀ : (serialize ⟨start, command, size, sum⟩).drop 20 = leBytes 4 sum := by
    rw [show (20 : Nat) = 16 + 4 from rfl, ← List.drop_drop, h₁₆]
    exact List.drop_left' (Wire.length_leBytes 4 size)
  simp only [ofBytes, h₄, h₁₆, h₂₀]
  rw [List.take_left' hcommand, List.take_left' (Wire.length_leBytes 4 size),
    List.take_of_length_le (Wire.length_leBytes 4 sum).le, Wire.ofLE_leBytes, Wire.ofLE_leBytes,
    Nat.mod_eq_of_lt hsize, Nat.mod_eq_of_lt hsum, serialize, List.take_left' hstart]

end CMessageHeader

/-- `memcpy` to a place of a buffer. -/
def overwrite (pos : Nat) (bytes buffer : List UInt8) : List UInt8 :=
  buffer.take pos ++ bytes ++ buffer.drop (pos + bytes.length)

theorem overwrite_eq {a old new b : List UInt8} {pos : Nat} (hpos : a.length = pos)
    (hlen : new.length = old.length) :
    overwrite pos new (a ++ (old ++ b)) = a ++ (new ++ b) := by
  rw [overwrite, List.take_left' hpos, hlen, ← List.drop_drop, List.drop_left' hpos,
    List.drop_left, List.append_assoc]

/-- The send buffer of a peer: `vSend`, and where the header and the payload of the message that is
written start; `none` is `-1`. -/
structure SendBuffer where
  vSend : List UInt8
  nHeaderStart : Option Nat
  nMessageStart : Option Nat

namespace SendBuffer

variable (hash : List UInt8 → Uint256) (s : SendBuffer)

/-- `AbortMessage`. -/
def abortMessage : SendBuffer :=
  match s.nHeaderStart with
  | none => s
  | some nHeaderStart => ⟨s.vSend.take nHeaderStart, none, none⟩

/-- `BeginMessage`. -/
def beginMessage (pszCommand : List UInt8) : SendBuffer :=
  let s := s.abortMessage
  let vSend := s.vSend ++ (CMessageHeader.ofCommand pszCommand 0).serialize
  ⟨vSend, some s.vSend.length, some vSend.length⟩

/-- `vSend <<` of the serialized payload. -/
def write (bytes : List UInt8) : SendBuffer := { s with vSend := s.vSend ++ bytes }

/-- `EndMessage`: the size and the checksum are written into the header. -/
def endMessage : SendBuffer :=
  match s.nHeaderStart, s.nMessageStart with
  | some nHeaderStart, some nMessageStart =>
    let nSize := s.vSend.length - nMessageStart
    let vSend := overwrite (nHeaderStart + 16) (leBytes 4 nSize) s.vSend
    let nChecksum := checksum hash (vSend.drop nMessageStart)
    ⟨overwrite (nHeaderStart + 20) (leBytes 4 nChecksum) vSend, none, none⟩
  | _, _ => s

/-- `PushMessage`: begin, write, end. -/
def pushMessage (m : Message) : SendBuffer :=
  ((s.beginMessage m.1).write m.2).endMessage hash

end SendBuffer

section Frame

variable (hash : List UInt8 → Uint256)

/-- A message with its header in front. -/
def frame (m : Message) : List UInt8 :=
  CMessageHeader.serialize ⟨pchMessageStart, CMessageHeader.commandField m.1, m.2.length,
    checksum hash m.2⟩ ++ m.2

/-- **`BeginMessage` and `EndMessage` put a message with its header behind what is to be sent.** -/
theorem SendBuffer.pushMessage_eq {s : SendBuffer} (h : s.nHeaderStart = none) (m : Message) :
    s.pushMessage hash m = ⟨s.vSend ++ frame hash m, none, none⟩ := by
  have habort : s.abortMessage = s := by rw [abortMessage, h]
  obtain ⟨command, payload⟩ := m
  simp only [pushMessage, beginMessage, habort, write, endMessage]
  have hlen : (CMessageHeader.ofCommand command 0).serialize.length = nHeaderSize :=
    CMessageHeader.length_serialize rfl (CMessageHeader.length_commandField command)
  generalize hfield : CMessageHeader.commandField command = field
  have hcommand : field.length = 12 := hfield ▸ CMessageHeader.length_commandField command
  have hstart : pchMessageStart.length = 4 := rfl
  -- the two fields of the header are written one after the other
  have hbuffer : s.vSend ++ (CMessageHeader.ofCommand command 0).serialize ++ payload =
      (s.vSend ++ pchMessageStart ++ field) ++ (leBytes 4 0 ++ (leBytes 4 0 ++ payload)) := by
    simp only [CMessageHeader.ofCommand, CMessageHeader.serialize, hfield, List.append_assoc]
  have hsize : (s.vSend ++ (CMessageHeader.ofCommand command 0).serialize ++ payload).length -
      (s.vSend ++ (CMessageHeader.ofCommand command 0).serialize).length = payload.length := by
    rw [List.length_append]
    omega
  have hpos : (s.vSend ++ pchMessageStart ++ field).length = s.vSend.length + 16 := by
    simp only [List.length_append, hstart, hcommand]
  have hpos' : (s.vSend ++ pchMessageStart ++ field ++ leBytes 4 payload.length).length =
      s.vSend.length + 20 := by
    simp only [List.length_append, hstart, hcommand, Wire.length_leBytes]
  have hfirst : overwrite (s.vSend.length + 16) (leBytes 4 payload.length)
        (s.vSend ++ (CMessageHeader.ofCommand command 0).serialize ++ payload) =
      (s.vSend ++ pchMessageStart ++ field ++ leBytes 4 payload.length) ++
        (leBytes 4 0 ++ payload) := by
    rw [hbuffer, overwrite_eq hpos (by simp)]
    simp only [List.append_assoc]
  have hpayload : (overwrite (s.vSend.length + 16) (leBytes 4 payload.length)
        (s.vSend ++ (CMessageHeader.ofCommand command 0).serialize ++ payload)).drop
      (s.vSend ++ (CMessageHeader.ofCommand command 0).serialize).length = payload := by
    rw [hfirst, ← List.append_assoc, List.drop_left']
    rw [List.length_append, hpos', List.length_append, hlen, Wire.length_leBytes, nHeaderSize]
  rw [hsize, hpayload, hfirst, overwrite_eq hpos' (by simp)]
  simp only [frame, CMessageHeader.serialize, hfield, List.append_assoc]

/-- A message that can be sent: the command is a string of at most twelve printable characters, and
the payload is not larger than `MAX_SIZE`. -/
structure Sendable (m : Message) : Prop where
  command_length : m.1.length ≤ 12
  command_printable : ∀ c ∈ m.1, 0x20 ≤ c ∧ c ≤ 0x7E
  payload_length : m.2.length ≤ MAX_SIZE

theorem isValidCommand_append {command : List UInt8}
    (h : ∀ c ∈ command, 0x20 ≤ c ∧ c ≤ 0x7E) (n : Nat) :
    CMessageHeader.isValidCommand (command ++ List.replicate n 0) = true := by
  induction command with
  | nil =>
    cases n with
    | zero => rfl
    | succ n => simp [List.replicate_succ, CMessageHeader.isValidCommand]
  | cons c command ih =>
    rw [List.forall_mem_cons] at h
    have hne : c ≠ 0 := by
      rintro rfl
      exact absurd h.1.1 (by decide)
    rw [List.cons_append, CMessageHeader.isValidCommand, if_neg hne, ih h.2, Bool.and_true]
    exact decide_eq_true h.1

theorem getCommand_commandField {hdr : CMessageHeader} {command : List UInt8}
    (hlen : command.length ≤ 12) (h : ∀ c ∈ command, 0x20 ≤ c ∧ c ≤ 0x7E)
    (hfield : hdr.pchCommand = CMessageHeader.commandField command) : hdr.getCommand = command := by
  have hne : ∀ c ∈ command, (c != 0) = true := by
    intro c hc
    rw [bne_iff_ne]
    rintro rfl
    exact absurd (h 0 hc).1 (by decide)
  rw [CMessageHeader.commandField, List.take_of_length_le hlen] at hfield
  rw [CMessageHeader.getCommand, hfield]
  rcases Nat.lt_or_ge command.length 12 with hlt | hge
  · -- zeros follow the command
    have hlast : (command ++ List.replicate (12 - command.length) 0)[11]? = some 0 := by
      rw [List.getElem?_append_right (by omega), List.getElem?_replicate, if_pos (by omega)]
    rw [if_pos hlast, List.takeWhile_append_of_pos hne]
    simp
  · -- the field is full, and its last character is not zero
    have hfull : 12 - command.length = 0 := by omega
    rw [hfull, List.replicate_zero, List.append_nil, if_neg]
    intro hlast
    exact Bool.false_ne_true ((by decide : ((0 : UInt8) != 0) = false).symm.trans
      (hne 0 (List.mem_of_getElem? hlast)))

/-- A scan takes a message from the front. -/
theorem scan_frame_append {m : Message} (hm : Sendable m) (rest : List UInt8) :
    scan hash (frame hash m ++ rest) = (m :: (scan hash rest).1, (scan hash rest).2) := by
  obtain ⟨command, payload⟩ := m
  have hsize : payload.length < 2 ^ 32 := Nat.lt_of_le_of_lt hm.payload_length (by decide)
  have hsum : checksum hash payload < 2 ^ 32 := Nat.mod_lt _ (by decide)
  let hdr : CMessageHeader := ⟨pchMessageStart, CMessageHeader.commandField command,
    payload.length, checksum hash payload⟩
  have hfield : hdr.pchCommand.length = 12 := CMessageHeader.length_commandField command
  have hlen : hdr.serialize.length = nHeaderSize := CMessageHeader.length_serialize rfl hfield
  have hparse : CMessageHeader.ofBytes hdr.serialize = hdr :=
    CMessageHeader.ofBytes_serialize rfl hfield hsize hsum
  have hvalid : hdr.isValid = true := by
    have hcommand : CMessageHeader.isValidCommand hdr.pchCommand = true := by
      simp only [hdr, CMessageHeader.commandField,
        List.take_of_length_le (show command.length ≤ 12 from hm.command_length)]
      exact isValidCommand_append hm.command_printable _
    simp only [CMessageHeader.isValid, hcommand, Bool.and_true, Bool.and_eq_true, beq_iff_eq,
      decide_eq_true_eq]
    exact ⟨rfl, hm.payload_length⟩
  have hcommand : hdr.getCommand = command :=
    getCommand_commandField hm.command_length hm.command_printable rfl
  -- the message start is at the front
  have hbytes : frame hash (command, payload) ++ rest = hdr.serialize ++ (payload ++ rest) :=
    List.append_assoc _ _ _
  have hpre : pchMessageStart <+: hdr.serialize ++ (payload ++ rest) :=
    (List.prefix_append _ _).trans (List.prefix_append _ _)
  have hlong : ¬ (hdr.serialize ++ (payload ++ rest)).length < nHeaderSize := by
    rw [List.length_append]
    omega
  have hnext : scanNext hash (hdr.serialize ++ (payload ++ rest)) =
      .emit (command, payload) rest := by
    unfold scanNext
    simp only [Framing.search_of_isPrefix hpre, List.drop_zero, if_neg hlong, scanPayload,
      List.take_left' hlen, List.drop_left' hlen, hparse, hvalid, Bool.not_true, Bool.false_eq_true,
      if_false]
    have hsame : hdr.nMessageSize = payload.length := rfl
    rw [hsame, if_neg (by rw [List.length_append]; omega), List.take_left, List.drop_left, if_neg]
    · rw [hcommand]
    · exact fun hne => hne rfl
  rw [hbytes]
  exact Framing.run_of_emit hnext

theorem scan_flatMap_frame {msgs : List Message} (h : ∀ m ∈ msgs, Sendable m) :
    scan hash (msgs.flatMap (frame hash)) = (msgs, []) := by
  induction msgs with
  | nil => exact scan_of_lt hash (Nat.zero_lt_succ 23)
  | cons m msgs ih =>
    rw [List.forall_mem_cons] at h
    rw [List.flatMap_cons, scan_frame_append hash h.1, ih h.2]

theorem foldl_pushMessage (msgs : List Message) {s : SendBuffer} (h : s.nHeaderStart = none) :
    (msgs.foldl (SendBuffer.pushMessage hash) s).vSend =
      s.vSend ++ msgs.flatMap (frame hash) := by
  induction msgs generalizing s with
  | nil => simp
  | cons m msgs ih =>
    rw [List.foldl_cons, SendBuffer.pushMessage_eq hash h, ih rfl, List.flatMap_cons,
      List.append_assoc]

end Frame

/-! ### Samples -/

/-- The `verack` message, which has no payload. -/
def verack : Message := ([0x76, 0x65, 0x72, 0x61, 0x63, 0x6B], [])

/-- The hash of no bytes. -/
def emptyHash : Uint256 := 0x56944c5d3f98413ef45cf54545538103cc9f298e0575820ad3591376e2e0f65d

theorem sendable_verack : Sendable verack := ⟨by decide, by decide +kernel, Nat.zero_le _⟩

end MotaCoin
