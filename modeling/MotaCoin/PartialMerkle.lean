import MotaCoin.Merkle
import MotaCoin.Serialize

/-!
# Partial Merkle trees

`CPartialMerkleTree`: the part of a Merkle tree that shows some transactions of a block. Building
walks down to the matched ids and stores a bit for each node it meets and a hash where it stops;
extracting walks the same way, led by the bits. What was built is extracted; and whatever the bits
and hashes are, a walk that ends in the Merkle root of a block found transactions of the block.

## Main definitions

* `CPartialMerkleTree`, `traverseAndBuild`, `CPartialMerkleTree.build`
* `packBits`, `unpackBits`, `serialize`, `unserialize`
* `ExtractState`, `traverseAndExtract`, `extractMatches`

## Main results

* `unpackBits_packBits`: the flag bits come back with a padding of at most seven
* `traverseAndExtract_build`: extracting walks back what building wrote
* `extractMatches_build`: a built tree, sent and received, gives the root and the matched ids
* `traverseAndExtract_sound`, `extractMatches_sublist`: what is extracted under the root of a block
  is in the block
-/

namespace MotaCoin

open MerkleTree Wire

/-- `CPartialMerkleTree`. The number of transactions that `ExtractMatches` admits is far below the
point where `CalcTreeWidth` would overflow. -/
structure CPartialMerkleTree where
  nTransactions : Nat
  vBits : List Bool
  vHash : List Uint256
  fBad : Bool

/-! ## Building -/

section Build

variable (C : Crypto)

/-- `CalcHash`. -/
def calcHash (vTxid : List Uint256) (height pos : Nat) : Uint256 :=
  nodeHash C.hashPair 0 vTxid height pos

theorem calcHash_succ (vTxid : List Uint256) (height pos : Nat) :
    calcHash C vTxid (height + 1) pos =
      C.hashPair (calcHash C vTxid height (pos * 2))
        (if pos * 2 + 1 < width vTxid.length height then calcHash C vTxid height (pos * 2 + 1)
          else calcHash C vTxid height (pos * 2)) := rfl

/-- `TraverseAndBuild`: the bits and the hashes it appends. The flag of a node is whether one of
the transactions below it is matched. -/
def traverseAndBuild (vTxid : List Uint256) (vMatch : List Bool) :
    Nat → Nat → List Bool × List Uint256
  | 0, pos => ([(slice vMatch 0 pos).any id], [calcHash C vTxid 0 pos])
  | height + 1, pos =>
    if (slice vMatch (height + 1) pos).any id then
      let left := traverseAndBuild vTxid vMatch height (pos * 2)
      if pos * 2 + 1 < width vTxid.length height then
        let right := traverseAndBuild vTxid vMatch height (pos * 2 + 1)
        (true :: (left.1 ++ right.1), left.2 ++ right.2)
      else (true :: left.1, left.2)
    else ([false], [calcHash C vTxid (height + 1) pos])

/-- `CPartialMerkleTree(vTxid, vMatch)`. -/
def CPartialMerkleTree.build (vTxid : List Uint256) (vMatch : List Bool) : CPartialMerkleTree :=
  let r := traverseAndBuild C vTxid vMatch (treeHeight vTxid.length) 0
  ⟨vTxid.length, r.1, r.2, false⟩

end Build

/-! ## Sending -/

/-- The number whose bits are given, lowest first. -/
def bitsValue : List Bool → Nat
  | [] => 0
  | b :: bits => b.toNat + 2 * bitsValue bits

/-- The flag bits as bytes: eight to a byte, lowest first. -/
def packBits (vBits : List Bool) : List UInt8 :=
  if vBits = [] then []
  else UInt8.ofNat (bitsValue (vBits.take 8)) :: packBits (vBits.drop 8)
termination_by vBits.length
decreasing_by
  rename_i h
  have := List.length_pos_iff.mpr h
  rw [List.length_drop]
  omega

/-- The flag bits from the bytes. -/
def unpackBits (vBytes : List UInt8) : List Bool :=
  vBytes.flatMap fun byte => (List.range 8).map fun j => byte.toNat.testBit j

namespace CPartialMerkleTree

/-- `Serialize` of a `CPartialMerkleTree`. -/
def serialize (t : CPartialMerkleTree) : List UInt8 :=
  leBytes 4 t.nTransactions ++
    (serializeVector (leBytes 32) t.vHash ++ serializeBytes (packBits t.vBits))

/-- A block of `uint256`, which take 32 bytes of memory each, is not empty. -/
theorem hashBlock_pos : 0 < 5000000 / 32 := by decide

/-- `Unserialize` of a `CPartialMerkleTree`. -/
def unserialize : Reader CPartialMerkleTree := do
  let nTransactions ← readLE 4
  let vHash ← unserializeVectorUpTo MAX_SIZE (readLE 32) 32 hashBlock_pos
  let vBytes ← unserializeBytesUpTo MAX_SIZE
  pure ⟨nTransactions, unpackBits vBytes, vHash, false⟩

end CPartialMerkleTree

/-! ## Extracting -/

/-- What `TraverseAndExtract` has left: the bits and hashes not used yet, the matches so far and
the mark of a failure. -/
structure ExtractState where
  vBits : List Bool
  vHash : List Uint256
  vMatch : List Uint256
  fBad : Bool

/-- The end of a walk: use a stored hash, which is a match if `fMatched`. -/
def takeHash (fMatched : Bool) (st : ExtractState) : Uint256 × ExtractState :=
  match st.vHash with
  | [] => (0, { st with fBad := true })
  | hash :: vHash =>
    (hash, { st with
      vHash := vHash, vMatch := if fMatched then st.vMatch ++ [hash] else st.vMatch })

section Extract

variable (C : Crypto)

/-- `TraverseAndExtract` in a tree over `n` transactions. A failure is marked, and the walk goes on
with a zero hash. -/
def traverseAndExtract (n : Nat) : Nat → Nat → ExtractState → Uint256 × ExtractState
  | 0, _, st =>
    match st.vBits with
    | [] => (0, { st with fBad := true })
    | fParentOfMatch :: vBits => takeHash fParentOfMatch { st with vBits := vBits }
  | height + 1, pos, st =>
    match st.vBits with
    | [] => (0, { st with fBad := true })
    | false :: vBits => takeHash false { st with vBits := vBits }
    | true :: vBits =>
      let left := traverseAndExtract n height (pos * 2) { st with vBits := vBits }
      if pos * 2 + 1 < width n height then
        let right := traverseAndExtract n height (pos * 2 + 1) left.2
        (C.hashPair left.1 right.1, right.2)
      else (C.hashPair left.1 left.1, left.2)

/-- `ExtractMatches`: the Merkle root and the matched ids; the root is `none` where the code
returns zero for a failure. -/
def CPartialMerkleTree.extractMatches (t : CPartialMerkleTree) : Option Uint256 × List Uint256 :=
  if t.nTransactions = 0 then (none, [])
  else if MAX_BLOCK_SIZE / 60 < t.nTransactions then (none, [])
  else if t.nTransactions < t.vHash.length then (none, [])
  else if t.vBits.length < t.vHash.length then (none, [])
  else
    let r := traverseAndExtract C t.nTransactions (treeHeight t.nTransactions) 0
      ⟨t.vBits, t.vHash, [], t.fBad⟩
    let nBitsUsed := t.vBits.length - r.2.vBits.length
    if r.2.fBad then (none, r.2.vMatch)
    else if (nBitsUsed + 7) / 8 ≠ (t.vBits.length + 7) / 8 then (none, r.2.vMatch)
    else if r.2.vHash ≠ [] then (none, r.2.vMatch)
    else (some r.1, r.2.vMatch)

end Extract

/-! ## The flag bits come back -/

theorem bitsValue_lt (bits : List Bool) : bitsValue bits < 2 ^ bits.length := by
  induction bits with
  | nil => simp [bitsValue]
  | cons b bits ih =>
    have := b.toNat_le
    rw [bitsValue, List.length_cons, pow_succ]
    omega

theorem testBit_bitsValue (bits : List Bool) (j : Nat) :
    (bitsValue bits).testBit j = bits.getD j false := by
  induction bits generalizing j with
  | nil => simp [bitsValue]
  | cons b bits ih =>
    cases j with
    | zero =>
      cases b with
      | false => simp [bitsValue, Nat.testBit_zero]
      | true => simp [bitsValue, Nat.testBit_zero, Nat.add_mod]
    | succ j =>
      have hdiv : (b.toNat + 2 * bitsValue bits) / 2 = bitsValue bits := by
        have := b.toNat_le
        omega
      rw [bitsValue, Nat.testBit_succ, hdiv, ih, List.getD_cons_succ]

/-- A byte gives back its bits, and false for those it was not given. -/
theorem unpackBits_byte (bits : List Bool) (h : bits.length ≤ 8) :
    ((List.range 8).map fun j => (UInt8.ofNat (bitsValue bits)).toNat.testBit j) =
      bits ++ List.replicate (8 - bits.length) false := by
  have hlt : bitsValue bits < 256 :=
    (bitsValue_lt bits).trans_le (Nat.pow_le_pow_right (by decide) h)
  rw [UInt8.toNat_ofNat', Nat.mod_eq_of_lt hlt]
  refine List.ext_getElem? fun j => ?_
  simp only [List.getElem?_map, testBit_bitsValue]
  by_cases hj : j < 8
  · rw [List.getElem?_range hj, Option.map_some, List.getElem?_append]
    split
    · next hlt' => rw [List.getD_eq_getElem _ _ hlt', List.getElem?_eq_getElem hlt']
    · next hge =>
      rw [List.getElem?_replicate, if_pos (by omega),
        List.getD_eq_default _ _ (Nat.le_of_not_lt hge)]
  · rw [List.getElem?_eq_none (by simpa using hj),
      List.getElem?_eq_none (by simp; omega)]
    rfl

/-- The bits, filled up to whole bytes. -/
theorem unpackBits_packBits (vBits : List Bool) :
    ∃ k, unpackBits (packBits vBits) = vBits ++ List.replicate k false ∧ k < 8 ∧
      (packBits vBits).length * 8 = vBits.length + k := by
  induction hn : vBits.length using Nat.strong_induction_on generalizing vBits with
  | _ n ih =>
    subst hn
    rw [packBits]
    split
    · next hnil =>
      subst hnil
      exact ⟨0, by simp [unpackBits], by decide, by simp⟩
    · next hne =>
      have hpos := List.length_pos_iff.mpr hne
      obtain ⟨k, hk, hlt, hlen⟩ := ih (vBits.drop 8).length (by rw [List.length_drop]; omega)
        (vBits.drop 8) rfl
      have hbyte := unpackBits_byte (vBits.take 8) (by simp)
      have hcons : unpackBits (UInt8.ofNat (bitsValue (vBits.take 8)) :: packBits (vBits.drop 8)) =
          vBits.take 8 ++ List.replicate (8 - (vBits.take 8).length) false ++
            (vBits.drop 8 ++ List.replicate k false) := by
        rw [← hk, ← hbyte]
        simp [unpackBits]
      rw [List.length_drop] at hlen
      by_cases hfull : 8 ≤ vBits.length
      · refine ⟨k, ?_, hlt, by rw [List.length_cons]; omega⟩
        rw [hcons, List.length_take, Nat.min_eq_left hfull, Nat.sub_self, List.replicate_zero,
          List.append_nil, ← List.append_assoc, List.take_append_drop]
      · -- the last byte, nothing after it
        have hdrop : vBits.drop 8 = [] := List.drop_eq_nil_of_le (by omega)
        have hk0 : k = 0 := by
          rw [hdrop] at hlen
          have : (packBits []).length = 0 := by simp [packBits]
          omega
        refine ⟨8 - vBits.length, ?_, by omega, ?_⟩
        · rw [hcons, hdrop, hk0, List.take_of_length_le (by omega)]
          simp
        · rw [hdrop] at hlen ⊢
          have : (packBits []).length = 0 := by simp [packBits]
          rw [List.length_cons, this]
          omega

/-! ## What was built is extracted -/

section Completeness

variable (C : Crypto) (z : List (Uint256 × Bool))

/-- The matched ids below a node, of ids given with their marks. -/
def matchesBelow (height pos : Nat) : List Uint256 :=
  ((slice z height pos).filter Prod.snd).map Prod.fst

theorem matchesBelow_succ (height pos : Nat) :
    matchesBelow z (height + 1) pos =
      matchesBelow z height (pos * 2) ++ matchesBelow z height (pos * 2 + 1) := by
  simp [matchesBelow, slice_succ]

theorem matchesBelow_eq_nil {height pos : Nat}
    (h : (slice (z.map Prod.snd) height pos).any id = false) : matchesBelow z height pos = [] := by
  rw [slice_map, List.any_map, List.any_eq_false] at h
  rw [matchesBelow, List.map_eq_nil_iff, List.filter_eq_nil_iff]
  exact h

/-- **Extracting walks back what building wrote**, whatever follows the bits and the hashes. -/
theorem traverseAndExtract_build (height : Nat) :
    ∀ {pos : Nat}, pos < width z.length height → ∀ vBits vHash m,
      traverseAndExtract C z.length height pos
          ⟨(traverseAndBuild C (z.map Prod.fst) (z.map Prod.snd) height pos).1 ++ vBits,
            (traverseAndBuild C (z.map Prod.fst) (z.map Prod.snd) height pos).2 ++ vHash, m, false⟩ =
        (calcHash C (z.map Prod.fst) height pos,
          ⟨vBits, vHash, m ++ matchesBelow z height pos, false⟩) := by
  induction height with
  | zero =>
    intro pos hpos vBits vHash m
    rw [width_zero] at hpos
    have hslice : slice z 0 pos = [z[pos]] := by
      rw [slice_zero (d := (0, false)) hpos, List.getD_eq_getElem _ _ hpos]
    have hcalc : calcHash C (z.map Prod.fst) 0 pos = z[pos].1 := by
      rw [calcHash, nodeHash, List.getD_eq_getElem _ _ (by simpa using hpos), List.getElem_map]
    simp only [traverseAndBuild, traverseAndExtract, slice_map, hslice, matchesBelow, hcalc, takeHash,
      List.map_cons, List.map_nil, List.any_cons, List.any_nil, id, Bool.or_false, List.cons_append,
      List.nil_append]
    cases hmark : z[pos].2 with
    | false => simp [hmark]
    | true => simp [hmark]
  | succ height ih =>
    intro pos hpos vBits vHash m
    have hleft := ih (left_lt_width hpos)
    rw [traverseAndBuild]
    cases hflag : (slice (z.map Prod.snd) (height + 1) pos).any id with
    | false =>
      simp [traverseAndExtract, takeHash, matchesBelow_eq_nil z hflag]
    | true =>
      by_cases hright : pos * 2 + 1 < width z.length height
      · -- both children are there
        simp only [if_true, List.length_map, if_pos hright, List.cons_append, List.append_assoc,
          traverseAndExtract, hleft, ih hright, matchesBelow_succ]
        rw [calcHash_succ, List.length_map, if_pos hright]
      · have hnone : matchesBelow z height (pos * 2 + 1) = [] := by
          rw [matchesBelow, slice_eq_nil hright]
          rfl
        simp only [if_true, List.length_map, if_neg hright, List.cons_append,
          traverseAndExtract, hleft, matchesBelow_succ, hnone, List.append_nil]
        rw [calcHash_succ, List.length_map, if_neg hright]

variable (vTxid : List Uint256) (vMatch : List Bool)

/-- How much is stored for a node: a hash for some of the leaves below it, and a bit for every
node met. -/
theorem length_traverseAndBuild (height : Nat) :
    ∀ {pos : Nat}, pos < width vTxid.length height →
      (traverseAndBuild C vTxid vMatch height pos).2.length ≤ (slice vTxid height pos).length ∧
      (traverseAndBuild C vTxid vMatch height pos).2.length ≤
        (traverseAndBuild C vTxid vMatch height pos).1.length ∧
      (traverseAndBuild C vTxid vMatch height pos).1.length < 2 ^ (height + 1) := by
  induction height with
  | zero =>
    intro pos hpos
    rw [width_zero] at hpos
    rw [slice_zero (d := 0) hpos]
    simp [traverseAndBuild]
  | succ height ih =>
    intro pos hpos
    obtain ⟨hslice, hbits, hlt⟩ := ih (left_lt_width hpos)
    have hpow : 2 ^ (height + 1 + 1) = 2 ^ (height + 1) + 2 ^ (height + 1) := by ring
    rw [traverseAndBuild, slice_succ vTxid, List.length_append]
    split
    · by_cases hright : pos * 2 + 1 < width vTxid.length height
      · obtain ⟨hslice', hbits', hlt'⟩ := ih hright
        simp only [if_pos hright, List.length_append, List.length_cons]
        omega
      · simp only [if_neg hright, List.length_cons]
        omega
    · -- a node that is there has a leaf below it
      have hleaf : 0 < (slice vTxid height (pos * 2)).length := by
        have := lt_width_iff.mp (left_lt_width hpos)
        have : 0 < 2 ^ height := by positivity
        rw [slice, List.length_take, List.length_drop]
        omega
      simp only [List.length_cons, List.length_nil]
      omega

theorem calcHash_lt (hhash : ∀ a b, C.hashPair a b < 2 ^ 256) (hids : ∀ id ∈ vTxid, id < 2 ^ 256)
    (height pos : Nat) : calcHash C vTxid height pos < 2 ^ 256 := by
  cases height with
  | zero =>
    change vTxid.getD pos 0 < 2 ^ 256
    by_cases hpos : pos < vTxid.length
    · rw [List.getD_eq_getElem _ _ hpos]
      exact hids _ (List.getElem_mem hpos)
    · rw [List.getD_eq_default _ _ (Nat.le_of_not_lt hpos)]
      decide
  | succ height => exact hhash _ _

theorem mem_traverseAndBuild_lt (hhash : ∀ a b, C.hashPair a b < 2 ^ 256)
    (hids : ∀ id ∈ vTxid, id < 2 ^ 256) (height : Nat) :
    ∀ pos, ∀ hash ∈ (traverseAndBuild C vTxid vMatch height pos).2, hash < 2 ^ 256 := by
  induction height with
  | zero =>
    intro pos hash hmem
    obtain rfl := List.mem_singleton.mp hmem
    exact calcHash_lt C vTxid hhash hids 0 pos
  | succ height ih =>
    intro pos hash hmem
    rw [traverseAndBuild] at hmem
    split at hmem
    · simp only at hmem
      split at hmem
      · rcases List.mem_append.mp hmem with hmem | hmem
        · exact ih _ hash hmem
        · exact ih _ hash hmem
      · exact ih _ hash hmem
    · obtain rfl := List.mem_singleton.mp hmem
      exact calcHash_lt C vTxid hhash hids _ pos

variable {C vTxid vMatch}

/-- A walk that uses all hashes and all bytes of the bits is a success. -/
theorem CPartialMerkleTree.extractMatches_of_walk {t : CPartialMerkleTree} {root : Uint256}
    {st : ExtractState} (hpos : t.nTransactions ≠ 0) (hmax : t.nTransactions ≤ MAX_BLOCK_SIZE / 60)
    (hhashes : t.vHash.length ≤ t.nTransactions) (hbits : t.vHash.length ≤ t.vBits.length)
    (hwalk : traverseAndExtract C t.nTransactions (treeHeight t.nTransactions) 0
      ⟨t.vBits, t.vHash, [], t.fBad⟩ = (root, st)) (hbad : st.fBad = false)
    (hused : (t.vBits.length - st.vBits.length + 7) / 8 = (t.vBits.length + 7) / 8)
    (hall : st.vHash = []) : t.extractMatches C = (some root, st.vMatch) := by
  unfold CPartialMerkleTree.extractMatches
  rw [if_neg hpos, if_neg (Nat.not_lt.mpr hmax), if_neg (Nat.not_lt.mpr hhashes),
    if_neg (Nat.not_lt.mpr hbits)]
  simp only [hwalk]
  rw [if_neg (by simp [hbad]), if_neg (not_not.mpr hused), if_neg (not_not.mpr hall)]

variable (vMatch) in
/-- What the sender built, as the receiver has it: the same tree with the flag bits filled up. -/
theorem reads_unserialize_build (hhash : ∀ a b, C.hashPair a b < 2 ^ 256) (hne : vTxid ≠ [])
    (hmax : vTxid.length ≤ MAX_BLOCK_SIZE / 60) (hids : ∀ id ∈ vTxid, id < 2 ^ 256) :
    ∃ k, k < 8 ∧ ((CPartialMerkleTree.build C vTxid vMatch).vBits.length + k) % 8 = 0 ∧
      Reads CPartialMerkleTree.unserialize (CPartialMerkleTree.build C vTxid vMatch).serialize
        { CPartialMerkleTree.build C vTxid vMatch with
          vBits := (CPartialMerkleTree.build C vTxid vMatch).vBits ++ List.replicate k false } := by
  have hroot : 0 < width vTxid.length (treeHeight vTxid.length) :=
    width_pos (List.length_pos_iff.mpr hne) _
  obtain ⟨hhashes, -, hbits⟩ := length_traverseAndBuild C vTxid vMatch _ hroot
  rw [slice_root (le_two_pow_treeHeight _)] at hhashes
  have hlimit : MAX_BLOCK_SIZE / 60 = 16666 := by decide
  have hheight : 2 ^ (treeHeight vTxid.length + 1) ≤ 2 ^ 16 :=
    Nat.pow_le_pow_right (by decide) (Nat.succ_le_succ (treeHeight_le (h := 15) (by omega)))
  obtain ⟨k, hunpack, hk, hlen⟩ := unpackBits_packBits (CPartialMerkleTree.build C vTxid vMatch).vBits
  have hsize : (CPartialMerkleTree.build C vTxid vMatch).vBits.length < 2 ^ 16 :=
    lt_of_lt_of_le hbits hheight
  refine ⟨k, hk, by omega, ?_⟩
  have hword : MAX_SIZE < 2 ^ 64 := by decide
  rw [← hunpack]
  refine Reads.bind (reads_readLE ?_) ?_
  · change vTxid.length < 256 ^ 4
    omega
  refine Reads.bind (reads_unserializeVector hword ?_ fun hash hmem => reads_readLE ?_) ?_
  · exact hhashes.trans (hmax.trans (by decide))
  · exact mem_traverseAndBuild_lt C vTxid vMatch hhash hids _ _ hash hmem
  · refine (reads_unserializeBytes hword ?_).map _
    have : 2 ^ 16 ≤ MAX_SIZE := by decide
    omega

/-- **A built tree, sent and received, gives the root and the matched ids**: for ids of any number
that `ExtractMatches` admits and any marks, unserializing what was serialized gives a tree from
which `ExtractMatches` takes the root `BuildMerkleTree` returns and the matched ids in order. -/
theorem extractMatches_build (hhash : ∀ a b, C.hashPair a b < 2 ^ 256) (hne : vTxid ≠ [])
    (hlen : vMatch.length = vTxid.length) (hmax : vTxid.length ≤ MAX_BLOCK_SIZE / 60)
    (hids : ∀ id ∈ vTxid, id < 2 ^ 256) :
    ∃ t : CPartialMerkleTree,
      (∀ rest, CPartialMerkleTree.unserialize
        ((CPartialMerkleTree.build C vTxid vMatch).serialize ++ rest) = some (t, rest)) ∧
      t.extractMatches C = (some (merkleRootFrom C vTxid.length vTxid),
        ((vTxid.zip vMatch).filter Prod.snd).map Prod.fst) ∧
      ∀ b : CBlock, b.vtx.map C.hashTx = vTxid →
        b.buildMerkleTree C = merkleRootFrom C vTxid.length vTxid := by
  obtain ⟨k, hk, hbytes, hread⟩ := reads_unserialize_build vMatch hhash hne hmax hids
  refine ⟨_, hread, ?_, fun b hb => ?_⟩
  · have hpos : 0 < vTxid.length := List.length_pos_iff.mpr hne
    have hroot : 0 < width vTxid.length (treeHeight vTxid.length) := width_pos hpos _
    obtain ⟨hhashes, hbits, -⟩ := length_traverseAndBuild C vTxid vMatch _ hroot
    rw [slice_root (le_two_pow_treeHeight _)] at hhashes
    -- the walk, on the ids with their marks
    have hfst : (vTxid.zip vMatch).map Prod.fst = vTxid := List.map_fst_zip hlen.ge
    have hsnd : (vTxid.zip vMatch).map Prod.snd = vMatch := List.map_snd_zip hlen.le
    have hzip : (vTxid.zip vMatch).length = vTxid.length := by simp [hlen]
    have hroot' : 0 < width (vTxid.zip vMatch).length (treeHeight vTxid.length) := hzip ▸ hroot
    have hwalk := traverseAndExtract_build C (vTxid.zip vMatch) (treeHeight vTxid.length) hroot'
      (List.replicate k false) [] []
    rw [hfst, hsnd, hzip, List.append_nil, List.nil_append] at hwalk
    have hmatch : matchesBelow (vTxid.zip vMatch) (treeHeight vTxid.length) 0 =
        ((vTxid.zip vMatch).filter Prod.snd).map Prod.fst := by
      rw [matchesBelow, slice_root (hzip ▸ le_two_pow_treeHeight _)]
    rw [hmatch] at hwalk
    rw [merkleRootFrom_eq C hne]
    refine CPartialMerkleTree.extractMatches_of_walk
      (t := ⟨vTxid.length, (traverseAndBuild C vTxid vMatch (treeHeight vTxid.length) 0).1 ++
        List.replicate k false, (traverseAndBuild C vTxid vMatch (treeHeight vTxid.length) 0).2,
        false⟩) hpos.ne' hmax hhashes ?_ hwalk rfl ?_ rfl
    · rw [List.length_append]
      exact hbits.trans (Nat.le_add_right _ _)
    · simp only [CPartialMerkleTree.build] at hbytes
      simp only [List.length_append, List.length_replicate,
        Nat.add_sub_cancel]
      omega
  · subst hb
    rw [List.length_map, CBlock.buildMerkleTree]

/-- A hash of 256 bits. -/
noncomputable def boundedCrypto : Crypto :=
  { labelCrypto [] [] with hashPair := fun left right => (3 * left + right) % 2 ^ 256 }

/-- Three ids, the first and the last of them matched. -/
theorem extractMatches_build_three :
    ∃ t : CPartialMerkleTree,
      (∀ rest, CPartialMerkleTree.unserialize
        ((CPartialMerkleTree.build boundedCrypto [7, 8, 9] [true, false, true]).serialize ++ rest) =
          some (t, rest)) ∧
      t.extractMatches boundedCrypto = (some 123, [7, 9]) := by
  have hlen : [true, false, true].length = ([7, 8, 9] : List Uint256).length := rfl
  obtain ⟨t, hread, hmatches, -⟩ := extractMatches_build (C := boundedCrypto)
    (fun a b => Nat.mod_lt _ (by decide)) (by simp) hlen (by decide) (by decide)
  refine ⟨t, hread, hmatches.trans ?_⟩
  have hroot : merkleRootFrom boundedCrypto [7, 8, 9].length [7, 8, 9] = 123 := by decide +kernel
  rw [hroot]
  rfl

end Completeness

/-! ## What is extracted is in the block -/

section Soundness

variable {C : Crypto} {ids : List Uint256}

theorem fBad_takeHash {fMatched : Bool} {st : ExtractState}
    (h : (takeHash fMatched st).2.fBad = false) : st.fBad = false := by
  unfold takeHash at h
  split at h
  · cases h
  · exact h

/-- A failure stays marked. -/
theorem fBad_traverseAndExtract (n height : Nat) :
    ∀ {pos : Nat} {st : ExtractState}, (traverseAndExtract C n height pos st).2.fBad = false →
      st.fBad = false := by
  induction height with
  | zero =>
    intro pos st h
    rw [traverseAndExtract] at h
    split at h
    · cases h
    · have hst := fBad_takeHash h
      exact hst
  | succ height ih =>
    intro pos st h
    rw [traverseAndExtract] at h
    split at h
    · cases h
    · have hst := fBad_takeHash h
      exact hst
    · simp only at h
      split at h
      · have hleft := ih (ih h)
        exact hleft
      · have hleft := ih h
        exact hleft

/-- A stored hash used without a failure: what it adds to the matches. -/
theorem takeHash_spec {fMatched : Bool} {st : ExtractState}
    (h : (takeHash fMatched st).2.fBad = false) :
    (takeHash fMatched st).2.vMatch =
      if fMatched then st.vMatch ++ [(takeHash fMatched st).1] else st.vMatch := by
  unfold takeHash at h ⊢
  split at h
  · cases h
  · rfl

/-- **A walk that returns the hash of a node of the block** found ids below that node, in order.
The hash fixes the children, so the walk below them returned theirs. -/
theorem traverseAndExtract_sound (hC : HashInjective C) (height : Nat) :
    ∀ {pos : Nat} {st : ExtractState}, pos < width ids.length height →
      (traverseAndExtract C ids.length height pos st).2.fBad = false →
      (traverseAndExtract C ids.length height pos st).1 = calcHash C ids height pos →
      ∃ m, (traverseAndExtract C ids.length height pos st).2.vMatch = st.vMatch ++ m ∧
        m.Sublist (slice ids height pos) := by
  induction height with
  | zero =>
    intro pos st hpos hbad hhash
    rw [width_zero] at hpos
    rw [traverseAndExtract] at hbad hhash ⊢
    split at hbad
    · cases hbad
    · next fParentOfMatch vBits hbits =>
      simp only [hbits] at hhash ⊢
      rw [takeHash_spec hbad, hhash]
      cases fParentOfMatch with
      | false => exact ⟨[], by simp, List.nil_sublist _⟩
      | true =>
        refine ⟨[calcHash C ids 0 pos], rfl, ?_⟩
        rw [slice_zero (d := 0) hpos]
        exact List.Sublist.refl _
  | succ height ih =>
    intro pos st hpos hbad hhash
    have hleft := left_lt_width hpos
    rw [traverseAndExtract] at hbad hhash ⊢
    split at hbad
    · cases hbad
    · next vBits hbits =>
      simp only [hbits] at hhash ⊢
      rw [takeHash_spec hbad]
      exact ⟨[], by simp, List.nil_sublist _⟩
    · next vBits hbits =>
      simp only [hbits] at hbad hhash ⊢
      rw [calcHash_succ] at hhash
      by_cases hright : pos * 2 + 1 < width ids.length height
      · simp only [if_pos hright] at hbad hhash ⊢
        obtain ⟨hl, hr⟩ := hC.hashPair _ _ _ _ hhash
        obtain ⟨m, hm, hsub⟩ := ih hleft (fBad_traverseAndExtract _ _ hbad) hl
        obtain ⟨m', hm', hsub'⟩ := ih hright hbad hr
        refine ⟨m ++ m', ?_, ?_⟩
        · rw [hm', hm, List.append_assoc]
        · rw [slice_succ]
          exact hsub.append hsub'
      · simp only [if_neg hright] at hbad hhash ⊢
        obtain ⟨hl, -⟩ := hC.hashPair _ _ _ _ hhash
        obtain ⟨m, hm, hsub⟩ := ih hleft hbad hl
        refine ⟨m, hm, ?_⟩
        rw [slice_succ, slice_eq_nil hright, List.append_nil]
        exact hsub

/-- What a success of `ExtractMatches` was: a walk from the root without a failure. -/
theorem CPartialMerkleTree.walk_of_extractMatches {t : CPartialMerkleTree} {root : Uint256}
    {vMatch : List Uint256} (h : t.extractMatches C = (some root, vMatch)) :
    t.nTransactions ≠ 0 ∧ ∃ st, traverseAndExtract C t.nTransactions (treeHeight t.nTransactions) 0
      ⟨t.vBits, t.vHash, [], t.fBad⟩ = (root, st) ∧ st.fBad = false ∧ st.vMatch = vMatch := by
  simp only [CPartialMerkleTree.extractMatches] at h
  split_ifs at h with hzero _ _ _ hbad
  all_goals simp only [Prod.mk.injEq, Option.some.injEq, reduceCtorEq, false_and] at h
  exact ⟨hzero, _, Prod.ext h.1 rfl, by simpa using hbad, h.2⟩

/-- **What is extracted under the root of a block is in the block**: whatever the bits and hashes
of a partial tree over as many transactions as the block has, if `ExtractMatches` returns the Merkle
root of the block without a failure, the matches are ids of the block in order. -/
theorem extractMatches_sublist (hC : HashInjective C) {b : CBlock} {t : CPartialMerkleTree}
    (hn : t.nTransactions = b.vtx.length) {vMatch : List Uint256}
    (h : t.extractMatches C = (some (b.buildMerkleTree C), vMatch)) :
    vMatch.Sublist (b.vtx.map C.hashTx) := by
  obtain ⟨hzero, st, hwalk, hbad, rfl⟩ := CPartialMerkleTree.walk_of_extractMatches h
  have hids : t.nTransactions = (b.vtx.map C.hashTx).length := by rw [hn, List.length_map]
  have hne : b.vtx.map C.hashTx ≠ [] := by
    rw [← List.length_pos_iff]
    omega
  have hroot : b.buildMerkleTree C =
      calcHash C (b.vtx.map C.hashTx) (treeHeight (b.vtx.map C.hashTx).length) 0 := by
    rw [calcHash, ← merkleRootFrom_eq C hne, List.length_map, CBlock.buildMerkleTree]
  rw [hids] at hwalk
  have hwidth : 0 < width (b.vtx.map C.hashTx).length (treeHeight (b.vtx.map C.hashTx).length) :=
    width_pos (List.length_pos_iff.mpr hne) _
  have hend : (traverseAndExtract C (b.vtx.map C.hashTx).length
      (treeHeight (b.vtx.map C.hashTx).length) 0 ⟨t.vBits, t.vHash, [], t.fBad⟩).2.fBad = false := by
    rw [hwalk]
    exact hbad
  obtain ⟨m, hm, hsub⟩ := traverseAndExtract_sound hC _ hwidth hend (by rw [hwalk]; exact hroot)
  rw [slice_root (le_two_pow_treeHeight _)] at hsub
  rw [hwalk] at hm
  simp only [List.nil_append] at hm
  rw [hm]
  exact hsub

/-- A block with two transactions. -/
def twoTxBlock : CBlock :=
  { signedBlock [] with vtx := [signedCoinbase, { signedCoinbase with nTime := 1001 }] }

/-- A partial tree that shows the first of two transactions. -/
theorem extractMatches_sublist_first :
    CPartialMerkleTree.extractMatches (labelCrypto twoTxBlock.vtx [])
        ⟨2, [true, true, false], [1, 2], false⟩ =
      (some (twoTxBlock.buildMerkleTree (labelCrypto twoTxBlock.vtx [])), [1]) ∧
    [1].Sublist (twoTxBlock.vtx.map (labelCrypto twoTxBlock.vtx []).hashTx) := by
  have h : CPartialMerkleTree.extractMatches (labelCrypto twoTxBlock.vtx [])
      ⟨2, [true, true, false], [1, 2], false⟩ =
      (some (twoTxBlock.buildMerkleTree (labelCrypto twoTxBlock.vtx [])), [1]) := by decide +kernel
  exact ⟨h, extractMatches_sublist (labelCrypto_hashInjective _ _) rfl h⟩

end Soundness

end MotaCoin
