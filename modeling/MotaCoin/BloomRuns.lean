import MotaCoin.Bloom
import Mathlib.Data.Set.Insert
import Mathlib.Data.Set.Lattice

/-!
# No faults and no false negatives

Whatever a peer loads into its filter and sends after it, nothing faults, and what was inserted is
found. A filter stands for the set of its bits; inserting an element adds the bits of the element,
and an element is found when its bits are there.

## Main definitions

* `CBloomFilter.bits`, `CBloomFilter.positions key`: the bits of a filter, and those of an element
* `CBloomFilter.Sound`: a filter that is not full has a byte
* `CBloomFilter.Grows f f'`: `f'` has all bits of `f`, and hashes alike
* `CBloomFilter.Holds f key`: the element is reported

## Main results

* `CBloomFilter.insert_spec`, `CBloomFilter.contains_spec`: the two operations in terms of bits
* `CBloomFilter.isRelevantAndUpdate_spec`: the outputs that matched are in the updated filter
* `runFilter_safe`: a whole run
-/

namespace MotaCoin

open Wire

/-! ## The hash does not fault -/

@[simp] theorem Faulty.ok_bind {α β : Type} (a : α) (f : α → Faulty β) :
    (Except.ok a >>= f : Faulty β) = f a := rfl

theorem byteAt_eq {v : Valtype} {i : Nat} (h : i < v.length) : byteAt v i = .ok v[i] := by
  unfold byteAt
  rw [List.getElem?_eq_getElem h]
  rfl

theorem exists_readBlock {v : Valtype} {j : Nat} (h : 4 * j + 3 < v.length) :
    ∃ k, readBlock v j = .ok k := by
  unfold readBlock
  rw [byteAt_eq (by omega : 4 * j < v.length), byteAt_eq (by omega : 4 * j + 1 < v.length),
    byteAt_eq (by omega : 4 * j + 2 < v.length), byteAt_eq h]
  exact ⟨_, rfl⟩

theorem exists_murmurBody {v : Valtype} {js : List Nat} (h : ∀ j ∈ js, 4 * j + 3 < v.length)
    (h1 : UInt32) : ∃ k, murmurBody v js h1 = .ok k := by
  induction js generalizing h1 with
  | nil => exact ⟨h1, rfl⟩
  | cons j js ih =>
    obtain ⟨hj, hjs⟩ := List.forall_mem_cons.mp h
    obtain ⟨k, hk⟩ := exists_readBlock hj
    unfold murmurBody
    rw [hk]
    exact ih hjs _

/-- The tail reads the bytes after the last block, of which there are `size % 4`. -/
theorem exists_murmurTail (v : Valtype) (h1 : UInt32) :
    ∃ k, murmurTail v (4 * (v.length / 4)) h1 = .ok k := by
  have hat (i : Nat) (hi : i < v.length % 4) :
      ∃ b, byteAt v (4 * (v.length / 4) + i) = .ok b :=
    ⟨_, byteAt_eq (by omega)⟩
  unfold murmurTail
  dsimp only
  have hlt : v.length % 4 < 4 := Nat.mod_lt _ (by decide)
  generalize v.length % 4 = size at hat hlt
  obtain rfl | rfl | rfl | rfl : size = 0 ∨ size = 1 ∨ size = 2 ∨ size = 3 := by omega
  · exact ⟨_, rfl⟩
  · obtain ⟨b0, h0⟩ := hat 0 (by decide)
    rw [Nat.add_zero] at h0
    simp [h0]
  · obtain ⟨b0, h0⟩ := hat 0 (by decide)
    obtain ⟨b1, h1⟩ := hat 1 (by decide)
    rw [Nat.add_zero] at h0
    simp [h0, h1]
  · obtain ⟨b0, h0⟩ := hat 0 (by decide)
    obtain ⟨b1, h1⟩ := hat 1 (by decide)
    obtain ⟨b2, h2⟩ := hat 2 (by decide)
    rw [Nat.add_zero] at h0
    simp [h0, h1, h2]

theorem exists_murmurHash3 (nHashSeed : UInt32) (v : Valtype) :
    ∃ h, murmurHash3 nHashSeed v = .ok h := by
  have hblocks : ∀ j ∈ List.range (v.length / 4), 4 * j + 3 < v.length := by
    intro j hj
    have := List.mem_range.mp hj
    omega
  obtain ⟨h1, hbody⟩ := exists_murmurBody hblocks nHashSeed
  obtain ⟨h2, htail⟩ := exists_murmurTail v h1
  unfold murmurHash3
  dsimp only
  rw [hbody, Faulty.ok_bind, htail]
  exact ⟨_, rfl⟩

namespace CBloomFilter

variable {f f' f'' : CBloomFilter} {key : Valtype}

/-! ## The bits of a filter -/

/-- A filter that is not full has a byte. -/
def Sound (f : CBloomFilter) : Prop := f.isFull = false → f.vData ≠ []

/-- The bit that hash function `i` selects. -/
def index (f : CBloomFilter) (i : Nat) (key : Valtype) : Nat :=
  match f.hash i key with
  | .ok n => n
  | .error _ => 0

theorem hash_eq (h : f.vData ≠ []) (i : Nat) (key : Valtype) :
    f.hash i key = .ok (f.index i key) ∧ f.index i key < f.vData.length * 8 := by
  have hpos : 0 < f.vData.length * 8 :=
    Nat.mul_pos (List.length_pos_of_ne_nil h) (by decide)
  obtain ⟨n, hn⟩ := exists_murmurHash3 (UInt32.ofNat i * 0xFBA4C795 + f.nTweak) key
  have hhash : f.hash i key = .ok (n.toNat % (f.vData.length * 8)) := by
    unfold hash
    rw [hn]
    exact if_neg (Nat.ne_of_gt hpos)
  have hindex : f.index i key = n.toNat % (f.vData.length * 8) := by
    unfold index
    rw [hhash]
  rw [hindex]
  exact ⟨hhash, Nat.mod_lt _ hpos⟩

/-- The bits that are set. -/
def bits (f : CBloomFilter) : Set Nat := {n | f.testBit n = .ok true}

/-- The bits of an element. -/
def positions (f : CBloomFilter) (key : Valtype) : Set Nat :=
  {n | ∃ i < f.nHashFuncs, f.index i key = n}

/-- `f'` hashes like `f`. -/
structure SameShape (f f' : CBloomFilter) : Prop where
  length : f'.vData.length = f.vData.length
  isFull : f'.isFull = f.isFull
  nHashFuncs : f'.nHashFuncs = f.nHashFuncs
  nTweak : f'.nTweak = f.nTweak
  nFlags : f'.nFlags = f.nFlags

theorem SameShape.refl (f : CBloomFilter) : SameShape f f := ⟨rfl, rfl, rfl, rfl, rfl⟩

theorem SameShape.trans (h : SameShape f f') (h' : SameShape f' f'') : SameShape f f'' :=
  ⟨h'.length.trans h.length, h'.isFull.trans h.isFull, h'.nHashFuncs.trans h.nHashFuncs,
    h'.nTweak.trans h.nTweak, h'.nFlags.trans h.nFlags⟩

theorem SameShape.index (h : SameShape f f') (i : Nat) : f'.index i key = f.index i key := by
  unfold CBloomFilter.index hash
  rw [h.length, h.nTweak]

theorem SameShape.positions (h : SameShape f f') : f'.positions key = f.positions key := by
  ext n
  unfold CBloomFilter.positions
  simp only [h.nHashFuncs, h.index]

theorem SameShape.ne_nil (h : SameShape f f') (hne : f.vData ≠ []) : f'.vData ≠ [] := by
  rw [← List.length_pos_iff] at hne ⊢
  exact h.length ▸ hne

theorem SameShape.sound (h : SameShape f f') (hs : f.Sound) : f'.Sound :=
  fun hfull => h.ne_nil (hs (h.isFull ▸ hfull))

/-- The mask of a bit. -/
def mask (n : Nat) : UInt8 := bitMask.getD (7 &&& n) 0

theorem byteAt_bitMask (n : Nat) : byteAt bitMask (7 &&& n) = .ok (mask n) := by
  have hlt : 7 &&& n < bitMask.length := Nat.lt_succ_of_le Nat.and_le_left
  unfold mask
  rw [byteAt_eq hlt, List.getD_eq_getElem?_getD, List.getElem?_eq_getElem hlt, Option.getD_some]

theorem or_and_byte (a b c : UInt8) : (a ||| b) &&& c = a &&& c ||| b &&& c := by
  rw [← UInt8.toBitVec_inj]
  ext i
  simp only [UInt8.toBitVec_and, UInt8.toBitVec_or, BitVec.getElem_and, BitVec.getElem_or]
  exact Bool.and_or_distrib_right _ _ _

/-- Two bits of one byte have no mask in common. -/
theorem mask_and_mask {n m : Nat} (h : n >>> 3 = m >>> 3) : mask n &&& mask m ≠ 0 ↔ m = n := by
  have hall : ∀ i j : Fin 8, bitMask.getD i 0 &&& bitMask.getD j 0 ≠ 0 ↔ j = i := by decide
  have hmod (k : Nat) : 7 &&& k = k % 8 := by
    rw [Nat.and_comm]
    exact Nat.and_two_pow_sub_one_eq_mod k 3
  simp only [Nat.shiftRight_eq_div_pow] at h
  unfold mask
  rw [hmod, hmod]
  refine (hall ⟨n % 8, by omega⟩ ⟨m % 8, by omega⟩).trans ?_
  rw [Fin.mk.injEq]
  omega

theorem mem_bits {m : Nat} :
    m ∈ f.bits ↔ ∃ byte, f.vData[m >>> 3]? = some byte ∧ byte &&& mask m ≠ 0 := by
  change f.testBit m = .ok true ↔ _
  unfold testBit byteAt
  cases f.vData[m >>> 3]? with
  | none =>
    constructor
    · nofun
    · rintro ⟨byte, hbyte, -⟩
      cases hbyte
  | some byte =>
    change (byteAt bitMask (7 &&& m) >>= fun mask => pure (byte &&& mask != 0)) = _ ↔ _
    rw [byteAt_bitMask, Faulty.ok_bind]
    change Except.ok (byte &&& mask m != 0) = .ok true ↔ _
    rw [Except.ok.injEq, bne_iff_ne]
    constructor
    · exact fun hne => ⟨byte, rfl, hne⟩
    · rintro ⟨byte', heq, hne⟩
      obtain rfl := Option.some.inj heq
      exact hne

/-- The byte of a bit is in the vector. -/
theorem shift_lt {n : Nat} (h : n < f.vData.length * 8) : n >>> 3 < f.vData.length := by
  rw [Nat.shiftRight_eq_div_pow]
  omega

theorem setBit_spec {n : Nat} (h : n < f.vData.length * 8) :
    ∃ f', f.setBit n = .ok f' ∧ SameShape f f' ∧ f'.isEmpty = f.isEmpty ∧
      f'.bits = f.bits ∪ {n} := by
  unfold setBit
  rw [byteAt_eq (shift_lt h), Faulty.ok_bind, byteAt_bitMask]
  refine ⟨_, rfl, ⟨List.length_set, rfl, rfl, rfl, rfl⟩, rfl, ?_⟩
  ext m
  rw [Set.mem_union, Set.mem_singleton_iff, mem_bits, mem_bits]
  dsimp only
  by_cases hbyte : n >>> 3 = m >>> 3
  · have hget : f.vData[n >>> 3]? = some f.vData[n >>> 3] :=
      List.getElem?_eq_getElem (shift_lt h)
    rw [← hbyte, hget, List.getElem?_set_self (shift_lt h)]
    simp only [Option.some.injEq, exists_eq_left']
    rw [or_and_byte, ← mask_and_mask hbyte, ne_eq, UInt8.or_eq_zero_iff, not_and_or]
  · rw [List.getElem?_set_ne hbyte]
    have hne : m ≠ n := fun heq => hbyte (heq ▸ rfl)
    exact (or_iff_left hne).symm

theorem exists_testBit {n : Nat} (h : n < f.vData.length * 8) :
    ∃ b, f.testBit n = .ok b ∧ (b = true ↔ n ∈ f.bits) := by
  have htest : f.testBit n = .ok (f.vData.get ⟨n >>> 3, shift_lt h⟩ &&& mask n != 0) := by
    unfold testBit
    rw [byteAt_eq (shift_lt h), Faulty.ok_bind, byteAt_bitMask]
    rfl
  refine ⟨_, htest, ?_⟩
  unfold bits
  rw [Set.mem_ofPred_eq, htest, Except.ok.injEq]

/-! ## Inserting and finding -/

/-- What the loop of `insert` does: the bits that the hash functions select are added. -/
theorem insertLoop_spec (hne : f.vData ≠ []) (key : Valtype) (is : List Nat) :
    ∃ f', insertLoop key is f = .ok f' ∧ SameShape f f' ∧ f'.isEmpty = f.isEmpty ∧
      f'.bits = f.bits ∪ {n | ∃ i ∈ is, f.index i key = n} := by
  induction is generalizing f with
  | nil =>
    refine ⟨f, rfl, .refl f, rfl, ?_⟩
    simp
  | cons i is ih =>
    obtain ⟨hhash, hlt⟩ := hash_eq hne i key
    obtain ⟨f₁, hset, hshape, hempty, hbits⟩ := setBit_spec hlt
    obtain ⟨f', hloop, hshape', hempty', hbits'⟩ := ih (hshape.ne_nil hne)
    refine ⟨f', ?_, hshape.trans hshape', hempty'.trans hempty, ?_⟩
    · rw [insertLoop, hhash, Faulty.ok_bind, hset, Faulty.ok_bind, hloop]
    · rw [hbits', hbits]
      ext n
      simp only [hshape.index, Set.mem_union, Set.mem_singleton_iff, Set.mem_ofPred_eq,
        List.mem_cons, exists_eq_or_imp, or_assoc, eq_comm (a := n)]

/-- `f'` has all bits of `f`, and hashes alike. -/
structure Grows (f f' : CBloomFilter) : Prop extends SameShape f f' where
  bits_subset : f.bits ⊆ f'.bits
  isEmpty : f.isEmpty = false → f'.isEmpty = false

theorem Grows.refl (f : CBloomFilter) : Grows f f := ⟨.refl f, subset_rfl, id⟩

theorem Grows.trans (h : Grows f f') (h' : Grows f' f'') : Grows f f'' :=
  ⟨h.toSameShape.trans h'.toSameShape, h.bits_subset.trans h'.bits_subset,
    fun hempty => h'.isEmpty (h.isEmpty hempty)⟩

/-- The element is reported. -/
def Holds (f : CBloomFilter) (key : Valtype) : Prop :=
  f.isFull = true ∨ f.isEmpty = false ∧ f.positions key ⊆ f.bits

/-- What was reported stays reported. -/
theorem Grows.holds (h : Grows f f') (hkey : f.Holds key) : f'.Holds key := by
  rcases hkey with hfull | ⟨hempty, hsub⟩
  · exact .inl (h.isFull.trans hfull)
  · refine .inr ⟨h.isEmpty hempty, ?_⟩
    rw [h.positions]
    exact hsub.trans h.bits_subset

/-- **`insert` adds the bits of the element**, and faults on no filter that is sound. -/
theorem insert_spec (hs : f.Sound) (key : Valtype) :
    ∃ f', f.insert key = .ok f' ∧ Grows f f' ∧ f'.Holds key := by
  unfold CBloomFilter.insert
  cases hfull : f.isFull with
  | true => exact ⟨f, rfl, .refl f, .inl hfull⟩
  | false =>
    obtain ⟨f₁, hloop, hshape, -, hbits⟩ := insertLoop_spec (hs hfull) key
      (List.range f.nHashFuncs)
    refine ⟨{ f₁ with isEmpty := false }, ?_, ?_, ?_⟩
    · rw [if_neg Bool.false_ne_true, hloop]
      rfl
    · have hsub : f.bits ⊆ f₁.bits := hbits ▸ Set.subset_union_left
      exact ⟨⟨hshape.length, hshape.isFull, hshape.nHashFuncs, hshape.nTweak, hshape.nFlags⟩, hsub,
        fun _ => rfl⟩
    · refine .inr ⟨rfl, ?_⟩
      change f₁.positions key ⊆ f₁.bits
      rw [hshape.positions, hbits]
      rintro n ⟨i, hi, rfl⟩
      exact .inr ⟨i, List.mem_range.mpr hi, rfl⟩

theorem containsLoop_spec (hne : f.vData ≠ []) (key : Valtype) (is : List Nat) :
    ∃ b, f.containsLoop key is = .ok b ∧ (b = true ↔ ∀ i ∈ is, f.index i key ∈ f.bits) := by
  induction is with
  | nil => exact ⟨true, rfl, by simp⟩
  | cons i is ih =>
    obtain ⟨hhash, hlt⟩ := hash_eq hne i key
    obtain ⟨b, htest, hb⟩ := exists_testBit hlt
    obtain ⟨b', hloop, hb'⟩ := ih
    rw [containsLoop, hhash, Faulty.ok_bind, htest, Faulty.ok_bind]
    simp only [List.forall_mem_cons, ← hb, ← hb']
    cases b with
    | true => exact ⟨b', hloop, by simp⟩
    | false => exact ⟨false, rfl, by simp⟩

/-- **`contains` finds an element when its bits are there**, a full or empty filter apart. -/
theorem contains_spec (hs : f.Sound) (key : Valtype) :
    ∃ b, f.contains key = .ok b ∧ (b = true ↔ f.Holds key) := by
  unfold CBloomFilter.contains Holds
  cases hfull : f.isFull with
  | true => exact ⟨true, rfl, by simp⟩
  | false =>
    cases hempty : f.isEmpty with
    | true => exact ⟨false, rfl, by simp⟩
    | false =>
      obtain ⟨b, hloop, hb⟩ := containsLoop_spec (hs hfull) key (List.range f.nHashFuncs)
      refine ⟨b, hloop, ?_⟩
      rw [hb]
      simp [positions, Set.subset_def]

theorem contains_eq_true (hs : f.Sound) (h : f.Holds key) : f.contains key = .ok true := by
  obtain ⟨b, hcontains, hb⟩ := contains_spec hs key
  rw [hcontains, hb.mpr h]

theorem exists_matchesScript (hs : f.Sound) (pc : CScript) : ∃ b, f.matchesScript pc = .ok b := by
  induction hn : pc.length using Nat.strong_induction_on generalizing pc with
  | _ n ih =>
    subst hn
    rw [matchesScript]
    split
    · exact ⟨false, rfl⟩
    · split
      · exact ⟨false, rfl⟩
      · next opcode data pc' hop =>
        obtain ⟨b, hrest⟩ := ih _ (getOp2_length_lt hop) pc' rfl
        obtain ⟨b', hcontains, -⟩ := contains_spec hs data
        split
        · rw [hcontains, Faulty.ok_bind]
          cases b' with
          | true => exact ⟨true, rfl⟩
          | false => exact ⟨b, hrest⟩
        · exact ⟨b, hrest⟩

end CBloomFilter

/-! ## Transactions -/

/-- What a scan has inserted is reported, and under `BLOOM_UPDATE_ALL` what matched. -/
structure OutputScan.Reported (scan : OutputScan) : Prop where
  inserted : ∀ p ∈ scan.inserted, scan.filter.Holds p.serialize
  matched : scan.filter.nFlags &&& BLOOM_UPDATE_MASK = BLOOM_UPDATE_ALL →
    ∀ p ∈ scan.matched, scan.filter.Holds p.serialize

namespace CBloomFilter

variable {f f' : CBloomFilter} {key : Valtype}

/-- The scan of the outputs: each that matches is inserted where the flags ask for it, and what was
reported stays so while more is inserted. -/
theorem scanOutputs_spec (hash : Uint256) (vout : List CTxOut) {i : Nat} {scan : OutputScan}
    (hs : scan.filter.Sound) (hr : scan.Reported) :
    ∃ scan', scanOutputs hash i vout scan = .ok scan' ∧ Grows scan.filter scan'.filter ∧
      scan'.Reported := by
  induction vout generalizing i scan with
  | nil => exact ⟨scan, rfl, .refl _, hr⟩
  | cons txout vout ih =>
    obtain ⟨b, hmatch⟩ := exists_matchesScript hs txout.scriptPubKey
    rw [scanOutputs, hmatch, Faulty.ok_bind]
    cases b with
    | false => exact ih hs hr
    | true =>
      rw [if_pos rfl]
      dsimp only
      by_cases hwants : scan.filter.wantsOutPoint txout.scriptPubKey
      · obtain ⟨f, hinsert, hgrows, hholds⟩ :=
          insert_spec hs (COutPoint.serialize ⟨hash, i⟩)
        rw [if_pos hwants, hinsert, Faulty.ok_bind]
        have hr' : OutputScan.Reported
            ⟨f, scan.matched ++ [⟨hash, i⟩], scan.inserted ++ [⟨hash, i⟩]⟩ := by
          constructor
          · intro p hp
            rcases List.mem_append.mp hp with hp | hp
            · exact hgrows.holds (hr.inserted p hp)
            · obtain rfl := List.mem_singleton.mp hp
              exact hholds
          · intro hall p hp
            rcases List.mem_append.mp hp with hp | hp
            · exact hgrows.holds (hr.matched (hgrows.nFlags ▸ hall) p hp)
            · obtain rfl := List.mem_singleton.mp hp
              exact hholds
        obtain ⟨scan', hscan, hgrows', hr''⟩ := ih (i := i + 1) (hgrows.sound hs) hr'
        exact ⟨scan', hscan, hgrows.trans hgrows', hr''⟩
      · -- the flags do not say `BLOOM_UPDATE_ALL`
        rw [if_neg hwants]
        have hflags : scan.filter.nFlags &&& BLOOM_UPDATE_MASK ≠ BLOOM_UPDATE_ALL := by
          intro hall
          exact hwants (if_pos hall)
        exact ih hs ⟨hr.inserted, fun hall => absurd hall hflags⟩

theorem exists_scanInputs (hs : f.Sound) (vin : List CTxIn) :
    ∃ b, f.scanInputs vin = .ok b ∧
      ((∃ txin ∈ vin, f.Holds txin.prevout.serialize) → b = true) := by
  induction vin with
  | nil => exact ⟨false, rfl, by simp⟩
  | cons txin vin ih =>
    obtain ⟨b, hcontains, hb⟩ := contains_spec hs txin.prevout.serialize
    obtain ⟨b', hmatch⟩ := exists_matchesScript hs txin.scriptSig
    obtain ⟨b'', hrest, hb''⟩ := ih
    rw [scanInputs, hcontains, Faulty.ok_bind]
    cases b with
    | true => exact ⟨true, rfl, fun _ => rfl⟩
    | false =>
      rw [if_neg Bool.false_ne_true, hmatch, Faulty.ok_bind]
      cases b' with
      | true => exact ⟨true, rfl, fun _ => rfl⟩
      | false =>
        refine ⟨b'', hrest, ?_⟩
        rintro ⟨txin', hmem, hholds⟩
        rcases List.mem_cons.mp hmem with rfl | hmem
        · exact absurd (hb.mpr hholds) Bool.false_ne_true
        · exact hb'' ⟨txin', hmem, hholds⟩

/-- **`IsRelevantAndUpdate`**: it does not fault, the filter keeps what it had and has what it
matched, and a transaction that spends an outpoint of the filter is relevant. -/
theorem isRelevantAndUpdate_spec (hs : f.Sound) (tx : CTransaction) (hash : Uint256) :
    ∃ r, f.isRelevantAndUpdate tx hash = .ok r ∧ Grows f r.2.filter ∧ r.2.Reported ∧
      ((∃ txin ∈ tx.vin, f.Holds txin.prevout.serialize) → r.1 = true) := by
  unfold isRelevantAndUpdate
  cases hfull : f.isFull with
  | true =>
    have hreported : OutputScan.Reported
        ⟨f, (List.range tx.vout.length).map fun i => ⟨hash, i⟩, []⟩ :=
      ⟨nofun, fun _ _ _ => .inl hfull⟩
    exact ⟨_, rfl, .refl f, hreported, fun _ => rfl⟩
  | false =>
    rw [if_neg Bool.false_ne_true]
    cases hempty : f.isEmpty with
    | true =>
      refine ⟨_, rfl, .refl f, ⟨nofun, nofun⟩, ?_⟩
      rintro ⟨txin, -, hholds⟩
      -- nothing is reported by an empty filter
      rcases hholds with h | ⟨h, -⟩
      · exact absurd (hfull.symm.trans h) Bool.false_ne_true
      · exact absurd (h.symm.trans hempty) Bool.false_ne_true
    | false =>
      rw [if_neg Bool.false_ne_true]
      obtain ⟨b, hcontains, -⟩ := contains_spec hs (leBytes 32 hash)
      have hstart : OutputScan.Reported ⟨f, [], []⟩ := ⟨nofun, fun _ => nofun⟩
      obtain ⟨scan, hscan, hgrows, hreported⟩ :=
        scanOutputs_spec hash tx.vout (i := 0) (show OutputScan.filter ⟨f, [], []⟩ |>.Sound from hs)
          hstart
      rw [hcontains, Faulty.ok_bind, hscan, Faulty.ok_bind]
      cases b || !scan.matched.isEmpty with
      | true => exact ⟨_, rfl, hgrows, hreported, fun _ => rfl⟩
      | false =>
        obtain ⟨b', hinputs, hb'⟩ := exists_scanInputs (hgrows.sound hs) tx.vin
        rw [if_neg Bool.false_ne_true, hinputs, Faulty.ok_bind]
        refine ⟨_, rfl, hgrows, hreported, ?_⟩
        rintro ⟨txin, hmem, hholds⟩
        exact hb' ⟨txin, hmem, hgrows.holds hholds⟩

/-- A filter without a byte is full once `UpdateEmptyFull` has looked at it. -/
theorem sound_load (m : BloomFields) : (load m).Sound := by
  intro hfull hnil
  have hvData : m.vData = [] := hnil
  change (m.vData.all fun byte => byte == 0xff) = false at hfull
  rw [hvData] at hfull
  cases hfull

end CBloomFilter

/-! ## Runs -/

/-- Between two messages the filter is sound, and reports what it has to. -/
structure PeerFilter.Kept (st : PeerFilter) : Prop where
  sound : st.pfilter.Sound
  inserted : ∀ key ∈ st.inserted, st.pfilter.Holds key
  matched : ∀ p ∈ st.matched, st.pfilter.Holds p.serialize

theorem PeerFilter.Kept.call {st : PeerFilter} (h : st.Kept) (call : FilterCall) :
    ∃ st', st.call call = .ok st' ∧ st'.Kept := by
  cases call with
  | filterLoad m =>
    unfold PeerFilter.call
    dsimp only
    split
    · exact ⟨_, rfl, CBloomFilter.sound_load m, nofun, nofun⟩
    · exact ⟨st, rfl, h⟩
  | filterAdd vData =>
    unfold PeerFilter.call
    dsimp only
    split
    · exact ⟨st, rfl, h⟩
    · obtain ⟨f, hinsert, hgrows, hholds⟩ := CBloomFilter.insert_spec h.sound vData
      rw [hinsert]
      refine ⟨_, rfl, hgrows.sound h.sound, fun key hkey => ?_, fun p hp => ?_⟩
      · rcases List.mem_append.mp hkey with hkey | hkey
        · exact hgrows.holds (h.inserted key hkey)
        · obtain rfl := List.mem_singleton.mp hkey
          exact hholds
      · exact hgrows.holds (h.matched p hp)
  | filterClear isEmpty junk =>
    -- the new filter is full
    exact ⟨_, rfl, nofun, fun _ _ => .inl rfl, fun _ _ => .inl rfl⟩
  | relay tx hash =>
    obtain ⟨r, hrelevant, hgrows, hreported, -⟩ :=
      CBloomFilter.isRelevantAndUpdate_spec h.sound tx hash
    unfold PeerFilter.call
    dsimp only
    rw [hrelevant]
    refine ⟨_, rfl, hgrows.sound h.sound, fun key hkey => ?_, fun p hp => ?_⟩
    · rcases List.mem_append.mp hkey with hkey | hkey
      · exact hgrows.holds (h.inserted key hkey)
      · obtain ⟨p, hp, rfl⟩ := List.mem_map.mp hkey
        exact hreported.inserted p hp
    · dsimp only at hp
      split_ifs at hp with hall
      · rcases List.mem_append.mp hp with hp | hp
        · exact hgrows.holds (h.matched p hp)
        · exact hreported.matched (hgrows.nFlags ▸ hall) p hp
      · exact hgrows.holds (h.matched p hp)

theorem PeerFilter.Kept.run {st : PeerFilter} (h : st.Kept) (calls : List FilterCall) :
    ∃ st', runFilter calls st = .ok st' ∧ st'.Kept := by
  induction calls generalizing st with
  | nil => exact ⟨st, rfl, h⟩
  | cons call calls ih =>
    obtain ⟨st₁, hcall, h₁⟩ := h.call call
    obtain ⟨st', hrun, h'⟩ := ih h₁
    exact ⟨st', by rw [runFilter, hcall, Faulty.ok_bind, hrun], h'⟩

/-- **No faults and no false negatives**: from the filter a peer starts with, no sequence of its
messages and of relayed transactions divides by zero or leaves a vector. After it, every element
inserted since the last load is reported, and so is every transaction that spends an output matched
since, under `BLOOM_UPDATE_ALL`. -/
theorem runFilter_safe (isEmpty : Bool) (junk : BloomFields) (calls : List FilterCall) :
    ∃ st, runFilter calls ⟨.default isEmpty junk, [], []⟩ = .ok st ∧
      (∀ key, ∃ b, st.pfilter.contains key = .ok b) ∧
      (∀ key ∈ st.inserted, st.pfilter.contains key = .ok true) ∧
      ∀ tx hash, ∃ r, st.pfilter.isRelevantAndUpdate tx hash = .ok r ∧
        ((∃ txin ∈ tx.vin, txin.prevout ∈ st.matched) → r.1 = true) := by
  have hstart : PeerFilter.Kept ⟨.default isEmpty junk, [], []⟩ := ⟨nofun, nofun, nofun⟩
  obtain ⟨st, hrun, h⟩ := hstart.run calls
  refine ⟨st, hrun, fun key => ?_, fun key hkey => ?_, fun tx hash => ?_⟩
  · obtain ⟨b, hb, -⟩ := CBloomFilter.contains_spec h.sound key
    exact ⟨b, hb⟩
  · exact CBloomFilter.contains_eq_true h.sound (h.inserted key hkey)
  · obtain ⟨r, hr, -, -, hspent⟩ := CBloomFilter.isRelevantAndUpdate_spec h.sound tx hash
    refine ⟨r, hr, ?_⟩
    rintro ⟨txin, hmem, hmatched⟩
    exact hspent ⟨txin, hmem, h.matched _ hmatched⟩

end MotaCoin
