import MotaCoin.SpentFlags
import MotaCoin.Lib.AssocFold
import MotaCoin.WalletCoins

/-!
# Repairing the spent flags

`FixSpentCoins` compares the spent flags of a wallet with what the transaction index has, and makes
them agree. Transactions that no block has are not in the index, nor is what they spend.

## Main definitions

* `CWallet.fixSpentCoins`: the call, with its three numbers
* `CWallet.CommittedMarked`: what transactions of the chain and the pool spend is marked
* `CWallet.SpendsRecorded`: the index has what they spend

## Main results

* `CWallet.lookup_fixSpentCoins`: what the repair makes of each transaction
* `CWallet.fixSpentCoins_again`: a second call finds nothing
* `CWallet.fixSpentCoins_iff`: when what is spent stays marked
-/

namespace MotaCoin

/-! ## The call -/

/-- What `FixSpentCoins` counts. -/
structure FixCounts where
  nMismatchFound : Int
  nBalanceInQuestion : Int
  nOrphansFound : Int
  deriving DecidableEq

namespace CWalletTx

/-- `n < vSpent.size() && !vSpent[n].IsNull()`. -/
def indexSpent (vSpent : List CDiskTxPos) (n : Nat) : Bool := (vSpent[n]?).any fun pos => !pos.isNull

/-- An output is compared with the index. -/
def fixOutput (keys : OwnKeys) (vSpent : List CDiskTxPos) (fCheckOnly : Bool)
    (st : FixCounts × CWalletTx) (item : CTxOut × Nat) : FixCounts × CWalletTx :=
  let ((counts, pcoin), (txout, n)) := (st, item)
  if keys.isMine txout.scriptPubKey && pcoin.isSpent n && !indexSpent vSpent n then
    ({ counts with
        nMismatchFound := counts.nMismatchFound + 1
        nBalanceInQuestion := Int64.wrap (counts.nBalanceInQuestion + txout.nValue) },
      if fCheckOnly then pcoin else pcoin.markUnspent n)
  else if keys.isMine txout.scriptPubKey && !pcoin.isSpent n && indexSpent vSpent n then
    ({ counts with
        nMismatchFound := counts.nMismatchFound + 1
        nBalanceInQuestion := Int64.wrap (counts.nBalanceInQuestion + txout.nValue) },
      if fCheckOnly then pcoin else pcoin.markSpent n)
  else (counts, pcoin)

/-- The loop over the outputs of a transaction. -/
def fixOutputs (keys : OwnKeys) (vSpent : List CDiskTxPos) (fCheckOnly : Bool) (counts : FixCounts)
    (pcoin : CWalletTx) : FixCounts × CWalletTx :=
  pcoin.tx.vout.zipIdx.foldl (fixOutput keys vSpent fCheckOnly) (counts, pcoin)

/-- `IsCoinBase() || IsCoinStake()`. -/
def isGenerated (wtx : CWalletTx) : Bool := wtx.tx.isCoinBase || wtx.tx.isCoinStake

variable (C : Crypto) (s : NodeState)

/-- A transaction that was generated and is in no block of the chain. -/
def isOrphan (wtx : CWalletTx) : Bool :=
  wtx.isGenerated && decide ((wtx.getDepthInMainChain C s).1 ≤ 0)

/-- `vSpent` of the index of a transaction, if its flags are compared with it at all. A generated
transaction that is not in the index counts as one that nothing spends. -/
def consulted (wtx : CWalletTx) : Option (List CDiskTxPos) :=
  match s.txdb.readTxIndex (C.hashTx wtx.tx) with
  | some txindex => some txindex.vSpent
  | none => if wtx.isGenerated then some [] else none

end CWalletTx

namespace CWallet

variable (C : Crypto) (s : NodeState) (fCheckOnly : Bool)

/-- A transaction is looked at, which `mapWallet` has under a hash. -/
def fixEntry (st : FixCounts × CWallet) (entry : Uint256 × CWalletTx) : FixCounts × CWallet :=
  let ((counts, w), (key, pcoin)) := (st, entry)
  match pcoin.consulted C s with
  | none => st
  | some vSpent =>
    let (counts, wtx) := pcoin.fixOutputs w.keys vSpent fCheckOnly counts
    let w := if fCheckOnly then w else w.setTx key wtx
    if pcoin.isOrphan C s then
      ({ counts with nOrphansFound := counts.nOrphansFound + 1 },
        if fCheckOnly then w else { w with mapWallet := w.mapWallet.erase (C.hashTx pcoin.tx) })
    else (counts, w)

/-- **`FixSpentCoins`.** -/
def fixSpentCoins (w : CWallet) : FixCounts × CWallet :=
  w.entriesByHash.foldl (fixEntry C s fCheckOnly) (⟨0, 0, 0⟩, w)

/-! ## What is asked of the flags -/

/-- What the transactions of the chain and of the pool spend is marked, as far as it is the wallet's. -/
def CommittedMarked (w : CWallet) : Prop :=
  ∀ hash wtx, w.mapWallet.lookup hash = some wtx → 0 ≤ (wtx.getDepthInMainChain C s).1 →
    ∀ txin ∈ wtx.tx.vin, w.SpendMarked txin

/-- The index has that an output was spent; or the flag has it, where the index is not asked. -/
def recordedSpent (wtx : CWalletTx) (n : Nat) : Bool :=
  match wtx.consulted C s with
  | some vSpent => CWalletTx.indexSpent vSpent n
  | none => wtx.isSpent n

/-- **The spends of the transactions of the chain and of the pool are recorded**, as far as these and
what they spend are not orphans. -/
def SpendsRecorded (w : CWallet) : Prop :=
  ∀ hash wtx, w.mapWallet.lookup hash = some wtx → wtx.isOrphan C s = false →
    0 ≤ (wtx.getDepthInMainChain C s).1 → ∀ txin ∈ wtx.tx.vin, ∀ prev txout,
      w.mapWallet.lookup txin.prevout.hash = some prev → prev.isOrphan C s = false →
        prev.tx.vout[txin.prevout.n]? = some txout → w.keys.isMine txout.scriptPubKey = true →
          recordedSpent C s prev txin.prevout.n = true

end CWallet

/-! ## One transaction -/

namespace CWalletTx

variable {C : Crypto} {s : NodeState} {keys : OwnKeys} {vSpent : List CDiskTxPos} {wtx wtx' wtx'' : CWalletTx}

/-- Two transactions of the wallet that are alike but for their spent flags. -/
def FlagsOnly (wtx wtx' : CWalletTx) : Prop :=
  ∃ vfSpent nCached, wtx' = { wtx with vfSpent := vfSpent, nAvailableCreditCached := nCached }

theorem FlagsOnly.refl : FlagsOnly wtx wtx := ⟨_, _, rfl⟩

theorem FlagsOnly.trans (h : FlagsOnly wtx wtx') (h' : FlagsOnly wtx' wtx'') : FlagsOnly wtx wtx'' := by
  obtain ⟨f, c, rfl⟩ := h
  obtain ⟨f', c', rfl⟩ := h'
  exact ⟨f', c', rfl⟩

theorem FlagsOnly.setSpent (n : Nat) (fSpent : Bool) : FlagsOnly wtx (wtx.setSpent n fSpent) := by
  rw [CWalletTx.setSpent]
  split
  · exact .refl
  · exact ⟨_, _, rfl⟩

theorem FlagsOnly.tx_eq (h : FlagsOnly wtx wtx') : wtx'.tx = wtx.tx := by
  obtain ⟨f, c, rfl⟩ := h
  rfl

/-- The depth does not depend on the flags. -/
theorem FlagsOnly.depth_eq (h : FlagsOnly wtx wtx') :
    (wtx'.getDepthInMainChain C s).1 = (wtx.getDepthInMainChain C s).1 := by
  obtain ⟨f, c, rfl⟩ := h
  have hinternal : (getDepthInMainChainINTERNAL C s
      { wtx with vfSpent := f, nAvailableCreditCached := c }).1 =
        (wtx.getDepthInMainChainINTERNAL C s).1 := by
    rw [getDepthInMainChainINTERNAL, getDepthInMainChainINTERNAL]
    dsimp only
    split
    · rfl
    · split
      · rfl
      · split
        · rfl
        · split <;> rfl
  obtain ⟨g, hg⟩ := wtx.getDepthInMainChainINTERNAL_snd C s
  obtain ⟨g', hg'⟩ := getDepthInMainChainINTERNAL_snd
    { wtx with vfSpent := f, nAvailableCreditCached := c } C s
  simp only [getDepthInMainChain, hinternal, hg, hg']
  split <;> rfl

theorem FlagsOnly.consulted_eq (h : FlagsOnly wtx wtx') : wtx'.consulted C s = wtx.consulted C s := by
  rw [consulted, consulted, isGenerated, isGenerated, h.tx_eq]

/-- An output that is the wallet's gets the flag of the index, and the others keep theirs. -/
theorem fixOutput_snd {counts : FixCounts} {txout : CTxOut} {n : Nat} (hn : n < wtx.tx.vout.length) :
    FlagsOnly wtx (fixOutput keys vSpent false (counts, wtx) (txout, n)).2 ∧
      ∀ m < wtx.tx.vout.length, (fixOutput keys vSpent false (counts, wtx) (txout, n)).2.isSpent m =
        if m = n ∧ keys.isMine txout.scriptPubKey = true then indexSpent vSpent n else wtx.isSpent m := by
  rw [fixOutput]
  dsimp only
  cases hmine : keys.isMine txout.scriptPubKey with
  | false => exact ⟨.refl, fun m _ => (if_neg (by simp)).symm⟩
  | true =>
    simp only [Bool.true_and, and_true]
    cases hspent : wtx.isSpent n with
    | false =>
      cases hindex : indexSpent vSpent n with
      | false =>
        refine ⟨.refl, fun m _ => ?_⟩
        change wtx.isSpent m = if m = n then false else wtx.isSpent m
        split
        · next heq => exact heq ▸ hspent
        · rfl
      | true => exact ⟨.setSpent n true, fun m hm => isSpent_setSpent wtx hn hm true⟩
    | true =>
      cases hindex : indexSpent vSpent n with
      | false => exact ⟨.setSpent n false, fun m hm => isSpent_setSpent wtx hn hm false⟩
      | true =>
        refine ⟨.refl, fun m _ => ?_⟩
        change wtx.isSpent m = if m = n then true else wtx.isSpent m
        split
        · next heq => exact heq ▸ hspent
        · rfl

/-- **What the loop makes of a transaction**: the flags of its own outputs are those of the index. -/
theorem fixOutputs_snd (counts : FixCounts) :
    FlagsOnly wtx (wtx.fixOutputs keys vSpent false counts).2 ∧
      ∀ m txout, wtx.tx.vout[m]? = some txout →
        (wtx.fixOutputs keys vSpent false counts).2.isSpent m =
          if keys.isMine txout.scriptPubKey = true then indexSpent vSpent m else wtx.isSpent m := by
  have hlt : ∀ item ∈ wtx.tx.vout.zipIdx, item.2 < wtx.tx.vout.length := fun item hitem =>
    (List.getElem?_eq_some_iff.1 (List.mem_zipIdx_iff_getElem?.1 hitem)).1
  have hkeys : wtx.tx.vout.zipIdx.map Prod.snd = List.range wtx.tx.vout.length := by
    rw [List.zipIdx_map_snd, List.range_eq_range']
  have hkeeps : ∀ item ∈ wtx.tx.vout.zipIdx, ∀ st : FixCounts × CWalletTx, FlagsOnly wtx st.2 →
      FlagsOnly wtx (fixOutput keys vSpent false st item).2 := fun item hitem st hst =>
    hst.trans (fixOutput_snd (hst.tx_eq ▸ hlt item hitem)).1
  rw [fixOutputs]
  refine ⟨FoldAt.keeps hkeeps .refl, fun m txout hout => ?_⟩
  have hmem : (txout, m) ∈ wtx.tx.vout.zipIdx := List.mem_zipIdx_iff_getElem?.2 hout
  have hm := hlt _ hmem
  -- the flags of the outputs there are
  have hstep := @FoldAt.of_mem _ _ _ _ (fun st : FixCounts × CWalletTx => FlagsOnly wtx st.2)
    (fun st m => decide (m < wtx.tx.vout.length) && st.2.isSpent m) Prod.snd
    (fixOutput keys vSpent false) wtx.tx.vout.zipIdx
    (fun item f => if keys.isMine item.1.scriptPubKey = true then indexSpent vSpent item.2 else f)
    hkeeps (by rw [hkeys]; exact List.nodup_range) ?_ ?_ ⟨counts, wtx⟩ .refl _ hmem
  · simpa only [hm, decide_true, Bool.true_and] using hstep
  · intro item hitem st hst
    have hflag := (@fixOutput_snd keys vSpent st.2 st.1 item.1 item.2
      (hst.tx_eq ▸ hlt item hitem)).2 item.2 (hst.tx_eq ▸ hlt item hitem)
    simp only [hlt item hitem, decide_true, Bool.true_and]
    rw [hflag]
    simp only [true_and]
  · intro item hitem st hst m hne
    by_cases hm : m < wtx.tx.vout.length
    · have hflag := (@fixOutput_snd keys vSpent st.2 st.1 item.1 item.2
        (hst.tx_eq ▸ hlt item hitem)).2 m (hst.tx_eq ▸ hm)
      rw [hflag, if_neg fun h => hne h.1]
    · simp only [hm, decide_false, Bool.false_and]

/-- Flags that agree with the index are left alone, and nothing is counted. -/
theorem fixOutputs_of_agrees {fCheckOnly : Bool} (counts : FixCounts)
    (h : ∀ m txout, wtx.tx.vout[m]? = some txout → keys.isMine txout.scriptPubKey = true →
      wtx.isSpent m = indexSpent vSpent m) :
    wtx.fixOutputs keys vSpent fCheckOnly counts = (counts, wtx) := by
  have hstep : ∀ item ∈ wtx.tx.vout.zipIdx, ∀ st : FixCounts × CWalletTx, st = (counts, wtx) →
      fixOutput keys vSpent fCheckOnly st item = (counts, wtx) := by
    rintro ⟨txout, n⟩ hitem _ rfl
    have hagree := h n txout (List.mem_zipIdx_iff_getElem?.1 hitem)
    rw [fixOutput]
    dsimp only
    cases hmine : keys.isMine txout.scriptPubKey with
    | false => rfl
    | true =>
      rw [hagree hmine]
      cases indexSpent vSpent n <;> rfl
  exact FoldAt.keeps hstep rfl

end CWalletTx

/-! ## The wallet -/

namespace CWallet

variable {C : Crypto} {s : NodeState} {w : CWallet} {hash : Uint256} {wtx : CWalletTx}

/-- What the repair makes of a transaction, with a wallet of these keys. -/
def repaired (C : Crypto) (s : NodeState) (keys : OwnKeys) (wtx : CWalletTx) : Option CWalletTx :=
  match wtx.consulted C s with
  | none => some wtx
  | some vSpent =>
    if wtx.isOrphan C s then none else some (wtx.fixOutputs keys vSpent false ⟨0, 0, 0⟩).2

theorem fixEntry_keys (st : FixCounts × CWallet) (entry : Uint256 × CWalletTx) :
    (fixEntry C s false st entry).2.keys = st.2.keys := by
  rw [fixEntry]
  dsimp only
  split
  · rfl
  · split <;> rfl

/-- What a transaction becomes does not depend on what was counted before. -/
theorem fixOutputs_snd_eq (keys : OwnKeys) (vSpent : List CDiskTxPos) (counts counts' : FixCounts)
    (wtx : CWalletTx) :
    (wtx.fixOutputs keys vSpent false counts).2 = (wtx.fixOutputs keys vSpent false counts').2 := by
  have hfold : ∀ (items : List (CTxOut × Nat)) (counts counts' : FixCounts) (pcoin : CWalletTx),
      (items.foldl (CWalletTx.fixOutput keys vSpent false) (counts, pcoin)).2 =
        (items.foldl (CWalletTx.fixOutput keys vSpent false) (counts', pcoin)).2 := by
    intro items
    induction items with
    | nil => exact fun _ _ _ => rfl
    | cons item items ih =>
      intro counts counts' pcoin
      rw [List.foldl_cons, List.foldl_cons, CWalletTx.fixOutput, CWalletTx.fixOutput]
      dsimp only
      split
      · exact ih _ _ _
      · split
        · exact ih _ _ _
        · exact ih _ _ _
  exact hfold _ _ _ _

theorem lookup_fixEntry_self (st : FixCounts × CWallet) (hhash : C.hashTx wtx.tx = hash) :
    (fixEntry C s false st (hash, wtx)).2.mapWallet.lookup hash =
      match wtx.consulted C s with
      | none => st.2.mapWallet.lookup hash
      | some vSpent =>
        if wtx.isOrphan C s then none
        else some (wtx.fixOutputs st.2.keys vSpent false ⟨0, 0, 0⟩).2 := by
  rw [fixEntry]
  dsimp only
  cases wtx.consulted C s with
  | none => rfl
  | some vSpent =>
    dsimp only
    rw [if_neg Bool.false_ne_true, if_neg Bool.false_ne_true]
    split
    · rw [hhash]
      exact AList.lookup_erase _ _
    · rw [fixOutputs_snd_eq _ _ ⟨0, 0, 0⟩ st.1]
      exact AList.lookup_insert _

theorem lookup_fixEntry_of_ne (st : FixCounts × CWallet) (hhash : C.hashTx wtx.tx = hash)
    {k : Uint256} (hne : k ≠ hash) :
    (fixEntry C s false st (hash, wtx)).2.mapWallet.lookup k = st.2.mapWallet.lookup k := by
  rw [fixEntry]
  dsimp only
  cases wtx.consulted C s with
  | none => rfl
  | some vSpent =>
    dsimp only
    rw [if_neg Bool.false_ne_true, if_neg Bool.false_ne_true]
    split
    · rw [hhash]
      exact (AList.lookup_erase_ne hne).trans (AList.lookup_insert_ne hne)
    · exact AList.lookup_insert_ne hne

theorem keys_fixSpentCoins (w : CWallet) : (w.fixSpentCoins C s false).2.keys = w.keys :=
  FoldAt.keeps (P := fun st : FixCounts × CWallet => st.2.keys = w.keys)
    (fun entry _ st hst => (fixEntry_keys st entry).trans hst) rfl

/-- **What the repair makes of each transaction.** -/
theorem lookup_fixSpentCoins (hkeyed : Keyed C w) (hash : Uint256) :
    (w.fixSpentCoins C s false).2.mapWallet.lookup hash =
      (w.mapWallet.lookup hash).bind (repaired C s w.keys) := by
  have hkeeps : ∀ entry ∈ w.entriesByHash, ∀ st : FixCounts × CWallet, st.2.keys = w.keys →
      (fixEntry C s false st entry).2.keys = w.keys := fun entry _ st hst =>
    (fixEntry_keys st entry).trans hst
  have hother : ∀ entry ∈ w.entriesByHash, ∀ st : FixCounts × CWallet, st.2.keys = w.keys →
      ∀ k, k ≠ entry.1 →
        (fixEntry C s false st entry).2.mapWallet.lookup k = st.2.mapWallet.lookup k :=
    fun entry hentry st _ k hne =>
      lookup_fixEntry_of_ne st (hkeyed _ _ (mem_entriesByHash.1 hentry)) hne
  cases hlookup : w.mapWallet.lookup hash with
  | none =>
    have hout : hash ∉ w.entriesByHash.map Prod.fst := by
      intro hmem
      obtain ⟨⟨k, wtx⟩, hentry, rfl⟩ := List.mem_map.1 hmem
      rw [mem_entriesByHash.1 hentry] at hlookup
      cases hlookup
    exact (@FoldAt.of_notMem _ _ _ _ (fun st : FixCounts × CWallet => st.2.keys = w.keys)
      (fun st k => st.2.mapWallet.lookup k) Prod.fst (fixEntry C s false) w.entriesByHash
      hkeeps hother ⟨_, w⟩ rfl hash hout).trans hlookup
  | some wtx =>
    have hentry : (hash, wtx) ∈ w.entriesByHash := mem_entriesByHash.2 hlookup
    have hstep := @FoldAt.of_mem _ _ _ _ (fun st : FixCounts × CWallet => st.2.keys = w.keys)
      (fun (st : FixCounts × CWallet) k => st.2.mapWallet.lookup k) Prod.fst (fixEntry C s false)
      w.entriesByHash (fun entry before => match entry.2.consulted C s with
        | none => before
        | some vSpent =>
          if entry.2.isOrphan C s then none
          else some (entry.2.fixOutputs w.keys vSpent false ⟨0, 0, 0⟩).2)
      hkeeps (nodup_entriesByHash w) ?_ hother (⟨0, 0, 0⟩, w) rfl _ hentry
    · refine hstep.trans ?_
      rw [Option.bind_some, repaired]
      cases wtx.consulted C s with
      | none => exact hlookup
      | some vSpent => rfl
    · intro entry hentry st hst
      rw [lookup_fixEntry_self st (hkeyed _ _ (mem_entriesByHash.1 hentry)), hst]

/-- What stays of a wallet is no orphan, and its own outputs are marked as is recorded. -/
theorem repaired_eq_some {keys : OwnKeys} {wtx' : CWalletTx} (h : repaired C s keys wtx = some wtx') :
    CWalletTx.FlagsOnly wtx wtx' ∧ wtx.isOrphan C s = false ∧
      ∀ m txout, wtx.tx.vout[m]? = some txout → keys.isMine txout.scriptPubKey = true →
        wtx'.isSpent m = recordedSpent C s wtx m := by
  rw [repaired] at h
  unfold recordedSpent
  cases hconsulted : wtx.consulted C s with
  | none =>
    rw [hconsulted] at h
    obtain rfl := Option.some.inj h
    refine ⟨.refl, ?_, fun _ _ _ _ => rfl⟩
    -- it was not generated
    rw [CWalletTx.consulted] at hconsulted
    rw [CWalletTx.isOrphan]
    cases hgenerated : wtx.isGenerated with
    | false => rfl
    | true =>
      rw [hgenerated] at hconsulted
      split at hconsulted <;> cases hconsulted
  | some vSpent =>
    rw [hconsulted] at h
    dsimp only at h
    split at h
    · cases h
    · next horphan =>
      obtain rfl := Option.some.inj h
      obtain ⟨hflags, hspent⟩ := @CWalletTx.fixOutputs_snd keys vSpent wtx ⟨0, 0, 0⟩
      refine ⟨hflags, Bool.eq_false_iff.2 horphan, fun m txout hout hmine => ?_⟩
      rw [hspent m txout hout, if_pos hmine]

/-- What is no orphan stays. -/
theorem exists_repaired (keys : OwnKeys) (horphan : wtx.isOrphan C s = false) :
    ∃ wtx', repaired C s keys wtx = some wtx' := by
  rw [repaired]
  cases wtx.consulted C s with
  | none => exact ⟨_, rfl⟩
  | some vSpent =>
    dsimp only
    rw [horphan, if_neg Bool.false_ne_true]
    exact ⟨_, rfl⟩

/-- The repaired wallet agrees with the index wherever that is asked. -/
theorem agrees_fixSpentCoins (hkeyed : Keyed C w) {wtx' : CWalletTx}
    (hlookup : (w.fixSpentCoins C s false).2.mapWallet.lookup hash = some wtx')
    {vSpent : List CDiskTxPos} (hconsulted : wtx'.consulted C s = some vSpent) {m : Nat}
    {txout : CTxOut} (hout : wtx'.tx.vout[m]? = some txout)
    (hmine : w.keys.isMine txout.scriptPubKey = true) :
    wtx'.isSpent m = CWalletTx.indexSpent vSpent m := by
  rw [lookup_fixSpentCoins hkeyed] at hlookup
  obtain ⟨wtx, -, hrepaired⟩ := Option.bind_eq_some_iff.1 hlookup
  obtain ⟨hflags, -, hspent⟩ := repaired_eq_some hrepaired
  rw [hflags.tx_eq] at hout
  rw [hspent m txout hout hmine, recordedSpent, ← hflags.consulted_eq, hconsulted]

/-- **A second call finds nothing.** -/
theorem fixSpentCoins_again (hkeyed : Keyed C w) (fCheckOnly : Bool) :
    ((w.fixSpentCoins C s false).2.fixSpentCoins C s fCheckOnly).1.nMismatchFound = 0 := by
  have hkeys : (w.fixSpentCoins C s false).2.keys = w.keys := keys_fixSpentCoins w
  have hagrees := @agrees_fixSpentCoins C s w
  generalize (w.fixSpentCoins C s false).2 = w' at hkeys hagrees ⊢
  refine (FoldAt.keeps (P := fun st : FixCounts × CWallet =>
    st.2.keys = w.keys ∧ st.1.nMismatchFound = 0) ?_ ⟨hkeys, rfl⟩).2
  rintro ⟨key, wtx'⟩ hentry ⟨counts, w''⟩ ⟨hst, hzero⟩
  have hlookup := mem_entriesByHash.1 hentry
  rw [fixEntry]
  dsimp only at hst hzero ⊢
  cases hconsulted : wtx'.consulted C s with
  | none => exact ⟨hst, hzero⟩
  | some vSpent =>
    have hsame : wtx'.fixOutputs w''.keys vSpent fCheckOnly counts = (counts, wtx') :=
      CWalletTx.fixOutputs_of_agrees counts fun m txout hout hmine =>
        hagrees hkeyed hlookup hconsulted hout (hst ▸ hmine)
    dsimp only
    rw [hsame]
    cases fCheckOnly <;> split <;> exact ⟨hst, hzero⟩

/-- **When what is spent stays marked**: what the transactions of the chain and of the pool spend is
recorded. -/
theorem fixSpentCoins_iff (hkeyed : Keyed C w) :
    (CommittedMarked C s (w.fixSpentCoins C s false).2 ∧
      ∀ fCheckOnly,
        ((w.fixSpentCoins C s false).2.fixSpentCoins C s fCheckOnly).1.nMismatchFound = 0) ↔
      SpendsRecorded C s w := by
  have hlookup := @lookup_fixSpentCoins C s w hkeyed
  have hkeys : (w.fixSpentCoins C s false).2.keys = w.keys := keys_fixSpentCoins w
  constructor
  · rintro ⟨hmarked, -⟩ hash wtx hwtx horphan hdepth txin htxin prev txout hprev hprevOrphan hout hmine
    obtain ⟨wtx', hwtx'⟩ := exists_repaired w.keys horphan
    obtain ⟨prev', hprev'⟩ := exists_repaired w.keys hprevOrphan
    obtain ⟨hflags, -, -⟩ := repaired_eq_some hwtx'
    obtain ⟨hprevFlags, -, hspent⟩ := repaired_eq_some hprev'
    have hmark := hmarked hash wtx' (by rw [hlookup, hwtx, Option.bind_some, hwtx'])
      (hflags.depth_eq ▸ hdepth) txin (hflags.tx_eq ▸ htxin) prev' txout
      (by rw [hlookup, hprev, Option.bind_some, hprev']) (hprevFlags.tx_eq ▸ hout) (hkeys ▸ hmine)
    rw [← hspent _ txout hout hmine]
    exact hmark
  · intro hrecorded
    refine ⟨fun hash wtx' hwtx' hdepth txin htxin prev' txout hprev' hout hmine => ?_,
      fixSpentCoins_again hkeyed⟩
    rw [hlookup] at hwtx' hprev'
    obtain ⟨wtx, hwtx, hrepaired⟩ := Option.bind_eq_some_iff.1 hwtx'
    obtain ⟨prev, hprev, hprevRepaired⟩ := Option.bind_eq_some_iff.1 hprev'
    obtain ⟨hflags, horphan, -⟩ := repaired_eq_some hrepaired
    obtain ⟨hprevFlags, hprevOrphan, hspent⟩ := repaired_eq_some hprevRepaired
    rw [hprevFlags.tx_eq] at hout
    rw [hkeys] at hmine
    rw [hspent _ txout hout hmine]
    exact hrecorded hash wtx hwtx horphan (hflags.depth_eq ▸ hdepth) txin (hflags.tx_eq ▸ htxin) prev
      txout hprev hprevOrphan hout hmine

end CWallet

/-! ## A payment that is pending -/

/-- A node with the payment to the wallet in its index, which says what its outputs were spent by,
and what the wallet makes of it in its pool. -/
noncomputable def pendingNode (vSpent : List CDiskTxPos) : NodeState :=
  { storedNode incomeCrypto [] with
    mempool := ⟨AList.insert 2 purchaseTx ∅, ∅⟩
    txdb := ⟨fun
      | .tx hash => if hash = 1 then some ⟨⟨1, 8, 100⟩, vSpent⟩ else none
      | _ => none, none⟩ }

/-- The wallet with both, where the payment is marked as spent. -/
def pendingWallet : CWallet :=
  { newWallet with
    mapWallet := AList.insert 2 (CWalletTx.ofTx purchaseTx)
      (AList.insert 1 { CWalletTx.ofTx incomeTx with vfSpent := [true] } ∅) }

theorem lookup_pendingWallet {hash : Uint256} {wtx : CWalletTx}
    (h : pendingWallet.mapWallet.lookup hash = some wtx) :
    hash = 2 ∧ wtx = .ofTx purchaseTx ∨
      hash = 1 ∧ wtx = { CWalletTx.ofTx incomeTx with vfSpent := [true] } := by
  have hentries : pendingWallet.mapWallet.entries =
      [⟨2, CWalletTx.ofTx purchaseTx⟩, ⟨1, { CWalletTx.ofTx incomeTx with vfSpent := [true] }⟩] := rfl
  rw [← Option.mem_def, AList.mem_lookup_iff, hentries, List.mem_cons, List.mem_singleton] at h
  rcases h with h | h
  · cases h
    exact .inl ⟨rfl, rfl⟩
  · cases h
    exact .inr ⟨rfl, rfl⟩

theorem keyed_pendingWallet : pendingWallet.Keyed incomeCrypto := by
  intro hash wtx h
  rcases lookup_pendingWallet h with ⟨rfl, rfl⟩ | ⟨rfl, rfl⟩
  · decide +kernel
  · decide +kernel

/-- Once the index has what spends the payment, the repair leaves it marked. -/
theorem committedMarked_settled :
    CWallet.CommittedMarked incomeCrypto (pendingNode [⟨1, 9, 100⟩])
        (pendingWallet.fixSpentCoins incomeCrypto (pendingNode [⟨1, 9, 100⟩]) false).2 ∧
      ∀ fCheckOnly, ((pendingWallet.fixSpentCoins incomeCrypto (pendingNode [⟨1, 9, 100⟩]) false).2
        |>.fixSpentCoins incomeCrypto (pendingNode [⟨1, 9, 100⟩]) fCheckOnly).1.nMismatchFound = 0 := by
  refine (CWallet.fixSpentCoins_iff keyed_pendingWallet).2 ?_
  intro hash wtx hwtx _ _ txin htxin prev txout hprev _ hout hmine
  rcases lookup_pendingWallet hprev with ⟨hhash, rfl⟩ | ⟨-, rfl⟩
  · -- nothing spends what is left of the payment
    rcases lookup_pendingWallet hwtx with ⟨-, rfl⟩ | ⟨-, rfl⟩
    · obtain rfl := List.mem_singleton.1 htxin
      exact absurd hhash (by decide)
    · obtain rfl := List.mem_singleton.1 htxin
      exact absurd hhash (by decide)
  · have hn : txin.prevout.n = 0 := by
      have hlt := (List.getElem?_eq_some_iff.1 hout).1
      exact Nat.lt_one_iff.1 hlt
    rw [hn]
    decide +kernel

/-- The payment is spent by a transaction that is pending, and the repair marks it as unspent. -/
theorem not_committedMarked_pending :
    ¬∀ (C : Crypto) (s : NodeState) (w : CWallet), w.Keyed C →
      CWallet.CommittedMarked C s (w.fixSpentCoins C s false).2 ∧
        ∀ fCheckOnly,
          ((w.fixSpentCoins C s false).2.fixSpentCoins C s fCheckOnly).1.nMismatchFound = 0 := by
  intro hall
  have hmarked := (hall incomeCrypto (pendingNode [CDiskTxPos.null]) pendingWallet
    keyed_pendingWallet).1
  set w := (pendingWallet.fixSpentCoins incomeCrypto (pendingNode [CDiskTxPos.null]) false).2 with hw
  have hstate : (w.mapWallet.lookup 2).map (fun wtx =>
        (wtx.tx, (wtx.getDepthInMainChain incomeCrypto (pendingNode [CDiskTxPos.null])).1)) =
        some (purchaseTx, 0) ∧
      (w.mapWallet.lookup 1).map (fun wtx => (wtx.tx, wtx.isSpent 0)) = some (incomeTx, false) ∧
        w.keys.isMine ownScript = true := by
    rw [hw]
    decide +kernel
  obtain ⟨hspending, hpayment, hmine⟩ := hstate
  obtain ⟨wtx, hlookup, hpending⟩ := Option.map_eq_some_iff.1 hspending
  obtain ⟨htx, hdepth⟩ := Prod.mk.inj hpending
  obtain ⟨prev, hprev, hflags⟩ := Option.map_eq_some_iff.1 hpayment
  obtain ⟨hprevtx, hunspent⟩ := Prod.mk.inj hflags
  have hspent := hmarked 2 wtx hlookup hdepth.ge ⟨⟨1, 0⟩, [], 4294967295⟩ (htx ▸ List.mem_cons_self)
    prev ⟨50000, ownScript⟩ hprev (hprevtx ▸ rfl) hmine
  exact absurd (hunspent.symm.trans hspent) Bool.false_ne_true

end MotaCoin
