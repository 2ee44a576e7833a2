import MotaCoin.Filed
import MotaCoin.Stored

/-!
# No inflation by the aggregate rule

`AcceptBlock` and `ConnectBlock` each sum the inputs and outputs of a block, from the index that is
active when the block arrives and from the queued changes of the branch it is connected on. Both
look an output up by the hash of its transaction, so they see the same values, and the bound that
`AcceptBlock` puts on its sums is a bound on the money supply that `ConnectBlock` records.

## Main definitions

* `NamedBy`: a fetched map holds each transaction under its own hash

## Main results

* `fetchInputs_namedBy`: what `FetchInputs` leaves behind is named, also when it fails
* `connectTxs_aggregate`: the two sums agree
* `connectBlock_moneySupply_le`: an accepted block above height 701720 mints at most the subsidy
-/

namespace MotaCoin

variable {C : Crypto} {env : Env}

/-! ## Values by hash -/

variable (C) in
/-- Every entry of a fetched map is the transaction with the hash it is under, or has no outputs:
`FetchInputs` leaves an empty transaction behind where it fails. -/
def NamedBy (inputs : MapPrevTx) : Prop :=
  ∀ hash r, inputs hash = some r → r.2.vout = [] ∨ C.hashTx r.2 = hash

variable (C) in
/-- What the index with the queued changes leads to, on disk or in the memory pool, is named by its
hash. -/
def SourcesNamed (src : Sources) (q : TxIndexQueue) : Prop :=
  ∀ hash r, overlay src.readTxIndex q hash = some r → ∀ tx,
    (if r.pos = CDiskTxPos.memPool then src.memPool hash else src.readTx r.pos) = some tx →
    C.hashTx tx = hash

theorem SourcesNamed.of_filed {src : Sources} {q : TxIndexQueue}
    {F : Uint256 → CDiskTxPos → Nat → Prop} (hq : IndexFiled F (overlay src.readTxIndex q))
    (hF : ∀ hash pos n, F hash pos n → pos ≠ CDiskTxPos.memPool ∧
      ∀ tx, src.readTx pos = some tx → C.hashTx tx = hash ∧ tx.vout.length = n) :
    SourcesNamed C src q := by
  intro hash r hr tx htx
  obtain ⟨hpos, hread⟩ := hF _ _ _ (hq hash r hr)
  rw [if_neg hpos] at htx
  exact (hread tx htx).1

theorem Filed.sourcesNamed {s : NodeState} (env : Env) (hs : Filed C s) :
    SourcesNamed C (s.sources env) ∅ := by
  refine SourcesNamed.of_filed ?_ fun hash pos n hpos => hs.readTx env hpos
  rw [overlay_empty, s.sources_readTxIndex]
  exact hs.view

section Leftovers

variable {src : Sources} {q : TxIndexQueue} {fBlock fMiner : Bool}
  {R : Uint256 → CTxIndex × CTransaction → Prop}

theorem fetchLoop_forall (h : ∀ hash, R hash (CTransaction.fetchPrev src q fBlock fMiner hash).2)
    (vin : List CTxIn) {inputs : MapPrevTx} (hin : ∀ hash r, inputs hash = some r → R hash r) :
    ∀ hash r, (CTransaction.fetchLoop src q fBlock fMiner vin inputs).2 hash = some r →
      R hash r := by
  induction vin generalizing inputs with
  | nil => exact hin
  | cons txin vin ih =>
    have hupdate : ∀ hash r, Function.update inputs txin.prevout.hash
        (some (CTransaction.fetchPrev src q fBlock fMiner txin.prevout.hash).2) hash = some r →
        R hash r := by
      intro hash r hr
      by_cases hh : hash = txin.prevout.hash
      · subst hh
        rw [Function.update_self] at hr
        obtain rfl := Option.some.inj hr
        exact h _
      · rw [Function.update_of_ne hh] at hr
        exact hin hash r hr
    simp only [CTransaction.fetchLoop]
    split
    · exact ih hin
    · split
      · exact ih hupdate
      · exact hupdate

/-- What holds of every fetched entry holds of all that `FetchInputs` leaves behind, whether it
succeeds or not. -/
theorem fetchInputs_forall (h : ∀ hash, R hash (CTransaction.fetchPrev src q fBlock fMiner hash).2)
    (tx : CTransaction) :
    ∀ hash r, (tx.fetchInputs src q fBlock fMiner).inputsRet hash = some r → R hash r := by
  have hnone : ∀ (hash : Uint256) (r : CTxIndex × CTransaction), none = some r → R hash r :=
    fun _ _ hr => by cases hr
  have hloop := fetchLoop_forall h tx.vin hnone
  unfold CTransaction.fetchInputs
  split
  · exact hnone
  · simp only
    split
    · exact hloop
    · split
      · exact hloop
      · exact hloop

theorem getMapTxInputs_forall (h : ∀ hash, R hash (CTransaction.fetchPrev src ∅ true false hash).2)
    (tx : CTransaction) :
    ∀ hash r, (tx.getMapTxInputs src true false).2 hash = some r → R hash r := by
  have hfetch := fetchInputs_forall h tx
  unfold CTransaction.getMapTxInputs
  simp only
  split
  · exact hfetch
  · exact hfetch

end Leftovers

section Fetching

variable {src : Sources} {q : TxIndexQueue} {fBlock fMiner : Bool}
  (hf : (fBlock || fMiner) = true) (hsrc : SourcesNamed C src q)
include hf hsrc

theorem fetchPrev_named (hash : Uint256) :
    (CTransaction.fetchPrev src q fBlock fMiner hash).2.2.vout = [] ∨
      C.hashTx (CTransaction.fetchPrev src q fBlock fMiner hash).2.2 = hash := by
  unfold CTransaction.fetchPrev
  rw [lookupTxIndex_eq src q hf]
  cases ho : overlay src.readTxIndex q hash with
  | none =>
    rw [if_pos hf]
    exact Or.inl rfl
  | some txindex =>
    have hnamed := hsrc hash txindex ho
    by_cases hpos : txindex.pos = CDiskTxPos.memPool
    · rw [if_pos hpos] at hnamed
      simp only [if_pos hpos]
      cases hm : src.memPool hash with
      | none => exact Or.inl rfl
      | some txPrev => exact Or.inr (hnamed txPrev hm)
    · rw [if_neg hpos] at hnamed
      simp only [if_neg hpos]
      cases hr : src.readTx txindex.pos with
      | none => exact Or.inl rfl
      | some txPrev => exact Or.inr (hnamed txPrev hr)

/-- **What `FetchInputs` leaves behind is named by hash**, whether it succeeds or not. -/
theorem fetchInputs_namedBy (tx : CTransaction) :
    NamedBy C (tx.fetchInputs src q fBlock fMiner).inputsRet :=
  fetchInputs_forall (fetchPrev_named hf hsrc) tx

end Fetching

theorem getMapTxInputs_namedBy {src : Sources} (hsrc : SourcesNamed C src ∅) (tx : CTransaction) :
    NamedBy C (tx.getMapTxInputs src true false).2 :=
  getMapTxInputs_forall (fetchPrev_named (Bool.or_false true) hsrc) tx

section Values

variable (hinj : HashInjective C) {inputs inputs' : MapPrevTx} (hin : NamedBy C inputs)
  (hin' : NamedBy C inputs')
include hinj hin hin'

/-- An input has one value, whatever index it was looked up in. -/
theorem getOutputFor_unique {txin : CTxIn} {o o' : CTxOut}
    (h : CTransaction.getOutputFor txin inputs = some o)
    (h' : CTransaction.getOutputFor txin inputs' = some o') : o = o' := by
  have hname : ∀ {inputs : MapPrevTx} {o : CTxOut}, NamedBy C inputs →
      CTransaction.getOutputFor txin inputs = some o →
      ∃ txPrev, C.hashTx txPrev = txin.prevout.hash ∧ txPrev.vout[txin.prevout.n]? = some o := by
    intro inputs o hin h
    unfold CTransaction.getOutputFor at h
    split at h
    · cases h
    · next txindex txPrev hr =>
      rcases hin _ _ hr with hempty | hhash
      · simp only at hempty
        rw [hempty] at h
        cases h
      · exact ⟨txPrev, hhash, h⟩
  obtain ⟨tx, htx, ho⟩ := hname hin h
  obtain ⟨tx', htx', ho'⟩ := hname hin' h'
  obtain rfl := hinj.hashTx (htx.trans htx'.symm)
  exact Option.some.inj (ho.symm.trans ho')

theorem getValueMapInFrom_unique {vin : List CTxIn} :
    ∀ {nResult v v' : Int}, CTransaction.getValueMapInFrom inputs nResult vin = some v →
      CTransaction.getValueMapInFrom inputs' nResult vin = some v' → v = v' := by
  induction vin with
  | nil =>
    intro nResult v v' h h'
    exact Option.some.inj (h.symm.trans h')
  | cons txin vin ih =>
    intro nResult v v' h h'
    rw [CTransaction.getValueMapInFrom] at h h'
    split at h
    · cases h
    · next o ho =>
      split at h'
      · cases h'
      · next o' ho' =>
        obtain rfl := getOutputFor_unique hinj hin hin' ho ho'
        exact ih h h'

theorem getValueMapIn_unique {tx : CTransaction} {v v' : Int}
    (h : tx.getValueMapIn inputs = some v) (h' : tx.getValueMapIn inputs' = some v') : v = v' := by
  unfold CTransaction.getValueMapIn at h h'
  split at h
  · next hcb =>
    rw [if_pos hcb] at h'
    exact Option.some.inj (h.symm.trans h')
  · next hcb =>
    rw [if_neg hcb] at h'
    exact getValueMapInFrom_unique hinj hin hin' h h'

end Values

/-! ## The two sums -/

/-- What a round of the aggregate rule did. -/
theorem aggregateFrom_cons {src : Sources} {tx : CTransaction} {vtx : List CTransaction}
    {i o I O : Int} (h : aggregateFrom src (tx :: vtx) i o = .totals I O) :
    ∃ vi vo, tx.getValueMapIn (tx.getMapTxInputs src true false).2 = some vi ∧
      tx.getValueOut = some vo ∧ 0 ≤ Int64.wrap (i + vi) ∧ 0 ≤ Int64.wrap (o + vo) ∧
      aggregateFrom src vtx (Int64.wrap (i + vi)) (Int64.wrap (o + vo)) = .totals I O := by
  rw [aggregateFrom] at h
  split at h
  · cases h
  · split at h
    · next vi vo hvi hvo =>
      split at h
      · cases h
      · split at h
        · cases h
        · exact ⟨vi, vo, hvi, hvo, by omega, by omega, h⟩
    · cases h

/-- The sums the aggregate rule ends with are words that passed its overflow tests. -/
theorem aggregateFrom_range {src : Sources} {vtx : List CTransaction} :
    ∀ {i o I O : Int}, 0 ≤ i → i < 2 ^ 63 → 0 ≤ o → o < 2 ^ 63 →
      aggregateFrom src vtx i o = .totals I O → 0 ≤ I ∧ I < 2 ^ 63 ∧ 0 ≤ O ∧ O < 2 ^ 63 := by
  induction vtx with
  | nil =>
    intro i o I O hi hi' ho ho' h
    cases h
    exact ⟨hi, hi', ho, ho'⟩
  | cons tx vtx ih =>
    intro i o I O _ _ _ _ h
    obtain ⟨vi, vo, -, -, hi, ho, hrest⟩ := aggregateFrom_cons h
    exact ih hi (Int64.inRange_wrap _).2 ho (Int64.inRange_wrap _).2 hrest

/-- **The sums of `AcceptBlock` and `ConnectBlock` agree**, whatever indexes they were taken from:
the first one sees the active index `src`, the second one its queue over the index of `src'`. -/
theorem connectTxs_aggregate {src src' : Sources} {ctx : CTransaction.ConnectCtx}
    {F : Uint256 → CDiskTxPos → Nat → Prop} (hinj : HashInjective C)
    (hsrc : SourcesNamed C src ∅)
    (hF : ∀ hash pos n, F hash pos n → pos ≠ CDiskTxPos.memPool ∧
      ∀ tx, src'.readTx pos = some tx → C.hashTx tx = hash ∧ tx.vout.length = n)
    {txs : List (CTransaction × CDiskTxPos)} :
    ∀ {t t' : ConnectTotals} {I O : Int},
      IndexFiled F (overlay src'.readTxIndex t.mapQueuedChanges) →
      (∀ p ∈ txs, F (C.hashTx p.1) p.2 p.1.vout.length) → Int64.InRange t.nValueIn →
      connectTxs C src' ctx txs t = some t' →
      aggregateFrom src (txs.map Prod.fst) t.nValueIn t.nValueOut = .totals I O →
      t'.nValueIn = I ∧ t'.nValueOut = O := by
  induction txs with
  | nil =>
    intro t t' I O _ _ _ h hagg
    obtain rfl := Option.some.inj h
    cases hagg
    exact ⟨rfl, rfl⟩
  | cons p txs ih =>
    intro t t' I O hq htxs hrange h hagg
    obtain ⟨vi, vo, hvi, hvo, -, -, hrest⟩ := aggregateFrom_cons hagg
    rw [connectTxs] at h
    split at h
    · cases h
    · next t₁ ht₁ =>
      have hq₁ := connectTx_filed hq (htxs p List.mem_cons_self) ht₁
      obtain ⟨nTxValueOut, q, hout, -, hout₁, hcases⟩ := connectTx_cases ht₁
      obtain rfl := Option.some.inj (hout.symm.trans hvo)
      -- both rounds add the same value to the inputs
      have hin₁ : t₁.nValueIn = Int64.wrap (t.nValueIn + vi) := by
        rcases hcases with ⟨hcb, -, hin₁, -⟩ | ⟨-, nTxValueIn, -, hvi', -, hin₁, -⟩
        · rw [CTransaction.getValueMapIn, if_pos hcb] at hvi
          obtain rfl := Option.some.inj hvi
          rw [hin₁, add_zero, Int64.wrap_eq_self hrange]
        · have hnamed := fetchInputs_namedBy (Bool.or_false true)
            (SourcesNamed.of_filed hq hF) p.1
          obtain rfl := getValueMapIn_unique hinj hnamed (getMapTxInputs_namedBy hsrc p.1) hvi' hvi
          exact hin₁
      rw [← hin₁, ← hout₁] at hrest
      exact ih hq₁ (fun p' hp' => htxs p' (List.mem_cons_of_mem _ hp'))
        (hin₁ ▸ Int64.inRange_wrap _) h hrest

/-! ## The aggregate rule -/

/-- **The rules of `AcceptBlock`**, for a block whose parent is in the tree. -/
theorem acceptChecks_isSome_iff {s : NodeState} {b : CBlock} {pindexPrev : CBlockIndex}
    (hprev : s.mapBlockIndex b.hashPrevBlock = some pindexPrev) :
    (s.acceptChecks C env b).isSome = true ↔
      s.mapBlockIndex (b.getHash C) = none ∧ s.checkHeader b pindexPrev = true ∧
      s.checkAggregate env b (pindexPrev.nHeight + 1) = true ∧
      checkHardened (pindexPrev.nHeight + 1) (b.getHash C) = true ∧
      (s.checkKernel C env b).isSome = true ∧
      (env.checkpointsMode = .strict → s.checkSync (b.getHash C) pindexPrev = true) ∧
      checkCoinbaseHeight b (pindexPrev.nHeight + 1) = true := by
  have hsync : (env.checkpointsMode = .strict → s.checkSync (b.getHash C) pindexPrev = true) ↔
      ¬(env.checkpointsMode = .strict ∧ s.checkSync (b.getHash C) pindexPrev = false) := by
    simp [not_and]
  rw [hsync, NodeState.acceptChecks]
  cases hknown : s.mapBlockIndex (b.getHash C) with
  | some e => simp
  | none =>
    cases hheader : s.checkHeader b pindexPrev with
    | false => simp [hprev, hheader]
    | true =>
      cases hagg : s.checkAggregate env b (pindexPrev.nHeight + 1) with
      | false => simp [hprev, hheader, hagg]
      | true =>
        cases hhard : checkHardened (pindexPrev.nHeight + 1) (b.getHash C) with
        | false => simp [hprev, hheader, hagg, hhard]
        | true =>
          cases hkernel : s.checkKernel C env b with
          | none => simp [hprev, hheader, hagg, hhard]
          | some proof =>
            by_cases hbad : env.checkpointsMode = .strict ∧
                s.checkSync (b.getHash C) pindexPrev = false
            · simp [hprev, hheader, hagg, hhard, hbad]
            · cases hcb : checkCoinbaseHeight b (pindexPrev.nHeight + 1) with
              | false => simp [hprev, hheader, hagg, hhard, hbad, hcb]
              | true => simp [hprev, hheader, hagg, hhard, hbad, hcb]

/-- The attacked blocks are below height 701720. -/
theorem aggregateApplies_of_lt {nHeight : Nat} (h : 701720 < nHeight) :
    aggregateApplies nHeight = true := by
  have hall : ∀ n ∈ attackedHeights, n < 701720 := by decide
  have hnot : nHeight ∉ attackedHeights := fun hmem => by
    have := hall _ hmem
    omega
  simp only [aggregateApplies, Bool.and_eq_true, decide_eq_true_eq, Bool.not_eq_true',
    List.contains_eq_mem, decide_eq_false_iff_not]
  exact ⟨by omega, hnot⟩

/-- Above height 701720 the aggregate rule has both sums and bounds the outputs. -/
theorem checkAggregate_totals {s : NodeState} {b : CBlock} {nHeight : Nat}
    (hheight : 701720 < nHeight) (h : s.checkAggregate env b nHeight = true) :
    ∃ I O, aggregateFrom (s.sources env) b.vtx 0 0 = .totals I O ∧
      O ≤ Int64.wrap (I + getProofOfWorkReward nHeight 0) := by
  rw [NodeState.checkAggregate, aggregateApplies_of_lt hheight, Bool.not_true, Bool.false_or] at h
  cases hagg : aggregateFrom (s.sources env) b.vtx 0 0 with
  | rejected =>
    rw [hagg] at h
    cases h
  | exception =>
    rw [hagg, Aggregate.accepted, decide_eq_true_eq] at h
    omega
  | totals I O =>
    rw [hagg, Aggregate.accepted, decide_eq_true_eq] at h
    exact ⟨I, O, rfl, h⟩

/-- Outputs bounded by the wrapped sum of the inputs and a reward are bounded by the sum itself:
a sum that leaves 64 bits comes back negative. -/
theorem sub_le_of_le_wrap {I O R : Int} (hI : 0 ≤ I) (hI' : I < 2 ^ 63) (hO : 0 ≤ O) (hR : 0 ≤ R)
    (hR' : R < 2 ^ 63) (h : O ≤ Int64.wrap (I + R)) : O - I ≤ R := by
  unfold Int64.wrap at h
  omega

/-- The gain of a wrapped supply `p` by a difference `d` of sums. -/
theorem wrap_supply_gain {p d : Int} (hd : Int64.InRange d) :
    Int64.wrap (Int64.wrap (p + d) - p) = d ∧ (0 ≤ p → Int64.wrap (p + d) - p ≤ d) := by
  constructor
  · rw [sub_eq_add_neg, Int64.wrap_add_wrap, add_neg_cancel_comm, Int64.wrap_eq_self hd]
  · intro hp
    unfold Int64.InRange at hd
    unfold Int64.wrap
    omega

/-- **No inflation by the aggregate rule.** A block above height 701720 that one state accepts and
another one connects, as a tip or inside a reorganization, adds at most the subsidy of its height to
the recorded money supply. -/
theorem connectBlock_moneySupply_le {s₁ s₂ : NodeState} {env₁ env₂ : Env} {b : CBlock}
    {pindexPrev : CBlockIndex} {k : Uint256} (hinj : HashInjective C) (h₁ : Reached C s₁)
    (h₂ : Reached C s₂) (hprev : s₁.mapBlockIndex b.hashPrevBlock = some pindexPrev)
    (hheight : 701720 < pindexPrev.nHeight + 1)
    (haccept : (s₁.acceptChecks C env₁ b).isSome = true) (hb : s₂.blockOf k = some b)
    (hconnect : (s₂.connectBlock C env₂ b k).1 = true) :
    ∃ pindex, (s₂.connectBlock C env₂ b k).2.mapBlockIndex k = some pindex ∧
      Int64.wrap (pindex.nMoneySupply - s₂.prevMoneySupply pindex) ≤
        getProofOfWorkReward (pindexPrev.nHeight + 1 : Nat) 0 ∧
      (0 ≤ s₂.prevMoneySupply pindex →
        pindex.nMoneySupply - s₂.prevMoneySupply pindex ≤
          getProofOfWorkReward (pindexPrev.nHeight + 1 : Nat) 0) := by
  obtain ⟨-, -, hrule, -⟩ := (acceptChecks_isSome_iff hprev).mp haccept
  obtain ⟨I, O, hagg, hbound⟩ := checkAggregate_totals hheight hrule
  obtain ⟨e, t, he, htxs, -, hs'⟩ := connectBlock_eq_true C env₂ hconnect
  obtain ⟨e', he', hfile⟩ := NodeState.blockOf_eq_some hb
  obtain rfl := Option.some.inj (he.symm.trans he')
  -- the sums of the two states are the same
  have hsums : t.nValueIn = I ∧ t.nValueOut = O := by
    refine connectTxs_aggregate hinj (h₁.filed.sourcesNamed env₁)
      (fun hash pos n hpos => h₂.filed.readTx env₂ hpos) ?_ ?_ (by decide) htxs ?_
    · rw [s₂.sources_readTxIndex, ConnectTotals.init, overlay_empty]
      exact h₂.filed.view
    · intro p hp
      exact ⟨k, p, by rwa [NodeState.blockTxs_eq he hfile], rfl, rfl, rfl⟩
    · rw [map_fst_txPositions]
      exact hagg
  obtain ⟨rfl, rfl⟩ := hsums
  obtain ⟨hI, hI', hO, hO'⟩ := aggregateFrom_range le_rfl (by decide) le_rfl (by decide) hagg
  obtain ⟨hR, hR'⟩ := getProofOfWorkSubsidy_bounds (pindexPrev.nHeight + 1 : Nat)
  rw [getProofOfWorkReward_zero] at hbound ⊢
  have hgain : t.nValueOut - t.nValueIn ≤ getProofOfWorkSubsidy (pindexPrev.nHeight + 1 : Nat) :=
    sub_le_of_le_wrap hI hI' hO hR (hR'.trans_lt (by decide)) hbound
  have hrange : Int64.InRange (t.nValueOut - t.nValueIn) := ⟨by omega, by omega⟩
  obtain ⟨hword, hint⟩ := @wrap_supply_gain (s₂.prevMoneySupply e) _ hrange
  rw [← add_sub_assoc] at hword hint
  refine ⟨_, by rw [hs']; exact Function.update_self .., ?_, fun hp => ?_⟩
  · exact hword.trans_le hgain
  · exact (hint hp).trans hgain

/-! ## A sample block -/

/-- A coinbase that starts with its height. -/
def heightCoinbase (nHeight nTime : Nat) (nValue : Int) : CTransaction where
  nVersion := 1
  nTime := nTime
  vin := [⟨COutPoint.null, pushHeight nHeight ++ [0], 4294967295⟩]
  vout := [⟨nValue, [1]⟩]
  nLockTime := 0

/-- A block of given transactions, at the easiest target. -/
def plainBlock (hashPrevBlock hashMerkleRoot : Uint256) (nTime : Nat) (vtx : List CTransaction) :
    CBlock where
  nVersion := 1
  hashPrevBlock := hashPrevBlock
  hashMerkleRoot := hashMerkleRoot
  nTime := nTime
  nBits := 0x1e0fffff
  nNonce := 0
  vtx := vtx
  vchBlockSig := []

/-- A node that stores blocks and has no transaction records is reached. -/
theorem storedNode_reached (l : List StoredBlock) : Reached C (storedNode C l) := by
  refine Reached.init (fun {h e} he => ?_) rfl fun _ => rfl
  obtain ⟨i, x, -, -, rfl⟩ := Storable.exists_of_mapBlockIndex he
  exact Nat.le_add_left 8 _

/-- A block at height 701720. -/
def tallBase : StoredBlock := ⟨plainBlock 0 1 1000 [heightCoinbase 701720 1000 0], 701720, 1⟩

/-- A block on top of it that pays its subsidy. -/
def tallBlock : CBlock := plainBlock 1 2 2000 [heightCoinbase 701721 2000 (32 * COIN)]

/-- The two blocks. -/
def tallChain : List StoredBlock := [tallBase, ⟨tallBlock, 701721, 2⟩]

/-- Hashes that number the blocks and their coinbases from one. -/
noncomputable def tallCrypto : Crypto :=
  labelCrypto (tallChain.flatMap fun x => x.block.vtx)
    (tallChain.map fun x => x.block.getBlockHeader)

/-- A clock after these blocks, and no failures. -/
def tallEnv : Env where
  adjustedTime := 10000
  checkpointsMode := .strict
  writeToDisk := none
  indexCommitFails := false
  blockUnreadable _ _ := false
  txUnreadable _ := false
  commitFails _ := false
  freeTxRefused _ := false

/-- The aggregate rule applies at the height of the second block. -/
example : aggregateApplies 701721 = true := by decide +kernel

/-- The second block is accepted on top of the first one and connected where both are stored. -/
theorem connectBlock_moneySupply_le_sample :
    ∃ pindex, ((storedNode tallCrypto tallChain).connectBlock tallCrypto tallEnv tallBlock
        2).2.mapBlockIndex 2 = some pindex ∧
      Int64.wrap (pindex.nMoneySupply -
        (storedNode tallCrypto tallChain).prevMoneySupply pindex) ≤ 32 * COIN := by
  have hprev : (storedNode tallCrypto [tallBase]).mapBlockIndex tallBlock.hashPrevBlock =
      some (storedEntry tallCrypto 0 tallBase) := by decide +kernel
  have haccept : ((storedNode tallCrypto [tallBase]).acceptChecks tallCrypto tallEnv
      tallBlock).isSome = true := by decide +kernel
  have hstored : (storedNode tallCrypto tallChain).blockOf 2 = some tallBlock := by
    decide +kernel
  have hconnect : ((storedNode tallCrypto tallChain).connectBlock tallCrypto tallEnv tallBlock
      2).1 = true := by decide +kernel
  obtain ⟨pindex, hpindex, hle, -⟩ := connectBlock_moneySupply_le (labelCrypto_hashInjective _ _)
    (storedNode_reached _) (storedNode_reached _) hprev (by decide) haccept hstored hconnect
  exact ⟨pindex, hpindex, hle⟩

end MotaCoin
