import MotaCoin.ConnectAgree
import MotaCoin.Superblock

/-!
# The transaction set of the miner

`CreateNewBlock` connects each transaction it takes to a test pool, with inputs that are in the index
of the tip. So no transaction it takes spends an output of another, whatever order the priority
queue hands them out in: the test pool only tells which outputs are spent already.

## Main definitions

* `Selecting`: what holds of the template while it is filled
* `NodeState.feeOf`: what a transaction pays
* `Selection`: what holds of the set of transactions

## Main results

* `new_of_spendable`: the transactions are new to the chain and spend none of each other's outputs
* `collectTxs_selecting`: the invariant of the collecting loop
* `Selecting.selection`: the set of transactions is valid
-/

namespace MotaCoin

open SpendIndex (Entry Unspent Spendable SpendableAll SpendsLedger SameBut connectOne connectAll)

variable {C : Crypto} {env : Env}

/-! ## Filling the template -/

/-- The transactions taken so far, at the position that stands for the memory pool. -/
def poolTxs (vtx : List CTransaction) : List (CTransaction × CDiskTxPos) :=
  vtx.map fun tx => (tx, CDiskTxPos.memPool)

theorem map_fst_poolTxs (vtx : List CTransaction) : (poolTxs vtx).map Prod.fst = vtx := by
  rw [poolTxs, List.map_map]
  exact List.map_id _

variable (C) in
/-- The signature operations of a transaction, with those in the scripts its inputs pay to. -/
def CTransaction.sigOpCount (src : Sources) (tx : CTransaction) : Nat :=
  tx.getLegacySigOpCount C +
    (tx.getP2SHSigOpCount C (tx.fetchInputs src ∅ true false).inputsRet).getD 0

variable (C) in
/-- **What holds of the template while it is filled.** The test pool is the index of the tip with the
transactions on top, in the order in which they were taken, and each of them connects to the index
alone. -/
structure Selecting (env : Env) (s : NodeState) (m : Miner) (pindexPrev : CBlockIndex)
    (t : Template) : Prop where
  index : overlay (s.sources env).readTxIndex t.mapTestPool =
    connectAll CDiskTxPos.null s.txdb.txIndex (ledgerOf C (poolTxs t.vtx))
  spendable : SpendableAll CDiskTxPos.null CDiskTxPos.isNull s.txdb.txIndex
    (ledgerOf C (poolTxs t.vtx))
  candidate : ∀ tx ∈ t.vtx, tx ∈ s.candidates env
  vin : ∀ tx ∈ t.vtx, tx.vin ≠ []
  connects : ∀ tx ∈ t.vtx, SpendsIndexed C (s.sources env) (s.connectCtx pindexPrev false) tx
  nBlockSize : t.nBlockSize = 1000 + (t.vtx.map CTransaction.getSerializeSize).sum
  nBlockSigOps : t.nBlockSigOps = 100 + (t.vtx.map (CTransaction.sigOpCount C (s.sources env))).sum
  size_le : t.nBlockSize ≤ m.nBlockMaxSize
  sigOps_lt : t.nBlockSigOps < MAX_BLOCK_SIGOPS

/-- A candidate is no coinbase and no coinstake, and its inputs are read from disk. -/
theorem mem_candidates {s : NodeState} {tx : CTransaction} (h : tx ∈ s.candidates env) :
    tx.isCoinBase = false ∧ tx.isCoinStake = false ∧
      ∀ txin ∈ tx.vin, (CTransaction.readFromDisk (s.sources env) txin.prevout).isSome := by
  obtain ⟨-, hcand⟩ := List.mem_filter.1 h
  simp only [Bool.and_eq_true, Bool.not_eq_true', List.all_eq_true] at hcand
  exact ⟨hcand.1.1.1, hcand.1.1.2, hcand.2⟩

theorem getMinFee_pos (tx : CTransaction) : 0 < tx.getMinFee 1 .block 0 := by
  have hfee : tx.getMinFee 1 .block 0 = MIN_TX_FEE := by
    simp [CTransaction.getMinFee, MIN_TX_FEE, moneyRange, MAX_MONEY, CENT, COIN]
  rw [hfee]
  decide

/-- A transaction that pays its fee spends something. -/
theorem vin_ne_nil {tx : CTransaction} {ctx : CTransaction.ConnectCtx} {inputs : MapPrevTx}
    {q q' : TxIndexQueue} {pos : CDiskTxPos} {fBlock fMiner : Bool} (hcb : tx.isCoinBase = false)
    (hstake : tx.isCoinStake = false)
    (h : tx.connectInputs C ctx inputs q pos fBlock fMiner = some q') : tx.vin ≠ [] := by
  intro hnil
  obtain ⟨v, hv, -, hfees⟩ := connectInputs_eq_some hcb h
  rw [CTransaction.getValueMapIn, hcb, hnil] at hv
  obtain rfl : 0 = v := Option.some.inj hv
  have hpaid := hfees hstake
  unfold CTransaction.checkFees at hpaid
  split at hpaid
  · cases hpaid
  · next nValueOut hout =>
    -- no outputs of a value, so no fee
    have hrange := moneyRange_iff.1 (CTransaction.getValueOut_eq hout).2
    simp only [Bool.and_eq_true, decide_eq_true_eq] at hpaid
    obtain ⟨⟨⟨hle, -⟩, hmin⟩, -⟩ := hpaid
    obtain rfl : nValueOut = 0 := by omega
    exact absurd ((getMinFee_pos tx).trans_le hmin) (by decide)

section Collect

variable {s : NodeState} {m : Miner} {pindexPrev : CBlockIndex} {tip : Uint256}
  (hinj : HashInjective C) (hs : CommittedAt C s tip)

include hinj hs

/-- **Candidates find what they spend in the chain.** -/
theorem spendsLedger_poolTxs {vtx : List CTransaction} (hcand : ∀ tx ∈ vtx, tx ∈ s.candidates env)
    (hvin : ∀ tx ∈ vtx, tx.vin ≠ []) :
    SpendsLedger (ledgerOf C (s.pathTxs tip)) (ledgerOf C (poolTxs vtx)) ∧
      ∀ e ∈ ledgerOf C (poolTxs vtx), e.spends ≠ [] := by
  have hmem : ∀ e ∈ ledgerOf C (poolTxs vtx), ∃ tx ∈ vtx, e = entryOf C (tx, CDiskTxPos.memPool) := by
    intro e he
    obtain ⟨p, hp, rfl⟩ := List.mem_map.1 he
    obtain ⟨tx, htx, rfl⟩ := List.mem_map.1 hp
    exact ⟨tx, htx, rfl⟩
  have hsome : ∀ e ∈ ledgerOf C (poolTxs vtx), e.spends ≠ [] := by
    intro e he
    obtain ⟨tx, htx, rfl⟩ := hmem e he
    simp only [entryOf, CTransaction.spends, (mem_candidates (hcand tx htx)).1, Bool.false_eq_true,
      if_false, ne_eq, List.map_eq_nil_iff]
    exact hvin tx htx
  refine ⟨⟨?_, ?_, fun e he hnil => absurd hnil (hsome e he)⟩, hsome⟩
  · intro e he o ho
    obtain ⟨tx, htx, rfl⟩ := hmem e he
    obtain ⟨out, hout, rfl⟩ := List.mem_map.1 ho
    obtain ⟨hcb, -, hread⟩ := mem_candidates (hcand tx htx)
    simp only [CTransaction.spends, hcb, Bool.false_eq_true, if_false] at hout
    obtain ⟨txin, htxin, rfl⟩ := List.mem_map.1 hout
    obtain ⟨r, txPrev, hat⟩ := inputAt_of_readFromDisk hs.filed (hread txin htxin)
    have hr := hat.record
    rw [overlay_empty, s.sources_readTxIndex, hs.branch.index] at hr
    obtain ⟨e', he', hid, -⟩ := SpendIndex.exists_of_ofLedger CDiskTxPos.null hr
    exact ⟨e', he', hid⟩
  · intro e he f hf hid
    obtain ⟨tx, -, rfl⟩ := hmem e he
    obtain ⟨p, -, rfl⟩ := List.mem_map.1 hf
    have htx : p.1 = tx := hinj.hashTx hid
    simp only [entryOf, htx]

/-- **What the transactions taken so far do**: they are new to the chain, and spend distinct outputs
that the index shows as unspent, none of them of each other. -/
theorem new_of_spendable {vtx : List CTransaction} (hcand : ∀ tx ∈ vtx, tx ∈ s.candidates env)
    (hvin : ∀ tx ∈ vtx, tx.vin ≠ [])
    (h : SpendableAll CDiskTxPos.null CDiskTxPos.isNull s.txdb.txIndex (ledgerOf C (poolTxs vtx))) :
    (∀ e ∈ ledgerOf C (poolTxs vtx), s.txdb.txIndex e.id = none) ∧
      ((ledgerOf C (poolTxs vtx)).flatMap Entry.spends).Nodup ∧
      ∀ o ∈ (ledgerOf C (poolTxs vtx)).flatMap Entry.spends,
        Unspent CDiskTxPos.isNull s.txdb.txIndex o ∧
          ∀ e ∈ ledgerOf C (poolTxs vtx), o.1 ≠ e.id := by
  obtain ⟨hledger, hsome⟩ := spendsLedger_poolTxs hinj hs hcand hvin
  have hnull : ∀ e ∈ ledgerOf C (s.pathTxs tip), e.pos.isNull = false := by
    intro e he
    obtain ⟨p, hp, rfl⟩ := List.mem_map.1 he
    exact (hs.tree.proper p hp).1
  have hnull' : ∀ e ∈ ledgerOf C (poolTxs vtx), e.pos.isNull = false := by
    intro e he
    obtain ⟨p, hp, rfl⟩ := List.mem_map.1 he
    obtain ⟨tx, -, rfl⟩ := List.mem_map.1 hp
    rfl
  rw [hs.branch.index] at h ⊢
  obtain ⟨hnew, hrest⟩ :=
    h.new_of_ledger (hs.branch.valid hs.tree) hnull hnull' hledger hsome
  refine ⟨fun e he => ?_, hrest⟩
  exact (SpendIndex.ofLedger_eq_none_iff CDiskTxPos.null).2 fun e' he' => hnew e he e' he'

omit hinj hs in
/-- An input of the index is found with transactions on top that are new to it, at the same place. -/
theorem inputAt_of_new {src src' : Sources} {q : TxIndexQueue}
    {es : List (Entry Uint256 CDiskTxPos)}
    (hq : overlay src'.readTxIndex q = connectAll CDiskTxPos.null src.readTxIndex es)
    {txin : CTxIn} {r : CTxIndex} {txPrev : CTransaction} (hat : InputAt src ∅ txin r txPrev)
    (hread : src'.readTx r.pos = src.readTx r.pos) (hnew : ∀ e ∈ es, txin.prevout.hash ≠ e.id) :
    ∃ r', InputAt src' q txin r' txPrev ∧ r'.pos = r.pos ∧
      r'.vSpent.length = r.vSpent.length := by
  have hr := hat.record
  rw [overlay_empty] at hr
  have hrel : Option.Rel (SameBut (es.flatMap Entry.spends) txin.prevout.hash)
      (src.readTxIndex txin.prevout.hash)
      (connectAll CDiskTxPos.null src.readTxIndex es txin.prevout.hash) :=
    SpendIndex.connectAll_of_ne hnew
  rw [hr, ← hq] at hrel
  generalize hrecord : overlay src'.readTxIndex q txin.prevout.hash = found at hrel
  cases hrel with
  | some hsame =>
    refine ⟨_, ⟨hrecord, ?_, ?_, hat.output, ?_⟩, hsame.pos, hsame.length⟩
    · rw [hsame.pos]
      exact hat.filed
    · rw [hsame.pos, hread]
      exact hat.read
    · rw [hsame.length]
      exact hat.slot

/-- **One round of the collecting loop.** -/
theorem collectTx_selecting {t t' : Template} {tx : CTransaction}
    (h : Selecting C env s m pindexPrev t) (htx : tx ∈ s.candidates env)
    (hround : s.collectTx C env m pindexPrev t tx = some t') :
    Selecting C env s m pindexPrev t' := by
  rcases collectTx_cases hround with rfl | ⟨vi, vo, nP2SH, q, htaken⟩
  · exact h
  obtain ⟨hcb, hstake, hread⟩ := mem_candidates htx
  have hok := htaken.fetched
  have hconnect := htaken.connected
  have hP2SH := htaken.sigOps
  have hcand : ∀ tx' ∈ t.vtx ++ [tx], tx' ∈ s.candidates env := by
    intro tx' htx'
    rcases List.mem_append.1 htx' with htx' | htx'
    · exact h.candidate tx' htx'
    · rwa [List.mem_singleton.1 htx']
  have hvin : ∀ tx' ∈ t.vtx ++ [tx], tx'.vin ≠ [] := by
    intro tx' htx'
    rcases List.mem_append.1 htx' with htx' | htx'
    · exact h.vin tx' htx'
    · rw [List.mem_singleton.1 htx']
      exact vin_ne_nil hcb hstake hconnect
  -- The round marked what the transaction spends, and added its record.
  obtain ⟨hmark, hspendable⟩ := connectInputs_spec C (Bool.false_or true) hcb
    (fetchInputs_spec (Bool.false_or true) hcb hok) hconnect
  rw [h.index] at hmark hspendable
  have hledger : ledgerOf C (poolTxs (t.vtx ++ [tx])) =
      ledgerOf C (poolTxs t.vtx) ++ [entryOf C (tx, CDiskTxPos.memPool)] := by
    rw [poolTxs, List.map_append, ledgerOf_append]
    rfl
  have hall : SpendableAll CDiskTxPos.null CDiskTxPos.isNull s.txdb.txIndex
      (ledgerOf C (poolTxs (t.vtx ++ [tx]))) := by
    rw [hledger]
    exact h.spendable.append ⟨hspendable, trivial⟩
  obtain ⟨-, hnodup, hunspent⟩ := new_of_spendable hinj hs hcand hvin hall
  have hlast : ∀ o ∈ (entryOf C (tx, CDiskTxPos.memPool)).spends,
      o ∈ (ledgerOf C (poolTxs (t.vtx ++ [tx]))).flatMap Entry.spends := by
    intro o ho
    rw [hledger, List.flatMap_append, List.flatMap_singleton]
    exact List.mem_append_right _ ho
  have hindex := h.index
  rw [← s.sources_readTxIndex env] at hindex
  -- So the transaction connects to the index without the others as well.
  have halike : ∀ txin ∈ tx.vin, ∃ r r' txPrev, FoundAlike (s.sources env) (s.sources env)
      t.mapTestPool ∅ (s.connectCtx pindexPrev false) (s.connectCtx pindexPrev false) txin r r'
      txPrev := by
    intro txin htxin
    obtain ⟨r, txPrev, hat⟩ := inputAt_of_readFromDisk hs.filed (hread txin htxin)
    have hspends : txin.prevout.toPair ∈ (entryOf C (tx, CDiskTxPos.memPool)).spends := by
      refine List.mem_map_of_mem ?_
      simp only [CTransaction.spends, hcb, Bool.false_eq_true, if_false]
      exact List.mem_map_of_mem htxin
    obtain ⟨r', hat', hpos, hlength⟩ := inputAt_of_new hindex hat rfl fun e he => by
      refine (hunspent _ (hlast _ hspends)).2 e ?_
      rw [hledger]
      exact List.mem_append_left _ he
    exact ⟨r', r, txPrev, hat', hat, hpos.symm, hlength.symm, id⟩
  have hsig : (s.connectCtx pindexPrev false).checkSignatures = true := rfl
  rw [fetchInputs_miner] at hconnect hP2SH
  have hempty : Spendable CDiskTxPos.isNull (overlay (s.sources env).readTxIndex ∅)
      (tx.spends.map COutPoint.toPair) CDiskTxPos.memPool := by
    rw [overlay_empty, s.sources_readTxIndex]
    refine Spendable.of_unspent ?_ (fun o ho => (hunspent o (hlast o ho)).1) _
    rw [hledger, List.flatMap_append, List.flatMap_singleton] at hnodup
    exact hnodup.of_append_right
  obtain ⟨hfetched, hagree, q₂, hq₂⟩ :=
    connects_of_foundAlike hcb hsig halike hempty hconnect
  have hcount : tx.sigOpCount C (s.sources env) = tx.getLegacySigOpCount C + nP2SH := by
    rw [CTransaction.sigOpCount, getP2SHSigOpCount_of_agree hagree, hP2SH, Option.getD_some]
  rw [htaken.result]
  refine ⟨?_, hall, hcand, hvin, fun tx' htx' => ?_, ?_, ?_, htaken.fitsSize.le, htaken.fitsSigOps⟩
  · change overlay _ (q.insert _ _) = connectAll _ _ (ledgerOf C (poolTxs (t.vtx ++ [tx])))
    rw [hledger, SpendIndex.connectAll_append, overlay_insert, hmark]
    simp only [connectAll, List.foldl_cons, List.foldl_nil, connectOne, SpendIndex.create, entryOf,
      List.length_map]
    rfl
  · rcases List.mem_append.1 htx' with htx' | htx'
    · exact h.connects tx' htx'
    · rw [List.mem_singleton.1 htx']
      exact ⟨hfetched, ⟨_, Option.isSome_iff_exists.2 ⟨q₂, hq₂⟩⟩, by rw [htaken.valueOut]; rfl⟩
  · simp only [h.nBlockSize, List.map_append, List.sum_append, List.map_cons, List.map_nil,
      List.sum_cons, List.sum_nil]
    omega
  · simp only [h.nBlockSigOps, List.map_append, List.sum_append, List.map_cons, List.map_nil,
      List.sum_cons, List.sum_nil, hcount]
    omega

/-- **The collecting loop.** -/
theorem collectTxs_selecting {vecPriority : List CTransaction}
    (hcand : ∀ tx ∈ vecPriority, tx ∈ s.candidates env) {t t' : Template}
    (h : Selecting C env s m pindexPrev t)
    (hloop : s.collectTxs C env m pindexPrev vecPriority t = some t') :
    Selecting C env s m pindexPrev t' :=
  collectTxs_of_rounds (fun tx htx _ _ h₁ hround => collectTx_selecting hinj hs h₁ (hcand tx htx) hround)
    h hloop

omit hinj hs in
theorem Selecting.init : Selecting C env s m pindexPrev Template.init where
  index := by
    rw [Template.init, overlay_empty, s.sources_readTxIndex]
    rfl
  spendable := trivial
  candidate _ h := absurd h List.not_mem_nil
  vin _ h := absurd h List.not_mem_nil
  connects _ h := absurd h List.not_mem_nil
  nBlockSize := rfl
  nBlockSigOps := rfl
  size_le := Nat.le_max_left _ _
  sigOps_lt := by decide

/-! ## The set of transactions -/

omit hinj hs in
theorem isUnspent_of_unspent {idx : TxIndexMap} {o : COutPoint}
    (h : Unspent CDiskTxPos.isNull idx o.toPair) : isUnspent idx o = true := by
  obtain ⟨r, q, hr, hq, hnull⟩ := h
  simp only [COutPoint.toPair] at hr hq
  simp only [isUnspent, hr, hq, Option.any_some, hnull]

variable (C) in
/-- What a transaction pays for being taken: its value in, as the outputs of the chain at `tip` have
it, minus its value out. -/
def NodeState.feeOf (s : NodeState) (tip : Uint256) (tx : CTransaction) : Int :=
  valueIn C (s.pathTxs tip) tx - tx.valueOut

variable (C) in
/-- **What holds of the set of transactions** that the template has. Their inputs are disjoint, and
are unspent outputs of the committed index, none of them of another transaction of the set; size
and signature operations are within the limits; and the fees are what they pay. -/
structure Selection (env : Env) (s : NodeState) (m : Miner) (tip : Uint256) (t : Template) :
    Prop where
  disjoint : (t.vtx.flatMap CTransaction.spends).Nodup
  unspent : ∀ tx ∈ t.vtx, ∀ o ∈ tx.spends, isUnspent s.txdb.committedTxIndex o = true
  unchained : ∀ tx ∈ t.vtx, ∀ tx' ∈ t.vtx, ∀ o ∈ tx'.spends, o.hash ≠ C.hashTx tx
  size : 1000 + (t.vtx.map CTransaction.getSerializeSize).sum ≤ m.nBlockMaxSize ∧
    m.nBlockMaxSize ≤ MAX_BLOCK_SIZE - 1000
  sigOps : 100 + (t.vtx.map (CTransaction.sigOpCount C (s.sources env))).sum < MAX_BLOCK_SIGOPS
  fees : t.nFees = Int64.wrap (t.vtx.map (s.feeOf C tip)).sum
  fees_eq : unspentTotal C s.txdb.committedTxIndex (s.pathTxs tip) < 2 ^ 63 →
    t.nFees = (t.vtx.map (s.feeOf C tip)).sum

omit hinj in
/-- The value in that the aggregate rule finds is what the inputs are worth in the chain. -/
theorem activeValueIn_eq {tx : CTransaction} (h : Resolves (s.sources env) tx) :
    tx.activeValueIn (s.sources env) = Int64.wrap (valueIn C (s.pathTxs tip) tx) :=
  (getValueMapIn_mapped ((s.sources_readTxIndex env).trans hs.branch.index) hs.tree.proper
    (s.readsBack env tip) h.valueIn).1

omit hinj in
/-- The fees, from those of the transactions before. -/
theorem feesFrom_eq_wrap {vtx : List CTransaction}
    (h : ∀ tx ∈ vtx, Resolves (s.sources env) tx ∧ tx.isCoinBase = false ∧
      tx.isCoinStake = false ∧ tx.valueOut ≤ tx.activeValueIn (s.sources env)) :
    ∀ n : Int, feesFrom (s.sources env) (Int64.wrap n) vtx =
      Int64.wrap (n + (vtx.map (s.feeOf C tip)).sum) := by
  induction vtx with
  | nil =>
    intro n
    simp [feesFrom]
  | cons tx vtx ih =>
    intro n
    obtain ⟨hres, hcb, hstake, -⟩ := h tx List.mem_cons_self
    have hfee : Int64.wrap (tx.activeValueIn (s.sources env) - tx.valueOut) =
        Int64.wrap (s.feeOf C tip tx) := by
      rw [activeValueIn_eq hs hres, sub_eq_add_neg, Int64.wrap_add_wrap]
      rfl
    rw [feesFrom_cons, hcb, hstake, Bool.or_self, if_neg Bool.false_ne_true, hfee,
      Int64.wrap_add_wrap, Int64.add_wrap, ih (fun tx' htx' => h tx' (List.mem_cons_of_mem _ htx')),
      List.map_cons, List.sum_cons, add_assoc]

/-- What the transactions spend is worth no more than the unspent outputs of the index. -/
theorem Selecting.sum_valueIn_le {t : Template} (h : Selecting C env s m pindexPrev t) :
    (t.vtx.map (valueIn C (s.pathTxs tip))).sum ≤
      unspentTotal C s.txdb.txIndex (s.pathTxs tip) := by
  obtain ⟨-, hnodup, hunspent⟩ := new_of_spendable hinj hs h.candidate h.vin h.spendable
  have hv := hs.branch.valid hs.tree
  have hnull : ∀ e ∈ ledgerOf C (s.pathTxs tip), e.pos.isNull = false := by
    intro e he
    obtain ⟨p, hp, rfl⟩ := List.mem_map.1 he
    exact (hs.tree.proper p hp).1
  rw [hs.branch.index] at hunspent ⊢
  have hledger := fun o ho => Unspent.of_ledger hv hnull (hunspent o ho).1
  have hle := SpendIndex.sum_valueOf_le hv hs.branch.outs_nonneg hnodup
    (fun o ho => (hledger o ho).1) fun o ho => (hledger o ho).2
  rwa [← sum_valueIn, map_fst_poolTxs, ← unspentTotal_indexOf hv hs.tree.proper] at hle

/-- The fees add up within a word where the unspent outputs do. -/
theorem Selecting.sum_feeOf_inRange {t : Template} (h : Selecting C env s m pindexPrev t)
    (hc : Collected C env s t)
    (hlow : unspentTotal C s.txdb.txIndex (s.pathTxs tip) < 2 ^ 63) :
    Int64.InRange (t.vtx.map (s.feeOf C tip)).sum := by
  have hle := h.sum_valueIn_le hinj hs
  have hin : ∀ tx, 0 ≤ valueIn C (s.pathTxs tip) tx := by
    intro tx
    refine List.sum_nonneg fun v hv => ?_
    obtain ⟨o, -, rfl⟩ := List.mem_map.1 hv
    exact SpendIndex.valueOf_nonneg hs.branch.outs_nonneg o.toPair
  have hone : ∀ tx ∈ t.vtx, 0 ≤ s.feeOf C tip tx ∧
      s.feeOf C tip tx ≤ valueIn C (s.pathTxs tip) tx := by
    intro tx htx
    obtain ⟨hres, -, -, hcover⟩ := hc.resolves tx htx
    have hsingle : valueIn C (s.pathTxs tip) tx ≤ (t.vtx.map (valueIn C (s.pathTxs tip))).sum := by
      refine List.single_le_sum (fun v hv => ?_) _ (List.mem_map_of_mem htx)
      obtain ⟨tx', -, rfl⟩ := List.mem_map.1 hv
      exact hin tx'
    have hword := hin tx
    rw [activeValueIn_eq hs hres, Int64.wrap_eq_self ⟨by omega, by omega⟩] at hcover
    have hout := (moneyRange_iff.1 hres.rangeOut).1
    unfold NodeState.feeOf
    omega
  have hsum : (t.vtx.map (s.feeOf C tip)).sum ≤ (t.vtx.map (valueIn C (s.pathTxs tip))).sum :=
    List.sum_le_sum fun tx htx => (hone tx htx).2
  have hnonneg : 0 ≤ (t.vtx.map (s.feeOf C tip)).sum := by
    refine List.sum_nonneg fun v hv => ?_
    obtain ⟨tx, htx, rfl⟩ := List.mem_map.1 hv
    exact (hone tx htx).1
  exact ⟨by omega, by omega⟩

/-- **The set of transactions is valid.** -/
theorem Selecting.selection {t : Template} (h : Selecting C env s m pindexPrev t)
    (hc : Collected C env s t) : Selection C env s m tip t := by
  obtain ⟨-, hnodup, hunspent⟩ := new_of_spendable hinj hs h.candidate h.vin h.spendable
  have hentry : ∀ tx ∈ t.vtx, entryOf C (tx, CDiskTxPos.memPool) ∈ ledgerOf C (poolTxs t.vtx) :=
    fun tx htx => List.mem_map_of_mem (List.mem_map_of_mem htx)
  have hmem : ∀ tx ∈ t.vtx, ∀ o ∈ tx.spends,
      o.toPair ∈ (ledgerOf C (poolTxs t.vtx)).flatMap Entry.spends := fun tx htx o ho =>
    List.mem_flatMap.2 ⟨_, hentry tx htx, List.mem_map_of_mem ho⟩
  have hflat : (ledgerOf C (poolTxs t.vtx)).flatMap Entry.spends =
      (t.vtx.flatMap CTransaction.spends).map COutPoint.toPair := by
    simp only [ledgerOf, poolTxs, List.flatMap_map, List.map_flatMap, entryOf]
  have hcommitted : s.txdb.committedTxIndex = s.txdb.txIndex :=
    (CTxDB.txIndex_of_noBatch hs.batch).symm
  have hfees : t.nFees = Int64.wrap (t.vtx.map (s.feeOf C tip)).sum := by
    rw [hc.nFees, ← zero_add (List.sum _), ← feesFrom_eq_wrap hs hc.resolves 0, Int64.wrap_zero]
  refine ⟨?_, ?_, ?_, ?_, h.nBlockSigOps ▸ h.sigOps_lt, hfees, fun hlow => ?_⟩
  · rw [hflat] at hnodup
    exact hnodup.of_map
  · intro tx htx o ho
    rw [hcommitted]
    exact isUnspent_of_unspent (hunspent _ (hmem tx htx o ho)).1
  · intro tx htx tx' htx' o ho
    exact (hunspent _ (hmem tx' htx' o ho)).2 _ (hentry tx htx)
  · exact ⟨h.nBlockSize ▸ h.size_le, max_le (by decide) (Nat.min_le_left _ _)⟩
  · rw [hcommitted] at hlow
    rw [hfees]
    exact Int64.wrap_eq_self (h.sum_feeOf_inRange hinj hs hc hlow)

end Collect

end MotaCoin
