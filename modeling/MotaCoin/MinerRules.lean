import MotaCoin.Miner
import MotaCoin.RewardRules

/-!
# The template of the miner and the value rules

The miner pays its coinbase the subsidy at the height of the tip, and so does the limit of
`ConnectBlock`; the aggregate rule of `AcceptBlock` takes the subsidy at the height of the new
block. A template breaks that rule at the heights where a lower subsidy starts, and nowhere else.

## Main definitions

* `CTxMemPool.Named`: the memory pool holds each transaction under its own hash
* `feesFrom`: the fees `ConnectBlock` adds up over transactions
* `Taken`: what a round that takes a transaction did
* `Collected`: what holds of a template while it is filled

## Main results

* `collectTxs_collected`: the collected transactions are found in the active index
* `connectTxs_nFees`: the fees of `ConnectBlock`, in whatever state it connects the block
* `template_valueRules_iff`: when a template keeps the value rules
-/

namespace MotaCoin

variable {C : Crypto} {env : Env}

/-! ## The memory pool -/

variable (C) in
/-- The memory pool holds each transaction under its own hash. -/
def CTxMemPool.Named (pool : CTxMemPool) : Prop :=
  ∀ hash tx, pool.mapTx.lookup hash = some tx → C.hashTx tx = hash

namespace CTxMemPool.Named

variable {pool : CTxMemPool} (h : pool.Named C)
include h

theorem addUnchecked (tx : CTransaction) : (pool.addUnchecked (C.hashTx tx) tx).Named C := by
  intro hash tx' h'
  simp only [CTxMemPool.addUnchecked] at h'
  by_cases hh : hash = C.hashTx tx
  · subst hh
    rw [AList.lookup_insert] at h'
    rw [Option.some.inj h']
  · rw [AList.lookup_insert_ne hh] at h'
    exact h hash tx' h'

theorem eraseTx (hash : Uint256) (tx : CTransaction) : (pool.eraseTx hash tx).Named C := by
  intro hash' tx' h'
  simp only [CTxMemPool.eraseTx] at h'
  by_cases hh : hash' = hash
  · subst hh
    rw [AList.lookup_erase] at h'
    cases h'
  · rw [AList.lookup_erase_ne hh] at h'
    exact h hash' tx' h'

theorem removeFuel (fuel : Nat) (tx : CTransaction) (fRecursive : Bool) :
    (CTxMemPool.removeFuel C fuel tx fRecursive pool).Named C := by
  induction fuel generalizing tx fRecursive pool with
  | zero => exact h
  | succ fuel ih =>
    rw [CTxMemPool.removeFuel]
    simp only
    split
    · refine eraseTx ?_ _ _
      split
      · refine List.foldlRecOn _ _ h fun p hp i _ => ?_
        split
        · exact hp
        · exact ih hp _ _
      · exact h
    · exact h

theorem remove (tx : CTransaction) (fRecursive : Bool) : (pool.remove C tx fRecursive).Named C :=
  h.removeFuel _ tx fRecursive

theorem removeConflicts (tx : CTransaction) : (pool.removeConflicts C tx).Named C := by
  refine List.foldlRecOn _ _ h fun p hp txin _ => ?_
  split
  · exact hp
  · split
    · exact hp
    · exact hp.remove _ true

end CTxMemPool.Named

/-- `CTxMemPool::accept` keeps the pool named. -/
theorem named_acceptToMemoryPool {s : NodeState} (h : s.mempool.Named C) (tx : CTransaction)
    (fCheckInputs : Bool) : (s.acceptToMemoryPool C env tx fCheckInputs).2.2.mempool.Named C := by
  unfold NodeState.acceptToMemoryPool
  simp only
  split
  · exact h
  · generalize (if fCheckInputs then s.checkPoolInputs C env tx else (true, false)) = checked
    split
    · exact h.addUnchecked tx
    · exact h

/-! ## Fetching from the active index -/

section Fetching

variable {src : Sources} {q : TxIndexQueue} {fBlock fMiner : Bool}

/-- The fetching loop gets to its end when every previous transaction can be fetched, and then has
an entry for each. -/
theorem fetchLoop_of_fetchPrev {vin : List CTxIn}
    (h : ∀ txin ∈ vin, (CTransaction.fetchPrev src q fBlock fMiner txin.prevout.hash).1 = true) :
    ∀ inputs : MapPrevTx,
      (CTransaction.fetchLoop src q fBlock fMiner vin inputs).1 = true ∧
      (∀ hash, (inputs hash).isSome →
        ((CTransaction.fetchLoop src q fBlock fMiner vin inputs).2 hash).isSome) ∧
      ∀ txin ∈ vin,
        ((CTransaction.fetchLoop src q fBlock fMiner vin inputs).2 txin.prevout.hash).isSome := by
  induction vin with
  | nil => exact fun _ => ⟨rfl, fun _ h => h, fun _ h => by cases h⟩
  | cons txin vin ih =>
    intro inputs
    have hrest := ih fun txin' h' => h txin' (List.mem_cons_of_mem _ h')
    simp only [CTransaction.fetchLoop, h txin List.mem_cons_self, if_true]
    split
    · next hknown =>
      obtain ⟨hok, hkeep, hall⟩ := hrest inputs
      refine ⟨hok, hkeep, fun txin' h' => ?_⟩
      rcases List.mem_cons.mp h' with rfl | h'
      · exact hkeep _ hknown
      · exact hall txin' h'
    · obtain ⟨hok, hkeep, hall⟩ := hrest (Function.update inputs txin.prevout.hash
        (some (CTransaction.fetchPrev src q fBlock fMiner txin.prevout.hash).2))
      refine ⟨hok, fun hash hh => hkeep hash ?_, fun txin' h' => ?_⟩
      · by_cases hhash : hash = txin.prevout.hash
        · simp [hhash]
        · rwa [Function.update_of_ne hhash]
      · rcases List.mem_cons.mp h' with rfl | h'
        · exact hkeep _ (by simp)
        · exact hall txin' h'

theorem isSome_getValueMapInFrom {inputs : MapPrevTx} {vin : List CTxIn}
    (h : ∀ txin ∈ vin, (CTransaction.getOutputFor txin inputs).isSome) :
    ∀ n : Int, (CTransaction.getValueMapInFrom inputs n vin).isSome := by
  induction vin with
  | nil => exact fun _ => rfl
  | cons txin vin ih =>
    intro n
    obtain ⟨txout, hout⟩ := Option.isSome_iff_exists.mp (h txin List.mem_cons_self)
    rw [CTransaction.getValueMapInFrom, hout]
    exact ih (fun txin' h' => h txin' (List.mem_cons_of_mem _ h')) _

end Fetching

/-- **Fetching finds an input** whose record leads to a transaction in the block files, where the
output is in range of both. -/
structure InputAt (src : Sources) (q : TxIndexQueue) (txin : CTxIn) (r : CTxIndex)
    (txPrev : CTransaction) : Prop where
  record : overlay src.readTxIndex q txin.prevout.hash = some r
  filed : r.pos ≠ CDiskTxPos.memPool
  read : src.readTx r.pos = some txPrev
  output : txin.prevout.n < txPrev.vout.length
  slot : txin.prevout.n < r.vSpent.length

/-- `FetchInputs` returns the inputs that it finds. -/
theorem fetchInputs_of_inputAt {src : Sources} {q : TxIndexQueue} {tx : CTransaction}
    (hcb : tx.isCoinBase = false) (h : ∀ txin ∈ tx.vin, ∃ r txPrev, InputAt src q txin r txPrev) :
    (tx.fetchInputs src q true false).ok = true ∧ ∀ txin ∈ tx.vin, ∀ r txPrev,
      InputAt src q txin r txPrev →
        (tx.fetchInputs src q true false).inputsRet txin.prevout.hash = some (r, txPrev) := by
  have hprev : ∀ txin ∈ tx.vin,
      (CTransaction.fetchPrev src q true false txin.prevout.hash).1 = true := by
    intro txin htxin
    obtain ⟨r, txPrev, hat⟩ := h txin htxin
    rw [CTransaction.fetchPrev, lookupTxIndex_eq _ _ rfl, hat.record]
    simp only [if_neg hat.filed, hat.read]
  obtain ⟨hok, -, hall⟩ := fetchLoop_of_fetchPrev hprev fun _ => none
  generalize hloop : CTransaction.fetchLoop src q true false tx.vin (fun _ => none) =
    loop at hok hall
  obtain ⟨ok, inputs⟩ := loop
  obtain rfl : ok = true := hok
  have hfrom := fetchLoop_spec (Bool.or_false true) (fun _ _ _ hnone => by cases hnone) hloop
  -- the entry of an input is what was found for it
  have hentry : ∀ txin ∈ tx.vin, ∀ r txPrev, InputAt src q txin r txPrev →
      inputs txin.prevout.hash = some (r, txPrev) := by
    intro txin htxin r txPrev hat
    obtain ⟨⟨r', txPrev'⟩, hr'⟩ := Option.isSome_iff_exists.mp (hall txin htxin)
    obtain ⟨hidx, hdisk⟩ := hfrom _ _ _ hr'
    obtain rfl := Option.some.inj (hidx.symm.trans hat.record)
    obtain rfl := Option.some.inj ((hdisk hat.filed).symm.trans hat.read)
    exact hr'
  have hrange : tx.vin.all (CTransaction.inRange inputs) = true := by
    refine List.all_eq_true.mpr fun txin htxin => ?_
    obtain ⟨r, txPrev, hat⟩ := h txin htxin
    simp [CTransaction.inRange, hentry txin htxin r txPrev hat, hat.output, hat.slot]
  have hfetch : tx.fetchInputs src q true false = ⟨true, inputs, false⟩ := by
    simp [CTransaction.fetchInputs, hcb, hloop, hrange]
  rw [hfetch]
  exact ⟨rfl, hentry⟩

/-- An input that is read from disk is found. -/
theorem inputAt_of_readFromDisk {s : NodeState} (hs : Filed C s) {txin : CTxIn}
    (h : (CTransaction.readFromDisk (s.sources env) txin.prevout).isSome) :
    ∃ r txPrev, InputAt (s.sources env) ∅ txin r txPrev := by
  obtain ⟨x, hx⟩ := Option.isSome_iff_exists.mp h
  unfold CTransaction.readFromDisk at hx
  split at hx
  · cases hx
  · next r hr =>
    split at hx
    · cases hx
    · next txPrev htxPrev =>
      obtain ⟨txout, hout, -⟩ := Option.map_eq_some_iff.mp hx
      have hview : s.txdb.txIndex txin.prevout.hash = some r := by
        rw [← s.sources_readTxIndex env]
        exact hr
      obtain ⟨hpos, hfiled⟩ := hs.readTx env (hs.view _ _ hview)
      have hn : txin.prevout.n < txPrev.vout.length := (List.getElem?_eq_some_iff.mp hout).1
      refine ⟨r, txPrev, by rw [overlay_empty]; exact hr, hpos, htxPrev, hn, ?_⟩
      rw [← (hfiled txPrev htxPrev).2]
      exact hn

/-- The inputs a transaction reads from disk are found by the aggregate rule. -/
theorem fetchInputs_of_readFromDisk {s : NodeState} (hs : Filed C s) {tx : CTransaction}
    (hcb : tx.isCoinBase = false)
    (h : ∀ txin ∈ tx.vin, (CTransaction.readFromDisk (s.sources env) txin.prevout).isSome) :
    (tx.fetchInputs (s.sources env) ∅ true false).ok = true ∧
      (tx.getValueMapIn (tx.fetchInputs (s.sources env) ∅ true false).inputsRet).isSome := by
  have hat : ∀ txin ∈ tx.vin, ∃ r txPrev, InputAt (s.sources env) ∅ txin r txPrev :=
    fun txin htxin => inputAt_of_readFromDisk hs (h txin htxin)
  obtain ⟨hok, hentry⟩ := fetchInputs_of_inputAt hcb hat
  refine ⟨hok, ?_⟩
  rw [CTransaction.getValueMapIn, hcb]
  refine isSome_getValueMapInFrom (fun txin htxin => ?_) 0
  obtain ⟨r, txPrev, hin⟩ := hat txin htxin
  simp [CTransaction.getOutputFor, hentry txin htxin r txPrev hin, hin.output]

/-! ## Filling the template -/

variable (C) in
/-- **A round of the collecting loop took the transaction**: it fits, its inputs were fetched with
the test pool, and it was connected there. -/
structure Taken (env : Env) (s : NodeState) (m : Miner) (pindexPrev : CBlockIndex) (t t' : Template)
    (tx : CTransaction) (nTxValueIn nTxValueOut : Int) (nP2SH : Nat) (q : TxIndexQueue) : Prop where
  fetched : (tx.fetchInputs (s.sources env) t.mapTestPool false true).ok = true
  valueIn : tx.getValueMapIn (tx.fetchInputs (s.sources env) t.mapTestPool false true).inputsRet =
    some nTxValueIn
  valueOut : tx.getValueOut = some nTxValueOut
  sigOps : tx.getP2SHSigOpCount C
    (tx.fetchInputs (s.sources env) t.mapTestPool false true).inputsRet = some nP2SH
  connected : tx.connectInputs C (s.connectCtx pindexPrev false)
    (tx.fetchInputs (s.sources env) t.mapTestPool false true).inputsRet t.mapTestPool
    CDiskTxPos.memPool false true = some q
  fitsSize : t.nBlockSize + tx.getSerializeSize < m.nBlockMaxSize
  fitsSigOps : t.nBlockSigOps + (tx.getLegacySigOpCount C + nP2SH) < MAX_BLOCK_SIGOPS
  result : t' = {
    mapTestPool := q.insert (C.hashTx tx) (CTxIndex.fresh CDiskTxPos.memPool tx.vout.length)
    nBlockSize := t.nBlockSize + tx.getSerializeSize
    nBlockSigOps := t.nBlockSigOps + (tx.getLegacySigOpCount C + nP2SH)
    nFees := Int64.wrap (t.nFees + Int64.wrap (nTxValueIn - nTxValueOut))
    vtx := t.vtx ++ [tx] }

/-- What a round of the collecting loop did: the transaction was left out, or taken. -/
theorem collectTx_cases {s : NodeState} {m : Miner} {pindexPrev : CBlockIndex} {t t' : Template}
    {tx : CTransaction} (h : s.collectTx C env m pindexPrev t tx = some t') :
    t' = t ∨ ∃ nTxValueIn nTxValueOut nP2SH q,
      Taken C env s m pindexPrev t t' tx nTxValueIn nTxValueOut nP2SH q := by
  unfold NodeState.collectTx at h
  simp only at h
  split_ifs at h with h₁ h₂ h₃ h₄ h₅
  all_goals first | exact .inl (Option.some.inj h).symm | skip
  split at h
  · next nTxValueIn nTxValueOut hin hout =>
    split_ifs at h with h₆
    · exact .inl (Option.some.inj h).symm
    · split at h
      · cases h
      · next nP2SH hP2SH =>
        split_ifs at h with h₇
        · exact .inl (Option.some.inj h).symm
        · split at h
          · exact .inl (Option.some.inj h).symm
          · next q hq =>
            exact .inr ⟨nTxValueIn, nTxValueOut, nP2SH, q, by simpa using h₅, hin, hout, hP2SH, hq,
              not_le.1 h₁, not_le.1 h₇, (Option.some.inj h).symm⟩
  · cases h

/-- What every round keeps, the collecting loop keeps. -/
theorem collectTxs_of_rounds {s : NodeState} {m : Miner} {pindexPrev : CBlockIndex}
    {P : Template → Prop} {vecPriority : List CTransaction}
    (hround : ∀ tx ∈ vecPriority, ∀ t t', P t →
      s.collectTx C env m pindexPrev t tx = some t' → P t') :
    ∀ {t t' : Template}, P t → s.collectTxs C env m pindexPrev vecPriority t = some t' → P t' := by
  induction vecPriority with
  | nil =>
    intro t t' h hloop
    obtain rfl := Option.some.inj hloop
    exact h
  | cons tx vecPriority ih =>
    intro t t' h hloop
    rw [NodeState.collectTxs] at hloop
    split at hloop
    · cases hloop
    · next t₁ ht₁ =>
      have h₁ := hround tx List.mem_cons_self t t₁ h ht₁
      exact ih (fun tx' htx' => hround tx' (List.mem_cons_of_mem _ htx')) h₁ hloop

/-- The fees `ConnectBlock` adds up over transactions, from the total `nFees`. -/
def feesFrom (src : Sources) (nFees : Int) (vtx : List CTransaction) : Int :=
  vtx.foldl (fun nFees tx => if tx.isCoinBase || tx.isCoinStake then nFees
    else Int64.wrap (nFees + Int64.wrap (tx.activeValueIn src - tx.valueOut))) nFees

theorem feesFrom_append (src : Sources) (nFees : Int) (vtx vtx' : List CTransaction) :
    feesFrom src nFees (vtx ++ vtx') = feesFrom src (feesFrom src nFees vtx) vtx' :=
  List.foldl_append

theorem feesFrom_cons (src : Sources) (nFees : Int) (tx : CTransaction) (vtx : List CTransaction) :
    feesFrom src nFees (tx :: vtx) = feesFrom src (if tx.isCoinBase || tx.isCoinStake then nFees
      else Int64.wrap (nFees + Int64.wrap (tx.activeValueIn src - tx.valueOut))) vtx := rfl

variable (C) in
/-- **What holds of a template while it is filled**: its test pool is filed or refers to the memory
pool, its transactions are found in the active index and pay fees, and these are the fees
`ConnectBlock` will find. -/
structure Collected (env : Env) (s : NodeState) (t : Template) : Prop where
  filed : IndexFiled (fun hash pos n => pos = CDiskTxPos.memPool ∨ FiledAt C s hash pos n)
    (overlay (s.sources env).readTxIndex t.mapTestPool)
  resolves : ∀ tx ∈ t.vtx, Resolves (s.sources env) tx ∧ tx.isCoinBase = false ∧
    tx.isCoinStake = false ∧ tx.valueOut ≤ tx.activeValueIn (s.sources env)
  nFees : t.nFees = feesFrom (s.sources env) 0 t.vtx

/-- The test pool leads to transactions named by their hashes. -/
theorem Collected.sourcesNamed {s : NodeState} {t : Template} (h : Collected C env s t)
    (hs : Filed C s) (hpool : s.mempool.Named C) :
    SourcesNamed C (s.sources env) t.mapTestPool := by
  intro hash r hr tx htx
  split at htx
  · exact hpool hash tx htx
  · next hpos =>
    have hfiled := (h.filed hash r hr).resolve_left hpos
    exact ((hs.readTx env hfiled).2 tx htx).1

theorem checkFees_le {tx : CTransaction} {v w : Int} (hout : tx.getValueOut = some w)
    (h : tx.checkFees v = true) : w ≤ v := by
  rw [CTransaction.checkFees, hout] at h
  simp only [Bool.and_eq_true, decide_eq_true_eq] at h
  exact h.1.1.1

section Collect

variable {s : NodeState} {m : Miner} {pindexPrev : CBlockIndex} (hinj : HashInjective C)
  (hs : Filed C s) (hpool : s.mempool.Named C)
include hinj hs hpool

/-- One round of the collecting loop. -/
theorem collectTx_collected {t t' : Template} {tx : CTransaction} (h : Collected C env s t)
    (htx : tx ∈ s.candidates env) (hround : s.collectTx C env m pindexPrev t tx = some t') :
    Collected C env s t' := by
  rcases collectTx_cases hround with rfl | ⟨vi, vo, nP2SH, q, htaken⟩
  · exact h
  have hvi := htaken.valueIn
  have hvo := htaken.valueOut
  have hconnect := htaken.connected
  have hvtx : t'.vtx = t.vtx ++ [tx] := by rw [htaken.result]
  have hfees : t'.nFees = Int64.wrap (t.nFees + Int64.wrap (vi - vo)) := by rw [htaken.result]
  have hq : t'.mapTestPool =
      q.insert (C.hashTx tx) (CTxIndex.fresh CDiskTxPos.memPool tx.vout.length) := by
    rw [htaken.result]
  obtain ⟨-, hcand⟩ := List.mem_filter.mp htx
  simp only [Bool.and_eq_true, Bool.not_eq_true', List.all_eq_true] at hcand
  obtain ⟨⟨⟨hcb, hstake⟩, -⟩, hread⟩ := hcand
  -- the value in that the miner found is the one of the active index
  obtain ⟨hmap, hvalue⟩ := fetchInputs_of_readFromDisk hs hcb hread
  have hmapped : tx.getMapTxInputs (s.sources env) true false =
      (true, (tx.fetchInputs (s.sources env) ∅ true false).inputsRet) := by
    simp [CTransaction.getMapTxInputs, hmap]
  obtain ⟨v, hv⟩ := Option.isSome_iff_exists.mp hvalue
  obtain rfl : vi = v := getValueMapIn_unique hinj
    (fetchInputs_namedBy (Bool.false_or true) (h.sourcesNamed hs hpool) tx)
    (fetchInputs_namedBy (Bool.or_false true) (hs.sourcesNamed env) tx) hvi hv
  have hval : tx.activeValueIn (s.sources env) = vi := by
    rw [CTransaction.activeValueIn, hmapped, hv, Option.getD_some]
  obtain ⟨v', hv', hrange, hfee⟩ := connectInputs_eq_some hcb hconnect
  obtain rfl := Option.some.inj (hv'.symm.trans hvi)
  have hout : tx.valueOut = vo := (CTransaction.getValueOut_eq hvo).1.symm
  refine ⟨?_, ?_, ?_⟩
  · rw [hq, overlay_insert]
    refine IndexFiled.update (connectInputs_filed (Bool.false_or true) (fun hash r hr => ?_) h.filed
      hconnect) (.inl rfl)
    exact h.filed hash r.1 (fetchInputs_spec rfl hcb htaken.fetched hash r.1 r.2 hr).1
  · intro tx' htx'
    rw [hvtx] at htx'
    rcases List.mem_append.mp htx' with htx' | htx'
    · exact h.resolves tx' htx'
    · obtain rfl := List.mem_singleton.mp htx'
      refine ⟨⟨by rw [hmapped], by rw [hmapped, hv, hval], by rw [hvo, hout], by rwa [hval]⟩, hcb,
        hstake, ?_⟩
      rw [hval, hout]
      exact checkFees_le hvo (hfee hstake)
  · rw [hfees, hvtx, feesFrom_append, ← h.nFees]
    simp [feesFrom, hcb, hstake, hval, hout]

/-- **The collecting loop.** -/
theorem collectTxs_collected {vecPriority : List CTransaction}
    (hcand : ∀ tx ∈ vecPriority, tx ∈ s.candidates env) {t t' : Template} (h : Collected C env s t)
    (hloop : s.collectTxs C env m pindexPrev vecPriority t = some t') : Collected C env s t' :=
  collectTxs_of_rounds
    (fun tx htx _ _ h₁ hround => collectTx_collected hinj hs hpool h₁ (hcand tx htx) hround) h hloop

omit hinj hpool in
theorem Collected.init : Collected C env s Template.init where
  filed := by
    rw [Template.init, overlay_empty, s.sources_readTxIndex]
    exact hs.view.mono fun _ _ _ hpos => .inr hpos
  resolves := by simp [Template.init]
  nFees := rfl

omit hinj hs hpool in
/-- The template is the coinbase and what the loop collected. -/
theorem createNewBlock_eq_some (hbest : s.best = some pindexPrev) {b : CBlock}
    (h : s.createNewBlock C env m = some b) :
    ∃ t, s.collectTxs C env m pindexPrev (m.order (s.candidates env)) Template.init = some t ∧
      b.vtx = NodeState.templateCoinbase env m pindexPrev t.nFees :: t.vtx := by
  simp only [NodeState.createNewBlock, hbest] at h
  split at h
  · cases h
  · obtain ⟨t, ht, rfl⟩ := Option.map_eq_some_iff.mp h
    exact ⟨t, ht, rfl⟩

/-- **The template**: a coinbase that pays the reward at the height of the tip for the fees, and
transactions that are found in the active index. -/
theorem createNewBlock_spec (hbest : s.best = some pindexPrev) {b : CBlock}
    (h : s.createNewBlock C env m = some b) :
    ∃ t, Collected C env s t ∧
      b.vtx = NodeState.templateCoinbase env m pindexPrev t.nFees :: t.vtx := by
  obtain ⟨t, ht, hvtx⟩ := createNewBlock_eq_some hbest h
  exact ⟨t, collectTxs_collected hinj hs hpool (fun tx htx => m.mem_order htx)
    (Collected.init hs) ht, hvtx⟩

end Collect

/-! ## The fees of ConnectBlock -/

/-- **The fees `ConnectBlock` finds**, in whatever state it connects transactions that are found in
the active index of `src`. -/
theorem connectTxs_nFees {src src' : Sources} {ctx : CTransaction.ConnectCtx}
    {F : Uint256 → CDiskTxPos → Nat → Prop} (hinj : HashInjective C)
    (hsrc : SourcesNamed C src ∅)
    (hF : ∀ hash pos n, F hash pos n → pos ≠ CDiskTxPos.memPool ∧
      ∀ tx, src'.readTx pos = some tx → C.hashTx tx = hash ∧ tx.vout.length = n)
    {txs : List (CTransaction × CDiskTxPos)} :
    ∀ {t t' : ConnectTotals}, IndexFiled F (overlay src'.readTxIndex t.mapQueuedChanges) →
      (∀ p ∈ txs, F (C.hashTx p.1) p.2 p.1.vout.length) →
      (∀ p ∈ txs, p.1.isCoinBase = false → Resolves src p.1) →
      connectTxs C src' ctx txs t = some t' →
      t'.nFees = feesFrom src t.nFees (txs.map Prod.fst) := by
  induction txs with
  | nil =>
    intro t t' _ _ _ h
    obtain rfl := Option.some.inj h
    rfl
  | cons p txs ih =>
    intro t t' hq htxs hres h
    rw [connectTxs] at h
    split at h
    · cases h
    · next t₁ ht₁ =>
      have hq₁ := connectTx_filed hq (htxs p List.mem_cons_self) ht₁
      obtain ⟨nTxValueOut, q, hout, -, -, hcases⟩ := connectTx_cases ht₁
      have hfees : t₁.nFees = if p.1.isCoinBase || p.1.isCoinStake then t.nFees
          else Int64.wrap (t.nFees + Int64.wrap (p.1.activeValueIn src - p.1.valueOut)) := by
        rcases hcases with ⟨hcb, -, -, hfees, -⟩ | ⟨hcb, v, -, hv, -, -, hfees, -⟩
        · rw [hfees, hcb, Bool.true_or, if_pos rfl]
        · have hp := hres p List.mem_cons_self hcb
          obtain rfl := Option.some.inj (hp.valueOut.symm.trans hout)
          have hnamed := fetchInputs_namedBy (Bool.or_false true)
            (SourcesNamed.of_filed hq hF) p.1
          obtain rfl := getValueMapIn_unique hinj hnamed (getMapTxInputs_namedBy hsrc p.1) hv
            hp.valueIn
          rw [hfees, hcb, Bool.false_or]
      rw [List.map_cons, feesFrom_cons, ← hfees]
      exact ih hq₁ (fun p' hp' => htxs p' (List.mem_cons_of_mem _ hp'))
        (fun p' hp' => hres p' (List.mem_cons_of_mem _ hp')) h

/-! ## The value rules -/

/-- Fees that stay within 63 bits are the difference of the values in and out. -/
theorem feesFrom_eq {src : Sources} {vtx : List CTransaction}
    (h : ∀ tx ∈ vtx, Resolves src tx ∧ tx.isCoinBase = false ∧ tx.isCoinStake = false ∧
      tx.valueOut ≤ tx.activeValueIn src) :
    ∀ {nFees : Int}, 0 ≤ nFees → nFees + totalIn src vtx < 2 ^ 63 →
      feesFrom src nFees vtx = nFees + (totalIn src vtx - totalOut vtx) := by
  induction vtx with
  | nil => simp [feesFrom, totalIn, totalOut]
  | cons tx vtx ih =>
    intro nFees hn hlt
    obtain ⟨hres, hcb, hstake, hle⟩ := h tx List.mem_cons_self
    have hrest := fun tx' h' => h tx' (List.mem_cons_of_mem tx h')
    obtain ⟨hnonneg, -⟩ := totals_nonneg fun tx' h' => (hrest tx' h').1
    have hin := moneyRange_iff.mp hres.rangeIn
    have hout := moneyRange_iff.mp hres.rangeOut
    have htotalIn : totalIn src (tx :: vtx) = tx.activeValueIn src + totalIn src vtx := rfl
    have htotalOut : totalOut (tx :: vtx) = tx.valueOut + totalOut vtx := rfl
    rw [htotalIn] at hlt ⊢
    have hwrap : Int64.wrap (nFees + Int64.wrap (tx.activeValueIn src - tx.valueOut)) =
        nFees + (tx.activeValueIn src - tx.valueOut) := by
      unfold Int64.wrap
      omega
    rw [feesFrom_cons, hcb, hstake, Bool.or_self, if_neg (by simp), hwrap, htotalOut,
      ih hrest (by omega) (by omega)]
    omega

/-- Above height 10000 the subsidy is not lower than before away from the drops. -/
theorem getProofOfWorkSubsidy_pred_le_iff {h : Int} (hh : 10000 < h) :
    getProofOfWorkSubsidy (h - 1) ≤ getProofOfWorkSubsidy h ↔ h ∉ subsidyDrops := by
  constructor
  · intro hle hdrop
    exact absurd hle (not_le.mpr (getProofOfWorkSubsidy_lt_pred hdrop))
  · intro hdrop
    exact (getProofOfWorkSubsidy_eq_pred hh hdrop).le

/-- The value out of the coinbase of a template. -/
theorem getValueOut_of_vout_eq {tx : CTransaction} {v : Int} {script : CScript}
    (hv : Int64.InRange v) (h : tx.vout = [⟨Int64.wrap (v - devCoin), script⟩, ⟨devCoin, []⟩]) :
    tx.getValueOut = if moneyRange v then some v else none := by
  have hword : Int64.wrap v = v := Int64.wrap_eq_self hv
  have hzero : Int64.wrap (v - devCoin) = v := by
    rw [devCoin, zero_mul, sub_zero, hword]
  cases hm : moneyRange v with
  | false => simp [CTransaction.getValueOut, CTransaction.getValueOutFrom, h, hzero, hm]
  | true =>
    simp [CTransaction.getValueOut, CTransaction.getValueOutFrom, h, hm, hword, devCoin,
      show moneyRange 0 = true from rfl]

/-- The subsidy and the fees of a coinbase that is an amount of money. -/
theorem getProofOfWorkReward_eq_of_moneyRange {nHeight nFees : Int} (hfees : 0 ≤ nFees)
    (hfees' : nFees < 2 ^ 63) (h : moneyRange (getProofOfWorkReward nHeight nFees) = true) :
    getProofOfWorkReward nHeight nFees = getProofOfWorkSubsidy nHeight + nFees := by
  have hR := getProofOfWorkSubsidy_bounds nHeight
  have hm := moneyRange_iff.mp h
  unfold COIN at hR
  unfold getProofOfWorkReward Int64.wrap at hm ⊢
  omega

section Template

variable {s : NodeState} {m : Miner} {pindexPrev : CBlockIndex} {template b : CBlock}
  (hinj : HashInjective C) (hs : Reached C s) (hpool : s.mempool.Named C)
  (hbest : s.best = some pindexPrev) (hcreate : s.createNewBlock C env m = some template)
  (hsolve : Solves template b)
include hinj hs hpool hbest hcreate hsolve

/-- A solved template: its coinbase pays the reward for the fees that are in it. -/
theorem solved_spec :
    ∃ coinbase vtx, b.vtx = coinbase :: vtx ∧ coinbase.isCoinBase = true ∧
      (∀ tx ∈ vtx, Resolves (s.sources env) tx ∧ tx.isCoinBase = false ∧ tx.isCoinStake = false ∧
        tx.valueOut ≤ tx.activeValueIn (s.sources env)) ∧
      feesFrom (s.sources env) 0 b.vtx = feesFrom (s.sources env) 0 vtx ∧
      coinbase.getValueOut =
        if moneyRange (getProofOfWorkReward pindexPrev.nHeight (feesFrom (s.sources env) 0 b.vtx))
          then some (getProofOfWorkReward pindexPrev.nHeight (feesFrom (s.sources env) 0 b.vtx))
          else none := by
  obtain ⟨t, ht, hvtx⟩ := createNewBlock_spec hinj hs.filed hpool hbest hcreate
  obtain ⟨cb, coinbase, vtx, hcb, hb, hiscb, hvout⟩ := hsolve.vtx
  rw [hvtx] at hcb
  obtain ⟨rfl, rfl⟩ := List.cons.inj hcb
  have hfees : feesFrom (s.sources env) 0 b.vtx = t.nFees := by
    rw [hb, feesFrom_cons, hiscb, Bool.true_or, if_pos rfl, ht.nFees]
  refine ⟨coinbase, t.vtx, hb, hiscb, ht.resolves, by rw [hfees, ht.nFees], ?_⟩
  rw [hfees]
  exact getValueOut_of_vout_eq (Int64.inRange_wrap _) hvout

omit hpool hcreate hsolve hinj hs in
/-- The limit of `ConnectBlock` for a coinbase that pays the reward at the height of the tip. -/
theorem checkCoinbaseReward_iff_moneyRange {nFees : Int} {coinbase : CTransaction}
    {vtx : List CTransaction} (hvtx : b.vtx = coinbase :: vtx)
    (hout : coinbase.getValueOut =
      if moneyRange (getProofOfWorkReward pindexPrev.nHeight nFees)
        then some (getProofOfWorkReward pindexPrev.nHeight nFees) else none) :
    s.checkCoinbaseReward b nFees = true ↔
      moneyRange (getProofOfWorkReward pindexPrev.nHeight nFees) = true := by
  rw [NodeState.checkCoinbaseReward, hbest, hvtx]
  simp only [hout]
  cases moneyRange (getProofOfWorkReward pindexPrev.nHeight nFees) with
  | false => simp
  | true => simp

omit hinj hs hpool hbest hcreate hsolve in
/-- The aggregate rule for a coinbase that pays the reward at the height of the tip: the fees are
covered, so what decides is whether the subsidy fell. -/
theorem accepted_iff_not_mem_subsidyDrops {src : Sources} {coinbase : CTransaction}
    {vtx : List CTransaction} {nHeight : Nat} (hcb : coinbase.isCoinBase = true)
    (hres : ∀ tx ∈ vtx, Resolves src tx ∧ tx.isCoinBase = false ∧ tx.isCoinStake = false ∧
      tx.valueOut ≤ tx.activeValueIn src)
    (hmoney : moneyRange (getProofOfWorkReward nHeight (feesFrom src 0 vtx)) = true)
    (hout : coinbase.getValueOut = some (getProofOfWorkReward nHeight (feesFrom src 0 vtx)))
    (hheight : 10000 < nHeight + 1) :
    (aggregateFrom src (coinbase :: vtx) 0 0).accepted (nHeight + 1) = true ↔
      totalIn src (coinbase :: vtx) + getProofOfWorkSubsidy (nHeight + 1 : Nat) < 2 ^ 63 ∧
        ((nHeight + 1 : Nat) : Int) ∉ subsidyDrops := by
  have hcbres : Resolves src coinbase := Resolves.of_isCoinBase hcb (by rw [hout]; rfl)
  have hall : ∀ tx ∈ coinbase :: vtx, Resolves src tx := by
    intro tx htx
    rcases List.mem_cons.mp htx with rfl | htx
    · exact hcbres
    · exact (hres tx htx).1
  have hcbin : coinbase.activeValueIn src = 0 := by
    rw [CTransaction.activeValueIn, CTransaction.getValueMapIn, if_pos hcb, Option.getD_some]
  have hcbout : coinbase.valueOut = getProofOfWorkReward nHeight (feesFrom src 0 vtx) :=
    (CTransaction.getValueOut_eq hout).1.symm
  have hIn : totalIn src (coinbase :: vtx) = totalIn src vtx := by
    simp [totalIn, hcbin]
  have hOut : totalOut (coinbase :: vtx) = coinbase.valueOut + totalOut vtx := rfl
  have hdrop := @getProofOfWorkSubsidy_pred_le_iff (nHeight + 1 : Nat) (by omega)
  have hpred : ((nHeight + 1 : Nat) : Int) - 1 = nHeight := by omega
  rw [hpred] at hdrop
  obtain ⟨hR, -⟩ := getProofOfWorkSubsidy_bounds (nHeight + 1 : Nat)
  rw [accepted_iff_of_resolves hall, hIn, hOut, hcbout, ← hdrop]
  refine and_congr_right fun hlt => ?_
  -- the fees are the difference of the sums, and the reward is the subsidy and the fees
  have hfees := feesFrom_eq hres le_rfl (by omega)
  obtain ⟨-, hnonneg⟩ := totals_nonneg fun tx htx => (hres tx htx).1
  have hle : totalOut vtx ≤ totalIn src vtx :=
    List.sum_le_sum fun tx htx => (hres tx htx).2.2.2
  rw [getProofOfWorkReward_eq_of_moneyRange (by omega) (by omega) hmoney]
  omega

/-- **When a template keeps the value rules.** The solved template passes the aggregate rule of
`AcceptBlock` at its height and the coinbase limit of `ConnectBlock` if and only if its reward is an
amount of money and, where the aggregate rule applies, its inputs fit in 63 bits and no lower subsidy
starts at its height. The fees meant are those `ConnectBlock` finds, in whatever state it connects
the block. -/
theorem template_valueRules_iff :
    (s.checkAggregate env b (pindexPrev.nHeight + 1) = true ∧
        s.checkCoinbaseReward b (feesFrom (s.sources env) 0 b.vtx) = true ↔
      moneyRange (getProofOfWorkReward pindexPrev.nHeight (feesFrom (s.sources env) 0 b.vtx)) =
        true ∧
      (aggregateApplies (pindexPrev.nHeight + 1) = true →
        totalIn (s.sources env) b.vtx + getProofOfWorkSubsidy (pindexPrev.nHeight + 1 : Nat) <
            2 ^ 63 ∧
          ((pindexPrev.nHeight + 1 : Nat) : Int) ∉ subsidyDrops)) ∧
    ∀ (s₂ : NodeState) (env₂ : Env) (k : Uint256) (pindex : CBlockIndex) (t : ConnectTotals),
      Reached C s₂ → s₂.blockOf k = some b → s₂.mapBlockIndex k = some pindex →
      connectTxs C (s₂.sources env₂) (s₂.connectCtx pindex true)
        (txPositions pindex.nFile pindex.nBlockPos b) ConnectTotals.init = some t →
      t.nFees = feesFrom (s.sources env) 0 b.vtx := by
  obtain ⟨coinbase, vtx, hvtx, hcb, hres, hfees, hout⟩ :=
    solved_spec hinj hs hpool hbest hcreate hsolve
  refine ⟨?_, ?_⟩
  · rw [checkCoinbaseReward_iff_moneyRange hbest hvtx hout, and_comm]
    refine and_congr_right fun hmoney => ?_
    rw [NodeState.checkAggregate]
    cases happ : aggregateApplies (pindexPrev.nHeight + 1) with
    | false => simp
    | true =>
      have hheight : 10000 < pindexPrev.nHeight + 1 := by
        simp only [aggregateApplies, Bool.and_eq_true, decide_eq_true_eq] at happ
        exact happ.1
      rw [hmoney, if_pos rfl] at hout
      rw [hfees] at hmoney hout
      rw [Bool.not_true, Bool.false_or, hvtx,
        accepted_iff_not_mem_subsidyDrops hcb hres hmoney hout hheight]
      simp
  · intro s₂ env₂ k pindex t h₂ hb hpindex hconnect
    obtain ⟨e, he, hfile⟩ := NodeState.blockOf_eq_some hb
    obtain rfl := Option.some.inj (he.symm.trans hpindex)
    have hnFees := connectTxs_nFees hinj (hs.filed.sourcesNamed env)
      (fun hash pos n hpos => h₂.filed.readTx env₂ hpos) ?_ ?_ ?_ hconnect
    · rw [hnFees, map_fst_txPositions]
      rfl
    · rw [s₂.sources_readTxIndex, ConnectTotals.init, overlay_empty]
      exact h₂.filed.view
    · intro p hp
      exact ⟨k, p, by rwa [NodeState.blockTxs_eq he hfile], rfl, rfl, rfl⟩
    · intro p hp hpcb
      have hmem : p.1 ∈ b.vtx := by
        rw [← map_fst_txPositions e.nFile e.nBlockPos b]
        exact List.mem_map_of_mem hp
      rw [hvtx] at hmem
      rcases List.mem_cons.mp hmem with hcoinbase | hmem
      · rw [hcoinbase, hcb] at hpcb
        cases hpcb
      · exact (hres p.1 hmem).1

end Template

/-! ## A template at a drop of the subsidy -/

/-- A miner that takes transactions in the order of the pool. -/
def sampleMiner : Miner where
  scriptPubKey := [1]
  blockmaxsize := 250000
  order := id
  mem_order := id
  skipsFree _ _ := false

/-- A tip at a height. -/
def minerTip (nHeight : Nat) : StoredBlock :=
  ⟨plainBlock 0 1 1000 [heightCoinbase nHeight 1000 0], nHeight, 1⟩

/-- Hashes that number the tip from one. -/
noncomputable def minerCrypto (nHeight : Nat) : Crypto :=
  labelCrypto [heightCoinbase nHeight 1000 0] [(minerTip nHeight).block.getBlockHeader]

/-- The node with that tip and an empty memory pool. -/
noncomputable def minerNode (nHeight : Nat) : NodeState :=
  storedNode (minerCrypto nHeight) [minerTip nHeight]

/-- The template on the tip: 75 coins and nothing else. -/
def sampleTemplate (scriptSig : CScript) : CBlock where
  nVersion := 6
  hashPrevBlock := 1
  hashMerkleRoot := 0
  nTime := 10000
  nBits := 0x1e0fffff
  nNonce := 0
  vtx := [⟨1, 10000, [⟨COutPoint.null, scriptSig, 4294967295⟩], [⟨75 * COIN, [1]⟩, ⟨0, []⟩], 0⟩]
  vchBlockSig := []

theorem sampleTemplate_solves (scriptSig : CScript) :
    Solves (sampleTemplate []) (sampleTemplate scriptSig) :=
  ⟨rfl, _, _, [], rfl, rfl, rfl, rfl⟩

theorem minerNode_named (nHeight : Nat) : (minerNode nHeight).mempool.Named (minerCrypto nHeight) :=
  fun hash tx h => by cases h

/-- On a tip at height 61740 the subsidy stays at 75 coins. -/
theorem template_valueRules_iff_sample :
    (minerNode 61740).checkAggregate tallEnv (sampleTemplate (pushHeight 61741)) 61741 = true ∧
      (minerNode 61740).checkCoinbaseReward (sampleTemplate (pushHeight 61741)) 0 = true := by
  have hbest : (minerNode 61740).best =
      some (storedEntry (minerCrypto 61740) 0 (minerTip 61740)) := by decide +kernel
  have hcreate : (minerNode 61740).createNewBlock (minerCrypto 61740) tallEnv sampleMiner =
      some (sampleTemplate []) := by decide +kernel
  exact (template_valueRules_iff (labelCrypto_hashInjective _ _) (storedNode_reached _)
    (minerNode_named 61740) hbest hcreate (sampleTemplate_solves (pushHeight 61741))).1.mpr
      (by decide +kernel)

/-- On a tip at height 61741 the template still pays 75 coins, while the aggregate rule allows 66 at
height 61742. -/
theorem not_forall_template_valueRules :
    ¬ ∀ (C : Crypto) (env : Env) (s : NodeState) (m : Miner) (pindexPrev : CBlockIndex)
      (template b : CBlock), HashInjective C → Reached C s → s.mempool.Named C →
      s.best = some pindexPrev → s.createNewBlock C env m = some template → Solves template b →
      s.checkAggregate env b (pindexPrev.nHeight + 1) = true ∧
        s.checkCoinbaseReward b (feesFrom (s.sources env) 0 b.vtx) = true := by
  intro hall
  have hrules := hall (minerCrypto 61741) tallEnv (minerNode 61741) sampleMiner
    (storedEntry (minerCrypto 61741) 0 (minerTip 61741)) (sampleTemplate [])
    (sampleTemplate (pushHeight 61742)) (labelCrypto_hashInjective _ _) (storedNode_reached _)
    (minerNode_named 61741) (by decide +kernel) (by decide +kernel) (sampleTemplate_solves _)
  have hfail : (minerNode 61741).checkAggregate tallEnv (sampleTemplate (pushHeight 61742)) 61742 =
      false := by decide +kernel
  exact absurd (hrules.1.symm.trans hfail) (by decide)

end MotaCoin
