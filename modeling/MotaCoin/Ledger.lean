import MotaCoin.Connect

/-!
# The transaction index as the spend index of a ledger

A list of transactions with their positions is a ledger: a transaction is an entry with its hash as
identity, the values of its outputs, and the outpoints it spends. The functions of `ConnectBlock`
and `DisconnectBlock` maintain the spend index of that ledger: what `ConnectInputs` queues is the
marking of the outputs it spends, what `DisconnectInputs` writes is the unmarking.

## Main definitions

* `entryOf`, `ledgerOf`, `indexOf`: transactions as ledger entries, and the index of a ledger
* `overlay`: the transaction index with queued changes on top
* `ReadsBack`: what is read back from a position is what was put there
* `IndexDescribes`: what a transaction index says of the transactions of a chain

## Main results

* `fetchInputs_spec`, `spendInputs_spec`: the loops of `FetchInputs` and `ConnectInputs`
* `connectTx_spec`, `connectTxs_spec`: connecting adds fitting entries, and sums their values
* `disconnectInputs_spec`, `disconnectTxs_spec`: disconnecting takes entries back
-/

namespace MotaCoin

open SpendIndex (Entry Valid Fits Spendable ofLedger markAll mark valueOf unspentValue)

variable (C : Crypto)

/-! ## Transactions as ledger entries -/

/-- An outpoint as a pair. -/
def COutPoint.toPair (o : COutPoint) : Uint256 × Nat := (o.hash, o.n)

theorem COutPoint.toPair_injective : Function.Injective COutPoint.toPair := by
  rintro ⟨h, n⟩ ⟨h', n'⟩ heq
  obtain ⟨rfl, rfl⟩ := Prod.mk.inj heq
  rfl

/-- A transaction at a position, as a ledger entry. -/
def entryOf (p : CTransaction × CDiskTxPos) : Entry Uint256 CDiskTxPos where
  id := C.hashTx p.1
  outs := p.1.vout.map CTxOut.nValue
  spends := p.1.spends.map COutPoint.toPair
  pos := p.2

/-- A list of transactions as a ledger. -/
def ledgerOf (txs : List (CTransaction × CDiskTxPos)) : List (Entry Uint256 CDiskTxPos) :=
  txs.map (entryOf C)

/-- **The transaction index of a list of transactions**: the position of each, and for each output
the position of the transaction that spends it. -/
def indexOf (txs : List (CTransaction × CDiskTxPos)) : TxIndexMap :=
  ofLedger CDiskTxPos.null (ledgerOf C txs)

theorem ledgerOf_append (txs txs' : List (CTransaction × CDiskTxPos)) :
    ledgerOf C (txs ++ txs') = ledgerOf C txs ++ ledgerOf C txs' := List.map_append

/-- A usable position: neither null nor the mark of the memory pool. -/
def CDiskTxPos.Proper (pos : CDiskTxPos) : Prop :=
  pos.isNull = false ∧ pos ≠ CDiskTxPos.memPool

/-- What is read from the positions of `txs` is what `txs` says. -/
def ReadsBack (readTx : CDiskTxPos → Option CTransaction)
    (txs : List (CTransaction × CDiskTxPos)) : Prop :=
  ∀ p ∈ txs, ∀ tx, readTx p.2 = some tx → tx = p.1

/-! ## Queued changes -/

/-- The transaction index with the queued changes on top. -/
def overlay (readTxIndex : TxIndexMap) (q : TxIndexQueue) : TxIndexMap :=
  fun hash => (q.lookup hash).or (readTxIndex hash)

@[simp] theorem overlay_empty (readTxIndex : TxIndexMap) : overlay readTxIndex ∅ = readTxIndex := by
  funext hash
  simp [overlay]

theorem overlay_insert (readTxIndex : TxIndexMap) (q : TxIndexQueue) (hash : Uint256)
    (txindex : CTxIndex) :
    overlay readTxIndex (q.insert hash txindex) =
      Function.update (overlay readTxIndex q) hash (some txindex) := by
  funext h
  by_cases hh : h = hash
  · subst hh
    simp [overlay]
  · simp [overlay, AList.lookup_insert_ne hh, Function.update_of_ne hh]

theorem lookupTxIndex_eq (src : Sources) (q : TxIndexQueue) {fBlock fMiner : Bool}
    (hf : (fBlock || fMiner) = true) (hash : Uint256) :
    CTransaction.lookupTxIndex src q fBlock fMiner hash = overlay src.readTxIndex q hash := by
  unfold CTransaction.lookupTxIndex overlay
  cases hq : q.lookup hash with
  | none => simp
  | some txindex => simp [hf]

/-! ## Fetching -/

/-- The entries of a fetched map come from the index and, unless marked, from the disk. -/
def FetchedFrom (src : Sources) (q : TxIndexQueue) (inputs : MapPrevTx) : Prop :=
  ∀ hash txindex txPrev, inputs hash = some (txindex, txPrev) →
    overlay src.readTxIndex q hash = some txindex ∧
      (txindex.pos ≠ CDiskTxPos.memPool → src.readTx txindex.pos = some txPrev)

theorem fetchPrev_spec {src : Sources} {q : TxIndexQueue} {fBlock fMiner : Bool}
    (hf : (fBlock || fMiner) = true) {hash : Uint256}
    (h : (CTransaction.fetchPrev src q fBlock fMiner hash).1 = true) :
    overlay src.readTxIndex q hash = some (CTransaction.fetchPrev src q fBlock fMiner hash).2.1 ∧
      ((CTransaction.fetchPrev src q fBlock fMiner hash).2.1.pos ≠ CDiskTxPos.memPool →
        src.readTx (CTransaction.fetchPrev src q fBlock fMiner hash).2.1.pos =
          some (CTransaction.fetchPrev src q fBlock fMiner hash).2.2) := by
  unfold CTransaction.fetchPrev at h ⊢
  rw [lookupTxIndex_eq src q hf] at h ⊢
  cases ho : overlay src.readTxIndex q hash with
  | none => simp [ho, hf] at h
  | some txindex =>
    simp only [ho] at h ⊢
    by_cases hpos : txindex.pos = CDiskTxPos.memPool
    · rw [if_pos hpos] at h ⊢
      cases hm : src.memPool hash with
      | none => simp [hm] at h
      | some txPrev => exact ⟨rfl, fun hne => absurd hpos hne⟩
    · rw [if_neg hpos] at h ⊢
      cases hr : src.readTx txindex.pos with
      | none => simp [hr] at h
      | some txPrev => exact ⟨rfl, fun _ => hr⟩

theorem fetchLoop_spec {src : Sources} {q : TxIndexQueue} {fBlock fMiner : Bool}
    (hf : (fBlock || fMiner) = true) {vin : List CTxIn} :
    ∀ {inputs inputs' : MapPrevTx}, FetchedFrom src q inputs →
      CTransaction.fetchLoop src q fBlock fMiner vin inputs = (true, inputs') →
      FetchedFrom src q inputs' := by
  induction vin with
  | nil =>
    intro inputs inputs' hin h
    simp only [CTransaction.fetchLoop, Prod.mk.injEq, true_and] at h
    exact h ▸ hin
  | cons txin vin ih =>
    intro inputs inputs' hin h
    simp only [CTransaction.fetchLoop] at h
    split at h
    · exact ih hin h
    · split at h
      · next hok =>
        refine ih ?_ h
        intro hash txindex txPrev hget
        by_cases hh : hash = txin.prevout.hash
        · subst hh
          rw [Function.update_self] at hget
          have := fetchPrev_spec hf hok
          rw [Option.some.inj hget] at this
          exact this
        · rw [Function.update_of_ne hh] at hget
          exact hin hash txindex txPrev hget
      · simp at h

/-- **Fetched inputs** come from the index with the queued changes on top. -/
theorem fetchInputs_spec {src : Sources} {tx : CTransaction} {q : TxIndexQueue}
    {fBlock fMiner : Bool} (hf : (fBlock || fMiner) = true) (hcb : tx.isCoinBase = false)
    (h : (tx.fetchInputs src q fBlock fMiner).ok = true) :
    FetchedFrom src q (tx.fetchInputs src q fBlock fMiner).inputsRet := by
  simp only [CTransaction.fetchInputs, hcb, Bool.false_eq_true, if_false] at h ⊢
  generalize hr : CTransaction.fetchLoop src q fBlock fMiner tx.vin (fun _ => none) = r at h ⊢
  obtain ⟨ok, inputs⟩ := r
  have hfrom : ok = true → FetchedFrom src q inputs := by
    rintro rfl
    exact fetchLoop_spec hf (fun _ _ _ h => by simp at h) hr
  cases ok with
  | false => simp at h
  | true =>
    simp only [Bool.not_true, Bool.false_eq_true, if_false] at h ⊢
    split at h
    · next hall => simpa [hall] using hfrom rfl
    · simp at h

/-! ## Values -/

theorem CTransaction.getValueOutFrom_eq {vout : List CTxOut} :
    ∀ {nValueOut v : Int}, moneyRange nValueOut = true →
      CTransaction.getValueOutFrom nValueOut vout = some v →
      v = nValueOut + (vout.map CTxOut.nValue).sum ∧ moneyRange v = true := by
  induction vout with
  | nil =>
    intro nValueOut v hr h
    obtain rfl := Option.some.inj h
    exact ⟨by simp, hr⟩
  | cons txout vout ih =>
    intro nValueOut v hr h
    simp only [CTransaction.getValueOutFrom] at h
    split at h
    · simp at h
    · next hok =>
      simp only [Bool.or_eq_true, Bool.not_eq_true', not_or, Bool.not_eq_false] at hok
      have hw : Int64.wrap (nValueOut + txout.nValue) = nValueOut + txout.nValue := by
        apply Int64.wrap_eq_self
        have h₁ := moneyRange_iff.mp hr
        have h₂ := moneyRange_iff.mp hok.1
        unfold Int64.InRange
        omega
      obtain ⟨rfl, hv⟩ := ih hok.2 h
      refine ⟨?_, hv⟩
      rw [hw, List.map_cons, List.sum_cons, add_assoc]

/-- `GetValueOut` is the sum of the outputs, in the money range. -/
theorem CTransaction.getValueOut_eq {tx : CTransaction} {v : Int} (h : tx.getValueOut = some v) :
    v = (tx.vout.map CTxOut.nValue).sum ∧ moneyRange v = true := by
  have := CTransaction.getValueOutFrom_eq (by decide) h
  simpa using this

theorem CTransaction.getValueMapInFrom_eq {inputs : MapPrevTx} (value : COutPoint → Int)
    {vin : List CTxIn}
    (hval : ∀ txin ∈ vin, ∀ txout, CTransaction.getOutputFor txin inputs = some txout →
      txout.nValue = value txin.prevout) :
    ∀ {nResult v : Int}, CTransaction.getValueMapInFrom inputs (Int64.wrap nResult) vin = some v →
      v = Int64.wrap (nResult + (vin.map fun txin => value txin.prevout).sum) := by
  induction vin with
  | nil =>
    intro nResult v h
    simpa [CTransaction.getValueMapInFrom] using h.symm
  | cons txin vin ih =>
    intro nResult v h
    simp only [CTransaction.getValueMapInFrom] at h
    split at h
    · simp at h
    · next txout ho =>
      rw [Int64.wrap_add_wrap, hval txin List.mem_cons_self txout ho] at h
      rw [ih (fun t ht => hval t (List.mem_cons_of_mem _ ht)) h, List.map_cons, List.sum_cons,
        add_assoc]

/-- What is read at the position of an index record is a transaction of the chain, with the outputs
of the ledger. -/
theorem readTx_of_indexOf {readTx : CDiskTxPos → Option CTransaction}
    {txs : List (CTransaction × CDiskTxPos)} (hproper : ∀ p ∈ txs, p.2.Proper)
    (hdisk : ReadsBack readTx txs) {o : COutPoint} {txindex : CTxIndex} {txPrev : CTransaction}
    (hidx : indexOf C txs o.hash = some txindex)
    (hread : txindex.pos ≠ CDiskTxPos.memPool → readTx txindex.pos = some txPrev) :
    ∃ p ∈ txs, C.hashTx p.1 = o.hash ∧ p.1 = txPrev ∧
      valueOf (ledgerOf C txs) o.toPair = ((p.1.vout.map CTxOut.nValue)[o.n]?).getD 0 := by
  rw [indexOf, ofLedger] at hidx
  obtain ⟨e, hfind, rfl⟩ := Option.map_eq_some_iff.mp hidx
  obtain ⟨p, hp, rfl⟩ := List.mem_map.mp (List.mem_of_find?_eq_some hfind)
  obtain rfl := hdisk p hp _ (hread (hproper p hp).2)
  have hvalue : valueOf (ledgerOf C txs) o.toPair =
      ((some (entryOf C p)).bind fun e => e.outs[o.n]?).getD 0 := by
    rw [← hfind]
    rfl
  have hid := List.find?_some hfind
  exact ⟨p, hp, of_decide_eq_true hid, rfl, hvalue⟩

/-- The value a fetched input has is the value of its outpoint in the ledger. -/
theorem getOutputFor_value {src : Sources} {q : TxIndexQueue} {inputs : MapPrevTx}
    {txs : List (CTransaction × CDiskTxPos)} (hin : FetchedFrom src q inputs)
    (hov : overlay src.readTxIndex q = indexOf C txs) (hproper : ∀ p ∈ txs, p.2.Proper)
    (hdisk : ReadsBack src.readTx txs) {txin : CTxIn} {txout : CTxOut}
    (h : CTransaction.getOutputFor txin inputs = some txout) :
    txout.nValue = valueOf (ledgerOf C txs) txin.prevout.toPair := by
  unfold CTransaction.getOutputFor at h
  cases hi : inputs txin.prevout.hash with
  | none => simp [hi] at h
  | some e =>
    obtain ⟨txindex, txPrev⟩ := e
    simp only [hi] at h
    obtain ⟨hidx, hread⟩ := hin _ _ _ hi
    rw [hov] at hidx
    obtain ⟨p, -, -, rfl, hvalue⟩ := readTx_of_indexOf C hproper hdisk hidx hread
    simp [hvalue, h]

/-! ## Connecting -/

theorem spendInputs_spec {src : Sources} {ctx : CTransaction.ConnectCtx} {tx : CTransaction}
    {pos : CDiskTxPos} {fBlock fMiner : Bool} (hf : (fBlock || fMiner) = true) {vin : List CTxIn} :
    ∀ {i : Nat} {inputs : MapPrevTx} {q q' : TxIndexQueue},
      (∀ hash e, inputs hash = some e → overlay src.readTxIndex q hash = some e.1) →
      CTransaction.spendInputs C ctx tx pos fBlock fMiner i vin inputs q = some q' →
      overlay src.readTxIndex q' = markAll (overlay src.readTxIndex q)
          (vin.map fun txin => txin.prevout.toPair) pos ∧
        Spendable CDiskTxPos.isNull (overlay src.readTxIndex q)
          (vin.map fun txin => txin.prevout.toPair) pos := by
  induction vin with
  | nil =>
    intro i inputs q q' hin h
    obtain rfl := Option.some.inj h
    exact ⟨rfl, trivial⟩
  | cons txin vin ih =>
    intro i inputs q q' hin h
    simp only [CTransaction.spendInputs] at h
    split at h
    · simp at h
    · next txindex txPrev hi =>
      have hov : overlay src.readTxIndex q txin.prevout.hash = some txindex := hin _ _ hi
      split at h
      · simp at h
      · next p hp =>
        split at h
        · simp at h
        · next hnull =>
          split at h
          · simp at h
          · have hmark : overlay src.readTxIndex (q.insert txin.prevout.hash
                { txindex with vSpent := txindex.vSpent.set txin.prevout.n pos }) =
                mark (overlay src.readTxIndex q) txin.prevout.toPair pos := by
              rw [overlay_insert, mark]
              simp only [COutPoint.toPair, hov, Option.map_some]
            obtain ⟨h₁, h₂⟩ := ih (by
              intro hash e hget
              rw [overlay_insert]
              by_cases hh : hash = txin.prevout.hash
              · subst hh
                rw [Function.update_self] at hget ⊢
                obtain rfl := Option.some.inj hget
                rfl
              · rw [Function.update_of_ne hh] at hget ⊢
                exact hin hash e hget) h
            rw [hmark] at h₁ h₂
            exact ⟨h₁, ⟨txindex, p, hov, hp, by simpa using hnull⟩, h₂⟩

/-- `ConnectInputs` marks the outputs the transaction spends, each of which was unspent. -/
theorem connectInputs_spec {src : Sources} {ctx : CTransaction.ConnectCtx} {tx : CTransaction}
    {pos : CDiskTxPos} {fBlock fMiner : Bool} (hf : (fBlock || fMiner) = true)
    (hcb : tx.isCoinBase = false) {inputs : MapPrevTx} {q q' : TxIndexQueue}
    (hin : FetchedFrom src q inputs)
    (h : tx.connectInputs C ctx inputs q pos fBlock fMiner = some q') :
    overlay src.readTxIndex q' =
        markAll (overlay src.readTxIndex q) (tx.spends.map COutPoint.toPair) pos ∧
      Spendable CDiskTxPos.isNull (overlay src.readTxIndex q) (tx.spends.map COutPoint.toPair) pos := by
  simp only [CTransaction.connectInputs, hcb, Bool.false_eq_true, if_false] at h
  split at h
  · simp at h
  · split at h
    · simp at h
    · next q'' hq =>
      have hspends : tx.spends.map COutPoint.toPair = tx.vin.map fun txin => txin.prevout.toPair := by
        simp [CTransaction.spends, hcb, Function.comp_def]
      split at h
      · simp at h
      · obtain rfl := Option.some.inj h
        rw [hspends]
        exact spendInputs_spec C hf (fun hash e hget => (hin hash e.1 e.2 hget).1) hq

/-- The state of the loop of `ConnectBlock` after the transactions `txs` of the chain, the last of
them from the block: the queue shows the index of `txs`, and the sums differ by what the unspent
value of `txs` is over the one before the block, `base`. -/
structure ConnectInv (src : Sources) (base : Int) (txs : List (CTransaction × CDiskTxPos))
    (t : ConnectTotals) : Prop where
  valid : Valid (ledgerOf C txs)
  index : overlay src.readTxIndex t.mapQueuedChanges = indexOf C txs
  supply : Int64.wrap (t.nValueOut - t.nValueIn) =
    Int64.wrap (unspentValue (ledgerOf C txs) - base)

/-- What the spends of a transaction are worth in a ledger. -/
def valueIn (txs : List (CTransaction × CDiskTxPos)) (tx : CTransaction) : Int :=
  (tx.spends.map fun o => valueOf (ledgerOf C txs) o.toPair).sum

/-- What the outputs of a transaction are worth. -/
def CTransaction.valueOut (tx : CTransaction) : Int := (tx.vout.map CTxOut.nValue).sum

theorem spends_of_isCoinBase {tx : CTransaction} (h : tx.isCoinBase = true) : tx.spends = [] := by
  simp [CTransaction.spends, h]

/-- A fitting transaction extends the index as `ConnectBlock` does. -/
theorem indexOf_snoc {txs : List (CTransaction × CDiskTxPos)} {p : CTransaction × CDiskTxPos}
    (hv : Valid (ledgerOf C txs)) (hf : Fits (ledgerOf C txs) (entryOf C p)) :
    indexOf C (txs ++ [p]) = Function.update
      (markAll (indexOf C txs) (p.1.spends.map COutPoint.toPair) p.2) (C.hashTx p.1)
      (some (CTxIndex.fresh p.2 p.1.vout.length)) := by
  rw [indexOf, ledgerOf_append]
  refine (SpendIndex.ofLedger_snoc CDiskTxPos.null hv hf).trans ?_
  rw [SpendIndex.create]
  simp only [entryOf, List.length_map]
  rfl

theorem unspentValue_ledgerOf_snoc {txs : List (CTransaction × CDiskTxPos)} {tx : CTransaction}
    {pos : CDiskTxPos} (hv : Valid (ledgerOf C txs))
    (hf : Fits (ledgerOf C txs) (entryOf C (tx, pos))) :
    unspentValue (ledgerOf C (txs ++ [(tx, pos)])) =
      unspentValue (ledgerOf C txs) + tx.valueOut - valueIn C txs tx := by
  rw [ledgerOf_append]
  refine (SpendIndex.unspentValue_snoc hv hf).trans ?_
  simp [entryOf, CTransaction.valueOut, valueIn, Function.comp_def]

/-- **One round of `ConnectBlock`**: the transaction fits the chain before it, the queue then shows
the index with it, and the sums grow by what it spends and creates. -/
theorem connectTx_spec {src : Sources} {ctx : CTransaction.ConnectCtx} {base : Int}
    {txs : List (CTransaction × CDiskTxPos)} {t t' : ConnectTotals}
    (hinv : ConnectInv C src base txs t) (hproper : ∀ p ∈ txs, p.2.Proper)
    (hdisk : ReadsBack src.readTx txs) {tx : CTransaction} {pos : CDiskTxPos}
    (hpos : pos.Proper) (hfresh : ∀ p ∈ txs, C.hashTx p.1 ≠ C.hashTx tx)
    (h : connectTx C src ctx t tx pos = some t') :
    ConnectInv C src base (txs ++ [(tx, pos)]) t' := by
  have hnull : ∀ e ∈ ledgerOf C txs, e.pos.isNull = false := by
    intro e he
    obtain ⟨p, hp, rfl⟩ := List.mem_map.mp he
    exact (hproper p hp).1
  have hfresh' : ∀ e ∈ ledgerOf C txs, e.id ≠ (entryOf C (tx, pos)).id := by
    intro e he
    obtain ⟨p, hp, rfl⟩ := List.mem_map.mp he
    exact hfresh p hp
  -- both branches end by queueing a fresh record over the marked index
  have hextend : ∀ q' : TxIndexQueue,
      overlay src.readTxIndex q' = markAll (overlay src.readTxIndex t.mapQueuedChanges)
        (tx.spends.map COutPoint.toPair) pos →
      Spendable CDiskTxPos.isNull (overlay src.readTxIndex t.mapQueuedChanges)
        (tx.spends.map COutPoint.toPair) pos →
      Fits (ledgerOf C txs) (entryOf C (tx, pos)) ∧
        overlay src.readTxIndex
          (q'.insert (C.hashTx tx) (CTxIndex.fresh pos tx.vout.length)) =
          indexOf C (txs ++ [(tx, pos)]) := by
    intro q' hq' hsp
    rw [hinv.index] at hq' hsp
    have hfits : Fits (ledgerOf C txs) (entryOf C (tx, pos)) :=
      SpendIndex.fits_of_spendable hinv.valid hnull hpos.1 hfresh' hsp
    refine ⟨hfits, ?_⟩
    rw [overlay_insert, hq', indexOf_snoc C hinv.valid hfits]
  have hvalid : Fits (ledgerOf C txs) (entryOf C (tx, pos)) →
      Valid (ledgerOf C (txs ++ [(tx, pos)])) := by
    intro hfits
    rw [ledgerOf_append]
    exact hinv.valid.snoc hfits
  have hsupply := Int64.wrap_eq_wrap_iff.mp hinv.supply
  simp only [connectTx] at h
  split at h
  · simp at h
  · split at h
    · simp at h
    · split at h
      · simp at h
      · next nTxValueOut hout =>
        obtain ⟨rfl, -⟩ := CTransaction.getValueOut_eq hout
        split at h
        · next hcb =>
          obtain rfl := Option.some.inj h
          have hsp : tx.spends = [] := spends_of_isCoinBase hcb
          obtain ⟨hfits, hidx⟩ := hextend t.mapQueuedChanges (by rw [hsp]; rfl)
            (by rw [hsp]; exact trivial)
          refine ⟨hvalid hfits, hidx, ?_⟩
          have hbal := unspentValue_ledgerOf_snoc C hinv.valid hfits
          rw [show valueIn C txs tx = 0 by simp [valueIn, hsp]] at hbal
          have hout' := Int64.wrap_sub_self_mod (t.nValueOut + tx.valueOut)
          rw [Int64.wrap_eq_wrap_iff, hbal]
          simp only [CTransaction.valueOut] at hout' ⊢
          omega
        · next hcb =>
          have hcb : tx.isCoinBase = false := by simpa using hcb
          split at h
          · simp at h
          · next hok =>
            have hok : (tx.fetchInputs src t.mapQueuedChanges true false).ok = true := by
              simpa using hok
            have hfrom := fetchInputs_spec rfl hcb hok
            split at h
            · next nP2SH nTxValueIn _ hin =>
              split at h
              · simp at h
              · split at h
                · simp at h
                · next q' hq' =>
                  obtain rfl := Option.some.inj h
                  obtain ⟨hmark, hsp⟩ := connectInputs_spec C rfl hcb hfrom hq'
                  obtain ⟨hfits, hidx⟩ := hextend q' hmark hsp
                  have hvin : nTxValueIn = Int64.wrap (valueIn C txs tx) := by
                    rw [CTransaction.getValueMapIn, hcb] at hin
                    have hin : CTransaction.getValueMapInFrom
                        (tx.fetchInputs src t.mapQueuedChanges true false).inputsRet
                        (Int64.wrap 0) tx.vin = some nTxValueIn := by
                      simpa using hin
                    have := CTransaction.getValueMapInFrom_eq
                      (fun o => valueOf (ledgerOf C txs) o.toPair)
                      (fun txin _ txout ho => getOutputFor_value C hfrom hinv.index hproper hdisk ho)
                      hin
                    simpa [valueIn, CTransaction.spends, hcb, Function.comp_def] using this
                  refine ⟨hvalid hfits, hidx, ?_⟩
                  have hbal := unspentValue_ledgerOf_snoc C hinv.valid hfits
                  have hout' := Int64.wrap_sub_self_mod (t.nValueOut + tx.valueOut)
                  have hin' := Int64.wrap_sub_self_mod (t.nValueIn + nTxValueIn)
                  have hin'' := Int64.wrap_sub_self_mod (valueIn C txs tx)
                  rw [Int64.wrap_eq_wrap_iff, hbal]
                  rw [← hvin] at hin''
                  simp only [CTransaction.valueOut] at hout' ⊢
                  omega
            · simp at h

theorem ConnectInv.init {src : Sources} {txs : List (CTransaction × CDiskTxPos)}
    (hv : Valid (ledgerOf C txs)) (hidx : src.readTxIndex = indexOf C txs) :
    ConnectInv C src (unspentValue (ledgerOf C txs)) txs ConnectTotals.init where
  valid := hv
  index := by simpa [ConnectTotals.init] using hidx
  supply := by simp [ConnectTotals.init]

/-- **The loop of `ConnectBlock`** adds the transactions of the block to the chain. -/
theorem connectTxs_spec {src : Sources} {ctx : CTransaction.ConnectCtx} {base : Int}
    {blk : List (CTransaction × CDiskTxPos)} :
    ∀ {txs : List (CTransaction × CDiskTxPos)} {t t' : ConnectTotals},
      ConnectInv C src base txs t → (∀ p ∈ txs ++ blk, p.2.Proper) →
      ReadsBack src.readTx (txs ++ blk) → ((txs ++ blk).map fun p => C.hashTx p.1).Nodup →
      connectTxs C src ctx blk t = some t' → ConnectInv C src base (txs ++ blk) t' := by
  induction blk with
  | nil =>
    intro txs t t' hinv _ _ _ h
    obtain rfl := Option.some.inj h
    simpa using hinv
  | cons p blk ih =>
    intro txs t t' hinv hproper hdisk hnd h
    simp only [connectTxs] at h
    split at h
    · simp at h
    · next t₁ ht₁ =>
      have hassoc : txs ++ p :: blk = (txs ++ [p]) ++ blk := by simp
      have hfresh : ∀ p' ∈ txs, C.hashTx p'.1 ≠ C.hashTx p.1 := by
        intro p' hp'
        rw [List.map_append] at hnd
        exact (List.nodup_append.mp hnd).2.2 _ (List.mem_map_of_mem hp') _
          (List.mem_map_of_mem List.mem_cons_self)
      have hinv₁ := connectTx_spec C hinv (fun p' hp' => hproper p' (List.mem_append_left _ hp'))
        (fun p' hp' => hdisk p' (List.mem_append_left _ hp'))
        (hproper p (List.mem_append_right _ List.mem_cons_self)) hfresh ht₁
      rw [hassoc] at hproper hdisk hnd ⊢
      exact ih hinv₁ hproper hdisk hnd h

theorem txIndex_writeEntries (entries : List (Sigma fun _ : Uint256 => CTxIndex)) :
    ∀ txdb : CTxDB, entries.NodupKeys → ∀ hash : Uint256,
      (entries.foldl (fun db e => db.updateTxIndex e.1 e.2) txdb).txIndex hash =
        (entries.dlookup hash).or (txdb.txIndex hash) := by
  induction entries with
  | nil =>
    intro txdb _ hash
    simp
  | cons e entries ih =>
    obtain ⟨k, v⟩ := e
    intro txdb hnd hash
    have hnd' := List.nodupKeys_cons.mp hnd
    rw [List.foldl_cons, ih _ hnd'.2]
    by_cases hk : k = hash
    · subst hk
      have hnone : List.dlookup k entries = none := List.dlookup_eq_none.mpr hnd'.1
      simp [hnone]
    · have hne : hash ≠ k := Ne.symm hk
      have hcons : List.dlookup hash (⟨k, v⟩ :: entries) = List.dlookup hash entries :=
        List.dlookup_cons_ne entries (⟨k, v⟩ : Sigma fun _ : Uint256 => CTxIndex) hne
      rw [hcons, CTxDB.txIndex_updateTxIndex, Function.update_of_ne hne]

/-- Writing out the queue at the end of `ConnectBlock` puts it over the index. -/
theorem txIndex_writeQueue (txdb : CTxDB) (q : TxIndexQueue) :
    (NodeState.writeQueue txdb q).txIndex = overlay txdb.txIndex q := by
  funext hash
  exact txIndex_writeEntries q.entries txdb q.nodupKeys hash

/-! ## Disconnecting -/

theorem unspendInputs_spec {vin : List CTxIn} :
    ∀ {txdb txdb' : CTxDB}, CTransaction.unspendInputs vin txdb = (true, txdb') →
      txdb'.txIndex = markAll txdb.txIndex (vin.map fun txin => txin.prevout.toPair)
        CDiskTxPos.null := by
  induction vin with
  | nil =>
    intro txdb txdb' h
    obtain rfl := (Prod.mk.inj h).2
    rfl
  | cons txin vin ih =>
    intro txdb txdb' h
    simp only [CTransaction.unspendInputs, CTxDB.readTxIndex_eq] at h
    split at h
    · simp at h
    · next txindex hr =>
      split at h
      · simp at h
      · rw [ih h, CTxDB.txIndex_updateTxIndex]
        simp only [markAll, List.map_cons, List.foldl_cons, mark, COutPoint.toPair, hr,
          Option.map_some]

theorem unspendInputs_inBatch (vin : List CTxIn) (txdb : CTxDB) :
    txdb.InBatch (CTransaction.unspendInputs vin txdb).2 := by
  induction vin generalizing txdb with
  | nil => exact CTxDB.InBatch.refl _
  | cons txin vin ih =>
    simp only [CTransaction.unspendInputs]
    split
    · exact CTxDB.InBatch.refl _
    · split
      · exact CTxDB.InBatch.refl _
      · exact (txdb.inBatch_exec _).trans (ih _)

/-- `DisconnectInputs` takes the entry of a transaction out of the index. -/
theorem disconnectInputs_spec {tx : CTransaction} {txdb txdb' : CTxDB}
    (h : tx.disconnectInputs C txdb = (true, txdb')) :
    txdb'.txIndex = SpendIndex.erase
      (markAll txdb.txIndex (tx.spends.map COutPoint.toPair) CDiskTxPos.null) (C.hashTx tx) := by
  simp only [CTransaction.disconnectInputs] at h
  split at h
  · next hcb =>
    obtain rfl := (Prod.mk.inj h).2
    rw [spends_of_isCoinBase hcb, CTxDB.txIndex_eraseTxIndex]
    rfl
  · next hcb =>
    split at h
    · next hok =>
      obtain rfl := (Prod.mk.inj h).2
      have hspends : tx.spends.map COutPoint.toPair = tx.vin.map fun txin => txin.prevout.toPair := by
        simp [CTransaction.spends, hcb, Function.comp_def]
      rw [CTxDB.txIndex_eraseTxIndex, unspendInputs_spec (Prod.ext hok rfl), hspends]
      rfl
    · simp at h

theorem disconnectInputs_inBatch (tx : CTransaction) (txdb : CTxDB) :
    txdb.InBatch (tx.disconnectInputs C txdb).2 := by
  simp only [CTransaction.disconnectInputs]
  split
  · exact txdb.inBatch_exec _
  · split
    · exact (unspendInputs_inBatch _ _).trans (CTxDB.inBatch_exec _ _)
    · exact unspendInputs_inBatch _ _

/-- **The loop of `DisconnectBlock`** takes the transactions of the block off the chain. -/
theorem disconnectTxs_spec {txs blk : List (CTransaction × CDiskTxPos)} :
    ∀ {txdb txdb' : CTxDB}, Valid (ledgerOf C (txs ++ blk)) →
      txdb.txIndex = indexOf C (txs ++ blk) →
      NodeState.disconnectTxs C (blk.map Prod.fst).reverse txdb = (true, txdb') →
      txdb'.txIndex = indexOf C txs := by
  induction blk using List.reverseRecOn with
  | nil =>
    intro txdb txdb' _ hidx h
    obtain rfl := (Prod.mk.inj h).2
    simpa using hidx
  | append_singleton blk p ih =>
    intro txdb txdb' hv hidx h
    rw [← List.append_assoc] at hv hidx
    rw [ledgerOf_append] at hv
    obtain ⟨hv', hf⟩ := hv.of_snoc
    simp only [List.map_append, List.map_cons, List.map_nil, List.reverse_append,
      List.reverse_cons, List.reverse_nil, List.nil_append, List.singleton_append,
      NodeState.disconnectTxs] at h
    split at h
    · next hok =>
      refine ih hv' ?_ h
      rw [disconnectInputs_spec C (Prod.ext hok rfl), hidx, indexOf, ledgerOf_append]
      exact SpendIndex.ofLedger_undo CDiskTxPos.null hf
    · simp at h

/-- The outputs an input spends are in the index. -/
def HasOutput (idx : TxIndexMap) (o : COutPoint) : Prop :=
  ∃ r, idx o.hash = some r ∧ o.n < r.vSpent.length

theorem unspendInputs_fst {vin : List CTxIn} :
    ∀ {txdb : CTxDB}, (∀ txin ∈ vin, HasOutput txdb.txIndex txin.prevout) →
      (CTransaction.unspendInputs vin txdb).1 = true := by
  induction vin with
  | nil => exact fun _ => rfl
  | cons txin vin ih =>
    intro txdb h
    obtain ⟨r, hr, hn⟩ := h txin List.mem_cons_self
    simp only [CTransaction.unspendInputs, CTxDB.readTxIndex_eq, hr, if_neg (Nat.not_le.mpr hn)]
    refine ih fun txin' htxin' => ?_
    obtain ⟨r', hr', hn'⟩ := h txin' (List.mem_cons_of_mem _ htxin')
    rw [CTxDB.txIndex_updateTxIndex]
    by_cases heq : txin'.prevout.hash = txin.prevout.hash
    · rw [heq] at hr'
      obtain rfl := Option.some.inj (hr.symm.trans hr')
      exact ⟨_, by rw [heq, Function.update_self], by simpa using hn'⟩
    · exact ⟨r', by rw [Function.update_of_ne heq, hr'], hn'⟩

/-- What a fitting entry spends is in the index of the ledger it fits, and stays there. -/
theorem hasOutput_of_fits {txs : List (CTransaction × CDiskTxPos)} {p : CTransaction × CDiskTxPos}
    (hv : Valid (ledgerOf C txs ++ [entryOf C p])) {o : COutPoint} (ho : o ∈ p.1.spends) :
    HasOutput (ofLedger CDiskTxPos.null (ledgerOf C txs ++ [entryOf C p])) o := by
  have hmem : o.toPair ∈ (entryOf C p).spends := List.mem_map_of_mem ho
  obtain ⟨e, he, hid, hn⟩ := hv.of_snoc.2.resolves _ hmem
  have hrec := SpendIndex.ofLedger_of_mem CDiskTxPos.null hv (List.mem_append_left _ he)
  rw [hid] at hrec
  exact ⟨_, hrec, by simpa [SpendIndex.recordOf, COutPoint.toPair] using hn⟩

/-- **The loop of `DisconnectBlock` does not fail** on the last transactions of a chain. -/
theorem disconnectTxs_fst {txs blk : List (CTransaction × CDiskTxPos)} :
    ∀ {txdb : CTxDB}, Valid (ledgerOf C (txs ++ blk)) → txdb.txIndex = indexOf C (txs ++ blk) →
      (NodeState.disconnectTxs C (blk.map Prod.fst).reverse txdb).1 = true := by
  induction blk using List.reverseRecOn with
  | nil => exact fun _ _ => rfl
  | append_singleton blk p ih =>
    intro txdb hv hidx
    rw [← List.append_assoc] at hv hidx
    rw [ledgerOf_append] at hv
    rw [indexOf, ledgerOf_append] at hidx
    have hok : (p.1.disconnectInputs C txdb).1 = true := by
      unfold CTransaction.disconnectInputs
      split
      · rfl
      · next hcb =>
        have hunspend : (CTransaction.unspendInputs p.1.vin txdb).1 = true := by
          refine unspendInputs_fst fun txin htxin => ?_
          rw [hidx]
          refine hasOutput_of_fits C hv ?_
          simp only [CTransaction.spends, hcb, Bool.false_eq_true, if_false]
          exact List.mem_map_of_mem htxin
        rw [if_pos hunspend]
    obtain ⟨hv', hf⟩ := hv.of_snoc
    simp only [List.map_append, List.map_cons, List.map_nil, List.reverse_append,
      List.reverse_cons, List.reverse_nil, List.nil_append, List.singleton_append,
      NodeState.disconnectTxs, hok, if_true]
    refine ih hv' ?_
    rw [disconnectInputs_spec C (Prod.ext hok rfl), hidx]
    exact SpendIndex.ofLedger_undo CDiskTxPos.null hf

theorem disconnectTxs_inBatch (vtx : List CTransaction) (txdb : CTxDB) :
    txdb.InBatch (NodeState.disconnectTxs C vtx txdb).2 := by
  induction vtx generalizing txdb with
  | nil => exact CTxDB.InBatch.refl _
  | cons tx vtx ih =>
    simp only [NodeState.disconnectTxs]
    split
    · exact (disconnectInputs_inBatch C tx txdb).trans (ih _)
    · exact disconnectInputs_inBatch C tx txdb

theorem writeQueue_inBatch (txdb : CTxDB) (q : TxIndexQueue) :
    txdb.InBatch (NodeState.writeQueue txdb q) := by
  unfold NodeState.writeQueue
  induction q.entries generalizing txdb with
  | nil => exact CTxDB.InBatch.refl _
  | cons e entries ih => exact (txdb.inBatch_exec _).trans (ih _)

/-! ## What the index says -/

/-- **What a transaction index says of the transactions of a chain**: which ids have a record, at
which position, and where each output was spent. -/
structure IndexDescribes (idx : TxIndexMap) (txs : List (CTransaction × CDiskTxPos)) : Prop where
  has : ∀ txid, (idx txid).isSome ↔ ∃ p ∈ txs, C.hashTx p.1 = txid
  pos : ∀ p ∈ txs, ∀ r, idx (C.hashTx p.1) = some r → r.pos = p.2
  length : ∀ p ∈ txs, ∀ r, idx (C.hashTx p.1) = some r → r.vSpent.length = p.1.vout.length
  spent_iff : ∀ p ∈ txs, ∀ r, idx (C.hashTx p.1) = some r → ∀ n q, r.vSpent[n]? = some q →
    (q.isNull = false ↔ ∃ p' ∈ txs, ⟨C.hashTx p.1, n⟩ ∈ p'.1.spends)
  spent_at : ∀ p ∈ txs, ∀ r, idx (C.hashTx p.1) = some r → ∀ n q, r.vSpent[n]? = some q →
    ∀ p' ∈ txs, ⟨C.hashTx p.1, n⟩ ∈ p'.1.spends → q = p'.2
  spent_once : ∀ p ∈ txs, ∀ p' ∈ txs, ∀ o ∈ p.1.spends, o ∈ p'.1.spends → p = p'

/-- An output the index has, and shows as not spent. -/
def isUnspent (idx : TxIndexMap) (o : COutPoint) : Bool :=
  (idx o.hash).any fun r => (r.vSpent[o.n]?).any CDiskTxPos.isNull

/-- **The sum of the values of the unspent outputs** that the index shows for `txs`. -/
def unspentTotal (idx : TxIndexMap) (txs : List (CTransaction × CDiskTxPos)) : Int :=
  (txs.map fun p => ((p.1.vout.zipIdx.filter fun o => isUnspent idx ⟨C.hashTx p.1, o.2⟩).map
    fun o => o.1.nValue).sum).sum

section Describes

variable {C} {txs : List (CTransaction × CDiskTxPos)}

theorem mem_ledgerOf {e : Entry Uint256 CDiskTxPos} :
    e ∈ ledgerOf C txs ↔ ∃ p ∈ txs, entryOf C p = e := List.mem_map

theorem toPair_mem_spends {p : CTransaction × CDiskTxPos} {o : COutPoint} :
    o.toPair ∈ (entryOf C p).spends ↔ o ∈ p.1.spends :=
  List.mem_map_of_injective COutPoint.toPair_injective

theorem indexOf_of_mem (hv : Valid (ledgerOf C txs)) {p : CTransaction × CDiskTxPos}
    (hp : p ∈ txs) :
    indexOf C txs (C.hashTx p.1) =
      some (SpendIndex.recordOf CDiskTxPos.null (ledgerOf C txs) (entryOf C p)) :=
  SpendIndex.ofLedger_of_mem CDiskTxPos.null hv (mem_ledgerOf.mpr ⟨p, hp, rfl⟩)

theorem eq_of_spends (hv : Valid (ledgerOf C txs)) {p p' : CTransaction × CDiskTxPos}
    (hp : p ∈ txs) (hp' : p' ∈ txs) {o : COutPoint} (ho : o ∈ p.1.spends)
    (ho' : o ∈ p'.1.spends) : p = p' := by
  have hids : (txs.map fun p => C.hashTx p.1).Nodup := by
    simpa [ledgerOf, entryOf, Function.comp_def] using hv.nodup_ids
  have heq := hv.eq_of_spends (mem_ledgerOf.mpr ⟨p, hp, rfl⟩) (mem_ledgerOf.mpr ⟨p', hp', rfl⟩)
    (toPair_mem_spends.mpr ho) (toPair_mem_spends.mpr ho')
  exact List.inj_on_of_nodup_map hids hp hp' (congrArg Entry.id heq)

/-- The spender recorded for an output of a chain of proper positions. -/
theorem spentAt_spec (hv : Valid (ledgerOf C txs)) (hproper : ∀ p ∈ txs, p.2.Proper)
    (o : COutPoint) :
    ((SpendIndex.spentAt CDiskTxPos.null (ledgerOf C txs) o.toPair).isNull = false ↔
        ∃ p' ∈ txs, o ∈ p'.1.spends) ∧
      ∀ p' ∈ txs, o ∈ p'.1.spends →
        SpendIndex.spentAt CDiskTxPos.null (ledgerOf C txs) o.toPair = p'.2 := by
  have hat : ∀ p' ∈ txs, o ∈ p'.1.spends →
      SpendIndex.spentAt CDiskTxPos.null (ledgerOf C txs) o.toPair = p'.2 := fun p' hp' ho =>
    SpendIndex.spentAt_of_mem CDiskTxPos.null hv (mem_ledgerOf.mpr ⟨p', hp', rfl⟩)
      (toPair_mem_spends.mpr ho)
  refine ⟨⟨fun hnull => ?_, ?_⟩, hat⟩
  · by_contra hno
    rw [SpendIndex.spentAt_of_forall_notMem CDiskTxPos.null] at hnull
    · cases hnull
    · intro e he ho
      obtain ⟨p', hp', rfl⟩ := mem_ledgerOf.mp he
      exact hno ⟨p', hp', toPair_mem_spends.mp ho⟩
  · rintro ⟨p', hp', ho⟩
    rw [hat p' hp' ho]
    exact (hproper p' hp').1

/-- **The index of a valid chain describes it.** -/
theorem indexOf_describes (hv : Valid (ledgerOf C txs)) (hproper : ∀ p ∈ txs, p.2.Proper) :
    IndexDescribes C (indexOf C txs) txs := by
  have hrec : ∀ p ∈ txs, ∀ r, indexOf C txs (C.hashTx p.1) = some r →
      r = SpendIndex.recordOf CDiskTxPos.null (ledgerOf C txs) (entryOf C p) := by
    intro p hp r hr
    rw [indexOf_of_mem hv hp] at hr
    exact (Option.some.inj hr).symm
  have hspent : ∀ p ∈ txs, ∀ r, indexOf C txs (C.hashTx p.1) = some r → ∀ n q,
      r.vSpent[n]? = some q → q = SpendIndex.spentAt CDiskTxPos.null (ledgerOf C txs)
        (COutPoint.toPair ⟨C.hashTx p.1, n⟩) := by
    intro p hp r hr n q hq
    rw [hrec p hp r hr, SpendIndex.recordOf, List.getElem?_map] at hq
    obtain ⟨m, hm, rfl⟩ := Option.map_eq_some_iff.mp hq
    obtain ⟨hlt, rfl⟩ := List.getElem?_eq_some_iff.mp hm
    rw [List.getElem_range]
    rfl
  refine ⟨?_, ?_, ?_, ?_, ?_, fun p hp p' hp' o ho ho' => eq_of_spends hv hp hp' ho ho'⟩
  · intro txid
    rw [← not_iff_not, Option.not_isSome_iff_eq_none, indexOf,
      SpendIndex.ofLedger_eq_none_iff]
    constructor
    · rintro hne ⟨p, hp, hid⟩
      exact hne _ (mem_ledgerOf.mpr ⟨p, hp, rfl⟩) hid
    · intro hne e he hid
      obtain ⟨p, hp, rfl⟩ := mem_ledgerOf.mp he
      exact hne ⟨p, hp, hid⟩
  · intro p hp r hr
    rw [hrec p hp r hr]
    rfl
  · intro p hp r hr
    rw [hrec p hp r hr]
    simp [SpendIndex.recordOf, entryOf]
  · intro p hp r hr n q hq
    rw [hspent p hp r hr n q hq]
    exact (spentAt_spec hv hproper _).1
  · intro p hp r hr n q hq
    rw [hspent p hp r hr n q hq]
    exact (spentAt_spec hv hproper _).2

/-- Reading "unspent" off the index of a valid chain. -/
theorem isUnspent_indexOf (hv : Valid (ledgerOf C txs)) (hproper : ∀ p ∈ txs, p.2.Proper)
    {p : CTransaction × CDiskTxPos} (hp : p ∈ txs) {n : Nat} (hn : n < p.1.vout.length) :
    isUnspent (indexOf C txs) ⟨C.hashTx p.1, n⟩ =
      !SpendIndex.isSpent (ledgerOf C txs) (C.hashTx p.1, n) := by
  have hget : (SpendIndex.recordOf CDiskTxPos.null (ledgerOf C txs) (entryOf C p)).vSpent[n]? =
      some (SpendIndex.spentAt CDiskTxPos.null (ledgerOf C txs) (C.hashTx p.1, n)) := by
    simp [SpendIndex.recordOf, entryOf, hn]
  have hspec := (spentAt_spec hv hproper ⟨C.hashTx p.1, n⟩).1
  have hspent : SpendIndex.isSpent (ledgerOf C txs) (C.hashTx p.1, n) = true ↔
      ∃ p' ∈ txs, ⟨C.hashTx p.1, n⟩ ∈ p'.1.spends := by
    simp only [SpendIndex.isSpent, List.any_eq_true, decide_eq_true_iff]
    constructor
    · rintro ⟨e, he, ho⟩
      obtain ⟨p', hp', rfl⟩ := mem_ledgerOf.mp he
      exact ⟨p', hp', toPair_mem_spends.mp ho⟩
    · rintro ⟨p', hp', ho⟩
      exact ⟨_, mem_ledgerOf.mpr ⟨p', hp', rfl⟩, toPair_mem_spends.mpr ho⟩
  rw [isUnspent, indexOf_of_mem hv hp, Option.any_some, hget, Option.any_some, Bool.eq_iff_iff,
    Bool.not_eq_true', ← Bool.not_eq_true, hspent, ← hspec]
  simp [COutPoint.toPair]

/-- **The unspent outputs of the index of a valid chain** are worth the unspent value of its
ledger. -/
theorem unspentTotal_indexOf (hv : Valid (ledgerOf C txs)) (hproper : ∀ p ∈ txs, p.2.Proper) :
    unspentTotal C (indexOf C txs) txs = unspentValue (ledgerOf C txs) := by
  have hcoins : ∀ p : CTransaction × CDiskTxPos, (entryOf C p).coins =
      p.1.vout.zipIdx.map fun o => ((C.hashTx p.1, o.2), o.1.nValue) := by
    intro p
    simp [Entry.coins, entryOf, List.zipIdx_map, Function.comp_def]
  have hone : ∀ p ∈ txs,
      ((p.1.vout.zipIdx.filter fun o => isUnspent (indexOf C txs) ⟨C.hashTx p.1, o.2⟩).map
        fun o => o.1.nValue).sum =
      (((entryOf C p).coins.filter fun c =>
        !SpendIndex.isSpent (ledgerOf C txs) c.1).map Prod.snd).sum := by
    intro p hp
    rw [hcoins, List.filter_map, List.map_map]
    congr 2
    refine List.filter_congr fun o ho => ?_
    have hlt : o.2 < p.1.vout.length := by
      obtain ⟨-, hlt, -⟩ := List.mem_zipIdx ho
      simpa using hlt
    exact isUnspent_indexOf hv hproper hp hlt
  rw [unspentValue, SpendIndex.coins, List.filter_flatMap, List.map_flatMap, List.flatMap_def,
    List.sum_flatten, List.map_map, unspentTotal, ledgerOf, List.map_map]
  exact congrArg List.sum (List.map_congr_left hone)

end Describes

end MotaCoin
