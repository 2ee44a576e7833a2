import MotaCoin.MinerSelection
import MotaCoin.PoolKept

/-!
# The transaction set of the miner under the validation code

A block of a coinbase and the transactions that `CreateNewBlock` chose, on the same tip: the input
mapping of `AcceptBlock` finds their inputs, and `ConnectInputs` takes them in the order chosen. The
new block is one block higher than the miner assumed, so that no output is younger for it.

## Main definitions

* `OnTip`: a new block is stored on the tip
* `Untouched`: entries that leave what a transaction spends alone
* `Validated`: the validation code takes the set
* `longChain`, `longSpend`: a chain with a mature coinbase, and a transaction that spends it

## Main results

* `immature_of_onTip`: no position is younger for the new block than for the miner
* `Selecting.connectTxs_onTip`: the loop of `ConnectBlock` gets through the set
* `createNewBlock_selection`: what `CreateNewBlock` chooses is valid
-/

namespace MotaCoin

open SpendIndex (Entry Unspent Spendable connectAll)

variable {C : Crypto} {env env' : Env}

/-! ## A block on the tip -/

variable (C) in
/-- **A new block is stored on the tip**, in a state that grew from `s`. -/
structure OnTip (s : NodeState) (tip : Uint256) (s' : NodeState) (k : Uint256) (e : CBlockIndex)
    (b : CBlock) : Prop where
  grown : Extends s s'
  stored : StoredAt C s' k e b
  unknown : s.mapBlockIndex k = none
  pprev : e.pprev = some tip
  nHeight : e.nHeight = s.heightOf tip + 1

section Tip

variable {s s' : NodeState} {m : Miner} {tip k : Uint256} {e pindexPrev : CBlockIndex} {b : CBlock}

/-- A filed position holds the same transaction in a state that grew. -/
theorem readTx_extends (hgrown : Extends s s') (henv : env'.txUnreadable = env.txUnreadable)
    {hash : Uint256} {pos : CDiskTxPos} {n : Nat} (h : FiledAt C s hash pos n) :
    (s'.sources env').readTx pos = (s.sources env).readTx pos := by
  obtain ⟨k, p, hp, rfl, -⟩ := h
  unfold NodeState.blockTxs at hp
  split at hp
  · cases hp
  · next f hf =>
    split at hp
    · cases hp
    · next c hc =>
      obtain ⟨r, -, rfl⟩ := List.mem_map.1 hp
      obtain ⟨f', -, -, hblk⟩ := hgrown.tree k f hf
      simp only [NodeState.sources, NodeState.readTx, henv, hblk]

/-- The last blocks up to the tip are among the last blocks up to the miner's. -/
theorem immatureFrom_extends (hT : TreeOK C s) (hgrown : Extends s s')
    (hheight : pindexPrev.nHeight ≤ e.nHeight) (nFile nBlockPos fuel : Nat) :
    ∀ {h : Uint256}, (s.mapBlockIndex h).isSome →
      s'.immatureFrom e nFile nBlockPos fuel (some h) = true →
      s.immatureFrom pindexPrev nFile nBlockPos fuel (some h) = true := by
  induction fuel with
  | zero => exact fun _ h => h
  | succ fuel ih =>
    intro h hknown himm
    obtain ⟨f, hf⟩ := Option.isSome_iff_exists.1 hknown
    obtain ⟨f', hf', hsk, -⟩ := hgrown.tree h f hf
    obtain ⟨-, hpp, hfile, hpos, hfheight, -⟩ := CBlockIndex.eq_of_skeleton hsk
    simp only [NodeState.immatureFrom, hf', hf, hpp, hfile, hpos, hfheight] at himm ⊢
    split at himm
    · next hyoung =>
      rw [if_pos (by omega), Bool.or_eq_true]
      rcases Bool.or_eq_true _ _ ▸ himm with hhere | hbefore
      · exact .inl hhere
      · right
        cases hp : f.pprev with
        | none =>
          rw [hp] at hbefore
          cases fuel <;> cases hbefore
        | some p =>
          rw [hp] at hbefore
          obtain ⟨g, hg, -⟩ := hT.parent hf hp
          exact ih (by rw [hg]; rfl) hbefore
    · cases himm

/-- **No filed position is younger for the new block** than it is for the miner. -/
theorem immature_of_onTip (hs : CommittedAt C s tip) (hon : OnTip C s tip s' k e b)
    (hprev : s.mapBlockIndex tip = some pindexPrev) {hash : Uint256} {pos : CDiskTxPos} {n : Nat}
    (h : FiledAt C s hash pos n)
    (himm : (s'.connectCtx e true).immature pos.nFile pos.nBlockPos = true) :
    (s.connectCtx pindexPrev false).immature pos.nFile pos.nBlockPos = true := by
  have hheightOf : s.heightOf tip = pindexPrev.nHeight := by
    rw [NodeState.heightOf, hprev]
    rfl
  have hheight := hon.nHeight
  rw [hheightOf] at hheight
  change s'.immatureFrom e pos.nFile pos.nBlockPos (e.nHeight + 1) (some e.hash) = true at himm
  change s.immatureFrom pindexPrev pos.nFile pos.nBlockPos (pindexPrev.nHeight + 1)
    (some pindexPrev.hash) = true
  rw [NodeState.immatureFrom, hon.stored.hash_eq, hon.stored.entry] at himm
  simp only [hon.pprev, hheight] at himm
  split at himm
  · rw [hs.tree.hash_eq hprev]
    rcases Bool.or_eq_true _ _ ▸ himm with hown | hbefore
    · -- The position is one of a block that the miner knows, and the new block has its own.
      obtain ⟨k', p, hp, rfl, -⟩ := h
      exfalso
      unfold NodeState.blockTxs at hp
      split at hp
      · cases hp
      · next f hf =>
        obtain ⟨c, hc, hhash, -⟩ := hs.tree.stored hf
        rw [hc] at hp
        obtain ⟨r, -, rfl⟩ := List.mem_map.1 hp
        obtain ⟨f', -, -, hblk⟩ := hon.grown.tree k' f hf
        simp only [Bool.and_eq_true, beq_iff_eq] at hown
        have hsame := hon.stored.file
        rw [hown.1, hown.2, hblk, hc] at hsame
        obtain rfl := Option.some.inj hsame
        have hunknown := hon.unknown
        rw [← hon.stored.getHash, hhash, hf] at hunknown
        cases hunknown
    · exact immatureFrom_extends hs.tree hon.grown (by omega) _ _ _ (by rw [hprev]; rfl) hbefore
  · cases himm

/-- The loop of `ConnectBlock` over two lists. -/
theorem connectTxs_append {src : Sources} {ctx : CTransaction.ConnectCtx}
    {blk blk' : List (CTransaction × CDiskTxPos)} :
    ∀ {t t' : ConnectTotals}, connectTxs C src ctx blk t = some t' →
      connectTxs C src ctx (blk ++ blk') t = connectTxs C src ctx blk' t' := by
  induction blk with
  | nil =>
    intro t t' h
    obtain rfl := Option.some.inj h
    rfl
  | cons p blk ih =>
    intro t t' h
    rw [List.cons_append, connectTxs]
    rw [connectTxs] at h
    cases ht : connectTx C src ctx t p.1 p.2 with
    | none =>
      rw [ht] at h
      cases h
    | some t₁ =>
      rw [ht] at h
      exact ih h

theorem overwritesUnspent_of_connectTx {src : Sources} {ctx : CTransaction.ConnectCtx}
    {t t' : ConnectTotals} {tx : CTransaction} {pos : CDiskTxPos}
    (h : connectTx C src ctx t tx pos = some t') :
    overwritesUnspent src.readTxIndex (C.hashTx tx) = false := by
  cases hover : overwritesUnspent src.readTxIndex (C.hashTx tx) with
  | false => rfl
  | true =>
    rw [connectTx] at h
    simp only [hover, if_true, reduceCtorEq] at h

/-- Entries that leave what a transaction spends alone. -/
structure Untouched (es : List (Entry Uint256 CDiskTxPos)) (tx : CTransaction) : Prop where
  ids : ∀ o ∈ tx.spends, ∀ e ∈ es, o.hash ≠ e.id
  spends : ∀ o ∈ tx.spends, ∀ e ∈ es, o.toPair ∉ e.spends

section Connect

variable (hinj : HashInjective C) (hs : CommittedAt C s tip) (hon : OnTip C s tip s' k e b)
  (hprev : s.mapBlockIndex tip = some pindexPrev) (henv : env'.txUnreadable = env.txUnreadable)
  {t : Template} (h : Selecting C env s m pindexPrev t)

include hinj hs h in
/-- What a transaction of the set spends. -/
theorem Selecting.spends_unspent {tx : CTransaction} (htx : tx ∈ t.vtx) :
    (tx.spends.map COutPoint.toPair).Nodup ∧
      ∀ o ∈ tx.spends, Unspent CDiskTxPos.isNull s.txdb.txIndex o.toPair := by
  obtain ⟨-, hnodup, hunspent⟩ := new_of_spendable hinj hs h.candidate h.vin h.spendable
  have hentry : entryOf C (tx, CDiskTxPos.memPool) ∈ ledgerOf C (poolTxs t.vtx) :=
    List.mem_map_of_mem (List.mem_map_of_mem htx)
  refine ⟨(List.nodup_flatMap.1 hnodup).1 _ hentry, fun o ho => ?_⟩
  exact (hunspent _ (List.mem_flatMap.2 ⟨_, hentry, List.mem_map_of_mem ho⟩)).1

include hinj hs hon hprev henv h

omit hon hprev in
/-- **`FetchInputs` and `ConnectInputs` take a transaction of the set** in a state that grew, after
transactions that leave what it spends alone, where no filed position is younger. -/
theorem Selecting.connects_extends (hgrown : Extends s s') {ctx : CTransaction.ConnectCtx}
    (hmature : ∀ hash pos n, FiledAt C s hash pos n → ctx.immature pos.nFile pos.nBlockPos = true →
      (s.connectCtx pindexPrev false).immature pos.nFile pos.nBlockPos = true)
    {tx : CTransaction} (htx : tx ∈ t.vtx) {q : TxIndexQueue}
    {es : List (Entry Uint256 CDiskTxPos)}
    (hq : overlay (s'.sources env').readTxIndex q =
      connectAll CDiskTxPos.null s.txdb.txIndex es) (hother : Untouched es tx)
    (pos : CDiskTxPos) :
    (tx.fetchInputs (s'.sources env') q true false).ok = true ∧
      InputsAgree (tx.fetchInputs (s.sources env) ∅ true false).inputsRet
        (tx.fetchInputs (s'.sources env') q true false).inputsRet tx.vin ∧
      ∃ q', tx.connectInputs C ctx (tx.fetchInputs (s'.sources env') q true false).inputsRet q pos
        true false = some q' := by
  obtain ⟨hcb, -, hread⟩ := mem_candidates (h.candidate tx htx)
  obtain ⟨hnodup, hunspent⟩ := h.spends_unspent hinj hs htx
  obtain ⟨pos₁, hconnected⟩ := (h.connects tx htx).connected
  obtain ⟨q₁, hq₁⟩ := Option.isSome_iff_exists.1 hconnected
  refine connects_of_foundAlike hcb rfl (fun txin htxin => ?_) ?_ hq₁
  · obtain ⟨r, txPrev, hat⟩ := inputAt_of_readFromDisk hs.filed (hread txin htxin)
    have hr := hat.record
    rw [overlay_empty, s.sources_readTxIndex] at hr
    have hfiled := hs.filed.view _ _ hr
    have hspends : txin.prevout ∈ tx.spends := by
      simp only [CTransaction.spends, hcb, Bool.false_eq_true, if_false]
      exact List.mem_map_of_mem htxin
    rw [← s.sources_readTxIndex env] at hq
    obtain ⟨r', hat', hpos, hlength⟩ := inputAt_of_new hq hat
      (readTx_extends hgrown henv hfiled) (hother.ids _ hspends)
    exact ⟨r, r', txPrev, hat, hat', hpos, hlength, hmature _ _ _ hfiled⟩
  · rw [hq]
    refine Spendable.of_unspent hnodup (fun o ho => ?_) _
    obtain ⟨out, hout, rfl⟩ := List.mem_map.1 ho
    exact (hunspent out hout).connectAll (hother.ids out hout) (hother.spends out hout)

omit hon hprev in
/-- **The input mapping of `AcceptBlock`** finds the inputs of a transaction of the set. -/
theorem Selecting.resolves (hgrown : Extends s s') {tx : CTransaction} (htx : tx ∈ t.vtx) :
    Resolves (s'.sources env') tx := by
  have hq : overlay (s'.sources env').readTxIndex ∅ =
      connectAll CDiskTxPos.null s.txdb.txIndex [] := by
    rw [overlay_empty, s'.sources_readTxIndex, hgrown.view]
    rfl
  have hmature : ∀ hash pos n, FiledAt C s hash pos n →
      (s.connectCtx pindexPrev false).immature pos.nFile pos.nBlockPos = true →
      (s.connectCtx pindexPrev false).immature pos.nFile pos.nBlockPos = true :=
    fun _ _ _ _ himm => himm
  obtain ⟨hok, -, q, hconnect⟩ := h.connects_extends hinj hs henv hgrown hmature htx hq
    ⟨fun _ _ _ he => absurd he List.not_mem_nil, fun _ _ _ he => absurd he List.not_mem_nil⟩
    CDiskTxPos.memPool
  have hspends : SpendsIndexed C (s'.sources env') (s.connectCtx pindexPrev false) tx :=
    ⟨hok, ⟨_, Option.isSome_iff_exists.2 ⟨q, hconnect⟩⟩, (h.connects tx htx).valueOut⟩
  exact hspends.resolves

/-- `FetchInputs` and `ConnectInputs` when a block is connected on the tip. -/
theorem Selecting.connects_onTip {tx : CTransaction} (htx : tx ∈ t.vtx) {q : TxIndexQueue}
    {es : List (Entry Uint256 CDiskTxPos)}
    (hq : overlay (s'.sources env').readTxIndex q =
      connectAll CDiskTxPos.null s.txdb.txIndex es) (hother : Untouched es tx)
    (pos : CDiskTxPos) :
    (tx.fetchInputs (s'.sources env') q true false).ok = true ∧
      InputsAgree (tx.fetchInputs (s.sources env) ∅ true false).inputsRet
        (tx.fetchInputs (s'.sources env') q true false).inputsRet tx.vin ∧
      ∃ q', tx.connectInputs C (s'.connectCtx e true)
        (tx.fetchInputs (s'.sources env') q true false).inputsRet q pos true false = some q' :=
  h.connects_extends hinj hs henv hon.grown
    (fun _ _ _ hfiled => immature_of_onTip hs hon hprev hfiled) htx hq hother pos

/-- **One round of `ConnectBlock`** for a transaction of the set. -/
theorem Selecting.connectTx_onTip {tx : CTransaction} (htx : tx ∈ t.vtx) {t₁ : ConnectTotals}
    {es : List (Entry Uint256 CDiskTxPos)}
    (hq : overlay (s'.sources env').readTxIndex t₁.mapQueuedChanges =
      connectAll CDiskTxPos.null s.txdb.txIndex es) (hother : Untouched es tx)
    (hlimit : t₁.nSigOps + tx.sigOpCount C (s.sources env) ≤ MAX_BLOCK_SIGOPS)
    (pos : CDiskTxPos) :
    ∃ t₂, connectTx C (s'.sources env') (s'.connectCtx e true) t₁ tx pos = some t₂ ∧
      t₂.nSigOps = t₁.nSigOps + tx.sigOpCount C (s.sources env) := by
  obtain ⟨hcb, -, -⟩ := mem_candidates (h.candidate tx htx)
  obtain ⟨hok, hagree, q', hq'⟩ := h.connects_onTip hinj hs hon hprev henv htx hq hother pos
  obtain ⟨nTxValueOut, hout⟩ := Option.isSome_iff_exists.1 (h.connects tx htx).valueOut
  obtain ⟨nTxValueIn, hin, -⟩ := connectInputs_eq_some hcb hq'
  -- The transaction is new to the chain, so that no record stands in its way.
  have hover : overwritesUnspent (s'.sources env').readTxIndex (C.hashTx tx) = false := by
    obtain ⟨hnew, -⟩ := new_of_spendable hinj hs h.candidate h.vin h.spendable
    have hnone : s.txdb.txIndex (C.hashTx tx) = none :=
      hnew _ (List.mem_map_of_mem (List.mem_map_of_mem htx))
    rw [overwritesUnspent, s'.sources_readTxIndex, hon.grown.view, hnone]
  obtain ⟨nP2SH, hP2SH⟩ : ∃ nP2SH, tx.getP2SHSigOpCount C
      (tx.fetchInputs (s'.sources env') t₁.mapQueuedChanges true false).inputsRet = some nP2SH := by
    rw [CTransaction.getValueMapIn, if_neg (by simp [hcb])] at hin
    rw [CTransaction.getP2SHSigOpCount, if_neg (by simp [hcb])]
    refine Option.isSome_iff_exists.1 (isSome_getP2SHSigOpCountFrom (fun txin htxin => ?_) 0)
    obtain ⟨txout, htxout⟩ := exists_of_getValueMapInFrom hin txin htxin
    rw [htxout]
    rfl
  have hcount : tx.sigOpCount C (s.sources env) = tx.getLegacySigOpCount C + nP2SH := by
    rw [CTransaction.sigOpCount, ← getP2SHSigOpCount_of_agree hagree, hP2SH, Option.getD_some]
  rw [hcount] at hlimit ⊢
  refine Option.map_eq_some_iff.1 ?_
  simp only [connectTx, hover, Bool.false_eq_true, if_false, hout, hcb, hok, Bool.not_true, hP2SH,
    hin, hq']
  rw [if_neg (by omega), if_neg (by omega), Option.map_some, Nat.add_assoc]

omit hprev henv in
/-- The index that the queue shows after the coinbase and some of the transactions. -/
theorem Selecting.untouched {c : CTransaction × CDiskTxPos} {t₀ t₁ : ConnectTotals}
    {done rest : List (CTransaction × CDiskTxPos)} {p : CTransaction × CDiskTxPos}
    (hcb : c.1.isCoinBase = true)
    (h₀ : connectTx C (s'.sources env') (s'.connectCtx e true) ConnectTotals.init c.1 c.2 = some t₀)
    (htxs : (done ++ p :: rest).map Prod.fst = t.vtx)
    (h₁ : connectTxs C (s'.sources env') (s'.connectCtx e true) done t₀ = some t₁) :
    overlay (s'.sources env').readTxIndex t₁.mapQueuedChanges =
        connectAll CDiskTxPos.null s.txdb.txIndex (ledgerOf C (c :: done)) ∧
      Untouched (ledgerOf C (c :: done)) p.1 := by
  have hmem : p.1 ∈ t.vtx := by
    rw [← htxs]
    exact List.mem_map_of_mem (List.mem_append_right _ List.mem_cons_self)
  have hdone : ∀ p' ∈ done, p'.1 ∈ t.vtx := by
    intro p' hp'
    rw [← htxs]
    exact List.mem_map_of_mem (List.mem_append_left _ hp')
  obtain ⟨-, hnodup, hunspent⟩ := new_of_spendable hinj hs h.candidate h.vin h.spendable
  have hunspent' := (h.spends_unspent hinj hs hmem).2
  refine ⟨?_, ⟨?_, ?_⟩⟩
  · rw [(connectTxs_index h₁).2, (connectTx_index h₀).2, ConnectTotals.init, overlay_empty,
      s'.sources_readTxIndex, hon.grown.view]
    rfl
  · intro o ho e' he'
    obtain ⟨p', hp', rfl⟩ := List.mem_map.1 he'
    rcases List.mem_cons.1 hp' with rfl | hp'
    · -- A coinbase with the id of what is spent would stand in its own way.
      rintro heq
      have hover := overwritesUnspent_of_connectTx h₀
      obtain ⟨r, q, hr, hq, hnull⟩ := hunspent' o ho
      have hr' : s.txdb.txIndex (C.hashTx p'.1) = some r := by
        rw [← hr]
        exact congrArg s.txdb.txIndex heq.symm
      rw [overwritesUnspent, s'.sources_readTxIndex, hon.grown.view, hr'] at hover
      exact absurd hnull (by simpa using List.any_eq_false.1 hover q (List.mem_of_getElem? hq))
    · have hspent : o.toPair ∈ (ledgerOf C (poolTxs t.vtx)).flatMap Entry.spends :=
        List.mem_flatMap.2 ⟨entryOf C (p.1, CDiskTxPos.memPool),
          List.mem_map_of_mem (List.mem_map_of_mem hmem), List.mem_map_of_mem ho⟩
      exact (hunspent _ hspent).2 (entryOf C (p'.1, CDiskTxPos.memPool))
        (List.mem_map_of_mem (List.mem_map_of_mem (hdone p' hp')))
  · intro o ho e' he'
    obtain ⟨p', hp', rfl⟩ := List.mem_map.1 he'
    rcases List.mem_cons.1 hp' with rfl | hp'
    · simp only [entryOf, spends_of_isCoinBase hcb, List.map_nil]
      exact List.not_mem_nil
    · -- Transactions of the set spend nothing twice.
      intro ho'
      have hledger : (ledgerOf C (poolTxs t.vtx)).flatMap Entry.spends =
          (done ++ p :: rest).flatMap fun p => p.1.spends.map COutPoint.toPair := by
        rw [← htxs]
        simp only [ledgerOf, poolTxs, List.flatMap_map, entryOf]
      rw [hledger, List.flatMap_append, List.nodup_append] at hnodup
      refine hnodup.2.2 o.toPair (List.mem_flatMap.2 ⟨p', hp', ho'⟩) o.toPair ?_ rfl
      exact List.mem_flatMap.2 ⟨p, List.mem_cons_self, List.mem_map_of_mem ho⟩

/-- **The loop of `ConnectBlock`** gets through the transactions of the set. -/
theorem Selecting.connectTxs_onTip {c : CTransaction × CDiskTxPos} {t₀ : ConnectTotals}
    (hcb : c.1.isCoinBase = true)
    (h₀ : connectTx C (s'.sources env') (s'.connectCtx e true) ConnectTotals.init c.1 c.2 = some t₀)
    {rest : List (CTransaction × CDiskTxPos)} :
    ∀ {done : List (CTransaction × CDiskTxPos)} {t₁ : ConnectTotals},
      (done ++ rest).map Prod.fst = t.vtx →
      connectTxs C (s'.sources env') (s'.connectCtx e true) done t₀ = some t₁ →
      t₁.nSigOps + ((rest.map Prod.fst).map (CTransaction.sigOpCount C (s.sources env))).sum ≤
        MAX_BLOCK_SIGOPS →
      (connectTxs C (s'.sources env') (s'.connectCtx e true) rest t₁).isSome := by
  induction rest with
  | nil => exact fun _ _ _ => rfl
  | cons p rest ih =>
    intro done t₁ htxs h₁ hlimit
    rw [List.map_cons, List.map_cons, List.sum_cons] at hlimit
    have hmem : p.1 ∈ t.vtx := by
      rw [← htxs]
      exact List.mem_map_of_mem (List.mem_append_right _ List.mem_cons_self)
    obtain ⟨hq, hother⟩ := h.untouched hinj hs hon hcb h₀ htxs h₁
    obtain ⟨t₂, ht₂, hsigops⟩ :=
      h.connectTx_onTip hinj hs hon hprev henv hmem hq hother (by omega) p.2
    rw [connectTxs, ht₂]
    refine @ih (done ++ [p]) t₂ ?_ ?_ (by omega)
    · rw [List.append_assoc]
      exact htxs
    · rw [connectTxs_append h₁, connectTxs, ht₂]
      rfl

end Connect

end Tip

/-! ## CreateNewBlock -/

variable (C) in
/-- **The validation code takes a set of transactions.** In every state that grew from `s` the input
mapping of `AcceptBlock` finds their inputs. When a block of a coinbase and the set is connected on
the tip, `FetchInputs` and `ConnectInputs` succeed for each transaction that `ConnectBlock` gets to,
and it gets to the end where the coinbase leaves room for the signature operations. -/
structure Validated (env : Env) (s : NodeState) (tip : Uint256) (vtx : List CTransaction) :
    Prop where
  mapped : ∀ (env' : Env) (s' : NodeState), Extends s s' → env'.txUnreadable = env.txUnreadable →
    ∀ tx ∈ vtx, Resolves (s'.sources env') tx
  connected : ∀ (env' : Env) (s' : NodeState) (k : Uint256) (e : CBlockIndex) (b : CBlock)
    (coinbase : CTransaction) (pos : CDiskTxPos) (blk : List (CTransaction × CDiskTxPos))
    (t₀ : ConnectTotals), OnTip C s tip s' k e b → env'.txUnreadable = env.txUnreadable →
    b.vtx = coinbase :: vtx → coinbase.isCoinBase = true →
    txPositions e.nFile e.nBlockPos b = (coinbase, pos) :: blk →
    connectTx C (s'.sources env') (s'.connectCtx e true) ConnectTotals.init coinbase pos = some t₀ →
    (∀ done p rest t₁, blk = done ++ p :: rest →
      connectTxs C (s'.sources env') (s'.connectCtx e true) done t₀ = some t₁ →
      (p.1.fetchInputs (s'.sources env') t₁.mapQueuedChanges true false).ok = true ∧
        (p.1.connectInputs C (s'.connectCtx e true)
          (p.1.fetchInputs (s'.sources env') t₁.mapQueuedChanges true false).inputsRet
          t₁.mapQueuedChanges p.2 true false).isSome) ∧
    (t₀.nSigOps ≤ 100 →
      (connectTxs C (s'.sources env') (s'.connectCtx e true) blk t₀).isSome)

theorem Selecting.validated {s : NodeState} {m : Miner} {tip : Uint256} {pindexPrev : CBlockIndex}
    (hinj : HashInjective C) (hs : CommittedAt C s tip)
    (hprev : s.mapBlockIndex tip = some pindexPrev) {t : Template}
    (h : Selecting C env s m pindexPrev t) : Validated C env s tip t.vtx where
  mapped _ _ hgrown henv _ htx := h.resolves hinj hs henv hgrown htx
  connected := by
    intro env' s' k e b coinbase pos blk t₀ hon henv hvtx hcb htxs h₀
    have hblk : blk.map Prod.fst = t.vtx := by
      have hfst := map_fst_txPositions e.nFile e.nBlockPos b
      rw [htxs, hvtx] at hfst
      exact (List.cons.inj hfst).2
    refine ⟨fun done p rest t₁ hsplit h₁ => ?_, fun hcoinbase => ?_⟩
    · -- A transaction that the loop gets to.
      rw [hsplit] at hblk
      have hmem : p.1 ∈ t.vtx := by
        rw [← hblk]
        exact List.mem_map_of_mem (List.mem_append_right _ List.mem_cons_self)
      obtain ⟨hq, hother⟩ :=
        h.untouched hinj hs hon (c := (coinbase, pos)) hcb h₀ hblk h₁
      obtain ⟨hok, -, hconnect⟩ := h.connects_onTip hinj hs hon hprev henv hmem hq hother p.2
      exact ⟨hok, Option.isSome_iff_exists.2 hconnect⟩
    · -- The miner had set aside 100 signature operations.
      have hlimit := h.sigOps_lt
      rw [h.nBlockSigOps] at hlimit
      have hroom : t₀.nSigOps +
          ((blk.map Prod.fst).map (CTransaction.sigOpCount C (s.sources env))).sum ≤
            MAX_BLOCK_SIGOPS := by
        rw [hblk]
        omega
      have hnone : ([] ++ blk).map Prod.fst = t.vtx := hblk
      exact h.connectTxs_onTip hinj hs hon hprev henv (c := (coinbase, pos)) hcb h₀ hnone rfl hroom

/-- **The transactions that `CreateNewBlock` chooses**, on the tip of a synced node and from a pool
that holds each transaction under its own hash, in whatever order they come off the queue. Their
inputs are disjoint unspent outputs of the committed index, the limits are respected, the fees are
what they pay, and the validation code takes them on the same tip. -/
theorem createNewBlock_selection (hinj : HashInjective C) {s : NodeState} {m : Miner}
    {tip : Uint256} (hs : Synced C s tip) (hpool : s.mempool.Named C) {template : CBlock}
    (h : s.createNewBlock C env m = some template) :
    ∃ pindexPrev t, s.mapBlockIndex tip = some pindexPrev ∧
      s.collectTxs C env m pindexPrev (m.order (s.candidates env)) Template.init = some t ∧
      template.vtx = NodeState.templateCoinbase env m pindexPrev t.nFees :: t.vtx ∧
      Selection C env s m tip t ∧ Validated C env s tip t.vtx := by
  obtain ⟨pindexPrev, hprev⟩ := Option.isSome_iff_exists.1 hs.committed.known
  have hbest : s.best = some pindexPrev := by
    rw [NodeState.best, hs.pindexBest]
    exact hprev
  obtain ⟨t, ht, hvtx⟩ := createNewBlock_eq_some hbest h
  have hcand : ∀ tx ∈ m.order (s.candidates env), tx ∈ s.candidates env := fun _ htx =>
    m.mem_order htx
  have hselecting := collectTxs_selecting hinj hs.committed hcand Selecting.init ht
  have hcollected := collectTxs_collected hinj hs.committed.filed hpool hcand
    (Collected.init hs.committed.filed) ht
  exact ⟨pindexPrev, t, hprev, ht, hvtx, hselecting.selection hinj hs.committed hcollected,
    hselecting.validated hinj hs.committed hprev⟩

/-! ## A sample template -/

/-- Eleven blocks on top of each other. -/
def longChain : List StoredBlock :=
  (List.range 11).map fun n =>
    ⟨sampleBlock (n + 1) (n + 2) (UInt8.ofNat (n + 1)) 42000000, n + 1, n + 2⟩

/-- A transaction that spends the coinbase of the first of them, with a fee of 0.01 coins. -/
def longSpend : CTransaction where
  nVersion := 1
  nTime := 5000
  vin := [⟨⟨2, 0⟩, [], 4294967295⟩]
  vout := [⟨41000000, [7]⟩]
  nLockTime := 0

/-- Hashes that number the blocks and the transactions from one. -/
noncomputable def longCrypto : Crypto :=
  labelCrypto (((sampleGenesis :: longChain).flatMap fun x => x.block.vtx) ++ [longSpend])
    ((sampleGenesis :: longChain).map fun x => x.block.getBlockHeader)

/-- The node that stores the blocks. -/
noncomputable def longNode : NodeState := storedNode longCrypto (sampleGenesis :: longChain)

theorem longChain_storable : Storable longCrypto sampleGenesis longChain where
  nodup := by decide +kernel
  hash_ne_zero := by decide +kernel
  genesis := by decide +kernel
  parent := by decide +kernel
  distinct := by decide +kernel

/-- The node with the last block connected. -/
noncomputable def longNode₁ : NodeState :=
  (longNode.setBestChain longCrypto (sampleEnv false) (sampleBlock 11 12 11 42000000) 12).2

theorem longNode₁_synced : Synced longCrypto longNode₁ 12 := by
  have hb : longNode.blockOf 12 = some (sampleBlock 11 12 11 42000000) := by decide +kernel
  have hok : (longNode.setBestChain longCrypto (sampleEnv false)
      (sampleBlock 11 12 11 42000000) 12).1 = true := by decide +kernel
  obtain ⟨k, hk, -, hbest, hhash, hheight, htrust⟩ :=
    setBestChain_ok longChain_storable.genesisState.synced hb hok
  have hcommitted : longNode₁.txdb.content .hashBestChain = some 12 := by decide +kernel
  obtain rfl : k = 12 := Option.some.inj (hk.best.symm.trans hcommitted)
  exact ⟨hk, hbest, hhash, hheight, htrust⟩

/-- The node with the transaction in its memory pool. -/
noncomputable def longNode₂ : NodeState :=
  { longNode₁ with
    mempool := (⟨∅, ∅⟩ : CTxMemPool).addUnchecked (longCrypto.hashTx longSpend) longSpend }

theorem longNode₂_named : longNode₂.mempool.Named longCrypto :=
  CTxMemPool.Named.addUnchecked (fun hash tx h => by cases h) longSpend

/-- The miner takes the transaction, and the template is valid. -/
theorem createNewBlock_selection_sample :
    ∃ t : Template, t.vtx = [longSpend] ∧ t.nFees = 1000000 ∧
      Selection longCrypto (sampleEnv false) longNode₂ sampleMiner 12 t ∧
      Validated longCrypto (sampleEnv false) longNode₂ 12 t.vtx := by
  have hsome : (longNode₂.createNewBlock longCrypto (sampleEnv false) sampleMiner).isSome = true := by
    decide +kernel
  obtain ⟨template, htemplate⟩ := Option.isSome_iff_exists.1 hsome
  have hinj : HashInjective longCrypto := labelCrypto_hashInjective _ _
  have hs : Synced longCrypto longNode₂ 12 := longNode₁_synced.withMempool _
  obtain ⟨pindexPrev, t, hprev, ht, -, hselection, hvalidated⟩ :=
    createNewBlock_selection hinj hs longNode₂_named htemplate
  have hrun : ((longNode₂.mapBlockIndex 12).bind fun pindexPrev =>
      (longNode₂.collectTxs longCrypto (sampleEnv false) sampleMiner pindexPrev
        (sampleMiner.order (longNode₂.candidates (sampleEnv false))) Template.init).map fun t =>
          (t.vtx, t.nFees)) = some ([longSpend], 1000000) := by decide +kernel
  rw [hprev, Option.bind_some, ht, Option.map_some, Option.some.injEq, Prod.mk.injEq] at hrun
  exact ⟨t, hrun.1, hrun.2, hselection, hvalidated⟩

end MotaCoin
