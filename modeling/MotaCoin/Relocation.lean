import MotaCoin.Filed
import MotaCoin.Lib.Relocate

/-!
# Connecting a block on relocated files

Two nodes that received the same blocks in another order keep them at other places of their block
files, so their transaction indices agree up to positions only. This module runs the loop of
`ConnectBlock` on both sides: when the positions correspond, every rule has the same outcome and the
pending changes correspond again.

## Main definitions

* `SourcesRel`, `CtxRel`: corresponding positions read the same and are as old
* `InputsRel`, `TotalsRel`: corresponding fetched inputs and loop variables

## Main results

* `connectTxs_rel`: the loop of `ConnectBlock` on corresponding indices
* `getCoinAge_rel`: the coin age on corresponding indices
* `connectTxs_of_signatures`: checking signatures only refuses more
-/

namespace MotaCoin

open SpendIndex (IndexRel RecordRel OrNull EntryRel)

variable {C : Crypto}

/-- Corresponding positions hold the same transaction, in blocks with the same header. -/
structure SourcesRel (R : CDiskTxPos → CDiskTxPos → Prop) (src src' : Sources) : Prop where
  readTx : ∀ {pos pos'}, R pos pos' → src.readTx pos = src'.readTx pos'
  readHeader : ∀ {pos pos'}, R pos pos' →
    src.readHeader pos.nFile pos.nBlockPos = src'.readHeader pos'.nFile pos'.nBlockPos
  proper : ∀ {pos pos'}, R pos pos' → pos.Proper ∧ pos'.Proper
  readTxIndex : IndexRel R CDiskTxPos.null src.readTxIndex src'.readTxIndex

/-- Corresponding positions are in blocks of the same age, and the same signatures are checked. -/
structure CtxRel (R : CDiskTxPos → CDiskTxPos → Prop) (ctx ctx' : CTransaction.ConnectCtx) :
    Prop where
  immature : ∀ {pos pos'}, R pos pos' →
    ctx.immature pos.nFile pos.nBlockPos = ctx'.immature pos'.nFile pos'.nBlockPos
  checkSignatures : ctx.checkSignatures = ctx'.checkSignatures

/-- Corresponding records with the same transactions. -/
def InputsRel (R : CDiskTxPos → CDiskTxPos → Prop) (inputs inputs' : MapPrevTx) : Prop :=
  ∀ hash, Option.Rel (fun r r' => RecordRel R CDiskTxPos.null r.1 r'.1 ∧ r.2 = r'.2) (inputs hash)
    (inputs' hash)

/-- Corresponding pending changes. -/
def QueueRel (R : CDiskTxPos → CDiskTxPos → Prop) (src src' : Sources) (q q' : TxIndexQueue) :
    Prop :=
  IndexRel R CDiskTxPos.null (overlay src.readTxIndex q) (overlay src'.readTxIndex q')

/-- Corresponding variables of the loop of `ConnectBlock`. -/
structure TotalsRel (R : CDiskTxPos → CDiskTxPos → Prop) (src src' : Sources)
    (t t' : ConnectTotals) : Prop where
  queue : QueueRel R src src' t.mapQueuedChanges t'.mapQueuedChanges
  nFees : t.nFees = t'.nFees
  nValueIn : t.nValueIn = t'.nValueIn
  nValueOut : t.nValueOut = t'.nValueOut
  nStakeReward : t.nStakeReward = t'.nStakeReward
  nSigOps : t.nSigOps = t'.nSigOps

section Inputs

variable {R : CDiskTxPos → CDiskTxPos → Prop} {src src' : Sources}

theorem InputsRel.update {inputs inputs' : MapPrevTx} (h : InputsRel R inputs inputs')
    (hash : Uint256) {r r' : CTxIndex × CTransaction}
    (hr : RecordRel R CDiskTxPos.null r.1 r'.1 ∧ r.2 = r'.2) :
    InputsRel R (Function.update inputs hash (some r)) (Function.update inputs' hash (some r')) := by
  intro hash'
  by_cases hh : hash' = hash
  · subst hh
    rw [Function.update_self, Function.update_self]
    exact .some hr
  · rw [Function.update_of_ne hh, Function.update_of_ne hh]
    exact h hash'

theorem InputsRel.isSome_eq {inputs inputs' : MapPrevTx} (h : InputsRel R inputs inputs')
    (hash : Uint256) : (inputs hash).isSome = (inputs' hash).isSome := by
  have hrec := h hash
  generalize inputs hash = found at hrec ⊢
  generalize inputs' hash = found' at hrec ⊢
  cases hrec with
  | none => rfl
  | some _ => rfl

/-! ## Fetching -/

/-- Fetching a previous transaction succeeds on both sides or on neither. -/
theorem fetchPrev_rel (hsrc : SourcesRel R src src') {q q' : TxIndexQueue}
    (hq : QueueRel R src src' q q') (hash : Uint256) :
    (CTransaction.fetchPrev src q true false hash).1 =
        (CTransaction.fetchPrev src' q' true false hash).1 ∧
      ((CTransaction.fetchPrev src q true false hash).1 = true →
        RecordRel R CDiskTxPos.null (CTransaction.fetchPrev src q true false hash).2.1
            (CTransaction.fetchPrev src' q' true false hash).2.1 ∧
          (CTransaction.fetchPrev src q true false hash).2.2 =
            (CTransaction.fetchPrev src' q' true false hash).2.2) := by
  unfold CTransaction.fetchPrev
  rw [lookupTxIndex_eq src q rfl hash, lookupTxIndex_eq src' q' rfl hash]
  have hrec := hq hash
  generalize overlay src.readTxIndex q hash = found at hrec ⊢
  generalize overlay src'.readTxIndex q' hash = found' at hrec ⊢
  cases hrec with
  | none => exact ⟨rfl, fun h => by cases h⟩
  | @some txindex txindex' hr =>
    obtain ⟨hpos, hpos'⟩ := hsrc.proper hr.pos
    simp only [hpos.2, hpos'.2, if_false, ← hsrc.readTx hr.pos]
    cases src.readTx txindex.pos with
    | none => exact ⟨rfl, fun h => by cases h⟩
    | some txPrev => exact ⟨rfl, fun _ => ⟨hr, rfl⟩⟩

/-- The fetching loop succeeds on both sides or on neither, with corresponding inputs. -/
theorem fetchLoop_rel (hsrc : SourcesRel R src src') {q q' : TxIndexQueue}
    (hq : QueueRel R src src' q q') (vin : List CTxIn) :
    ∀ {inputs inputs' : MapPrevTx}, InputsRel R inputs inputs' →
      (CTransaction.fetchLoop src q true false vin inputs).1 =
          (CTransaction.fetchLoop src' q' true false vin inputs').1 ∧
        ((CTransaction.fetchLoop src q true false vin inputs).1 = true →
          InputsRel R (CTransaction.fetchLoop src q true false vin inputs).2
            (CTransaction.fetchLoop src' q' true false vin inputs').2) := by
  induction vin with
  | nil => exact fun hin => ⟨rfl, fun _ => hin⟩
  | cons txin vin ih =>
    intro inputs inputs' hin
    have hsome := hin.isSome_eq txin.prevout.hash
    obtain ⟨hok, hrec⟩ := fetchPrev_rel hsrc hq txin.prevout.hash
    simp only [CTransaction.fetchLoop, ← hsome, ← hok]
    cases (inputs txin.prevout.hash).isSome with
    | true => exact ih hin
    | false =>
      cases hfetch : (CTransaction.fetchPrev src q true false txin.prevout.hash).1 with
      | false => exact ⟨rfl, fun h => by cases h⟩
      | true => exact ih (hin.update _ (hrec hfetch))

theorem inRange_rel {inputs inputs' : MapPrevTx} (h : InputsRel R inputs inputs') (txin : CTxIn) :
    CTransaction.inRange inputs txin = CTransaction.inRange inputs' txin := by
  unfold CTransaction.inRange
  have hrec := h txin.prevout.hash
  generalize inputs txin.prevout.hash = found at hrec ⊢
  generalize inputs' txin.prevout.hash = found' at hrec ⊢
  cases hrec with
  | none => rfl
  | some hr => simp only [hr.1.length_eq, hr.2]

/-- `FetchInputs` on corresponding indices. -/
theorem fetchInputs_rel (hsrc : SourcesRel R src src') {q q' : TxIndexQueue}
    (hq : QueueRel R src src' q q') (tx : CTransaction) :
    (tx.fetchInputs src q true false).ok = (tx.fetchInputs src' q' true false).ok ∧
      ((tx.fetchInputs src q true false).ok = true →
        InputsRel R (tx.fetchInputs src q true false).inputsRet
          (tx.fetchInputs src' q' true false).inputsRet) := by
  unfold CTransaction.fetchInputs
  by_cases hcb : tx.isCoinBase = true
  · simp only [hcb, if_true]
    exact ⟨trivial, fun _ _ => .none⟩
  · obtain ⟨hok, hin⟩ := @fetchLoop_rel R src src' hsrc q q' hq tx.vin (fun _ => none)
      (fun _ => none) fun _ => .none
    simp only [hcb, if_false, ← hok, Bool.false_eq_true]
    cases hloop : (CTransaction.fetchLoop src q true false tx.vin fun _ => none).1 with
    | false => exact ⟨rfl, fun h => by cases h⟩
    | true =>
      have hrange : tx.vin.all (CTransaction.inRange
            (CTransaction.fetchLoop src q true false tx.vin fun _ => none).2) =
          tx.vin.all (CTransaction.inRange
            (CTransaction.fetchLoop src' q' true false tx.vin fun _ => none).2) :=
        congrArg tx.vin.all (funext fun txin => inRange_rel (hin hloop) txin)
      simp only [Bool.not_true, Bool.false_eq_true, if_false, ← hrange]
      split
      · exact ⟨rfl, fun _ => hin hloop⟩
      · exact ⟨rfl, fun h => by cases h⟩

theorem getOutputFor_rel {inputs inputs' : MapPrevTx} (h : InputsRel R inputs inputs')
    (txin : CTxIn) :
    CTransaction.getOutputFor txin inputs = CTransaction.getOutputFor txin inputs' := by
  unfold CTransaction.getOutputFor
  have hrec := h txin.prevout.hash
  generalize inputs txin.prevout.hash = found at hrec ⊢
  generalize inputs' txin.prevout.hash = found' at hrec ⊢
  cases hrec with
  | none => rfl
  | some hr => simp only [hr.2]

theorem getValueMapIn_rel {inputs inputs' : MapPrevTx} (h : InputsRel R inputs inputs')
    (tx : CTransaction) : tx.getValueMapIn inputs = tx.getValueMapIn inputs' := by
  have hloop : ∀ (vin : List CTxIn) (nResult : Int),
      CTransaction.getValueMapInFrom inputs nResult vin =
        CTransaction.getValueMapInFrom inputs' nResult vin := by
    intro vin
    induction vin with
    | nil => exact fun _ => rfl
    | cons txin vin ih =>
      exact fun nResult => by simp only [CTransaction.getValueMapInFrom, getOutputFor_rel h, ih]
  simp only [CTransaction.getValueMapIn, hloop]

theorem getP2SHSigOpCount_rel {inputs inputs' : MapPrevTx} (h : InputsRel R inputs inputs')
    (tx : CTransaction) : tx.getP2SHSigOpCount C inputs = tx.getP2SHSigOpCount C inputs' := by
  have hloop : ∀ (vin : List CTxIn) (nSigOps : Nat),
      CTransaction.getP2SHSigOpCountFrom C inputs nSigOps vin =
        CTransaction.getP2SHSigOpCountFrom C inputs' nSigOps vin := by
    intro vin
    induction vin with
    | nil => exact fun _ => rfl
    | cons txin vin ih =>
      exact fun nSigOps => by simp only [CTransaction.getP2SHSigOpCountFrom, getOutputFor_rel h, ih]
  simp only [CTransaction.getP2SHSigOpCount, hloop]

/-! ## Connecting -/

variable {ctx ctx' : CTransaction.ConnectCtx}

theorem checkInputs_rel (hctx : CtxRel R ctx ctx') {inputs inputs' : MapPrevTx}
    (h : InputsRel R inputs inputs') (tx : CTransaction) (vin : List CTxIn) (nValueIn : Int) :
    CTransaction.checkInputs ctx tx inputs nValueIn vin =
      CTransaction.checkInputs ctx' tx inputs' nValueIn vin := by
  induction vin generalizing nValueIn with
  | nil => rfl
  | cons txin vin ih =>
    simp only [CTransaction.checkInputs]
    have hrec := h txin.prevout.hash
    generalize inputs txin.prevout.hash = found at hrec ⊢
    generalize inputs' txin.prevout.hash = found' at hrec ⊢
    cases hrec with
    | none => rfl
    | some hr => simp only [hr.1.length_eq, hr.2, hctx.immature hr.1.pos, ih]

/-- A spender is null on both sides or on neither. -/
theorem isNull_rel (hsrc : SourcesRel R src src') {pos pos' : CDiskTxPos}
    (h : OrNull R CDiskTxPos.null pos pos') : pos.isNull = pos'.isNull := by
  rcases h with h | ⟨rfl, rfl⟩
  · obtain ⟨hpos, hpos'⟩ := hsrc.proper h
    rw [hpos.1, hpos'.1]
  · rfl

/-- The spending loop refuses on both sides or on neither, and queues corresponding changes. -/
theorem spendInputs_rel (hsrc : SourcesRel R src src') (hctx : CtxRel R ctx ctx')
    (tx : CTransaction) {pos pos' : CDiskTxPos} (hpos : R pos pos') (vin : List CTxIn) :
    ∀ {inputs inputs' : MapPrevTx} {q q' : TxIndexQueue} (i : Nat), InputsRel R inputs inputs' →
      QueueRel R src src' q q' →
      Option.Rel (QueueRel R src src')
        (CTransaction.spendInputs C ctx tx pos true false i vin inputs q)
        (CTransaction.spendInputs C ctx' tx pos' true false i vin inputs' q') := by
  induction vin with
  | nil => exact fun _ _ hq => .some hq
  | cons txin vin ih =>
    intro inputs inputs' q q' i hin hq
    simp only [CTransaction.spendInputs]
    have hrec := hin txin.prevout.hash
    generalize inputs txin.prevout.hash = found at hrec ⊢
    generalize inputs' txin.prevout.hash = found' at hrec ⊢
    cases hrec with
    | none => exact .none
    | @some r r' hr =>
      obtain ⟨txindex, txPrev⟩ := r
      obtain ⟨txindex', txPrev'⟩ := r'
      obtain ⟨hrec, rfl⟩ : RecordRel R CDiskTxPos.null txindex txindex' ∧ txPrev = txPrev' := hr
      have hspent := hrec.getElem? txin.prevout.n
      simp only
      generalize txindex.vSpent[txin.prevout.n]? = spent at hspent ⊢
      generalize txindex'.vSpent[txin.prevout.n]? = spent' at hspent ⊢
      cases hspent with
      | none => exact .none
      | some hnull =>
        simp only [isNull_rel hsrc hnull, hctx.checkSignatures]
        split
        · exact .none
        · split
          · exact .none
          · have hset := hrec.set hpos txin.prevout.n
            refine ih (i + 1) (hin.update _ ⟨hset, rfl⟩) ?_
            unfold QueueRel
            simp only [Bool.or_false, if_true]
            rw [overlay_insert, overlay_insert]
            exact hq.update _ hset

theorem connectInputs_rel (hsrc : SourcesRel R src src') (hctx : CtxRel R ctx ctx')
    (tx : CTransaction) {pos pos' : CDiskTxPos} (hpos : R pos pos') {inputs inputs' : MapPrevTx}
    {q q' : TxIndexQueue} (hin : InputsRel R inputs inputs') (hq : QueueRel R src src' q q') :
    Option.Rel (QueueRel R src src') (tx.connectInputs C ctx inputs q pos true false)
      (tx.connectInputs C ctx' inputs' q' pos' true false) := by
  unfold CTransaction.connectInputs
  split
  · exact .some hq
  · rw [checkInputs_rel hctx hin]
    cases CTransaction.checkInputs ctx' tx inputs' 0 tx.vin with
    | none => exact .none
    | some nValueIn =>
      have hspend := spendInputs_rel (C := C) hsrc hctx tx hpos tx.vin 0 hin hq
      simp only
      generalize CTransaction.spendInputs C ctx tx pos true false 0 tx.vin inputs q = r at *
      generalize CTransaction.spendInputs C ctx' tx pos' true false 0 tx.vin inputs' q' = r' at *
      cases hspend with
      | none => exact .none
      | some hq' =>
        simp only
        split
        · exact .none
        · exact .some hq'

/-- A record stands in the way on both sides or on neither. -/
theorem overwritesUnspent_rel (hsrc : SourcesRel R src src') (hash : Uint256) :
    overwritesUnspent src.readTxIndex hash = overwritesUnspent src'.readTxIndex hash := by
  unfold overwritesUnspent
  have hrec := hsrc.readTxIndex hash
  generalize src.readTxIndex hash = found at hrec ⊢
  generalize src'.readTxIndex hash = found' at hrec ⊢
  cases hrec with
  | none => rfl
  | some hr =>
    have hany : ∀ {l l' : List CDiskTxPos}, List.Forall₂ (OrNull R CDiskTxPos.null) l l' →
        l.any CDiskTxPos.isNull = l'.any CDiskTxPos.isNull := by
      intro l l' hl
      induction hl with
      | nil => rfl
      | cons hp _ ih => rw [List.any_cons, List.any_cons, isNull_rel hsrc hp, ih]
    exact hany hr.vSpent

/-- **One round of the loop of `ConnectBlock`** on corresponding indices. -/
theorem connectTx_rel (hsrc : SourcesRel R src src') (hctx : CtxRel R ctx ctx')
    {t t' : ConnectTotals} (ht : TotalsRel R src src' t t') (tx : CTransaction)
    {pos pos' : CDiskTxPos} (hpos : R pos pos') :
    Option.Rel (TotalsRel R src src') (connectTx C src ctx t tx pos)
      (connectTx C src' ctx' t' tx pos') := by
  have hinsert : ∀ {q q' : TxIndexQueue}, QueueRel R src src' q q' →
      QueueRel R src src' (q.insert (C.hashTx tx) (CTxIndex.fresh pos tx.vout.length))
        (q'.insert (C.hashTx tx) (CTxIndex.fresh pos' tx.vout.length)) := by
    intro q q' hq
    unfold QueueRel
    rw [overlay_insert, overlay_insert]
    exact hq.update _ (RecordRel.fresh hpos _)
  simp only [connectTx, overwritesUnspent_rel hsrc, ht.nSigOps]
  split
  · exact .none
  · split
    · exact .none
    · cases tx.getValueOut with
      | none => exact .none
      | some nTxValueOut =>
        simp only
        split
        · exact .some ⟨hinsert ht.queue, ht.nFees, ht.nValueIn, by rw [ht.nValueOut],
            ht.nStakeReward, rfl⟩
        · obtain ⟨hok, hin⟩ := fetchInputs_rel hsrc ht.queue tx
          rw [← hok]
          cases hfetch : (tx.fetchInputs src t.mapQueuedChanges true false).ok with
          | false => exact .none
          | true =>
            have hin := hin hfetch
            rw [getP2SHSigOpCount_rel hin, getValueMapIn_rel hin]
            have hconnect := connectInputs_rel (C := C) hsrc hctx tx hpos hin ht.queue
            simp only [Bool.not_true, Bool.false_eq_true, if_false]
            split
            · next nP2SH nTxValueIn _ _ =>
              split
              · exact .none
              · generalize tx.connectInputs C ctx _ _ pos true false = r at hconnect ⊢
                generalize tx.connectInputs C ctx' _ _ pos' true false = r' at hconnect ⊢
                cases hconnect with
                | none => exact .none
                | some hq =>
                  exact .some ⟨hinsert hq, by rw [ht.nFees], by rw [ht.nValueIn],
                    by rw [ht.nValueOut], by rw [ht.nStakeReward], rfl⟩
            · exact .none

/-- The same transaction at corresponding positions. -/
def PlacedRel (R : CDiskTxPos → CDiskTxPos → Prop) (p p' : CTransaction × CDiskTxPos) : Prop :=
  p.1 = p'.1 ∧ R p.2 p'.2

/-- **The loop of `ConnectBlock`** on corresponding indices. -/
theorem connectTxs_rel (hsrc : SourcesRel R src src') (hctx : CtxRel R ctx ctx')
    {txs txs' : List (CTransaction × CDiskTxPos)} (htxs : List.Forall₂ (PlacedRel R) txs txs') :
    ∀ {t t' : ConnectTotals}, TotalsRel R src src' t t' →
      Option.Rel (TotalsRel R src src') (connectTxs C src ctx txs t)
        (connectTxs C src' ctx' txs' t') := by
  induction htxs with
  | nil => exact fun ht => .some ht
  | @cons p p' txs txs' hp _ ih =>
    intro t t' ht
    obtain ⟨tx, pos⟩ := p
    obtain ⟨tx', pos'⟩ := p'
    obtain ⟨rfl, hpos⟩ : tx = tx' ∧ R pos pos' := hp
    have hround := connectTx_rel (C := C) hsrc hctx ht tx hpos
    simp only [connectTxs]
    generalize connectTx C src ctx t tx pos = r at hround ⊢
    generalize connectTx C src' ctx' t' tx pos' = r' at hround ⊢
    cases hround with
    | none => exact .none
    | some ht' => exact ih ht'

/-- **The coin age** on corresponding indices. -/
theorem getCoinAge_rel (hsrc : SourcesRel R src src') (tx : CTransaction) :
    tx.getCoinAge src = tx.getCoinAge src' := by
  have hloop : ∀ (vin : List CTxIn) (bnCentSecond : Int),
      tx.getCoinAgeFrom src bnCentSecond vin = tx.getCoinAgeFrom src' bnCentSecond vin := by
    intro vin
    induction vin with
    | nil => exact fun _ => rfl
    | cons txin vin ih =>
      intro bnCentSecond
      simp only [CTransaction.getCoinAgeFrom, CTransaction.readFromDisk]
      have hrec := hsrc.readTxIndex txin.prevout.hash
      generalize src.readTxIndex txin.prevout.hash = found at hrec ⊢
      generalize src'.readTxIndex txin.prevout.hash = found' at hrec ⊢
      cases hrec with
      | none => exact ih bnCentSecond
      | @some r r' hr =>
        simp only [← hsrc.readTx hr.pos]
        cases src.readTx r.pos with
        | none => exact ih bnCentSecond
        | some txPrev =>
          simp only
          cases txPrev.vout[txin.prevout.n]? with
          | none => exact ih bnCentSecond
          | some txout => simp only [Option.map_some, hsrc.readHeader hr.pos, ih]
  simp only [CTransaction.getCoinAge, hloop]

end Inputs

/-- Relocated transactions have corresponding indices. -/
theorem indexOf_rel {R : CDiskTxPos → CDiskTxPos → Prop}
    {txs txs' : List (CTransaction × CDiskTxPos)} (h : List.Forall₂ (PlacedRel R) txs txs') :
    IndexRel R CDiskTxPos.null (indexOf C txs) (indexOf C txs') := by
  refine SpendIndex.ofLedger_rel <| List.forall₂_map_left_iff.mpr <|
    List.forall₂_map_right_iff.mpr <| h.imp fun p p' hp => ?_
  obtain ⟨tx, pos⟩ := p
  obtain ⟨tx', pos'⟩ := p'
  obtain ⟨rfl, hpos⟩ : tx = tx' ∧ R pos pos' := hp
  exact ⟨rfl, rfl, rfl, hpos⟩

/-! ## Signatures -/

section Signatures

variable {src : Sources}

/-- The context with signatures checked, or not. -/
def CTransaction.ConnectCtx.withSignatures (ctx : CTransaction.ConnectCtx)
    (checkSignatures : Bool) : CTransaction.ConnectCtx :=
  { ctx with checkSignatures := checkSignatures }

theorem checkInputs_withSignatures (ctx : CTransaction.ConnectCtx) (checkSignatures : Bool)
    (tx : CTransaction) (inputs : MapPrevTx) (vin : List CTxIn) (nValueIn : Int) :
    CTransaction.checkInputs (ctx.withSignatures checkSignatures) tx inputs nValueIn vin =
      CTransaction.checkInputs ctx tx inputs nValueIn vin := by
  induction vin generalizing nValueIn with
  | nil => rfl
  | cons txin vin ih =>
    simp only [CTransaction.checkInputs, CTransaction.ConnectCtx.withSignatures] at ih ⊢
    simp only [ih]

theorem spendInputs_of_signatures {ctx : CTransaction.ConnectCtx} {tx : CTransaction}
    {pos : CDiskTxPos} {fBlock fMiner : Bool} {vin : List CTxIn} :
    ∀ {i : Nat} {inputs : MapPrevTx} {q q' : TxIndexQueue},
      CTransaction.spendInputs C (ctx.withSignatures true) tx pos fBlock fMiner i vin inputs q =
        some q' →
      CTransaction.spendInputs C (ctx.withSignatures false) tx pos fBlock fMiner i vin inputs q =
        some q' := by
  induction vin with
  | nil => exact fun h => h
  | cons txin vin ih =>
    intro i inputs q q' h
    rw [CTransaction.spendInputs] at h ⊢
    split at h
    · cases h
    · next txindex txPrev hprev =>
      split at h
      · cases h
      · next spent hspent =>
        split at h
        · cases h
        · next hnull =>
          split at h
          · cases h
          · rw [if_neg hnull]
            exact ih h

theorem connectTx_of_signatures {ctx : CTransaction.ConnectCtx} {t t' : ConnectTotals}
    {tx : CTransaction} {pos : CDiskTxPos}
    (h : connectTx C src (ctx.withSignatures true) t tx pos = some t') :
    connectTx C src (ctx.withSignatures false) t tx pos = some t' := by
  have hconnect : ∀ (inputs : MapPrevTx) (q q' : TxIndexQueue),
      tx.connectInputs C (ctx.withSignatures true) inputs q pos true false = some q' →
      tx.connectInputs C (ctx.withSignatures false) inputs q pos true false = some q' := by
    intro inputs q q' hq
    unfold CTransaction.connectInputs at hq ⊢
    rw [checkInputs_withSignatures] at hq ⊢
    split
    · next hcb => rwa [if_pos hcb] at hq
    · next hcb =>
      rw [if_neg hcb] at hq
      cases hv : CTransaction.checkInputs ctx tx inputs 0 tx.vin with
      | none => simp only [hv, reduceCtorEq] at hq
      | some nValueIn =>
        simp only [hv] at hq ⊢
        split at hq
        · cases hq
        · next q'' hspend =>
          rw [spendInputs_of_signatures hspend]
          exact hq
  simp only [connectTx] at h ⊢
  split at h
  · cases h
  · next hover =>
    split at h
    · cases h
    · next hsig =>
      rw [if_neg hover, if_neg hsig]
      split at h
      · cases h
      · next nTxValueOut hout =>
        split at h
        · next hcb => rwa [if_pos hcb]
        · next hcb =>
          rw [if_neg hcb]
          split at h
          · cases h
          · next hok =>
            rw [if_neg hok]
            split at h
            · next nP2SH nTxValueIn hP2SH hin =>
              split at h
              · cases h
              · next hsig' =>
                rw [if_neg hsig']
                split at h
                · cases h
                · next q hq =>
                  rw [hconnect _ _ _ hq]
                  exact h
            · cases h

/-- **Checking signatures only refuses more**: the loop of `ConnectBlock` leaves the same variables
when it skips them. -/
theorem connectTxs_of_signatures {ctx : CTransaction.ConnectCtx}
    {txs : List (CTransaction × CDiskTxPos)} :
    ∀ {t t' : ConnectTotals}, connectTxs C src (ctx.withSignatures true) txs t = some t' →
      connectTxs C src (ctx.withSignatures false) txs t = some t' := by
  induction txs with
  | nil => exact fun h => h
  | cons p txs ih =>
    intro t t' h
    rw [connectTxs] at h ⊢
    split at h
    · cases h
    · next t₁ hround =>
      rw [connectTx_of_signatures hround]
      exact ih h

end Signatures

end MotaCoin
