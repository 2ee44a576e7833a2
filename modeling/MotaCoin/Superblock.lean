import MotaCoin.ConnectUndo
import MotaCoin.Lib.SpendBatch

/-!
# The superblock bonus is shut off

`GetProofOfStakeReward` adds a bonus where the inputs of the whole block are worth 99 million coins.
A block whose transactions spend each other's outputs could get there with less money, but
`AcceptBlock` looks every input up in the index of the tip, and coinbases are immature in their own
block: the inputs of an accepted block are distinct unspent outputs of the chain, and worth no more
than the money supply.

## Main definitions

* `coinAgeReward`: the stake reward without the bonus and the fees

## Main results

* `aggregateFrom_mapped`: the aggregate rule sums values of outputs of the chain
* `connectTxs_immature`: no transaction of a block spends the coinbase of the block
* `nValueIn_le_moneySupply`: the inputs of an accepted block on the tip are worth no more than the
  money supply
* `superblockBonus_eq_zero`: below 99 million coins the bonus is zero
-/

namespace MotaCoin

open SpendIndex (Entry Valid SpendableAll SpendsLedger valueOf unspentValue)

variable {C : Crypto} {env env' : Env}

/-- The stake reward of `GetProofOfStakeReward` before the bonus and the fees. -/
def coinAgeReward (nCoinAge : Int) : Int :=
  ((Int64.wrap (nCoinAge * MAX_MINT_PROOF_OF_STAKE)).tdiv 365).tdiv COIN

/-! ## What the aggregate rule finds -/

/-- A value read for each input comes from an output found for each input. -/
theorem exists_of_getValueMapInFrom {inputs : MapPrevTx} {vin : List CTxIn} :
    ∀ {n v : Int}, CTransaction.getValueMapInFrom inputs n vin = some v →
      ∀ txin ∈ vin, ∃ txout, CTransaction.getOutputFor txin inputs = some txout := by
  induction vin with
  | nil => exact fun _ _ h => absurd h List.not_mem_nil
  | cons txin vin ih =>
    intro n v h txin' htxin
    rw [CTransaction.getValueMapInFrom] at h
    cases hout : CTransaction.getOutputFor txin inputs with
    | none =>
      rw [hout] at h
      cases h
    | some txout =>
      rw [hout] at h
      rcases List.mem_cons.1 htxin with rfl | htxin
      · exact ⟨txout, hout⟩
      · exact ih h txin' htxin

section Mapped

variable {src : Sources} {txs : List (CTransaction × CDiskTxPos)}
  (hidx : src.readTxIndex = indexOf C txs) (hproper : ∀ p ∈ txs, p.2.Proper)
  (hdisk : ReadsBack src.readTx txs)

include hidx hproper hdisk

/-- **An input that the aggregate rule finds an output for** is an output of the chain, with its
value. -/
theorem getOutputFor_mapped {tx : CTransaction} {txin : CTxIn} {txout : CTxOut}
    (h : CTransaction.getOutputFor txin (tx.getMapTxInputs src true false).2 = some txout) :
    txout.nValue = valueOf (ledgerOf C txs) txin.prevout.toPair ∧
      ∃ p ∈ txs, C.hashTx p.1 = txin.prevout.hash := by
  -- `FetchInputs` leaves an empty transaction where it fails, which has no outputs.
  have hleft : ∀ hash (r : CTxIndex × CTransaction),
      (tx.getMapTxInputs src true false).2 hash = some r → r.2.vout = [] ∨
        indexOf C txs hash = some r.1 ∧
          (r.1.pos ≠ CDiskTxPos.memPool → src.readTx r.1.pos = some r.2) := by
    refine getMapTxInputs_forall (fun hash => ?_) tx
    cases hok : (CTransaction.fetchPrev src ∅ true false hash).1 with
    | true =>
      have hfetched := fetchPrev_spec rfl hok
      rw [overlay_empty, hidx] at hfetched
      exact .inr hfetched
    | false =>
      left
      unfold CTransaction.fetchPrev at hok ⊢
      split
      · rfl
      · next txindex hfound =>
        simp only [hfound] at hok
        split
        · next hpos =>
          rw [if_pos hpos] at hok
          cases hm : src.memPool hash with
          | none => rfl
          | some txPrev =>
            rw [hm] at hok
            cases hok
        · next hpos =>
          rw [if_neg hpos] at hok
          cases hr : src.readTx txindex.pos with
          | none => rfl
          | some txPrev =>
            rw [hr] at hok
            cases hok
  unfold CTransaction.getOutputFor at h
  split at h
  · cases h
  · next txindex txPrev hinput =>
    rcases hleft _ _ hinput with hempty | ⟨hindex, hread⟩
    · simp only at hempty
      rw [hempty] at h
      cases h
    · obtain ⟨p, hp, hhash, rfl, hvalue⟩ := readTx_of_indexOf C hproper hdisk hindex hread
      refine ⟨?_, p, hp, hhash⟩
      simp [hvalue, h]

/-- The value in of a transaction, as the aggregate rule finds it. -/
theorem getValueMapIn_mapped {tx : CTransaction} {v : Int}
    (h : tx.getValueMapIn (tx.getMapTxInputs src true false).2 = some v) :
    v = Int64.wrap (valueIn C txs tx) ∧
      ∀ o ∈ tx.spends, ∃ p ∈ txs, C.hashTx p.1 = o.hash := by
  cases hcb : tx.isCoinBase with
  | true =>
    rw [CTransaction.getValueMapIn, if_pos hcb] at h
    obtain rfl := Option.some.inj h
    rw [valueIn, spends_of_isCoinBase hcb]
    exact ⟨rfl, fun _ ho => absurd ho List.not_mem_nil⟩
  | false =>
    have hspends : tx.spends = tx.vin.map CTxIn.prevout := by
      simp only [CTransaction.spends, hcb, Bool.false_eq_true, if_false]
    rw [CTransaction.getValueMapIn, if_neg (Bool.eq_false_iff.1 hcb)] at h
    have hvalue : v = Int64.wrap (0 + (tx.vin.map fun txin =>
        valueOf (ledgerOf C txs) txin.prevout.toPair).sum) :=
      CTransaction.getValueMapInFrom_eq (fun o => valueOf (ledgerOf C txs) o.toPair)
        (fun txin _ txout hout => (getOutputFor_mapped hidx hproper hdisk hout).1) h
    refine ⟨?_, fun o ho => ?_⟩
    · rw [hvalue, zero_add, valueIn, hspends, List.map_map]
      rfl
    · rw [hspends] at ho
      obtain ⟨txin, htxin, rfl⟩ := List.mem_map.1 ho
      obtain ⟨txout, hout⟩ := exists_of_getValueMapInFrom h txin htxin
      exact (getOutputFor_mapped hidx hproper hdisk hout).2

/-- **What the aggregate rule sums**: every input is found in the index of the chain. -/
theorem aggregateFrom_mapped {vtx : List CTransaction} :
    ∀ {i o I O : Int}, aggregateFrom src vtx (Int64.wrap i) o = .totals I O →
      I = Int64.wrap (i + (vtx.map (valueIn C txs)).sum) ∧
        ∀ tx ∈ vtx, ∀ out ∈ tx.spends, ∃ p ∈ txs, C.hashTx p.1 = out.hash := by
  induction vtx with
  | nil =>
    intro i o I O h
    rw [aggregateFrom] at h
    cases h
    exact ⟨by simp, fun _ htx => absurd htx List.not_mem_nil⟩
  | cons tx vtx ih =>
    intro i o I O h
    obtain ⟨vi, vo, hvi, -, -, -, hrest⟩ := aggregateFrom_cons h
    obtain ⟨rfl, hfound⟩ := getValueMapIn_mapped hidx hproper hdisk hvi
    rw [Int64.wrap_add_wrap, Int64.add_wrap] at hrest
    obtain ⟨rfl, hall⟩ := ih hrest
    refine ⟨?_, fun tx' htx' => ?_⟩
    · rw [List.map_cons, List.sum_cons, add_assoc]
    · rcases List.mem_cons.1 htx' with rfl | htx'
      · exact hfound
      · exact hall tx' htx'

end Mapped

/-! ## The coinbase of the block -/

/-- What the first loop of `ConnectInputs` takes is mature. -/
theorem mature_of_checkInputs {ctx : CTransaction.ConnectCtx} {tx : CTransaction}
    {inputs : MapPrevTx} {vin : List CTxIn} :
    ∀ {n v : Int}, CTransaction.checkInputs ctx tx inputs n vin = some v →
      ∀ txin ∈ vin, ∃ txindex txPrev, inputs txin.prevout.hash = some (txindex, txPrev) ∧
        (txPrev.isCoinBase = true → ctx.immature txindex.pos.nFile txindex.pos.nBlockPos = false) := by
  induction vin with
  | nil => exact fun _ _ h => absurd h List.not_mem_nil
  | cons txin vin ih =>
    intro n v h txin' htxin
    rw [CTransaction.checkInputs] at h
    split at h
    · cases h
    · next txindex txPrev hprev =>
      split at h
      · cases h
      · dsimp only at h
        split_ifs at h with h₁ h₂ h₃ h₄
        rcases List.mem_cons.1 htxin with rfl | htxin
        · refine ⟨txindex, txPrev, hprev, fun hcb => ?_⟩
          rw [hcb, Bool.true_or, Bool.true_and] at h₂
          exact Bool.eq_false_iff.2 h₂
        · exact ih h txin' htxin

section Immature

variable {src : Sources} {ctx : CTransaction.ConnectCtx} {hash : Uint256} {pos : CDiskTxPos}
  (hpos : pos ≠ CDiskTxPos.memPool)
  (hread : ∀ tx, src.readTx pos = some tx → tx.isCoinBase = true)
  (himmature : ctx.immature pos.nFile pos.nBlockPos = true)

include hpos hread himmature

/-- A round of `ConnectBlock` does not spend a coinbase recorded at an immature position. -/
theorem connectTx_immature {t t' : ConnectTotals} {tx : CTransaction} {posThisTx : CDiskTxPos}
    (hat : posOf (overlay src.readTxIndex t.mapQueuedChanges) hash = some pos)
    (h : connectTx C src ctx t tx posThisTx = some t') : ∀ o ∈ tx.spends, o.hash ≠ hash := by
  obtain ⟨-, q, -, -, -, ⟨hcb, -⟩ | ⟨hcb, nTxValueIn, hok, -, hconnect, -⟩⟩ := connectTx_cases h
  · intro o ho
    rw [spends_of_isCoinBase hcb] at ho
    cases ho
  · rintro o ho rfl
    simp only [CTransaction.spends, hcb, Bool.false_eq_true, if_false] at ho
    obtain ⟨txin, htxin, rfl⟩ := List.mem_map.1 ho
    simp only [CTransaction.connectInputs, hcb, Bool.false_eq_true, if_false] at hconnect
    cases hcheck : CTransaction.checkInputs ctx tx
        (tx.fetchInputs src t.mapQueuedChanges true false).inputsRet 0 tx.vin with
    | none =>
      rw [hcheck] at hconnect
      cases hconnect
    | some v =>
      obtain ⟨txindex, txPrev, hinput, hmature⟩ := mature_of_checkInputs hcheck txin htxin
      -- The record that was fetched is the one of the coinbase.
      obtain ⟨hrecord, hfetched⟩ := fetchInputs_spec rfl hcb hok _ _ _ hinput
      have heq : txindex.pos = pos := by
        rw [posOf, hrecord] at hat
        exact Option.some.inj hat
      rw [heq] at hfetched hmature
      rw [hmature (hread txPrev (hfetched hpos))] at himmature
      cases himmature

/-- **No transaction of a block spends a coinbase recorded at an immature position**, where none
of them has its id. -/
theorem connectTxs_immature {blk : List (CTransaction × CDiskTxPos)} :
    ∀ {t t' : ConnectTotals},
      posOf (overlay src.readTxIndex t.mapQueuedChanges) hash = some pos →
      (∀ p ∈ blk, C.hashTx p.1 ≠ hash) → connectTxs C src ctx blk t = some t' →
      ∀ p ∈ blk, ∀ o ∈ p.1.spends, o.hash ≠ hash := by
  induction blk with
  | nil => exact fun _ _ _ _ hp => absurd hp List.not_mem_nil
  | cons p blk ih =>
    intro t t' hat hother h p' hp'
    rw [connectTxs] at h
    cases ht : connectTx C src ctx t p.1 p.2 with
    | none =>
      rw [ht] at h
      cases h
    | some t₁ =>
      rw [ht] at h
      rcases List.mem_cons.1 hp' with rfl | hp'
      · exact connectTx_immature hpos hread himmature hat ht
      · refine ih ?_ (fun q hq => hother q (List.mem_cons_of_mem _ hq)) h p' hp'
        rw [posOf_connectTx ht, Function.update_of_ne (hother p List.mem_cons_self).symm]
        exact hat

end Immature

/-- A block is immature for its own transactions. -/
theorem immature_self {s : NodeState} {k : Uint256} {e : CBlockIndex} {b : CBlock}
    (hb : StoredAt C s k e b) (fBlock : Bool) :
    (s.connectCtx e fBlock).immature e.nFile e.nBlockPos = true := by
  change s.immatureFrom e e.nFile e.nBlockPos (e.nHeight + 1) (some e.hash) = true
  rw [NodeState.immatureFrom, hb.hash_eq, hb.entry]
  simp only [sub_self, beq_self_eq_true, Bool.and_self, Bool.true_or]
  exact if_pos (by decide)

/-! ## Blocks on the tip -/

theorem connectChecks_eq_some {s : NodeState} {b : CBlock} {e : CBlockIndex} {t : ConnectTotals}
    (h : s.connectChecks C env b e = some t) :
    b.checkBlock C env.adjustedTime true true false = true ∧
      connectTxs C (s.sources env) (s.connectCtx e true) (txPositions e.nFile e.nBlockPos b)
        ConnectTotals.init = some t := by
  unfold NodeState.connectChecks at h
  split at h
  · cases h
  · next hcheck =>
    split at h
    · cases h
    · next t' ht' =>
      split at h
      · obtain rfl := Option.some.inj h
        exact ⟨by simpa using hcheck, ht'⟩
      · cases h

/-- No output of a chain has a negative value. -/
theorem OnBranch.outs_nonneg {s : NodeState} {t : Uint256} (h : OnBranch C s t) :
    ∀ e ∈ ledgerOf C (s.pathTxs t), ∀ v ∈ e.outs, 0 ≤ v := by
  intro e he v hv
  obtain ⟨p, hp, rfl⟩ := List.mem_map.1 he
  obtain ⟨txout, htxout, rfl⟩ := List.mem_map.1 hv
  obtain ⟨k, hk, hp⟩ := List.mem_flatMap.1 hp
  -- The block of the output was checked when it was connected.
  obtain ⟨s₁, env₁, q, b, hT₁, hle, hq, hb, -, hok⟩ := h.connects k hk
  obtain ⟨e₁, he₁, hfile⟩ := NodeState.blockOf_eq_some hb
  obtain ⟨hcheck, -⟩ := (connectBlock_fst_iff he₁).1 hok
  rw [hle.blockTxs (NodeState.isSome_of_parentOf_eq hq), NodeState.blockTxs_eq he₁ hfile] at hp
  have hmem : p.1 ∈ b.vtx := by
    rw [← map_fst_txPositions e₁.nFile e₁.nBlockPos b]
    exact List.mem_map_of_mem hp
  cases hvtx : b.vtx with
  | nil =>
    rw [hvtx] at hmem
    cases hmem
  | cons coinbase rest =>
    obtain ⟨-, -, -, htxs⟩ := CBlock.checkBlock_cons C hvtx hcheck
    obtain ⟨-, houts⟩ := CTransaction.getValueOut_of_checkTransaction (htxs p.1 hmem)
    exact (moneyRange_iff.1 (houts txout htxout)).1

/-- A committed index is filed. -/
theorem CommittedAt.filed {s : NodeState} {t : Uint256} (h : CommittedAt C s t) : Filed C s := by
  have hview : IndexFiled (FiledAt C s) s.txdb.txIndex := by
    rw [h.branch.index]
    intro hash r hr
    obtain ⟨e, he, hid, rfl⟩ := SpendIndex.exists_of_ofLedger CDiskTxPos.null hr
    obtain ⟨p, hp, rfl⟩ := List.mem_map.1 he
    obtain ⟨k, -, hp⟩ := List.mem_flatMap.1 hp
    exact ⟨k, p, hp, rfl, hid, by simp [SpendIndex.recordOf, entryOf]⟩
  exact ⟨fun he => (h.tree.position he).2, hview, CTxDB.txIndex_of_noBatch h.batch ▸ hview⟩

/-- The values in of transactions, output by output. -/
theorem sum_valueIn (txs blk : List (CTransaction × CDiskTxPos)) :
    ((blk.map Prod.fst).map (valueIn C txs)).sum =
      (((ledgerOf C blk).flatMap Entry.spends).map (valueOf (ledgerOf C txs))).sum := by
  induction blk with
  | nil => rfl
  | cons p blk ih =>
    have hspends : (((entryOf C p).spends).map (valueOf (ledgerOf C txs))).sum =
        valueIn C txs p.1 := by
      rw [entryOf, List.map_map]
      rfl
    change valueIn C txs p.1 + ((blk.map Prod.fst).map (valueIn C txs)).sum = _
    rw [ih, ← hspends, ← List.sum_append, ← List.map_append]
    rfl

/-- **No transaction of a connected block spends its coinbase.** -/
theorem spends_ne_coinbase {s : NodeState} {k : Uint256} {e : CBlockIndex} {b : CBlock}
    {totals : ConnectTotals} {coinbase : CTransaction} {rest : List CTransaction}
    (hb : StoredAt C s k e b) (hvtx : b.vtx = coinbase :: rest)
    (hconnect : s.connectChecks C env b e = some totals) :
    ∀ p ∈ txPositions e.nFile e.nBlockPos b, ∀ o ∈ p.1.spends, o.hash ≠ C.hashTx coinbase := by
  obtain ⟨hcheck, htxs⟩ := connectChecks_eq_some hconnect
  obtain ⟨hcb, -⟩ := CBlock.checkBlock_cons C hvtx hcheck
  have hnodup := (CBlock.getSerializeSize_le_of_checkBlock hcheck).2
  have hblk := map_fst_txPositions e.nFile e.nBlockPos b
  have hread : ∀ q ∈ txPositions e.nFile e.nBlockPos b, ∀ tx,
      (s.sources env).readTx q.2 = some tx → tx = q.1 :=
    fun q hq tx htx => readTx_of_mem_txPositions env hb.file hq htx
  have hplace : ∀ q ∈ txPositions e.nFile e.nBlockPos b,
      q.2.nFile = e.nFile ∧ q.2.nBlockPos = e.nBlockPos := by
    intro q hq
    obtain ⟨r, -, rfl⟩ := List.mem_map.1 hq
    exact ⟨rfl, rfl⟩
  rw [hvtx] at hblk hnodup
  cases hpos : txPositions e.nFile e.nBlockPos b with
  | nil =>
    rw [hpos] at hblk
    cases hblk
  | cons c blk =>
    rw [hpos] at hblk htxs hread hplace
    obtain ⟨hc, hblk⟩ := List.cons.inj hblk
    obtain ⟨hfile, hblockPos⟩ := hplace c List.mem_cons_self
    rw [connectTxs] at htxs
    cases ht : connectTx C (s.sources env) (s.connectCtx e true) ConnectTotals.init c.1 c.2 with
    | none =>
      rw [ht] at htxs
      cases htxs
    | some t₁ =>
      rw [ht] at htxs
      have hmemPool : c.2 ≠ CDiskTxPos.memPool := by
        intro heq
        rw [heq] at hblockPos
        change 1 = e.nBlockPos at hblockPos
        have := hb.position.2
        omega
      have hcoinbase : ∀ tx, (s.sources env).readTx c.2 = some tx → tx.isCoinBase = true := by
        intro tx htx
        rw [hread c List.mem_cons_self tx htx, hc]
        exact hcb
      have himmature : (s.connectCtx e true).immature c.2.nFile c.2.nBlockPos = true := by
        rw [hfile, hblockPos]
        exact immature_self hb true
      have hat : posOf (overlay (s.sources env).readTxIndex t₁.mapQueuedChanges)
          (C.hashTx coinbase) = some c.2 := by
        rw [posOf_connectTx ht, hc, Function.update_self]
      have hother : ∀ q ∈ blk, C.hashTx q.1 ≠ C.hashTx coinbase := by
        intro q hq heq
        rw [List.map_cons, List.nodup_cons] at hnodup
        refine hnodup.1 ?_
        rw [← hblk, List.map_map, ← heq]
        exact List.mem_map_of_mem (f := C.hashTx ∘ Prod.fst) hq
      intro p hp
      rcases List.mem_cons.1 hp with rfl | hp
      · intro o ho
        rw [hc, spends_of_isCoinBase hcb] at ho
        cases ho
      · exact connectTxs_immature hmemPool hcoinbase himmature hat hother htxs p hp

section Tip

variable {s s' : NodeState} {t k : Uint256} {b : CBlock} {e pindexPrev : CBlockIndex}
  {totals : ConnectTotals} (hinj : HashInjective C) (hs : CommittedAt C s t)

include hinj

/-- **A connected block whose inputs are all in a chain** spends outputs of the chain only. -/
theorem spendsLedger_of_connectChecks {txs : List (CTransaction × CDiskTxPos)}
    (hb : StoredAt C s' k e b)
    (hfound : ∀ tx ∈ b.vtx, ∀ o ∈ tx.spends, ∃ p ∈ txs, C.hashTx p.1 = o.hash)
    (hconnect : s'.connectChecks C env' b e = some totals) :
    SpendsLedger (ledgerOf C txs) (ledgerOf C (txPositions e.nFile e.nBlockPos b)) := by
  obtain ⟨hcheck, -⟩ := connectChecks_eq_some hconnect
  have hmem : ∀ p ∈ txPositions e.nFile e.nBlockPos b, p.1 ∈ b.vtx := by
    intro p hp
    rw [← map_fst_txPositions e.nFile e.nBlockPos b]
    exact List.mem_map_of_mem hp
  refine ⟨?_, ?_, ?_⟩
  · intro e' he' o ho
    obtain ⟨p, hp, rfl⟩ := List.mem_map.1 he'
    obtain ⟨out, hout, rfl⟩ := List.mem_map.1 ho
    obtain ⟨p', hp', hhash⟩ := hfound p.1 (hmem p hp) out hout
    exact ⟨entryOf C p', List.mem_map_of_mem hp', hhash⟩
  · intro e' he' f hf hid
    obtain ⟨p, -, rfl⟩ := List.mem_map.1 he'
    obtain ⟨p', -, rfl⟩ := List.mem_map.1 hf
    have htx : p'.1 = p.1 := hinj.hashTx hid
    simp only [entryOf, htx]
  · -- Only the coinbase spends nothing.
    intro e' he' hnil f hf o ho
    obtain ⟨p, hp, rfl⟩ := List.mem_map.1 he'
    obtain ⟨p', hp', rfl⟩ := List.mem_map.1 hf
    obtain ⟨out, hout, rfl⟩ := List.mem_map.1 ho
    have hspends : p.1.spends = [] := List.map_eq_nil_iff.1 hnil
    have hin := hmem p hp
    cases hvtx : b.vtx with
    | nil =>
      rw [hvtx] at hin
      cases hin
    | cons coinbase rest =>
      obtain ⟨-, hrest, -, hchecked⟩ := CBlock.checkBlock_cons C hvtx hcheck
      have hvin := hchecked p.1 hin
      rw [hvtx] at hin
      rcases List.mem_cons.1 hin with heq | hin
      · change out.hash ≠ C.hashTx p.1
        rw [heq]
        exact spends_ne_coinbase hb hvtx hconnect p' hp' out hout
      · simp only [CTransaction.spends, hrest p.1 hin, Bool.false_eq_true, if_false,
          List.map_eq_nil_iff] at hspends
        simp only [CTransaction.checkTransaction, hspends, List.isEmpty_nil, Bool.not_true,
          Bool.false_and, Bool.false_eq_true] at hvin

include hs

omit hinj in
/-- **The state in which `AcceptBlock` connects a block on the tip** grew from the tip, and stores
the block. -/
theorem extends_branchNode (harrives : Arrives C env s b) (htip : b.hashPrevBlock = t)
    {hashProofOfStake : Uint256} (hnode : s.branchNode C env b hashProofOfStake = some (e, s')) :
    Extends s s' ∧ StoredAt C s' (b.getHash C) e b := by
  obtain ⟨nFile, nBlockPos, hwrite, hfile, hpos, hnew⟩ := harrives.write
  simp only [NodeState.branchNode, hwrite, Option.bind_some, Option.map_eq_some_iff,
    Prod.mk.injEq] at hnode
  obtain ⟨n, hn, rfl, rfl⟩ := hnode
  obtain ⟨hhash, rfl, rfl⟩ := NodeState.newBlockIndex_eq_some hn
  have hunknown : (s.writeBlock b n.nFile n.nBlockPos).mapBlockIndex n.hash = none := by
    rw [hhash]
    exact harrives.unknown
  have htree : TreeLe s ((s.writeBlock b n.nFile n.nBlockPos).insertIndex n) :=
    (treeLe_writeBlock hnew b).trans (treeLe_insertIndex hunknown)
  have hindex : indexOf C (((s.writeBlock b n.nFile n.nBlockPos).insertIndex n).pathTxs
      b.hashPrevBlock) = s.txdb.txIndex := by
    rw [htip, htree.pathTxs hs.tree hs.known, hs.branch.index]
  have hentry : ((s.writeBlock b n.nFile n.nBlockPos).insertIndex n).mapBlockIndex n.hash = some n :=
    Function.update_self ..
  refine ⟨⟨htree, ?_, hindex, ?_⟩, ⟨hhash ▸ hentry, hhash, ?_, rfl, hfile, hpos⟩⟩
  · intro h e' he'
    by_cases hh : h = n.hash
    · subst hh
      obtain rfl := Option.some.inj (hentry.symm.trans he')
      exact hpos
    · refine (hs.tree.position (?_ : s.mapBlockIndex h = some e')).2
      rwa [← Function.update_of_ne hh (some n) (s.mapBlockIndex)]
  · rw [← CTxDB.txIndex_of_noBatch hs.batch]
    exact hindex
  · simp [NodeState.onBranch, NodeState.withIndex, NodeState.insertIndex, NodeState.writeBlock]

/-- **The inputs of an accepted block on the tip are worth no more than the money supply.** The
block passed the rules of `AcceptBlock` at the tip, and is connected in a state that grew from it. -/
theorem nValueIn_le_moneySupply (htip : b.hashPrevBlock = t)
    (hsupply : s.supplyOf t = unspentValue (ledgerOf C (s.pathTxs t)))
    (hheight : 701720 < s.heightOf t + 1) (haccept : (s.acceptChecks C env b).isSome = true)
    (hext : Extends s s') (hb : StoredAt C s' k e b)
    (hconnect : s'.connectChecks C env' b e = some totals) :
    0 ≤ totals.nValueIn ∧ totals.nValueIn ≤ s.supplyOf t := by
  obtain ⟨pindexPrev, hprev⟩ := Option.isSome_iff_exists.1 hs.known
  have hheightOf : s.heightOf t = pindexPrev.nHeight := by
    rw [NodeState.heightOf, hprev]
    rfl
  rw [hheightOf] at hheight
  rw [← htip] at hprev
  obtain ⟨-, -, hrule, -⟩ := (acceptChecks_isSome_iff hprev).1 haccept
  obtain ⟨I, O, hagg, -⟩ := checkAggregate_totals hheight hrule
  obtain ⟨hcheck, htxs⟩ := connectChecks_eq_some hconnect
  have hfiled := hs.filed
  have hfiled' := hfiled.extends hext
  -- The two sums over the inputs agree.
  have hsums : totals.nValueIn = I ∧ totals.nValueOut = O := by
    refine connectTxs_aggregate hinj (hfiled.sourcesNamed env)
      (fun hash pos n hpos => hfiled'.readTx env' hpos) ?_ ?_ (by decide) htxs ?_
    · rw [s'.sources_readTxIndex, ConnectTotals.init, overlay_empty]
      exact hfiled'.view
    · intro p hp
      exact ⟨k, p, by rwa [NodeState.blockTxs_eq hb.entry hb.file], rfl, rfl, rfl⟩
    · rw [map_fst_txPositions]
      exact hagg
  have hidx : (s.sources env).readTxIndex = indexOf C (s.pathTxs t) :=
    (s.sources_readTxIndex env).trans hs.branch.index
  obtain ⟨hI, hfound⟩ := aggregateFrom_mapped hidx hs.tree.proper (s.readsBack env t)
    (show aggregateFrom _ _ (Int64.wrap 0) 0 = _ from hagg)
  have hledger := spendsLedger_of_connectChecks hinj hb hfound hconnect
  have hspendable := (connectTxs_index htxs).1
  rw [ConnectTotals.init, overlay_empty, s'.sources_readTxIndex, hext.view, hs.branch.index]
    at hspendable
  have hnull : ∀ e' ∈ ledgerOf C (s.pathTxs t), e'.pos.isNull = false := by
    intro e' he'
    obtain ⟨p, hp, rfl⟩ := List.mem_map.1 he'
    exact (hs.tree.proper p hp).1
  have hnull' : ∀ e' ∈ ledgerOf C (txPositions e.nFile e.nBlockPos b), e'.pos.isNull = false := by
    intro e' he'
    obtain ⟨p, hp, rfl⟩ := List.mem_map.1 he'
    obtain ⟨q, -, rfl⟩ := List.mem_map.1 hp
    exact beq_eq_false_iff_ne.2 hb.position.1
  have hle := SpendIndex.sum_spends_le (hs.branch.valid hs.tree) hnull hnull' hledger
    hs.branch.outs_nonneg hspendable
  have hge : 0 ≤ (((ledgerOf C (txPositions e.nFile e.nBlockPos b)).flatMap Entry.spends).map
      (valueOf (ledgerOf C (s.pathTxs t)))).sum := by
    refine List.sum_nonneg fun v hv => ?_
    obtain ⟨o, -, rfl⟩ := List.mem_map.1 hv
    exact SpendIndex.valueOf_nonneg hs.branch.outs_nonneg o
  rw [zero_add, ← map_fst_txPositions e.nFile e.nBlockPos b, sum_valueIn] at hI
  -- The recorded supply is a word, so the sum does not wrap.
  have hword : unspentValue (ledgerOf C (s.pathTxs t)) < 2 ^ 63 := by
    rw [← hsupply, hs.branch.supplied_self hs.tree]
    exact (Int64.inRange_wrap _).2
  rw [hsums.1, hI, Int64.wrap_eq_self ⟨by omega, by omega⟩, hsupply]
  exact ⟨hge, hle⟩

end Tip

/-! ## A sample block -/

/-- A node whose only block is at a height of its own. -/
noncomputable def tallNode : NodeState :=
  (storedNode tallCrypto [tallBase]).modifyIndex 1 fun pindex =>
    { pindex with pprev := none, nFlags := 4 }

theorem tallNode_mapBlockIndex {h : Uint256} {e : CBlockIndex}
    (he : tallNode.mapBlockIndex h = some e) :
    h = 1 ∧ e = { storedEntry tallCrypto 0 tallBase with pprev := none, nFlags := 4 } := by
  by_cases hh : h = 1
  · subst hh
    have hone : tallNode.mapBlockIndex 1 =
        some { storedEntry tallCrypto 0 tallBase with pprev := none, nFlags := 4 } := by
      decide +kernel
    exact ⟨rfl, Option.some.inj (he.symm.trans hone)⟩
  · simp only [tallNode, NodeState.modifyIndex, Function.update_of_ne hh] at he
    obtain ⟨i, x, hx, rfl, -⟩ := Storable.exists_of_mapBlockIndex he
    obtain rfl := List.mem_singleton.1 (List.mem_of_getElem? hx)
    exact absurd (by decide +kernel) hh

theorem tallNode_parentOf (h : Uint256) : tallNode.parentOf h = none := by
  unfold NodeState.parentOf
  cases he : tallNode.mapBlockIndex h with
  | none => rfl
  | some e => rw [(tallNode_mapBlockIndex he).2]; rfl

theorem tallNode_path (h : Uint256) : tallNode.path h = [] := by
  unfold NodeState.path
  generalize tallNode.heightOf h = n
  cases n with
  | zero => rfl
  | succ n => simp [Ancestry.pathFrom, tallNode_parentOf]

theorem tallNode_pathTxs (h : Uint256) : tallNode.pathTxs h = [] := by
  rw [NodeState.pathTxs, tallNode_path, List.flatMap_nil]

theorem tallNode_committed : CommittedAt tallCrypto tallNode 1 where
  tree := by
    refine ⟨?_, ?_, ?_, ?_, ?_, ?_, ?_⟩
    · intro h e he
      obtain ⟨rfl, rfl⟩ := tallNode_mapBlockIndex he
      decide +kernel
    · decide +kernel
    · intro h e p he hp
      obtain ⟨rfl, rfl⟩ := tallNode_mapBlockIndex he
      cases hp
    · intro h e he _
      obtain ⟨rfl, rfl⟩ := tallNode_mapBlockIndex he
      decide +kernel
    · intro h e he
      obtain ⟨rfl, rfl⟩ := tallNode_mapBlockIndex he
      exact ⟨tallBase.block, by decide +kernel, by decide +kernel, rfl⟩
    · intro h e he
      obtain ⟨rfl, rfl⟩ := tallNode_mapBlockIndex he
      decide
    · intro h
      rw [tallNode_pathTxs]
      exact List.nodup_nil
  genesis := ⟨1, by decide +kernel, by decide +kernel, tallNode_parentOf 1⟩
  known := by decide +kernel
  batch := rfl
  best := by decide +kernel
  branch := by
    refine ⟨?_, ?_, ?_⟩
    · rw [tallNode_pathTxs]
      rfl
    · intro j hj
      rw [tallNode_path] at hj
      cases hj
    · intro j _
      unfold Supplied
      rw [tallNode_pathTxs]
      unfold NodeState.supplyOf
      cases he : tallNode.mapBlockIndex j with
      | none => rfl
      | some e => rw [(tallNode_mapBlockIndex he).2]; rfl
  linked := by
    intro j hj
    rw [tallNode_path] at hj
    cases hj

theorem tallBlock_arrives :
    Arrives tallCrypto { tallEnv with writeToDisk := some (2, 8) } tallNode tallBlock where
  unknown := by decide +kernel
  tip := by decide +kernel
  readBlock _ _ := rfl
  readTx _ := rfl
  write := by
    refine ⟨2, 8, rfl, by decide, by decide, fun h e he hpos => ?_⟩
    obtain ⟨rfl, rfl⟩ := tallNode_mapBlockIndex he
    exact absurd hpos.1 (by decide)

end MotaCoin
