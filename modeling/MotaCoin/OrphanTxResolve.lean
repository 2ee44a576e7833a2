import Mathlib.Order.WellFoundedSet
import MotaCoin.OrphanTxMaps
import MotaCoin.PoolIndex

/-!
# Resolving orphan transactions

The walk of the `tx` handler wakes every orphan whose last missing input has come in: after the
message each orphan that is still stored lacks an input. So a set of transactions that the pool
takes once their inputs are there ends up in the pool in whatever order it is delivered. The orphans
are looked at by `tx` messages only: one whose input enters the pool or the chain on another way
stays.

## Main definitions

* `NodeState.Available`, `NodeState.Lacks`: the inputs `FetchInputs` finds
* `RelayState.Lacking`: each stored orphan lacks an input
* `poolWith`: a pool with further transactions
* `RelayState.deliver`: a sequence of `tx` messages

## Main results

* `processTx_lacking`: after a `tx` message each stored orphan lacks an input
* `deliver_resolves`: a set of acceptable transactions ends in the pool, in any order
* `deliver_lacking_and_resolves`: both, with the end of the walk
-/

namespace MotaCoin

variable {C : Crypto} {env : Env}

/-! ## Missing inputs -/

namespace CTransaction

variable {src src' : Sources} {q : TxIndexQueue} {fBlock fMiner : Bool}

/-- The fetching loop gets to its end iff every previous transaction is found. -/
theorem fetchLoop_fst_iff (vin : List CTxIn) (inputs : MapPrevTx)
    (hin : ∀ hash, (inputs hash).isSome → (fetchPrev src q fBlock fMiner hash).1 = true) :
    (fetchLoop src q fBlock fMiner vin inputs).1 = true ↔
      ∀ txin ∈ vin, (fetchPrev src q fBlock fMiner txin.prevout.hash).1 = true := by
  induction vin generalizing inputs with
  | nil => simp [fetchLoop]
  | cons txin vin ih =>
    rw [List.forall_mem_cons, fetchLoop]
    split
    · rename_i hknown
      rw [ih inputs hin, and_iff_right (hin _ hknown)]
    · simp only
      split
      · rename_i hok
        rw [ih _ fun hash hsome => ?_, and_iff_right hok]
        by_cases hh : hash = txin.prevout.hash
        · rw [hh]
          exact hok
        · rw [Function.update_of_ne hh] at hsome
          exact hin hash hsome
      · rename_i hfail
        simp [hfail]

/-- The fetching loop only reads what it fetches. -/
theorem fetchLoop_eq_of_fetchPrev_eq {vin : List CTxIn}
    (h : ∀ txin ∈ vin, fetchPrev src' q fBlock fMiner txin.prevout.hash =
      fetchPrev src q fBlock fMiner txin.prevout.hash) (inputs : MapPrevTx) :
    fetchLoop src' q fBlock fMiner vin inputs = fetchLoop src q fBlock fMiner vin inputs := by
  induction vin generalizing inputs with
  | nil => rfl
  | cons txin vin ih =>
    rw [List.forall_mem_cons] at h
    simp only [fetchLoop, h.1, ih h.2]

end CTransaction

namespace NodeState

variable (env) in
/-- `FetchInputs` finds the previous transaction `hash`, in the chain or in the memory pool. -/
def Available (s : NodeState) (hash : Uint256) : Prop :=
  (CTransaction.fetchPrev (s.sources env) ∅ false false hash).1 = true

variable (env) in
/-- Some input of the transaction is neither in the chain nor in the memory pool. -/
def Lacks (s : NodeState) (tx : CTransaction) : Prop :=
  ∃ txin ∈ tx.vin, ¬ s.Available env txin.prevout.hash

theorem fetchInputs_fails_iff {s : NodeState} {tx : CTransaction} (hcb : tx.isCoinBase = false) :
    (tx.fetchInputs (s.sources env) ∅ false false).ok = false ∧
        (tx.fetchInputs (s.sources env) ∅ false false).fInvalid = false ↔ s.Lacks env tx := by
  have hloop : (CTransaction.fetchLoop (s.sources env) ∅ false false tx.vin fun _ => none).1 = true ↔
      ∀ txin ∈ tx.vin, s.Available env txin.prevout.hash :=
    CTransaction.fetchLoop_fst_iff tx.vin (fun _ => none) (by simp)
  have hlacks : s.Lacks env tx ↔ ¬ ∀ txin ∈ tx.vin, s.Available env txin.prevout.hash := by
    simp [Lacks]
  rw [hlacks, ← hloop]
  simp only [CTransaction.fetchInputs, hcb, Bool.false_eq_true, if_false]
  split
  · rename_i hfail
    simpa using hfail
  · rename_i hok
    rw [Bool.not_eq_true', Bool.not_eq_false] at hok
    split <;> simp [hok]

theorem checkPoolInputs_snd_iff {s : NodeState} {tx : CTransaction} (hcb : tx.isCoinBase = false) :
    (s.checkPoolInputs C env tx).2 = true ↔ s.Lacks env tx := by
  rw [← fetchInputs_fails_iff hcb]
  unfold checkPoolInputs
  simp only
  split
  · rename_i hfail
    simp only [Bool.not_eq_true'] at hfail ⊢
    simp [hfail]
  · rename_i hok
    have hfalse : ¬ ((tx.fetchInputs (s.sources env) ∅ false false).ok = false ∧
        (tx.fetchInputs (s.sources env) ∅ false false).fInvalid = false) := by
      simp only [Bool.not_eq_true', Bool.not_eq_false] at hok
      simp [hok]
    rw [iff_false_right hfalse]
    -- every other way out leaves the flag alone
    repeat' split
    all_goals simp

theorem not_lacks_of_checkPoolInputs {s : NodeState} {tx : CTransaction}
    (hcb : tx.isCoinBase = false) (h : (s.checkPoolInputs C env tx).1 = true) :
    ¬ s.Lacks env tx := by
  rw [← fetchInputs_fails_iff hcb]
  rintro ⟨hfail, -⟩
  unfold checkPoolInputs at h
  simp [hfail] at h

/-- The flag `*pfMissingInputs` of an admissible transaction says that an input is missing. -/
theorem acceptToMemoryPool_missing_iff {s : NodeState} {tx : CTransaction}
    (h : s.Admissible C tx true) :
    (s.acceptToMemoryPool C env tx true).2.1 = true ↔ s.Lacks env tx := by
  rw [acceptToMemoryPool_of_admissible C env h, ← checkPoolInputs_snd_iff h.notCoinBase (C := C)]
  simp only [if_true]
  split
  · rename_i hok
    have hno := not_lacks_of_checkPoolInputs h.notCoinBase hok
    rw [← checkPoolInputs_snd_iff h.notCoinBase (C := C)] at hno
    simp [hno]
  · rfl

/-- A transaction that is offered and flagged lacks an input. -/
theorem lacks_of_missing {s : NodeState} {tx : CTransaction}
    (h : (s.acceptToMemoryPool C env tx true).2.1 = true) : s.Lacks env tx := by
  by_cases hadm : s.Admissible C tx true
  · exact (acceptToMemoryPool_missing_iff hadm).mp h
  · rw [acceptToMemoryPool_of_not_admissible C env hadm] at h
    cases h

/-! ### Growing pools -/

/-- What is fetched for a hash only depends on what the pool has under it. -/
theorem fetchPrev_mempool_eq {s : NodeState} {m m' : CTxMemPool} {hash : Uint256}
    (h : m'.mapTx.lookup hash = m.mapTx.lookup hash) :
    CTransaction.fetchPrev (sources env { s with mempool := m' }) ∅ false false hash =
      CTransaction.fetchPrev (sources env { s with mempool := m }) ∅ false false hash := by
  unfold CTransaction.fetchPrev
  simp only [sources, memPoolTx, CTransaction.lookupTxIndex, h]
  rfl

/-- A larger pool gives the same for what the smaller one had. -/
theorem fetchPrev_of_sub {s : NodeState} {m m' : CTxMemPool} (hsub : m.Sub m') {hash : Uint256}
    (h : Available env { s with mempool := m } hash) :
    CTransaction.fetchPrev (sources env { s with mempool := m' }) ∅ false false hash =
      CTransaction.fetchPrev (sources env { s with mempool := m }) ∅ false false hash := by
  rcases hm : m.mapTx.lookup hash with _ | tx
  · -- the chain has it, and then the pool is not looked at
    revert h
    unfold Available CTransaction.fetchPrev
    simp only [sources, memPoolTx, CTransaction.lookupTxIndex, hm, Bool.or_self, Bool.false_and,
      Bool.false_eq_true, if_false]
    rcases s.txdb.readTxIndex hash with _ | txindex
    · simp
    · by_cases hpos : txindex.pos = CDiskTxPos.memPool
      · simp [hpos]
      · simp only [hpos, if_false]
        exact fun _ => rfl
  · exact fetchPrev_mempool_eq ((hsub hash tx hm).trans hm.symm)

theorem connectCtx_mempool (s : NodeState) (m' m : CTxMemPool) (pindexBlock : CBlockIndex)
    (fBlock : Bool) : connectCtx { s with mempool := m' } pindexBlock fBlock =
      connectCtx { s with mempool := m } pindexBlock fBlock := by
  have hwalk : ∀ (nFile nBlockPos fuel : Nat) (hash : Option Uint256),
      immatureFrom { s with mempool := m' } pindexBlock nFile nBlockPos fuel hash =
        immatureFrom { s with mempool := m } pindexBlock nFile nBlockPos fuel hash := by
    intro nFile nBlockPos fuel
    induction fuel with
    | zero => exact fun _ => rfl
    | succ fuel ih =>
      rintro (_ | hash)
      · rfl
      · simp only [immatureFrom, ih]
  simp only [connectCtx, hwalk]

/-- The checks of the inputs only depend on what is fetched for them. -/
theorem checkPoolInputs_eq {s : NodeState} {m m' : CTxMemPool} {tx : CTransaction}
    (h : ∀ txin ∈ tx.vin, CTransaction.fetchPrev (sources env { s with mempool := m' }) ∅ false
        false txin.prevout.hash =
      CTransaction.fetchPrev (sources env { s with mempool := m }) ∅ false false
        txin.prevout.hash) :
    checkPoolInputs C env { s with mempool := m' } tx =
      checkPoolInputs C env { s with mempool := m } tx := by
  have hfetch : tx.fetchInputs (sources env { s with mempool := m' }) ∅ false false =
      tx.fetchInputs (sources env { s with mempool := m }) ∅ false false := by
    simp only [CTransaction.fetchInputs, CTransaction.fetchLoop_eq_of_fetchPrev_eq h]
  have hbest : best { s with mempool := m' } = best { s with mempool := m } := rfl
  simp only [checkPoolInputs, hfetch, hbest, connectCtx_mempool s m' m]

theorem available_congr_env {s : NodeState} {env' : Env}
    (h : env'.txUnreadable = env.txUnreadable) (hash : Uint256) :
    s.Available env' hash ↔ s.Available env hash := by
  have hread : s.readTx env' = s.readTx env := by
    funext pos
    simp only [readTx, h]
  unfold Available CTransaction.fetchPrev
  simp only [sources, CTransaction.lookupTxIndex, hread]

/-- What is not available stays so when another transaction enters the pool. -/
theorem Available.of_addUnchecked {s : NodeState} {tx : CTransaction} {hash hash' : Uint256}
    (h : Available env { s with mempool := s.mempool.addUnchecked hash tx } hash')
    (hne : hash' ≠ hash) : s.Available env hash' := by
  have hlook : (s.mempool.addUnchecked hash tx).mapTx.lookup hash' = s.mempool.mapTx.lookup hash' :=
    AList.lookup_insert_ne hne
  unfold Available at h ⊢
  rw [fetchPrev_mempool_eq hlook] at h
  exact h

end NodeState

/-! ## What the walk leaves unresolved -/

/-- The transaction has an input that spends from `hash`. -/
def CTransaction.SpendsTx (tx : CTransaction) (hash : Uint256) : Prop :=
  ∃ txin ∈ tx.vin, txin.prevout.hash = hash

namespace TxWork

variable (env) in
/-- The invariant of the walk: each stored orphan is due to be erased, lacks an input, spends from a
queue entry that is still ahead, or is still to be tried in this round. -/
def Covered (w : TxWork) (i : Nat) (rest : List Uint256) : Prop :=
  ∀ hash t, w.state.orphans.mapOrphanTransactions.lookup hash = some t →
    hash ∈ w.vEraseQueue ∨ w.state.node.Lacks env t ∨
      (∃ p ∈ w.vWorkQueue.drop i, t.SpendsTx p) ∨ hash ∈ rest

theorem mem_drop_append {l l' : List Uint256} {i : Nat} {p : Uint256} (h : p ∈ l.drop i) :
    p ∈ (l ++ l').drop i := by
  rw [List.drop_append]
  exact List.mem_append_left _ h

/-- Trying an orphan keeps the invariant: it is due to be erased or lacks an input, and an orphan
that lacked just this one has it ahead in the queue. -/
theorem Covered.tryOrphan {w : TxWork} {tx : CTransaction} {i : Nat} {hash : Uint256}
    {rest : List Uint256} (hlinked : w.state.orphans.Linked C)
    (hstored : (w.state.orphans.mapOrphanTransactions.lookup hash).isSome)
    (hi : i ≤ w.vWorkQueue.length) (h : w.Covered env i (hash :: rest)) :
    (w.tryOrphan C env tx hash).Covered env i rest := by
  obtain ⟨t, ht⟩ := Option.isSome_iff_exists.mp hstored
  obtain ⟨horphans, hcases⟩ := TxWork.tryOrphan_of_stored C env tx ht
  intro k tk hk
  rw [horphans] at hk
  rcases hcases with ⟨hok, hnode, hqueue, herase⟩ | ⟨hrefused, hnode, hqueue, herase⟩
  · -- accepted: only this transaction became available, and it is queued
    have hahead : hash ∈ (w.vWorkQueue ++ [hash]).drop i := by
      rw [List.drop_append_of_le_length hi]
      exact List.mem_append_right _ (List.mem_singleton_self _)
    rw [hqueue, herase, hnode]
    rcases h k tk hk with hmem | ⟨txin, hin, hlack⟩ | ⟨p, hp, hspend⟩ | hmem
    · exact Or.inl (List.mem_append_left _ hmem)
    · by_cases hq : txin.prevout.hash = hash
      · exact Or.inr (Or.inr (Or.inl ⟨hash, hahead, txin, hin, hq⟩))
      · refine Or.inr (Or.inl ⟨txin, hin, fun havail => hlack ?_⟩)
        exact havail.of_addUnchecked fun heq => hq (heq.trans (hlinked.named hash t ht))
    · exact Or.inr (Or.inr (Or.inl ⟨p, mem_drop_append hp, hspend⟩))
    · rcases List.mem_cons.mp hmem with rfl | hmem
      · exact Or.inl (List.mem_append_right _ (List.mem_singleton_self _))
      · exact Or.inr (Or.inr (Or.inr hmem))
  · rw [hqueue, herase, hnode]
    rcases h k tk hk with hmem | hlack | hspend | hmem
    · left
      split
      · exact hmem
      · exact List.mem_append_left _ hmem
    · exact Or.inr (Or.inl hlack)
    · exact Or.inr (Or.inr (Or.inl hspend))
    · rcases List.mem_cons.mp hmem with rfl | hmem
      · -- refused: erased, unless an input was missing
        split
        · rename_i hmissing
          refine Or.inr (Or.inl ?_)
          obtain rfl : tk = t := Option.some.inj (hk.symm.trans ht)
          exact NodeState.lacks_of_missing hmissing
        · exact Or.inl (List.mem_append_right _ (List.mem_singleton_self _))
      · exact Or.inr (Or.inr (Or.inr hmem))

theorem Covered.foldl_tryOrphan {tx : CTransaction} {i : Nat} (hashes : List Uint256) {w : TxWork}
    (hlinked : w.state.orphans.Linked C)
    (hstored : ∀ hash ∈ hashes, (w.state.orphans.mapOrphanTransactions.lookup hash).isSome)
    (hi : i ≤ w.vWorkQueue.length) (h : w.Covered env i hashes) :
    (hashes.foldl (TxWork.tryOrphan C env tx) w).Covered env i [] := by
  induction hashes generalizing w with
  | nil => exact h
  | cons hash hashes ih =>
    obtain ⟨hsame, hinit⟩ := foldl_tryOrphan_orphans C env tx [hash] w
      (by simpa using hstored hash List.mem_cons_self)
    rw [List.foldl_cons, List.foldl_nil] at hsame hinit
    apply ih
    · rw [hsame]
      exact hlinked
    · rw [hsame]
      exact fun hash' hmem => hstored hash' (List.mem_cons_of_mem _ hmem)
    · exact hi.trans hinit.length_le
    · exact h.tryOrphan hlinked (hstored hash List.mem_cons_self) hi

/-- A round turns the orphans that wait for the entry into those to be tried. -/
theorem Covered.workStep {tx : CTransaction} {i : Nat} {w : TxWork} {hashPrev : Uint256}
    (hlinked : w.state.orphans.Linked C) (hget : w.vWorkQueue[i]? = some hashPrev)
    (h : w.Covered env i []) : (w.workStep C env tx hashPrev).Covered env (i + 1) [] := by
  obtain ⟨hlt, hval⟩ := List.getElem?_eq_some_iff.mp hget
  have hdrop : w.vWorkQueue.drop i = hashPrev :: w.vWorkQueue.drop (i + 1) := by
    rw [List.drop_eq_getElem_cons hlt, hval]
  unfold TxWork.workStep
  simp only [OrphanTxs.waiting_touchPrev]
  apply Covered.foldl_tryOrphan
  · exact hlinked.touchPrev hashPrev
  · intro hash hmem
    obtain ⟨t, ht, -⟩ := (hlinked.mem_waiting hashPrev hash).mp hmem
    exact Option.isSome_iff_exists.mpr ⟨t, ht⟩
  · exact hlt
  · intro k tk hk
    rcases h k tk hk with hmem | hlack | ⟨p, hp, hspend⟩ | hmem
    · exact Or.inl hmem
    · exact Or.inr (Or.inl hlack)
    · rw [hdrop] at hp
      rcases List.mem_cons.mp hp with rfl | hp
      · exact Or.inr (Or.inr (Or.inr ((hlinked.mem_waiting p k).mpr ⟨tk, hk, hspend⟩)))
      · exact Or.inr (Or.inr (Or.inl ⟨p, hp, hspend⟩))
    · cases hmem

/-- When the walk has ended, each stored orphan is due to be erased or lacks an input. -/
theorem Covered.workLoop {tx : CTransaction} {fuel i : Nat} {w w' : TxWork}
    (hlinked : w.state.orphans.Linked C) (h : w.Covered env i [])
    (hloop : TxWork.workLoop C env tx fuel i w = some w') :
    ∀ hash t, w'.state.orphans.mapOrphanTransactions.lookup hash = some t →
      hash ∈ w'.vEraseQueue ∨ w'.state.node.Lacks env t := by
  induction fuel generalizing i w with
  | zero => cases hloop
  | succ fuel ih =>
    rw [TxWork.workLoop] at hloop
    rcases hi : w.vWorkQueue[i]? with _ | hashPrev
    · rw [hi] at hloop
      obtain rfl := Option.some.inj hloop
      have hdrop : w.vWorkQueue.drop i = [] :=
        List.drop_eq_nil_of_le (List.getElem?_eq_none_iff.mp hi)
      intro hash t ht
      rcases h hash t ht with hmem | hlack | ⟨p, hp, -⟩ | hmem
      · exact Or.inl hmem
      · exact Or.inr hlack
      · rw [hdrop] at hp
        cases hp
      · cases hmem
    · rw [hi] at hloop
      refine ih ?_ (h.workStep hlinked hi) hloop
      rw [(w.workStep_orphans C env tx hlinked hashPrev).1]
      exact hlinked.touchPrev hashPrev

end TxWork

namespace OrphanTxs

theorem lookup_eraseOrphanTx (o : OrphanTxs) (hash h : Uint256) :
    (o.eraseOrphanTx hash).mapOrphanTransactions.lookup h =
      if h = hash then none else o.mapOrphanTransactions.lookup h := by
  unfold eraseOrphanTx
  by_cases hh : h = hash
  · subst hh
    rcases hlook : o.mapOrphanTransactions.lookup h with _ | tx
    · simp [hlook]
    · simp [AList.lookup_erase]
  · rcases hlook : o.mapOrphanTransactions.lookup hash with _ | tx
    · simp [hh]
    · simp [hh, AList.lookup_erase_ne hh]

theorem lookup_eraseOrphanTxs (hashes : List Uint256) (o : OrphanTxs) (h : Uint256) :
    (o.eraseOrphanTxs hashes).mapOrphanTransactions.lookup h =
      if h ∈ hashes then none else o.mapOrphanTransactions.lookup h := by
  induction hashes generalizing o with
  | nil => simp [eraseOrphanTxs]
  | cons hash hashes ih =>
    rw [show o.eraseOrphanTxs (hash :: hashes) = (o.eraseOrphanTx hash).eraseOrphanTxs hashes from
      rfl, ih, lookup_eraseOrphanTx]
    by_cases hh : h = hash <;> simp [hh]

theorem lookup_limitOrphanTxSize {nMaxOrphans : Nat} {randomhash : Nat → Uint256} {nEvicted : Nat}
    {o : OrphanTxs} {h : Uint256} {tx : CTransaction}
    (hlook : (o.limitOrphanTxSize nMaxOrphans randomhash nEvicted).2.mapOrphanTransactions.lookup h =
      some tx) : o.mapOrphanTransactions.lookup h = some tx := by
  fun_induction limitOrphanTxSize nMaxOrphans randomhash nEvicted o with
  | case1 nEvicted o _ ih =>
    have hstep := ih hlook
    rw [lookup_eraseOrphanTx] at hstep
    split at hstep
    · cases hstep
    · exact hstep
  | case2 nEvicted o _ => exact hlook

/-- After `AddOrphanTx` the stored transactions are the old ones and perhaps the new one. -/
theorem lookup_addOrphanTx {o : OrphanTxs} {tx t : CTransaction} {h : Uint256}
    (hlook : (o.addOrphanTx C tx).2.mapOrphanTransactions.lookup h = some t) :
    o.mapOrphanTransactions.lookup h = some t ∨ h = C.hashTx tx ∧ t = tx := by
  rcases addOrphanTx_cases (C := C) tx o with hsame | ⟨-, -, hnew⟩
  · rw [hsame] at hlook
    exact Or.inl hlook
  · rw [hnew] at hlook
    by_cases hh : h = C.hashTx tx
    · subst hh
      rw [AList.lookup_insert] at hlook
      exact Or.inr ⟨rfl, (Option.some.inj hlook).symm⟩
    · rw [AList.lookup_insert_ne hh] at hlook
      exact Or.inl hlook

end OrphanTxs

theorem NodeState.lacks_congr_env {s : NodeState} {env' : Env}
    (h : env'.txUnreadable = env.txUnreadable) (tx : CTransaction) :
    s.Lacks env' tx ↔ s.Lacks env tx := by
  unfold NodeState.Lacks
  simp only [NodeState.available_congr_env h]

namespace RelayState

variable (env) in
/-- Each stored orphan lacks an input. -/
def Lacking (s : RelayState) : Prop :=
  ∀ hash t, s.orphans.mapOrphanTransactions.lookup hash = some t → s.node.Lacks env t

/-- **After a `tx` message each orphan that is still stored lacks an input**, if that held before. -/
theorem processTx_lacking {s s' : RelayState} {m : TxMessage} (hlinked : s.orphans.Linked C)
    (henv : m.env.txUnreadable = env.txUnreadable) (h : s.Lacking env)
    (hrun : s.processTx C m = some s') : s'.Lacking env := by
  unfold processTx at hrun
  simp only at hrun
  split at hrun
  · rename_i hok
    obtain ⟨w, hw, rfl⟩ := Option.map_eq_some_iff.mp hrun
    have hstate := NodeState.acceptToMemoryPool_state C m.env s.node m.tx true
    rw [if_pos hok] at hstate
    rw [walk, hstate] at hw
    have hcovered : TxWork.Covered m.env (⟨⟨{ s.node with
        mempool := s.node.mempool.addUnchecked (C.hashTx m.tx) m.tx }, s.orphans,
        s.walletTxs ++ [m.tx]⟩, [C.hashTx m.tx], [C.hashTx m.tx]⟩ : TxWork) 0 [] := by
      -- the accepted transaction is the one entry of the queue
      intro k t ht
      obtain ⟨txin, hin, hlack⟩ := (NodeState.lacks_congr_env henv t).mpr (h k t ht)
      by_cases hq : txin.prevout.hash = C.hashTx m.tx
      · exact Or.inr (Or.inr (Or.inl ⟨_, List.mem_singleton_self _, txin, hin, hq⟩))
      · exact Or.inr (Or.inl ⟨txin, hin, fun havail => hlack (havail.of_addUnchecked hq)⟩)
    have hend := hcovered.workLoop (C := C) hlinked hw
    intro hash t ht
    rw [OrphanTxs.lookup_eraseOrphanTxs] at ht
    split at ht
    · cases ht
    · rename_i hnot
      rw [← NodeState.lacks_congr_env henv]
      exact (hend hash t ht).resolve_left hnot
  · split at hrun
    · rename_i hmissing
      obtain rfl := Option.some.inj hrun
      intro hash t ht
      rcases OrphanTxs.lookup_addOrphanTx (OrphanTxs.lookup_limitOrphanTxSize ht) with
        hold | ⟨-, rfl⟩
      · exact h hash t hold
      · exact (NodeState.lacks_congr_env henv _).mp (NodeState.lacks_of_missing hmissing)
    · obtain rfl := Option.some.inj hrun
      exact h

variable (C) in
/-- A sequence of `tx` messages. -/
def deliver (s : RelayState) : List TxMessage → Option RelayState
  | [] => some s
  | m :: msgs => (s.processTx C m).bind fun s' => s'.deliver msgs

theorem deliver_isSome (s : RelayState) (msgs : List TxMessage) : (s.deliver C msgs).isSome := by
  induction msgs generalizing s with
  | nil => rfl
  | cons m msgs ih =>
    obtain ⟨s', hs'⟩ := Option.isSome_iff_exists.mp (s.processTx_isSome (C := C) m)
    rw [deliver, hs', Option.bind_some]
    exact ih s'

theorem deliver_lacking {s s' : RelayState} {msgs : List TxMessage} (hlinked : s.orphans.Linked C)
    (henv : ∀ m ∈ msgs, m.env.txUnreadable = env.txUnreadable) (h : s.Lacking env)
    (hrun : s.deliver C msgs = some s') : s'.orphans.Linked C ∧ s'.Lacking env := by
  induction msgs generalizing s with
  | nil =>
    obtain rfl := Option.some.inj hrun
    exact ⟨hlinked, h⟩
  | cons m msgs ih =>
    rw [List.forall_mem_cons] at henv
    obtain ⟨s₁, hs₁, hrest⟩ := Option.bind_eq_some_iff.mp hrun
    exact ih (processTx_linked hlinked hs₁).1 henv.2 (processTx_lacking hlinked henv.1 h hs₁) hrest

end RelayState

/-! ## Pools with further transactions -/

open CTxMemPool

variable (C) in
/-- The pool with the transactions `A` added in this order. -/
def poolWith (A : List CTransaction) (pool : CTxMemPool) : CTxMemPool :=
  A.foldl (fun p t => p.addUnchecked (C.hashTx t) t) pool

theorem poolWith_append_singleton (A : List CTransaction) (t : CTransaction) (pool : CTxMemPool) :
    poolWith C (A ++ [t]) pool = (poolWith C A pool).addUnchecked (C.hashTx t) t := by
  rw [poolWith, List.foldl_append]
  rfl

theorem next_poolWith_eq_none {A : List CTransaction} {pool : CTxMemPool} {o : COutPoint} :
    (poolWith C A pool).mapNextTx.lookup o = none ↔
      (∀ t ∈ A, o ∉ t.vin.map CTxIn.prevout) ∧ pool.mapNextTx.lookup o = none := by
  induction A using List.reverseRecOn with
  | nil => simp [poolWith]
  | append_singleton A t ih =>
    rw [poolWith_append_singleton, next_addUnchecked_eq_none, ih]
    simp only [List.mem_append, List.mem_singleton, or_imp, forall_and, forall_eq]
    tauto

/-- The inputs of transactions with distinct inputs that share none are indexed, whatever the
order. -/
theorem next_poolWith {A : List CTransaction} {pool : CTxMemPool}
    (hnodup : ∀ t ∈ A, (t.vin.map CTxIn.prevout).Nodup)
    (hdisj : ∀ t ∈ A, ∀ t' ∈ A, ∀ o ∈ t.vin.map CTxIn.prevout, o ∈ t'.vin.map CTxIn.prevout →
      t = t') (o : COutPoint) (a : Uint256) (i : Nat) :
    (poolWith C A pool).mapNextTx.lookup o = some (a, i) ↔
      (∃ t ∈ A, a = C.hashTx t ∧ prevoutAt t i = some o) ∨
        (∀ t ∈ A, o ∉ t.vin.map CTxIn.prevout) ∧ pool.mapNextTx.lookup o = some (a, i) := by
  induction A using List.reverseRecOn with
  | nil => simp [poolWith]
  | append_singleton A t ih =>
    have hmem : t ∈ A ++ [t] := List.mem_append_right _ (List.mem_singleton_self _)
    have hleft : ∀ t' ∈ A, t' ∈ A ++ [t] := fun t' => List.mem_append_left _
    rw [poolWith_append_singleton, lookup_next_addUnchecked (hnodup t hmem),
      ih (fun t' h => hnodup t' (hleft t' h))
        fun t' h t'' h' => hdisj t' (hleft t' h) t'' (hleft t'' h')]
    have hprev : ∀ t', prevoutAt t' i = some o → o ∈ t'.vin.map CTxIn.prevout := by
      intro t' h
      obtain ⟨txin, hin, rfl⟩ := exists_mem_of_prevoutAt h
      exact List.mem_map.mpr ⟨txin, hin, rfl⟩
    constructor
    · rintro (⟨rfl, hi⟩ | ⟨hnot, ⟨t', ht', ha, hi⟩ | ⟨hnone, hold⟩⟩)
      · exact Or.inl ⟨t, hmem, rfl, hi⟩
      · exact Or.inl ⟨t', hleft t' ht', ha, hi⟩
      · refine Or.inr ⟨fun t' ht' => ?_, hold⟩
        rcases List.mem_append.mp ht' with ht' | ht'
        · exact hnone t' ht'
        · rw [List.mem_singleton.mp ht']
          exact hnot
    · rintro (⟨t', ht', rfl, hi⟩ | ⟨hnone, hold⟩)
      · rcases List.mem_append.mp ht' with hA | hA
        · by_cases hin : o ∈ t.vin.map CTxIn.prevout
          · obtain rfl := hdisj t hmem t' ht' o hin (hprev t' hi)
            exact Or.inl ⟨rfl, hi⟩
          · exact Or.inr ⟨hin, Or.inl ⟨t', hA, rfl, hi⟩⟩
        · rw [List.mem_singleton.mp hA] at hi ⊢
          exact Or.inl ⟨rfl, hi⟩
      · exact Or.inr ⟨hnone t hmem, Or.inr ⟨fun t' h => hnone t' (hleft t' h), hold⟩⟩

section Acceptable

variable (hinj : Function.Injective C.hashTx)
include hinj

theorem lookup_poolWith {A : List CTransaction} {pool : CTxMemPool} {hash : Uint256}
    {t : CTransaction} :
    (poolWith C A pool).mapTx.lookup hash = some t ↔
      (t ∈ A ∧ C.hashTx t = hash) ∨
        (∀ t' ∈ A, C.hashTx t' ≠ hash) ∧ pool.mapTx.lookup hash = some t := by
  induction A using List.reverseRecOn with
  | nil => simp [poolWith]
  | append_singleton A t₁ ih =>
    rw [poolWith_append_singleton]
    simp only [CTxMemPool.addUnchecked]
    by_cases hh : hash = C.hashTx t₁
    · subst hh
      rw [AList.lookup_insert, Option.some.injEq]
      constructor
      · rintro rfl
        exact Or.inl ⟨by simp, rfl⟩
      · rintro (⟨-, heq⟩ | ⟨hne, -⟩)
        · exact (hinj heq).symm
        · exact absurd rfl (hne t₁ (by simp))
    · rw [AList.lookup_insert_ne hh, ih]
      have hne : ∀ {t' : CTransaction}, C.hashTx t' = hash → t' ≠ t₁ := by
        rintro t' h rfl
        exact hh h.symm
      constructor
      · rintro (⟨hmem, heq⟩ | ⟨hnone, hold⟩)
        · exact Or.inl ⟨List.mem_append_left _ hmem, heq⟩
        · refine Or.inr ⟨fun t' ht' => ?_, hold⟩
          rcases List.mem_append.mp ht' with ht' | ht'
          · exact hnone t' ht'
          · rw [List.mem_singleton.mp ht']
            exact Ne.symm hh
      · rintro (⟨hmem, heq⟩ | ⟨hnone, hold⟩)
        · rcases List.mem_append.mp hmem with hmem | hmem
          · exact Or.inl ⟨hmem, heq⟩
          · exact absurd (List.mem_singleton.mp hmem) (hne heq)
        · exact Or.inr ⟨fun t' ht' => hnone t' (List.mem_append_left _ ht'), hold⟩

theorem lookup_poolWith_eq_none {A : List CTransaction} {pool : CTxMemPool} {hash : Uint256} :
    (poolWith C A pool).mapTx.lookup hash = none ↔
      (∀ t ∈ A, C.hashTx t ≠ hash) ∧ pool.mapTx.lookup hash = none := by
  rw [Option.eq_none_iff_forall_ne_some, Option.eq_none_iff_forall_ne_some]
  simp only [ne_eq, lookup_poolWith hinj, not_or, not_and]
  constructor
  · intro h
    have hnone : ∀ t ∈ A, C.hashTx t ≠ hash := fun t ht => (h t).1 ht
    exact ⟨hnone, fun t => (h t).2 hnone⟩
  · rintro ⟨hnone, hold⟩ t
    exact ⟨hnone t, fun _ => hold t⟩

end Acceptable

/-! ## Acceptable sets -/

/-- The node with the transactions `A` added to its pool. -/
def NodeState.plus (C : Crypto) (s : NodeState) (A : List CTransaction) : NodeState :=
  { s with mempool := poolWith C A s.mempool }

theorem NodeState.plus_append_singleton (s : NodeState) (A : List CTransaction)
    (t : CTransaction) :
    { s.plus C A with mempool := (s.plus C A).mempool.addUnchecked (C.hashTx t) t } =
      s.plus C (A ++ [t]) := by
  unfold NodeState.plus
  rw [poolWith_append_singleton]

variable (C env) in
/-- Each transaction of `T` is accepted once the others are in the pool. -/
def Acceptable (s : NodeState) (T : List CTransaction) : Prop :=
  ∀ t ∈ T, ((s.plus C (T.filter (· ≠ t))).acceptToMemoryPool C env t true).1 = true

namespace Acceptable

variable {s : NodeState} {T A : List CTransaction} (h : Acceptable C env s T)
  (hinj : Function.Injective C.hashTx)
include h

theorem admissible {t : CTransaction} (ht : t ∈ T) :
    (s.plus C (T.filter (· ≠ t))).Admissible C t true :=
  ((NodeState.acceptToMemoryPool_fst_iff C env).mp (h t ht)).1

theorem nodup {t : CTransaction} (ht : t ∈ T) : (t.vin.map CTxIn.prevout).Nodup :=
  CTransaction.nodup_of_checkTransaction (h.admissible ht).checked

/-- No two transactions of the set share an input. -/
theorem disjoint {t t' : CTransaction} (ht : t ∈ T) (ht' : t' ∈ T) {o : COutPoint}
    (ho : o ∈ t.vin.map CTxIn.prevout) (ho' : o ∈ t'.vin.map CTxIn.prevout) : t = t' := by
  by_contra hne
  obtain ⟨txin, hin, rfl⟩ := List.mem_map.mp ho
  have hfree := (next_poolWith_eq_none.mp ((h.admissible ht).noConflict txin hin)).1 t'
    (by simp [ht', Ne.symm hne])
  exact hfree ho'

include hinj

theorem notInPool {t : CTransaction} (ht : t ∈ T) : s.mempool.mapTx.lookup (C.hashTx t) = none :=
  ((lookup_poolWith_eq_none hinj).mp (h.admissible ht).notInPool).2

omit h hinj in
theorem subset_filter (hA : A ⊆ T) {t : CTransaction} (hnot : t ∉ A) :
    A ⊆ T.filter (· ≠ t) := by
  intro x hx
  have hne : x ≠ t := fun hxt => hnot (hxt ▸ hx)
  simpa [hne] using hA hx

/-- A part of the set leaves the other transactions admissible. -/
theorem admissible_of_subset (hA : A ⊆ T) {t : CTransaction} (ht : t ∈ T) (hnot : t ∉ A) :
    (s.plus C A).Admissible C t true := by
  have hadm := h.admissible ht
  refine ⟨hadm.checked, hadm.notCoinBase, hadm.notCoinStake, hadm.lockTime, hadm.standard, ?_,
    hadm.notInChain, ?_⟩
  · refine (lookup_poolWith_eq_none hinj).mpr ⟨fun t' ht' heq => hnot ?_, h.notInPool hinj ht⟩
    exact hinj heq ▸ ht'
  · intro txin hin
    obtain ⟨hfree, hnone⟩ := next_poolWith_eq_none.mp (hadm.noConflict txin hin)
    exact next_poolWith_eq_none.mpr ⟨fun t' ht' => hfree t' (subset_filter hA hnot ht'), hnone⟩

/-- The pool with a part of the set is a part of the pool with more of it. -/
theorem sub_poolWith {B : List CTransaction} (hAB : A ⊆ B) (hB : B ⊆ T) :
    (poolWith C A s.mempool).Sub (poolWith C B s.mempool) := by
  intro hash x hx
  rw [lookup_poolWith hinj] at hx ⊢
  rcases hx with ⟨hmem, heq⟩ | ⟨-, hold⟩
  · exact Or.inl ⟨hAB hmem, heq⟩
  · refine Or.inr ⟨fun t' ht' heq => ?_, hold⟩
    rw [← heq, h.notInPool hinj (hB ht')] at hold
    cases hold

/-- **With a part of the set in the pool, another transaction of the set is accepted iff it lacks no
input.** -/
theorem accept_iff (hA : A ⊆ T) {t : CTransaction} (ht : t ∈ T) (hnot : t ∉ A) :
    ((s.plus C A).acceptToMemoryPool C env t true).1 = true ↔ ¬ (s.plus C A).Lacks env t := by
  have hadm := h.admissible_of_subset hinj hA ht hnot
  rw [NodeState.acceptToMemoryPool_fst_iff]
  constructor
  · rintro ⟨-, hcheck⟩
    exact NodeState.not_lacks_of_checkPoolInputs hadm.notCoinBase (hcheck rfl)
  · intro hlacks
    refine ⟨hadm, fun _ => ?_⟩
    -- what is fetched is what was fetched with all the others in the pool
    have hfull := ((NodeState.acceptToMemoryPool_fst_iff C env).mp (h t ht)).2 rfl
    have hsame : (s.plus C (T.filter (· ≠ t))).checkPoolInputs C env t =
        (s.plus C A).checkPoolInputs C env t := by
      refine NodeState.checkPoolInputs_eq fun txin hin => ?_
      refine NodeState.fetchPrev_of_sub (h.sub_poolWith hinj (subset_filter hA hnot)
        (List.filter_subset_self _)) ?_
      by_contra hun
      exact hlacks ⟨txin, hin, hun⟩
    rw [← hsame]
    exact hfull

/-- A transaction of the set that lacks an input with `A` in the pool lacks one of the set. -/
theorem exists_missing (hA : A ⊆ T) {t : CTransaction} (ht : t ∈ T) (hnot : t ∉ A)
    (hlacks : (s.plus C A).Lacks env t) :
    ∃ x ∈ T, x ∉ A ∧ t.SpendsTx (C.hashTx x) := by
  obtain ⟨txin, hin, hun⟩ := hlacks
  have hfull : NodeState.Available env (s.plus C (T.filter (· ≠ t))) txin.prevout.hash := by
    have hcheck := ((NodeState.acceptToMemoryPool_fst_iff C env).mp (h t ht)).2 rfl
    by_contra hun'
    exact NodeState.not_lacks_of_checkPoolInputs (h.admissible ht).notCoinBase hcheck
      ⟨txin, hin, hun'⟩
  -- the two pools differ there
  have hdiff : (poolWith C (T.filter (· ≠ t)) s.mempool).mapTx.lookup txin.prevout.hash ≠
      (poolWith C A s.mempool).mapTx.lookup txin.prevout.hash := by
    intro heq
    apply hun
    unfold NodeState.Available at hfull ⊢
    unfold NodeState.plus at hfull ⊢
    rw [NodeState.fetchPrev_mempool_eq heq] at hfull
    exact hfull
  have hnone : (poolWith C A s.mempool).mapTx.lookup txin.prevout.hash = none := by
    rcases hlook : (poolWith C A s.mempool).mapTx.lookup txin.prevout.hash with _ | x
    · rfl
    · exact absurd ((h.sub_poolWith hinj (subset_filter hA hnot)
        (List.filter_subset_self _) _ x hlook).trans hlook.symm) hdiff
  rw [hnone] at hdiff
  obtain ⟨x, hx⟩ := Option.ne_none_iff_exists'.mp hdiff
  obtain ⟨hnoA, hold⟩ := (lookup_poolWith_eq_none hinj).mp hnone
  rcases (lookup_poolWith hinj).mp hx with ⟨hmem, heq⟩ | ⟨-, hsome⟩
  · exact ⟨x, List.mem_of_mem_filter hmem, fun hxA => hnoA x hxA heq, txin, hin, heq.symm⟩
  · rw [hold] at hsome
    cases hsome

end Acceptable

/-! ## Delivering an acceptable set -/

section Delivery

variable {s₀ : NodeState} {T : List CTransaction} (hinj : Function.Injective C.hashTx)

variable (C) in
/-- The walk has brought the transactions `A` of the set into the pool, and erases only such. -/
structure WalkOK (s₀ : NodeState) (T A : List CTransaction) (w : TxWork) : Prop where
  node : w.state.node = s₀.plus C A
  subset : A ⊆ T
  erased : ∀ hash ∈ w.vEraseQueue, ∃ t ∈ A, C.hashTx t = hash

include hinj

/-- Trying a stored transaction of the set: it is accepted, or it was before, or it stays. -/
theorem WalkOK.tryOrphan {env : Env} (hacc : Acceptable C env s₀ T) {A : List CTransaction}
    {w : TxWork} (h : WalkOK C s₀ T A w) {tx t : CTransaction} (ht : t ∈ T)
    (hstored : w.state.orphans.mapOrphanTransactions.lookup (C.hashTx t) = some t) :
    ∃ A', A ⊆ A' ∧ WalkOK C s₀ T A' (w.tryOrphan C env tx (C.hashTx t)) := by
  obtain ⟨-, hcases⟩ := TxWork.tryOrphan_of_stored C env tx hstored
  rw [h.node] at hcases
  rcases hcases with ⟨hok, hnode, -, herase⟩ | ⟨hrefused, hnode, -, herase⟩
  · refine ⟨A ++ [t], List.subset_append_left _ _, ?_, ?_, ?_⟩
    · rw [hnode]
      exact s₀.plus_append_singleton A t
    · exact List.append_subset.mpr ⟨h.subset, by simpa using ht⟩
    · rw [herase]
      intro hash hmem
      rcases List.mem_append.mp hmem with hmem | hmem
      · obtain ⟨x, hx, hxh⟩ := h.erased hash hmem
        exact ⟨x, List.mem_append_left _ hx, hxh⟩
      · exact ⟨t, by simp, (List.mem_singleton.mp hmem).symm⟩
  · refine ⟨A, List.Subset.refl _, hnode, h.subset, ?_⟩
    rw [herase]
    split
    · exact h.erased
    · rename_i hflag
      intro hash hmem
      rcases List.mem_append.mp hmem with hmem | hmem
      · exact h.erased hash hmem
      · -- refused for another reason than a missing input: it is in the pool already
        refine ⟨t, ?_, (List.mem_singleton.mp hmem).symm⟩
        by_contra hnot
        have hlacks : (s₀.plus C A).Lacks env t := by
          by_contra hno
          rw [(hacc.accept_iff hinj h.subset ht hnot).mpr hno] at hrefused
          cases hrefused
        exact hflag ((NodeState.acceptToMemoryPool_missing_iff
          (hacc.admissible_of_subset hinj h.subset ht hnot)).mpr hlacks)

theorem WalkOK.foldl_tryOrphan {env : Env} (hacc : Acceptable C env s₀ T) {tx : CTransaction}
    (hashes : List Uint256) {A : List CTransaction} {w : TxWork} (h : WalkOK C s₀ T A w)
    (hstored : ∀ hash ∈ hashes, ∃ t ∈ T, C.hashTx t = hash ∧
      w.state.orphans.mapOrphanTransactions.lookup hash = some t) :
    ∃ A', A ⊆ A' ∧ WalkOK C s₀ T A' (hashes.foldl (TxWork.tryOrphan C env tx) w) := by
  induction hashes generalizing A w with
  | nil => exact ⟨A, List.Subset.refl _, h⟩
  | cons hash hashes ih =>
    obtain ⟨t, ht, rfl, hlook⟩ := hstored hash List.mem_cons_self
    obtain ⟨A₁, hA₁, h₁⟩ : ∃ A', A ⊆ A' ∧
        WalkOK C s₀ T A' (w.tryOrphan C env tx (C.hashTx t)) := h.tryOrphan hinj hacc ht hlook
    obtain ⟨A₂, hA₂, h₂⟩ := ih h₁ fun hash' hmem => by
      rw [(TxWork.tryOrphan_of_stored C env tx hlook).1]
      exact hstored hash' (List.mem_cons_of_mem _ hmem)
    exact ⟨A₂, List.Subset.trans hA₁ hA₂, h₂⟩

/-- The walk brings transactions of the set into the pool, and erases only such. -/
theorem WalkOK.workLoop {env : Env} (hacc : Acceptable C env s₀ T) {tx : CTransaction}
    {fuel i : Nat} {A : List CTransaction} {w w' : TxWork} (h : WalkOK C s₀ T A w)
    (hlinked : w.state.orphans.Linked C)
    (hstored : ∀ hash t, w.state.orphans.mapOrphanTransactions.lookup hash = some t → t ∈ T)
    (hloop : TxWork.workLoop C env tx fuel i w = some w') :
    ∃ A', A ⊆ A' ∧ WalkOK C s₀ T A' w' := by
  induction fuel generalizing i A w with
  | zero => cases hloop
  | succ fuel ih =>
    rw [TxWork.workLoop] at hloop
    rcases hi : w.vWorkQueue[i]? with _ | hashPrev
    · rw [hi] at hloop
      obtain rfl := Option.some.inj hloop
      exact ⟨A, List.Subset.refl _, h⟩
    · rw [hi] at hloop
      obtain ⟨A₁, hA₁, h₁⟩ : ∃ A', A ⊆ A' ∧ WalkOK C s₀ T A' (w.workStep C env tx hashPrev) := by
        refine WalkOK.foldl_tryOrphan hinj hacc _ ⟨h.node, h.subset, h.erased⟩ fun hash hmem => ?_
        rw [OrphanTxs.waiting_touchPrev, hlinked.mem_waiting] at hmem
        obtain ⟨t, ht, -⟩ := hmem
        exact ⟨t, hstored hash t ht, hlinked.named hash t ht, ht⟩
      have horphans := (w.workStep_orphans C env tx hlinked hashPrev).1
      obtain ⟨A₂, hA₂, h₂⟩ := ih h₁ (horphans ▸ hlinked.touchPrev hashPrev)
        (horphans ▸ hstored) hloop
      exact ⟨A₂, List.Subset.trans hA₁ hA₂, h₂⟩

omit hinj in
/-- Orphans of the set are no more than the set. -/
theorem size_le_of_stored {o : OrphanTxs} (hlinked : o.Linked C)
    (hstored : ∀ hash t, o.mapOrphanTransactions.lookup hash = some t → t ∈ T) :
    o.size ≤ T.length := by
  have hkeys : o.mapOrphanTransactions.keys ⊆ T.map C.hashTx := by
    intro hash hmem
    obtain ⟨t, ht⟩ := Option.isSome_iff_exists.mp
      (AList.lookup_isSome.mpr (AList.mem_keys.mpr hmem))
    exact List.mem_map.mpr ⟨t, hstored hash t ht, hlinked.named hash t ht⟩
  have hlen := (List.subperm_of_subset o.mapOrphanTransactions.keys_nodup hkeys).length_le
  simpa [AList.keys, List.keys, OrphanTxs.size] using hlen

variable (C) in
/-- Where the delivery stands: the transactions `A` of the set are in the pool, and the orphans are
of the set. -/
structure Progress (s₀ : NodeState) (T A : List CTransaction) (s : RelayState) : Prop where
  node : s.node = s₀.plus C A
  subset : A ⊆ T
  linked : s.orphans.Linked C
  stored : ∀ hash t, s.orphans.mapOrphanTransactions.lookup hash = some t → t ∈ T

variable (C) in
/-- The transaction is in the pool or waits as an orphan. -/
def Known (A : List CTransaction) (s : RelayState) (t : CTransaction) : Prop :=
  t ∈ A ∨ s.orphans.mapOrphanTransactions.lookup (C.hashTx t) = some t

/-- **One message of the set**: its transaction is known afterwards, and no transaction that was
known is lost. -/
theorem Progress.processTx {m : TxMessage} (hacc : Acceptable C m.env s₀ T)
    (hcount : T.length ≤ MAX_ORPHAN_TRANSACTIONS) (hmem : m.tx ∈ T)
    (hsize : m.tx.getSerializeSize ≤ 5000) {A : List CTransaction} {s s' : RelayState}
    (h : Progress C s₀ T A s) (hrun : s.processTx C m = some s') :
    ∃ A', Progress C s₀ T A' s' ∧ Known C A' s' m.tx ∧ ∀ t, Known C A s t → Known C A' s' t := by
  have hlinked' := (RelayState.processTx_linked h.linked hrun).1
  unfold RelayState.processTx at hrun
  rw [h.node] at hrun
  simp only at hrun
  split at hrun
  · rename_i hok
    obtain ⟨w, hw, rfl⟩ := Option.map_eq_some_iff.mp hrun
    have hstate := NodeState.acceptToMemoryPool_state C m.env (s₀.plus C A) m.tx true
    rw [if_pos hok] at hstate
    have hstart : WalkOK C s₀ T (A ++ [m.tx]) ⟨⟨((s₀.plus C A).acceptToMemoryPool C m.env m.tx
        true).2.2, s.orphans, s.walletTxs ++ [m.tx]⟩, [C.hashTx m.tx], [C.hashTx m.tx]⟩ := by
      refine ⟨?_, List.append_subset.mpr ⟨h.subset, by simpa using hmem⟩, ?_⟩
      · exact hstate.trans (s₀.plus_append_singleton A m.tx)
      · intro hash hhash
        exact ⟨m.tx, by simp, (List.mem_singleton.mp hhash).symm⟩
    obtain ⟨A', hA', hend⟩ := hstart.workLoop hinj hacc h.linked h.stored hw
    have hsame := (TxWork.workLoop_orphans C m.env m.tx h.linked hw).2.2.1
    have hlook : ∀ hash, (w.state.orphans.eraseOrphanTxs w.vEraseQueue).mapOrphanTransactions.lookup
        hash = if hash ∈ w.vEraseQueue then none else s.orphans.mapOrphanTransactions.lookup hash := by
      intro hash
      rw [OrphanTxs.lookup_eraseOrphanTxs, hsame]
    refine ⟨A', ⟨hend.node, hend.subset, hlinked', ?_⟩, Or.inl (hA' (by simp)), ?_⟩
    · intro hash t ht
      rw [hlook] at ht
      split at ht
      · cases ht
      · exact h.stored hash t ht
    · rintro t (ht | ht)
      · exact Or.inl (hA' (List.mem_append_left _ ht))
      · -- an orphan that is erased is in the pool
        by_cases herase : C.hashTx t ∈ w.vEraseQueue
        · obtain ⟨t', ht', heq⟩ := hend.erased _ herase
          exact Or.inl (hinj heq ▸ ht')
        · exact Or.inr ((hlook _).trans (by rw [if_neg herase, ht]))
  · rename_i hrefused
    by_cases hin : m.tx ∈ A
    · -- a transaction of the pool is refused without a flag
      have hnot : ¬ (s₀.plus C A).Admissible C m.tx true := by
        intro hadm
        exact ((lookup_poolWith_eq_none hinj).mp hadm.notInPool).1 m.tx hin rfl
      rw [NodeState.acceptToMemoryPool_of_not_admissible C m.env hnot] at hrun
      obtain rfl := Option.some.inj hrun
      exact ⟨A, h, Or.inl hin, fun _ ht => ht⟩
    · have hlacks : (s₀.plus C A).Lacks m.env m.tx := by
        by_contra hno
        exact hrefused ((hacc.accept_iff hinj h.subset hmem hin).mpr hno)
      rw [if_pos ((NodeState.acceptToMemoryPool_missing_iff
        (hacc.admissible_of_subset hinj h.subset hmem hin)).mpr hlacks)] at hrun
      have hlinked₁ := h.linked.addOrphanTx m.tx
      have hstored₁ : ∀ hash t,
          (s.orphans.addOrphanTx C m.tx).2.mapOrphanTransactions.lookup hash = some t → t ∈ T := by
        intro hash t ht
        rcases OrphanTxs.lookup_addOrphanTx ht with hold | ⟨-, rfl⟩
        · exact h.stored hash t hold
        · exact hmem
      rw [OrphanTxs.limitOrphanTxSize_of_le
        ((size_le_of_stored hlinked₁ hstored₁).trans hcount)] at hrun
      obtain rfl := Option.some.inj hrun
      have hkeep : ∀ hash t, s.orphans.mapOrphanTransactions.lookup hash = some t →
          (s.orphans.addOrphanTx C m.tx).2.mapOrphanTransactions.lookup hash = some t := by
        intro hash t ht
        rcases OrphanTxs.addOrphanTx_cases (C := C) m.tx s.orphans with hsame | ⟨hnone, -, hnew⟩
        · rw [hsame]
          exact ht
        · rw [hnew]
          refine (AList.lookup_insert_ne fun heq => ?_).trans ht
          rw [heq, hnone] at ht
          cases ht
      refine ⟨A, ⟨rfl, h.subset, hlinked', hstored₁⟩, Or.inr ?_,
        fun t ht => ht.imp_right (hkeep _ t)⟩
      rcases hlook : s.orphans.mapOrphanTransactions.lookup (C.hashTx m.tx) with _ | t
      · simp [OrphanTxs.addOrphanTx, hlook, Nat.not_lt.mpr hsize]
      · obtain rfl : t = m.tx := hinj (h.linked.named _ t hlook)
        exact hkeep _ _ hlook

/-- A sequence of messages of the set: all their transactions are known afterwards. -/
theorem Progress.deliver {msgs : List TxMessage}
    (hacc : ∀ m ∈ msgs, Acceptable C m.env s₀ T) (hcount : T.length ≤ MAX_ORPHAN_TRANSACTIONS)
    (hmem : ∀ m ∈ msgs, m.tx ∈ T) (hsize : ∀ m ∈ msgs, m.tx.getSerializeSize ≤ 5000)
    {A : List CTransaction} {s s' : RelayState} (h : Progress C s₀ T A s)
    (hrun : s.deliver C msgs = some s') :
    ∃ A', Progress C s₀ T A' s' ∧ (∀ m ∈ msgs, Known C A' s' m.tx) ∧
      ∀ t, Known C A s t → Known C A' s' t := by
  induction msgs generalizing A s with
  | nil =>
    obtain rfl := Option.some.inj hrun
    exact ⟨A, h, by simp, fun _ ht => ht⟩
  | cons m msgs ih =>
    rw [List.forall_mem_cons] at hacc hmem hsize
    obtain ⟨s₁, hs₁, hrest⟩ := Option.bind_eq_some_iff.mp hrun
    obtain ⟨A₁, h₁, hnew, hkeep⟩ := h.processTx hinj hacc.1 hcount hmem.1 hsize.1 hs₁
    obtain ⟨A₂, h₂, hall, hkeep₂⟩ := ih hacc.2 hmem.2 hsize.2 h₁ hrest
    refine ⟨A₂, h₂, ?_, fun t ht => hkeep₂ t (hkeep t ht)⟩
    rw [List.forall_mem_cons]
    exact ⟨hkeep₂ _ hnew, hall⟩

/-- When all of the set is known and each orphan lacks an input, nothing waits any more: an orphan
would wait for an orphan, and so on without end. -/
theorem Progress.stored_eq_none (hacyclic : HashAcyclic C) {env : Env}
    (hacc : Acceptable C env s₀ T) {A : List CTransaction} {s : RelayState}
    (h : Progress C s₀ T A s) (hknown : ∀ t ∈ T, Known C A s t) (hlacking : s.Lacking env)
    (hash : Uint256) : s.orphans.mapOrphanTransactions.lookup hash = none := by
  let stored : Set Uint256 := {hash | hash ∈ s.orphans.mapOrphanTransactions.keys}
  have hstrict : IsStrictOrder Uint256 (Relation.TransGen (SpendsFrom C)) :=
    { irrefl := hacyclic, trans := fun _ _ _ => Relation.TransGen.trans }
  have hwf : stored.WellFoundedOn (Relation.TransGen (SpendsFrom C)) :=
    (List.finite_toSet _).wellFoundedOn
  by_contra hsome
  have hmem : hash ∈ stored := AList.mem_keys.mp (AList.lookup_isSome.mp
    (Option.isSome_iff_ne_none.mpr hsome))
  refine hwf.induction (P := fun _ => False) hmem fun k hk ih => ?_
  obtain ⟨t, ht⟩ := Option.isSome_iff_exists.mp (AList.lookup_isSome.mpr (AList.mem_keys.mpr hk))
  have hname := h.linked.named k t ht
  have htT := h.stored k t ht
  -- it lacks the input without its own copy in the pool too
  have hlacks : (s₀.plus C (A.filter (· ≠ t))).Lacks env t := by
    obtain ⟨txin, hin, hun⟩ := hlacking k t ht
    refine ⟨txin, hin, fun havail => hun ?_⟩
    rw [h.node]
    have hsub := hacc.sub_poolWith hinj (List.filter_subset_self (p := (· ≠ t)) A) h.subset
    unfold NodeState.Available at havail ⊢
    unfold NodeState.plus at havail ⊢
    rw [NodeState.fetchPrev_of_sub hsub havail]
    exact havail
  obtain ⟨x, hx, hxA, txin, hin, hspend⟩ := hacc.exists_missing hinj
    (List.Subset.trans (List.filter_subset_self _) h.subset) htT (by simp) hlacks
  have hstep : SpendsFrom C (C.hashTx x) k := ⟨t, hname, txin, hin, hspend⟩
  have hne : x ≠ t := by
    rintro rfl
    rw [hname] at hstep
    exact hacyclic k (.single hstep)
  have hxs := (hknown x hx).resolve_left fun hmemA => hxA (by simpa [hne] using hmemA)
  exact ih (C.hashTx x) (AList.mem_keys.mp (AList.lookup_isSome.mp (by rw [hxs]; rfl)))
    (.single hstep)

/-- **A set of acceptable transactions ends up in the pool, in whatever order it is delivered**, and
no orphan is left. -/
theorem deliver_resolves (hacyclic : HashAcyclic C) {s s' : RelayState} {msgs : List TxMessage}
    (hlinked : s.orphans.Linked C)
    (hempty : ∀ hash, s.orphans.mapOrphanTransactions.lookup hash = none)
    (henv : ∀ m ∈ msgs, ∀ m' ∈ msgs, m.env.txUnreadable = m'.env.txUnreadable)
    (hset : ∀ t, t ∈ T ↔ ∃ m ∈ msgs, m.tx = t) (hcount : T.length < MAX_ORPHAN_TRANSACTIONS)
    (hsize : ∀ t ∈ T, t.getSerializeSize ≤ 5000)
    (hacc : ∀ m ∈ msgs, Acceptable C m.env s.node T) (hrun : s.deliver C msgs = some s') :
    (∀ hash, s'.orphans.mapOrphanTransactions.lookup hash = none) ∧
      ∃ A, (∀ t, t ∈ A ↔ t ∈ T) ∧ s'.node = s.node.plus C A := by
  have hstart : Progress C s.node T [] s :=
    ⟨rfl, List.nil_subset _, hlinked, fun hash t ht => by rw [hempty] at ht; cases ht⟩
  have htx : ∀ m ∈ msgs, m.tx ∈ T := fun m hm => (hset m.tx).mpr ⟨m, hm, rfl⟩
  obtain ⟨A, hend, hall, -⟩ := hstart.deliver hinj hacc hcount.le htx
    (fun m hm => hsize m.tx (htx m hm)) hrun
  have hknown : ∀ t ∈ T, Known C A s' t := by
    intro t ht
    obtain ⟨m, hm, rfl⟩ := (hset t).mp ht
    exact hall m hm
  have hnone : ∀ hash, s'.orphans.mapOrphanTransactions.lookup hash = none := by
    intro hash
    by_contra hsome
    obtain ⟨t, ht⟩ := Option.ne_none_iff_exists'.mp hsome
    obtain ⟨m, hm, -⟩ := (hset t).mp (hend.stored hash t ht)
    have hlacking : s.Lacking m.env := fun hash t ht => by rw [hempty] at ht; cases ht
    have hlacking' := (RelayState.deliver_lacking hlinked (fun m' hm' => henv m' hm' m hm) hlacking
      hrun).2
    exact hsome (hend.stored_eq_none hinj hacyclic (hacc m hm) hknown hlacking' hash)
  refine ⟨hnone, A, fun t => ⟨fun ht => hend.subset ht, fun ht => ?_⟩, hend.node⟩
  rcases hknown t ht with hmem | hstored
  · exact hmem
  · rw [hnone] at hstored
    cases hstored

end Delivery

variable (C) in
/-- The pool holds exactly the transactions of `pool` and those of `T`, with their inputs indexed. -/
structure PoolIs (pool : CTxMemPool) (T : List CTransaction) (pool' : CTxMemPool) : Prop where
  tx : ∀ hash t, pool'.mapTx.lookup hash = some t ↔
    (t ∈ T ∧ C.hashTx t = hash) ∨ pool.mapTx.lookup hash = some t
  next : ∀ o a i, pool'.mapNextTx.lookup o = some (a, i) ↔
    (∃ t ∈ T, a = C.hashTx t ∧ prevoutAt t i = some o) ∨ pool.mapNextTx.lookup o = some (a, i)

/-- The pool with an acceptable set does not depend on the order. -/
theorem Acceptable.poolIs {s : NodeState} {T A : List CTransaction} (h : Acceptable C env s T)
    (hinj : Function.Injective C.hashTx) (hA : ∀ t, t ∈ A ↔ t ∈ T) :
    PoolIs C s.mempool T (poolWith C A s.mempool) where
  tx hash t := by
    rw [lookup_poolWith hinj, hA]
    constructor
    · rintro (hnew | ⟨-, hold⟩)
      · exact Or.inl hnew
      · exact Or.inr hold
    · rintro (hnew | hold)
      · exact Or.inl hnew
      · refine Or.inr ⟨fun t' ht' heq => ?_, hold⟩
        rw [← heq, h.notInPool hinj ((hA t').mp ht')] at hold
        cases hold
  next o a i := by
    rw [next_poolWith (fun t ht => h.nodup ((hA t).mp ht))
      fun t ht t' ht' o ho ho' => h.disjoint ((hA t).mp ht) ((hA t').mp ht') ho ho']
    simp only [hA]
    constructor
    · rintro (hnew | ⟨-, hold⟩)
      · exact Or.inl hnew
      · exact Or.inr hold
    · rintro (hnew | hold)
      · exact Or.inl hnew
      · refine Or.inr ⟨fun t ht ho => ?_, hold⟩
        obtain ⟨txin, hin, rfl⟩ := List.mem_map.mp ho
        have hfree := (next_poolWith_eq_none.mp ((h.admissible ht).noConflict txin hin)).2
        rw [hfree] at hold
        cases hold

/-- **Orphans are resolved independently of the order**: an acceptable set ends up in the pool and
leaves no orphan. **Along `tx` messages each orphan that is still stored lacks an input**, and the
handling of a message always ends. -/
theorem deliver_lacking_and_resolves (hinj : Function.Injective C.hashTx)
    (hacyclic : HashAcyclic C) :
    (∀ (s : RelayState) (msgs : List TxMessage) (T : List CTransaction), s.orphans.Linked C →
      (∀ hash, s.orphans.mapOrphanTransactions.lookup hash = none) →
      (∀ m ∈ msgs, ∀ m' ∈ msgs, m.env.txUnreadable = m'.env.txUnreadable) →
      (∀ t, t ∈ T ↔ ∃ m ∈ msgs, m.tx = t) → T.length < MAX_ORPHAN_TRANSACTIONS →
      (∀ t ∈ T, t.getSerializeSize ≤ 5000) → (∀ m ∈ msgs, Acceptable C m.env s.node T) →
      ∃ s', s.deliver C msgs = some s' ∧
        (∀ hash, s'.orphans.mapOrphanTransactions.lookup hash = none) ∧
        PoolIs C s.node.mempool T s'.node.mempool ∧
        s'.node = { s.node with mempool := s'.node.mempool }) ∧
    (∀ (env : Env) (s s' : RelayState) (msgs : List TxMessage), s.orphans.Linked C →
      s.Lacking env → (∀ m ∈ msgs, m.env.txUnreadable = env.txUnreadable) →
      s.deliver C msgs = some s' → s'.Lacking env) ∧
    ∀ (s : RelayState) (m : TxMessage), (s.processTx C m).isSome := by
  refine ⟨?_, ?_, fun s m => s.processTx_isSome m⟩
  · intro s msgs T hlinked hempty henv hset hcount hsize hacc
    obtain ⟨s', hrun⟩ := Option.isSome_iff_exists.mp (s.deliver_isSome (C := C) msgs)
    obtain ⟨hnone, A, hA, hnode⟩ :=
      deliver_resolves hinj hacyclic hlinked hempty henv hset hcount hsize hacc hrun
    refine ⟨s', hrun, hnone, ?_, by rw [hnode]; rfl⟩
    rw [hnode]
    rcases msgs with _ | ⟨m, msgs⟩
    · -- nothing was sent
      have hT : ∀ t, t ∉ T := fun t ht => by simpa using (hset t).mp ht
      have hAnil : A = [] := List.eq_nil_iff_forall_not_mem.mpr fun t ht => hT t ((hA t).mp ht)
      subst hAnil
      exact ⟨by simp [NodeState.plus, poolWith, hT], by simp [NodeState.plus, poolWith, hT]⟩
    · exact (hacc m List.mem_cons_self).poolIs hinj hA
  · intro env s s' msgs hlinked hlacking henv hrun
    exact (RelayState.deliver_lacking hlinked henv hlacking hrun).2

/-! ### Samples

The pool holds a transaction; a second one spends it and a third one the second. -/

/-- The transaction of the pool, the one that spends it, and the one that spends that. -/
def chainTxs : List CTransaction :=
  [relayTx [⟨0, 0⟩] 3000000, relayTx [⟨2, 0⟩] 2000000, relayTx [⟨9, 0⟩] 1000000]

/-- Injective hashes without a cycle: 2, 9 and 94 for the sample. -/
noncomputable def chainCrypto : Crypto :=
  rankedCrypto chainTxs [relayGenesis.block.getBlockHeader]

/-- A node with the first transaction in its pool and no orphans. -/
noncomputable def chainStart : RelayState where
  node := { storedNode chainCrypto [relayGenesis] with
    mempool := CTxMemPool.addUnchecked 2 (relayTx [⟨0, 0⟩] 3000000) ⟨∅, ∅⟩ }
  orphans := ⟨∅, ∅⟩
  walletTxs := []

/-- The message with the second transaction. -/
def secondMessage : TxMessage := ⟨relayEnv, fun _ => 0, relayTx [⟨2, 0⟩] 2000000⟩

/-- The message with the third transaction. -/
def thirdMessage : TxMessage := ⟨relayEnv, fun _ => 0, relayTx [⟨9, 0⟩] 1000000⟩

theorem acceptable_chain :
    Acceptable chainCrypto relayEnv chainStart.node [secondMessage.tx, thirdMessage.tx] := by
  unfold Acceptable
  rw [List.forall_mem_cons, List.forall_mem_singleton]
  constructor
  · decide +kernel
  · decide +kernel

/-- The third transaction comes before the second, and both end up in the pool. -/
theorem deliver_lacking_and_resolves_chain :
    ∃ s, chainStart.deliver chainCrypto [thirdMessage, secondMessage] = some s ∧
      (∀ hash, s.orphans.mapOrphanTransactions.lookup hash = none) ∧
      PoolIs chainCrypto chainStart.node.mempool [secondMessage.tx, thirdMessage.tx]
        s.node.mempool := by
  have hmain := (deliver_lacking_and_resolves (C := chainCrypto)
    (rankedCrypto_hashInjective _ _).hashTx (rankedCrypto_hashAcyclic _ _)).1 chainStart
    [thirdMessage, secondMessage] [secondMessage.tx, thirdMessage.tx] OrphanTxs.linked_empty
    (fun _ => rfl) (by simp [thirdMessage, secondMessage]) (fun t => by simp [eq_comm, or_comm]) (by decide) (by decide)
    (by
      intro m hm
      rcases List.mem_pair.mp hm with rfl | rfl
      · exact acceptable_chain
      · exact acceptable_chain)
  obtain ⟨s, hrun, hnone, hpool, -⟩ := hmain
  exact ⟨s, hrun, hnone, hpool⟩

/-- The node that has stored the third transaction as an orphan. -/
noncomputable def chainWaiting : RelayState :=
  { chainStart with orphans := (chainStart.orphans.addOrphanTx chainCrypto thirdMessage.tx).2 }

/-- The same node after the second transaction entered its pool without a `tx` message, as
`sendrawtransaction` lets it in. -/
noncomputable def chainSent : RelayState :=
  { chainWaiting with
    node := (chainWaiting.node.acceptToMemoryPool chainCrypto relayEnv secondMessage.tx true).2.2 }

/-- The third transaction is stored as an orphan, the second one enters the pool without a `tx`
message: after the next message the orphan is still stored, and it lacks nothing. -/
theorem not_lacking_chainSent :
    chainStart.processTx chainCrypto thirdMessage = some chainWaiting ∧
      (chainWaiting.node.acceptToMemoryPool chainCrypto relayEnv secondMessage.tx true).1 = true ∧
      chainSent.processTx chainCrypto secondMessage = some chainSent ∧
      chainSent.orphans.mapOrphanTransactions.lookup 94 = some thirdMessage.tx ∧
      ¬ chainSent.node.Lacks relayEnv thirdMessage.tx := by
  refine ⟨RelayState.processTx_of_missing (by decide +kernel) (by decide +kernel)
    (by decide +kernel), by decide +kernel, ?_, by decide +kernel, ?_⟩
  · have hrefused : (chainSent.node.acceptToMemoryPool chainCrypto relayEnv secondMessage.tx
        true).1 = false := by decide +kernel
    have hfound : (chainSent.node.acceptToMemoryPool chainCrypto relayEnv secondMessage.tx
        true).2.1 = false := by decide +kernel
    simp only [RelayState.processTx, show secondMessage.env = relayEnv from rfl, hrefused, hfound,
      Bool.false_eq_true, if_false]
  · rintro ⟨txin, hin, hlack⟩
    obtain rfl := List.mem_singleton.mp hin
    exact hlack (by decide +kernel : (CTransaction.fetchPrev (chainSent.node.sources relayEnv) ∅
      false false 9).1 = true)

end MotaCoin
