import MotaCoin.OrphanTxResolve

/-!
# What the `tx` handler tells the wallets

`SyncWithWallets` is to be called for each transaction that a `tx` message brings into the memory
pool. The walk through the orphans calls it with the transaction of the message in place of the
orphan it has just accepted, so the wallets hear of the message once per accepted transaction, and
of a resolved orphan never.

## Main definitions

* `RelayState.SyncsNew`: each new transaction of the pool is told once, and nothing else
* `RelayState.Resolves`: the message lets an orphan into the pool

## Main results

* `processTx_walletTxs`: the handler tells the transaction of the message once per accepted one
* `processTx_syncsNew_iff`: the wallets are told what they should be iff no orphan is resolved
-/

namespace MotaCoin

variable (C : Crypto)

namespace TxWork

variable {C} (env : Env) (tx : CTransaction)

variable (C) in
/-- The stored orphan `hash` would enter the memory pool now. -/
def Takes (w : TxWork) (hash : Uint256) : Prop :=
  ∃ t, w.state.orphans.mapOrphanTransactions.lookup hash = some t ∧
    (w.state.node.acceptToMemoryPool C env t true).1 = true

/-- The wallets have been told of `tx` once per queued transaction. -/
def Told (told : List CTransaction) (w : TxWork) : Prop :=
  w.state.walletTxs = told ++ List.replicate w.vWorkQueue.length tx

theorem not_accepted_empty (s : NodeState) :
    (s.acceptToMemoryPool C env CTransaction.empty true).1 = false := by
  rw [Bool.eq_false_iff, Ne, NodeState.acceptToMemoryPool_fst_iff]
  rintro ⟨hadm, -⟩
  exact absurd hadm.checked (by decide)

theorem Told.tryOrphan {told : List CTransaction} {w : TxWork} (h : w.Told tx told)
    (hash : Uint256) : (w.tryOrphan C env tx hash).Told tx told := by
  unfold Told at h ⊢
  unfold TxWork.tryOrphan
  simp only
  split
  · -- accepted: one more queue entry, one more call
    simp only [h, List.length_append, List.length_singleton, List.replicate_succ', List.append_assoc]
  · split
    · exact h
    · exact h

theorem Told.foldl_tryOrphan {told : List CTransaction} (hashes : List Uint256) {w : TxWork}
    (h : w.Told tx told) : (hashes.foldl (TxWork.tryOrphan C env tx) w).Told tx told := by
  induction hashes generalizing w with
  | nil => exact h
  | cons hash hashes ih => exact ih (h.tryOrphan env tx hash)

theorem Told.workLoop {told : List CTransaction} {fuel i : Nat} {w w' : TxWork}
    (h : w.Told tx told) (hloop : TxWork.workLoop C env tx fuel i w = some w') :
    w'.Told tx told := by
  induction fuel generalizing i w with
  | zero => cases hloop
  | succ fuel ih =>
    rw [TxWork.workLoop] at hloop
    rcases hi : w.vWorkQueue[i]? with _ | hashPrev
    · rw [hi] at hloop
      obtain rfl := Option.some.inj hloop
      exact h
    · rw [hi] at hloop
      refine ih ?_ hloop
      exact Told.foldl_tryOrphan env tx _ h

/-! ## The first round -/

/-- An orphan that is not taken leaves the node and the queue alone. -/
theorem tryOrphan_of_not_takes {w : TxWork} {hash : Uint256} (h : ¬ w.Takes C env hash) :
    (w.tryOrphan C env tx hash).state.node = w.state.node ∧
      (w.tryOrphan C env tx hash).vWorkQueue = w.vWorkQueue ∧
      ∀ hash', (w.tryOrphan C env tx hash).Takes C env hash' ↔ w.Takes C env hash' := by
  obtain ⟨t, hor, horphans, ⟨hok, -⟩ | ⟨-, hnode, hqueue, -⟩⟩ := w.tryOrphan_cases C env tx hash
  · rcases hor with hor | ⟨-, rfl⟩
    · exact absurd ⟨t, hor, hok⟩ h
    · rw [not_accepted_empty] at hok
      cases hok
  · refine ⟨hnode, hqueue, fun hash' => ?_⟩
    unfold Takes
    rw [hnode, horphans]
    rcases hlook : w.state.orphans.mapOrphanTransactions.lookup hash with _ | stored
    · -- `operator[]` leaves an empty transaction, which is never taken
      by_cases hh : hash' = hash
      · subst hh
        simp [OrphanTxs.touchTx, hlook, AList.lookup_insert, not_accepted_empty]
      · simp [OrphanTxs.touchTx, hlook, AList.lookup_insert_ne hh]
    · rw [OrphanTxs.touchTx_of_lookup hlook]

theorem tryOrphan_of_takes {w : TxWork} {hash : Uint256} (h : w.Takes C env hash) :
    w.vWorkQueue.length < (w.tryOrphan C env tx hash).vWorkQueue.length := by
  obtain ⟨t, ht, hok⟩ := h
  obtain ⟨-, ⟨-, -, hqueue, -⟩ | ⟨hrefused, -⟩⟩ := tryOrphan_of_stored C env tx ht
  · rw [hqueue, List.length_append, List.length_singleton]
    exact Nat.lt_succ_self _
  · rw [hok] at hrefused
    cases hrefused

theorem foldl_tryOrphan_of_not_takes (hashes : List Uint256) {w : TxWork}
    (h : ∀ hash ∈ hashes, ¬ w.Takes C env hash) :
    (hashes.foldl (tryOrphan C env tx) w).state.node = w.state.node ∧
      (hashes.foldl (tryOrphan C env tx) w).vWorkQueue = w.vWorkQueue := by
  induction hashes generalizing w with
  | nil => exact ⟨rfl, rfl⟩
  | cons hash hashes ih =>
    rw [List.forall_mem_cons] at h
    obtain ⟨hnode, hqueue, htakes⟩ := tryOrphan_of_not_takes env tx h.1
    obtain ⟨hnode', hqueue'⟩ := ih (w := w.tryOrphan C env tx hash) fun hash' hmem => by
      rw [htakes]
      exact h.2 hash' hmem
    exact ⟨hnode'.trans hnode, hqueue'.trans hqueue⟩

/-- The first orphan that can be taken is tried on an unchanged node, and queued. -/
theorem foldl_tryOrphan_of_takes (hashes : List Uint256) {w : TxWork}
    (h : ∃ hash ∈ hashes, w.Takes C env hash) :
    w.vWorkQueue.length < (hashes.foldl (tryOrphan C env tx) w).vWorkQueue.length := by
  induction hashes generalizing w with
  | nil => simp at h
  | cons hash hashes ih =>
    rw [List.foldl_cons]
    by_cases hfirst : w.Takes C env hash
    · exact (tryOrphan_of_takes env tx hfirst).trans_le
        (foldl_tryOrphan_measure C env tx hashes _).1
    · obtain ⟨-, hqueue, htakes⟩ := tryOrphan_of_not_takes env tx hfirst
      have hrest : ∃ hash' ∈ hashes, (w.tryOrphan C env tx hash).Takes C env hash' := by
        simpa [hfirst, htakes] using h
      have hlt := ih hrest
      rwa [hqueue] at hlt

theorem workLoop_length_le {fuel i : Nat} {w w' : TxWork}
    (hloop : workLoop C env tx fuel i w = some w') :
    w.vWorkQueue.length ≤ w'.vWorkQueue.length := by
  induction fuel generalizing i w with
  | zero => cases hloop
  | succ fuel ih =>
    rw [workLoop] at hloop
    rcases hi : w.vWorkQueue[i]? with _ | hashPrev
    · rw [hi] at hloop
      obtain rfl := Option.some.inj hloop
      exact le_rfl
    · rw [hi] at hloop
      exact (w.workStep_measure C env tx hashPrev).1.trans (ih hloop)

end TxWork

namespace RelayState

/-- The transaction entered the memory pool between the two states. -/
def NewInPool (s s' : RelayState) (tx : CTransaction) : Prop :=
  s.node.mempool.mapTx.lookup (C.hashTx tx) = none ∧
    s'.node.mempool.mapTx.lookup (C.hashTx tx) = some tx

/-- Between the two states the wallets were told exactly once of each transaction that entered the
pool, and of no other. -/
def SyncsNew (s s' : RelayState) : Prop :=
  ∃ calls, s'.walletTxs = s.walletTxs ++ calls ∧
    ∀ tx, (NewInPool C s s' tx → calls.count tx = 1) ∧ (¬ NewInPool C s s' tx → tx ∉ calls)

/-- The message enters the memory pool, and then an orphan that waits for it can. -/
def Resolves (s : RelayState) (m : TxMessage) : Prop :=
  (s.node.acceptToMemoryPool C m.env m.tx true).1 = true ∧
    ∃ hash ∈ s.orphans.waiting (C.hashTx m.tx), ∃ t,
      s.orphans.mapOrphanTransactions.lookup hash = some t ∧
      (NodeState.acceptToMemoryPool C m.env { s.node with
        mempool := s.node.mempool.addUnchecked (C.hashTx m.tx) m.tx } t true).1 = true

variable {C}

/-- The wallets are told of the transaction of the message, once per accepted transaction. -/
theorem processTx_walletTxs {s s' : RelayState} {m : TxMessage}
    (hrun : s.processTx C m = some s') :
    s'.walletTxs = s.walletTxs ++ List.replicate (s.acceptedBy C m).length m.tx := by
  unfold processTx at hrun
  unfold acceptedBy
  simp only at hrun ⊢
  split at hrun
  · rename_i hok
    obtain ⟨w, hw, rfl⟩ := Option.map_eq_some_iff.mp hrun
    rw [if_pos hok, hw]
    have htold : TxWork.Told m.tx s.walletTxs {
        state := ⟨(s.node.acceptToMemoryPool C m.env m.tx true).2.2, s.orphans,
          s.walletTxs ++ [m.tx]⟩
        vWorkQueue := [C.hashTx m.tx]
        vEraseQueue := [C.hashTx m.tx] } := rfl
    exact htold.workLoop m.env m.tx hw
  · rename_i hok
    rw [if_neg hok]
    split at hrun
    · obtain rfl := Option.some.inj hrun
      exact (List.append_nil _).symm
    · obtain rfl := Option.some.inj hrun
      exact (List.append_nil _).symm

variable (C) in
/-- The variables of the handler once its transaction is in the pool and the set of the orphans that
wait for it has been read. -/
def walkStart (s : RelayState) (m : TxMessage) : TxWork where
  state := ⟨{ s.node with mempool := s.node.mempool.addUnchecked (C.hashTx m.tx) m.tx },
    s.orphans.touchPrev (C.hashTx m.tx), s.walletTxs ++ [m.tx]⟩
  vWorkQueue := [C.hashTx m.tx]
  vEraseQueue := [C.hashTx m.tx]

/-- The first round of the walk tries the orphans that wait for the message. -/
theorem walk_eq {s : RelayState} {m : TxMessage}
    (hok : (s.node.acceptToMemoryPool C m.env m.tx true).1 = true) :
    s.walk C m (s.node.acceptToMemoryPool C m.env m.tx true).2.2 =
      TxWork.workLoop C m.env m.tx (s.orphans.size + 1) 1
        ((s.orphans.waiting (C.hashTx m.tx)).foldl (TxWork.tryOrphan C m.env m.tx)
          (s.walkStart C m)) := by
  rw [NodeState.acceptToMemoryPool_state C m.env s.node m.tx true, if_pos hok, walk,
    TxWork.workLoop]
  simp only [List.getElem?_cons_zero, TxWork.workStep, OrphanTxs.waiting_touchPrev]
  rfl

theorem resolves_iff {s : RelayState} {m : TxMessage} :
    s.Resolves C m ↔ (s.node.acceptToMemoryPool C m.env m.tx true).1 = true ∧
      ∃ hash ∈ s.orphans.waiting (C.hashTx m.tx), (s.walkStart C m).Takes C m.env hash :=
  Iff.rfl

/-- A message that resolves an orphan accepts two transactions at least. -/
theorem Resolves.two_le {s : RelayState} {m : TxMessage} (h : s.Resolves C m) :
    2 ≤ (s.acceptedBy C m).length := by
  obtain ⟨hok, htakes⟩ := resolves_iff.mp h
  have hsome : (s.processTx C m).isSome := s.processTx_isSome m
  simp only [processTx, if_pos hok, Option.isSome_map] at hsome
  obtain ⟨w, hw⟩ := Option.isSome_iff_exists.mp hsome
  simp only [acceptedBy, if_pos hok, hw, Option.map_some, Option.getD_some]
  rw [walk_eq hok] at hw
  have hfirst : 1 < _ := TxWork.foldl_tryOrphan_of_takes m.env m.tx _ htakes
  exact hfirst.trans_le (TxWork.workLoop_length_le m.env m.tx hw)

/-- Without a resolved orphan the pool gains the transaction of the message, if that is accepted, and
nothing else. -/
theorem processTx_of_not_resolves {s s' : RelayState} {m : TxMessage} (h : ¬ s.Resolves C m)
    (hok : (s.node.acceptToMemoryPool C m.env m.tx true).1 = true)
    (hrun : s.processTx C m = some s') :
    s.acceptedBy C m = [C.hashTx m.tx] ∧ s'.node = { s.node with
      mempool := s.node.mempool.addUnchecked (C.hashTx m.tx) m.tx } := by
  simp only [processTx, if_pos hok] at hrun
  obtain ⟨w, hw, rfl⟩ := Option.map_eq_some_iff.mp hrun
  simp only [acceptedBy, if_pos hok, hw, Option.map_some, Option.getD_some]
  -- the first round takes no orphan, so it queues nothing and the loop ends
  have hno : ∀ hash ∈ s.orphans.waiting (C.hashTx m.tx),
      ¬ (s.walkStart C m).Takes C m.env hash :=
    fun hash hmem htakes => h (resolves_iff.mpr ⟨hok, hash, hmem, htakes⟩)
  obtain ⟨hnode, hqueue⟩ := TxWork.foldl_tryOrphan_of_not_takes m.env m.tx _ hno
  have hend : (s.walkStart C m).vWorkQueue[1]? = none := rfl
  rw [walk_eq hok, TxWork.workLoop, hqueue, hend] at hw
  obtain rfl := Option.some.inj hw
  exact ⟨hqueue, hnode⟩

theorem newInPool_addUnchecked_iff {s s' : RelayState} {t tx : CTransaction}
    (hfree : s.node.mempool.mapTx.lookup (C.hashTx t) = none)
    (hnode : s'.node = { s.node with mempool := s.node.mempool.addUnchecked (C.hashTx t) t }) :
    NewInPool C s s' tx ↔ tx = t := by
  unfold NewInPool
  rw [hnode]
  simp only [CTxMemPool.addUnchecked]
  by_cases hh : C.hashTx tx = C.hashTx t
  · rw [hh, AList.lookup_insert, hfree, Option.some.injEq, eq_comm (a := t)]
    exact and_iff_right rfl
  · rw [AList.lookup_insert_ne hh]
    constructor
    · rintro ⟨hnone, hsome⟩
      rw [hnone] at hsome
      cases hsome
    · rintro rfl
      exact absurd rfl hh

theorem not_newInPool_of_same {s s' : RelayState} (hnode : s'.node = s.node) (tx : CTransaction) :
    ¬ NewInPool C s s' tx := by
  rintro ⟨hnone, hsome⟩
  rw [hnode, hnone] at hsome
  cases hsome

theorem processTx_node_of_refused {s s' : RelayState} {m : TxMessage}
    (hok : ¬ (s.node.acceptToMemoryPool C m.env m.tx true).1 = true)
    (hrun : s.processTx C m = some s') : s'.node = s.node := by
  unfold processTx at hrun
  simp only [if_neg hok] at hrun
  split at hrun
  · obtain rfl := Option.some.inj hrun
    rfl
  · obtain rfl := Option.some.inj hrun
    rfl

/-- **The handler of a `tx` message ends, and it tells the wallets exactly once of each transaction
it brings into the pool, and of no other, iff the message resolves no orphan.** -/
theorem processTx_syncsNew_iff (s : RelayState) (m : TxMessage) :
    ∃ s', s.processTx C m = some s' ∧ (SyncsNew C s s' ↔ ¬ s.Resolves C m) := by
  obtain ⟨s', hrun⟩ := Option.isSome_iff_exists.mp (s.processTx_isSome (C := C) m)
  have hcalls := processTx_walletTxs hrun
  refine ⟨s', hrun, ?_, fun h => ⟨_, hcalls, fun tx => ?_⟩⟩
  · rintro ⟨calls, hcalls', hcount⟩ hres
    -- the message was told twice, but a transaction is told once or not at all
    obtain rfl : calls = List.replicate (s.acceptedBy C m).length m.tx :=
      List.append_cancel_left (hcalls'.symm.trans hcalls)
    have htwo := hres.two_le
    by_cases hnew : NewInPool C s s' m.tx
    · have hone := (hcount m.tx).1 hnew
      rw [List.count_replicate_self] at hone
      omega
    · refine (hcount m.tx).2 hnew (List.mem_replicate.mpr ⟨?_, rfl⟩)
      omega
  · by_cases hok : (s.node.acceptToMemoryPool C m.env m.tx true).1 = true
    · obtain ⟨haccepted, hnode⟩ := processTx_of_not_resolves h hok hrun
      obtain ⟨hadm, -⟩ := (NodeState.acceptToMemoryPool_fst_iff C m.env).mp hok
      rw [newInPool_addUnchecked_iff hadm.notInPool hnode, haccepted]
      constructor
      · rintro rfl
        exact List.count_singleton_self
      · intro hne
        simpa using hne
    · have hnone : s.acceptedBy C m = [] := by
        unfold acceptedBy
        exact if_neg hok
      have hsame := not_newInPool_of_same (C := C) (processTx_node_of_refused hok hrun) tx
      refine ⟨fun hnew => absurd hnew hsame, fun _ => ?_⟩
      simp [hnone]

/-- The third transaction of the sample comes first and is stored. When the second one follows, both
are in the pool, but the wallets are told of the second twice and of the third never. -/
theorem not_syncsNew_chain :
    chainStart.processTx chainCrypto thirdMessage = some chainWaiting ∧
      ∃ s, chainWaiting.processTx chainCrypto secondMessage = some s ∧
        s.walletTxs = [secondMessage.tx, secondMessage.tx] ∧
        NewInPool chainCrypto chainWaiting s thirdMessage.tx ∧
        ¬ SyncsNew chainCrypto chainWaiting s := by
  refine ⟨RelayState.processTx_of_missing (by decide +kernel) (by decide +kernel)
    (by decide +kernel), ?_⟩
  obtain ⟨s, hs⟩ := Option.isSome_iff_exists.mp
    (chainWaiting.processTx_isSome (C := chainCrypto) secondMessage)
  have hend : (chainWaiting.processTx chainCrypto secondMessage).map (fun s => (s.walletTxs,
      s.node.mempool.mapTx.lookup (chainCrypto.hashTx thirdMessage.tx))) =
      some ([secondMessage.tx, secondMessage.tx], some thirdMessage.tx) := by decide +kernel
  rw [hs, Option.map_some, Option.some.injEq, Prod.mk.injEq] at hend
  have hnew : NewInPool chainCrypto chainWaiting s thirdMessage.tx :=
    ⟨by decide +kernel, hend.2⟩
  refine ⟨s, hs, hend.1, hnew, ?_⟩
  rintro ⟨calls, hcalls, hcount⟩
  have hone := (hcount thirdMessage.tx).1 hnew
  obtain rfl : [secondMessage.tx, secondMessage.tx] = calls := hend.1.symm.trans hcalls
  exact absurd hone (by decide)

end RelayState

end MotaCoin
