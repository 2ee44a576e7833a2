import MotaCoin.Chain
import MotaCoin.Lib.Pending
import MotaCoin.PoolIndex

/-!
# Bringing the memory pool up to date

When the best chain changes, `Reorganize` puts transactions of the disconnected blocks back into the
pool and deletes those of the connected blocks with their conflicts, and `SetBestChainInner` deletes
those of its block. This file says exactly which transactions each of the three loops leaves.

## Main definitions

* `txShape`: transactions as entries that spend outputs
* `CTxMemPool.txs`: the transactions of a pool
* `CTxMemPool.Clean`: an indexed pool of checked transactions
* `Resurrectable`: the tests of `accept` that look at nothing but the transaction

## Main results

* `Clean.txs_foldl_remove`: the loop of `SetBestChainInner`
* `Clean.resurrect_spec`: the loop over `vResurrect`
* `Clean.deleteRedundant_spec`: the loop over `vDelete`
-/

namespace MotaCoin

open Pending (Shape)

variable (C : Crypto)

/-- Transactions as entries: a coinbase spends nothing. -/
def txShape : Shape CTransaction Uint256 COutPoint where
  id := C.hashTx
  outs tx := tx.vout.length
  spends := CTransaction.spends
  source := COutPoint.hash
  position := COutPoint.n

/-- The tests of `accept` that look at nothing but the transaction. -/
structure Resurrectable (tx : CTransaction) : Prop where
  checked : tx.checkTransaction = true
  notCoinBase : tx.isCoinBase = false
  notCoinStake : tx.isCoinStake = false
  lockTime : tx.nLockTime ≤ 2147483647
  standard : C.isStandard tx = true

theorem CTransaction.spends_eq {tx : CTransaction} (h : tx.isCoinBase = false) :
    tx.spends = tx.vin.map CTxIn.prevout := by
  simp [CTransaction.spends, h]

theorem CTransaction.mem_spends {tx : CTransaction} (h : tx.isCoinBase = false) {o : COutPoint} :
    o ∈ tx.spends ↔ ∃ txin ∈ tx.vin, txin.prevout = o := by
  rw [CTransaction.spends_eq h, List.mem_map]

theorem CTransaction.not_isNull_of_checkTransaction {tx : CTransaction}
    (h : tx.checkTransaction = true) (hcb : tx.isCoinBase = false) {txin : CTxIn}
    (hin : txin ∈ tx.vin) : txin.prevout.isNull = false := by
  unfold CTransaction.checkTransaction at h
  simp only [hcb, Bool.and_eq_true, Bool.false_eq_true, if_false, List.all_eq_true,
    Bool.not_eq_true'] at h
  exact h.2 txin hin

theorem CTransaction.isNull_of_isCoinBase {tx : CTransaction} (h : tx.isCoinBase = true)
    {txin : CTxIn} (hin : txin ∈ tx.vin) : txin.prevout.isNull = true := by
  unfold CTransaction.isCoinBase at h
  split at h
  · next txin' hvin =>
    rw [hvin, List.mem_singleton] at hin
    rw [hin]
    exact (Bool.and_eq_true_iff.mp h).1
  · cases h

namespace CTxMemPool

/-- The transactions of a pool. -/
def txs (pool : CTxMemPool) : Set CTransaction := {tx | pool.mapTx.lookup (C.hashTx tx) = some tx}

/-- **An indexed pool of checked transactions**, none of them a coinbase. -/
structure Clean (pool : CTxMemPool) : Prop where
  indexed : pool.Indexed C
  checked : ∀ tx ∈ pool.txs C, tx.checkTransaction = true
  notCoinBase : ∀ tx ∈ pool.txs C, tx.isCoinBase = false

variable {C} {pool p : CTxMemPool} {tx tx' : CTransaction}

theorem Indexed.mem_txs (h : pool.Indexed C) {hash : Uint256}
    (hlook : pool.mapTx.lookup hash = some tx) : tx ∈ pool.txs C := by
  change pool.mapTx.lookup (C.hashTx tx) = some tx
  rw [h.named hash tx hlook]
  exact hlook

theorem Sub.txs_subset (h : p.Sub pool) : p.txs C ⊆ pool.txs C := fun tx htx =>
  h (C.hashTx tx) tx htx

/-- A transaction that is gone from a part of the pool has no other under its hash there. -/
theorem Sub.lookup_eq_none (h : p.Sub pool) (htx : tx ∈ pool.txs C) (hnot : tx ∉ p.txs C) :
    p.mapTx.lookup (C.hashTx tx) = none := by
  rcases hlook : p.mapTx.lookup (C.hashTx tx) with _ | t
  · rfl
  · have heq : t = tx := Option.some.inj ((h _ _ hlook).symm.trans htx)
    exact absurd (heq ▸ hlook) hnot

theorem Clean.of_sub (h : pool.Clean C) (hsub : p.Sub pool) (hp : p.Indexed C) : p.Clean C :=
  ⟨hp, fun tx htx => h.checked tx (hsub.txs_subset htx),
    fun tx htx => h.notCoinBase tx (hsub.txs_subset htx)⟩

/-- Dependence between the transactions of a pool. -/
theorem Clean.depends_iff (h : pool.Clean C) (htx : tx ∈ pool.txs C) (htx' : tx' ∈ pool.txs C) :
    pool.Depends (C.hashTx tx) (C.hashTx tx') ↔ (txShape C).Depends (pool.txs C) tx tx' := by
  constructor
  · rintro ⟨t, t', ht, ht', n, hn, txin, hin, hprev⟩
    obtain rfl : t = tx := Option.some.inj (ht.symm.trans htx)
    obtain rfl : t' = tx' := Option.some.inj (ht'.symm.trans htx')
    refine ⟨htx, htx', txin.prevout, ?_, ?_⟩
    · exact (CTransaction.mem_spends (h.notCoinBase _ htx')).mpr ⟨txin, hin, rfl⟩
    · rw [hprev]
      exact ⟨rfl, hn⟩
  · rintro ⟨-, -, o, ho, hhash, hn⟩
    obtain ⟨txin, hin, rfl⟩ := (CTransaction.mem_spends (h.notCoinBase _ htx')).mp ho
    refine ⟨tx, tx', htx, htx', txin.prevout.n, hn, txin, hin, ?_⟩
    have hhash : C.hashTx tx = txin.prevout.hash := hhash
    rw [hhash]

/-- A pool transaction spends an outpoint of an input of another transaction, be it a coinbase, iff
both spend it. -/
theorem Clean.share_iff (h : pool.Clean C) (htx : tx ∈ pool.txs C) (c : CTransaction) :
    (txShape C).Share tx c ↔
      ∃ txin ∈ c.vin, ∃ txin' ∈ tx.vin, txin'.prevout = txin.prevout := by
  constructor
  · rintro ⟨o, ho, hoc⟩
    obtain ⟨txin', hin', rfl⟩ := (CTransaction.mem_spends (h.notCoinBase _ htx)).mp ho
    cases hcb : c.isCoinBase with
    | true => simp [txShape, CTransaction.spends, hcb] at hoc
    | false =>
      obtain ⟨txin, hin, heq⟩ := (CTransaction.mem_spends hcb).mp hoc
      exact ⟨txin, hin, txin', hin', heq.symm⟩
  · rintro ⟨txin, hin, txin', hin', heq⟩
    have hnull := CTransaction.not_isNull_of_checkTransaction (h.checked _ htx)
      (h.notCoinBase _ htx) hin'
    have hcb : c.isCoinBase = false := by
      by_contra hcb
      rw [heq, CTransaction.isNull_of_isCoinBase (by simpa using hcb) hin] at hnull
      cases hnull
    exact ⟨txin'.prevout, (CTransaction.mem_spends (h.notCoinBase _ htx)).mpr ⟨txin', hin', rfl⟩,
      (CTransaction.mem_spends hcb).mpr ⟨txin, hin, heq.symm⟩⟩

/-! ## Deleting the transactions of a block -/

section Remove

variable (hinj : Function.Injective C.hashTx)
include hinj

/-- `remove`, without what depends on the transaction. -/
theorem Clean.remove_spec (h : pool.Clean C) (c : CTransaction) :
    (pool.remove C c false).Clean C ∧ (pool.remove C c false).Sub pool ∧
      (pool.remove C c false).txs C = {tx | tx ∈ pool.txs C ∧ tx ≠ c} := by
  rcases hlook : pool.mapTx.lookup (C.hashTx c) with _ | tx
  · have hsame : pool.remove C c false = pool := by
      simp [remove, removeFuel, hlook]
    rw [hsame]
    refine ⟨h, fun _ _ h => h, ?_⟩
    ext tx
    constructor
    · intro htx
      refine ⟨htx, ?_⟩
      rintro rfl
      cases hlook.symm.trans htx
    · exact And.left
  · obtain rfl : tx = c := hinj (h.indexed.named _ tx hlook)
    have herase : pool.remove C tx false = pool.eraseTx (C.hashTx tx) tx := by
      simp [remove, removeFuel, hlook]
    have hsub : (pool.eraseTx (C.hashTx tx) tx).Sub pool := by
      intro hash tx' htx'
      by_cases hh : hash = C.hashTx tx
      · rw [hh] at htx'
        cases (AList.lookup_erase _ _).symm.trans htx'
      · exact (AList.lookup_erase_ne hh).symm.trans htx'
    rw [herase]
    refine ⟨h.of_sub hsub (h.indexed.eraseTx hlook), hsub, ?_⟩
    ext tx'
    constructor
    · intro htx'
      refine ⟨hsub.txs_subset htx', ?_⟩
      rintro rfl
      cases (AList.lookup_erase _ _).symm.trans htx'
    · rintro ⟨htx', hne⟩
      exact (AList.lookup_erase_ne fun hh => hne (hinj hh)).trans htx'

/-- **The loop of `SetBestChainInner`** takes out the transactions of the block and no others. -/
theorem Clean.foldl_remove (vtx : List CTransaction) (h : pool.Clean C) :
    (vtx.foldl (fun p tx => p.remove C tx false) pool).Clean C ∧
      (vtx.foldl (fun p tx => p.remove C tx false) pool).txs C =
        {tx | tx ∈ pool.txs C ∧ tx ∉ vtx} := by
  induction vtx generalizing pool with
  | nil => exact ⟨h, by simp⟩
  | cons c vtx ih =>
    obtain ⟨hclean, -, htxs⟩ := h.remove_spec hinj c
    obtain ⟨hclean', htxs'⟩ := ih hclean
    refine ⟨hclean', ?_⟩
    rw [List.foldl_cons, htxs', htxs]
    ext tx
    simp only [Set.mem_ofPred_eq, List.mem_cons, not_or]
    tauto

end Remove

/-! ## Putting transactions back -/

section Resurrect

variable (hinj : Function.Injective C.hashTx)
include hinj

theorem txs_addUnchecked (pool : CTxMemPool) (tx : CTransaction) :
    (pool.addUnchecked (C.hashTx tx) tx).txs C = insert tx (pool.txs C) := by
  ext t
  simp only [txs, addUnchecked, Set.mem_ofPred_eq, Set.mem_insert_iff]
  by_cases ht : t = tx
  · subst ht
    simp [AList.lookup_insert]
  · rw [AList.lookup_insert_ne fun hh => ht (hinj hh)]
    simp [ht]

/-- What `accept` may add to a pool. -/
theorem Clean.accept (env : Env) {s : NodeState} (h : s.mempool.Clean C) (tx : CTransaction)
    (fCheckInputs : Bool) :
    (s.acceptToMemoryPool C env tx fCheckInputs).2.2.mempool.Clean C ∧
      ∀ t ∈ (s.acceptToMemoryPool C env tx fCheckInputs).2.2.mempool.txs C,
        t ∈ s.mempool.txs C ∨ t = tx ∧ s.Admissible C tx fCheckInputs := by
  have hindexed : (s.acceptToMemoryPool C env tx fCheckInputs).2.2.mempool.Indexed C :=
    h.indexed.accept tx fCheckInputs
  rw [NodeState.acceptToMemoryPool_state] at hindexed ⊢
  split at hindexed
  · next hok =>
    rw [if_pos hok]
    obtain ⟨hadm, -⟩ := (NodeState.acceptToMemoryPool_fst_iff C env).mp hok
    have hmem : ∀ t ∈ (s.mempool.addUnchecked (C.hashTx tx) tx).txs C,
        t ∈ s.mempool.txs C ∨ t = tx := by
      rw [txs_addUnchecked hinj]
      exact fun t ht => (Set.mem_insert_iff.mp ht).symm
    refine ⟨⟨hindexed, fun t ht => ?_, fun t ht => ?_⟩,
      fun t ht => (hmem t ht).imp_right fun heq => ⟨heq, hadm⟩⟩
    · rcases hmem t ht with ht | rfl
      · exact h.checked t ht
      · exact hadm.checked
    · rcases hmem t ht with ht | rfl
      · exact h.notCoinBase t ht
      · exact hadm.notCoinBase
  · next hok =>
    rw [if_neg hok]
    exact ⟨h, fun t ht => .inl ht⟩

theorem Clean.resurrect (env : Env) (vResurrect : List CTransaction) {s : NodeState}
    (h : s.mempool.Clean C) :
    (s.resurrect C env vResurrect).mempool.Clean C ∧
      ∀ t ∈ (s.resurrect C env vResurrect).mempool.txs C,
        t ∈ s.mempool.txs C ∨ t ∈ vResurrect := by
  induction vResurrect generalizing s with
  | nil => exact ⟨h, fun t ht => .inl ht⟩
  | cons tx vResurrect ih =>
    obtain ⟨hclean, hmem⟩ := h.accept hinj env tx false
    obtain ⟨hclean', hmem'⟩ := ih hclean
    refine ⟨hclean', fun t ht => ?_⟩
    rcases hmem' t ht with ht | ht
    · exact (hmem t ht).imp_right fun heq => List.mem_cons.mpr (.inl heq.1)
    · exact .inr (List.mem_cons_of_mem tx ht)

/-- `accept` of a transaction that is not in the pool and in conflict with nothing there, the inputs
not checked. -/
theorem Clean.accept_spec (env : Env) {s : NodeState} (h : s.mempool.Clean C)
    (hnot : tx ∉ s.mempool.txs C) (hfree : ∀ t ∈ s.mempool.txs C, ¬ (txShape C).Share t tx) :
    (s.acceptToMemoryPool C env tx false).2.2.mempool.Clean C ∧
      (s.acceptToMemoryPool C env tx false).2.2.mempool.txs C =
        {t | t ∈ s.mempool.txs C ∨ t = tx ∧ Resurrectable C tx} := by
  have hadm : s.Admissible C tx false ↔ Resurrectable C tx := by
    constructor
    · intro ha
      exact ⟨ha.checked, ha.notCoinBase, ha.notCoinStake, ha.lockTime, ha.standard⟩
    · intro hr
      refine ⟨hr.checked, hr.notCoinBase, hr.notCoinStake, hr.lockTime, hr.standard, ?_, nofun, ?_⟩
      · rcases hlook : s.mempool.mapTx.lookup (C.hashTx tx) with _ | t
        · rfl
        · obtain rfl : t = tx := hinj (h.indexed.named _ t hlook)
          exact absurd hlook hnot
      · intro txin hin
        rcases hnext : s.mempool.mapNextTx.lookup txin.prevout with _ | ⟨hash, i⟩
        · rfl
        · -- the transaction that the index names would be in conflict
          obtain ⟨t, ht, hi⟩ := (h.indexed.next _ _ _).mp hnext
          obtain ⟨txin', hin', heq⟩ := exists_mem_of_prevoutAt hi
          have hmem := h.indexed.mem_txs ht
          exact absurd ((h.share_iff hmem tx).mpr ⟨txin, hin, txin', hin', heq⟩) (hfree t hmem)
  have hiff : (s.acceptToMemoryPool C env tx false).1 = true ↔ Resurrectable C tx := by
    rw [NodeState.acceptToMemoryPool_fst_iff, hadm]
    simp
  refine ⟨(h.accept hinj env tx false).1, ?_⟩
  rw [NodeState.acceptToMemoryPool_state]
  ext t
  by_cases hr : Resurrectable C tx
  · rw [if_pos (hiff.mpr hr), txs_addUnchecked hinj]
    simp only [Set.mem_insert_iff, Set.mem_ofPred_eq, hr, and_true]
    exact or_comm
  · rw [if_neg (hiff.not.mpr hr)]
    simp [hr]

/-- **The loop over `vResurrect`** puts back what passes the tests, of transactions that are in
conflict neither with the pool nor with each other. -/
theorem Clean.resurrect_spec (env : Env) (vResurrect : List CTransaction) {s : NodeState}
    (h : s.mempool.Clean C) (hnodup : vResurrect.Nodup)
    (hnot : ∀ tx ∈ vResurrect, tx ∉ s.mempool.txs C)
    (hfree : ∀ tx ∈ vResurrect, ∀ t ∈ s.mempool.txs C, ¬ (txShape C).Share t tx)
    (hapart : ∀ tx ∈ vResurrect, ∀ t ∈ vResurrect, t ≠ tx → ¬ (txShape C).Share t tx) :
    (s.resurrect C env vResurrect).mempool.Clean C ∧
      (s.resurrect C env vResurrect).mempool.txs C =
        s.mempool.txs C ∪ {tx | tx ∈ vResurrect ∧ Resurrectable C tx} := by
  induction vResurrect generalizing s with
  | nil => exact ⟨h, by simp [NodeState.resurrect]⟩
  | cons tx vResurrect ih =>
    obtain ⟨hclean, htxs⟩ := h.accept_spec hinj env (hnot tx List.mem_cons_self)
      (hfree tx List.mem_cons_self)
    rw [List.nodup_cons] at hnodup
    have hin : ∀ t, t ∈ vResurrect → t ∈ tx :: vResurrect := fun t => List.mem_cons_of_mem tx
    have hnot' : ∀ t ∈ vResurrect,
        t ∉ (s.acceptToMemoryPool C env tx false).2.2.mempool.txs C := by
      rw [htxs]
      rintro t ht (hmem | ⟨rfl, -⟩)
      · exact hnot t (hin t ht) hmem
      · exact hnodup.1 ht
    have hfree' : ∀ t ∈ vResurrect,
        ∀ t' ∈ (s.acceptToMemoryPool C env tx false).2.2.mempool.txs C,
          ¬ (txShape C).Share t' t := by
      rw [htxs]
      rintro t ht t' (hmem | ⟨rfl, -⟩)
      · exact hfree t (hin t ht) t' hmem
      · exact hapart t (hin t ht) t' List.mem_cons_self fun heq => hnodup.1 (heq ▸ ht)
    obtain ⟨hclean', htxs'⟩ := ih hclean hnodup.2 hnot' hfree'
      fun t ht t' ht' => hapart t (hin t ht) t' (hin t' ht')
    refine ⟨hclean', ?_⟩
    rw [NodeState.resurrect, List.foldl_cons, ← NodeState.resurrect, htxs', htxs]
    ext t
    simp only [Set.mem_union, Set.mem_ofPred_eq, List.mem_cons]
    constructor
    · rintro ((ht | ⟨rfl, hr⟩) | ⟨ht, hr⟩)
      · exact .inl ht
      · exact .inr ⟨.inl rfl, hr⟩
      · exact .inr ⟨.inr ht, hr⟩
    · rintro (ht | ⟨rfl | ht, hr⟩)
      · exact .inl (.inl ht)
      · exact .inl (.inr ⟨rfl, hr⟩)
      · exact .inr ⟨ht, hr⟩

end Resurrect

/-! ## Deleting with the conflicts -/

section Delete

variable (C) in
/-- What the loop over `vDelete` has done to `pool` after the transactions `done` of `N`. -/
structure Cleared (pool p : CTxMemPool) (N : Set CTransaction) (done : List CTransaction) :
    Prop where
  clean : p.Clean C
  sub : p.Sub pool
  only : ∀ tx ∈ pool.txs C, tx ∉ p.txs C → tx ∈ N ∨ (txShape C).Conflicted (pool.txs C) N tx
  closed : ∀ tx tx', (txShape C).Depends (pool.txs C) tx tx' → tx ∉ N → tx ∉ p.txs C →
    tx' ∉ p.txs C
  gone : ∀ c ∈ done, c ∉ p.txs C
  free : ∀ c ∈ done, ∀ tx ∈ p.txs C, ¬ (txShape C).Share tx c

variable {N F : Set CTransaction} {done : List CTransaction}

/-- A chain of dependent transactions of a part of the pool. -/
theorem Clean.depends_of_path (hp : p.Clean C) (hsub : p.Sub pool) (hpool : pool.Clean C)
    {hash : Uint256} {z tx : CTransaction} (hz : p.mapTx.lookup hash = some z)
    (hpath : Relation.ReflTransGen p.Depends hash (C.hashTx tx)) (htx : tx ∈ p.txs C) :
    Relation.ReflTransGen ((txShape C).Depends (pool.txs C)) z tx := by
  have hall : ∀ {h}, Relation.ReflTransGen p.Depends hash h → ∀ t, p.mapTx.lookup h = some t →
      Relation.ReflTransGen ((txShape C).Depends (pool.txs C)) z t := by
    intro h hpath
    induction hpath with
    | refl =>
      intro t ht
      obtain rfl := Option.some.inj (hz.symm.trans ht)
      exact .refl
    | tail _ hdep ih =>
      intro t ht
      obtain ⟨u, -, hu, -⟩ := id hdep
      have hmu := hp.indexed.mem_txs hu
      have hmt := hp.indexed.mem_txs ht
      refine (ih u hu).tail ((hpool.depends_iff (hsub.txs_subset hmu) (hsub.txs_subset hmt)).mp ?_)
      rw [hp.indexed.named _ u hu, hp.indexed.named _ t ht]
      exact hdep.of_sub hsub
  exact hall hpath tx htx

variable (hinj : Function.Injective C.hashTx) (hacyclic : HashAcyclic C)
include hinj hacyclic

/-- One round of the loop over `vDelete`, whatever the ledger. -/
theorem Clean.delete_step (h : p.Clean C) (c : CTransaction) :
    ((p.remove C c false).removeConflicts C c).Clean C ∧
      ((p.remove C c false).removeConflicts C c).Sub p ∧
      c ∉ ((p.remove C c false).removeConflicts C c).txs C := by
  obtain ⟨hclean₁, hsub₁, htxs₁⟩ := h.remove_spec hinj c
  obtain ⟨hrem, -⟩ := hclean₁.indexed.removeConflicts_spec hacyclic c
  refine ⟨hclean₁.of_sub hrem.sub hrem.indexed,
    fun hash tx htx => hsub₁ hash tx (hrem.sub hash tx htx), fun hmem => ?_⟩
  have hmem₁ := hrem.sub.txs_subset hmem
  rw [htxs₁] at hmem₁
  exact hmem₁.2 rfl

/-- The loop over `vDelete` only takes out, and takes out its transactions. -/
theorem Clean.deleteRedundant {s : NodeState} (vDelete : List CTransaction)
    (hpool : s.mempool.Clean C) :
    (s.deleteRedundant C vDelete).mempool.Clean C ∧
      ∀ t ∈ (s.deleteRedundant C vDelete).mempool.txs C, t ∈ s.mempool.txs C ∧ t ∉ vDelete := by
  change (CTxMemPool.Clean C (vDelete.foldl _ s.mempool)) ∧
    ∀ t ∈ CTxMemPool.txs C (vDelete.foldl _ s.mempool), _
  induction vDelete using List.reverseRecOn with
  | nil => exact ⟨hpool, fun t ht => ⟨ht, List.not_mem_nil⟩⟩
  | append_singleton vDelete c ih =>
    rw [List.foldl_append, List.foldl_cons, List.foldl_nil]
    obtain ⟨hclean, hmem⟩ := ih
    obtain ⟨hclean', hsub, hgone⟩ := hclean.delete_step hinj hacyclic c
    refine ⟨hclean', fun t ht => ?_⟩
    obtain ⟨hmem, hnot⟩ := hmem t (hsub.txs_subset ht)
    refine ⟨hmem, fun hin => ?_⟩
    rcases List.mem_append.mp hin with hin | hin
    · exact hnot hin
    · exact hgone (List.mem_singleton.mp hin ▸ ht)

/-- One round of the loop over `vDelete`. -/
theorem Cleared.step (hpool : pool.Clean C) (hsound : (txShape C).Sound (F ∪ N))
    (h : Cleared C pool p N done) {c : CTransaction} (hc : c ∈ N) :
    Cleared C pool ((p.remove C c false).removeConflicts C c) N (done ++ [c]) := by
  obtain ⟨hclean₁, hsub₁, htxs₁⟩ := h.clean.remove_spec hinj c
  obtain ⟨hrem, hfree⟩ := hclean₁.indexed.removeConflicts_spec hacyclic c
  have hmem₁ : ∀ tx, tx ∈ (p.remove C c false).txs C ↔ tx ∈ p.txs C ∧ tx ≠ c := fun tx => by
    rw [htxs₁]
    rfl
  have hsub₂ : (p.remove C c false).Sub pool := fun hash tx htx => h.sub hash tx (hsub₁ hash tx htx)
  have hsub : ((p.remove C c false).removeConflicts C c).Sub pool := fun hash tx htx =>
    hsub₂ hash tx (hrem.sub hash tx htx)
  have hleft : ∀ tx ∈ ((p.remove C c false).removeConflicts C c).txs C, tx ∈ p.txs C ∧ tx ≠ c :=
    fun tx htx => (hmem₁ tx).mp (hrem.sub.txs_subset htx)
  refine ⟨hpool.of_sub hsub hrem.indexed, hsub, ?_, ?_, ?_, ?_⟩
  · intro tx htx hnot
    by_cases hp : tx ∈ p.txs C
    · by_cases htxc : tx = c
      · exact .inl (htxc ▸ hc)
      have hp₁ := (hmem₁ tx).mpr ⟨hp, htxc⟩
      obtain ⟨hash, z, hne, hz, hshare, hpath⟩ :=
        hrem.only _ tx hp₁ (hrem.sub.lookup_eq_none hp₁ hnot)
      have hz₁ := hclean₁.indexed.mem_txs hz
      have hshare := (hclean₁.share_iff hz₁ c).mpr hshare
      refine .inr ⟨z, hsub₂.txs_subset hz₁, fun hzN => hne ?_, ⟨c, hc, hshare⟩,
        hclean₁.depends_of_path hsub₂ hpool hz hpath hp₁⟩
      -- two transactions of the ledger do not spend one output
      obtain ⟨o, ho, hoc⟩ := hshare
      exact hsound.once z (.inr hzN) c (.inr hc) o ho hoc
    · exact h.only tx htx hp
  · intro tx tx' hdep htxN hnot hmem'
    obtain ⟨hp', hne'⟩ := hleft tx' hmem'
    by_cases hp : tx ∈ p.txs C
    · have hp₁ := (hmem₁ tx).mpr ⟨hp, fun heq => htxN (heq ▸ hc)⟩
      have hp₁' := (hmem₁ tx').mpr ⟨hp', hne'⟩
      have hdep₁ := (hclean₁.depends_iff hp₁ hp₁').mpr ⟨hp₁, hp₁', hdep.2.2⟩
      have hnone := hrem.closed _ _ hdep₁ (hrem.sub.lookup_eq_none hp₁ hnot)
      cases hnone.symm.trans hmem'
    · exact h.closed tx tx' hdep htxN hp hp'
  · intro d hd hmem
    rcases List.mem_append.mp hd with hd | hd
    · exact h.gone d hd (hleft d hmem).1
    · exact (hleft d hmem).2 (List.mem_singleton.mp hd)
  · intro d hd tx hmem hshare
    rcases List.mem_append.mp hd with hd | hd
    · exact h.free d hd tx (hleft tx hmem).1 hshare
    · obtain rfl := List.mem_singleton.mp hd
      have hclean := hpool.of_sub hsub hrem.indexed
      obtain ⟨txin, hin, txin', hin', heq⟩ := (hclean.share_iff hmem d).mp hshare
      exact hfree _ tx hmem (hleft tx hmem).2 txin hin txin' hin' heq

/-- **The loop over `vDelete`** takes out its transactions, and those in conflict with them with all
that depends on these. -/
theorem Clean.deleteRedundant_spec {s : NodeState} (vDelete : List CTransaction)
    (hpool : s.mempool.Clean C) (hsound : (txShape C).Sound (F ∪ {c | c ∈ vDelete}))
    (hfree : ∀ tx ∈ s.mempool.txs C, tx ∉ F) :
    (s.deleteRedundant C vDelete).mempool.Clean C ∧
      (s.deleteRedundant C vDelete).mempool.txs C =
        (txShape C).kept (s.mempool.txs C) {c | c ∈ vDelete} ∅ := by
  have hloop : ∀ l : List CTransaction, l ⊆ vDelete → Cleared C s.mempool
      (l.foldl (fun p tx => (p.remove C tx false).removeConflicts C tx) s.mempool)
      {c | c ∈ vDelete} l := by
    intro l hl
    induction l using List.reverseRecOn with
    | nil =>
      exact ⟨hpool, fun _ _ h => h, fun tx htx hnot => absurd htx hnot,
        fun tx tx' hdep _ hnot => absurd hdep.1 hnot, by simp, by simp⟩
    | append_singleton l c ih =>
      rw [List.foldl_append, List.foldl_cons, List.foldl_nil]
      exact (ih fun x hx => hl (List.mem_append_left _ hx)).step hinj hacyclic hpool hsound
        (hl (by simp))
  have h := hloop vDelete (List.Subset.refl _)
  refine ⟨h.clean, ?_⟩
  change CTxMemPool.txs C (vDelete.foldl _ s.mempool) = _
  generalize vDelete.foldl (fun p tx => (p.remove C tx false).removeConflicts C tx) s.mempool = p
    at h
  ext tx
  constructor
  · intro htx
    refine ⟨h.sub.txs_subset htx, fun hN => h.gone tx hN htx, id, fun hconf => ?_⟩
    -- along the chain from the conflict everything is gone
    obtain ⟨z, hz, hzN, ⟨c, hc, hshare⟩, hpath⟩ := id hconf
    have hchain : ∀ {t}, Relation.ReflTransGen ((txShape C).Depends (s.mempool.txs C)) z t →
        t ∉ p.txs C := by
      intro t hpath
      induction hpath with
      | refl => exact fun hmem => h.free c hc z hmem hshare
      | tail hpath hdep ih =>
        refine h.closed _ _ hdep ?_ ih
        exact Shape.Conflicted.not_mem hinj hsound hfree ⟨z, hz, hzN, ⟨c, hc, hshare⟩, hpath⟩
    exact hchain hpath htx
  · rintro ⟨htx, hN, -, hconf⟩
    by_contra hnot
    rcases h.only tx htx hnot with hmem | hmem
    · exact hN hmem
    · exact hconf hmem

end Delete

end CTxMemPool

end MotaCoin
