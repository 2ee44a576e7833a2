import Mathlib.Data.Finset.Card
import MotaCoin.OrphanTx
import MotaCoin.Stored

/-!
# The two orphan maps

`mapOrphanTransactionsByPrev` is the inverse of the spends of `mapOrphanTransactions`.
`AddOrphanTx`, `EraseOrphanTx` and `LimitOrphanTxSize` keep it so and keep no empty set. The walk of
the `tx` handler reads `mapOrphanTransactionsByPrev[hashPrev]` for every transaction it accepted,
which leaves an empty set for one that no orphan waits for.

## Main definitions

* `OrphanTxs.Spends`, `OrphanTxs.Linked`, `OrphanTxs.Mirrored`
* `RelayState.acceptedBy`: the transactions a `tx` message brings into the pool
* `OrphanRun`: sequences of operations on the orphan maps

## Main results

* `limitOrphanTxSize_spec`: the loop ends with the wanted size and counts what it removed
* `processTx_isSome`: the handler ends, whatever the orphan maps hold
* `orphanRun_mirrored`: the maps are mirrored along every run in which each accepted transaction has
  an orphan that waits for it
-/

namespace MotaCoin

variable {C : Crypto}

namespace OrphanTxs

variable {o : OrphanTxs}

/-- The stored orphan `hash` has an input whose previous hash is `hashPrev`. -/
def Spends (o : OrphanTxs) (hashPrev hash : Uint256) : Prop :=
  ∃ tx, o.mapOrphanTransactions.lookup hash = some tx ∧
    ∃ txin ∈ tx.vin, txin.prevout.hash = hashPrev

variable (C) in
/-- Each orphan is stored under its own hash, and the sets hold exactly the orphans that wait for
their key. -/
structure Linked (o : OrphanTxs) : Prop where
  named : ∀ hash tx, o.mapOrphanTransactions.lookup hash = some tx → C.hashTx tx = hash
  mem_waiting : ∀ hashPrev hash, hash ∈ o.waiting hashPrev ↔ o.Spends hashPrev hash

/-- The by-previous map has a key iff some orphan waits for it, and then holds exactly the orphans
that do. -/
structure Mirrored (o : OrphanTxs) : Prop where
  key_iff : ∀ hashPrev, (o.mapOrphanTransactionsByPrev.lookup hashPrev).isSome ↔
    ∃ hash, o.Spends hashPrev hash
  mem_iff : ∀ hashPrev set, o.mapOrphanTransactionsByPrev.lookup hashPrev = some set →
    ∀ hash, hash ∈ set ↔ o.Spends hashPrev hash

/-- No empty set is kept. -/
def NoEmpty (o : OrphanTxs) : Prop :=
  ∀ hashPrev, o.mapOrphanTransactionsByPrev.lookup hashPrev ≠ some []

theorem Linked.waiting_eq_nil_iff (h : o.Linked C) {hashPrev : Uint256} :
    o.waiting hashPrev = [] ↔ ¬ ∃ hash, o.Spends hashPrev hash := by
  rw [List.eq_nil_iff_forall_not_mem]
  simp only [h.mem_waiting, not_exists]

/-- Linked maps are mirrored iff they keep no empty set. -/
theorem Linked.mirrored_iff (h : o.Linked C) : o.Mirrored ↔ o.NoEmpty := by
  constructor
  · intro hm hashPrev hempty
    obtain ⟨hash, hspend⟩ := (hm.key_iff hashPrev).mp (by rw [hempty]; rfl)
    exact List.not_mem_nil ((hm.mem_iff hashPrev [] hempty hash).mpr hspend)
  · intro hno
    have hwait : ∀ {hashPrev set}, o.mapOrphanTransactionsByPrev.lookup hashPrev = some set →
        o.waiting hashPrev = set := by
      intro hashPrev set hset
      rw [waiting, hset]
      rfl
    constructor
    · intro hashPrev
      rcases hset : o.mapOrphanTransactionsByPrev.lookup hashPrev with _ | set
      · have hnil : o.waiting hashPrev = [] := by
          rw [waiting, hset]
          rfl
        simpa using h.waiting_eq_nil_iff.mp hnil
      · have hne : set ≠ [] := fun hnil => hno hashPrev (hnil ▸ hset)
        rw [← hwait hset, Ne, h.waiting_eq_nil_iff, not_not] at hne
        simpa using hne
    · intro hashPrev set hset hash
      rw [← hwait hset]
      exact h.mem_waiting hashPrev hash

theorem linked_empty : (⟨∅, ∅⟩ : OrphanTxs).Linked C := by
  constructor
  · intro hash tx h
    cases h
  · intro hashPrev hash
    constructor
    · intro h
      cases h
    · rintro ⟨tx, h, -⟩
      cases h

/-! ## Linking and unlinking one transaction -/

section Fold

variable (hash : Uint256) (vin : List CTxIn) (m : AList fun _ : Uint256 => List Uint256)

theorem mem_link_fold (p h : Uint256) :
    h ∈ ((vin.foldl (fun m txin => link hash txin.prevout.hash m) m).lookup p).getD [] ↔
      h ∈ (m.lookup p).getD [] ∨ h = hash ∧ ∃ txin ∈ vin, txin.prevout.hash = p := by
  induction vin generalizing m with
  | nil => simp
  | cons txin vin ih =>
    rw [List.foldl_cons, ih]
    by_cases hp : p = txin.prevout.hash
    · subst hp
      simp only [link, AList.lookup_insert, Option.getD_some, mem_setInsert, List.mem_cons,
        exists_eq_or_imp, true_or, and_true]
      tauto
    · simp [link, AList.lookup_insert_ne hp, Ne.symm hp]

theorem ne_nil_link_fold (hno : ∀ p, m.lookup p ≠ some []) (p : Uint256) :
    (vin.foldl (fun m txin => link hash txin.prevout.hash m) m).lookup p ≠ some [] := by
  induction vin generalizing m with
  | nil => exact hno p
  | cons txin vin ih =>
    apply ih
    intro p' hp'
    by_cases hp : p' = txin.prevout.hash
    · subst hp
      simp only [link, AList.lookup_insert, Option.some.injEq] at hp'
      exact List.not_mem_nil (hp' ▸ mem_setInsert.mpr (Or.inl rfl))
    · simp only [link, AList.lookup_insert_ne hp] at hp'
      exact hno p' hp'

theorem mem_unlink (p' p h : Uint256) :
    h ∈ ((unlink hash p' m).lookup p).getD [] ↔
      h ∈ (m.lookup p).getD [] ∧ ¬ (h = hash ∧ p' = p) := by
  simp only [unlink]
  by_cases hp : p = p'
  · subst hp
    split
    · rename_i hempty
      have hall : ∀ h ∈ (m.lookup p).getD [], h = hash := by
        intro h hh
        by_contra hne
        have hmem := mem_setErase.mpr ⟨hh, hne⟩
        rw [List.isEmpty_iff.mp hempty] at hmem
        cases hmem
      simp only [AList.lookup_erase, Option.getD_none, List.not_mem_nil, and_true, false_iff,
        not_and, not_not]
      exact hall h
    · simp
  · have hne : ¬ p' = p := Ne.symm hp
    split
    · simp [AList.lookup_erase_ne hp, hne]
    · simp [AList.lookup_insert_ne hp, hne]

theorem mem_unlink_fold (p h : Uint256) :
    h ∈ ((vin.foldl (fun m txin => unlink hash txin.prevout.hash m) m).lookup p).getD [] ↔
      h ∈ (m.lookup p).getD [] ∧ ¬ (h = hash ∧ ∃ txin ∈ vin, txin.prevout.hash = p) := by
  induction vin generalizing m with
  | nil => simp
  | cons txin vin ih =>
    rw [List.foldl_cons, ih, mem_unlink, and_assoc, ← not_or, ← and_or_left]
    simp only [List.mem_cons, exists_eq_or_imp]

/-- An empty set after the unlinking was there before, under a key that was not unlinked. -/
theorem unlink_fold_eq_nil_iff (p : Uint256) :
    (vin.foldl (fun m txin => unlink hash txin.prevout.hash m) m).lookup p = some [] ↔
      m.lookup p = some [] ∧ ∀ txin ∈ vin, txin.prevout.hash ≠ p := by
  induction vin generalizing m with
  | nil => simp
  | cons txin vin ih =>
    rw [List.foldl_cons, ih]
    by_cases hp : p = txin.prevout.hash
    · -- a set that becomes empty is erased, and one that does not is not empty
      have hne : (unlink hash txin.prevout.hash m).lookup p ≠ some [] := by
        rw [hp, unlink]
        split
        · rw [AList.lookup_erase]
          simp
        · rename_i hne
          rw [AList.lookup_insert, Ne, Option.some.injEq]
          exact fun hnil => hne (List.isEmpty_iff.mpr hnil)
      simp [hne, hp]
    · have hsame : (unlink hash txin.prevout.hash m).lookup p = m.lookup p := by
        rw [unlink]
        split
        · exact AList.lookup_erase_ne hp
        · exact AList.lookup_insert_ne hp
      simp [hsame, Ne.symm hp]

end Fold

/-! ## The three operations -/

theorem addOrphanTx_cases (tx : CTransaction) (o : OrphanTxs) :
    (o.addOrphanTx C tx).2 = o ∨
      o.mapOrphanTransactions.lookup (C.hashTx tx) = none ∧ tx.getSerializeSize ≤ 5000 ∧
        (o.addOrphanTx C tx).2 = {
          mapOrphanTransactions := o.mapOrphanTransactions.insert (C.hashTx tx) tx
          mapOrphanTransactionsByPrev := tx.vin.foldl
            (fun m txin => link (C.hashTx tx) txin.prevout.hash m)
            o.mapOrphanTransactionsByPrev } := by
  unfold addOrphanTx
  simp only
  split
  · exact Or.inl rfl
  · rename_i hnone
    split
    · exact Or.inl rfl
    · rename_i hsize
      exact Or.inr ⟨by simpa using hnone, by omega, rfl⟩

theorem Linked.addOrphanTx (h : o.Linked C) (tx : CTransaction) :
    (o.addOrphanTx C tx).2.Linked C := by
  rcases addOrphanTx_cases (C := C) tx o with hsame | ⟨hnone, -, hnew⟩
  · rw [hsame]
    exact h
  · rw [hnew]
    constructor
    · intro hash tx' htx'
      by_cases hh : hash = C.hashTx tx
      · subst hh
        rw [AList.lookup_insert] at htx'
        rw [Option.some.inj htx']
      · rw [AList.lookup_insert_ne hh] at htx'
        exact h.named hash tx' htx'
    · intro p hash
      rw [waiting, mem_link_fold]
      have hold : hash ∈ (o.mapOrphanTransactionsByPrev.lookup p).getD [] ↔ o.Spends p hash :=
        h.mem_waiting p hash
      rw [hold]
      by_cases hh : hash = C.hashTx tx
      · -- the hash was not stored before
        have hnot : ¬ o.Spends p hash := by
          rintro ⟨tx', htx', -⟩
          rw [hh, hnone] at htx'
          cases htx'
        subst hh
        rw [or_iff_right hnot]
        simp [Spends, AList.lookup_insert]
      · simp [hh, Spends, AList.lookup_insert_ne hh]

theorem NoEmpty.addOrphanTx (h : o.NoEmpty) (tx : CTransaction) :
    (o.addOrphanTx C tx).2.NoEmpty := by
  rcases addOrphanTx_cases (C := C) tx o with hsame | ⟨-, -, hnew⟩
  · rw [hsame]
    exact h
  · rw [hnew]
    exact ne_nil_link_fold _ _ _ h

theorem Linked.eraseOrphanTx (h : o.Linked C) (hash : Uint256) :
    (o.eraseOrphanTx hash).Linked C := by
  unfold OrphanTxs.eraseOrphanTx
  split
  · exact h
  · rename_i tx htx
    constructor
    · intro hash' tx' htx'
      by_cases hh : hash' = hash
      · subst hh
        rw [AList.lookup_erase] at htx'
        cases htx'
      · rw [AList.lookup_erase_ne hh] at htx'
        exact h.named hash' tx' htx'
    · intro p hash'
      rw [waiting, mem_unlink_fold]
      have hold : hash' ∈ (o.mapOrphanTransactionsByPrev.lookup p).getD [] ↔ o.Spends p hash' :=
        h.mem_waiting p hash'
      rw [hold]
      by_cases hh : hash' = hash
      · subst hh
        simp [Spends, AList.lookup_erase, htx]
      · simp [hh, Spends, AList.lookup_erase_ne hh]

/-- `EraseOrphanTx` leaves the empty sets that were there, and no other. -/
theorem Linked.eraseOrphanTx_eq_nil_iff (h : o.Linked C) (hash p : Uint256) :
    (o.eraseOrphanTx hash).mapOrphanTransactionsByPrev.lookup p = some [] ↔
      o.mapOrphanTransactionsByPrev.lookup p = some [] := by
  unfold OrphanTxs.eraseOrphanTx
  split
  · rfl
  · rename_i tx htx
    simp only [unlink_fold_eq_nil_iff, and_iff_left_iff_imp]
    intro hempty txin hin hprev
    -- the orphan waits for the key, so the set is not empty
    have hmem := (h.mem_waiting p hash).mpr ⟨tx, htx, txin, hin, hprev⟩
    rw [waiting, hempty] at hmem
    cases hmem

theorem Linked.noEmpty_eraseOrphanTx (h : o.Linked C) (hash : Uint256) :
    (o.eraseOrphanTx hash).NoEmpty ↔ o.NoEmpty := by
  unfold NoEmpty
  simp only [ne_eq, h.eraseOrphanTx_eq_nil_iff]

theorem Linked.eraseOrphanTxs (h : o.Linked C) (hashes : List Uint256) :
    (o.eraseOrphanTxs hashes).Linked C ∧ ((o.eraseOrphanTxs hashes).NoEmpty ↔ o.NoEmpty) := by
  induction hashes generalizing o with
  | nil => exact ⟨h, Iff.rfl⟩
  | cons hash hashes ih =>
    obtain ⟨hlinked, hempty⟩ := ih (h.eraseOrphanTx hash)
    exact ⟨hlinked, hempty.trans (h.noEmpty_eraseOrphanTx hash)⟩

/-- **`LimitOrphanTxSize` ends with at most the wanted number and returns how many it removed.** -/
theorem limitOrphanTxSize_spec (nMaxOrphans : Nat) (randomhash : Nat → Uint256) (nEvicted : Nat)
    (o : OrphanTxs) :
    (o.limitOrphanTxSize nMaxOrphans randomhash nEvicted).2.size ≤ nMaxOrphans ∧
      (o.limitOrphanTxSize nMaxOrphans randomhash nEvicted).1 +
        (o.limitOrphanTxSize nMaxOrphans randomhash nEvicted).2.size = nEvicted + o.size := by
  fun_induction limitOrphanTxSize nMaxOrphans randomhash nEvicted o with
  | case1 nEvicted o h ih =>
    have hsize := size_eraseOrphanTx (mem_evicted (Nat.zero_lt_of_lt h) (randomhash nEvicted))
    exact ⟨ih.1, by omega⟩
  | case2 nEvicted o h => exact ⟨Nat.le_of_not_lt h, rfl⟩

theorem limitOrphanTxSize_of_le {nMaxOrphans : Nat} {randomhash : Nat → Uint256}
    (h : o.size ≤ nMaxOrphans) : o.limitOrphanTxSize nMaxOrphans randomhash 0 = (0, o) := by
  rw [limitOrphanTxSize, dif_neg (Nat.not_lt.mpr h)]

theorem Linked.limitOrphanTxSize (h : o.Linked C) (nMaxOrphans : Nat) (randomhash : Nat → Uint256)
    (nEvicted : Nat) :
    (o.limitOrphanTxSize nMaxOrphans randomhash nEvicted).2.Linked C ∧
      ((o.limitOrphanTxSize nMaxOrphans randomhash nEvicted).2.NoEmpty ↔ o.NoEmpty) := by
  fun_induction OrphanTxs.limitOrphanTxSize nMaxOrphans randomhash nEvicted o with
  | case1 nEvicted o _ ih =>
    obtain ⟨hlinked, hempty⟩ := ih (h.eraseOrphanTx _)
    exact ⟨hlinked, hempty.trans (h.noEmpty_eraseOrphanTx _)⟩
  | case2 nEvicted o _ => exact ⟨h, Iff.rfl⟩

/-! ## Reading with `operator[]` -/

@[simp] theorem waiting_touchPrev (o : OrphanTxs) (p q : Uint256) :
    (o.touchPrev p).waiting q = o.waiting q := by
  by_cases hq : q = p
  · subst hq
    simp [touchPrev, waiting]
  · simp [touchPrev, waiting, AList.lookup_insert_ne hq]

theorem Linked.touchPrev (h : o.Linked C) (p : Uint256) : (o.touchPrev p).Linked C where
  named := h.named
  mem_waiting q hash := by
    rw [waiting_touchPrev]
    exact h.mem_waiting q hash

theorem Linked.noEmpty_touchPrev (h : o.Linked C) (p : Uint256) :
    (o.touchPrev p).NoEmpty ↔ o.NoEmpty ∧ ∃ hash, o.Spends p hash := by
  have hwait : o.waiting p = [] ↔ ¬ ∃ hash, o.Spends p hash := h.waiting_eq_nil_iff
  constructor
  · intro hno
    constructor
    · intro q hq
      by_cases hqp : q = p
      · subst hqp
        refine hno q ?_
        simp [OrphanTxs.touchPrev, waiting, hq]
      · refine hno q ?_
        simpa [OrphanTxs.touchPrev, AList.lookup_insert_ne hqp] using hq
    · by_contra hnone
      refine hno p ?_
      simp [OrphanTxs.touchPrev, hwait.mpr hnone]
  · rintro ⟨hno, hspend⟩ q hq
    by_cases hqp : q = p
    · subst hqp
      simp only [OrphanTxs.touchPrev, AList.lookup_insert, Option.some.injEq] at hq
      exact (hwait.mp hq) hspend
    · simp only [OrphanTxs.touchPrev, AList.lookup_insert_ne hqp] at hq
      exact hno q hq

theorem touchTx_of_lookup {hash : Uint256} {tx : CTransaction}
    (h : o.mapOrphanTransactions.lookup hash = some tx) : o.touchTx hash = o := by
  simp [touchTx, h]

theorem lookup_touchTx (o : OrphanTxs) (hash : Uint256) :
    ∃ tx, (o.touchTx hash).mapOrphanTransactions.lookup hash = some tx ∧
      (o.mapOrphanTransactions.lookup hash = some tx ∨
        o.mapOrphanTransactions.lookup hash = none ∧ tx = CTransaction.empty) := by
  unfold touchTx
  split
  · rename_i tx htx
    exact ⟨tx, htx, Or.inl htx⟩
  · rename_i hnone
    exact ⟨CTransaction.empty, AList.lookup_insert _, Or.inr ⟨hnone, rfl⟩⟩

end OrphanTxs

/-! ## The walk ends

An orphan is accepted only while it is not in the pool, and is in the pool from then on. So the
orphans that can still be accepted and the queue entries ahead grow fewer with every round. -/

namespace RelayState

variable (C) in
/-- The stored transaction under `hash` could be accepted: it passes `CheckTransaction` and is not
in the pool. -/
def candidate (s : RelayState) (hash : Uint256) : Bool :=
  match s.orphans.mapOrphanTransactions.lookup hash with
  | none => false
  | some orphanTx => orphanTx.checkTransaction &&
      (s.node.mempool.mapTx.lookup (C.hashTx orphanTx)).isNone

variable (C) in
/-- The number of stored transactions that could be accepted. -/
def candidates (s : RelayState) : Nat :=
  (s.orphans.mapOrphanTransactions.keys.toFinset.filter fun hash => s.candidate C hash = true).card

theorem candidate_iff {s : RelayState} {hash : Uint256} :
    s.candidate C hash = true ↔ ∃ t, s.orphans.mapOrphanTransactions.lookup hash = some t ∧
      t.checkTransaction = true ∧ s.node.mempool.mapTx.lookup (C.hashTx t) = none := by
  unfold candidate
  rcases s.orphans.mapOrphanTransactions.lookup hash with _ | t
  · simp
  · simp [Option.isNone_iff_eq_none]

theorem mem_candidates {s : RelayState} {hash : Uint256} :
    hash ∈ s.orphans.mapOrphanTransactions.keys.toFinset.filter
        (fun hash => s.candidate C hash = true) ↔ s.candidate C hash = true := by
  rw [Finset.mem_filter, List.mem_toFinset, ← AList.mem_keys, ← AList.lookup_isSome,
    and_iff_right_iff_imp]
  intro h
  obtain ⟨t, ht, -⟩ := candidate_iff.mp h
  rw [ht]
  rfl

theorem candidates_le {s s' : RelayState}
    (h : ∀ hash, s'.candidate C hash = true → s.candidate C hash = true) :
    s'.candidates C ≤ s.candidates C :=
  Finset.card_le_card fun hash hmem => mem_candidates.mpr (h hash (mem_candidates.mp hmem))

theorem candidates_lt {s s' : RelayState}
    (h : ∀ hash, s'.candidate C hash = true → s.candidate C hash = true) {hash : Uint256}
    (hold : s.candidate C hash = true) (hnew : ¬ s'.candidate C hash = true) :
    s'.candidates C < s.candidates C := by
  apply Finset.card_lt_card
  rw [Finset.ssubset_iff_of_subset fun k hk => mem_candidates.mpr (h k (mem_candidates.mp hk))]
  exact ⟨hash, mem_candidates.mpr hold, fun hmem => hnew (mem_candidates.mp hmem)⟩

theorem candidates_le_size (s : RelayState) : s.candidates C ≤ s.orphans.size := by
  refine (Finset.card_filter_le _ _).trans ((List.toFinset_card_le _).trans ?_)
  simp [AList.keys, List.keys, OrphanTxs.size]

/-- Where the pool only grew and `operator[]` touched an orphan, what could be accepted afterwards
could be accepted before. -/
theorem candidate_of_touchTx {s s' : RelayState} {orphanTxHash : Uint256}
    (horphans : s'.orphans = s.orphans.touchTx orphanTxHash)
    (hpool : ∀ hash, s'.node.mempool.mapTx.lookup hash = none →
      s.node.mempool.mapTx.lookup hash = none) (hash : Uint256)
    (h : s'.candidate C hash = true) : s.candidate C hash = true := by
  obtain ⟨t, ht, hcheck, hnone⟩ := candidate_iff.mp h
  rw [horphans] at ht
  refine candidate_iff.mpr ⟨t, ?_, hcheck, hpool _ hnone⟩
  by_cases hh : hash = orphanTxHash
  · -- `operator[]` only adds empty transactions, and those fail `CheckTransaction`
    subst hh
    obtain ⟨t', ht', hor⟩ := OrphanTxs.lookup_touchTx s.orphans hash
    obtain rfl : t = t' := Option.some.inj (ht.symm.trans ht')
    rcases hor with hor | ⟨-, rfl⟩
    · exact hor
    · exact absurd hcheck (by decide)
  · unfold OrphanTxs.touchTx at ht
    split at ht
    · exact ht
    · rwa [AList.lookup_insert_ne hh] at ht

end RelayState

namespace TxWork

variable (C) (env : Env) (tx : CTransaction)

/-- What trying one orphan does: it enters the pool and both queues, or only the erase queue, or
nothing but the map is touched. -/
theorem tryOrphan_cases (w : TxWork) (orphanTxHash : Uint256) :
    ∃ t, (w.state.orphans.mapOrphanTransactions.lookup orphanTxHash = some t ∨
        w.state.orphans.mapOrphanTransactions.lookup orphanTxHash = none ∧
          t = CTransaction.empty) ∧
      (w.tryOrphan C env tx orphanTxHash).state.orphans =
        w.state.orphans.touchTx orphanTxHash ∧
      ((w.state.node.acceptToMemoryPool C env t true).1 = true ∧
          (w.tryOrphan C env tx orphanTxHash).state.node = { w.state.node with
            mempool := w.state.node.mempool.addUnchecked (C.hashTx t) t } ∧
          (w.tryOrphan C env tx orphanTxHash).vWorkQueue = w.vWorkQueue ++ [orphanTxHash] ∧
          (w.tryOrphan C env tx orphanTxHash).vEraseQueue = w.vEraseQueue ++ [orphanTxHash] ∨
        (w.state.node.acceptToMemoryPool C env t true).1 = false ∧
          (w.tryOrphan C env tx orphanTxHash).state.node = w.state.node ∧
          (w.tryOrphan C env tx orphanTxHash).vWorkQueue = w.vWorkQueue ∧
          (w.tryOrphan C env tx orphanTxHash).vEraseQueue =
            if (w.state.node.acceptToMemoryPool C env t true).2.1 then w.vEraseQueue
            else w.vEraseQueue ++ [orphanTxHash]) := by
  obtain ⟨t, ht, hor⟩ := OrphanTxs.lookup_touchTx w.state.orphans orphanTxHash
  have hstate := NodeState.acceptToMemoryPool_state C env w.state.node t true
  refine ⟨t, hor, ?_⟩
  unfold tryOrphan
  simp only [ht, Option.getD_some]
  by_cases hok : (w.state.node.acceptToMemoryPool C env t true).1 = true
  · rw [if_pos hok] at hstate
    simp [hok, hstate]
  · by_cases hmissing : (w.state.node.acceptToMemoryPool C env t true).2.1 = true <;>
      simp [hok, hmissing]

/-- Trying a stored orphan leaves the maps as they are. -/
theorem tryOrphan_of_stored {w : TxWork} {orphanTxHash : Uint256} {t : CTransaction}
    (ht : w.state.orphans.mapOrphanTransactions.lookup orphanTxHash = some t) :
    (w.tryOrphan C env tx orphanTxHash).state.orphans = w.state.orphans ∧
      ((w.state.node.acceptToMemoryPool C env t true).1 = true ∧
          (w.tryOrphan C env tx orphanTxHash).state.node = { w.state.node with
            mempool := w.state.node.mempool.addUnchecked (C.hashTx t) t } ∧
          (w.tryOrphan C env tx orphanTxHash).vWorkQueue = w.vWorkQueue ++ [orphanTxHash] ∧
          (w.tryOrphan C env tx orphanTxHash).vEraseQueue = w.vEraseQueue ++ [orphanTxHash] ∨
        (w.state.node.acceptToMemoryPool C env t true).1 = false ∧
          (w.tryOrphan C env tx orphanTxHash).state.node = w.state.node ∧
          (w.tryOrphan C env tx orphanTxHash).vWorkQueue = w.vWorkQueue ∧
          (w.tryOrphan C env tx orphanTxHash).vEraseQueue =
            if (w.state.node.acceptToMemoryPool C env t true).2.1 then w.vEraseQueue
            else w.vEraseQueue ++ [orphanTxHash]) := by
  obtain ⟨t', hor, horphans, hcases⟩ := w.tryOrphan_cases C env tx orphanTxHash
  rw [OrphanTxs.touchTx_of_lookup ht] at horphans
  rcases hor with hor | ⟨hnone, -⟩
  · obtain rfl : t = t' := Option.some.inj (ht.symm.trans hor)
    exact ⟨horphans, hcases⟩
  · rw [ht] at hnone
    cases hnone

/-- Trying one orphan: what was queued for it is paid for by a candidate. -/
theorem tryOrphan_measure (w : TxWork) (orphanTxHash : Uint256) :
    w.vWorkQueue.length ≤ (w.tryOrphan C env tx orphanTxHash).vWorkQueue.length ∧
      (w.tryOrphan C env tx orphanTxHash).state.candidates C +
          (w.tryOrphan C env tx orphanTxHash).vWorkQueue.length ≤
        w.state.candidates C + w.vWorkQueue.length := by
  obtain ⟨t, hor, horphans, ⟨hok, hnode, hqueue, -⟩ | ⟨-, hnode, hqueue, -⟩⟩ :=
    w.tryOrphan_cases C env tx orphanTxHash
  · obtain ⟨hadm, -⟩ := (NodeState.acceptToMemoryPool_fst_iff C env).mp hok
    rcases hor with hor | ⟨-, rfl⟩
    · have hlt : (w.tryOrphan C env tx orphanTxHash).state.candidates C < w.state.candidates C := by
        refine RelayState.candidates_lt (RelayState.candidate_of_touchTx horphans ?_)
          (RelayState.candidate_iff.mpr ⟨t, hor, hadm.checked, hadm.notInPool⟩) ?_
        · intro hash hnone
          rw [hnode] at hnone
          simp only [CTxMemPool.addUnchecked, AList.lookup_insert_eq_none] at hnone
          exact hnone.2
        · rw [RelayState.candidate_iff, horphans, OrphanTxs.touchTx_of_lookup hor, hnode]
          rintro ⟨t', ht', -, hnone⟩
          obtain rfl : t = t' := Option.some.inj (hor.symm.trans ht')
          simp only [CTxMemPool.addUnchecked, AList.lookup_insert] at hnone
          cases hnone
      rw [hqueue, List.length_append, List.length_singleton]
      omega
    · exact absurd hadm.checked (by decide)
  · have hle : (w.tryOrphan C env tx orphanTxHash).state.candidates C ≤ w.state.candidates C :=
      RelayState.candidates_le (RelayState.candidate_of_touchTx horphans fun _ h => hnode ▸ h)
    rw [hqueue]
    omega

theorem foldl_tryOrphan_measure (hashes : List Uint256) (w : TxWork) :
    w.vWorkQueue.length ≤ (hashes.foldl (tryOrphan C env tx) w).vWorkQueue.length ∧
      (hashes.foldl (tryOrphan C env tx) w).state.candidates C +
          (hashes.foldl (tryOrphan C env tx) w).vWorkQueue.length ≤
        w.state.candidates C + w.vWorkQueue.length := by
  induction hashes generalizing w with
  | nil => exact ⟨le_rfl, le_rfl⟩
  | cons hash hashes ih =>
    obtain ⟨hlen, hmeasure⟩ := w.tryOrphan_measure C env tx hash
    obtain ⟨hlen', hmeasure'⟩ := ih (w.tryOrphan C env tx hash)
    exact ⟨hlen.trans hlen', hmeasure'.trans hmeasure⟩

theorem workStep_measure (w : TxWork) (hashPrev : Uint256) :
    w.vWorkQueue.length ≤ (w.workStep C env tx hashPrev).vWorkQueue.length ∧
      (w.workStep C env tx hashPrev).state.candidates C +
          (w.workStep C env tx hashPrev).vWorkQueue.length ≤
        w.state.candidates C + w.vWorkQueue.length := by
  -- the sets do not count, so the touched state measures as the one before
  exact foldl_tryOrphan_measure C env tx _ { w with
    state := { w.state with orphans := w.state.orphans.touchPrev hashPrev } }

/-- **The walk ends** once the fuel is more than the candidates and the entries ahead. -/
theorem workLoop_isSome (fuel i : Nat) (w : TxWork)
    (h : w.state.candidates C + (w.vWorkQueue.length - i) < fuel) :
    (workLoop C env tx fuel i w).isSome := by
  induction fuel generalizing i w with
  | zero => exact absurd h (Nat.not_lt_zero _)
  | succ fuel ih =>
    rw [workLoop]
    rcases hi : w.vWorkQueue[i]? with _ | hashPrev
    · rfl
    · have hlt : i < w.vWorkQueue.length := (List.getElem?_eq_some_iff.mp hi).1
      obtain ⟨hlen, hmeasure⟩ := w.workStep_measure C env tx hashPrev
      apply ih
      omega

end TxWork

/-- A transaction that lacks an input is stored. -/
theorem RelayState.processTx_of_missing {s : RelayState} {m : TxMessage}
    (hrefused : (s.node.acceptToMemoryPool C m.env m.tx true).1 = false)
    (hmissing : (s.node.acceptToMemoryPool C m.env m.tx true).2.1 = true)
    (hsize : (s.orphans.addOrphanTx C m.tx).2.size ≤ MAX_ORPHAN_TRANSACTIONS) :
    s.processTx C m = some { s with orphans := (s.orphans.addOrphanTx C m.tx).2 } := by
  simp only [processTx, hrefused, hmissing, Bool.false_eq_true, if_false, if_true,
    OrphanTxs.limitOrphanTxSize_of_le hsize]

/-- **The `tx` handler ends, whatever the orphan maps hold.** -/
theorem RelayState.processTx_isSome (s : RelayState) (m : TxMessage) :
    (s.processTx C m).isSome := by
  unfold RelayState.processTx
  simp only
  split
  · rw [Option.isSome_map]
    refine TxWork.workLoop_isSome C _ _ _ _ _ ?_
    generalize (s.node.acceptToMemoryPool C m.env m.tx true).2.2 = node
    have hle : RelayState.candidates C ⟨node, s.orphans, s.walletTxs ++ [m.tx]⟩ ≤
      s.orphans.size := RelayState.candidates_le_size _
    simp only [List.length_singleton]
    omega
  · split <;> rfl

/-! ## What the walk leaves of the maps -/

namespace TxWork

variable (C) (env : Env) (tx : CTransaction)

theorem tryOrphan_isPrefix (w : TxWork) (orphanTxHash : Uint256) :
    w.vWorkQueue <+: (w.tryOrphan C env tx orphanTxHash).vWorkQueue := by
  obtain ⟨t, -, -, ⟨-, -, hqueue, -⟩ | ⟨-, -, hqueue, -⟩⟩ := w.tryOrphan_cases C env tx orphanTxHash
  · rw [hqueue]
    exact List.prefix_append _ _
  · rw [hqueue]

/-- While the tried orphans are stored, the inner loop changes no map, and the queue only grows. -/
theorem foldl_tryOrphan_orphans (hashes : List Uint256) (w : TxWork)
    (h : ∀ hash ∈ hashes, (w.state.orphans.mapOrphanTransactions.lookup hash).isSome) :
    (hashes.foldl (tryOrphan C env tx) w).state.orphans = w.state.orphans ∧
      w.vWorkQueue <+: (hashes.foldl (tryOrphan C env tx) w).vWorkQueue := by
  induction hashes generalizing w with
  | nil => exact ⟨rfl, List.prefix_refl _⟩
  | cons hash hashes ih =>
    obtain ⟨stored, hstored⟩ := Option.isSome_iff_exists.mp (h hash List.mem_cons_self)
    obtain ⟨t, -, horphans, -⟩ := w.tryOrphan_cases C env tx hash
    rw [OrphanTxs.touchTx_of_lookup hstored] at horphans
    obtain ⟨hsame, hinit⟩ := ih (w.tryOrphan C env tx hash) fun hash' hmem => by
      rw [horphans]
      exact h hash' (List.mem_cons_of_mem _ hmem)
    exact ⟨hsame.trans horphans, (w.tryOrphan_isPrefix C env tx hash).trans hinit⟩

theorem workStep_orphans {w : TxWork} (h : w.state.orphans.Linked C) (hashPrev : Uint256) :
    (w.workStep C env tx hashPrev).state.orphans = w.state.orphans.touchPrev hashPrev ∧
      w.vWorkQueue <+: (w.workStep C env tx hashPrev).vWorkQueue := by
  refine foldl_tryOrphan_orphans C env tx _ { w with
    state := { w.state with orphans := w.state.orphans.touchPrev hashPrev } } fun hash hmem => ?_
  rw [OrphanTxs.waiting_touchPrev, h.mem_waiting] at hmem
  obtain ⟨t, ht, -⟩ := hmem
  exact Option.isSome_iff_exists.mpr ⟨t, ht⟩

/-- The loop keeps the maps linked; it leaves an empty set for a queue entry that no orphan waits
for. -/
theorem workLoop_orphans {fuel i : Nat} {w w' : TxWork} (h : w.state.orphans.Linked C)
    (hloop : workLoop C env tx fuel i w = some w') :
    w'.state.orphans.Linked C ∧ w.vWorkQueue <+: w'.vWorkQueue ∧
      w'.state.orphans.mapOrphanTransactions = w.state.orphans.mapOrphanTransactions ∧
      (w'.state.orphans.NoEmpty ↔ w.state.orphans.NoEmpty ∧
        ∀ p ∈ w'.vWorkQueue.drop i, ∃ hash, w.state.orphans.Spends p hash) := by
  induction fuel generalizing i w with
  | zero => cases hloop
  | succ fuel ih =>
    rw [workLoop] at hloop
    rcases hi : w.vWorkQueue[i]? with _ | hashPrev
    · rw [hi] at hloop
      obtain rfl := Option.some.inj hloop
      have hdrop : w.vWorkQueue.drop i = [] :=
        List.drop_eq_nil_of_le (List.getElem?_eq_none_iff.mp hi)
      simp [hdrop, h]
    · rw [hi] at hloop
      obtain ⟨horphans, hinit⟩ := w.workStep_orphans C env tx h hashPrev
      obtain ⟨hlinked, hinit', hstored, hempty⟩ := ih (horphans ▸ h.touchPrev hashPrev) hloop
      refine ⟨hlinked, hinit.trans hinit', by rw [hstored, horphans]; rfl, ?_⟩
      -- the entry of this round is the first of those still to be counted
      have hi' : w'.vWorkQueue[i]? = some hashPrev := by
        obtain ⟨rest, hrest⟩ := hinit.trans hinit'
        rw [← hrest, List.getElem?_append_left (List.getElem?_eq_some_iff.mp hi).1, hi]
      have hdrop : w'.vWorkQueue.drop i = hashPrev :: w'.vWorkQueue.drop (i + 1) := by
        obtain ⟨hlt, hget⟩ := List.getElem?_eq_some_iff.mp hi'
        rw [List.drop_eq_getElem_cons hlt, hget]
      have hspends : (w.workStep C env tx hashPrev).state.orphans.Spends =
          w.state.orphans.Spends := by
        rw [horphans]
        rfl
      rw [hempty, hspends, horphans, h.noEmpty_touchPrev, hdrop]
      simp only [List.mem_cons, forall_eq_or_imp, and_assoc]

end TxWork

namespace RelayState

variable (C) in
/-- The transactions a `tx` message brings into the memory pool: its own, and the orphans that the
walk accepts. -/
def acceptedBy (s : RelayState) (m : TxMessage) : List Uint256 :=
  let r := s.node.acceptToMemoryPool C m.env m.tx true
  if r.1 then ((s.walk C m r.2.2).map TxWork.vWorkQueue).getD [] else []

/-- The handler keeps linked maps linked. Without an empty set before, it leaves one iff it accepted
a transaction that no stored orphan waits for. -/
theorem processTx_linked {s s' : RelayState} {m : TxMessage} (h : s.orphans.Linked C)
    (hrun : s.processTx C m = some s') :
    s'.orphans.Linked C ∧ (s.orphans.NoEmpty →
      (s'.orphans.NoEmpty ↔ ∀ p ∈ s.acceptedBy C m, ∃ hash, s.orphans.Spends p hash)) := by
  unfold processTx at hrun
  unfold acceptedBy
  simp only at hrun ⊢
  split at hrun
  · rename_i hok
    obtain ⟨w, hw, rfl⟩ := Option.map_eq_some_iff.mp hrun
    obtain ⟨hlinked, -, -, hempty⟩ := TxWork.workLoop_orphans C m.env m.tx h hw
    obtain ⟨hlinked', hempty'⟩ := hlinked.eraseOrphanTxs w.vEraseQueue
    refine ⟨hlinked', fun hno => hempty'.trans (hempty.trans ?_)⟩
    rw [if_pos hok, hw]
    exact and_iff_right hno
  · rename_i hok
    rw [if_neg hok]
    split at hrun
    · obtain rfl := Option.some.inj hrun
      obtain ⟨hlinked, hempty⟩ := (h.addOrphanTx m.tx).limitOrphanTxSize MAX_ORPHAN_TRANSACTIONS
        m.randomhash 0
      refine ⟨hlinked, fun hno => hempty.trans ?_⟩
      simp [hno.addOrphanTx m.tx]
    · obtain rfl := Option.some.inj hrun
      exact ⟨h, fun hno => by simp [hno]⟩

variable (C) in
/-- Every transaction the message brings into the pool has a stored orphan that waits for it. -/
def Awaited (s : RelayState) (m : TxMessage) : Prop :=
  ∀ p ∈ s.acceptedBy C m, ∃ hash, s.orphans.Spends p hash

end RelayState

/-! ## Runs -/

variable (C) in
/-- One operation on the orphan maps; the node may have changed in between. `P` is asked of every
`tx` message in the state it meets. -/
inductive OrphanStep (P : RelayState → TxMessage → Prop) : RelayState → RelayState → Prop
  | addOrphanTx (s : RelayState) (tx : CTransaction) :
    OrphanStep P s { s with orphans := (s.orphans.addOrphanTx C tx).2 }
  | eraseOrphanTx (s : RelayState) (hash : Uint256) :
    OrphanStep P s { s with orphans := s.orphans.eraseOrphanTx hash }
  | limitOrphanTxSize (s : RelayState) (nMaxOrphans : Nat) (randomhash : Nat → Uint256) :
    OrphanStep P s { s with
      orphans := (s.orphans.limitOrphanTxSize nMaxOrphans randomhash 0).2 }
  | tx (s s' : RelayState) (m : TxMessage) (hP : P s m) (hrun : s.processTx C m = some s') :
    OrphanStep P s s'
  | node (s : RelayState) (node : NodeState) : OrphanStep P s { s with node := node }

variable (C) in
/-- The states reached from one without orphans. -/
def OrphanRun (P : RelayState → TxMessage → Prop) (s : RelayState) : Prop :=
  ∃ s₀ : RelayState, s₀.orphans = ⟨∅, ∅⟩ ∧ Relation.ReflTransGen (OrphanStep C P) s₀ s

theorem OrphanStep.linked {P : RelayState → TxMessage → Prop} {s s' : RelayState}
    (hstep : OrphanStep C P s s') (h : s.orphans.Linked C) : s'.orphans.Linked C := by
  cases hstep with
  | addOrphanTx tx => exact h.addOrphanTx tx
  | eraseOrphanTx hash => exact h.eraseOrphanTx hash
  | limitOrphanTxSize nMaxOrphans randomhash => exact (h.limitOrphanTxSize _ _ _).1
  | tx _ m _ hrun => exact (RelayState.processTx_linked h hrun).1
  | node node => exact h

theorem OrphanStep.noEmpty {s s' : RelayState}
    (hstep : OrphanStep C (RelayState.Awaited C) s s') (h : s.orphans.Linked C)
    (hno : s.orphans.NoEmpty) : s'.orphans.NoEmpty := by
  cases hstep with
  | addOrphanTx tx => exact hno.addOrphanTx tx
  | eraseOrphanTx hash => exact (h.noEmpty_eraseOrphanTx hash).mpr hno
  | limitOrphanTxSize nMaxOrphans randomhash => exact (h.limitOrphanTxSize _ _ _).2.mpr hno
  | tx _ m hP hrun => exact ((RelayState.processTx_linked h hrun).2 hno).mpr hP
  | node node => exact hno

/-- **Along every run in which each accepted transaction is awaited by an orphan, the two maps are
mirrored; and `LimitOrphanTxSize` always ends with the wanted size and the number it removed.** -/
theorem orphanRun_mirrored :
    (∀ s, OrphanRun C (RelayState.Awaited C) s → s.orphans.Mirrored) ∧
      ∀ (o : OrphanTxs) (nMaxOrphans : Nat) (randomhash : Nat → Uint256),
        (o.limitOrphanTxSize nMaxOrphans randomhash 0).2.size ≤ nMaxOrphans ∧
        (o.limitOrphanTxSize nMaxOrphans randomhash 0).1 =
          o.size - (o.limitOrphanTxSize nMaxOrphans randomhash 0).2.size := by
  constructor
  · rintro s ⟨s₀, hempty, hrun⟩
    have hinv : s.orphans.Linked C ∧ s.orphans.NoEmpty := by
      induction hrun with
      | refl =>
        rw [hempty]
        exact ⟨OrphanTxs.linked_empty, fun _ h => by cases h⟩
      | tail _ hstep ih => exact ⟨hstep.linked ih.1, hstep.noEmpty ih.1 ih.2⟩
    exact hinv.1.mirrored_iff.mpr hinv.2
  · intro o nMaxOrphans randomhash
    obtain ⟨hsize, hcount⟩ := OrphanTxs.limitOrphanTxSize_spec nMaxOrphans randomhash 0 o
    exact ⟨hsize, by omega⟩

/-! ### Samples

A pool holds the transaction 1. The transaction 2 spends it; the transaction 3 spends 2 and an
output nobody knows. -/

/-- A quiet environment. -/
def relayEnv : Env where
  adjustedTime := 1000
  checkpointsMode := .advisory
  writeToDisk := none
  indexCommitFails := false
  blockUnreadable _ _ := false
  txUnreadable _ := false
  commitFails _ := false
  freeTxRefused _ := false

/-- A transaction with one input per outpoint and one output. -/
def relayTx (spent : List COutPoint) (nValue : Int) : CTransaction where
  nVersion := 1
  nTime := 0
  vin := spent.map fun o => ⟨o, [], 0⟩
  vout := [⟨nValue, []⟩]
  nLockTime := 0

/-- The transactions 1, 2 and 3. -/
def relayTxs : List CTransaction :=
  [relayTx [⟨77, 0⟩] 3000000, relayTx [⟨1, 0⟩] 2000000, relayTx [⟨2, 0⟩, ⟨99, 0⟩] 1000000]

/-- The genesis block of the sample. -/
def relayGenesis : StoredBlock := ⟨⟨1, 0, 0, 0, 0, 0, [], []⟩, 0, 1⟩

/-- Injective hashes that number the sample. -/
noncomputable def relayCrypto : Crypto := labelCrypto relayTxs [relayGenesis.block.getBlockHeader]

/-- A node with the transaction 1 in its pool and no orphans. -/
noncomputable def relayStart : RelayState where
  node := { storedNode relayCrypto [relayGenesis] with
    mempool := CTxMemPool.addUnchecked 1 (relayTx [⟨77, 0⟩] 3000000) ⟨∅, ∅⟩ }
  orphans := ⟨∅, ∅⟩
  walletTxs := []

/-- The message with the transaction 2. -/
def parentMessage : TxMessage := ⟨relayEnv, fun _ => 0, relayTx [⟨1, 0⟩] 2000000⟩

/-- The message with the transaction 3. -/
def childMessage : TxMessage := ⟨relayEnv, fun _ => 0, relayTx [⟨2, 0⟩, ⟨99, 0⟩] 1000000⟩

/-- The node that has stored the transaction 3 as an orphan. -/
noncomputable def relayWaiting : RelayState :=
  { relayStart with orphans := (OrphanTxs.addOrphanTx relayCrypto childMessage.tx ⟨∅, ∅⟩).2 }

theorem processTx_childMessage :
    relayStart.processTx relayCrypto childMessage = some relayWaiting :=
  RelayState.processTx_of_missing (by decide +kernel) (by decide +kernel) (by decide +kernel)

/-- The transaction 2 arrives while 3 waits for it. -/
theorem orphanRun_mirrored_relay :
    ∃ s, relayWaiting.processTx relayCrypto parentMessage = some s ∧
      OrphanRun relayCrypto (RelayState.Awaited relayCrypto) s ∧ s.orphans.Mirrored := by
  obtain ⟨s, hs⟩ := Option.isSome_iff_exists.mp
    (relayWaiting.processTx_isSome (C := relayCrypto) parentMessage)
  have hchild : relayStart.Awaited relayCrypto childMessage := by
    have hnone : relayStart.acceptedBy relayCrypto childMessage = [] := by decide +kernel
    simp [RelayState.Awaited, hnone]
  have hparent : relayWaiting.Awaited relayCrypto parentMessage := by
    have honly : relayWaiting.acceptedBy relayCrypto parentMessage = [2] := by decide +kernel
    intro p hp
    rw [honly, List.mem_singleton] at hp
    exact ⟨3, childMessage.tx, by decide +kernel, ⟨⟨2, 0⟩, [], 0⟩, by decide, hp.symm⟩
  have hrun : OrphanRun relayCrypto (RelayState.Awaited relayCrypto) s :=
    ⟨relayStart, rfl, .tail (.single (.tx _ _ _ hchild processTx_childMessage))
      (.tx _ _ _ hparent hs)⟩
  exact ⟨s, hs, hrun, orphanRun_mirrored.1 s hrun⟩

/-- The transaction 2 arrives while nothing waits for it: an empty set stays under its hash. -/
theorem not_mirrored_parentMessage :
    ∃ s, relayStart.processTx relayCrypto parentMessage = some s ∧
      OrphanRun relayCrypto (fun _ _ => True) s ∧
      s.orphans.mapOrphanTransactionsByPrev.lookup 2 = some [] ∧ ¬ s.orphans.Mirrored := by
  obtain ⟨s, hs⟩ := Option.isSome_iff_exists.mp
    (relayStart.processTx_isSome (C := relayCrypto) parentMessage)
  have hempty : (relayStart.processTx relayCrypto parentMessage).map (fun s =>
      s.orphans.mapOrphanTransactionsByPrev.lookup 2) = some (some []) := by decide +kernel
  rw [hs, Option.map_some, Option.some.injEq] at hempty
  refine ⟨s, hs, ⟨relayStart, rfl, .single (.tx _ _ _ trivial hs)⟩, hempty, fun hm => ?_⟩
  obtain ⟨hash, hspend⟩ := (hm.key_iff 2).mp (by rw [hempty]; rfl)
  exact List.not_mem_nil ((hm.mem_iff 2 [] hempty hash).mpr hspend)

end MotaCoin
