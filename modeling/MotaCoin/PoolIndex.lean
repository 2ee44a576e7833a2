import Mathlib.Data.Finset.Card
import MotaCoin.Hashes
import MotaCoin.Lib.AssocFold
import MotaCoin.MemPool

/-!
# The index of the memory pool

`mapNextTx` says which pool transaction spends an outpoint. Every operation of `CTxMemPool` keeps it
exact, and a recursive removal takes out the transaction and all that depend on it. The recursion
runs along the spends between pool transactions; it ends because no transaction spends, through
others, from itself.

## Main definitions

* `CTxMemPool.Indexed`: `mapNextTx` is the index of the inputs of `mapTx`
* `CTxMemPool.Depends`: a pool transaction spends an output of another
* `CTxMemPool.Removal`: what a removal of dependent transactions leaves
* `PoolStep`, `PoolReached`: sequences of pool operations

## Main results

* `Indexed.removeFuel_spec`: what a recursive removal does, given enough fuel
* `Indexed.removeConflicts`: the conflicts of a transaction are gone
* `PoolReached.indexed`: the index is exact after any sequence of operations
-/

namespace MotaCoin

variable (C : Crypto)

namespace CTxMemPool

/-- The outpoint of the input `i`. -/
def prevoutAt (tx : CTransaction) (i : Nat) : Option COutPoint := tx.vin[i]?.map CTxIn.prevout

theorem exists_prevoutAt {tx : CTransaction} {txin : CTxIn} (h : txin ∈ tx.vin) :
    ∃ i, prevoutAt tx i = some txin.prevout := by
  obtain ⟨i, hi⟩ := List.mem_iff_getElem?.mp h
  exact ⟨i, by simp [prevoutAt, hi]⟩

theorem exists_mem_of_prevoutAt {tx : CTransaction} {i : Nat} {o : COutPoint}
    (h : prevoutAt tx i = some o) : ∃ txin ∈ tx.vin, txin.prevout = o := by
  obtain ⟨txin, hi, ho⟩ := Option.map_eq_some_iff.mp h
  exact ⟨txin, List.mem_of_getElem? hi, ho⟩

/-- Each transaction is kept under its own hash, and `mapNextTx` holds exactly the inputs of the
transactions of `mapTx`. -/
structure Indexed (pool : CTxMemPool) : Prop where
  named : ∀ hash tx, pool.mapTx.lookup hash = some tx → C.hashTx tx = hash
  next : ∀ o hash i, pool.mapNextTx.lookup o = some (hash, i) ↔
    ∃ tx, pool.mapTx.lookup hash = some tx ∧ prevoutAt tx i = some o

/-- The transactions of `p` are among those of `pool`. -/
def Sub (p pool : CTxMemPool) : Prop :=
  ∀ hash tx, p.mapTx.lookup hash = some tx → pool.mapTx.lookup hash = some tx

/-- The pool transaction `hash'` spends an output of the pool transaction `hash`. -/
def Depends (pool : CTxMemPool) (hash hash' : Uint256) : Prop :=
  ∃ tx tx', pool.mapTx.lookup hash = some tx ∧ pool.mapTx.lookup hash' = some tx' ∧
    ∃ n < tx.vout.length, ∃ txin ∈ tx'.vin, txin.prevout = ⟨hash, n⟩

variable {C} {pool p p' : CTxMemPool}

/-- The entries `addUnchecked` makes in `mapNextTx`. -/
def nextEntries (hash : Uint256) (tx : CTransaction) : List (COutPoint × Uint256 × Nat) :=
  tx.vin.zipIdx.map fun q => (q.1.prevout, hash, q.2)

theorem mapNextTx_addUnchecked (pool : CTxMemPool) (hash : Uint256) (tx : CTransaction) :
    (pool.addUnchecked hash tx).mapNextTx =
      (nextEntries hash tx).foldl (fun m e => m.insert e.1 e.2) pool.mapNextTx := by
  rw [nextEntries, List.foldl_map]
  rfl

theorem map_fst_nextEntries (hash : Uint256) (tx : CTransaction) :
    (nextEntries hash tx).map Prod.fst = tx.vin.map CTxIn.prevout := by
  rw [nextEntries, List.map_map]
  exact (List.map_map (l := tx.vin.zipIdx) (f := Prod.fst) (g := CTxIn.prevout)).symm.trans
    (by rw [List.zipIdx_map_fst])

theorem mem_nextEntries {hash : Uint256} {tx : CTransaction} {o : COutPoint} {a : Uint256} {i : Nat} :
    (o, a, i) ∈ nextEntries hash tx ↔ a = hash ∧ prevoutAt tx i = some o := by
  simp only [nextEntries, List.mem_map, List.mem_zipIdx_iff_getElem?, prevoutAt,
    Option.map_eq_some_iff, Prod.exists, Prod.mk.injEq]
  constructor
  · rintro ⟨txin, j, hj, ho, rfl, rfl⟩
    exact ⟨rfl, txin, hj, ho⟩
  · rintro ⟨rfl, txin, hi, ho⟩
    exact ⟨txin, i, hi, ho, rfl, rfl⟩

theorem lookup_next_addUnchecked {tx : CTransaction} {hash : Uint256}
    (hnodup : (tx.vin.map CTxIn.prevout).Nodup) (o : COutPoint) (a : Uint256) (i : Nat) :
    (pool.addUnchecked hash tx).mapNextTx.lookup o = some (a, i) ↔
      (a = hash ∧ prevoutAt tx i = some o) ∨
        o ∉ tx.vin.map CTxIn.prevout ∧ pool.mapNextTx.lookup o = some (a, i) := by
  rw [mapNextTx_addUnchecked,
    AList.lookup_eq_some_foldl_insert ((map_fst_nextEntries hash tx).symm ▸ hnodup),
    mem_nextEntries, map_fst_nextEntries]

theorem next_addUnchecked_eq_none {tx : CTransaction} {hash : Uint256} {o : COutPoint} :
    (pool.addUnchecked hash tx).mapNextTx.lookup o = none ↔
      o ∉ tx.vin.map CTxIn.prevout ∧ pool.mapNextTx.lookup o = none := by
  rw [mapNextTx_addUnchecked, AList.lookup_eq_none_foldl_insert, map_fst_nextEntries]

namespace Indexed

/-- Two inputs of pool transactions with the same outpoint are one and the same input. -/
theorem unique (h : pool.Indexed C) {hash hash' : Uint256} {tx tx' : CTransaction} {i j : Nat}
    {o : COutPoint} (htx : pool.mapTx.lookup hash = some tx)
    (htx' : pool.mapTx.lookup hash' = some tx') (hi : prevoutAt tx i = some o)
    (hj : prevoutAt tx' j = some o) : hash = hash' ∧ i = j := by
  have h₁ := (h.next o hash i).mpr ⟨tx, htx, hi⟩
  have h₂ := (h.next o hash' j).mpr ⟨tx', htx', hj⟩
  rw [h₁] at h₂
  simpa using h₂

/-- A spend of a pool transaction is in the index. -/
theorem next_of_mem (h : pool.Indexed C) {hash : Uint256} {tx : CTransaction} {txin : CTxIn}
    (htx : pool.mapTx.lookup hash = some tx) (hmem : txin ∈ tx.vin) :
    ∃ i, pool.mapNextTx.lookup txin.prevout = some (hash, i) := by
  obtain ⟨i, hi⟩ := exists_prevoutAt hmem
  exact ⟨i, (h.next _ _ _).mpr ⟨tx, htx, hi⟩⟩

/-- An outpoint that no transaction of the larger pool spends is spent by none of the smaller. -/
theorem next_none_of_sub (h : pool.Indexed C) (h' : p.Indexed C) (hsub : p.Sub pool)
    {o : COutPoint} (ho : pool.mapNextTx.lookup o = none) : p.mapNextTx.lookup o = none := by
  rcases hlook : p.mapNextTx.lookup o with _ | ⟨hash, i⟩
  · rfl
  · obtain ⟨tx, htx, hi⟩ := (h'.next o hash i).mp hlook
    have hsome := (h.next o hash i).mpr ⟨tx, hsub hash tx htx, hi⟩
    rw [ho] at hsome
    cases hsome

theorem clear (pool : CTxMemPool) : pool.clear.Indexed C := by
  constructor
  · intro hash tx h
    cases h
  · intro o hash i
    simp [CTxMemPool.clear]

/-! ## Adding and erasing one transaction -/


theorem addUnchecked (h : pool.Indexed C) {tx : CTransaction}
    (hnodup : (tx.vin.map CTxIn.prevout).Nodup)
    (hfree : ∀ txin ∈ tx.vin, pool.mapNextTx.lookup txin.prevout = none)
    (hsame : ∀ tx', pool.mapTx.lookup (C.hashTx tx) = some tx' → tx' = tx) :
    (pool.addUnchecked (C.hashTx tx) tx).Indexed C := by
  constructor
  · intro hash tx' htx'
    simp only [CTxMemPool.addUnchecked] at htx'
    by_cases hh : hash = C.hashTx tx
    · subst hh
      rw [AList.lookup_insert] at htx'
      rw [Option.some.inj htx']
    · rw [AList.lookup_insert_ne hh] at htx'
      exact h.named hash tx' htx'
  · intro o a i
    rw [lookup_next_addUnchecked hnodup]
    by_cases ha : a = C.hashTx tx
    · -- an old entry under this hash is an input of the same transaction
      subst ha
      simp only [CTxMemPool.addUnchecked, AList.lookup_insert, Option.some.injEq, exists_eq_left',
        true_and]
      constructor
      · rintro (hi | ⟨hnot, hold⟩)
        · exact hi
        · obtain ⟨tx', htx', hi⟩ := (h.next o _ i).mp hold
          exact hsame tx' htx' ▸ hi
      · exact Or.inl
    · simp only [CTxMemPool.addUnchecked, AList.lookup_insert_ne ha, ha, false_and, false_or, h.next]
      constructor
      · exact And.right
      · rintro ⟨tx', htx', hi⟩
        refine ⟨fun hmem => ?_, tx', htx', hi⟩
        obtain ⟨txin, hin, rfl⟩ := List.mem_map.mp hmem
        have hsome := (h.next _ a i).mpr ⟨tx', htx', hi⟩
        rw [hfree txin hin] at hsome
        cases hsome

theorem lookup_next_eraseTx (hash : Uint256) (tx : CTransaction) (o : COutPoint) :
    (pool.eraseTx hash tx).mapNextTx.lookup o =
      if o ∈ tx.vin.map CTxIn.prevout then none else pool.mapNextTx.lookup o := by
  rw [← AList.lookup_foldl_erase, List.foldl_map]
  rfl

theorem eraseTx (h : pool.Indexed C) {hash : Uint256} {tx : CTransaction}
    (htx : pool.mapTx.lookup hash = some tx) : (pool.eraseTx hash tx).Indexed C := by
  constructor
  · intro hash' tx' htx'
    simp only [CTxMemPool.eraseTx] at htx'
    by_cases hh : hash' = hash
    · subst hh
      rw [AList.lookup_erase] at htx'
      cases htx'
    · rw [AList.lookup_erase_ne hh] at htx'
      exact h.named hash' tx' htx'
  · intro o a i
    rw [lookup_next_eraseTx]
    simp only [CTxMemPool.eraseTx]
    by_cases ha : a = hash
    · -- no entry is left under the erased hash
      subst ha
      simp only [AList.lookup_erase, reduceCtorEq, false_and, exists_false, iff_false]
      split
      · simp
      · rename_i hnot
        intro hsome
        obtain ⟨tx', htx', hi⟩ := (h.next o a i).mp hsome
        obtain ⟨txin, hin, rfl⟩ := exists_mem_of_prevoutAt hi
        rw [htx, Option.some.injEq] at htx'
        subst htx'
        exact hnot (List.mem_map.mpr ⟨txin, hin, rfl⟩)
    · rw [AList.lookup_erase_ne ha, ← h.next]
      split
      · rename_i hmem
        obtain ⟨txin, hin, rfl⟩ := List.mem_map.mp hmem
        obtain ⟨j, hj⟩ := h.next_of_mem htx hin
        rw [hj]
        simp [Ne.symm ha]
      · rfl

end Indexed

/-! ## Removing with the dependent transactions -/

variable (C) in
/-- A removal leaves an indexed part of the pool; a transaction that depends on a removed one is
removed; and what is removed lies in `S`. -/
structure Removal (pool p : CTxMemPool) (S : Uint256 → Prop) : Prop where
  indexed : p.Indexed C
  sub : p.Sub pool
  closed : ∀ hash hash', pool.Depends hash hash' → p.mapTx.lookup hash = none →
    p.mapTx.lookup hash' = none
  only : ∀ hash tx, pool.mapTx.lookup hash = some tx → p.mapTx.lookup hash = none → S hash

theorem Depends.spendsFrom (h : pool.Indexed C) {hash hash' : Uint256}
    (hdep : pool.Depends hash hash') : SpendsFrom C hash hash' := by
  obtain ⟨tx, tx', -, htx', n, -, txin, hin, hprev⟩ := hdep
  exact ⟨tx', h.named hash' tx' htx', txin, hin, by rw [hprev]⟩

theorem Depends.of_sub (hsub : p.Sub pool) {hash hash' : Uint256} (h : p.Depends hash hash') :
    pool.Depends hash hash' := by
  obtain ⟨tx, tx', htx, htx', hspend⟩ := h
  exact ⟨tx, tx', hsub _ _ htx, hsub _ _ htx', hspend⟩

/-- A pool transaction of a part of the pool that depends on another one there depends on it in the
part. -/
theorem Sub.depends (hsub : p.Sub pool) {hash hash' : Uint256} (hdep : pool.Depends hash hash')
    (h : p.mapTx.lookup hash ≠ none) (h' : p.mapTx.lookup hash' ≠ none) :
    p.Depends hash hash' := by
  obtain ⟨tx, tx', htx, htx', hspend⟩ := hdep
  obtain ⟨t, ht⟩ := Option.ne_none_iff_exists'.mp h
  obtain ⟨t', ht'⟩ := Option.ne_none_iff_exists'.mp h'
  have htt : t = tx := Option.some.inj ((hsub _ _ ht).symm.trans htx)
  have htt' : t' = tx' := Option.some.inj ((hsub _ _ ht').symm.trans htx')
  exact ⟨tx, tx', htt ▸ ht, htt' ▸ ht', hspend⟩

namespace Removal

variable {S : Uint256 → Prop}

theorem refl (h : pool.Indexed C) : Removal C pool pool S where
  indexed := h
  sub _ _ h := h
  closed hash hash' hdep hnone := by
    obtain ⟨tx, tx', htx, -⟩ := hdep
    rw [hnone] at htx
    cases htx
  only hash tx htx hnone := by
    rw [hnone] at htx
    cases htx

theorem trans (h : Removal C pool p S) (h' : Removal C p p' S) : Removal C pool p' S where
  indexed := h'.indexed
  sub hash tx htx := h.sub hash tx (h'.sub hash tx htx)
  closed hash hash' hdep hnone := by
    -- the dependent one went with the first removal, or both were still there at the second
    by_cases hp' : p.mapTx.lookup hash' = none
    · rcases hlook : p'.mapTx.lookup hash' with _ | tx
      · rfl
      · rw [h'.sub hash' tx hlook] at hp'
        cases hp'
    · have hp : p.mapTx.lookup hash ≠ none := fun hp => hp' (h.closed hash hash' hdep hp)
      exact h'.closed hash hash' (h.sub.depends hdep hp hp') hnone
  only hash tx htx hnone := by
    rcases hp : p.mapTx.lookup hash with _ | tx'
    · exact h.only hash tx htx hp
    · exact h'.only hash tx' hp hnone

theorem mono {S' : Uint256 → Prop} (h : Removal C pool p S) (hS : ∀ hash, S hash → S' hash) :
    Removal C pool p S' :=
  { h with only := fun hash tx htx hnone => hS hash (h.only hash tx htx hnone) }

/-- A transaction that depends, through pool transactions, on a removed one is removed. -/
theorem closed_transGen (h : Removal C pool p S) {hash hash' : Uint256}
    (hdep : Relation.TransGen pool.Depends hash hash') (hnone : p.mapTx.lookup hash = none) :
    p.mapTx.lookup hash' = none := by
  induction hdep with
  | single hdep => exact h.closed _ _ hdep hnone
  | tail _ hdep ih => exact h.closed _ _ hdep ih

/-- A transaction outside of `S` stays. -/
theorem lookup_eq (h : Removal C pool p S) {hash : Uint256} (hS : ¬ S hash) :
    p.mapTx.lookup hash = pool.mapTx.lookup hash := by
  rcases hlook : pool.mapTx.lookup hash with _ | tx
  · rcases hp : p.mapTx.lookup hash with _ | tx
    · rfl
    · rw [h.sub hash tx hp] at hlook
      cases hlook
  · rcases hp : p.mapTx.lookup hash with _ | tx'
    · exact absurd (h.only hash tx hlook hp) hS
    · rw [← hlook, h.sub hash tx' hp]

end Removal

/-! ### Conflicts -/

/-- The pool transaction `hash` is another transaction than `tx` that spends an input of `tx`, or
depends on one. -/
def ConflictOf (pool : CTxMemPool) (tx : CTransaction) (hash : Uint256) : Prop :=
  ∃ hash' tx', tx' ≠ tx ∧ pool.mapTx.lookup hash' = some tx' ∧
    (∃ txin ∈ tx.vin, ∃ txin' ∈ tx'.vin, txin'.prevout = txin.prevout) ∧
    Relation.ReflTransGen pool.Depends hash' hash

theorem ConflictOf.of_sub (hsub : p.Sub pool) {tx : CTransaction} {hash : Uint256}
    (h : p.ConflictOf tx hash) : pool.ConflictOf tx hash := by
  obtain ⟨hash', tx', hne, htx', hspend, hdep⟩ := h
  exact ⟨hash', tx', hne, hsub _ _ htx', hspend,
    Relation.ReflTransGen.mono (fun _ _ => Depends.of_sub hsub) _ _ hdep⟩

/-- No transaction of the pool other than `tx` spends an outpoint of the inputs `l`. -/
def FreeOf (pool : CTxMemPool) (tx : CTransaction) (l : List CTxIn) : Prop :=
  ∀ hash tx', pool.mapTx.lookup hash = some tx' → tx' ≠ tx →
    ∀ txin ∈ l, ∀ txin' ∈ tx'.vin, txin'.prevout ≠ txin.prevout

theorem FreeOf.of_sub {tx : CTransaction} {l : List CTxIn} (h : pool.FreeOf tx l)
    (hsub : p.Sub pool) : p.FreeOf tx l := fun hash tx' htx' =>
  h hash tx' (hsub hash tx' htx')

theorem FreeOf.append {tx : CTransaction} {l l' : List CTxIn} (h : pool.FreeOf tx l)
    (h' : pool.FreeOf tx l') : pool.FreeOf tx (l ++ l') := by
  intro hash tx' htx' hne txin hmem
  rcases List.mem_append.mp hmem with hmem | hmem
  · exact h hash tx' htx' hne txin hmem
  · exact h' hash tx' htx' hne txin hmem

/-! ### The recursion -/

section Recursion

open Classical in
/-- The number of pool transactions that spend, through others, from `hash`: what bounds the depth
of the recursion of `remove`. -/
noncomputable def below (C : Crypto) (pool : CTxMemPool) (hash : Uint256) : Nat :=
  (pool.mapTx.keys.toFinset.filter fun hash' => Relation.TransGen (SpendsFrom C) hash hash').card

theorem below_lt (hacyclic : HashAcyclic C) (hsub : p.Sub pool) {hash hash' : Uint256}
    (hspend : SpendsFrom C hash hash') (hmem : (pool.mapTx.lookup hash').isSome) :
    below C p hash' < below C pool hash := by
  classical
  have hkeys : ∀ (q : CTxMemPool) (k : Uint256),
      k ∈ q.mapTx.keys.toFinset ↔ (q.mapTx.lookup k).isSome := fun q k => by
    rw [List.mem_toFinset, ← AList.mem_keys, AList.lookup_isSome]
  apply Finset.card_lt_card
  rw [Finset.ssubset_iff_of_subset]
  · -- `hash'` itself counts on the right and, without a cycle, not on the left
    refine ⟨hash', ?_, ?_⟩
    · rw [Finset.mem_filter, hkeys]
      exact ⟨hmem, .single hspend⟩
    · rw [Finset.mem_filter]
      exact fun h => hacyclic hash' h.2
  · intro k hk
    rw [Finset.mem_filter, hkeys] at hk ⊢
    obtain ⟨tx, htx⟩ := Option.isSome_iff_exists.mp hk.1
    exact ⟨Option.isSome_iff_exists.mpr ⟨tx, hsub k tx htx⟩, .head hspend hk.2⟩

theorem below_le (C : Crypto) (pool : CTxMemPool) (hash : Uint256) :
    below C pool hash ≤ pool.mapTx.entries.length := by
  classical
  refine (Finset.card_filter_le _ _).trans ((List.toFinset_card_le _).trans ?_)
  simp [AList.keys, List.keys]

variable (C) in
/-- The loop of `remove` over the outputs `l` of the transaction `hash`. -/
def removeOutputs (fuel : Nat) (hash : Uint256) (l : List Nat) (pool : CTxMemPool) : CTxMemPool :=
  l.foldl (fun p i =>
    match (p.mapNextTx.lookup ⟨hash, i⟩).bind fun inpoint => p.mapTx.lookup inpoint.1 with
    | none => p
    | some txNext => removeFuel C fuel txNext true p) pool

theorem removeFuel_succ (fuel : Nat) (tx : CTransaction) (pool : CTxMemPool)
    (h : (pool.mapTx.lookup (C.hashTx tx)).isSome) :
    removeFuel C (fuel + 1) tx true pool =
      (removeOutputs C fuel (C.hashTx tx) (List.range tx.vout.length) pool).eraseTx
        (C.hashTx tx) tx := by
  rw [removeFuel]
  simp only [h, if_true]
  rfl

variable (hacyclic : HashAcyclic C)
include hacyclic

/-- The loop over outputs: afterwards none of them is spent in the pool, and only transactions that
depend on `hash` are gone. `ih` is what the recursive calls do. -/
theorem removeOutputs_spec {fuel : Nat}
    (ih : ∀ {p : CTxMemPool} {tx : CTransaction}, p.Indexed C →
      p.mapTx.lookup (C.hashTx tx) = some tx → below C p (C.hashTx tx) < fuel →
      Removal C p (removeFuel C fuel tx true p)
          (Relation.ReflTransGen p.Depends (C.hashTx tx)) ∧
        (removeFuel C fuel tx true p).mapTx.lookup (C.hashTx tx) = none)
    {hash : Uint256} {tx : CTransaction} (htx : pool.mapTx.lookup hash = some tx)
    (hpool : pool.Indexed C) (hfuel : below C pool hash ≤ fuel) (l : List Nat)
    (hl : ∀ i ∈ l, i < tx.vout.length) :
    Removal C pool (removeOutputs C fuel hash l pool) (Relation.TransGen pool.Depends hash) ∧
      ∀ i ∈ l, (removeOutputs C fuel hash l pool).mapNextTx.lookup ⟨hash, i⟩ = none := by
  induction l using List.reverseRecOn with
  | nil => exact ⟨.refl hpool, by simp⟩
  | append_singleton l i ihl =>
    obtain ⟨hrem, hdone⟩ := ihl fun j hj => hl j (List.mem_append_left _ hj)
    have hstep : removeOutputs C fuel hash (l ++ [i]) pool =
        match ((removeOutputs C fuel hash l pool).mapNextTx.lookup ⟨hash, i⟩).bind
          fun inpoint => (removeOutputs C fuel hash l pool).mapTx.lookup inpoint.1 with
        | none => removeOutputs C fuel hash l pool
        | some txNext => removeFuel C fuel txNext true (removeOutputs C fuel hash l pool) := by
      rw [removeOutputs, List.foldl_append]
      rfl
    rw [hstep]
    generalize removeOutputs C fuel hash l pool = p at hrem hdone
    rcases hnext : p.mapNextTx.lookup ⟨hash, i⟩ with _ | ⟨hash', k⟩
    · simp only [hnext, Option.bind_none]
      refine ⟨hrem, fun j hj => ?_⟩
      rcases List.mem_append.mp hj with hj | hj
      · exact hdone j hj
      · rw [List.mem_singleton.mp hj]
        exact hnext
    · -- the spender found is a pool transaction that depends on `hash`
      obtain ⟨txNext, htxNext, hk⟩ := (hrem.indexed.next _ _ _).mp hnext
      have hname : C.hashTx txNext = hash' := hrem.indexed.named hash' txNext htxNext
      obtain ⟨txin, hin, hprev⟩ := exists_mem_of_prevoutAt hk
      have hdep : pool.Depends hash hash' :=
        ⟨tx, txNext, htx, hrem.sub _ _ htxNext, i, hl i (by simp), txin, hin, hprev⟩
      have hbelow : below C p (C.hashTx txNext) < fuel := by
        refine lt_of_lt_of_le ?_ hfuel
        rw [hname]
        exact below_lt hacyclic hrem.sub (hdep.spendsFrom hpool)
          (by rw [hrem.sub _ _ htxNext]; rfl)
      obtain ⟨hrec, hgone⟩ := ih hrem.indexed (hname.symm ▸ htxNext) hbelow
      simp only [hnext, Option.bind_some, htxNext]
      refine ⟨hrem.trans (hrec.mono ?_), fun j hj => ?_⟩
      · intro k' hk'
        rw [hname] at hk'
        exact Relation.TransGen.trans_left (.single hdep)
          (Relation.ReflTransGen.mono (fun _ _ => Depends.of_sub hrem.sub) _ _ hk')
      · rcases List.mem_append.mp hj with hj | hj
        · exact hrem.indexed.next_none_of_sub hrec.indexed hrec.sub (hdone j hj)
        · rw [List.mem_singleton.mp hj]
          rcases hlook : (removeFuel C fuel txNext true p).mapNextTx.lookup ⟨hash, i⟩ with
            _ | ⟨a, m⟩
          · exact hlook
          · -- the only transaction that spent it was just removed
            obtain ⟨tx', htx', hm⟩ := (hrec.indexed.next _ _ _).mp hlook
            obtain ⟨rfl, -⟩ := hrem.indexed.unique (hrec.sub _ _ htx') htxNext hm hk
            rw [hname, htx'] at hgone
            cases hgone

/-- **A recursive removal takes out the transaction and what depends on it, and nothing else**, when
the fuel is more than the number of transactions below it. -/
theorem Indexed.removeFuel_spec (fuel : Nat) {pool : CTxMemPool} {tx : CTransaction}
    (hpool : pool.Indexed C) (htx : pool.mapTx.lookup (C.hashTx tx) = some tx)
    (hfuel : below C pool (C.hashTx tx) < fuel) :
    Removal C pool (removeFuel C fuel tx true pool)
        (Relation.ReflTransGen pool.Depends (C.hashTx tx)) ∧
      (removeFuel C fuel tx true pool).mapTx.lookup (C.hashTx tx) = none := by
  induction fuel generalizing pool tx with
  | zero => exact absurd hfuel (Nat.not_lt_zero _)
  | succ fuel ih =>
    rw [removeFuel_succ fuel tx pool (by rw [htx]; rfl)]
    obtain ⟨hrem, hdone⟩ := removeOutputs_spec hacyclic ih htx hpool (Nat.le_of_lt_succ hfuel)
      (List.range tx.vout.length) (fun i hi => List.mem_range.mp hi)
    generalize removeOutputs C fuel (C.hashTx tx) (List.range tx.vout.length) pool = p
      at hrem hdone
    -- the loop does not reach the transaction itself
    have hstill : p.mapTx.lookup (C.hashTx tx) = some tx := by
      rw [← htx]
      refine hrem.lookup_eq fun hcycle => ?_
      exact hacyclic (C.hashTx tx)
        (Relation.TransGen.mono (fun _ _ hdep => Depends.spendsFrom hpool hdep) _ _ hcycle)
    have herased : ∀ {k : Uint256}, k ≠ C.hashTx tx →
        (p.eraseTx (C.hashTx tx) tx).mapTx.lookup k = p.mapTx.lookup k := fun hk =>
      AList.lookup_erase_ne hk
    have hgone : (p.eraseTx (C.hashTx tx) tx).mapTx.lookup (C.hashTx tx) = none :=
      AList.lookup_erase _ _
    refine ⟨⟨hrem.indexed.eraseTx hstill, ?_, ?_, ?_⟩, hgone⟩
    · intro k tx' hk
      by_cases hkey : k = C.hashTx tx
      · rw [hkey, hgone] at hk
        cases hk
      · exact hrem.sub k tx' (herased hkey ▸ hk)
    · intro a b hdep hnone
      by_cases hb : b = C.hashTx tx
      · rw [hb]
        exact hgone
      rw [herased hb]
      by_cases ha : a = C.hashTx tx
      · -- a spender of an output of the transaction would be in the index
        subst ha
        obtain ⟨tx₁, tx₂, h₁, h₂, n, hn, txin, hin, hprev⟩ := hdep
        rw [htx, Option.some.injEq] at h₁
        subst h₁
        rcases hlook : p.mapTx.lookup b with _ | tx'
        · rfl
        · have hsame : tx' = tx₂ := Option.some.inj ((hrem.sub _ _ hlook).symm.trans h₂)
          subst hsame
          obtain ⟨i, hi⟩ := hrem.indexed.next_of_mem hlook hin
          rw [hprev, hdone n (List.mem_range.mpr hn)] at hi
          cases hi
      · exact hrem.closed a b hdep (herased ha ▸ hnone)
    · intro k tx' hk hnone
      by_cases hkey : k = C.hashTx tx
      · rw [hkey]
      · exact (hrem.only k tx' hk (herased hkey ▸ hnone)).to_reflTransGen

/-- `remove` of a pool transaction, with its dependents. -/
theorem Indexed.remove_spec (hpool : pool.Indexed C) {tx : CTransaction}
    (htx : pool.mapTx.lookup (C.hashTx tx) = some tx) :
    Removal C pool (pool.remove C tx true) (Relation.ReflTransGen pool.Depends (C.hashTx tx)) ∧
      (pool.remove C tx true).mapTx.lookup (C.hashTx tx) = none :=
  hpool.removeFuel_spec hacyclic _ htx (Nat.lt_succ_of_le (below_le C pool _))

variable (C) in
/-- One round of `removeConflicts`, for the input `txin` of `tx`. -/
def conflictStep (tx : CTransaction) (p : CTxMemPool) (txin : CTxIn) : CTxMemPool :=
  match (p.mapNextTx.lookup txin.prevout).bind fun inpoint => p.mapTx.lookup inpoint.1 with
  | none => p
  | some txConflict => if txConflict = tx then p else p.remove C txConflict true

/-- One round leaves no other transaction that spends the outpoint. -/
theorem Indexed.conflictStep_spec (hp : p.Indexed C) {tx : CTransaction} {txin : CTxIn}
    (hin : txin ∈ tx.vin) :
    Removal C p (conflictStep C tx p txin) (p.ConflictOf tx) ∧
      (conflictStep C tx p txin).FreeOf tx [txin] := by
  -- a transaction that spends the outpoint is the one the index names
  have hfound : ∀ {hash tx'}, p.mapTx.lookup hash = some tx' → ∀ txin' ∈ tx'.vin,
      txin'.prevout = txin.prevout → ∃ i, p.mapNextTx.lookup txin.prevout = some (hash, i) := by
    intro hash tx' htx' txin' hin' heq
    rw [← heq]
    exact hp.next_of_mem htx' hin'
  unfold conflictStep
  rcases hnext : p.mapNextTx.lookup txin.prevout with _ | ⟨hash, i⟩
  · simp only [Option.bind_none]
    refine ⟨.refl hp, fun hash tx' htx' _ txin₁ hmem txin' hin' heq => ?_⟩
    rw [List.mem_singleton.mp hmem] at heq
    obtain ⟨i, hi⟩ := hfound htx' txin' hin' heq
    rw [hnext] at hi
    cases hi
  · obtain ⟨txConflict, hconf, hi⟩ := (hp.next _ _ _).mp hnext
    -- so it is `txConflict`
    have hsame : ∀ {hash' tx'}, p.mapTx.lookup hash' = some tx' → ∀ txin' ∈ tx'.vin,
        txin'.prevout = txin.prevout → hash' = hash ∧ tx' = txConflict := by
      intro hash' tx' htx' txin' hin' heq
      obtain ⟨i', hi'⟩ := hfound htx' txin' hin' heq
      rw [hnext, Option.some.injEq, Prod.mk.injEq] at hi'
      rw [← hi'.1, hconf] at htx'
      exact ⟨hi'.1.symm, (Option.some.inj htx').symm⟩
    simp only [Option.bind_some, hconf]
    split
    · rename_i hself
      refine ⟨.refl hp, fun hash' tx' htx' hne txin₁ hmem txin' hin' heq => hne ?_⟩
      rw [List.mem_singleton.mp hmem] at heq
      exact (hsame htx' txin' hin' heq).2.trans hself
    · rename_i hself
      have hname : C.hashTx txConflict = hash := hp.named hash txConflict hconf
      obtain ⟨hrem, hgone⟩ := hp.remove_spec hacyclic (hname.symm ▸ hconf)
      obtain ⟨txin', hin', heq'⟩ := exists_mem_of_prevoutAt hi
      constructor
      · refine hrem.mono fun k hk => ?_
        exact ⟨hash, txConflict, hself, hconf, ⟨txin, hin, txin', hin', heq'⟩, hname ▸ hk⟩
      · intro hash' tx' htx' _ txin₁ hmem txin₂ hin₂ heq
        rw [List.mem_singleton.mp hmem] at heq
        obtain ⟨rfl, rfl⟩ := hsame (hrem.sub _ _ htx') txin₂ hin₂ heq
        rw [hname, htx'] at hgone
        cases hgone

/-- **`removeConflicts` leaves no other transaction that spends an input of `tx`**, and takes out
only such transactions and what depends on them. -/
theorem Indexed.removeConflicts_spec (hpool : pool.Indexed C) (tx : CTransaction) :
    Removal C pool (pool.removeConflicts C tx) (pool.ConflictOf tx) ∧
      (pool.removeConflicts C tx).FreeOf tx tx.vin := by
  have hloop : ∀ l : List CTxIn, l ⊆ tx.vin →
      Removal C pool (l.foldl (conflictStep C tx) pool) (pool.ConflictOf tx) ∧
        (l.foldl (conflictStep C tx) pool).FreeOf tx l := by
    intro l hl
    induction l using List.reverseRecOn with
    | nil => exact ⟨.refl hpool, by simp [FreeOf]⟩
    | append_singleton l txin ih =>
      obtain ⟨hrem, hfree⟩ := ih fun x hx => hl (List.mem_append_left _ hx)
      rw [List.foldl_append, List.foldl_cons, List.foldl_nil]
      generalize l.foldl (conflictStep C tx) pool = p at hrem hfree
      obtain ⟨hstep, hlast⟩ := hrem.indexed.conflictStep_spec hacyclic (hl (by simp) : txin ∈ tx.vin)
      exact ⟨hrem.trans (hstep.mono fun _ => ConflictOf.of_sub hrem.sub),
        (hfree.of_sub hstep.sub).append hlast⟩
  exact hloop tx.vin (List.Subset.refl _)

end Recursion

theorem Indexed.remove_false (hpool : pool.Indexed C) {tx : CTransaction}
    (htx : pool.mapTx.lookup (C.hashTx tx) = some tx) : (pool.remove C tx false).Indexed C := by
  have herase : pool.remove C tx false = pool.eraseTx (C.hashTx tx) tx := by
    simp [remove, removeFuel, htx]
  rw [herase]
  exact hpool.eraseTx htx

end CTxMemPool

/-! ## Runs of pool operations -/

open CTxMemPool

variable {C}

theorem CTransaction.nodup_of_checkTransaction {tx : CTransaction}
    (h : tx.checkTransaction = true) : (tx.vin.map CTxIn.prevout).Nodup := by
  unfold CTransaction.checkTransaction at h
  simp only [Bool.and_eq_true, decide_eq_true_eq] at h
  exact h.1.2

/-- `accept` keeps the index exact. -/
theorem CTxMemPool.Indexed.accept {env : Env} {s : NodeState} (h : s.mempool.Indexed C)
    (tx : CTransaction) (fCheckInputs : Bool) :
    (s.acceptToMemoryPool C env tx fCheckInputs).2.2.mempool.Indexed C := by
  rw [NodeState.acceptToMemoryPool_state]
  split
  · rename_i hok
    obtain ⟨hadm, -⟩ := (NodeState.acceptToMemoryPool_fst_iff C env).mp hok
    apply h.addUnchecked (CTransaction.nodup_of_checkTransaction hadm.checked) hadm.noConflict
    intro tx' htx'
    rw [hadm.notInPool] at htx'
    cases htx'
  · exact h

variable (C) in
/-- One operation on the memory pool. `accept` is called on a node whose pool it is; a transaction
is removed only when it is in the pool, and added without checks only under its own hash, when its
inputs are distinct and spent by no pool transaction. -/
inductive PoolStep : CTxMemPool → CTxMemPool → Prop
  | accept (env : Env) (s : NodeState) (tx : CTransaction) (fCheckInputs : Bool) :
    PoolStep s.mempool (s.acceptToMemoryPool C env tx fCheckInputs).2.2.mempool
  | addUnchecked (pool : CTxMemPool) (tx : CTransaction)
    (hnodup : (tx.vin.map CTxIn.prevout).Nodup)
    (hfree : ∀ txin ∈ tx.vin, pool.mapNextTx.lookup txin.prevout = none) :
    PoolStep pool (pool.addUnchecked (C.hashTx tx) tx)
  | remove (pool : CTxMemPool) (tx : CTransaction) (fRecursive : Bool)
    (hmem : pool.mapTx.lookup (C.hashTx tx) = some tx) :
    PoolStep pool (pool.remove C tx fRecursive)
  | removeConflicts (pool : CTxMemPool) (tx : CTransaction) :
    PoolStep pool (pool.removeConflicts C tx)
  | clear (pool : CTxMemPool) : PoolStep pool pool.clear

variable (C) in
/-- The pools reached from the empty one by a sequence of operations. -/
def PoolReached (pool : CTxMemPool) : Prop := Relation.ReflTransGen (PoolStep C) ⟨∅, ∅⟩ pool

section Run

variable (hinj : Function.Injective C.hashTx) (hacyclic : HashAcyclic C) {pool p : CTxMemPool}
include hinj hacyclic

theorem PoolStep.indexed (hstep : PoolStep C pool p) (h : pool.Indexed C) : p.Indexed C := by
  cases hstep with
  | accept env s tx fCheckInputs => exact h.accept tx fCheckInputs
  | addUnchecked _ tx hnodup hfree =>
    exact h.addUnchecked hnodup hfree fun tx' htx' => hinj (h.named _ tx' htx')
  | remove _ tx fRecursive hmem =>
    cases fRecursive
    · exact h.remove_false hmem
    · exact (h.remove_spec hacyclic hmem).1.indexed
  | removeConflicts _ tx => exact (h.removeConflicts_spec hacyclic tx).1.indexed
  | clear => exact .clear pool

theorem PoolReached.indexed (h : PoolReached C pool) : pool.Indexed C := by
  induction h with
  | refl => exact Indexed.clear ⟨∅, ∅⟩
  | tail _ hstep ih => exact hstep.indexed hinj hacyclic ih

/-- **After any sequence of pool operations `mapNextTx` is the index of the inputs of `mapTx`, and a
recursive removal leaves nothing that depends on the removed transaction.** -/
theorem poolReached_indexed_and_remove (h : PoolReached C pool) :
    (∀ o hash i, pool.mapNextTx.lookup o = some (hash, i) ↔
      ∃ tx, pool.mapTx.lookup hash = some tx ∧ prevoutAt tx i = some o) ∧
    (∀ hash hash' tx tx' txin txin', pool.mapTx.lookup hash = some tx →
      pool.mapTx.lookup hash' = some tx' → txin ∈ tx.vin → txin' ∈ tx'.vin →
      txin.prevout = txin'.prevout → hash = hash') ∧
    ∀ tx, pool.mapTx.lookup (C.hashTx tx) = some tx → ∀ hash,
      Relation.ReflTransGen pool.Depends (C.hashTx tx) hash →
      (pool.remove C tx true).mapTx.lookup hash = none := by
  have hpool := h.indexed hinj hacyclic
  refine ⟨hpool.next, ?_, ?_⟩
  · intro hash hash' tx tx' txin txin' htx htx' hin hin' heq
    obtain ⟨i, hi⟩ := exists_prevoutAt hin
    obtain ⟨j, hj⟩ := exists_prevoutAt hin'
    exact (hpool.unique htx htx' hi (heq ▸ hj)).1
  · intro tx htx hash hdep
    obtain ⟨hrem, hgone⟩ := hpool.remove_spec hacyclic htx
    rcases Relation.reflTransGen_iff_eq_or_transGen.mp hdep with rfl | hdep
    · exact hgone
    · exact hrem.closed_transGen hdep hgone

end Run

/-! ### Samples -/

/-- A transaction with one input per outpoint and one output. -/
def poolTx (spent : List COutPoint) : CTransaction where
  nVersion := 1
  nTime := 0
  vin := spent.map fun o => ⟨o, [], 0⟩
  vout := [⟨COIN, []⟩]
  nLockTime := 0

theorem lt_hashTx_poolTx (o : COutPoint) : o.hash < (rankedCrypto [] []).hashTx (poolTx [o]) :=
  lt_hashTx_rankedCrypto (show ⟨o, [], 0⟩ ∈ (poolTx [o]).vin by simp [poolTx])

/-- A transaction that spends the output of `poolTx [⟨7, 0⟩]`. -/
noncomputable def childTx : CTransaction :=
  poolTx [⟨(rankedCrypto [] []).hashTx (poolTx [⟨7, 0⟩]), 0⟩]

/-- The pool of a transaction and the one that spends its output. -/
noncomputable def chainPool : CTxMemPool :=
  CTxMemPool.addUnchecked ((rankedCrypto [] []).hashTx childTx) childTx
    (CTxMemPool.addUnchecked ((rankedCrypto [] []).hashTx (poolTx [⟨7, 0⟩])) (poolTx [⟨7, 0⟩])
      ⟨∅, ∅⟩)

theorem poolReached_chainPool : PoolReached (rankedCrypto [] []) chainPool := by
  refine .tail (.tail .refl (.addUnchecked _ (poolTx [⟨7, 0⟩]) (by simp [poolTx]) (by simp)))
    (.addUnchecked _ childTx (by simp [childTx, poolTx]) ?_)
  intro txin hin
  obtain rfl : txin = ⟨⟨(rankedCrypto [] []).hashTx (poolTx [⟨7, 0⟩]), 0⟩, [], 0⟩ := by
    simpa [childTx, poolTx] using hin
  exact AList.lookup_insert_ne fun h =>
    (lt_hashTx_poolTx ⟨7, 0⟩).ne' (congrArg COutPoint.hash h)

theorem lookup_chainPool :
    chainPool.mapTx.lookup ((rankedCrypto [] []).hashTx (poolTx [⟨7, 0⟩])) =
        some (poolTx [⟨7, 0⟩]) ∧
      chainPool.mapTx.lookup ((rankedCrypto [] []).hashTx childTx) = some childTx := by
  refine ⟨?_, AList.lookup_insert _⟩
  exact (AList.lookup_insert_ne (lt_hashTx_poolTx _).ne).trans (AList.lookup_insert _)

theorem poolReached_indexed_and_remove_chainPool :
    PoolReached (rankedCrypto [] []) chainPool ∧
      (chainPool.remove (rankedCrypto [] []) (poolTx [⟨7, 0⟩]) true).mapTx.lookup
        ((rankedCrypto [] []).hashTx childTx) = none := by
  obtain ⟨hparent, hchild⟩ := lookup_chainPool
  refine ⟨poolReached_chainPool, ?_⟩
  refine (poolReached_indexed_and_remove (rankedCrypto_hashInjective [] []).hashTx
    (rankedCrypto_hashAcyclic [] []) poolReached_chainPool).2.2 _ hparent _ (.single ?_)
  exact ⟨_, _, hparent, hchild, 0, by simp [poolTx], ⟨⟨_, 0⟩, [], 0⟩,
    by simp [childTx, poolTx], rfl⟩

/-- The empty pool after `addUnchecked` of a transaction that has an outpoint twice. -/
noncomputable def duplicatePool : CTxMemPool :=
  CTxMemPool.addUnchecked ((rankedCrypto [] []).hashTx (poolTx [⟨7, 0⟩, ⟨7, 0⟩]))
    (poolTx [⟨7, 0⟩, ⟨7, 0⟩]) ⟨∅, ∅⟩

/-- The outpoint is in no `mapNextTx` before, and afterwards the first of the two inputs is missing
there. -/
theorem not_next_duplicatePool :
    (∀ txin ∈ (poolTx [⟨7, 0⟩, ⟨7, 0⟩]).vin,
        (⟨∅, ∅⟩ : CTxMemPool).mapNextTx.lookup txin.prevout = none) ∧
      ¬ ∀ o hash i, duplicatePool.mapNextTx.lookup o = some (hash, i) ↔
        ∃ tx, duplicatePool.mapTx.lookup hash = some tx ∧ prevoutAt tx i = some o := by
  refine ⟨fun _ _ => rfl, fun h => ?_⟩
  have hfirst := (h ⟨7, 0⟩ _ 0).mpr ⟨poolTx [⟨7, 0⟩, ⟨7, 0⟩], AList.lookup_insert _, rfl⟩
  have hlast : duplicatePool.mapNextTx.lookup ⟨7, 0⟩ =
      some ((rankedCrypto [] []).hashTx (poolTx [⟨7, 0⟩, ⟨7, 0⟩]), 1) := AList.lookup_insert _
  rw [hlast] at hfirst
  simp at hfirst

end MotaCoin
