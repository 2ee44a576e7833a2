import MotaCoin.KeyPool
import MotaCoin.Lib.Lease

/-!
# Reservations from the key pool

The key pool is a pool of leases, as long as no index is put into it that somebody holds. Indices
are allocated from the set alone, where those that are reserved no longer are, so that this is a
condition on the calls.

## Main definitions

* `KeyPoolRun.lease`: the pool of leases
* `KeyPoolRun.CallOK`: a call puts no index into the set that is held or has no record
* `KeyPoolRun.PoolInv`: what such calls keep

## Main results

* `keyPool_safe`: the key pool is safe in a run of such calls
-/

namespace MotaCoin

namespace KeyPoolRun

variable {env : KeyPoolEnv} {n : Nat} {st : KeyPoolRun}

/-- The key pool as a pool of leases; a caller of `GetKeyFromPool` is the holder `none`, and has
nothing between calls. -/
def lease (st : KeyPoolRun) : Lease.State Int (Option Nat) Valtype where
  avail := st.wallet.setKeyPool
  held h := h.bind fun h => if (st.holders h).nIndex = -1 then none else some (st.holders h).nIndex
  content := st.wallet.records
  used := {vchPubKey | .kept vchPubKey ∈ st.log}

/-- How many of `n` records are written, from that of the `k`-th key on, before one is not. -/
def writtenFrom (env : KeyPoolEnv) : Nat → Nat → Nat
  | _, 0 => 0
  | k, n + 1 => if env.fWritten k then writtenFrom env (k + 1) n + 1 else 0

/-- Nobody holds one of the `n` indices from `nBegin` on. -/
def NoneHeld (st : KeyPoolRun) (nBegin : Int) (n : Nat) : Prop :=
  ∀ h, ¬(nBegin ≤ (st.holders h).nIndex ∧ (st.holders h).nIndex < nBegin + n)

/-- Nobody holds an index that `TopUpKeyPool` puts into the set. -/
def TopUpOK (env : KeyPoolEnv) (nSize : Nat) (st : KeyPoolRun) : Prop :=
  st.wallet.fLocked = false → st.NoneHeld st.wallet.nEnd
    (writtenFrom env st.wallet.nGenerated (st.wallet.topUpRounds env nSize))

/-- A call puts no index into the set that somebody holds, and none without its record. -/
def CallOK (env : KeyPoolEnv) (st : KeyPoolRun) : PoolCall → Prop
  | .newKeyPool => st.wallet.fLocked = false →
    st.NoneHeld 1 (max env.keyPoolArg 0).toNat ∧
      ∀ n < (max env.keyPoolArg 0).toNat, env.fWritten (st.wallet.nGenerated + n) = true
  | .topUpKeyPool nSize => st.TopUpOK env nSize
  | .getReservedKey h => (st.holders h).nIndex = -1 → st.TopUpOK env 0
  | .getKeyFromPool _ => st.TopUpOK env 0
  | .keepKey _ | .returnKey _ | .setLocked _ => True

/-- Every call of a run is such a call. -/
def CallsOK (env : KeyPoolEnv) : KeyPoolRun → List PoolCall → Prop
  | _, [] => True
  | st, c :: calls => st.CallOK env c ∧ CallsOK env (st.call env c) calls

/-- No key is handed out after it was kept. -/
def LogFresh (log : List PoolEvent) : Prop :=
  ∀ l₁ vchPubKey l₂, log = l₁ ++ .handedOut vchPubKey :: l₂ → .kept vchPubKey ∉ l₁

/-- A safe pool of leases whose keys are known, and not the default key; the holders have the keys
of their records, and what was kept is not among the keys up to the `n`-th that are still
generated. -/
structure PoolInv (env : KeyPoolEnv) (n : Nat) (st : KeyPoolRun) : Prop where
  safe : st.lease.Safe
  pos : ∀ i, st.lease.Live i → 0 < i
  holder : ∀ h, (st.holders h).nIndex ≠ -1 →
    st.wallet.records (st.holders h).nIndex = some (st.holders h).vchPubKey
  known : ∀ i vchPubKey, st.lease.Live i → st.wallet.records i = some vchPubKey →
    vchPubKey ∈ st.wallet.keys ∧ isValidPubKey vchPubKey = true ∧ vchPubKey ≠ st.wallet.vchDefaultKey
  kept : ∀ vchPubKey, .kept vchPubKey ∈ st.log →
    vchPubKey ∈ st.wallet.keys ∧ vchPubKey ≠ st.wallet.vchDefaultKey
  fresh : env.Fresh st.wallet n
  log : LogFresh st.log

theorem lease_held {h : Option Nat} {i : Int} (hheld : st.lease.held h = some i) :
    ∃ h', h = some h' ∧ (st.holders h').nIndex = i ∧ i ≠ -1 := by
  cases h with
  | none => cases hheld
  | some h' =>
    change (if (st.holders h').nIndex = -1 then none else some (st.holders h').nIndex) = some i
      at hheld
    split at hheld
    · cases hheld
    · next hne =>
      obtain rfl := Option.some.inj hheld
      exact ⟨h', rfl, rfl, hne⟩

theorem lease_held_some {h : Nat} (hne : (st.holders h).nIndex ≠ -1) :
    st.lease.held (some h) = some (st.holders h).nIndex := if_neg hne

/-- What is safe as a pool of leases is safe as a key pool. -/
theorem PoolInv.poolSafe (hinv : PoolInv env n st) : st.PoolSafe := by
  constructor
  · intro nIndex hmem
    exact hinv.safe.filled nIndex (.inl hmem)
  · intro h h' hne heq
    have hheld' : st.lease.held (some h') = some (st.holders h).nIndex := by
      rw [lease_held_some (heq ▸ hne), heq]
    exact Option.some.inj (hinv.safe.held_inj _ _ _ (lease_held_some hne) hheld')
  · exact hinv.log

/-- Where nothing becomes live and no key is generated, only the holders and the log are to be looked
at. -/
theorem PoolInv.of_live (hinv : PoolInv env n st) {st' : KeyPoolRun} (hsafe : st'.lease.Safe)
    (hlive : ∀ i, st'.lease.Live i →
      st.lease.Live i ∧ st'.wallet.records i = st.wallet.records i)
    (hholder : ∀ h, (st'.holders h).nIndex ≠ -1 →
      st'.wallet.records (st'.holders h).nIndex = some (st'.holders h).vchPubKey)
    (hkept : ∀ vchPubKey, .kept vchPubKey ∈ st'.log →
      vchPubKey ∈ st.wallet.keys ∧ vchPubKey ≠ st.wallet.vchDefaultKey)
    (hlog : LogFresh st'.log) (hkeys : st'.wallet.keys = st.wallet.keys)
    (hdefault : st'.wallet.vchDefaultKey = st.wallet.vchDefaultKey)
    (hnGenerated : st'.wallet.nGenerated = st.wallet.nGenerated) : PoolInv env n st' := by
  constructor
  · exact hsafe
  · exact fun i hi => hinv.pos i (hlive i hi).1
  · exact hholder
  · intro i vchPubKey hi hrecord
    rw [hkeys, hdefault]
    exact hinv.known i vchPubKey (hlive i hi).1 ((hlive i hi).2 ▸ hrecord)
  · rw [hkeys, hdefault]
    exact hkept
  · constructor
    · rw [hnGenerated]
      exact hinv.fresh.ne
    · rw [hnGenerated]
      exact hinv.fresh.isValid
    · rw [hkeys, hnGenerated]
      exact hinv.fresh.not_mem
    · rw [hdefault, hnGenerated]
      exact hinv.fresh.ne_default
  · exact hlog

/-! ## What is seen -/

theorem LogFresh.append {log : List PoolEvent} {e : PoolEvent} (hlog : LogFresh log)
    (he : ∀ vchPubKey, e = .handedOut vchPubKey → .kept vchPubKey ∉ log) : LogFresh (log ++ [e]) := by
  intro l₁ vchPubKey l₂ heq
  rcases List.eq_nil_or_concat l₂ with rfl | ⟨l, e', rfl⟩
  · obtain ⟨rfl, hlast⟩ := List.append_inj' heq rfl
    exact he vchPubKey (List.cons.inj hlast).1
  · rw [List.concat_eq_append, ← List.cons_append, ← List.append_assoc] at heq
    obtain ⟨hinit, -⟩ := List.append_inj' heq rfl
    exact hlog l₁ vchPubKey l hinit

/-- Something is seen that is not a key that is kept. -/
theorem PoolInv.seen (hinv : PoolInv env n st) {e : PoolEvent} (hkept : ∀ k, e ≠ .kept k)
    (he : ∀ vchPubKey, e = .handedOut vchPubKey → .kept vchPubKey ∉ st.log) :
    PoolInv env n (st.seen [e]) := by
  have hlease : (st.seen [e]).lease = st.lease := by
    have hused : {k | PoolEvent.kept k ∈ st.log ++ [e]} = {k | PoolEvent.kept k ∈ st.log} := by
      ext k
      simp [(hkept k).symm]
    rw [lease, lease, KeyPoolRun.seen]
    simp only [hused]
  refine hinv.of_live (hlease ▸ hinv.safe) (fun i hi => ⟨hlease ▸ hi, rfl⟩) hinv.holder ?_
    (hinv.log.append he) rfl rfl rfl
  intro k hk
  refine hinv.kept k ((List.mem_append.1 hk).resolve_right fun hmem => ?_)
  exact hkept k (List.mem_singleton.1 hmem).symm

theorem PoolInv.threw (hinv : PoolInv env n st) : PoolInv env n (st.seen [.threw]) :=
  hinv.seen (fun _ => nofun) fun _ => nofun

/-! ## Keys are generated -/

/-- A key is generated, which is not put into the pool. -/
theorem PoolInv.generate (hinv : PoolInv env n st) :
    PoolInv env n { st with wallet := { st.wallet with
      keys := env.generateNewKey st.wallet.nGenerated :: st.wallet.keys
      nGenerated := st.wallet.nGenerated + 1 } } where
  safe := hinv.safe
  pos := hinv.pos
  holder := hinv.holder
  known i k hi hk :=
    have hknown := hinv.known i k hi hk
    ⟨List.mem_cons_of_mem _ hknown.1, hknown.2⟩
  kept k hk := ⟨List.mem_cons_of_mem _ (hinv.kept k hk).1, (hinv.kept k hk).2⟩
  fresh :=
    { ne := fun i j hi => hinv.fresh.ne i j (Nat.le_of_succ_le hi)
      isValid := fun i hi => hinv.fresh.isValid i (Nat.le_of_succ_le hi)
      not_mem := by
        intro i hi hin hmem
        rcases List.mem_cons.1 hmem with heq | hmem
        · exact hinv.fresh.ne _ i le_rfl hi hin heq.symm
        · exact hinv.fresh.not_mem i (Nat.le_of_succ_le hi) hin hmem
      ne_default := fun i hi => hinv.fresh.ne_default i (Nat.le_of_succ_le hi) }
  log := hinv.log

theorem writeNewKey_of_written {w : PoolWallet} (hw : env.fWritten w.nGenerated = true) (i : Int) :
    w.writeNewKey env i = (true, { w with
      records := Function.update w.records i (some (env.generateNewKey w.nGenerated))
      keys := env.generateNewKey w.nGenerated :: w.keys
      nGenerated := w.nGenerated + 1 }) := by
  rw [PoolWallet.writeNewKey]
  simp only [hw, if_true]

theorem writeNewKey_of_not_written {w : PoolWallet} (hw : env.fWritten w.nGenerated = false)
    (i : Int) : w.writeNewKey env i = (false, { w with
      keys := env.generateNewKey w.nGenerated :: w.keys
      nGenerated := w.nGenerated + 1 }) := by
  rw [PoolWallet.writeNewKey]
  simp only [hw, Bool.false_eq_true, if_false]

/-- A key is generated and put into the pool, at an index that nobody holds. -/
theorem PoolInv.addKey (hinv : PoolInv env n st) {i : Int} (hpos : 0 < i)
    (hheld : ∀ h, (st.holders h).nIndex ≠ i) (hmem : i ∉ st.wallet.setKeyPool)
    (hw : env.fWritten st.wallet.nGenerated = true) (hn : st.wallet.nGenerated < n) :
    PoolInv env n { st with wallet := (st.wallet.writeNewKey env i).2.insertIndex i } := by
  rw [writeNewKey_of_written hw]
  set k := env.generateNewKey st.wallet.nGenerated
  have hk : k ∉ st.wallet.keys := hinv.fresh.not_mem _ le_rfl hn
  have hgen := hinv.generate
  set st' : KeyPoolRun := { st with wallet := _ } with hst'
  have hlease : st'.lease = st.lease.add i k := by
    rw [lease, lease, Lease.State.add]
    simp only [hst', PoolWallet.insertIndex, Finset.coe_insert]
  have hlive {j : Int} (hj : st'.lease.Live j) : j = i ∨ st.lease.Live j := by
    rw [hlease] at hj
    rcases hj with (hj | hj) | hj
    · exact .inl hj
    · exact .inr (.inl hj)
    · exact .inr (.inr hj)
  have hne {j : Int} (hj : j ≠ i) : st'.wallet.records j = st.wallet.records j :=
    Function.update_of_ne hj _ _
  exact {
    safe := by
      rw [hlease]
      refine hinv.safe.add ?_ hmem (fun hused => hk (hinv.kept k hused).1) ?_
      · intro h hh
        obtain ⟨h', -, hi, -⟩ := lease_held hh
        exact hheld h' hi
      · intro j hj hcontent
        exact hk (hinv.known j k hj hcontent).1
    pos := by
      intro j hj
      rcases hlive hj with rfl | hj
      · exact hpos
      · exact hinv.pos j hj
    holder := by
      intro h hh
      rw [hne (hheld h)]
      exact hinv.holder h hh
    known := by
      intro j k' hj hcontent
      by_cases hji : j = i
      · have hadded : st'.wallet.records j = some k := by
          rw [hji]
          exact Function.update_self _ _ _
        obtain rfl := Option.some.inj (hadded.symm.trans hcontent)
        exact ⟨List.mem_cons_self, hinv.fresh.isValid _ le_rfl hn, hinv.fresh.ne_default _ le_rfl hn⟩
      · rw [hne hji] at hcontent
        exact hgen.known j k' ((hlive hj).resolve_left hji) hcontent
    kept := hgen.kept
    fresh := ⟨hgen.fresh.ne, hgen.fresh.isValid, hgen.fresh.not_mem, hgen.fresh.ne_default⟩
    log := hgen.log }

/-! ## Keys are added -/

theorem le_newKeyLoop (env : KeyPoolEnv) (is : List Nat) (w : PoolWallet) :
    w.nGenerated ≤ (PoolWallet.newKeyLoop env is w).nGenerated := by
  induction is generalizing w with
  | nil => exact le_rfl
  | cons i is ih =>
    exact (Nat.le_succ _).trans (ih ((w.writeNewKey env (i + 1)).2.insertIndex (i + 1)))

/-- The loop of `NewKeyPool`, from `k` on, where all records are written. -/
theorem PoolInv.newKeyLoop {m k : Nat} (hinv : PoolInv env n st)
    (hheld : st.NoneHeld (k + 1) m) (hmem : ∀ i ∈ st.wallet.setKeyPool, i ≤ k)
    (hw : ∀ j < m, env.fWritten (st.wallet.nGenerated + j) = true)
    (hn : (PoolWallet.newKeyLoop env (List.range' k m) st.wallet).nGenerated ≤ n) :
    PoolInv env n { st with wallet := PoolWallet.newKeyLoop env (List.range' k m) st.wallet } := by
  induction m generalizing k st with
  | zero => exact hinv
  | succ m ih =>
    rw [List.range'_succ, PoolWallet.newKeyLoop] at hn ⊢
    have hlt := (le_newKeyLoop env _ _).trans hn
    have hadd := hinv.addKey (Int.lt_add_one_of_le (Int.natCast_nonneg k))
      (fun h heq => hheld h ⟨heq.ge, by omega⟩) (fun hk => absurd (hmem _ hk) (by omega))
      (hw 0 (Nat.succ_pos m)) hlt
    refine ih hadd ?_ ?_ ?_ hn
    · rintro h ⟨hle, hlt⟩
      exact hheld h ⟨by push_cast at hle; omega, by push_cast at hlt ⊢; omega⟩
    · intro i hi
      rcases Finset.mem_insert.1 hi with rfl | hi
      · push_cast
        exact le_rfl
      · have := hmem i hi
        push_cast
        omega
    · intro j hj
      have := hw (j + 1) (Nat.succ_lt_succ hj)
      rw [Nat.add_left_comm, Nat.add_comm] at this
      exact this

/-- The set is emptied; the records of what is held are not in it, and stay. -/
theorem PoolInv.clearPool (hinv : PoolInv env n st) :
    PoolInv env n { st with wallet := st.wallet.clearPool } := by
  set st' : KeyPoolRun := { st with wallet := st.wallet.clearPool } with hst'
  have hlease : st'.lease = st.lease.drop st'.wallet.records := by
    rw [lease, lease, Lease.State.drop]
    simp only [hst', PoolWallet.clearPool, Finset.coe_empty]
  have hlive {i : Int} (hi : st'.lease.Live i) : ∃ h, st.lease.held h = some i :=
    (hlease ▸ hi).resolve_left (Set.notMem_empty i)
  have hsame (h : Option Nat) (i : Int) (hh : st.lease.held h = some i) :
      st'.wallet.records i = st.wallet.records i := if_neg (hinv.safe.not_avail h i hh)
  refine hinv.of_live (hlease ▸ hinv.safe.drop hsame) ?_ ?_ hinv.kept hinv.log rfl rfl rfl
  · intro i hi
    obtain ⟨h, hh⟩ := hlive hi
    exact ⟨.inr ⟨h, hh⟩, hsame h i hh⟩
  · exact fun h hne => (hsame _ _ (lease_held_some hne)).trans (hinv.holder h hne)

theorem PoolInv.newKeyPool (hinv : PoolInv env n st) (hok : st.CallOK env .newKeyPool)
    (hn : (st.wallet.newKeyPool env).nGenerated ≤ n) :
    PoolInv env n { st with wallet := st.wallet.newKeyPool env } := by
  have hclear := hinv.clearPool
  by_cases hlocked : st.wallet.fLocked = true
  · have hkeep : st.wallet.newKeyPool env = st.wallet.clearPool := if_pos hlocked
    rw [hkeep]
    exact hclear
  · have hloop : st.wallet.newKeyPool env = _ := if_neg hlocked
    obtain ⟨hheld, hw⟩ := hok (Bool.eq_false_iff.2 hlocked)
    rw [hloop, List.range_eq_range'] at hn ⊢
    refine hclear.newKeyLoop ?_ (fun i hi => absurd hi (Finset.notMem_empty i)) hw hn
    rw [Nat.cast_zero, zero_add]
    exact hheld

theorem lt_nEnd {w : PoolWallet} {i : Int} (hi : i ∈ w.setKeyPool) : i < w.nEnd := by
  rw [PoolWallet.nEnd, dif_pos ⟨i, hi⟩]
  exact Int.lt_add_one_of_le (Finset.le_max' _ i hi)

theorem nEnd_pos {w : PoolWallet} (hpos : ∀ i ∈ w.setKeyPool, 0 < i) : 0 < w.nEnd := by
  rw [PoolWallet.nEnd]
  split
  · next hne => exact Int.lt_trans (hpos _ (Finset.max'_mem _ hne)) (Int.lt_succ _)
  · exact Int.one_pos

/-- Where one past the largest index is put into the set, it is the largest. -/
theorem nEnd_insertIndex {w w' : PoolWallet} (hw : w'.setKeyPool = w.setKeyPool) :
    (w'.insertIndex w.nEnd).nEnd = w.nEnd + 1 := by
  have hmem : w.nEnd ∈ (w'.insertIndex w.nEnd).setKeyPool := Finset.mem_insert_self _ _
  rw [PoolWallet.nEnd, dif_pos ⟨_, hmem⟩]
  congr 1
  refine le_antisymm (Finset.max'_le _ _ _ ?_) (Finset.le_max' _ _ hmem)
  intro i hi
  rcases Finset.mem_insert.1 hi with rfl | hi
  · exact le_rfl
  · exact (lt_nEnd (hw ▸ hi)).le

theorem le_topUpLoop (env : KeyPoolEnv) (m : Nat) (w : PoolWallet) :
    w.nGenerated ≤ (PoolWallet.topUpLoop env m w).2.nGenerated := by
  induction m generalizing w with
  | zero => exact le_rfl
  | succ m ih =>
    rw [PoolWallet.topUpLoop]
    by_cases hw : env.fWritten w.nGenerated = true
    · rw [writeNewKey_of_written hw]
      dsimp only
      refine le_trans ?_ (ih _)
      exact Nat.le_succ _
    · rw [writeNewKey_of_not_written (Bool.eq_false_iff.2 hw)]
      exact Nat.le_succ _

theorem le_topUpKeyPool (env : KeyPoolEnv) (nSize : Nat) (w : PoolWallet) :
    w.nGenerated ≤ (w.topUpKeyPool env nSize).2.nGenerated := by
  rw [PoolWallet.topUpKeyPool]
  split
  · exact le_rfl
  · exact le_topUpLoop env _ w

/-- The loop of `TopUpKeyPool`, up to where it throws. -/
theorem PoolInv.topUpLoop {m : Nat} (hinv : PoolInv env n st)
    (hheld : st.NoneHeld st.wallet.nEnd (writtenFrom env st.wallet.nGenerated m))
    (hn : (PoolWallet.topUpLoop env m st.wallet).2.nGenerated ≤ n) :
    PoolInv env n { st with wallet := (PoolWallet.topUpLoop env m st.wallet).2 } := by
  induction m generalizing st with
  | zero => exact hinv
  | succ m ih =>
    rw [PoolWallet.topUpLoop] at hn ⊢
    by_cases hw : env.fWritten st.wallet.nGenerated = true
    · rw [writtenFrom, if_pos hw] at hheld
      rw [writeNewKey_of_written hw] at hn ⊢
      have hadd := hinv.addKey (nEnd_pos fun i hi => hinv.pos i (.inl hi))
        (fun h heq => hheld h ⟨heq.ge, by omega⟩) (fun hmem => (lt_nEnd hmem).false) hw
        ((le_topUpLoop env _ _).trans hn)
      rw [writeNewKey_of_written hw] at hadd
      refine ih hadd ?_ hn
      change NoneHeld _ (PoolWallet.nEnd (PoolWallet.insertIndex st.wallet.nEnd _)) _
      rw [nEnd_insertIndex]
      · rintro h ⟨hle, hlt⟩
        refine hheld h ⟨(Int.lt_of_add_one_le hle).le, ?_⟩
        rw [Nat.cast_succ, ← add_assoc, add_right_comm]
        exact hlt
      · rfl
    · rw [writeNewKey_of_not_written (Bool.eq_false_iff.2 hw)]
      exact hinv.generate

theorem PoolInv.topUpKeyPool {nSize : Nat} (hinv : PoolInv env n st) (hok : st.TopUpOK env nSize)
    (hn : (st.wallet.topUpKeyPool env nSize).2.nGenerated ≤ n) :
    PoolInv env n { st with wallet := (st.wallet.topUpKeyPool env nSize).2 } := by
  by_cases hlocked : st.wallet.fLocked = true
  · have hkeep : st.wallet.topUpKeyPool env nSize = (true, st.wallet) := if_pos hlocked
    rw [hkeep]
    exact hinv
  · have hloop : st.wallet.topUpKeyPool env nSize = _ := if_neg hlocked
    rw [hloop] at hn ⊢
    exact hinv.topUpLoop (hok (Bool.eq_false_iff.2 hlocked)) hn

/-! ## Keys are reserved -/

/-- What `ReserveKeyFromKeyPool` does to a pool whose records are there: where it does not throw, it
takes an index out of the set, with its record, or finds the set empty. -/
inductive Reserves (env : KeyPoolEnv) (n : Nat) (st : KeyPoolRun) :
    PoolWallet.Reserved × PoolWallet → Prop where
  | threw (w : PoolWallet) (hinv : PoolInv env n { st with wallet := w }) :
      Reserves env n st (.threw (-1), w)
  | none (w : PoolWallet) (hinv : PoolInv env n { st with wallet := w }) : Reserves env n st (.none, w)
  | key (w : PoolWallet) (nIndex : Int) (vchPubKey : Valtype)
      (hinv : PoolInv env n { st with wallet := w }) (hmem : nIndex ∈ w.setKeyPool)
      (hrecord : w.records nIndex = some vchPubKey) :
      Reserves env n st
        (.key nIndex vchPubKey, { w with setKeyPool := w.setKeyPool.erase nIndex })

theorem nGenerated_takeOldest (w : PoolWallet) : w.takeOldest.2.nGenerated = w.nGenerated := by
  rw [PoolWallet.takeOldest]
  split
  · dsimp only
    split
    · rfl
    · split
      · rfl
      · split <;> rfl
  · rfl

theorem PoolInv.takeOldest {w : PoolWallet} (hinv : PoolInv env n { st with wallet := w }) :
    Reserves env n st w.takeOldest := by
  rw [PoolWallet.takeOldest]
  split
  · next hne =>
    have hmem := Finset.min'_mem _ hne
    obtain ⟨vchPubKey, hrecord⟩ := Option.ne_none_iff_exists'.1 (hinv.safe.filled _ (.inl hmem))
    obtain ⟨hkey, hvalid, -⟩ := hinv.known _ _ (.inl hmem) hrecord
    change w.records _ = some vchPubKey at hrecord
    change vchPubKey ∈ w.keys at hkey
    simp only [hrecord, hvalid, List.contains_iff_mem.2 hkey, Bool.not_true, Bool.false_eq_true,
      if_false]
    exact .key w _ vchPubKey hinv hmem hrecord
  · exact .none w hinv

/-- Reserving is topping up, where the wallet is not locked, and then taking the oldest. -/
theorem reserveKeyFromKeyPool_cases (env : KeyPoolEnv) (w : PoolWallet) :
    w.reserveKeyFromKeyPool env = (.threw (-1), (w.topUpKeyPool env 0).2) ∨
      w.reserveKeyFromKeyPool env = (w.topUpKeyPool env 0).2.takeOldest := by
  rw [PoolWallet.reserveKeyFromKeyPool]
  split
  · rcases w.topUpKeyPool env 0 with ⟨_ | _, w'⟩
    · exact .inl rfl
    · exact .inr rfl
  · next hlocked =>
    have hkeep : w.topUpKeyPool env 0 = (true, w) := if_pos (by simpa using hlocked)
    rw [hkeep]
    exact .inr rfl

theorem nGenerated_reserveKeyFromKeyPool (env : KeyPoolEnv) (w : PoolWallet) :
    (w.reserveKeyFromKeyPool env).2.nGenerated = (w.topUpKeyPool env 0).2.nGenerated := by
  rcases reserveKeyFromKeyPool_cases env w with heq | heq
  · rw [heq]
  · rw [heq, nGenerated_takeOldest]

theorem PoolInv.reserveKeyFromKeyPool (hinv : PoolInv env n st) (hok : st.TopUpOK env 0)
    (hn : (st.wallet.reserveKeyFromKeyPool env).2.nGenerated ≤ n) :
    Reserves env n st (st.wallet.reserveKeyFromKeyPool env) := by
  rw [nGenerated_reserveKeyFromKeyPool] at hn
  have htop := hinv.topUpKeyPool hok hn
  rcases reserveKeyFromKeyPool_cases env st.wallet with heq | heq
  · rw [heq]
    exact .threw _ htop
  · rw [heq]
    exact htop.takeOldest

/-! ## Keys are held -/

theorem holders_setHolder_self (h : Nat) (key : CReserveKey) :
    (st.setHolder h key).holders h = key := Function.update_self _ _ _

theorem holders_setHolder_of_ne {h h' : Nat} (hne : h' ≠ h) (key : CReserveKey) :
    (st.setHolder h key).holders h' = st.holders h' := Function.update_of_ne hne _ _

/-- A holder that has no index changes to another key without one. -/
theorem PoolInv.setHolder (hinv : PoolInv env n st) {h : Nat} (hnone : (st.holders h).nIndex = -1)
    {key : CReserveKey} (hkey : key.nIndex = -1) : PoolInv env n (st.setHolder h key) := by
  have hindex (h' : Nat) : ((st.setHolder h key).holders h').nIndex = (st.holders h').nIndex := by
    by_cases hh : h' = h
    · rw [hh, holders_setHolder_self, hkey, hnone]
    · rw [holders_setHolder_of_ne hh]
  have hlease : (st.setHolder h key).lease = st.lease := by
    rw [lease, lease]
    simp only [hindex]
    rfl
  refine hinv.of_live (hlease ▸ hinv.safe) (fun i hi => ⟨hlease ▸ hi, rfl⟩) ?_ hinv.kept hinv.log
    rfl rfl rfl
  intro h' hne
  have hh : h' ≠ h := by
    rintro rfl
    exact hne ((hindex h').trans hnone)
  rw [holders_setHolder_of_ne hh] at hne ⊢
  exact hinv.holder h' hne

/-- The leases after a holder changes to a key with an index. -/
theorem held_setHolder {h : Nat} {key : CReserveKey} (hkey : key.nIndex ≠ -1) :
    (st.setHolder h key).lease.held = Function.update st.lease.held (some h) (some key.nIndex) := by
  funext h'
  by_cases hh : h' = some h
  · subst hh
    rw [Function.update_self]
    rw [lease_held_some] <;> rw [holders_setHolder_self]
    exact hkey
  · rw [Function.update_of_ne hh]
    cases h' with
    | none => rfl
    | some h' =>
      have hne : h' ≠ h := fun heq => hh (congrArg some heq)
      simp only [lease, Option.bind_some, holders_setHolder_of_ne hne]

/-- The leases after a holder lets go of its key. -/
theorem held_setHolder_none (h : Nat) :
    (st.setHolder h .none).lease.held = Function.update st.lease.held (some h) none := by
  funext h'
  by_cases hh : h' = some h
  · subst hh
    rw [Function.update_self]
    exact if_pos (by rw [holders_setHolder_self]; rfl)
  · rw [Function.update_of_ne hh]
    cases h' with
    | none => rfl
    | some h' =>
      have hne : h' ≠ h := fun heq => hh (congrArg some heq)
      simp only [lease, Option.bind_some, holders_setHolder_of_ne hne]

/-- Who has an index after a holder let go of its key is another. -/
theorem ne_of_setHolder_none {h h' : Nat}
    (hne : ((st.setHolder h .none).holders h').nIndex ≠ -1) : h' ≠ h := by
  rintro rfl
  rw [holders_setHolder_self] at hne
  exact hne rfl

/-- A holder is given an index that is taken out of the set. -/
theorem PoolInv.lease {w : PoolWallet} (hinv : PoolInv env n { st with wallet := w }) {h : Nat}
    {key : CReserveKey} (hmem : key.nIndex ∈ w.setKeyPool)
    (hrecord : w.records key.nIndex = some key.vchPubKey) :
    PoolInv env n
      ({ st with wallet := { w with setKeyPool := w.setKeyPool.erase key.nIndex } }.setHolder h key) := by
  have hpos : 0 < key.nIndex := hinv.pos _ (.inl hmem)
  have hne : key.nIndex ≠ -1 := by omega
  set st' := KeyPoolRun.setHolder _ h key with hst'
  have hlease : st'.lease = ({ st with wallet := w } : KeyPoolRun).lease.lease (some h) key.nIndex := by
    refine Lease.State.ext ?_ (held_setHolder hne) rfl rfl
    simp only [hst', KeyPoolRun.lease, KeyPoolRun.setHolder, Lease.State.lease, Finset.coe_erase]
  refine hinv.of_live (hlease ▸ hinv.safe.lease hmem) ?_ ?_ hinv.kept hinv.log rfl rfl rfl
  · intro i hi
    rw [hlease] at hi
    exact ⟨Lease.State.live_of_lease hmem hi, rfl⟩
  · intro h' hne'
    by_cases hh : h' = h
    · rw [hh, holders_setHolder_self]
      exact hrecord
    · rw [holders_setHolder_of_ne hh] at hne' ⊢
      exact hinv.holder h' hne'

/-- A holder gives its index back. -/
theorem PoolInv.returnKey (hinv : PoolInv env n st) (h : Nat) : PoolInv env n (st.returnKey h) := by
  rw [KeyPoolRun.returnKey]
  split
  · next hnone => exact hinv.setHolder hnone rfl
  · next hne =>
    have hheld := lease_held_some hne
    set st' := KeyPoolRun.setHolder _ h .none with hst'
    have hlease : st'.lease = st.lease.giveBack (some h) (st.holders h).nIndex := by
      refine Lease.State.ext ?_ (held_setHolder_none h) rfl rfl
      simp only [hst', KeyPoolRun.lease, KeyPoolRun.setHolder, Lease.State.giveBack,
        PoolWallet.insertIndex, Finset.coe_insert]
    refine hinv.of_live (hlease ▸ hinv.safe.giveBack hheld) ?_ ?_ hinv.kept hinv.log rfl rfl rfl
    · intro i hi
      rw [hlease] at hi
      exact ⟨Lease.State.live_of_giveBack hheld hi, rfl⟩
    · intro h' hne'
      have hh := ne_of_setHolder_none hne'
      rw [holders_setHolder_of_ne hh] at hne' ⊢
      exact hinv.holder h' hne'

/-- A record is used up: it was leased by a holder, who lets go of it. -/
theorem PoolInv.of_use (hinv : PoolInv env n st) {s : Lease.State Int (Option Nat) Valtype}
    (hs : s.Safe) {h : Option Nat} {i : Int} {vchPubKey : Valtype} (hheld : s.held h = some i)
    (hcontent : s.content = st.lease.content) (hlive : ∀ j, s.Live j → st.lease.Live j)
    (hrecord : st.wallet.records i = some vchPubKey) {st' : KeyPoolRun}
    (hlease : st'.lease = s.use h i vchPubKey)
    (hholders : ∀ h', (st'.holders h').nIndex ≠ -1 → st'.holders h' = st.holders h')
    (hlog : LogFresh st'.log) (hkeys : st'.wallet.keys = st.wallet.keys)
    (hdefault : st'.wallet.vchDefaultKey = st.wallet.vchDefaultKey)
    (hnGenerated : st'.wallet.nGenerated = st.wallet.nGenerated)
    (hkept : ∀ k, .kept k ∈ st'.log → k = vchPubKey ∨ .kept k ∈ st.log) : PoolInv env n st' := by
  have hrecords : st'.wallet.records = Function.update st.wallet.records i none := by
    change st'.lease.content = Function.update st.lease.content i none
    rw [hlease, ← hcontent]
    rfl
  have hother {j : Int} (hj : st'.lease.Live j) :
      st.lease.Live j ∧ st'.wallet.records j = st.wallet.records j := by
    rw [hlease] at hj
    obtain ⟨hne, hj⟩ := hs.live_of_use hheld hj
    rw [hrecords, Function.update_of_ne hne]
    exact ⟨hlive j hj, rfl⟩
  refine hinv.of_live (hlease ▸ hs.use hheld (hcontent ▸ hrecord)) (fun j => hother) ?_ ?_ hlog hkeys
    hdefault hnGenerated
  · intro h' hne
    rw [(hother (.inr ⟨some h', lease_held_some hne⟩)).2, hholders h' hne]
    exact hinv.holder h' (hholders h' hne ▸ hne)
  · intro k hk
    rcases hkept k hk with rfl | hk
    · exact (hinv.known i k (hlive i (.inr ⟨h, hheld⟩)) hrecord).imp_right And.right
    · exact hinv.kept k hk

/-- A holder keeps its key. -/
theorem PoolInv.keepKey (hinv : PoolInv env n st) (h : Nat) : PoolInv env n (st.keepKey h) := by
  rw [KeyPoolRun.keepKey]
  split
  · next hnone => exact hinv.setHolder hnone rfl
  · next hne =>
    refine hinv.of_use hinv.safe (lease_held_some hne) rfl (fun _ => id) (hinv.holder h hne) ?_ ?_
      (hinv.log.append fun _ => nofun) rfl rfl rfl ?_
    · refine Lease.State.ext rfl (held_setHolder_none h) rfl ?_
      ext k
      simp [KeyPoolRun.lease, KeyPoolRun.seen, KeyPoolRun.setHolder, Lease.State.use, or_comm]
    · intro h' hne'
      exact holders_setHolder_of_ne (ne_of_setHolder_none hne') _
    · intro k hk
      rcases List.mem_append.1 hk with hk | hk
      · exact .inr hk
      · exact .inl (PoolEvent.kept.inj (List.mem_singleton.1 hk))

/-- A caller of `GetKeyFromPool` keeps the key that it is given. -/
theorem PoolInv.getKey {w : PoolWallet} (hinv : PoolInv env n { st with wallet := w }) {nIndex : Int}
    {vchPubKey : Valtype} (hmem : nIndex ∈ w.setKeyPool) (hrecord : w.records nIndex = some vchPubKey) :
    PoolInv env n ({ st with
      wallet := { w with setKeyPool := w.setKeyPool.erase nIndex }.erasePool nIndex }.seen
        [.handedOut vchPubKey, .kept vchPubKey]) := by
  have hunused : .kept vchPubKey ∉ st.log := hinv.safe.unused nIndex vchPubKey (.inl hmem) hrecord
  refine hinv.of_use (hinv.safe.lease (h := none) hmem) (Function.update_self _ _ _) rfl
    (fun _ => Lease.State.live_of_lease hmem) hrecord ?_ (fun _ _ => rfl) ?_ rfl rfl rfl ?_
  · -- nobody has the index after the call
    refine Lease.State.ext ?_ ?_ rfl ?_
    · simp only [KeyPoolRun.lease, KeyPoolRun.seen, PoolWallet.erasePool, Lease.State.use,
        Lease.State.lease, Finset.coe_erase]
    · change _ = Function.update (Function.update (KeyPoolRun.lease _).held none (some nIndex)) none none
      rw [Function.update_idem]
      exact (Function.update_eq_self_iff.2 rfl).symm
    · ext k
      simp [KeyPoolRun.lease, KeyPoolRun.seen, Lease.State.use, Lease.State.lease, or_comm]
  · change LogFresh (st.log ++ ([.handedOut vchPubKey] ++ [.kept vchPubKey]))
    rw [← List.append_assoc]
    refine (LogFresh.append hinv.log ?_).append fun _ => nofun
    intro k hk
    obtain rfl := PoolEvent.handedOut.inj hk
    exact hunused
  · intro k hk
    rcases List.mem_append.1 hk with hk | hk
    · exact .inr hk
    · rcases List.mem_cons.1 hk with hk | hk
      · cases hk
      · exact .inl (PoolEvent.kept.inj (List.mem_singleton.1 hk))

/-! ## Calls -/

/-- The default key was not kept since the wallet was loaded. -/
theorem PoolInv.not_kept_default (hinv : PoolInv env n st) : .kept st.wallet.vchDefaultKey ∉ st.log :=
  fun hk => (hinv.kept _ hk).2 rfl

theorem PoolInv.returnReserved (hinv : PoolInv env n st) {vchPubKey : Valtype}
    (hk : .kept vchPubKey ∉ st.log) : PoolInv env n (st.returnReserved vchPubKey) := by
  rw [KeyPoolRun.returnReserved]
  split
  · refine hinv.seen (fun _ => nofun) fun k heq => ?_
    obtain rfl := PoolEvent.handedOut.inj heq
    exact hk
  · exact hinv.threw

theorem wallet_getReservedKey (env : KeyPoolEnv) (h : Nat) (st : KeyPoolRun) :
    (st.getReservedKey env h).wallet =
      if (st.holders h).nIndex = -1 then (st.wallet.reserveKeyFromKeyPool env).2 else st.wallet := by
  rw [KeyPoolRun.getReservedKey]
  split
  · rcases st.wallet.reserveKeyFromKeyPool env with ⟨_ | _ | _, w⟩ <;> rfl
  · rfl

theorem PoolInv.getReservedKey (hinv : PoolInv env n st) {h : Nat}
    (hok : st.CallOK env (.getReservedKey h))
    (hn : (st.getReservedKey env h).wallet.nGenerated ≤ n) :
    PoolInv env n (st.getReservedKey env h) := by
  rw [wallet_getReservedKey] at hn
  rw [KeyPoolRun.getReservedKey]
  split
  · next hnone =>
    rw [if_pos hnone] at hn
    have hreserves := hinv.reserveKeyFromKeyPool (hok hnone) hn
    generalize st.wallet.reserveKeyFromKeyPool env = r at hreserves
    cases hreserves with
    | threw w hinv => exact (hinv.setHolder hnone rfl).threw
    | none w hinv =>
      have hdefault := PoolInv.not_kept_default hinv
      exact (hinv.setHolder hnone rfl).returnReserved hdefault
    | key w nIndex vchPubKey hinv hmem hrecord =>
      have hleased : CReserveKey.nIndex ⟨nIndex, vchPubKey⟩ ∈ w.setKeyPool := hmem
      exact (PoolInv.lease hinv hleased hrecord).returnReserved
        (hinv.safe.unused nIndex vchPubKey (.inl hmem) hrecord)
  · next hne =>
    exact hinv.returnReserved (hinv.safe.unused _ _ (.inr ⟨some h, lease_held_some hne⟩)
      (hinv.holder h hne))

theorem le_getKeyFromPool (env : KeyPoolEnv) (fAllowReuse : Bool) (st : KeyPoolRun) :
    (st.wallet.reserveKeyFromKeyPool env).2.nGenerated ≤
      (st.getKeyFromPool env fAllowReuse).wallet.nGenerated := by
  rw [KeyPoolRun.getKeyFromPool]
  rcases st.wallet.reserveKeyFromKeyPool env with ⟨_ | _ | _, w⟩
  · dsimp only
    split
    · exact le_rfl
    · split
      · exact le_rfl
      · exact Nat.le_succ _
  · exact le_rfl
  · exact le_rfl

theorem PoolInv.getKeyFromPool (hinv : PoolInv env n st) {fAllowReuse : Bool}
    (hok : st.TopUpOK env 0) (hn : (st.getKeyFromPool env fAllowReuse).wallet.nGenerated ≤ n) :
    PoolInv env n (st.getKeyFromPool env fAllowReuse) := by
  have hreserves := hinv.reserveKeyFromKeyPool hok ((le_getKeyFromPool env fAllowReuse st).trans hn)
  rw [KeyPoolRun.getKeyFromPool] at hn ⊢
  generalize st.wallet.reserveKeyFromKeyPool env = r at hreserves hn
  cases hreserves with
  | threw w hinv => exact hinv.threw
  | none w hinv =>
    dsimp only at hn ⊢
    split at hn
    · next hreuse =>
      rw [if_pos hreuse]
      refine hinv.seen (fun _ => nofun) fun k heq => ?_
      obtain rfl := PoolEvent.handedOut.inj heq
      exact PoolInv.not_kept_default hinv
    · next hreuse =>
      rw [if_neg hreuse]
      split at hn
      · next hlocked =>
        rw [if_pos hlocked]
        exact hinv
      · next hlocked =>
        -- the set is empty all the same, so that the new key is not one of the pool
        rw [if_neg hlocked]
        refine hinv.generate.seen (fun _ => nofun) fun k heq hk => ?_
        obtain rfl := PoolEvent.handedOut.inj heq
        exact hinv.fresh.not_mem _ le_rfl hn (hinv.kept _ hk).1
  | key w nIndex vchPubKey hinv hmem hrecord => exact hinv.getKey hmem hrecord

/-- A call keeps the invariant. -/
theorem PoolInv.call (hinv : PoolInv env n st) {c : PoolCall} (hok : st.CallOK env c)
    (hn : (st.call env c).wallet.nGenerated ≤ n) : PoolInv env n (st.call env c) := by
  cases c with
  | newKeyPool => exact hinv.newKeyPool hok hn
  | topUpKeyPool nSize =>
    have htop := hinv.topUpKeyPool hok hn
    rw [KeyPoolRun.call]
    split
    · rw [KeyPoolRun.seen, List.append_nil]
      exact htop
    · exact htop.threw
  | getReservedKey h => exact hinv.getReservedKey hok hn
  | keepKey h => exact hinv.keepKey h
  | returnKey h => exact hinv.returnKey h
  | getKeyFromPool fAllowReuse => exact hinv.getKeyFromPool hok hn
  | setLocked fLocked =>
    exact hinv.of_live hinv.safe (fun i hi => ⟨hi, rfl⟩) hinv.holder hinv.kept hinv.log rfl rfl rfl

theorem le_call (env : KeyPoolEnv) (st : KeyPoolRun) (c : PoolCall) :
    st.wallet.nGenerated ≤ (st.call env c).wallet.nGenerated := by
  have hreserve : st.wallet.nGenerated ≤ (st.wallet.reserveKeyFromKeyPool env).2.nGenerated := by
    rw [nGenerated_reserveKeyFromKeyPool]
    exact le_topUpKeyPool env 0 _
  cases c with
  | newKeyPool =>
    change _ ≤ (st.wallet.newKeyPool env).nGenerated
    rw [PoolWallet.newKeyPool]
    split
    · exact le_rfl
    · exact le_newKeyLoop env _ st.wallet.clearPool
  | topUpKeyPool nSize => exact le_topUpKeyPool env nSize _
  | getReservedKey h =>
    change _ ≤ (st.getReservedKey env h).wallet.nGenerated
    rw [wallet_getReservedKey]
    split
    · exact hreserve
    · exact le_rfl
  | keepKey h =>
    change _ ≤ (st.keepKey h).wallet.nGenerated
    rw [KeyPoolRun.keepKey]
    split <;> exact le_rfl
  | returnKey h =>
    change _ ≤ (st.returnKey h).wallet.nGenerated
    rw [KeyPoolRun.returnKey]
    split <;> exact le_rfl
  | getKeyFromPool fAllowReuse => exact hreserve.trans (le_getKeyFromPool env fAllowReuse st)
  | setLocked fLocked => exact le_rfl

theorem le_run (env : KeyPoolEnv) (st : KeyPoolRun) (calls : List PoolCall) :
    st.wallet.nGenerated ≤ (st.run env calls).wallet.nGenerated := by
  induction calls generalizing st with
  | nil => exact le_rfl
  | cons c calls ih => exact (le_call env st c).trans (ih _)

theorem PoolInv.run {calls : List PoolCall} (hinv : PoolInv env n st) (hok : CallsOK env st calls)
    (hn : (st.run env calls).wallet.nGenerated ≤ n) : PoolInv env n (st.run env calls) := by
  induction calls generalizing st with
  | nil => exact hinv
  | cons c calls ih => exact ih (hinv.call hok.1 ((le_run env _ calls).trans hn)) hok.2 hn

/-- A wallet that was just loaded is a safe pool of leases. -/
theorem Loaded.poolInv (hst : st.Loaded) (hfresh : env.Fresh st.wallet n) : PoolInv env n st := by
  have hindex (h : Nat) : (st.holders h).nIndex = -1 := by rw [hst.holders]; rfl
  have hheld (h : Option Nat) (i : Int) : st.lease.held h ≠ some i := by
    intro hh
    obtain ⟨h', -, rfl, hne⟩ := lease_held hh
    exact hne (hindex h')
  have hlive {i : Int} (hi : st.lease.Live i) : i ∈ st.wallet.setKeyPool :=
    hi.resolve_right fun ⟨h, hh⟩ => hheld h i hh
  constructor
  · constructor
    · exact fun i hi => (hst.setKeyPool i).1 (hlive hi)
    · exact fun h i hh => absurd hh (hheld h i)
    · exact fun h _ i hh => absurd hh (hheld h i)
    · exact fun i j hi _ heq => hst.record_inj i j ((hst.setKeyPool i).1 (hlive hi)) heq
    · intro i k _ _ hk
      change PoolEvent.kept k ∈ st.log at hk
      rw [hst.log] at hk
      cases hk
  · exact fun i hi => hst.pos i (hlive hi)
  · exact fun h hne => absurd (hindex h) hne
  · exact fun i vchPubKey _ hrecord => hst.record i vchPubKey hrecord
  · intro k hk
    rw [hst.log] at hk
    cases hk
  · exact hfresh
  · intro l₁ vchPubKey l₂ heq
    rw [hst.log] at heq
    exact absurd heq.symm (List.append_ne_nil_of_right_ne_nil _ (List.cons_ne_nil _ _))

end KeyPoolRun

open KeyPoolRun

/-- **Key-pool safety.** From a wallet that was just loaded, whatever its holders do in whatever
order: as long as no call puts an index into the set that somebody holds, or one without its record,
every index of the set has a record, no two holders have one index, and no key is handed out after
it was kept. -/
theorem keyPool_safe {env : KeyPoolEnv} {st : KeyPoolRun} (hst : st.Loaded) (calls : List PoolCall)
    (hfresh : env.Fresh st.wallet (st.run env calls).wallet.nGenerated)
    (hok : CallsOK env st calls) : (st.run env calls).PoolSafe :=
  ((hst.poolInv hfresh).run hok le_rfl).poolSafe

/-- Keys whose last byte is their number. -/
def numberedKeys (keyPoolArg : Int) : KeyPoolEnv where
  generateNewKey n := List.replicate 32 0 ++ [n.toUInt8]
  fWritten _ := true
  keyPoolArg := keyPoolArg

/-- A new wallet, whose key pool is empty. -/
def newPool : KeyPoolRun where
  wallet := ⟨∅, fun _ => none, false, [], [], 0⟩
  holders _ := .none
  log := []

theorem newPool_loaded : newPool.Loaded where
  setKeyPool _ := iff_of_false (Finset.notMem_empty _) fun hne => hne rfl
  pos _ hi := absurd hi (Finset.notMem_empty _)
  record _ _ := nofun
  record_inj _ _ hne := absurd rfl hne
  holders := rfl
  log := rfl

theorem numberedKeys_fresh {keyPoolArg : Int} {n : Nat} (hn : n ≤ 256) :
    (numberedKeys keyPoolArg).Fresh newPool.wallet n where
  ne i j _ hij hj heq := by
    have hbyte : i.toUInt8 = j.toUInt8 := List.singleton_inj.1 (List.append_cancel_left heq)
    have hmod := congrArg UInt8.toNat hbyte
    simp only [Nat.toUInt8, UInt8.toNat_ofNat'] at hmod
    omega
  isValid _ _ _ := rfl
  not_mem _ _ _ := List.not_mem_nil
  ne_default _ _ _ := nofun

/-- With `-keypool=1`, two holders have the indices 1 and 2, and one keeps its key. -/
theorem keyPool_safe_newPool :
    (newPool.run (numberedKeys 1) [.getReservedKey 0, .getReservedKey 1, .keepKey 0]).PoolSafe := by
  refine keyPool_safe newPool_loaded _ (numberedKeys_fresh (by decide)) ⟨fun _ _ h => ?_, ?_⟩
  · exact fun hle => (by decide : ¬newPool.wallet.nEnd ≤ -1) hle.1
  · refine ⟨fun _ _ h => ?_, trivial, trivial⟩
    rcases h with _ | _ | h
    · decide
    · decide
    · have hfree : ¬(newPool.call (numberedKeys 1) (.getReservedKey 0)).wallet.nEnd ≤ -1 := by decide
      exact fun hle => hfree hle.1

/-- With `-keypool=0`, the set is empty as soon as an index is reserved, so that the next holder is
given that index too. -/
theorem keyPool_unsafe_newPool :
    newPool.Loaded ∧ (numberedKeys 0).Fresh newPool.wallet 256 ∧
      ¬(newPool.run (numberedKeys 0) [.getReservedKey 0, .getReservedKey 1]).PoolSafe :=
  ⟨newPool_loaded, numberedKeys_fresh le_rfl, fun hsafe =>
    absurd (hsafe.distinct 0 1 (by decide) (by decide)) Nat.zero_ne_one⟩

end MotaCoin
