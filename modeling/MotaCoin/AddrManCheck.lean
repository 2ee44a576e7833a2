import MotaCoin.AddrManCalls

/-!
# The check of the address manager

`Check_` counts the entries and ticks off the ids that it finds in the buckets. Where the tables
agree it finds nothing, and they agree after every run of calls.

## Main definitions

* `AddrManCall.Timely`: a call with the times that the node gives

## Main results

* `checkInfos_spec`, `checkTried_spec`, `checkNew_spec`: the three loops
* `Sound.check_eq_zero`: the check finds nothing
* `address_manager_invariant`: what holds after every run
-/

namespace MotaCoin

open Positions

namespace CAddrMan

variable {am : CAddrMan} {nId : Int} {info : CAddrInfo}

/-! ## Entries and buckets -/

section Kinds

/-- An entry lies in one tried bucket, or in as many new ones as it counts. -/
theorem Sound.kinds (h : Sound am fun _ => 0) (hinfo : am.mapInfo.lookup nId = some info) :
    (info.fInTried = true ∧ Bins.places am.vvTried nId = 1 ∧ Bins.refs am.vvNew nId = 0) ∨
      (info.fInTried = false ∧ Bins.places am.vvTried nId = 0 ∧
        info.nRefCount = Bins.refs am.vvNew nId ∧ 1 ≤ info.nRefCount ∧ info.nRefCount ≤ 4) := by
  have hkept := h.kept_of_lookup hinfo
  cases hflag : info.fInTried with
  | true =>
    obtain ⟨-, -, hplaces, hrefs, -⟩ := hkept.tried hflag
    exact Or.inl ⟨rfl, hplaces, hrefs⟩
  | false =>
    obtain ⟨hpos, hmax, hcount, hplaces⟩ := hkept.new hflag
    exact Or.inr ⟨rfl, hplaces, hcount, hpos, hmax⟩

theorem Sound.unknown_of_lookup (h : Sound am fun _ => 0) (hnone : am.mapInfo.lookup nId = none) :
    Bins.places am.vvTried nId = 0 ∧ Bins.refs am.vvNew nId = 0 := by
  refine h.unknown nId ?_
  rw [entry, hnone]
  rfl

theorem Sound.places_le_one (h : Sound am fun _ => 0) (nId : Int) :
    Bins.places am.vvTried nId ≤ 1 := by
  cases hinfo : am.mapInfo.lookup nId with
  | none => exact (h.unknown_of_lookup hinfo).1.le.trans (Nat.zero_le 1)
  | some info => rcases h.kinds hinfo with hkind | hkind <;> omega

/-- What is in the vector are the entries of both kinds. -/
theorem Sound.mem_vRandom_iff (h : Sound am fun _ => 0) :
    nId ∈ am.vRandom ↔ 0 < Bins.places am.vvTried nId ∨ 0 < Bins.refs am.vvNew nId := by
  rw [h.located.mem_iff, pos, Option.isSome_map]
  cases hinfo : am.mapInfo.lookup nId with
  | none =>
    obtain ⟨hplaces, hrefs⟩ := h.unknown_of_lookup hinfo
    rw [hplaces, hrefs]
    decide
  | some info =>
    refine iff_of_true rfl ?_
    rcases h.kinds hinfo with hkind | hkind <;> omega

end Kinds

/-! ## The loops of the check -/

section Loops

theorem checkTried_spec {nIds : List Int} {setTried : Finset Int} (hnodup : nIds.Nodup)
    (hmem : ∀ x ∈ nIds, x ∈ setTried) :
    checkTried nIds setTried = .ok (setTried \ nIds.toFinset) := by
  induction nIds generalizing setTried with
  | nil => rw [checkTried, List.toFinset_nil, Finset.sdiff_empty]
  | cons x nIds ih =>
    obtain ⟨hx, hnodup⟩ := List.nodup_cons.mp hnodup
    have hrest : ∀ y ∈ nIds, y ∈ setTried.erase x := fun y hy =>
      Finset.mem_erase.mpr ⟨fun heq => hx (heq ▸ hy), hmem y (List.mem_cons_of_mem x hy)⟩
    rw [checkTried, if_neg (not_not.mpr (hmem x List.mem_cons_self)), ih hnodup hrest,
      List.toFinset_cons, Finset.sdiff_insert, Finset.erase_sdiff_comm]

/-- Every id is ticked off as often as the map says. -/
theorem checkNew_spec {nIds : List Int} {mapNew : AList fun _ : Int => Int}
    (hcount : ∀ x, mapNew.lookup x = if 0 < nIds.count x then some (nIds.count x : Int) else none) :
    ∃ mapNew', checkNew nIds mapNew = .ok mapNew' ∧ mapNew'.keys = [] := by
  induction nIds generalizing mapNew with
  | nil =>
    refine ⟨mapNew, rfl, List.eq_nil_iff_forall_not_mem.mpr fun x hx => ?_⟩
    rw [← AList.mem_keys, ← AList.lookup_isSome, hcount] at hx
    exact Bool.false_ne_true hx
  | cons x nIds ih =>
    have hself : mapNew.lookup x = some ((nIds.count x : Int) + 1) := by
      rw [hcount, List.count_cons_self, if_pos (Nat.succ_pos _)]
      rfl
    rw [checkNew, hself]
    dsimp only
    refine ih fun y => ?_
    by_cases hzero : ((nIds.count x : Int) + 1) - 1 = 0
    · -- the last of its references
      rw [if_pos hzero]
      by_cases hy : y = x
      · subst hy
        rw [AList.lookup_erase, if_neg (by omega)]
      · rw [AList.lookup_erase_ne hy, hcount, List.count_cons_of_ne (Ne.symm hy)]
    · rw [if_neg hzero]
      by_cases hy : y = x
      · subst hy
        rw [AList.lookup_insert, if_pos (by omega), Int.add_sub_cancel]
      · rw [AList.lookup_insert_ne hy, hcount, List.count_cons_of_ne (Ne.symm hy)]

/-- The first loop comes to the end, with the tried ids and the references of the others. -/
theorem checkInfos_spec (h : Sound am fun _ => 0) {ids : List Int} {setTried : Finset Int}
    {mapNew : AList fun _ : Int => Int} (hids : ∀ x ∈ ids, ∃ info, am.mapInfo.lookup x = some info) :
    ∃ setTried' mapNew', am.checkInfos ids (setTried, mapNew) = .ok (setTried', mapNew') ∧
      (∀ x, x ∈ setTried' ↔ x ∈ setTried ∨ x ∈ ids ∧ 0 < Bins.places am.vvTried x) ∧
      ∀ x, mapNew'.lookup x = if x ∈ ids ∧ 0 < Bins.refs am.vvNew x then
        some (Bins.refs am.vvNew x : Int) else mapNew.lookup x := by
  induction ids generalizing setTried mapNew with
  | nil => exact ⟨setTried, mapNew, rfl, fun x => by simp, fun x => by simp⟩
  | cons n ids ih =>
    obtain ⟨info, hinfo⟩ := hids n List.mem_cons_self
    have hids' : ∀ x ∈ ids, ∃ info, am.mapInfo.lookup x = some info := fun x hx =>
      hids x (List.mem_cons_of_mem n hx)
    have hkept := h.kept_of_lookup hinfo
    have haddr : ¬ (am.mapAddr.lookup info.toCNetAddr).getD 0 ≠ n := by
      rw [h.lookup_mapAddr hinfo]
      exact not_not.mpr rfl
    have hpos : ¬ (info.nRandomPos < 0 ∨ am.vRandom[info.nRandomPos.toNat]? ≠ some n) := by
      rw [not_or, not_not]
      exact ⟨Int.not_lt.mpr (h.located.nonneg (pos_of_lookup hinfo)),
        h.located.getElem?_eq (pos_of_lookup hinfo)⟩
    have htry : ¬ info.nLastTry < 0 := Int64.not_lt.mpr hkept.nLastTry
    have hsuccess : ¬ info.nLastSuccess < 0 := Int64.not_lt.mpr hkept.nLastSuccess
    -- what is checked of both kinds
    have hboth (sets : Finset Int × (AList fun _ : Int => Int)) :
        (if (am.mapAddr.lookup info.toCNetAddr).getD 0 ≠ n then .error (-5)
        else if info.nRandomPos < 0 ∨ am.vRandom[info.nRandomPos.toNat]? ≠ some n then .error (-14)
        else if info.nLastTry < 0 then .error (-6)
        else if info.nLastSuccess < 0 then .error (-8)
        else am.checkInfos ids sets) = am.checkInfos ids sets := by
      rw [if_neg haddr, if_neg hpos, if_neg htry, if_neg hsuccess]
    rw [checkInfos, hinfo]
    dsimp only
    rcases h.kinds hinfo with ⟨hflag, hplaces, hrefs⟩ | ⟨hflag, hplaces, hcount, hone, hfour⟩
    · -- a tried entry
      obtain ⟨hnonzero, hzero, -⟩ := hkept.tried hflag
      obtain ⟨setTried', mapNew', hrun, htried, hnew⟩ :=
        @ih (insert n setTried) mapNew hids'
      refine ⟨setTried', mapNew', ?_, fun x => ?_, fun x => ?_⟩
      · rw [if_pos hflag, if_neg hnonzero, if_neg (not_not.mpr hzero)]
        exact (hboth _).trans hrun
      · rw [htried, Finset.mem_insert, List.mem_cons]
        by_cases hx : x = n
        · subst hx
          simp [hplaces]
        · simp [hx]
      · rw [hnew]
        by_cases hx : x = n
        · subst hx
          simp [hrefs]
        · simp [hx]
    · -- a new one
      obtain ⟨setTried', mapNew', hrun, htried, hnew⟩ :=
        @ih setTried (mapNew.insert n info.nRefCount) hids'
      refine ⟨setTried', mapNew', ?_, fun x => ?_, fun x => ?_⟩
      · have hbound : ¬ (info.nRefCount < 0 ∨ ADDRMAN_NEW_BUCKETS_PER_ADDRESS < info.nRefCount) := by
          rw [ADDRMAN_NEW_BUCKETS_PER_ADDRESS]
          omega
        rw [if_neg (by rw [hflag]; exact Bool.false_ne_true), if_neg hbound, if_neg (by omega)]
        exact (hboth _).trans hrun
      · rw [htried, List.mem_cons]
        by_cases hx : x = n
        · subst hx
          simp [hplaces]
        · simp [hx]
      · rw [hnew]
        by_cases hx : x = n
        · subst hx
          have hpositive : 0 < Bins.refs am.vvNew x := by omega
          simp [hpositive, hcount]
        · simp [hx, AList.lookup_insert_ne hx]

end Loops

/-! ## The whole check -/

section Whole

/-- **Where the tables agree the check finds nothing.** -/
theorem Sound.check_eq_zero (h : Sound am fun _ => 0) : am.check_ = 0 := by
  have hlookup (x : Int) : x ∈ am.ids ↔ ∃ info, am.mapInfo.lookup x = some info := by
    rw [ids, Finset.mem_sort, List.mem_toFinset, ← AList.mem_keys, ← AList.lookup_isSome,
      Option.isSome_iff_exists]
  obtain ⟨setTried, mapNew, hinfos, htried, hnew⟩ :=
    @checkInfos_spec am h am.ids ∅ ∅ fun x hx => (hlookup x).mp hx
  -- the lists of the loops over the buckets
  have hnodup : ((List.finRange ADDRMAN_TRIED_BUCKET_COUNT).flatMap am.vvTried).Nodup := by
    refine List.nodup_iff_count_le_one.mpr fun x => ?_
    rw [Bins.count_flatMap]
    exact h.places_le_one x
  have hlisted (x : Int) : x ∈ (List.finRange ADDRMAN_TRIED_BUCKET_COUNT).flatMap am.vvTried ↔
      0 < Bins.places am.vvTried x := by
    rw [← List.count_pos_iff, Bins.count_flatMap]
  have htried : setTried =
      ((List.finRange ADDRMAN_TRIED_BUCKET_COUNT).flatMap am.vvTried).toFinset := by
    ext x
    rw [htried, List.mem_toFinset, hlisted]
    constructor
    · rintro (hx | ⟨-, hx⟩)
      · exact absurd hx (Finset.notMem_empty x)
      · exact hx
    · exact fun hx => Or.inr ⟨(hlookup x).mpr (h.lookup_of_places (Nat.pos_iff_ne_zero.mp hx)), hx⟩
  have hnew (x : Int) : mapNew.lookup x =
      if 0 < Bins.refs am.vvNew x then some (Bins.refs am.vvNew x : Int) else none := by
    rw [hnew]
    by_cases hx : 0 < Bins.refs am.vvNew x
    · obtain ⟨n, hn⟩ := Bins.refs_pos.mp hx
      rw [if_pos hx, if_pos ⟨(hlookup x).mpr (h.lookup_of_mem_new hn), hx⟩]
    · rw [if_neg hx, if_neg fun hboth => hx hboth.2]
      rfl
  have hkeys (x : Int) : x ∈ mapNew.keys ↔ 0 < Bins.refs am.vvNew x := by
    rw [← AList.mem_keys, ← AList.lookup_isSome, hnew]
    split_ifs with hx
    · exact iff_of_true rfl hx
    · exact iff_of_false Bool.false_ne_true hx
  have hnTried : (setTried.card : Int) = am.nTried := by
    rw [htried, List.toFinset_card_of_nodup hnodup, Bins.length_flatMap, h.nTried]
  -- the entries are those of both kinds
  have hall : am.vRandom.toFinset = setTried ∪ mapNew.keys.toFinset := by
    ext x
    rw [List.mem_toFinset, h.mem_vRandom_iff, Finset.mem_union, htried, List.mem_toFinset,
      List.mem_toFinset, hlisted, hkeys]
  have hdisjoint : Disjoint setTried mapNew.keys.toFinset := by
    refine Finset.disjoint_left.mpr fun x hx hx' => ?_
    rw [htried, List.mem_toFinset, hlisted] at hx
    rw [List.mem_toFinset, hkeys] at hx'
    obtain ⟨info, hinfo⟩ := h.lookup_of_places (Nat.pos_iff_ne_zero.mp hx)
    rcases h.kinds hinfo with hkind | hkind <;> omega
  have hnNew : (mapNew.keys.length : Int) = am.nNew := by
    have hcard := congrArg Finset.card hall
    rw [Finset.card_union_of_disjoint hdisjoint, List.toFinset_card_of_nodup h.located.nodup,
      List.toFinset_card_of_nodup mapNew.keys_nodup] at hcard
    have hsize := h.size
    omega
  have hticked := checkTried_spec hnodup fun x hx => htried ▸ List.mem_toFinset.mpr hx
  rw [← htried, Finset.sdiff_self] at hticked
  have hcounts (x : Int) : mapNew.lookup x =
      if 0 < ((List.finRange ADDRMAN_NEW_BUCKET_COUNT).flatMap fun n => (am.vvNew n).sort).count x
      then some (((List.finRange ADDRMAN_NEW_BUCKET_COUNT).flatMap
        fun n => (am.vvNew n).sort).count x : Int) else none := by
    rw [Bins.count_flatMap, Bins.places_toList (fun i => Finset.sort_nodup _ _)
      (fun i y => Finset.mem_sort _), hnew]
  obtain ⟨mapNew', hchecked, hnone⟩ := checkNew_spec hcounts
  rw [check_, checkAll, if_neg (not_not.mpr h.size), hinfos]
  dsimp only [Except.bind, bind]
  rw [if_neg (not_not.mpr hnTried), if_neg (not_not.mpr hnNew), hticked]
  dsimp only
  rw [hchecked]
  dsimp only
  rw [if_neg (not_not.mpr rfl), if_neg (not_not.mpr hnone)]

end Whole

end CAddrMan

/-! ## Runs -/

/-- A call with the times that the node gives: an address is reached at a positive time, and no
attempt is made at a negative one. -/
def AddrManCall.Timely : AddrManCall → Prop
  | .good _ nTime => 0 < nTime
  | .attempt _ nTime => 0 ≤ nTime
  | _ => True

/-- A call that reaches an address at a positive time, if it reaches one. -/
def AddrManCall.ReachesTimely : AddrManCall → Prop
  | .good _ nTime => 0 < nTime
  | _ => True

namespace CAddrMan

section Runs

variable {am : CAddrMan}

theorem sound_empty (nKey : List UInt8) : Sound (empty nKey) fun _ => 0 where
  located := Located.empty
  address addr nId := by
    constructor
    · nofun
    · rintro ⟨info, hinfo, -⟩
      cases hinfo
  fresh nId h := absurd rfl h
  kept nId info h := nomatch h
  unknown nId _ := by
    refine ⟨?_, Bins.refs_eq_zero.mpr fun n => Finset.notMem_empty nId⟩
    exact Finset.sum_eq_zero fun n _ => List.count_nil
  nTried := by
    have htotal : Bins.total (empty nKey).vvTried = 0 := Finset.sum_eq_zero fun n _ => List.length_nil
    rw [htotal]
    rfl
  size := rfl
  tried_le _ := Nat.zero_le _
  new_le _ := Nat.zero_le _

/-- Every call leaves the tables in agreement, and no assertion fails in it. -/
theorem Sound.call (h : Sound am fun _ => 0) (env : AddrEnv) {c : AddrManCall} (hc : c.Timely) :
    ∃ am', am.call env c = some am' ∧ Sound am' fun _ => 0 := by
  cases c with
  | add addr source nTimePenalty =>
    obtain ⟨r, am', hadd, hsound⟩ := h.add_ env addr source nTimePenalty
    rw [CAddrMan.call, hadd]
    exact ⟨am', rfl, hsound⟩
  | good addr nTime =>
    have hpos : 0 < nTime := hc
    exact h.good_ env addr (Int64.le_of_lt hpos) fun heq => Int64.lt_irrefl (heq ▸ hpos)
  | attempt addr nTime => exact ⟨_, rfl, h.attempt_ addr hc⟩
  | connected addr nTime => exact ⟨_, rfl, h.connected_ addr nTime⟩
  | select fTried chance rounds =>
    obtain ⟨r, hselect⟩ := h.select_ env fTried chance rounds
    rw [CAddrMan.call, hselect]
    exact ⟨am, rfl, h⟩
  | getAddr =>
    obtain ⟨vAddr, am', hget, hsound, -⟩ := h.getAddr_ env
    rw [CAddrMan.call, hget]
    exact ⟨am', rfl, hsound⟩

/-- So does every run. -/
theorem Sound.run (h : Sound am fun _ => 0) {calls : List (AddrEnv × AddrManCall)}
    (hcalls : ∀ c ∈ calls, c.2.Timely) :
    ∃ am', am.run calls = some am' ∧ Sound am' fun _ => 0 := by
  induction calls generalizing am with
  | nil => exact ⟨am, rfl, h⟩
  | cons c calls ih =>
    obtain ⟨am₁, hcall, hsound⟩ := h.call c.1 (hcalls c List.mem_cons_self)
    obtain ⟨am', hrun, hsound'⟩ := ih hsound fun c hc => hcalls c (List.mem_cons_of_mem _ hc)
    refine ⟨am', ?_, hsound'⟩
    rw [CAddrMan.run, hcall]
    exact hrun

/-- **After every run of calls** no assertion has failed, `Check_` finds nothing, an entry is in one
tried bucket or in as many new ones as it counts, no bucket holds too many, and `GetAddr_` returns as
many known and distinct addresses as the size allows. -/
theorem address_manager_invariant (nKey : List UInt8) (calls : List (AddrEnv × AddrManCall))
    (hcalls : ∀ c ∈ calls, c.2.Timely) :
    ∃ am, (empty nKey).run calls = some am ∧ am.check_ = 0 ∧
      (∀ nId info, am.mapInfo.lookup nId = some info →
        (info.fInTried = true ∧ Bins.places am.vvTried nId = 1 ∧ Bins.refs am.vvNew nId = 0) ∨
          (info.fInTried = false ∧ Bins.places am.vvTried nId = 0 ∧
            info.nRefCount = Bins.refs am.vvNew nId ∧ 1 ≤ info.nRefCount ∧ info.nRefCount ≤ 4)) ∧
      (∀ nKBucket, (am.vvTried nKBucket).length ≤ ADDRMAN_TRIED_BUCKET_SIZE) ∧
      (∀ nUBucket, (am.vvNew nUBucket).card ≤ ADDRMAN_NEW_BUCKET_SIZE) ∧
      ∀ env, ∃ vAddr am', am.getAddr_ env = some (vAddr, am') ∧
        vAddr.length = min (23 * am.vRandom.length / 100) 2500 ∧
        (vAddr.map fun addr => addr.toCNetAddr).Nodup ∧
        ∀ addr ∈ vAddr, ∃ nId info, am.find addr.toCNetAddr = some (nId, info) ∧
          info.toCAddress = addr := by
  obtain ⟨am, hrun, hsound⟩ := (sound_empty nKey).run hcalls
  refine ⟨am, hrun, hsound.check_eq_zero, fun nId info => hsound.kinds, hsound.tried_le,
    hsound.new_le, fun env => ?_⟩
  obtain ⟨vAddr, am', hget, -, hresult⟩ := hsound.getAddr_ env
  exact ⟨vAddr, am', hget, hresult⟩

/-- An address that can be routed. -/
def sampleAddress : CAddress where
  ip := List.replicate 16 1
  length_ip := rfl
  port := 21600
  nServices := 1
  nTime := 1000
  nLastTry := 0

/-- What the calls of the samples meet. -/
def sampleEnv : AddrEnv := ⟨fun _ => 0, 2000, fun _ => 0⟩

/-- An address is told, attempted and reached. -/
def sampleAddrCalls : List (AddrEnv × AddrManCall) :=
  [(sampleEnv, .add sampleAddress sampleAddress.toCNetAddr 0),
    (sampleEnv, .attempt sampleAddress.toCService 2000),
    (sampleEnv, .good sampleAddress.toCService 2000)]

theorem address_manager_invariant_sampleAddrCalls :
    ∃ am, (empty []).run sampleAddrCalls = some am ∧ am.check_ = 0 := by
  obtain ⟨am, hrun, hcheck, -⟩ := address_manager_invariant [] sampleAddrCalls (by
    intro c hc
    rcases List.mem_cons.mp hc with rfl | hc
    · trivial
    rcases List.mem_cons.mp hc with rfl | hc
    · exact (by decide : (0 : Int64) ≤ 2000)
    · rw [List.mem_singleton.mp hc]
      exact (by decide : (0 : Int64) < 2000))
  exact ⟨am, hrun, hcheck⟩

/-- An address is told, and attempted at a negative time. -/
def earlyAddrCalls : List (AddrEnv × AddrManCall) :=
  [(sampleEnv, .add sampleAddress sampleAddress.toCNetAddr 0),
    (sampleEnv, .attempt sampleAddress.toCService (-1))]

/-- The check finds the time of the attempt. -/
theorem not_address_manager_invariant : ¬ ∀ (nKey : List UInt8)
    (calls : List (AddrEnv × AddrManCall)), (∀ c ∈ calls, c.2.ReachesTimely) →
      ∃ am, (empty nKey).run calls = some am ∧ am.check_ = 0 := by
  intro hall
  obtain ⟨am, hrun, hcheck⟩ := hall [] earlyAddrCalls (by
    intro c hc
    rcases List.mem_cons.mp hc with rfl | hc
    · trivial
    · rw [List.mem_singleton.mp hc]
      trivial)
  have ham : am = ((empty []).run earlyAddrCalls).getD (empty []) := by
    rw [hrun]
    rfl
  have hkeys : am.mapInfo.keys.toFinset = {0} := by
    rw [ham]
    decide +kernel
  have hids : am.ids = [0] := by
    rw [ids, hkeys, Finset.sort_singleton]
  rw [check_, checkAll, hids, ham] at hcheck
  revert hcheck
  decide +kernel

end Runs

end CAddrMan

end MotaCoin
