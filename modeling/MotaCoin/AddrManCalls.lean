import MotaCoin.AddrManSound

/-!
# The calls of the address manager

Every call finds the tables in agreement and leaves them so, whatever the random source gives and
whatever hash selects the buckets, and no assertion fails.

## Main definitions

* `CAddrMan.owes`: one entry counts a reference more than it has
* `CAddrMan.withFresh`: the table with a fresh entry

## Main results

* `Sound.good_`, `Sound.add_`, `Sound.attempt_`, `Sound.connected_`, `Sound.select_`: the calls
* `Sound.getAddr_`: the addresses that are returned
-/

namespace MotaCoin

open Positions

namespace CAddrMan

variable {am : CAddrMan} {owed : Int → Nat} {nId : Int} {info : CAddrInfo}

theorem find_eq_some {addr : CNetAddr} (h : am.find addr = some (nId, info)) :
    am.mapInfo.lookup nId = some info ∧ am.mapAddr.lookup addr = some nId := by
  obtain ⟨x, haddr, hx⟩ := Option.bind_eq_some_iff.mp h
  obtain ⟨infoX, hinfo, heq⟩ := Option.map_eq_some_iff.mp hx
  obtain ⟨rfl, rfl⟩ := Prod.mk.inj heq
  exact ⟨hinfo, haddr⟩

/-! ## One more reference -/

section AddRef

variable {nUBucket : Fin ADDRMAN_NEW_BUCKET_COUNT}

/-- The one entry that counts a reference more than it has. -/
def owes (nId : Int) : Int → Nat := Function.update (fun _ => 0) nId 1

theorem owes_self (nId : Int) : owes nId nId = 1 := Function.update_self ..

theorem owes_of_ne {x : Int} (hx : x ≠ nId) : owes nId x = 0 := Function.update_of_ne hx ..

/-- The reference that is owed is put where there is room. -/
theorem Sound.insertNew (h : Sound am (owes nId)) (hentry : am.entry nId ≠ none)
    (hmem : nId ∉ am.vvNew nUBucket)
    (hroom : (am.vvNew nUBucket).card < ADDRMAN_NEW_BUCKET_SIZE) :
    Sound { am with vvNew := Function.update am.vvNew nUBucket (insert nId (am.vvNew nUBucket)) }
      fun _ => 0 := by
  have hrefs := Bins.refs_insert hmem
  refine ⟨⟨h.located, h.address, h.fresh⟩, fun x infoX hx => ?_, fun x hx => ?_, h.nTried, h.size,
    h.tried_le, fun n => ?_⟩
  · have hkept := h.kept x infoX hx
    dsimp only
    rw [hrefs]
    by_cases hxn : x = nId
    · subst hxn
      rw [owes_self] at hkept
      rw [if_pos rfl]
      refine ⟨hkept.nLastTry, hkept.nLastSuccess, fun htried => ?_, fun hnew => ?_⟩
      · -- a tried entry owes nothing
        obtain ⟨-, -, -, -, hzero⟩ := hkept.tried htried
        exact absurd hzero Nat.one_ne_zero
      · exact hkept.new hnew
    · rw [owes_of_ne hxn] at hkept
      rw [if_neg hxn, Nat.add_zero]
      exact hkept
  · have hxn : x ≠ nId := fun heq => hentry (heq ▸ hx)
    dsimp only
    rw [hrefs, if_neg hxn, Nat.add_zero]
    exact h.unknown x hx
  · dsimp only
    by_cases hn : n = nUBucket
    · rw [hn, Function.update_self]
      exact (Finset.card_insert_le _ _).trans hroom
    · rw [Function.update_of_ne hn]
      exact h.new_le n

/-- The end of `addRef`: a full bucket is shrunk, then the id is put into it. -/
theorem Sound.addOwed (h : Sound am (owes nId)) (hentry : am.entry nId ≠ none)
    (hmem : nId ∉ am.vvNew nUBucket) (nNow : Int64) (rand : Nat → Nat) :
    ∃ am', (∀ rest : CAddrMan → Option CAddrMan,
        (if (am.vvNew nUBucket).card = ADDRMAN_NEW_BUCKET_SIZE then
          ((am.shrinkNew nNow rand nUBucket).map Prod.snd).bind rest
        else (some am).bind rest) = rest am') ∧
      Sound { am' with
        vvNew := Function.update am'.vvNew nUBucket (insert nId (am'.vvNew nUBucket)) }
        fun _ => 0 := by
  split_ifs with hfull
  · obtain ⟨r, am', x, hshrink, hx, hunref⟩ := h.shrinkNew nNow rand hfull
    obtain ⟨am₂, hunref₂, hsound, -, hvvNew, hother⟩ := h.unref hx
    obtain rfl := Option.some.inj (hunref₂.symm.trans hunref)
    have hne : nId ≠ x := fun heq => hmem (heq ▸ hx)
    have hbucket : am₂.vvNew nUBucket = (am.vvNew nUBucket).erase x := by
      rw [hvvNew, without, Function.update_self]
    refine ⟨am₂, fun rest => by rw [hshrink]; rfl, hsound.insertNew ?_ ?_ ?_⟩
    · rwa [hother nId hne]
    · rw [hbucket]
      exact fun hin => hmem (Finset.mem_of_mem_erase hin)
    · rw [hbucket, ← hfull]
      exact Finset.card_erase_lt_of_mem hx
  · exact ⟨am, fun _ => rfl, h.insertNew hentry hmem (lt_of_le_of_ne (h.new_le nUBucket) hfull)⟩

/-- An entry that may have one reference more gets it, where the source puts it. -/
theorem addRef_spec (env : AddrEnv) (source : CNetAddr) (hinfo : am.mapInfo.lookup nId = some info)
    (hin : ∀ n, nId ∈ am.vvNew n → Sound am fun _ => 0)
    (hout : Sound (am.setInfo nId { info with nRefCount := info.nRefCount + 1 }) (owes nId)) :
    ∃ am', am.addRef env nId source = some am' ∧ Sound am' fun _ => 0 := by
  unfold addRef
  dsimp only [Option.bind_eq_bind]
  rw [hinfo, Option.bind_some]
  generalize info.getNewBucketFrom env.hash64 am.nKey source = nUBucket
  by_cases hmem : nId ∈ am.vvNew nUBucket
  · rw [if_pos hmem]
    exact ⟨am, rfl, hin nUBucket hmem⟩
  · rw [if_neg hmem]
    have hentry : (am.setInfo nId { info with nRefCount := info.nRefCount + 1 }).entry nId ≠ none := by
      rw [entry_setInfo, Function.update_self]
      exact Option.some_ne_none _
    obtain ⟨am', hcode, hsound⟩ := hout.addOwed hentry hmem env.adjustedTime
      fun i => env.rand (1 + i)
    rw [hcode]
    exact ⟨_, rfl, hsound⟩

/-- An entry of the new buckets that counts less than four of them gets one more. -/
theorem Sound.addRef (h : Sound am fun _ => 0) (env : AddrEnv) (source : CNetAddr)
    (hinfo : am.mapInfo.lookup nId = some info) (hnew : info.fInTried = false)
    (hfour : info.nRefCount ≠ ADDRMAN_NEW_BUCKETS_PER_ADDRESS) :
    ∃ am', am.addRef env nId source = some am' ∧ Sound am' fun _ => 0 := by
  have hkept := h.kept_of_lookup hinfo
  obtain ⟨hpos, hmax, hcount, hplaces⟩ := hkept.new hnew
  have hfour : info.nRefCount ≠ 4 := hfour
  refine addRef_spec env source hinfo (fun _ _ => h) (h.setInfo hinfo rfl rfl
    (fun x hx => owes_of_ne hx) ?_)
  rw [owes_self]
  refine ⟨hkept.nLastTry, hkept.nLastSuccess, fun htried => ?_, fun _ => ?_⟩
  · exact absurd (hnew.symm.trans htried) Bool.false_ne_true
  · change 1 ≤ info.nRefCount + 1 ∧ info.nRefCount + 1 ≤ 4 ∧ info.nRefCount + 1 = _ ∧ _
    omega

/-! ### A fresh entry -/

section Create

variable (addr : CAddress) (addrSource : CNetAddr)

/-- What `Create` puts into the table. -/
def created (am : CAddrMan) : CAddrInfo :=
  { CAddrInfo.ofAddress addr addrSource with nRandomPos := am.vRandom.length }

/-- The fresh entry, with a reference that it does not have yet. -/
def withFresh (am : CAddrMan) : CAddrMan :=
  (am.create addr addrSource).2.setInfo am.nIdCount
    { created addr addrSource am with nRefCount := 1 }

theorem entry_nIdCount (h : Indexed am) : am.entry am.nIdCount = none := by
  by_contra hne
  exact absurd (h.fresh am.nIdCount hne) (lt_irrefl _)

theorem pos_nIdCount (h : Indexed am) : am.pos am.nIdCount = none := by
  have hentry := entry_nIdCount h
  rw [entry, Option.map_eq_none_iff] at hentry
  rw [pos, hentry]
  rfl

theorem entry_withFresh (am : CAddrMan) : (am.withFresh addr addrSource).entry =
    Function.update am.entry am.nIdCount
      (some { created addr addrSource am with nRefCount := 1, nRandomPos := 0 }) := by
  rw [withFresh, entry_setInfo]
  change Function.update (am.setInfo am.nIdCount (created addr addrSource am)).entry _ _ = _
  rw [entry_setInfo, Function.update_idem]

theorem mapAddr_eq_none (h : Indexed am) (hunknown : am.find addr.toCNetAddr = none) :
    am.mapAddr.lookup addr.toCNetAddr = none := by
  by_contra hne
  obtain ⟨x, hx⟩ := Option.ne_none_iff_exists'.mp hne
  obtain ⟨info, hinfo, -⟩ := (h.address _ x).mp hx
  obtain ⟨info, hinfo, -⟩ := lookup_of_entry hinfo
  rw [find, hx, Option.bind_some, hinfo] at hunknown
  cases hunknown

/-- A fresh entry has its own id, address and position. -/
theorem Indexed.withFresh (h : Indexed am) (hunknown : am.find addr.toCNetAddr = none) :
    Indexed (am.withFresh addr addrSource) where
  located := by
    have hpos : (am.withFresh addr addrSource).pos =
        Function.update am.pos am.nIdCount (some (am.vRandom.length : Int)) := by
      rw [CAddrMan.withFresh, pos_setInfo]
      change Function.update (am.setInfo am.nIdCount (created addr addrSource am)).pos _ _ = _
      rw [pos_setInfo, Function.update_idem]
      rfl
    rw [hpos]
    exact h.located.push (pos_nIdCount h)
  address a x := by
    have hnone := mapAddr_eq_none addr h hunknown
    have hentry := entry_nIdCount h
    rw [entry_withFresh]
    change (am.mapAddr.insert addr.toCNetAddr am.nIdCount).lookup a = some x ↔ _
    by_cases ha : a = addr.toCNetAddr
    · -- the address of the entry, which no other one has
      subst ha
      rw [AList.lookup_insert, Option.some_inj]
      constructor
      · rintro rfl
        exact ⟨_, Function.update_self .., rfl⟩
      · rintro ⟨info, hinfo, haddr⟩
        by_contra hx
        rw [Function.update_of_ne (Ne.symm hx)] at hinfo
        rw [(h.address _ x).mpr ⟨info, hinfo, haddr⟩] at hnone
        cases hnone
    · rw [AList.lookup_insert_ne ha, h.address a x]
      by_cases hx : x = am.nIdCount
      · subst hx
        rw [Function.update_self, hentry]
        constructor
        · rintro ⟨_, hinfo, -⟩
          cases hinfo
        · rintro ⟨info, hinfo, rfl⟩
          obtain rfl := Option.some.inj hinfo
          exact absurd rfl ha
      · rw [Function.update_of_ne hx]
  fresh x hx := by
    change x < am.nIdCount + 1
    rw [entry_withFresh] at hx
    by_cases hxn : x = am.nIdCount
    · omega
    · rw [Function.update_of_ne hxn] at hx
      exact (h.fresh x hx).trans (Int.lt_succ _)

/-- A fresh entry, which counts a reference before it has one. -/
theorem Sound.withFresh (h : Sound am fun _ => 0) (hunknown : am.find addr.toCNetAddr = none) :
    Sound { am.withFresh addr addrSource with nNew := am.nNew + 1 } (owes am.nIdCount) := by
  have hentry := entry_nIdCount h.toIndexed
  obtain ⟨hplaces, hrefs⟩ := h.unknown _ hentry
  have hindexed := h.toIndexed.withFresh addr addrSource hunknown
  refine ⟨⟨hindexed.located, hindexed.address, hindexed.fresh⟩, fun x infoX hx => ?_, fun x hx => ?_,
    h.nTried, ?_, h.tried_le, h.new_le⟩
  · change (am.withFresh addr addrSource).entry x = some infoX at hx
    rw [entry_withFresh] at hx
    by_cases hxn : x = am.nIdCount
    · subst hxn
      rw [Function.update_self] at hx
      obtain rfl := Option.some.inj hx
      rw [owes_self]
      refine ⟨Int64.le_refl 0, Int64.le_refl 0, nofun, fun _ =>
        ⟨le_refl 1, show (1 : Int) ≤ 4 by decide, ?_, hplaces⟩⟩
      change (1 : Int) = ((Bins.refs am.vvNew am.nIdCount + 1 : Nat) : Int)
      rw [hrefs]
      rfl
    · rw [Function.update_of_ne hxn] at hx
      rw [owes_of_ne hxn]
      exact h.kept x infoX hx
  · change (am.withFresh addr addrSource).entry x = none at hx
    rw [entry_withFresh] at hx
    by_cases hxn : x = am.nIdCount
    · subst hxn
      rw [Function.update_self] at hx
      cases hx
    · rw [Function.update_of_ne hxn] at hx
      exact h.unknown x hx
  · change (((am.vRandom ++ [am.nIdCount]).length : Nat) : Int) = am.nTried + (am.nNew + 1)
    have hsize := h.size
    rw [List.length_append, List.length_singleton]
    omega

/-- A new address gets an entry and its first reference. -/
theorem Sound.addCreated (h : Sound am fun _ => 0) (env : AddrEnv)
    (hunknown : am.find addr.toCNetAddr = none) :
    ∃ am', ({ (am.create addr addrSource).2 with nNew := am.nNew + 1 } : CAddrMan).addRef env
      am.nIdCount addrSource = some am' ∧ Sound am' fun _ => 0 := by
  have hinfo : (am.mapInfo.insert am.nIdCount (created addr addrSource am)).lookup am.nIdCount =
      some (created addr addrSource am) := AList.lookup_insert _
  obtain ⟨-, hrefs⟩ := h.unknown _ (entry_nIdCount h.toIndexed)
  refine addRef_spec env addrSource hinfo (fun n hmem => ?_)
    (h.withFresh addr addrSource hunknown)
  exact absurd hmem (Bins.refs_eq_zero.mp hrefs n)

end Create

end AddRef

/-! ## The calls -/

section Calls

/-- An entry is written that has gained times which are not negative. -/
theorem Sound.setTimes (h : Sound am fun _ => 0) {info' : CAddrInfo}
    (hinfo : am.mapInfo.lookup nId = some info) (hpos : info'.nRandomPos = info.nRandomPos)
    (haddr : info'.toCNetAddr = info.toCNetAddr) (hflag : info'.fInTried = info.fInTried)
    (hrefs : info'.nRefCount = info.nRefCount) (htry : 0 ≤ info'.nLastTry)
    (hsuccess : 0 ≤ info'.nLastSuccess)
    (hnonzero : info.nLastSuccess ≠ 0 → info'.nLastSuccess ≠ 0) :
    Sound (am.setInfo nId info') fun _ => 0 := by
  have hkept := h.kept_of_lookup hinfo
  refine h.setInfo hinfo hpos haddr (fun _ _ => rfl) ⟨htry, hsuccess, fun htried => ?_, fun hnew => ?_⟩
  · rw [hrefs]
    exact (hkept.tried (hflag ▸ htried)).imp_left hnonzero
  · rw [hrefs]
    exact hkept.new (hflag ▸ hnew)

theorem Sound.attempt_ (h : Sound am fun _ => 0) (addr : CService) {nTime : Int64}
    (htime : 0 ≤ nTime) : Sound (am.attempt_ addr nTime) fun _ => 0 := by
  unfold CAddrMan.attempt_
  cases hfind : am.find addr.toCNetAddr with
  | none => exact h
  | some found =>
    obtain ⟨nId, info⟩ := found
    obtain ⟨hinfo, -⟩ := find_eq_some hfind
    dsimp only
    split_ifs
    · exact h
    · exact h.setTimes hinfo rfl rfl rfl rfl htime (h.kept_of_lookup hinfo).nLastSuccess id

theorem Sound.connected_ (h : Sound am fun _ => 0) (addr : CService) (nTime : Int64) :
    Sound (am.connected_ addr nTime) fun _ => 0 := by
  unfold CAddrMan.connected_
  cases hfind : am.find addr.toCNetAddr with
  | none => exact h
  | some found =>
    obtain ⟨nId, info⟩ := found
    obtain ⟨hinfo, -⟩ := find_eq_some hfind
    have hkept := h.kept_of_lookup hinfo
    dsimp only
    split_ifs
    · exact h
    · exact h.setTimes hinfo rfl rfl rfl rfl hkept.nLastTry hkept.nLastSuccess id
    · exact h

/-- An address is reached. -/
theorem Sound.good_ (h : Sound am fun _ => 0) (env : AddrEnv) (addr : CService) {nTime : Int64}
    (htime : 0 ≤ nTime) (hnonzero : nTime ≠ 0) :
    ∃ am', am.good_ env addr nTime = some am' ∧ Sound am' fun _ => 0 := by
  unfold CAddrMan.good_
  cases hfind : am.find addr.toCNetAddr with
  | none => exact ⟨am, rfl, h⟩
  | some found =>
    obtain ⟨nId, info⟩ := found
    obtain ⟨hinfo, -⟩ := find_eq_some hfind
    dsimp only
    by_cases haddr : info.toCService ≠ addr
    · rw [if_pos haddr]
      exact ⟨am, rfl, h⟩
    rw [if_neg haddr]
    have hsound : Sound (am.setInfo nId { info with
        nLastSuccess := nTime, nLastTry := nTime, nTime := toUnsigned nTime, nAttempts := 0 })
        fun _ => 0 :=
      h.setTimes hinfo rfl rfl rfl rfl htime htime fun _ => hnonzero
    by_cases htried : info.fInTried = true
    · rw [if_pos htried]
      exact ⟨_, rfl, hsound⟩
    rw [if_neg htried]
    generalize hsearch : List.findSome? _ (List.range ADDRMAN_NEW_BUCKET_COUNT) = nUBucket
    cases nUBucket with
    | none => exact ⟨_, rfl, hsound⟩
    | some nUBucket =>
      -- the bucket that the search found holds the id
      obtain ⟨n, -, hn⟩ := List.exists_of_findSome?_eq_some hsearch
      split_ifs at hn with hmem
      obtain rfl := Option.some.inj hn
      exact hsound.makeTried env.hash64 _ (AList.lookup_insert _) (Bool.eq_false_of_not_eq_true htried)
        hnonzero hmem

/-- An address is told. -/
theorem Sound.add_ (h : Sound am fun _ => 0) (env : AddrEnv) (addr : CAddress) (source : CNetAddr)
    (nTimePenalty : Int64) :
    ∃ r am', am.add_ env addr source nTimePenalty = some (r, am') ∧ Sound am' fun _ => 0 := by
  unfold CAddrMan.add_
  by_cases hroutable : (!addr.isRoutable) = true
  · rw [if_pos hroutable]
    exact ⟨false, am, rfl, h⟩
  rw [if_neg hroutable]
  cases hfind : am.find addr.toCNetAddr with
  | none =>
    obtain ⟨am', hadd, hsound⟩ := h.addCreated
      { addr with nTime := penalized addr.nTime nTimePenalty } source env hfind
    refine ⟨true, am', ?_, hsound⟩
    change ((({ (am.create _ source).2 with nNew := am.nNew + 1 } : CAddrMan).addRef env
      am.nIdCount source).map fun am => (true, am)) = _
    rw [hadd]
    rfl
  | some found =>
    obtain ⟨nId, info⟩ := found
    obtain ⟨hinfo, -⟩ := find_eq_some hfind
    have hkept := h.kept_of_lookup hinfo
    have hsound : Sound (am.setInfo nId (refreshed env info addr nTimePenalty)) fun _ => 0 :=
      h.setTimes hinfo rfl rfl rfl rfl hkept.nLastTry hkept.nLastSuccess id
    dsimp only
    split_ifs with _ htried hfour
    · exact ⟨false, _, rfl, hsound⟩
    · exact ⟨false, _, rfl, hsound⟩
    · exact ⟨false, _, rfl, hsound⟩
    · exact ⟨false, _, rfl, hsound⟩
    · obtain ⟨am', hadd, hsound'⟩ := hsound.addRef env source (AList.lookup_insert _)
        (Bool.eq_false_of_not_eq_true htried) hfour
      rw [hadd]
      exact ⟨false, am', rfl, hsound'⟩

/-- Whatever bucket is looked into, its ids are known. -/
theorem selectFrom_spec {n : Nat} [NeZero n] {buckets : Fin n → List Int} (rand : Nat → Nat)
    (chance : Nat → CAddrInfo → Bool)
    (hknown : ∀ i, ∀ x ∈ buckets i, ∃ info, am.mapInfo.lookup x = some info) (rounds k : Nat) :
    ∃ r, am.selectFrom buckets rand chance rounds k = some r := by
  induction rounds generalizing k with
  | zero => exact ⟨none, rfl⟩
  | succ rounds ih =>
    rw [selectFrom]
    dsimp only [Option.bind_eq_bind]
    generalize Fin.ofNat n (getRandInt (rand (2 * k)) n) = i
    by_cases hempty : (buckets i).isEmpty = true
    · rw [if_pos hempty]
      exact ih (k + 1)
    · rw [if_neg hempty]
      have hpos : 0 < (buckets i).length := by
        rw [List.isEmpty_iff] at hempty
        exact List.length_pos_of_ne_nil hempty
      have hlt := getRandInt_lt (rand (2 * k + 1)) hpos
      obtain ⟨info, hinfo⟩ := hknown i _ (List.getElem_mem hlt)
      rw [List.getElem?_eq_getElem hlt, Option.bind_some, hinfo, Option.bind_some]
      split_ifs
      · exact ⟨_, rfl⟩
      · exact ih (k + 1)

theorem Sound.select_ (h : Sound am fun _ => 0) (env : AddrEnv) (fTried : Bool)
    (chance : Nat → CAddrInfo → Bool) (rounds : Nat) :
    ∃ r, am.select_ env fTried chance rounds = some r := by
  unfold CAddrMan.select_
  split_ifs with hempty hbuckets
  · exact ⟨_, rfl⟩
  · obtain ⟨r, hr⟩ := selectFrom_spec env.rand chance (fun i x hx => h.lookup_of_places
      (Nat.pos_iff_ne_zero.mp (Bins.places_pos.mpr ⟨i, hx⟩))) rounds 0
    rw [hr]
    exact ⟨_, rfl⟩
  · have hknown (nUBucket) (x : Int) (hx : x ∈ (am.vvNew nUBucket).sort) :
        ∃ info, am.mapInfo.lookup x = some info :=
      h.lookup_of_mem_new ((Finset.mem_sort (· ≤ ·)).mp hx)
    obtain ⟨r, hr⟩ := selectFrom_spec env.rand chance hknown rounds 0
    rw [hr]
    exact ⟨_, rfl⟩

/-- The same entries in another order. -/
theorem Sound.of_reordered (h : Sound am owed) {am' : CAddrMan}
    (hlocated : Located am'.vRandom am'.pos) (hentry : am'.entry = am.entry)
    (heq : am' = { am with mapInfo := am'.mapInfo, vRandom := am'.vRandom })
    (hlen : am'.vRandom.length = am.vRandom.length) : Sound am' owed := by
  have hvvTried : am'.vvTried = am.vvTried := by rw [heq]
  have hvvNew : am'.vvNew = am.vvNew := by rw [heq]
  have hmapAddr : am'.mapAddr = am.mapAddr := by rw [heq]
  have hnIdCount : am'.nIdCount = am.nIdCount := by rw [heq]
  have hnTried : am'.nTried = am.nTried := by rw [heq]
  have hnNew : am'.nNew = am.nNew := by rw [heq]
  refine ⟨⟨hlocated, ?_, ?_⟩, ?_, ?_, ?_, ?_, ?_, ?_⟩
  · rw [hmapAddr, hentry]
    exact h.address
  · rw [hentry, hnIdCount]
    exact h.fresh
  · rw [hentry, hvvTried, hvvNew]
    exact h.kept
  · rw [hentry, hvvTried, hvvNew]
    exact h.unknown
  · rw [hnTried, hvvTried]
    exact h.nTried
  · rw [hlen, hnTried, hnNew]
    exact h.size
  · rw [hvvTried]
    exact h.tried_le
  · rw [hvvNew]
    exact h.new_le

/-- What `GetAddr_` collects: the addresses of the first entries of the vector, which it shuffles. -/
theorem getAddrFrom_spec (h : Sound am owed) (rand : Nat → Nat) {k n : Nat}
    (hle : n + k ≤ am.vRandom.length) {vAddr : List CAddress}
    (hfirst : List.Forall₂ (fun x addr => ∃ info, am.entry x = some info ∧ info.toCAddress = addr)
      (am.vRandom.take n) vAddr) :
    ∃ vAddr' am', getAddrFrom rand k n am vAddr = some (vAddr', am') ∧ Sound am' owed ∧
      am'.entry = am.entry ∧ am'.vRandom.length = am.vRandom.length ∧
      List.Forall₂ (fun x addr => ∃ info, am'.entry x = some info ∧ info.toCAddress = addr)
        (am'.vRandom.take (n + k)) vAddr' := by
  induction k generalizing n am vAddr with
  | zero => exact ⟨vAddr, am, rfl, h, rfl, rfl, hfirst⟩
  | succ k ih =>
    have hlt := getRandInt_lt (rand n) (show 0 < am.vRandom.length - n by omega)
    rw [getAddrFrom]
    generalize getRandInt (rand n) (am.vRandom.length - n) = nRnd at hlt
    obtain ⟨am₁, hswap, hlocated, hentry, heq, hlen, -, hrest⟩ := swapRandom_spec h.located
      (show n < am.vRandom.length by omega) (show nRnd + n < am.vRandom.length by omega)
    have hsound := h.of_reordered hlocated hentry heq hlen
    have hn : n < am₁.vRandom.length := by omega
    have hget := List.getElem?_eq_getElem hn
    obtain ⟨info, hinfo, -⟩ := Option.map_eq_some_iff.mp (hlocated.pos_eq hget)
    -- the positions before stay as they are
    have htake : am₁.vRandom.take n = am.vRandom.take n := by
      refine List.ext_getElem? fun i => ?_
      rw [List.getElem?_take, List.getElem?_take]
      split_ifs with hi
      · exact hrest i (by omega) (by omega)
      · rfl
    have hfirst' : List.Forall₂
        (fun x addr => ∃ info, am₁.entry x = some info ∧ info.toCAddress = addr)
        (am₁.vRandom.take (n + 1)) (vAddr ++ [info.toCAddress]) := by
      rw [List.take_succ_eq_append_getElem hn, htake, hentry]
      have hlast : ∃ info', am.entry am₁.vRandom[n] = some info' ∧
          info'.toCAddress = info.toCAddress :=
        ⟨{ info with nRandomPos := 0 }, hentry ▸ entry_of_lookup hinfo, rfl⟩
      exact List.rel_append hfirst (List.Forall₂.cons hlast List.Forall₂.nil)
    obtain ⟨vAddr', am', hrun, hsound', hentry', hlen', hfirst''⟩ := ih hsound (by omega) hfirst'
    refine ⟨vAddr', am', ?_, hsound', hentry'.trans hentry, hlen'.trans hlen, ?_⟩
    · dsimp only [Option.bind_eq_bind]
      rw [hswap, Option.bind_some, hget, Option.bind_some, hinfo]
      exact hrun
    · rwa [show n + (k + 1) = n + 1 + k by omega]

/-- What stands for distinct things in one list is distinct in the other. -/
theorem nodup_map_of_forall₂ {α β γ : Type} {R : α → β → Prop} {f : β → γ} {l : List α}
    {l' : List β} (h : List.Forall₂ R l l')
    (hinj : ∀ {a a' b b'}, R a b → R a' b' → f b = f b' → a = a') (hnodup : l.Nodup) :
    (l'.map f).Nodup := by
  induction h with
  | nil => exact List.nodup_nil
  | @cons a b l l' hab hrest ih =>
    obtain ⟨hnotMem, hnodup⟩ := List.nodup_cons.mp hnodup
    refine List.nodup_cons.mpr ⟨fun hmem => ?_, ih hnodup⟩
    obtain ⟨b', hb', heq⟩ := List.mem_map.mp hmem
    obtain ⟨i, hi⟩ := List.mem_iff_getElem?.mp hb'
    obtain ⟨hlt, hget⟩ := List.getElem?_eq_some_iff.mp hi
    have hlt' : i < l.length := hrest.length_eq ▸ hlt
    have hab' := List.forall₂_iff_get.mp hrest |>.2 i hlt' hlt
    rw [List.get_eq_getElem, List.get_eq_getElem, hget] at hab'
    exact hnotMem (hinj hab hab' heq.symm ▸ List.getElem_mem hlt')

/-- **The addresses that are returned**: as many as the size allows, known and distinct. -/
theorem Sound.getAddr_ (h : Sound am owed) (env : AddrEnv) :
    ∃ vAddr am', am.getAddr_ env = some (vAddr, am') ∧ Sound am' owed ∧
      vAddr.length = min (23 * am.vRandom.length / 100) 2500 ∧
      (vAddr.map fun addr => addr.toCNetAddr).Nodup ∧
      ∀ addr ∈ vAddr, ∃ nId info, am.find addr.toCNetAddr = some (nId, info) ∧
        info.toCAddress = addr := by
  have hle : 0 + am.nNodes ≤ am.vRandom.length := by
    have hmin : am.nNodes ≤ 23 * am.vRandom.length / 100 := Nat.min_le_left ..
    omega
  obtain ⟨vAddr, am', hrun, hsound, hentry, hlen, hfirst⟩ := getAddrFrom_spec h env.rand hle
    List.Forall₂.nil
  rw [Nat.zero_add] at hfirst hle
  refine ⟨vAddr, am', hrun, hsound, ?_, ?_, fun addr haddr => ?_⟩
  · rw [← hfirst.length_eq, List.length_take, hlen, Nat.min_eq_left hle]
    rfl
  · refine nodup_map_of_forall₂ hfirst ?_
      (hsound.located.nodup.sublist (List.take_sublist am.nNodes am'.vRandom))
    rintro x y addr addr' ⟨info, hinfo, rfl⟩ ⟨info', hinfo', rfl⟩ hsame
    -- an address has one id
    have hx := (hsound.address _ x).mpr ⟨info, hinfo, rfl⟩
    have hy := (hsound.address _ y).mpr ⟨info', hinfo', rfl⟩
    have hsame : info.toCNetAddr = info'.toCNetAddr := hsame
    rw [hsame] at hx
    exact Option.some.inj (hx.symm.trans hy)
  · obtain ⟨i, hi⟩ := List.mem_iff_getElem?.mp haddr
    obtain ⟨hlt, hget⟩ := List.getElem?_eq_some_iff.mp hi
    have hlt' : i < (am'.vRandom.take am.nNodes).length := hfirst.length_eq ▸ hlt
    obtain ⟨info, hinfo, hinfoAddr⟩ := List.forall₂_iff_get.mp hfirst |>.2 i hlt' hlt
    rw [List.get_eq_getElem, hget] at hinfoAddr
    rw [hentry] at hinfo
    obtain ⟨info', hinfo', rfl⟩ := lookup_of_entry hinfo
    have hknown := h.lookup_mapAddr hinfo'
    have hinfoAddr : info'.toCAddress = addr := hinfoAddr
    subst hinfoAddr
    generalize (am'.vRandom.take am.nNodes).get ⟨i, hlt'⟩ = x at hinfo' hknown
    have hfind : am.find info'.toCNetAddr = some (x, info') := by
      rw [find, hknown, Option.bind_some, hinfo']
      rfl
    exact ⟨x, info', hfind, rfl⟩

end Calls

end CAddrMan

end MotaCoin
