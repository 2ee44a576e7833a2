import MotaCoin.AddrMan
import MotaCoin.Lib.Positions

/-!
# The address manager keeps its tables together

Seven structures say the same thing of the entries: who they are by id and by address, where they are
in the vector, in which buckets they lie, and how many there are of both kinds. The parts of the
manager keep that up, up to one reference of a new bucket that an entry may already count.

## Main definitions

* `CAddrMan.entry`, `CAddrMan.pos`: an entry apart from its position, and the position
* `CAddrMan.Kept`: what the tables say of one entry
* `CAddrMan.Sound`: the tables agree

## Main results

* `swapRandom_spec`, `Sound.unref`, `Sound.shrinkNew`, `Sound.makeTried`: what the parts do
-/

namespace MotaCoin

open Positions

namespace CAddrMan

/-! ## What the tables say -/

/-- Where an entry is in the vector. -/
def pos (am : CAddrMan) (nId : Int) : Option Int := (am.mapInfo.lookup nId).map CAddrInfo.nRandomPos

/-- An entry, apart from where it is in the vector. -/
def entry (am : CAddrMan) (nId : Int) : Option CAddrInfo :=
  (am.mapInfo.lookup nId).map fun info => { info with nRandomPos := 0 }

/-- What the tables say of an entry that lies in `places` tried buckets and in `refs` new ones and
counts `owed` more. -/
structure Kept (info : CAddrInfo) (places refs owed : Nat) : Prop where
  nLastTry : 0 ≤ info.nLastTry
  nLastSuccess : 0 ≤ info.nLastSuccess
  tried : info.fInTried = true →
    info.nLastSuccess ≠ 0 ∧ info.nRefCount = 0 ∧ places = 1 ∧ refs = 0 ∧ owed = 0
  new : info.fInTried = false →
    1 ≤ info.nRefCount ∧ info.nRefCount ≤ 4 ∧ info.nRefCount = (refs + owed : Nat) ∧ places = 0

/-- Ids, addresses and positions are those of the entries. -/
structure Indexed (am : CAddrMan) : Prop where
  located : Located am.vRandom am.pos
  address : ∀ addr nId, am.mapAddr.lookup addr = some nId ↔
    ∃ info, am.entry nId = some info ∧ info.toCNetAddr = addr
  fresh : ∀ nId, am.entry nId ≠ none → nId < am.nIdCount

/-- The tables agree: the buckets hold the entries and nothing else, none too many, and the numbers
are right. An entry counts the new buckets it lies in, and `owed` more. -/
structure Sound (am : CAddrMan) (owed : Int → Nat) : Prop extends Indexed am where
  kept : ∀ nId info, am.entry nId = some info →
    Kept info (Bins.places am.vvTried nId) (Bins.refs am.vvNew nId) (owed nId)
  unknown : ∀ nId, am.entry nId = none →
    Bins.places am.vvTried nId = 0 ∧ Bins.refs am.vvNew nId = 0
  nTried : am.nTried = Bins.total am.vvTried
  size : (am.vRandom.length : Int) = am.nTried + am.nNew
  tried_le : ∀ nKBucket, (am.vvTried nKBucket).length ≤ ADDRMAN_TRIED_BUCKET_SIZE
  new_le : ∀ nUBucket, (am.vvNew nUBucket).card ≤ ADDRMAN_NEW_BUCKET_SIZE

/-! ## Entries and positions -/

section Views

variable {am : CAddrMan} {nId : Int} {info info' : CAddrInfo}

theorem entry_of_lookup (h : am.mapInfo.lookup nId = some info) :
    am.entry nId = some { info with nRandomPos := 0 } := by
  rw [entry, h]
  rfl

theorem pos_of_lookup (h : am.mapInfo.lookup nId = some info) :
    am.pos nId = some info.nRandomPos := by
  rw [pos, h]
  rfl

theorem lookup_of_entry (h : am.entry nId = some info) :
    ∃ info', am.mapInfo.lookup nId = some info' ∧ info = { info' with nRandomPos := 0 } := by
  obtain ⟨info', hlookup, heq⟩ := Option.map_eq_some_iff.mp h
  exact ⟨info', hlookup, heq.symm⟩

theorem entry_setInfo (am : CAddrMan) (nId : Int) (info : CAddrInfo) :
    (am.setInfo nId info).entry =
      Function.update am.entry nId (some { info with nRandomPos := 0 }) := by
  funext x
  by_cases hx : x = nId
  · subst hx
    rw [Function.update_self, entry, setInfo, AList.lookup_insert]
    rfl
  · rw [Function.update_of_ne hx, entry, setInfo, AList.lookup_insert_ne hx]
    rfl

theorem pos_setInfo (am : CAddrMan) (nId : Int) (info : CAddrInfo) :
    (am.setInfo nId info).pos = Function.update am.pos nId (some info.nRandomPos) := by
  funext x
  by_cases hx : x = nId
  · subst hx
    rw [Function.update_self, pos, setInfo, AList.lookup_insert]
    rfl
  · rw [Function.update_of_ne hx, pos, setInfo, AList.lookup_insert_ne hx]
    rfl

/-- An entry that keeps its position. -/
theorem pos_setInfo_of_eq (h : am.mapInfo.lookup nId = some info)
    (hpos : info'.nRandomPos = info.nRandomPos) : (am.setInfo nId info').pos = am.pos := by
  rw [pos_setInfo, hpos, ← pos_of_lookup h, Function.update_eq_self]

theorem entry_erase (nId : Int) :
    ({ am with mapInfo := am.mapInfo.erase nId } : CAddrMan).entry =
      Function.update am.entry nId none := by
  funext x
  by_cases hx : x = nId
  · subst hx
    rw [Function.update_self, entry, AList.lookup_erase]
    rfl
  · rw [Function.update_of_ne hx, entry, AList.lookup_erase_ne hx]
    rfl

theorem pos_erase (nId : Int) :
    ({ am with mapInfo := am.mapInfo.erase nId } : CAddrMan).pos =
      Function.update am.pos nId none := by
  funext x
  by_cases hx : x = nId
  · subst hx
    rw [Function.update_self, pos, AList.lookup_erase]
    rfl
  · rw [Function.update_of_ne hx, pos, AList.lookup_erase_ne hx]
    rfl

end Views

/-! ## Swapping and deleting -/

section Swap

variable {am : CAddrMan} {info' : CAddrInfo}

/-- What `SwapRandom` does: the entries are the same, and two of them have changed places. -/
theorem swapRandom_spec (h : Located am.vRandom am.pos) {p q : Nat} (hp : p < am.vRandom.length)
    (hq : q < am.vRandom.length) : ∃ am', am.swapRandom p q = some am' ∧
      Located am'.vRandom am'.pos ∧ am'.entry = am.entry ∧
      am' = { am with mapInfo := am'.mapInfo, vRandom := am'.vRandom } ∧
      am'.vRandom.length = am.vRandom.length ∧ am'.vRandom[q]? = am.vRandom[p]? ∧
      ∀ r, r ≠ p → r ≠ q → am'.vRandom[r]? = am.vRandom[r]? := by
  unfold swapRandom
  split_ifs with hpq
  · subst hpq
    exact ⟨am, rfl, h, rfl, rfl, rfl, rfl, fun _ _ _ => rfl⟩
  · have hgetp := List.getElem?_eq_getElem hp
    have hgetq := List.getElem?_eq_getElem hq
    generalize am.vRandom[p] = nId1 at hgetp
    generalize am.vRandom[q] = nId2 at hgetq
    obtain ⟨info1, hinfo1, hpos1⟩ := Option.map_eq_some_iff.mp (h.pos_eq hgetp)
    obtain ⟨info2, hinfo2, hpos2⟩ := Option.map_eq_some_iff.mp (h.pos_eq hgetq)
    rw [hgetp, hgetq]
    dsimp only [Option.bind_eq_bind, Option.bind_some]
    rw [hinfo1, hinfo2]
    dsimp only [Option.bind_some]
    refine ⟨_, rfl, ?_, ?_, rfl, ?_, ?_, fun r hrp hrq => ?_⟩
    · have hpos : ((am.setInfo nId1 { info1 with nRandomPos := q }).setInfo nId2
          { info2 with nRandomPos := p }).pos =
          Function.update (Function.update am.pos nId1 (some (q : Int))) nId2 (some (p : Int)) := by
        rw [pos_setInfo, pos_setInfo]
      have hswap := h.swap hgetp hgetq hpq
      rwa [← hpos] at hswap
    · -- neither entry changes in what an entry is
      refine (entry_setInfo (am.setInfo nId1 { info1 with nRandomPos := q }) nId2
        { info2 with nRandomPos := p }).trans ?_
      rw [entry_setInfo]
      dsimp only
      rw [← entry_of_lookup hinfo1, Function.update_eq_self, ← entry_of_lookup hinfo2,
        Function.update_eq_self]
    · rw [List.length_set, List.length_set]
    · rw [List.getElem?_set_self (by rwa [List.length_set])]
    · rw [List.getElem?_set_ne (Ne.symm hrq), List.getElem?_set_ne (Ne.symm hrp)]

/-- What deleting an entry does. -/
theorem delete_spec {nId : Int} {info : CAddrInfo} (h : Located am.vRandom am.pos)
    (hinfo : am.mapInfo.lookup nId = some info) (hpos : info'.nRandomPos = info.nRandomPos) :
    ∃ am', am.delete nId info' = some am' ∧ Located am'.vRandom am'.pos ∧
      am'.entry = Function.update am.entry nId none ∧
      am' = { am with
        mapInfo := am'.mapInfo
        vRandom := am'.vRandom
        mapAddr := am.mapAddr.erase info'.toCNetAddr
        nNew := am.nNew - 1 } ∧
      am'.vRandom.length + 1 = am.vRandom.length := by
  have hget := h.getElem?_eq (pos_of_lookup hinfo)
  have hnonneg := h.nonneg (pos_of_lookup hinfo)
  rw [← hpos] at hget hnonneg
  have hlt : info'.nRandomPos.toNat < am.vRandom.length := (List.getElem?_eq_some_iff.1 hget).1
  obtain ⟨am₁, hswap, hlocated, hentry, heq, hlen, hlast, -⟩ :=
    swapRandom_spec h hlt (show am.vRandom.length - 1 < am.vRandom.length by omega)
  rw [hget, ← hlen] at hlast
  unfold delete
  rw [if_neg (Int.not_lt.mpr hnonneg), hswap]
  refine ⟨_, rfl, ?_, ?_, ?_, ?_⟩
  · have hpop := hlocated.pop hlast
    rwa [← pos_erase] at hpop
  · rw [← hentry]
    exact entry_erase nId
  · rw [heq]
  · change am₁.vRandom.dropLast.length + 1 = _
    rw [List.length_dropLast, hlen]
    omega

end Swap

/-! ## One entry at a time -/

section Entries

variable {am : CAddrMan} {owed owed' : Int → Nat} {nId : Int} {info info' : CAddrInfo}

/-- What the tables say of an entry does not depend on its position. -/
theorem Kept.of_eq {places refs k : Nat} (h : Kept { info with nRandomPos := 0 } places refs k) :
    Kept info places refs k :=
  ⟨h.nLastTry, h.nLastSuccess, h.tried, h.new⟩

theorem Kept.to_zero {places refs k : Nat} (h : Kept info places refs k) :
    Kept { info with nRandomPos := 0 } places refs k :=
  ⟨h.nLastTry, h.nLastSuccess, h.tried, h.new⟩

theorem Sound.kept_of_lookup (h : Sound am owed) (hinfo : am.mapInfo.lookup nId = some info) :
    Kept info (Bins.places am.vvTried nId) (Bins.refs am.vvNew nId) (owed nId) :=
  (h.kept nId _ (entry_of_lookup hinfo)).of_eq

/-- What lies in a bucket is an entry. -/
theorem Sound.lookup_of_places (h : Sound am owed) (hplaces : Bins.places am.vvTried nId ≠ 0) :
    ∃ info, am.mapInfo.lookup nId = some info := by
  cases hentry : am.entry nId with
  | none => exact absurd (h.unknown nId hentry).1 hplaces
  | some info =>
    obtain ⟨info, hinfo, -⟩ := lookup_of_entry hentry
    exact ⟨info, hinfo⟩

theorem Sound.lookup_of_mem_new (h : Sound am owed) {nUBucket : Fin ADDRMAN_NEW_BUCKET_COUNT}
    (hmem : nId ∈ am.vvNew nUBucket) : ∃ info, am.mapInfo.lookup nId = some info := by
  cases hentry : am.entry nId with
  | none => exact absurd hmem (Bins.refs_eq_zero.mp (h.unknown nId hentry).2 nUBucket)
  | some info =>
    obtain ⟨info, hinfo, -⟩ := lookup_of_entry hentry
    exact ⟨info, hinfo⟩

/-- An id stands for one address. -/
theorem Sound.lookup_mapAddr (h : Sound am owed) (hinfo : am.mapInfo.lookup nId = some info) :
    am.mapAddr.lookup info.toCNetAddr = some nId :=
  (h.address _ _).mpr ⟨_, entry_of_lookup hinfo, rfl⟩

/-- An entry is written whose address and position stay. -/
theorem Indexed.setInfo (h : Indexed am) (hinfo : am.mapInfo.lookup nId = some info)
    (hpos : info'.nRandomPos = info.nRandomPos) (haddr : info'.toCNetAddr = info.toCNetAddr) :
    Indexed (am.setInfo nId info') where
  located := by
    rw [pos_setInfo_of_eq hinfo hpos]
    exact h.located
  address addr x := by
    rw [entry_setInfo]
    refine (h.address addr x).trans ?_
    by_cases hx : x = nId
    · subst hx
      rw [Function.update_self, entry_of_lookup hinfo]
      simp only [Option.some.injEq, exists_eq_left', haddr]
    · rw [Function.update_of_ne hx]
  fresh x hx := by
    rw [entry_setInfo] at hx
    by_cases hxn : x = nId
    · subst hxn
      exact h.fresh x (by rw [entry_of_lookup hinfo]; exact Option.some_ne_none _)
    · rw [Function.update_of_ne hxn] at hx
      exact h.fresh x hx

theorem Sound.setInfo (h : Sound am owed) (hinfo : am.mapInfo.lookup nId = some info)
    (hpos : info'.nRandomPos = info.nRandomPos) (haddr : info'.toCNetAddr = info.toCNetAddr)
    (howed : ∀ x, x ≠ nId → owed' x = owed x)
    (hkept : Kept info' (Bins.places am.vvTried nId) (Bins.refs am.vvNew nId) (owed' nId)) :
    Sound (am.setInfo nId info') owed' where
  toIndexed := h.toIndexed.setInfo hinfo hpos haddr
  kept x infoX hx := by
    rw [entry_setInfo] at hx
    by_cases hxn : x = nId
    · subst hxn
      rw [Function.update_self] at hx
      obtain rfl := Option.some.inj hx
      exact hkept.to_zero
    · rw [Function.update_of_ne hxn] at hx
      rw [howed x hxn]
      exact h.kept x infoX hx
  unknown x hx := by
    rw [entry_setInfo] at hx
    by_cases hxn : x = nId
    · subst hxn
      rw [Function.update_self] at hx
      cases hx
    · rw [Function.update_of_ne hxn] at hx
      exact h.unknown x hx
  nTried := h.nTried
  size := h.size
  tried_le := h.tried_le
  new_le := h.new_le

/-- An entry is deleted. -/
theorem Indexed.delete (h : Indexed am) (hinfo : am.mapInfo.lookup nId = some info)
    (hpos : info'.nRandomPos = info.nRandomPos) (haddr : info'.toCNetAddr = info.toCNetAddr) :
    ∃ am', am.delete nId info' = some am' ∧ Indexed am' ∧
      am'.entry = Function.update am.entry nId none ∧
      am' = { am with
        mapInfo := am'.mapInfo
        vRandom := am'.vRandom
        mapAddr := am'.mapAddr
        nNew := am.nNew - 1 } ∧
      am'.vRandom.length + 1 = am.vRandom.length := by
  obtain ⟨am', hdelete, hlocated, hentry, heq, hlen⟩ := delete_spec h.located hinfo hpos
  have hmapAddr : am'.mapAddr = am.mapAddr.erase info.toCNetAddr := by
    rw [heq, haddr]
  have hnIdCount : am'.nIdCount = am.nIdCount := by
    rw [heq]
  have hsome : am.entry nId = some { info with nRandomPos := 0 } := entry_of_lookup hinfo
  refine ⟨am', hdelete, ⟨hlocated, fun addr x => ?_, fun x hx => ?_⟩, hentry, ?_, hlen⟩
  · rw [hentry, hmapAddr]
    by_cases hx : x = nId
    · subst hx
      rw [Function.update_self]
      refine iff_of_false (fun hlookup => ?_) fun ⟨_, hnone, _⟩ => nomatch hnone
      by_cases ha : addr = info.toCNetAddr
      · rw [ha, AList.lookup_erase] at hlookup
        cases hlookup
      · -- the entry has another address
        rw [AList.lookup_erase_ne ha, h.address] at hlookup
        obtain ⟨infoX, hinfoX, rfl⟩ := hlookup
        rw [hsome] at hinfoX
        cases hinfoX
        exact ha rfl
    · rw [Function.update_of_ne hx]
      by_cases ha : addr = info.toCNetAddr
      · rw [ha, AList.lookup_erase]
        refine iff_of_false nofun fun hother => ?_
        have hsame := ((h.address _ x).mpr hother).symm.trans
          ((h.address _ nId).mpr ⟨_, hsome, rfl⟩)
        exact hx (Option.some.inj hsame)
      · rw [AList.lookup_erase_ne ha]
        exact h.address addr x
  · rw [hnIdCount]
    refine h.fresh x fun hnone => hx ?_
    rw [hentry]
    by_cases hxn : x = nId
    · rw [hxn, Function.update_self]
    · rw [Function.update_of_ne hxn, hnone]
  · rw [heq]

end Entries

/-! ## Taking references away -/

section Unref

variable {am : CAddrMan} {owed : Int → Nat} {nId : Int}
  {nUBucket : Fin ADDRMAN_NEW_BUCKET_COUNT}

/-- An entry with a reference less. -/
def lessRef (info : CAddrInfo) : CAddrInfo := { info with nRefCount := info.nRefCount - 1 }

theorem unref_eq {info : CAddrInfo} (hinfo : am.mapInfo.lookup nId = some info) :
    am.unref nUBucket nId =
      (if info.nRefCount - 1 = 0 then (am.setInfo nId (lessRef info)).delete nId (lessRef info)
        else some (am.setInfo nId (lessRef info))).map fun am =>
          { am with vvNew := Function.update am.vvNew nUBucket ((am.vvNew nUBucket).erase nId) } := by
  unfold unref
  rw [hinfo]
  dsimp only [Option.bind_eq_bind, Option.bind_some]
  split_ifs
  · change ((am.setInfo nId (lessRef info)).delete nId (lessRef info)).bind _ = _
    cases (am.setInfo nId (lessRef info)).delete nId (lessRef info) <;> rfl
  · rfl

/-- The new buckets without an id in one of them. -/
def without (am : CAddrMan) (nUBucket : Fin ADDRMAN_NEW_BUCKET_COUNT) (nId : Int) :
    Fin ADDRMAN_NEW_BUCKET_COUNT → Finset Int :=
  Function.update am.vvNew nUBucket ((am.vvNew nUBucket).erase nId)

theorem refs_without_self (hmem : nId ∈ am.vvNew nUBucket) :
    Bins.refs (am.without nUBucket nId) nId + 1 = Bins.refs am.vvNew nId := by
  have hrefs := Bins.refs_erase hmem nId
  rwa [if_pos rfl] at hrefs

theorem refs_without_of_ne (hmem : nId ∈ am.vvNew nUBucket) {x : Int} (hx : x ≠ nId) :
    Bins.refs (am.without nUBucket nId) x = Bins.refs am.vvNew x := by
  have hrefs := Bins.refs_erase hmem x
  rwa [if_neg hx] at hrefs

theorem card_without_le (h : Sound am owed) (n : Fin ADDRMAN_NEW_BUCKET_COUNT) :
    (am.without nUBucket nId n).card ≤ ADDRMAN_NEW_BUCKET_SIZE := by
  unfold without
  by_cases hn : n = nUBucket
  · rw [hn, Function.update_self]
    exact (Finset.card_erase_le).trans (h.new_le nUBucket)
  · rw [Function.update_of_ne hn]
    exact h.new_le n

/-- An entry of a new bucket is no tried one. -/
theorem Sound.kept_of_mem_new (h : Sound am owed) {info : CAddrInfo}
    (hinfo : am.mapInfo.lookup nId = some info) (hmem : nId ∈ am.vvNew nUBucket) :
    info.fInTried = false ∧ 1 ≤ info.nRefCount ∧ info.nRefCount ≤ 4 ∧
      info.nRefCount = (Bins.refs am.vvNew nId + owed nId : Nat) ∧
      Bins.places am.vvTried nId = 0 := by
  have hkept := h.kept_of_lookup hinfo
  have hrefs := Bins.refs_pos.mpr ⟨nUBucket, hmem⟩
  cases htried : info.fInTried with
  | false => exact ⟨rfl, hkept.new htried⟩
  | true =>
    obtain ⟨-, -, -, hzero, -⟩ := hkept.tried htried
    omega

/-- The last reference of an entry is taken away. -/
theorem Sound.unref_last (h : Sound am owed) (hmem : nId ∈ am.vvNew nUBucket) {info : CAddrInfo}
    (hinfo : am.mapInfo.lookup nId = some info) (hone : info.nRefCount - 1 = 0) :
    ∃ am', am.unref nUBucket nId = some am' ∧ Sound am' owed ∧ am'.nKey = am.nKey ∧
      am'.vvNew = am.without nUBucket nId ∧ ∀ x, x ≠ nId → am'.entry x = am.entry x := by
  obtain ⟨-, hpos, hmax, hcount, hplaces⟩ := h.kept_of_mem_new hinfo hmem
  have hself := refs_without_self hmem
  have hlookup : (am.setInfo nId (lessRef info)).mapInfo.lookup nId = some (lessRef info) :=
    AList.lookup_insert _
  have hindexed := @Indexed.setInfo am nId info (lessRef info) h.toIndexed hinfo rfl rfl
  obtain ⟨am₂, hdelete, hindexed₂, hentry, heq, hlen⟩ := hindexed.delete hlookup rfl rfl
  rw [entry_setInfo, Function.update_idem] at hentry
  have hvvNew : am₂.vvNew = am.vvNew := by rw [heq]; rfl
  have hvvTried : am₂.vvTried = am.vvTried := by rw [heq]; rfl
  have hnTried : am₂.nTried = am.nTried := by rw [heq]; rfl
  have hnNew : am₂.nNew = am.nNew - 1 := by rw [heq]; rfl
  have hnKey : am₂.nKey = am.nKey := by rw [heq]; rfl
  have hlen : am₂.vRandom.length + 1 = am.vRandom.length := hlen
  have hentry₂ {x : Int} (hx : x ≠ nId) : am₂.entry x = am.entry x := by
    rw [hentry, Function.update_of_ne hx]
  have hnone : am₂.entry nId = none := by
    rw [hentry, Function.update_self]
  have hcode : am.unref nUBucket nId = some { am₂ with vvNew := am.without nUBucket nId } := by
    rw [unref_eq hinfo, if_pos hone, hdelete, Option.map_some, hvvNew]
    rfl
  refine ⟨_, hcode, ⟨⟨hindexed₂.located, hindexed₂.address, hindexed₂.fresh⟩, fun x infoX hx => ?_,
    fun x hx => ?_, ?_, ?_, ?_, card_without_le h⟩, hnKey, rfl, fun x hx => hentry₂ hx⟩
  · change am₂.entry x = _ at hx
    have hxn : x ≠ nId := by
      rintro rfl
      rw [hnone] at hx
      cases hx
    rw [hentry₂ hxn] at hx
    dsimp only
    rw [hvvTried, refs_without_of_ne hmem hxn]
    exact h.kept x infoX hx
  · change am₂.entry x = _ at hx
    dsimp only
    rw [hvvTried]
    by_cases hxn : x = nId
    · -- it was in this bucket only
      subst hxn
      omega
    · rw [hentry₂ hxn] at hx
      rw [refs_without_of_ne hmem hxn]
      exact h.unknown x hx
  · dsimp only
    rw [hnTried, hvvTried]
    exact h.nTried
  · have hsize := h.size
    dsimp only
    omega
  · dsimp only
    rw [hvvTried]
    exact h.tried_le

/-- A reference of an entry is taken away that counts more. -/
theorem Sound.unref_more (h : Sound am owed) (hmem : nId ∈ am.vvNew nUBucket) {info : CAddrInfo}
    (hinfo : am.mapInfo.lookup nId = some info) (hmore : info.nRefCount - 1 ≠ 0) :
    ∃ am', am.unref nUBucket nId = some am' ∧ Sound am' owed ∧ am'.nKey = am.nKey ∧
      am'.vvNew = am.without nUBucket nId ∧ ∀ x, x ≠ nId → am'.entry x = am.entry x := by
  obtain ⟨hnew, hpos, hmax, hcount, hplaces⟩ := h.kept_of_mem_new hinfo hmem
  have hkept := h.kept_of_lookup hinfo
  have hself := refs_without_self hmem
  have hindexed := @Indexed.setInfo am nId info (lessRef info) h.toIndexed hinfo rfl rfl
  have hentry := entry_setInfo am nId (lessRef info)
  generalize ham₁ : am.setInfo nId (lessRef info) = am₁ at hindexed hentry
  have hentry₁ {x : Int} (hx : x ≠ nId) : am₁.entry x = am.entry x := by
    rw [hentry, Function.update_of_ne hx]
  have hself₁ : am₁.entry nId = some { lessRef info with nRandomPos := 0 } := by
    rw [hentry, Function.update_self]
  have hcode : am.unref nUBucket nId = some { am₁ with vvNew := am.without nUBucket nId } := by
    rw [unref_eq hinfo, if_neg hmore, ham₁, Option.map_some, ← ham₁]
    rfl
  have hvvTried : am₁.vvTried = am.vvTried := by rw [← ham₁]; rfl
  have hnTried : am₁.nTried = am.nTried := by rw [← ham₁]; rfl
  have hnNew : am₁.nNew = am.nNew := by rw [← ham₁]; rfl
  have hnKey : am₁.nKey = am.nKey := by rw [← ham₁]; rfl
  have hvRandom : am₁.vRandom = am.vRandom := by rw [← ham₁]; rfl
  refine ⟨_, hcode, ⟨⟨hindexed.located, hindexed.address, hindexed.fresh⟩, fun x infoX hx => ?_,
    fun x hx => ?_, ?_, ?_, ?_, card_without_le h⟩, hnKey, rfl, fun x hx => hentry₁ hx⟩
  · change am₁.entry x = _ at hx
    dsimp only
    rw [hvvTried]
    by_cases hxn : x = nId
    · subst hxn
      rw [hself₁] at hx
      obtain rfl := Option.some.inj hx
      refine Kept.to_zero ⟨hkept.nLastTry, hkept.nLastSuccess, fun htried => ?_, fun _ => ?_⟩
      · exact absurd (hnew.symm.trans htried) Bool.false_ne_true
      · change 1 ≤ info.nRefCount - 1 ∧ info.nRefCount - 1 ≤ 4 ∧ info.nRefCount - 1 = _ ∧ _
        omega
    · rw [hentry₁ hxn] at hx
      rw [refs_without_of_ne hmem hxn]
      exact h.kept x infoX hx
  · change am₁.entry x = _ at hx
    dsimp only
    rw [hvvTried]
    by_cases hxn : x = nId
    · subst hxn
      rw [hself₁] at hx
      cases hx
    · rw [hentry₁ hxn] at hx
      rw [refs_without_of_ne hmem hxn]
      exact h.unknown x hx
  · dsimp only
    rw [hnTried, hvvTried]
    exact h.nTried
  · dsimp only
    rw [hnTried, hnNew, hvRandom]
    exact h.size
  · dsimp only
    rw [hvvTried]
    exact h.tried_le

/-- An id is taken out of a new bucket; the entry goes when it counts nothing more. -/
theorem Sound.unref (h : Sound am owed) (hmem : nId ∈ am.vvNew nUBucket) :
    ∃ am', am.unref nUBucket nId = some am' ∧ Sound am' owed ∧ am'.nKey = am.nKey ∧
      am'.vvNew = am.without nUBucket nId ∧ ∀ x, x ≠ nId → am'.entry x = am.entry x := by
  obtain ⟨info, hinfo⟩ := h.lookup_of_mem_new hmem
  by_cases hone : info.nRefCount - 1 = 0
  · exact h.unref_last hmem hinfo hone
  · exact h.unref_more hmem hinfo hone

/-! ### Making room in a new bucket -/

theorem getRandInt_lt (nRand : Nat) {nMax : Nat} (h : 0 < nMax) : getRandInt nRand nMax < nMax := by
  unfold getRandInt
  rw [if_neg (Nat.pos_iff_ne_zero.mp h)]
  exact Nat.mod_lt _ h

theorem findTerrible_spec (nNow : Int64) {vNew : List Int}
    (hknown : ∀ x ∈ vNew, ∃ info, am.mapInfo.lookup x = some info) :
    ∃ r, am.findTerrible nNow vNew = some r ∧ ∀ x, r = some x → x ∈ vNew := by
  induction vNew with
  | nil => exact ⟨none, rfl, nofun⟩
  | cons x vNew ih =>
    obtain ⟨info, hinfo⟩ := hknown x List.mem_cons_self
    rw [findTerrible, hinfo, Option.bind_some]
    split_ifs
    · refine ⟨some x, rfl, fun y hy => ?_⟩
      obtain rfl := Option.some.inj hy
      exact List.mem_cons_self
    · obtain ⟨r, hr, hmem⟩ := ih fun y hy => hknown y (List.mem_cons_of_mem _ hy)
      exact ⟨r, hr, fun y hy => List.mem_cons_of_mem _ (hmem y hy)⟩

/-- The search finds an element, if it had one before or one of the positions was picked. -/
theorem findOldest_spec {picked : Nat → Bool} {nI : Nat} {nOldest : Option Int} {vNew : List Int}
    (hknown : ∀ x, x ∈ vNew ∨ nOldest = some x → ∃ info, am.mapInfo.lookup x = some info) :
    ∃ r, am.findOldest picked nI nOldest vNew = some r ∧
      (∀ x, r = some x → x ∈ vNew ∨ nOldest = some x) ∧
      (nOldest ≠ none ∨ (∃ i, i < vNew.length ∧ picked (nI + i) = true) → r ≠ none) := by
  induction vNew generalizing nI nOldest with
  | nil =>
    refine ⟨nOldest, rfl, fun x hx => .inr hx, ?_⟩
    rintro (hne | ⟨i, hi, -⟩)
    · exact hne
    · exact absurd hi (Nat.not_lt_zero i)
  | cons x vNew ih =>
    -- what the rest of the search does from an element of before or from this one
    have hrest {nOldest' : Option Int} (hnew : ∀ y, nOldest' = some y → y = x ∨ nOldest = some y) :
        ∃ r, am.findOldest picked (nI + 1) nOldest' vNew = some r ∧
          (∀ y, r = some y → y ∈ x :: vNew ∨ nOldest = some y) ∧
          (nOldest' ≠ none ∨ (∃ i, i < vNew.length ∧ picked (nI + 1 + i) = true) → r ≠ none) := by
      obtain ⟨r, hr, hmem, hsome⟩ := @ih (nI + 1) nOldest' fun y hy => by
        rcases hy with hy | hy
        · exact hknown y (.inl (List.mem_cons_of_mem _ hy))
        · rcases hnew y hy with rfl | hy
          · exact hknown y (.inl List.mem_cons_self)
          · exact hknown y (.inr hy)
      refine ⟨r, hr, fun y hy => ?_, hsome⟩
      rcases hmem y hy with hy | hy
      · exact .inl (List.mem_cons_of_mem _ hy)
      · rcases hnew y hy with rfl | hy
        · exact .inl List.mem_cons_self
        · exact .inr hy
    have hpicked (hnot : picked nI = false) (h : ∃ i, i < (x :: vNew).length ∧ picked (nI + i) = true) :
        ∃ i, i < vNew.length ∧ picked (nI + 1 + i) = true := by
      obtain ⟨i, hi, hp⟩ := h
      cases i with
      | zero => exact absurd (hnot.symm.trans hp) Bool.false_ne_true
      | succ i => exact ⟨i, Nat.lt_of_succ_lt_succ hi, by rwa [Nat.add_assoc, Nat.add_comm 1]⟩
    rw [findOldest.eq_def]
    dsimp only
    cases hp : picked nI with
    | false =>
      rw [if_pos Bool.not_false]
      obtain ⟨r, hr, hmem, hsome⟩ := @hrest nOldest fun y hy => .inr hy
      exact ⟨r, hr, hmem, fun h => hsome (h.imp_right (hpicked hp))⟩
    | true =>
      rw [if_neg (by decide)]
      obtain ⟨info, hinfo⟩ := hknown x (.inl List.mem_cons_self)
      cases nOldest with
      | none =>
        obtain ⟨r, hr, hmem, hsome⟩ := @hrest (some x) fun y hy => .inl (Option.some.inj hy).symm
        exact ⟨r, hr, hmem, fun _ => hsome (.inl (Option.some_ne_none _))⟩
      | some nOld =>
        obtain ⟨infoOld, hinfoOld⟩ := hknown nOld (.inr rfl)
        dsimp only [Option.bind_eq_bind]
        rw [hinfo, hinfoOld]
        dsimp only [Option.bind_some]
        split_ifs
        · obtain ⟨r, hr, hmem, hsome⟩ := @hrest (some x) fun y hy => .inl (Option.some.inj hy).symm
          exact ⟨r, hr, hmem, fun _ => hsome (.inl (Option.some_ne_none _))⟩
        · obtain ⟨r, hr, hmem, hsome⟩ := @hrest (some nOld) fun y hy => .inr hy
          exact ⟨r, hr, hmem, fun _ => hsome (.inl (Option.some_ne_none _))⟩

/-- A full bucket is shrunk by one of its ids. -/
theorem Sound.shrinkNew (h : Sound am owed) (nNow : Int64) (rand : Nat → Nat)
    (hfull : (am.vvNew nUBucket).card = ADDRMAN_NEW_BUCKET_SIZE) :
    ∃ r am' x, am.shrinkNew nNow rand nUBucket = some (r, am') ∧ x ∈ am.vvNew nUBucket ∧
      am.unref nUBucket x = some am' := by
  have hmem (x : Int) : x ∈ (am.vvNew nUBucket).sort ↔ x ∈ am.vvNew nUBucket :=
    Finset.mem_sort (· ≤ ·)
  have hknown : ∀ x ∈ (am.vvNew nUBucket).sort, ∃ info, am.mapInfo.lookup x = some info :=
    fun x hx => h.lookup_of_mem_new ((hmem x).mp hx)
  have hlen : (am.vvNew nUBucket).sort.length = ADDRMAN_NEW_BUCKET_SIZE := by
    rw [Finset.length_sort, hfull]
  unfold CAddrMan.shrinkNew
  dsimp only [Option.bind_eq_bind]
  generalize (am.vvNew nUBucket).sort = vNew at hmem hknown hlen ⊢
  obtain ⟨r, hr, hterrible⟩ := findTerrible_spec nNow hknown
  rw [hr, Option.bind_some]
  cases r with
  | some x =>
    have hx := (hmem x).mp (hterrible x rfl)
    obtain ⟨am', hunref, -⟩ := h.unref hx
    refine ⟨0, am', x, ?_, hx, hunref⟩
    change (am.unref nUBucket x).map _ = _
    rw [hunref]
    rfl
  | none =>
    -- one of the positions picked is one of the bucket
    have hfirst : getRandInt (rand 0) ADDRMAN_NEW_BUCKET_SIZE < ADDRMAN_NEW_BUCKET_SIZE :=
      getRandInt_lt _ (by decide)
    obtain ⟨r, hr, holdest, hsome⟩ := @findOldest_spec am
      (fun nI => ((List.range 4).map fun i => getRandInt (rand i) vNew.length).contains nI) 0 none
      vNew fun x hx => hknown x (hx.resolve_right nofun)
    cases r with
    | none =>
      refine absurd rfl (hsome (.inr ⟨_, hlen ▸ hfirst, ?_⟩))
      rw [Nat.zero_add, hlen]
      simp [List.contains_eq_mem, List.range_succ]
    | some x =>
      have hx := (hmem x).mp ((holdest x rfl).resolve_right nofun)
      obtain ⟨am', hunref, -⟩ := h.unref hx
      refine ⟨1, am', x, ?_, hx, hunref⟩
      dsimp only
      rw [hr]
      dsimp only [Option.bind_some]
      rw [hunref]
      rfl

end Unref

/-! ## Moving an entry to the tried buckets -/

section Tried

variable {am : CAddrMan} {owed : Int → Nat}

/-- The shuffle of a tried bucket keeps its elements; the position it ends with is one of the
bucket. -/
theorem selectTriedFrom_spec (rand : Nat → Nat) {fuel i : Nat} {vTried : List Int}
    {oldest : Option (Int × Nat)} (hknown : ∀ x ∈ vTried, ∃ info, am.mapInfo.lookup x = some info)
    (holdest : ∀ x p, oldest = some (x, p) → x ∈ vTried ∧ p < vTried.length) :
    ∃ vTried' oldest', am.selectTriedFrom rand fuel i vTried oldest = some (vTried', oldest') ∧
      vTried'.Perm vTried ∧ (∀ x p, oldest' = some (x, p) → p < vTried.length) ∧
      (oldest ≠ none ∨ 0 < fuel ∧ i < vTried.length → oldest' ≠ none) := by
  induction fuel generalizing i vTried oldest with
  | zero =>
    refine ⟨vTried, oldest, rfl, List.Perm.refl _, fun x p h => (holdest x p h).2, ?_⟩
    rintro (hne | ⟨hlt, -⟩)
    · exact hne
    · exact absurd hlt (Nat.lt_irrefl 0)
  | succ fuel ih =>
    rw [selectTriedFrom.eq_def]
    dsimp only
    by_cases hi : vTried.length ≤ i
    · rw [if_pos hi]
      refine ⟨vTried, oldest, rfl, List.Perm.refl _, fun x p h => (holdest x p h).2, ?_⟩
      rintro (hne | ⟨-, hlt⟩)
      · exact hne
      · omega
    · rw [if_neg hi]
      have hi : i < vTried.length := Nat.lt_of_not_le hi
      have hnPos : getRandInt (rand i) (vTried.length - i) + i < vTried.length := by
        have := getRandInt_lt (rand i) (show 0 < vTried.length - i by omega)
        omega
      generalize getRandInt (rand i) (vTried.length - i) + i = nPos at hnPos
      rw [List.getElem?_eq_getElem hnPos, List.getElem?_eq_getElem hi]
      dsimp only [Option.bind_eq_bind, Option.bind_some]
      -- the rest of the loop, with an oldest entry of the bucket
      have hperm := List.set_set_perm hnPos hi
      have hmem : vTried[nPos] ∈ vTried := List.getElem_mem hnPos
      generalize hv : (vTried.set nPos vTried[i]).set i vTried[nPos] = v at hperm
      have hrest {x : Int} {p : Nat} (hx : x ∈ vTried) (hp : p < vTried.length) :
          ∃ vTried' oldest', am.selectTriedFrom rand fuel (i + 1) v (some (x, p)) =
            some (vTried', oldest') ∧ vTried'.Perm vTried ∧
            (∀ x p, oldest' = some (x, p) → p < vTried.length) ∧ oldest' ≠ none := by
        obtain ⟨vTried', oldest', hrun, hperm', hpos, hsome⟩ := @ih (i + 1) v (some (x, p))
          (fun y hy => hknown y (hperm.mem_iff.mp hy)) fun y q hy => by
            obtain ⟨rfl, rfl⟩ := Prod.mk.inj (Option.some.inj hy)
            exact ⟨hperm.mem_iff.mpr hx, hperm.length_eq ▸ hp⟩
        refine ⟨vTried', oldest', hrun, hperm'.trans hperm, fun y q hy => ?_,
          hsome (.inl (Option.some_ne_none _))⟩
        exact hperm.length_eq ▸ hpos y q hy
      cases oldest with
      | none =>
        obtain ⟨vTried', oldest', hrun, hperm', hpos, hsome⟩ := hrest hmem hnPos
        exact ⟨vTried', oldest', hrun, hperm', hpos, fun _ => hsome⟩
      | some old =>
        obtain ⟨nOldest, nOldestPos⟩ := old
        obtain ⟨hold, holdPos⟩ := holdest _ _ rfl
        obtain ⟨info, hinfo⟩ := hknown _ hmem
        obtain ⟨infoOldest, hinfoOldest⟩ := hknown _ hold
        dsimp only
        rw [hinfo, hinfoOldest]
        dsimp only [Option.bind_some]
        split_ifs
        · obtain ⟨vTried', oldest', hrun, hperm', hpos, hsome⟩ := hrest hmem hnPos
          exact ⟨vTried', oldest', hrun, hperm', hpos, fun _ => hsome⟩
        · obtain ⟨vTried', oldest', hrun, hperm', hpos, hsome⟩ := hrest hold holdPos
          exact ⟨vTried', oldest', hrun, hperm', hpos, fun _ => hsome⟩

variable {nId nOld : Int} {info info' infoOld infoOld' : CAddrInfo}

/-- The new buckets without an id. -/
def withoutAll (am : CAddrMan) (nId : Int) : Fin ADDRMAN_NEW_BUCKET_COUNT → Finset Int :=
  fun nUBucket => (am.vvNew nUBucket).erase nId

theorem card_withoutAll_le (h : Sound am owed) (n : Fin ADDRMAN_NEW_BUCKET_COUNT) :
    (am.withoutAll nId n).card ≤ ADDRMAN_NEW_BUCKET_SIZE :=
  Finset.card_erase_le.trans (h.new_le n)

/-- A bucket with room, or the one that the id has just left. -/
theorem card_withoutAll_lt (h : Sound am owed) {nOrigin : Fin ADDRMAN_NEW_BUCKET_COUNT}
    (hmem : nId ∈ am.vvNew nOrigin) (n : Fin ADDRMAN_NEW_BUCKET_COUNT) :
    (am.withoutAll nId (if (am.withoutAll nId n).card < ADDRMAN_NEW_BUCKET_SIZE then n
      else nOrigin)).card < ADDRMAN_NEW_BUCKET_SIZE := by
  split_ifs with hroom
  · exact hroom
  · exact (Finset.card_erase_lt_of_mem hmem).trans_le (h.new_le nOrigin)

/-- What makes an entry a tried one. -/
structure Promotes (info info' : CAddrInfo) : Prop where
  pos : info'.nRandomPos = info.nRandomPos
  addr : info'.toCNetAddr = info.toCNetAddr
  nLastTry : 0 ≤ info'.nLastTry
  nLastSuccess : 0 ≤ info'.nLastSuccess
  ne_zero : info'.nLastSuccess ≠ 0
  nRefCount : info'.nRefCount = 0
  fInTried : info'.fInTried = true

/-- A new entry moves to a tried bucket with room. -/
theorem Sound.pushTried (h : Sound am fun _ => 0) (hinfo : am.mapInfo.lookup nId = some info)
    (hnew : info.fInTried = false) (hinfo' : Promotes info info')
    {nKBucket : Fin ADDRMAN_TRIED_BUCKET_COUNT}
    (hroom : (am.vvTried nKBucket).length < ADDRMAN_TRIED_BUCKET_SIZE) :
    Sound { am.setInfo nId info' with
      vvNew := am.withoutAll nId
      nNew := am.nNew - 1
      vvTried := Function.update am.vvTried nKBucket (am.vvTried nKBucket ++ [nId])
      nTried := am.nTried + 1 } fun _ => 0 := by
  obtain ⟨-, -, -, hplaces⟩ := (h.kept_of_lookup hinfo).new hnew
  have hindexed := h.toIndexed.setInfo hinfo hinfo'.pos hinfo'.addr
  have hentry := entry_setInfo am nId info'
  have hplaces' := Bins.places_push am.vvTried nKBucket nId
  have hrefs' := Bins.refs_eraseAll am.vvNew nId
  refine ⟨⟨hindexed.located, hindexed.address, hindexed.fresh⟩, fun x infoX hx => ?_,
    fun x hx => ?_, ?_, ?_, fun n => ?_, card_withoutAll_le h⟩
  · change (am.setInfo nId info').entry x = _ at hx
    change Kept infoX (Bins.places (Function.update am.vvTried nKBucket
      (am.vvTried nKBucket ++ [nId])) x) (Bins.refs (fun i => (am.vvNew i).erase nId) x) 0
    rw [hplaces', hrefs']
    rw [hentry] at hx
    by_cases hxn : x = nId
    · subst hxn
      rw [Function.update_self] at hx
      obtain rfl := Option.some.inj hx
      rw [if_pos rfl, if_pos rfl, hplaces]
      refine Kept.to_zero ⟨hinfo'.nLastTry, hinfo'.nLastSuccess, fun _ => ?_, fun hfalse => ?_⟩
      · exact ⟨hinfo'.ne_zero, hinfo'.nRefCount, rfl, rfl, rfl⟩
      · exact absurd (hfalse.symm.trans hinfo'.fInTried) Bool.false_ne_true
    · rw [Function.update_of_ne hxn] at hx
      rw [if_neg hxn, if_neg hxn, Nat.add_zero]
      exact h.kept x infoX hx
  · change (am.setInfo nId info').entry x = _ at hx
    change Bins.places (Function.update am.vvTried nKBucket (am.vvTried nKBucket ++ [nId])) x = 0 ∧
      Bins.refs (fun i => (am.vvNew i).erase nId) x = 0
    rw [hplaces', hrefs']
    rw [hentry] at hx
    by_cases hxn : x = nId
    · subst hxn
      rw [Function.update_self] at hx
      cases hx
    · rw [Function.update_of_ne hxn] at hx
      rw [if_neg hxn, if_neg hxn, Nat.add_zero]
      exact h.unknown x hx
  · dsimp only
    rw [Bins.total_push, h.nTried]
    rfl
  · have hsize := h.size
    dsimp only
    change (am.vRandom.length : Int) = _
    omega
  · dsimp only
    by_cases hn : n = nKBucket
    · rw [hn, Function.update_self, List.length_append]
      exact hroom
    · rw [Function.update_of_ne hn]
      exact h.tried_le n

/-- The order within a tried bucket does not matter. -/
theorem Sound.reordered (h : Sound am owed) {nKBucket : Fin ADDRMAN_TRIED_BUCKET_COUNT}
    {vTried : List Int} (hperm : vTried.Perm (am.vvTried nKBucket)) :
    Sound { am with vvTried := Function.update am.vvTried nKBucket vTried } owed := by
  refine ⟨⟨h.located, h.address, h.fresh⟩, fun x infoX hx => ?_, fun x hx => ?_, ?_, h.size,
    fun n => ?_, h.new_le⟩
  · dsimp only
    rw [Bins.places_perm hperm]
    exact h.kept x infoX hx
  · dsimp only
    rw [Bins.places_perm hperm]
    exact h.unknown x hx
  · dsimp only
    rw [Bins.total_perm hperm]
    exact h.nTried
  · dsimp only
    by_cases hn : n = nKBucket
    · rw [hn, Function.update_self, hperm.length_eq]
      exact h.tried_le nKBucket
    · rw [Function.update_of_ne hn]
      exact h.tried_le n

/-- What lies in a tried bucket is a tried entry, and lies in no new one. -/
theorem Sound.kept_of_mem_tried (h : Sound am fun _ => 0)
    {nKBucket : Fin ADDRMAN_TRIED_BUCKET_COUNT} {nPos : Nat}
    (hget : (am.vvTried nKBucket)[nPos]? = some nOld) :
    ∃ infoOld, am.mapInfo.lookup nOld = some infoOld ∧ 0 ≤ infoOld.nLastTry ∧
      0 ≤ infoOld.nLastSuccess ∧ Bins.places am.vvTried nOld = 1 ∧ Bins.refs am.vvNew nOld = 0 := by
  have hpos := Bins.places_pos.mpr ⟨nKBucket, List.mem_of_getElem? hget⟩
  obtain ⟨infoOld, hold⟩ := h.lookup_of_places (Nat.pos_iff_ne_zero.mp hpos)
  have hkept := h.kept_of_lookup hold
  refine ⟨infoOld, hold, hkept.nLastTry, hkept.nLastSuccess, ?_⟩
  cases htried : infoOld.fInTried with
  | false =>
    obtain ⟨-, -, -, hzero⟩ := hkept.new htried
    exact absurd hzero (Nat.pos_iff_ne_zero.mp hpos)
  | true =>
    obtain ⟨-, -, hone, hzero, -⟩ := hkept.tried htried
    exact ⟨hone, hzero⟩

/-- A new entry takes the place of a tried one, which goes to a new bucket with room. -/
theorem Sound.replaceTried (h : Sound am fun _ => 0) (hinfo : am.mapInfo.lookup nId = some info)
    (hnew : info.fInTried = false) (hinfo' : Promotes info info')
    {nKBucket : Fin ADDRMAN_TRIED_BUCKET_COUNT} {nPos : Nat}
    (hget : (am.vvTried nKBucket)[nPos]? = some nOld)
    (hold : am.mapInfo.lookup nOld = some infoOld) {nTo : Fin ADDRMAN_NEW_BUCKET_COUNT}
    (hroom : (am.withoutAll nId nTo).card < ADDRMAN_NEW_BUCKET_SIZE) :
    Sound { (am.setInfo nOld { infoOld with fInTried := false, nRefCount := 1 }).setInfo nId info' with
      vvNew := Function.update (am.withoutAll nId) nTo (insert nOld (am.withoutAll nId nTo))
      nNew := am.nNew - 1 + 1
      vvTried := Function.update am.vvTried nKBucket ((am.vvTried nKBucket).set nPos nId) }
      fun _ => 0 := by
  obtain ⟨infoOld₂, hold₂, hlastTry, hlastSuccess, holdPlaces, holdRefs⟩ := h.kept_of_mem_tried hget
  obtain rfl := Option.some.inj (hold₂.symm.trans hold)
  obtain ⟨-, -, -, hplaces⟩ := (h.kept_of_lookup hinfo).new hnew
  have hne : nId ≠ nOld := by
    rintro rfl
    omega
  have hout : nOld ∉ am.withoutAll nId nTo := fun hmem =>
    Bins.refs_eq_zero.mp holdRefs nTo (Finset.mem_of_mem_erase hmem)
  have hindexedOld := @Indexed.setInfo am nOld infoOld₂
    { infoOld₂ with fInTried := false, nRefCount := 1 } h.toIndexed hold rfl rfl
  have hindexed := @Indexed.setInfo _ nId info info' hindexedOld
    ((AList.lookup_insert_ne hne).trans hinfo) hinfo'.pos hinfo'.addr
  have hentry := entry_setInfo (am.setInfo nOld { infoOld₂ with fInTried := false, nRefCount := 1 })
    nId info'
  rw [entry_setInfo am nOld] at hentry
  have hplaces' := Bins.places_set hget nId
  have hrefs' := Bins.refs_insert hout
  have hrefsAll : ∀ x, Bins.refs (am.withoutAll nId) x = if x = nId then 0 else Bins.refs am.vvNew x :=
    Bins.refs_eraseAll am.vvNew nId
  have htotal := Bins.total_set am.vvTried nKBucket nPos nId
  refine ⟨⟨hindexed.located, hindexed.address, hindexed.fresh⟩, fun x infoX hx => ?_,
    fun x hx => ?_, ?_, ?_, fun n => ?_, fun n => ?_⟩
  · replace hx : Function.update (Function.update am.entry nOld _) nId _ x = some infoX :=
      hentry ▸ hx
    change Kept infoX (Bins.places (Function.update am.vvTried nKBucket
      ((am.vvTried nKBucket).set nPos nId)) x) (Bins.refs (Function.update (am.withoutAll nId) nTo
        (insert nOld (am.withoutAll nId nTo))) x) 0
    have hplacesX := hplaces' x
    have hrefsX := hrefs' x
    rw [hrefsAll] at hrefsX
    by_cases hxn : x = nId
    · -- the entry that is tried now
      subst hxn
      rw [Function.update_self] at hx
      obtain rfl := Option.some.inj hx
      rw [if_neg hne, if_pos rfl, hplaces] at hplacesX
      rw [if_pos rfl, if_neg hne] at hrefsX
      rw [← Nat.add_zero (Bins.places _ _), hplacesX, hrefsX]
      refine Kept.to_zero ⟨hinfo'.nLastTry, hinfo'.nLastSuccess, fun _ => ?_, fun hfalse => ?_⟩
      · exact ⟨hinfo'.ne_zero, hinfo'.nRefCount, rfl, rfl, rfl⟩
      · exact absurd (hfalse.symm.trans hinfo'.fInTried) Bool.false_ne_true
    · rw [Function.update_of_ne hxn] at hx
      rw [if_neg hxn] at hplacesX hrefsX
      by_cases hxo : x = nOld
      · -- the entry that was
        subst hxo
        rw [Function.update_self] at hx
        obtain rfl := Option.some.inj hx
        rw [if_pos rfl, holdPlaces, Nat.add_zero] at hplacesX
        rw [if_pos rfl, holdRefs, Nat.zero_add] at hrefsX
        rw [Nat.succ.inj hplacesX, hrefsX]
        exact Kept.to_zero ⟨hlastTry, hlastSuccess, nofun, fun _ => ⟨Int.le_refl 1, (by decide : (1 : Int) ≤ 4), rfl, rfl⟩⟩
      · rw [Function.update_of_ne hxo] at hx
        rw [if_neg hxo, Nat.add_zero, Nat.add_zero] at hplacesX
        rw [if_neg hxo, Nat.add_zero] at hrefsX
        rw [hplacesX, hrefsX]
        exact h.kept x infoX hx
  · replace hx : Function.update (Function.update am.entry nOld _) nId _ x = none := hentry ▸ hx
    change Bins.places (Function.update am.vvTried nKBucket
      ((am.vvTried nKBucket).set nPos nId)) x = 0 ∧ Bins.refs (Function.update (am.withoutAll nId) nTo
        (insert nOld (am.withoutAll nId nTo))) x = 0
    have hplacesX := hplaces' x
    have hrefsX := hrefs' x
    rw [hrefsAll] at hrefsX
    have hxn : x ≠ nId := by
      rintro rfl
      rw [Function.update_self] at hx
      cases hx
    rw [Function.update_of_ne hxn] at hx
    have hxo : x ≠ nOld := by
      rintro rfl
      rw [Function.update_self] at hx
      cases hx
    rw [Function.update_of_ne hxo] at hx
    rw [if_neg hxn, if_neg hxo, Nat.add_zero, Nat.add_zero] at hplacesX
    rw [if_neg hxn, if_neg hxo, Nat.add_zero] at hrefsX
    rw [hplacesX, hrefsX]
    exact h.unknown x hx
  · dsimp only
    rw [htotal]
    exact h.nTried
  · have hsize := h.size
    change (am.vRandom.length : Int) = am.nTried + (am.nNew - 1 + 1)
    omega
  · dsimp only
    by_cases hn : n = nKBucket
    · rw [hn, Function.update_self, List.length_set]
      exact h.tried_le nKBucket
    · rw [Function.update_of_ne hn]
      exact h.tried_le n
  · dsimp only
    by_cases hn : n = nTo
    · rw [hn, Function.update_self]
      exact (Finset.card_insert_le _ _).trans hroom
    · rw [Function.update_of_ne hn]
      exact card_withoutAll_le h n

/-- What `SelectTried` does to a bucket with entries. -/
theorem selectTried_spec (rand : Nat → Nat) {nKBucket : Fin ADDRMAN_TRIED_BUCKET_COUNT}
    (hknown : ∀ x ∈ am.vvTried nKBucket, ∃ info, am.mapInfo.lookup x = some info)
    (hne : 0 < (am.vvTried nKBucket).length) :
    ∃ nPos vTried, am.selectTried rand nKBucket = some (some nPos,
        { am with vvTried := Function.update am.vvTried nKBucket vTried }) ∧
      vTried.Perm (am.vvTried nKBucket) ∧ nPos < vTried.length := by
  obtain ⟨vTried, oldest, hrun, hperm, hpos, hsome⟩ := @selectTriedFrom_spec am rand
    ADDRMAN_TRIED_ENTRIES_INSPECT_ON_EVICT 0 (am.vvTried nKBucket) none hknown nofun
  cases oldest with
  | none => exact absurd rfl (hsome (.inr ⟨by decide, hne⟩))
  | some old =>
    refine ⟨old.2, vTried, ?_, hperm, hperm.length_eq ▸ hpos old.1 old.2 rfl⟩
    rw [selectTried, hrun]
    rfl

/-- **An entry of a new bucket becomes a tried one.** -/
theorem Sound.makeTried (h : Sound am fun _ => 0) (hash64 : List UInt8 → UInt64) (rand : Nat → Nat)
    {nOrigin : Fin ADDRMAN_NEW_BUCKET_COUNT} (hinfo : am.mapInfo.lookup nId = some info)
    (hnew : info.fInTried = false) (hsuccess : info.nLastSuccess ≠ 0)
    (hmem : nId ∈ am.vvNew nOrigin) :
    ∃ am', am.makeTried hash64 rand nId nOrigin = some am' ∧ Sound am' fun _ => 0 := by
  have hkept := h.kept_of_lookup hinfo
  obtain ⟨-, -, -, hcount, -⟩ := h.kept_of_mem_new hinfo hmem
  have hzero : info.nRefCount - (Bins.refs am.vvNew nId : Nat) = 0 := by
    rw [hcount]
    omega
  have hpromotes : Promotes info { info with
      nRefCount := info.nRefCount - (Bins.refs am.vvNew nId : Nat), fInTried := true } :=
    ⟨rfl, rfl, hkept.nLastTry, hkept.nLastSuccess, hsuccess, hzero, rfl⟩
  unfold CAddrMan.makeTried
  dsimp only [Option.bind_eq_bind]
  rw [hinfo, Option.bind_some, if_neg (not_not.mpr hmem), if_neg (not_not.mpr hzero)]
  generalize CAddrInfo.getTriedBucket _ hash64 am.nKey = nKBucket
  split_ifs with hroom
  · exact ⟨_, rfl, h.pushTried hinfo hnew hpromotes hroom⟩
  · -- the bucket is full, and one of its entries makes room
    have hroom : 0 < (am.vvTried nKBucket).length :=
      Nat.lt_of_lt_of_le (by decide) (Nat.le_of_not_lt hroom)
    have hknown : ∀ x ∈ am.vvTried nKBucket, ∃ infoX, am.mapInfo.lookup x = some infoX :=
      fun x hx => h.lookup_of_places (Nat.pos_iff_ne_zero.mp (Bins.places_pos.mpr ⟨nKBucket, hx⟩))
    obtain ⟨nPos, vTried, hselect, hperm, hpos⟩ := @selectTried_spec
      { am with vvNew := am.withoutAll nId, nNew := am.nNew - 1 } rand nKBucket hknown hroom
    have hsound := h.reordered hperm
    have hget : Function.update am.vvTried nKBucket vTried nKBucket = vTried := Function.update_self ..
    have hsome := List.getElem?_eq_getElem hpos
    generalize vTried[nPos] = nOld at hsome
    have hgetOld : (Function.update am.vvTried nKBucket vTried nKBucket)[nPos]? = some nOld := by
      rw [hget, hsome]
    obtain ⟨infoOld, hold, -⟩ := hsound.kept_of_mem_tried hgetOld
    have hold : am.mapInfo.lookup nOld = some infoOld := hold
    change ∃ am', (selectTried { am with vvNew := am.withoutAll nId, nNew := am.nNew - 1 } rand
      nKBucket).bind _ = _ ∧ _
    rw [hselect]
    dsimp only [Option.bind_some]
    rw [hgetOld]
    dsimp only [Option.bind_some]
    rw [hold]
    dsimp only [Option.bind_some]
    exact ⟨_, rfl, hsound.replaceTried hinfo hnew hpromotes hgetOld hold
      (card_withoutAll_lt h hmem _)⟩

end Tried

end CAddrMan

end MotaCoin
