import MotaCoin.AddrManCheck
import MotaCoin.Lib.PartialShuffle

/-!
# Eviction from a full tried bucket

`SelectTried` shuffles the first four entries of a bucket and remembers the stalest of them, with a
position. That is the position the entry was drawn from, and by then the entry has left it: what the
position holds is what stood at the place of the draw, or what a later swap puts there.

## Main definitions

* `CAddrMan.inspected`: the entries that are inspected
* `CAddrMan.Stalest`: one of them with the least `nLastSuccess`
* `CAddrMan.Moved`: an entry has gone from tried to new
* `CAddrMan.DrawnInPlace`: the draw of the stalest entry leaves a stalest entry at its position

## Main results

* `selectTriedFrom_eq`: what the loop remembers
* `evicted_stalest_iff`: the stalest entry is evicted exactly for such draws
* `Sound.triedOnce`: the tables it is about are those that the calls leave
-/

namespace MotaCoin

open PartialShuffle

namespace CAddrMan

section Inspected

variable (am : CAddrMan) (rand : Nat → Nat) (nKBucket : Fin ADDRMAN_TRIED_BUCKET_COUNT)

/-- The position that is drawn for position `i` of a bucket of `size` entries. -/
def drawn (size i : Nat) : Nat := getRandInt (rand i) (size - i) + i

/-- A bucket as `SelectTried` leaves it. -/
def shuffled : List Int :=
  shuffle (drawn rand (am.vvTried nKBucket).length) ADDRMAN_TRIED_ENTRIES_INSPECT_ON_EVICT 0
    (am.vvTried nKBucket)

/-- The entries that `SelectTried` inspects, in order. -/
def inspected : List Int :=
  (am.shuffled rand nKBucket).take ADDRMAN_TRIED_ENTRIES_INSPECT_ON_EVICT

/-- When an entry was last reached. -/
def lastSuccess (nId : Int) : Int :=
  ((am.mapInfo.lookup nId).map fun info => info.nLastSuccess.toInt).getD 0

/-- An entry that is inspected, and none of the others has been out of reach for longer. -/
def Stalest (nId : Int) : Prop :=
  nId ∈ am.inspected rand nKBucket ∧
    ∀ x ∈ am.inspected rand nKBucket, am.lastSuccess nId ≤ am.lastSuccess x

/-- When the entry that is inspected at a position was last reached. -/
def inspectedAt (i : Nat) : Int := am.lastSuccess ((am.shuffled rand nKBucket).getD i 0)

/-- The first position at which a stalest entry is inspected. -/
def stalestDraw : Nat :=
  ((List.range ADDRMAN_TRIED_ENTRIES_INSPECT_ON_EVICT).minOn? (am.inspectedAt rand nKBucket)).getD 0

/-- The first of the stalest entries is drawn from the very position at which it is inspected, or
from one at which another entry, just as stale, is inspected later. -/
def DrawnInPlace : Prop :=
  let i := am.stalestDraw rand nKBucket
  let nPos := drawn rand (am.vvTried nKBucket).length i
  nPos = i ∨ (nPos < ADDRMAN_TRIED_ENTRIES_INSPECT_ON_EVICT ∧
    am.inspectedAt rand nKBucket nPos = am.inspectedAt rand nKBucket i)

instance : Decidable (am.DrawnInPlace rand nKBucket) :=
  inferInstanceAs (Decidable (_ ∨ _ ∧ _))

end Inspected

/-- Every entry is in one tried bucket at most, and there once. -/
structure TriedOnce (am : CAddrMan) : Prop where
  nodup : ∀ nKBucket, (am.vvTried nKBucket).Nodup
  eq_of_mem : ∀ {nKBucket nKBucket' nId}, nId ∈ am.vvTried nKBucket → nId ∈ am.vvTried nKBucket' →
    nKBucket = nKBucket'

/-- An entry that was tried is so no more, and is in a new bucket. -/
def Moved (am am' : CAddrMan) (nId : Int) : Prop :=
  (∃ nKBucket, nId ∈ am.vvTried nKBucket) ∧ (∀ nKBucket, nId ∉ am'.vvTried nKBucket) ∧
    (∃ nUBucket, nId ∈ am'.vvNew nUBucket) ∧
    ∃ info, am'.mapInfo.lookup nId = some info ∧ info.fInTried = false

/-! ## What the loop remembers -/

section Loop

variable {am : CAddrMan} {rand : Nat → Nat}

theorem le_drawn (size i : Nat) : i ≤ drawn rand size i := Nat.le_add_left ..

theorem drawn_lt {size i : Nat} (hi : i < size) : drawn rand size i < size := by
  have hpos : size - i ≠ 0 := by omega
  have hlt := Nat.mod_lt (rand i) (Nat.pos_of_ne_zero hpos)
  rw [drawn, getRandInt, if_neg hpos]
  omega

theorem lastSuccess_of_lookup {nId : Int} {info : CAddrInfo}
    (h : am.mapInfo.lookup nId = some info) : am.lastSuccess nId = info.nLastSuccess.toInt := by
  rw [lastSuccess, h]
  rfl

/-- One turn of the loop that returns. -/
theorem selectTriedFrom_succ {fuel i : Nat} {v : List Int} {oldest : Option (Int × Nat)}
    {r : List Int × Option (Int × Nat)} (hi : i < v.length)
    (h : am.selectTriedFrom rand (fuel + 1) i v oldest = some r) :
    ∃ nTemp, v[drawn rand v.length i]? = some nTemp ∧
      am.selectTriedFrom rand fuel (i + 1) (swap v (drawn rand v.length i) i)
        (some (oldest.casesOn (nTemp, drawn rand v.length i) fun old =>
          if am.lastSuccess nTemp < am.lastSuccess old.1 then (nTemp, drawn rand v.length i)
          else old)) = some r := by
  have hpos : drawn rand v.length i < v.length := drawn_lt hi
  rw [selectTriedFrom.eq_def] at h
  dsimp only at h
  rw [if_neg (Nat.not_le.mpr hi)] at h
  change (v[drawn rand v.length i]?).bind _ = _ at h
  rw [List.getElem?_eq_getElem hpos, List.getElem?_eq_getElem hi] at h
  dsimp only [Option.bind_eq_bind, Option.bind_some] at h
  refine ⟨v[drawn rand v.length i], List.getElem?_eq_getElem hpos, ?_⟩
  rw [swap_eq hpos hi]
  cases oldest with
  | none => exact h
  | some old =>
    -- both entries are known, or the loop would not return
    obtain ⟨nOldest, nOldestPos⟩ := old
    dsimp only at h
    obtain ⟨info, hinfo, h⟩ := Option.bind_eq_some_iff.mp h
    obtain ⟨infoOldest, hinfoOldest, h⟩ := Option.bind_eq_some_iff.mp h
    dsimp only
    rw [lastSuccess_of_lookup hinfo, lastSuccess_of_lookup hinfoOldest]
    by_cases hlt : info.nLastSuccess < infoOldest.nLastSuccess
    · rw [if_pos hlt] at h
      rwa [if_pos (Int64.lt_iff_toInt_lt.mp hlt)]
    · rw [if_neg hlt] at h
      rwa [if_neg fun hlt' => hlt (Int64.lt_iff_toInt_lt.mpr hlt')]

/-- **What the loop remembers**: of the positions so far, the first with a stalest entry, and where
that entry was drawn from. -/
theorem selectTriedFrom_eq {fuel i : Nat} {v final : List Int} {oldest : Option (Int × Nat)}
    {r : List Int × Option (Int × Nat)} (hfuel : i + fuel ≤ v.length)
    (hfinal : shuffle (drawn rand v.length) fuel i v = final)
    (holdest : oldest = ((List.range i).minOn? fun j => am.lastSuccess (final.getD j 0)).map
      fun j => (final.getD j 0, drawn rand v.length j))
    (h : am.selectTriedFrom rand fuel i v oldest = some r) :
    r = (final, ((List.range (i + fuel)).minOn? fun j => am.lastSuccess (final.getD j 0)).map
      fun j => (final.getD j 0, drawn rand v.length j)) := by
  induction fuel generalizing i v oldest with
  | zero =>
    rw [selectTriedFrom] at h
    subst hfinal
    rw [← Option.some.inj h, holdest]
    rfl
  | succ fuel ih =>
    have hi : i < v.length := by omega
    obtain ⟨nTemp, hget, hrest⟩ := selectTriedFrom_succ hi h
    have hdrawn : ∀ j < v.length, drawn rand v.length j < v.length := fun j hj => drawn_lt hj
    have hself : final.getD i 0 = nTemp := by
      rw [List.getD_eq_getElem?_getD, ← hfinal,
        getElem?_shuffle_self hdrawn (le_drawn v.length) hfuel, hget]
      rfl
    have hlen := (swap_perm (hdrawn i hi) hi).length_eq
    rw [← hlen] at hfinal
    have hnext := ih (v := swap v (drawn rand v.length i) i) (by omega) ?_ ?_ hrest
    · rwa [hlen, show i + 1 + fuel = i + (fuel + 1) by omega] at hnext
    · rw [shuffle, hlen] at hfinal
      rwa [hlen]
    · rw [hlen, List.range_succ, List.minOn?_append, List.minOn?_singleton, holdest]
      cases (List.range i).minOn? fun j => am.lastSuccess (final.getD j 0) with
      | none => rw [← hself]; rfl
      | some j =>
        dsimp only [Option.map_some, Option.merge]
        rw [minOn, hself]
        by_cases hlt : am.lastSuccess nTemp < am.lastSuccess (final.getD j 0)
        · rw [if_pos hlt, if_neg (Int.not_le.mpr hlt), hself]
        · rw [if_neg hlt, if_pos (Int.not_lt.mp hlt)]

end Loop

/-! ## What the position holds -/

section Position

variable {am : CAddrMan} {rand : Nat → Nat} {nKBucket : Fin ADDRMAN_TRIED_BUCKET_COUNT}

theorem minOn?_inspectedAt : (List.range ADDRMAN_TRIED_ENTRIES_INSPECT_ON_EVICT).minOn?
    (am.inspectedAt rand nKBucket) = some (am.stalestDraw rand nKBucket) := by
  have hne : List.range ADDRMAN_TRIED_ENTRIES_INSPECT_ON_EVICT ≠ [] := by decide
  rw [stalestDraw, List.minOn?_eq_some_minOn hne]
  rfl

theorem stalestDraw_lt :
    am.stalestDraw rand nKBucket < ADDRMAN_TRIED_ENTRIES_INSPECT_ON_EVICT :=
  List.mem_range.mp (List.minOn?_mem minOn?_inspectedAt)

theorem inspectedAt_stalestDraw_le {i : Nat} (hi : i < ADDRMAN_TRIED_ENTRIES_INSPECT_ON_EVICT) :
    am.inspectedAt rand nKBucket (am.stalestDraw rand nKBucket) ≤
      am.inspectedAt rand nKBucket i := by
  have hle := List.apply_get_minOn?_le_of_mem (f := am.inspectedAt rand nKBucket)
    (List.mem_range.mpr hi)
  simpa only [minOn?_inspectedAt, Option.get_some] using hle

theorem mem_inspected_iff {nId : Int} : nId ∈ am.inspected rand nKBucket ↔
    ∃ i < ADDRMAN_TRIED_ENTRIES_INSPECT_ON_EVICT, (am.shuffled rand nKBucket)[i]? = some nId := by
  rw [inspected, List.mem_iff_getElem?]
  refine exists_congr fun i => ?_
  rw [List.getElem?_take]
  split_ifs with hi
  · exact (and_iff_right hi).symm
  · exact ⟨nofun, fun h => absurd h.1 hi⟩

theorem lastSuccess_of_getElem? {nId : Int} {i : Nat}
    (h : (am.shuffled rand nKBucket)[i]? = some nId) :
    am.lastSuccess nId = am.inspectedAt rand nKBucket i := by
  rw [inspectedAt, List.getD_eq_getElem?_getD, h]
  rfl

variable (hfull : (am.vvTried nKBucket).length = ADDRMAN_TRIED_BUCKET_SIZE)

include hfull

theorem shuffled_perm : (am.shuffled rand nKBucket).Perm (am.vvTried nKBucket) :=
  shuffle_perm (fun _ hj => drawn_lt hj) (by rw [hfull]; decide)

/-- What `SelectTried` does to a full bucket, when it returns. -/
theorem selectTried_eq {nPos : Option Nat} {am' : CAddrMan}
    (h : am.selectTried rand nKBucket = some (nPos, am')) :
    nPos = some (drawn rand (am.vvTried nKBucket).length (am.stalestDraw rand nKBucket)) ∧
      am' = { am with
        vvTried := Function.update am.vvTried nKBucket (am.shuffled rand nKBucket) } := by
  rw [selectTried] at h
  obtain ⟨r, hrun, hr⟩ := Option.map_eq_some_iff.mp h
  have hspec := selectTriedFrom_eq (by rw [hfull]; decide) rfl rfl hrun
  rw [Nat.zero_add] at hspec
  change r = (am.shuffled rand nKBucket,
    ((List.range ADDRMAN_TRIED_ENTRIES_INSPECT_ON_EVICT).minOn? (am.inspectedAt rand nKBucket)).map
      fun j => ((am.shuffled rand nKBucket).getD j 0, drawn rand (am.vvTried nKBucket).length j))
    at hspec
  rw [hspec, minOn?_inspectedAt] at hr
  obtain ⟨hpos, ham⟩ := Prod.mk.inj hr
  exact ⟨hpos.symm, ham.symm⟩

/-- **The position holds a stalest entry exactly for the draws in place.** -/
theorem stalest_iff (hnodup : (am.vvTried nKBucket).Nodup) {nId : Int}
    (hget : (am.shuffled rand nKBucket)[drawn rand (am.vvTried nKBucket).length
      (am.stalestDraw rand nKBucket)]? = some nId) :
    am.Stalest rand nKBucket nId ↔ am.DrawnInPlace rand nKBucket := by
  have hkey := lastSuccess_of_getElem? hget
  have hnodup := (@shuffled_perm am rand nKBucket hfull).nodup_iff.mpr hnodup
  unfold DrawnInPlace
  dsimp only
  generalize drawn rand (am.vvTried nKBucket).length (am.stalestDraw rand nKBucket) = nPos
    at hget hkey
  constructor
  · rintro ⟨hmem, hleast⟩
    obtain ⟨i, hi, hgeti⟩ := mem_inspected_iff.mp hmem
    -- no entry is at two positions
    have hsame : i = nPos := by
      have hlt := (List.getElem?_eq_some_iff.mp hgeti).1
      exact (List.getElem?_inj hlt hnodup).mp (hgeti.trans hget.symm)
    subst hsame
    refine Or.inr ⟨hi, le_antisymm ?_ (inspectedAt_stalestDraw_le hi)⟩
    have hlt : am.stalestDraw rand nKBucket < (am.shuffled rand nKBucket).length := by
      rw [(shuffled_perm hfull).length_eq, hfull]
      exact stalestDraw_lt.trans (by decide)
    have hfirst := List.getElem?_eq_getElem hlt
    rw [← hkey, ← lastSuccess_of_getElem? hfirst]
    exact hleast _ (mem_inspected_iff.mpr ⟨_, stalestDraw_lt, hfirst⟩)
  · intro hplace
    have hpos : nPos < ADDRMAN_TRIED_ENTRIES_INSPECT_ON_EVICT ∧
        am.inspectedAt rand nKBucket nPos =
          am.inspectedAt rand nKBucket (am.stalestDraw rand nKBucket) := by
      rcases hplace with rfl | hplace
      · exact ⟨stalestDraw_lt, rfl⟩
      · exact hplace
    refine ⟨mem_inspected_iff.mpr ⟨nPos, hpos.1, hget⟩, fun x hx => ?_⟩
    obtain ⟨i, hi, hgeti⟩ := mem_inspected_iff.mp hx
    rw [hkey, hpos.2, lastSuccess_of_getElem? hgeti]
    exact inspectedAt_stalestDraw_le hi

/-- What `MakeTried` does where the bucket is full, when it returns: the entry at the position makes
room, and goes to a new bucket. -/
theorem makeTried_full {hash64 : List UInt8 → UInt64} {nId : Int} {info : CAddrInfo}
    {nOrigin : Fin ADDRMAN_NEW_BUCKET_COUNT} {am' : CAddrMan}
    (hinfo : am.mapInfo.lookup nId = some info)
    (hbucket : info.getTriedBucket hash64 am.nKey = nKBucket)
    (h : am.makeTried hash64 rand nId nOrigin = some am') :
    ∃ nOld, (am.shuffled rand nKBucket)[drawn rand (am.vvTried nKBucket).length
        (am.stalestDraw rand nKBucket)]? = some nOld ∧
      am'.vvTried = Function.update am.vvTried nKBucket ((am.shuffled rand nKBucket).set
        (drawn rand (am.vvTried nKBucket).length (am.stalestDraw rand nKBucket)) nId) ∧
      (∃ nTo, nOld ∈ am'.vvNew nTo) ∧
      (nOld ≠ nId → ∃ infoOld, am'.mapInfo.lookup nOld = some infoOld ∧
        infoOld.fInTried = false) := by
  unfold makeTried at h
  dsimp only [Option.bind_eq_bind] at h
  rw [hinfo, Option.bind_some] at h
  by_cases hnew : nId ∉ am.vvNew nOrigin
  · rw [if_pos hnew] at h
    cases h
  by_cases hrefs : info.nRefCount - (Bins.refs am.vvNew nId : Int) ≠ 0
  · rw [if_neg hnew, if_pos hrefs] at h
    cases h
  rw [if_neg hnew, if_neg hrefs] at h
  have hbucket (nRefCount : Int) :
      ({ info with nRefCount := nRefCount } : CAddrInfo).getTriedBucket hash64 am.nKey = nKBucket :=
    hbucket
  rw [hbucket, if_neg (by rw [hfull]; exact Nat.lt_irrefl _)] at h
  obtain ⟨⟨nPos, am₁⟩, hselect, h⟩ := Option.bind_eq_some_iff.mp h
  -- the entry has left the new buckets, and the tried ones are as they were
  obtain ⟨hpos, ham₁⟩ := @selectTried_eq
    { am with vvNew := fun nUBucket => (am.vvNew nUBucket).erase nId, nNew := am.nNew - 1 }
    rand nKBucket hfull _ _ hselect
  subst hpos ham₁
  dsimp only [Option.bind_some] at h
  obtain ⟨nOld, hget, h⟩ := Option.bind_eq_some_iff.mp h
  obtain ⟨infoOld, hold, h⟩ := Option.bind_eq_some_iff.mp h
  rw [Function.update_self] at hget
  rw [← Option.some.inj h]
  refine ⟨nOld, hget, ?_, ?_, fun hne => ?_⟩
  · change Function.update (Function.update am.vvTried nKBucket _) nKBucket
      ((Function.update am.vvTried nKBucket _ nKBucket).set _ nId) = _
    rw [Function.update_idem, Function.update_self]
    rfl
  · -- its own new bucket, or the one with room
    have hinsert (vvNew : Fin ADDRMAN_NEW_BUCKET_COUNT → Finset Int) (nTo) (vNew : Finset Int) :
        nOld ∈ Function.update vvNew nTo (insert nOld vNew) nTo := by
      rw [Function.update_self]
      exact Finset.mem_insert_self nOld vNew
    exact ⟨_, hinsert _ _ _⟩
  · refine ⟨{ infoOld with fInTried := false, nRefCount := 1 }, ?_, rfl⟩
    refine (AList.lookup_insert_ne hne).trans ?_
    exact AList.lookup_insert _

/-- Exactly one entry is moved, the one that the position holds. -/
theorem moved_iff {hash64 : List UInt8 → UInt64} {nId : Int} {info : CAddrInfo}
    {nOrigin : Fin ADDRMAN_NEW_BUCKET_COUNT} {am' : CAddrMan} (honce : TriedOnce am)
    (hinfo : am.mapInfo.lookup nId = some info)
    (hbucket : info.getTriedBucket hash64 am.nKey = nKBucket)
    (huntried : ∀ nKBucket, nId ∉ am.vvTried nKBucket)
    (h : am.makeTried hash64 rand nId nOrigin = some am') :
    ∃ nOld, (am.shuffled rand nKBucket)[drawn rand (am.vvTried nKBucket).length
        (am.stalestDraw rand nKBucket)]? = some nOld ∧ ∀ x, Moved am am' x ↔ x = nOld := by
  obtain ⟨nOld, hget, htried, hnew, hflag⟩ := makeTried_full hfull hinfo hbucket h
  have hperm := @shuffled_perm am rand nKBucket hfull
  have hnodup := hperm.nodup_iff.mpr (honce.nodup nKBucket)
  have hold : nOld ∈ am.vvTried nKBucket := hperm.mem_iff.mp (List.mem_of_getElem? hget)
  have hne : nOld ≠ nId := fun heq => huntried nKBucket (heq ▸ hold)
  generalize drawn rand (am.vvTried nKBucket).length (am.stalestDraw rand nKBucket) = nPos
    at hget htried
  refine ⟨nOld, hget, fun x => ⟨?_, ?_⟩⟩
  · rintro ⟨⟨nKBucket', hx⟩, hgone, -⟩
    have hgone := hgone nKBucket'
    rw [htried] at hgone
    by_cases hsame : nKBucket' = nKBucket
    · subst hsame
      rw [Function.update_self] at hgone
      obtain ⟨i, hi⟩ := List.mem_iff_getElem?.mp (hperm.mem_iff.mpr hx)
      by_contra hxne
      -- elsewhere in the bucket it would still be there
      refine hgone (List.mem_of_getElem? (i := i) ?_)
      rw [List.getElem?_set_ne, hi]
      rintro rfl
      exact hxne (Option.some.inj (hi.symm.trans hget))
    · rw [Function.update_of_ne hsame] at hgone
      exact absurd hx hgone
  · rintro rfl
    refine ⟨⟨nKBucket, hold⟩, fun nKBucket' hmem => ?_, hnew, hflag hne⟩
    rw [htried] at hmem
    by_cases hsame : nKBucket' = nKBucket
    · subst hsame
      rw [Function.update_self] at hmem
      obtain ⟨i, hi⟩ := List.mem_iff_getElem?.mp hmem
      by_cases hpos : nPos = i
      · subst hpos
        rw [List.getElem?_set_self (List.getElem?_eq_some_iff.mp hget).1] at hi
        exact hne (Option.some.inj hi).symm
      · rw [List.getElem?_set_ne hpos] at hi
        have hlt := (List.getElem?_eq_some_iff.mp hget).1
        exact hpos ((List.getElem?_inj hlt hnodup).mp (hget.trans hi.symm))
    · rw [Function.update_of_ne hsame] at hmem
      exact hsame (honce.eq_of_mem hmem hold)

end Position

/-- **The stalest of the inspected entries is evicted exactly when it is drawn in place**: for every
full bucket, the position that `SelectTried` returns holds a stalest entry, and `MakeTried` moves a
stalest entry and no other, for these draws and for no others. -/
theorem evicted_stalest_iff (am : CAddrMan) (rand : Nat → Nat)
    (nKBucket : Fin ADDRMAN_TRIED_BUCKET_COUNT) (honce : TriedOnce am)
    (hfull : (am.vvTried nKBucket).length = ADDRMAN_TRIED_BUCKET_SIZE) :
    (∀ nPos am', am.selectTried rand nKBucket = some (some nPos, am') →
      ((∃ x, (am'.vvTried nKBucket)[nPos]? = some x ∧ am.Stalest rand nKBucket x) ↔
        am.DrawnInPlace rand nKBucket)) ∧
    ∀ hash64 nId info nOrigin am', am.mapInfo.lookup nId = some info →
      info.getTriedBucket hash64 am.nKey = nKBucket → (∀ nKBucket, nId ∉ am.vvTried nKBucket) →
      am.makeTried hash64 rand nId nOrigin = some am' →
      ((∃ x, am.Stalest rand nKBucket x ∧ ∀ y, Moved am am' y ↔ y = x) ↔
        am.DrawnInPlace rand nKBucket) := by
  refine ⟨fun nPos am' h => ?_, fun hash64 nId info nOrigin am' hinfo hbucket huntried h => ?_⟩
  · obtain ⟨hpos, ham'⟩ := selectTried_eq hfull h
    have hpos := Option.some.inj hpos
    subst hpos
    have hlt : drawn rand (am.vvTried nKBucket).length (am.stalestDraw rand nKBucket) <
        (am.shuffled rand nKBucket).length := by
      rw [(shuffled_perm hfull).length_eq]
      exact drawn_lt (stalestDraw_lt.trans (by rw [hfull]; decide))
    have hget := List.getElem?_eq_getElem hlt
    have hstalest := stalest_iff hfull (honce.nodup nKBucket) hget
    have htried : am'.vvTried nKBucket = am.shuffled rand nKBucket := by
      rw [ham']
      exact Function.update_self ..
    rw [htried, hget, ← hstalest]
    constructor
    · rintro ⟨x, hx, hstale⟩
      rwa [Option.some.inj hx]
    · exact fun hstale => ⟨_, rfl, hstale⟩
  · obtain ⟨nOld, hget, hmoved⟩ := moved_iff hfull honce hinfo hbucket huntried h
    rw [← stalest_iff hfull (honce.nodup nKBucket) hget]
    constructor
    · rintro ⟨x, hstale, hx⟩
      rwa [← (hx nOld).mp ((hmoved nOld).mpr rfl)] at hstale
    · exact fun hstale => ⟨nOld, hstale, hmoved⟩

/-- The tables that the calls leave are such. -/
theorem Sound.triedOnce {am : CAddrMan} (h : Sound am fun _ => 0) : TriedOnce am where
  nodup nKBucket := by
    refine List.nodup_iff_count_le_one.mpr fun x => ?_
    exact (Bins.count_le_places _ nKBucket x).trans (h.places_le_one x)
  eq_of_mem {nKBucket nKBucket' nId} hmem hmem' := by
    by_contra hne
    have hone := h.places_le_one nId
    have hsum := Bins.count_add_count_le_places am.vvTried hne nId
    have hpos := List.count_pos_iff.mpr hmem
    have hpos' := List.count_pos_iff.mpr hmem'
    omega

/-! ## A full bucket -/

section Sample

local instance neZero_triedBuckets : NeZero ADDRMAN_TRIED_BUCKET_COUNT := ⟨by decide⟩

local instance neZero_newBuckets : NeZero ADDRMAN_NEW_BUCKET_COUNT := ⟨by decide⟩

theorem length_sampleIp (n : Nat) : (List.replicate 15 1 ++ [UInt8.ofNat n]).length = 16 := rfl

theorem length_sampleSource : (List.replicate 16 (1 : UInt8)).length = 16 := rfl

/-- Entry `n` of the sample: the first one is new, the others are tried, and the later the entry the
longer it has been out of reach. -/
def sampleEntry (n : Nat) : CAddrInfo where
  ip := List.replicate 15 1 ++ [UInt8.ofNat n]
  length_ip := length_sampleIp n
  port := 21600
  nServices := 1
  nTime := 1000
  nLastTry := 0
  source := ⟨List.replicate 16 1, length_sampleSource⟩
  nLastSuccess := 1000 - Int64.ofNat n
  nAttempts := 0
  nRefCount := if n = 0 then 1 else 0
  fInTried := n ≠ 0
  nRandomPos := n

/-- One new entry, and 64 tried ones in one bucket. -/
def sampleTable : CAddrMan where
  nKey := []
  nIdCount := 65
  mapInfo := (List.range 65).foldr (fun (n : Nat) mapInfo => mapInfo.insert n (sampleEntry n)) ∅
  mapAddr := (List.range 65).foldr
    (fun (n : Nat) mapAddr => mapAddr.insert (sampleEntry n).toCNetAddr (n : Int)) ∅
  vRandom := (List.range 65).map Int.ofNat
  nTried := 64
  vvTried nKBucket := if nKBucket = 0 then (List.range' 1 64).map Int.ofNat else []
  nNew := 1
  vvNew nUBucket := if nUBucket = 0 then {0} else ∅

/-- The first draw takes the last entry of the bucket, the others take what is in place. -/
def lastDrawn (i : Nat) : Nat := if i = 0 then 63 else 0

theorem mem_sampleTable {nKBucket : Fin ADDRMAN_TRIED_BUCKET_COUNT} {nId : Int}
    (h : nId ∈ sampleTable.vvTried nKBucket) : nKBucket = 0 := by
  by_contra hne
  have hnil : sampleTable.vvTried nKBucket = [] := if_neg hne
  rw [hnil] at h
  exact List.not_mem_nil h

theorem triedOnce_sampleTable : TriedOnce sampleTable where
  nodup nKBucket := by
    by_cases hzero : nKBucket = 0
    · subst hzero
      decide +kernel
    · have hnil : sampleTable.vvTried nKBucket = [] := if_neg hzero
      rw [hnil]
      exact List.nodup_nil
  eq_of_mem h h' := (mem_sampleTable h).trans (mem_sampleTable h').symm

theorem zero_not_mem_sampleTable (nKBucket : Fin ADDRMAN_TRIED_BUCKET_COUNT) :
    (0 : Int) ∉ sampleTable.vvTried nKBucket := by
  intro hmem
  obtain rfl := mem_sampleTable hmem
  revert hmem
  decide +kernel

/-- Entries that are inspected where they are: the stalest of them makes room. -/
theorem evicted_stalest_inPlace :
    (∃ nPos am', sampleTable.selectTried (fun _ => 0) 0 = some (some nPos, am') ∧
      ∃ x, (am'.vvTried 0)[nPos]? = some x ∧ sampleTable.Stalest (fun _ => 0) 0 x) ∧
    ∃ am', sampleTable.makeTried (fun _ => 0) (fun _ => 0) 0 0 = some am' ∧
      ∃ x, sampleTable.Stalest (fun _ => 0) 0 x ∧ ∀ y, Moved sampleTable am' y ↔ y = x := by
  have hiff := evicted_stalest_iff sampleTable (fun _ => 0) 0 triedOnce_sampleTable
    (by decide +kernel)
  have hplace : sampleTable.DrawnInPlace (fun _ => 0) 0 := by decide +kernel
  constructor
  · have hsome : ((sampleTable.selectTried (fun _ => 0) 0).bind Prod.fst).isSome = true := by
      decide +kernel
    obtain ⟨nPos, hpos⟩ := Option.isSome_iff_exists.mp hsome
    obtain ⟨⟨_, am'⟩, hselect, rfl⟩ := Option.bind_eq_some_iff.mp hpos
    exact ⟨nPos, am', hselect, (hiff.1 nPos am' hselect).mpr hplace⟩
  · have hsome : (sampleTable.makeTried (fun _ => 0) (fun _ => 0) 0 0).isSome = true := by
      decide +kernel
    obtain ⟨am', hmake⟩ := Option.isSome_iff_exists.mp hsome
    have hinfo : sampleTable.mapInfo.lookup 0 = some (sampleEntry 0) := by decide +kernel
    exact ⟨am', hmake, (hiff.2 (fun _ => 0) 0 _ 0 am' hinfo rfl zero_not_mem_sampleTable
      hmake).mpr hplace⟩

/-- The last entry of the bucket is drawn first and is the stalest one inspected; its position then
holds the first entry, which is not inspected at all. -/
theorem evicted_stalest_lastDrawn : ¬ ∀ (am : CAddrMan) (rand : Nat → Nat)
    (nKBucket : Fin ADDRMAN_TRIED_BUCKET_COUNT), TriedOnce am →
      (am.vvTried nKBucket).length = ADDRMAN_TRIED_BUCKET_SIZE →
      ∀ nPos am', am.selectTried rand nKBucket = some (some nPos, am') →
        ∃ x, (am'.vvTried nKBucket)[nPos]? = some x ∧ am.Stalest rand nKBucket x := by
  intro hall
  have hall := hall sampleTable lastDrawn 0 triedOnce_sampleTable (by decide +kernel)
  have hheld : (sampleTable.selectTried lastDrawn 0).bind (fun r => r.1.bind fun nPos =>
      (r.2.vvTried 0)[nPos]?) = some 1 := by decide +kernel
  obtain ⟨⟨nPos, am'⟩, hselect, hheld⟩ := Option.bind_eq_some_iff.mp hheld
  obtain ⟨nPos, rfl, hheld⟩ := Option.bind_eq_some_iff.mp hheld
  obtain ⟨x, hx, hmem, -⟩ := hall nPos am' hselect
  obtain rfl := Option.some.inj (hheld.symm.trans hx)
  revert hmem
  decide +kernel

end Sample

end CAddrMan

end MotaCoin
