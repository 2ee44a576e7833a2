import Mathlib.Data.List.Basic
import Mathlib.Data.List.Nodup
import Mathlib.Logic.Function.Basic

/-!
# Positions in a vector

A vector whose elements know where they are. Elements are added at the end, two are swapped, and the
last one is taken off; what is known of the positions is kept up. Nothing here is about one program.

## Main definitions

* `Positions.Located v pos`: the positions are those of the elements

## Main results

* `Located.push`, `Located.swap`, `Located.pop`: what the changes are
* `Located.nodup`, `Located.mem_iff`: a vector with positions has no element twice
-/

namespace Positions

variable {α : Type}

/-- An element is where its position says, and only elements of the vector have one. -/
def Located (v : List α) (pos : α → Option Int) : Prop :=
  ∀ a q, pos a = some q ↔ 0 ≤ q ∧ v[q.toNat]? = some a

namespace Located

variable {v : List α} {pos : α → Option Int} {a b : α}

theorem empty : Located ([] : List α) fun _ => none := fun a q => by simp

theorem pos_eq (h : Located v pos) {p : Nat} (hp : v[p]? = some a) : pos a = some (p : Int) :=
  (h a p).2 ⟨Int.natCast_nonneg p, by rwa [Int.toNat_natCast]⟩

theorem getElem?_eq (h : Located v pos) {q : Int} (hq : pos a = some q) : v[q.toNat]? = some a :=
  ((h a q).1 hq).2

theorem nonneg (h : Located v pos) {q : Int} (hq : pos a = some q) : 0 ≤ q := ((h a q).1 hq).1

theorem mem_iff (h : Located v pos) : a ∈ v ↔ (pos a).isSome = true := by
  constructor
  · intro hmem
    obtain ⟨p, hp⟩ := List.mem_iff_getElem?.1 hmem
    rw [h.pos_eq hp]
    rfl
  · intro hsome
    obtain ⟨q, hq⟩ := Option.isSome_iff_exists.1 hsome
    exact List.mem_of_getElem? (h.getElem?_eq hq)

/-- No element is in the vector twice. -/
theorem nodup (h : Located v pos) : v.Nodup := by
  rw [List.nodup_iff_getElem?_ne_getElem?]
  intro i j hij hj heq
  obtain ⟨a, ha⟩ : ∃ a, v[i]? = some a := by
    rw [heq]
    exact ⟨_, List.getElem?_eq_getElem hj⟩
  have hi := h.pos_eq ha
  rw [h.pos_eq (heq ▸ ha)] at hi
  have hsame := Option.some.inj hi
  omega

variable [DecidableEq α]

/-- An element is added at the end. -/
theorem push (h : Located v pos) (hnew : pos a = none) :
    Located (v ++ [a]) (Function.update pos a (some (v.length : Int))) := by
  intro b q
  by_cases hb : b = a
  · -- The new element is at the end only.
    subst hb
    rw [Function.update_self, Option.some_inj]
    constructor
    · rintro rfl
      exact ⟨Int.natCast_nonneg _, by simp⟩
    · rintro ⟨hq, hget⟩
      by_contra hne
      rcases Nat.lt_or_ge q.toNat v.length with hlt | hge
      · rw [List.getElem?_append_left hlt] at hget
        rw [(h b q).2 ⟨hq, hget⟩] at hnew
        cases hnew
      · rw [List.getElem?_append_right hge] at hget
        have hzero : q.toNat - v.length < 1 := (List.getElem?_eq_some_iff.1 hget).1
        omega
  · rw [Function.update_of_ne hb, h b q]
    refine and_congr_right fun hq => ?_
    rcases Nat.lt_or_ge q.toNat v.length with hlt | hge
    · rw [List.getElem?_append_left hlt]
    · rw [List.getElem?_append_right hge, List.getElem?_eq_none hge]
      constructor
      · nofun
      · intro hget
        exact absurd (List.mem_singleton.1 (List.mem_of_getElem? hget)) hb

/-- Two elements change places. -/
theorem swap (h : Located v pos) {p q : Nat} (hp : v[p]? = some a) (hq : v[q]? = some b)
    (hne : p ≠ q) :
    Located ((v.set p b).set q a)
      (Function.update (Function.update pos a (some (q : Int))) b (some (p : Int))) := by
  have hplt : p < v.length := (List.getElem?_eq_some_iff.1 hp).1
  have hqlt : q < v.length := (List.getElem?_eq_some_iff.1 hq).1
  have hab : a ≠ b := by
    rintro rfl
    have hsame := (h.pos_eq hp).symm.trans (h.pos_eq hq)
    exact hne (Int.natCast_inj.1 (Option.some.inj hsame))
  have hget (t : Nat) : ((v.set p b).set q a)[t]? =
      if t = q then some a else if t = p then some b else v[t]? := by
    rw [List.getElem?_set, List.getElem?_set, List.length_set]
    by_cases htq : q = t
    · rw [if_pos htq, if_pos htq.symm, if_pos (htq ▸ hqlt)]
    · rw [if_neg htq, if_neg (Ne.symm htq)]
      by_cases htp : p = t
      · rw [if_pos htp, if_pos htp.symm, if_pos (htp ▸ hplt)]
      · rw [if_neg htp, if_neg (Ne.symm htp)]
  -- Elsewhere, the elements are what they were, and neither of the two is among them.
  have hrest {c : α} {r : Int} (hr : 0 ≤ r) (hrp : r.toNat ≠ p) (hrq : r.toNat ≠ q)
      (hc : v[r.toNat]? = some c) : c ≠ a ∧ c ≠ b := by
    have hpos := (h c r).2 ⟨hr, hc⟩
    constructor
    · rintro rfl
      have hsame := Option.some.inj (hpos.symm.trans (h.pos_eq hp))
      omega
    · rintro rfl
      have hsame := Option.some.inj (hpos.symm.trans (h.pos_eq hq))
      omega
  intro c r
  rw [hget]
  by_cases hcb : c = b
  · subst hcb
    rw [Function.update_self, Option.some_inj]
    constructor
    · rintro rfl
      rw [Int.toNat_natCast, if_neg hne, if_pos rfl]
      exact ⟨Int.natCast_nonneg p, rfl⟩
    · rintro ⟨hr, hc⟩
      by_cases hrq : r.toNat = q
      · rw [if_pos hrq] at hc
        exact absurd (Option.some.inj hc) hab
      · by_cases hrp : r.toNat = p
        · omega
        · rw [if_neg hrq, if_neg hrp] at hc
          exact absurd rfl (hrest hr hrp hrq hc).2
  · rw [Function.update_of_ne hcb]
    by_cases hca : c = a
    · subst hca
      rw [Function.update_self, Option.some_inj]
      constructor
      · rintro rfl
        rw [Int.toNat_natCast, if_pos rfl]
        exact ⟨Int.natCast_nonneg q, rfl⟩
      · rintro ⟨hr, hc⟩
        by_cases hrq : r.toNat = q
        · omega
        · by_cases hrp : r.toNat = p
          · rw [if_neg hrq, if_pos hrp] at hc
            exact absurd (Option.some.inj hc).symm hab
          · rw [if_neg hrq, if_neg hrp] at hc
            exact absurd rfl (hrest hr hrp hrq hc).1
    · rw [Function.update_of_ne hca, h c r]
      refine and_congr_right fun hr => ?_
      by_cases hrq : r.toNat = q
      · rw [if_pos hrq, hrq, hq, Option.some_inj, Option.some_inj]
        exact ⟨fun heq => absurd heq.symm hcb, fun heq => absurd heq.symm hca⟩
      · rw [if_neg hrq]
        by_cases hrp : r.toNat = p
        · rw [if_pos hrp, hrp, hp, Option.some_inj, Option.some_inj]
          exact ⟨fun heq => absurd heq.symm hca, fun heq => absurd heq.symm hcb⟩
        · rw [if_neg hrp]

/-- The last element is taken off. -/
theorem pop (h : Located v pos) (hlast : v[v.length - 1]? = some a) :
    Located v.dropLast (Function.update pos a none) := by
  have hpos := h.pos_eq hlast
  intro b q
  by_cases hb : b = a
  · subst hb
    rw [Function.update_self]
    constructor
    · nofun
    · rintro ⟨hq, hget⟩
      have hlt : q.toNat < v.dropLast.length := (List.getElem?_eq_some_iff.1 hget).1
      rw [List.length_dropLast] at hlt
      rw [List.getElem?_dropLast, if_pos (by omega)] at hget
      have hsame := hpos.symm.trans ((h b q).2 ⟨hq, hget⟩)
      have hsame := Option.some.inj hsame
      omega
  · rw [Function.update_of_ne hb, h b q]
    refine and_congr_right fun hq => ?_
    rw [List.getElem?_dropLast]
    split
    · rfl
    · next hge =>
      constructor
      · intro hget
        have hlt : q.toNat < v.length := (List.getElem?_eq_some_iff.1 hget).1
        have heq : q.toNat = v.length - 1 := by omega
        rw [heq, hlast] at hget
        exact absurd (Option.some.inj hget).symm hb
      · nofun

end Located

end Positions
