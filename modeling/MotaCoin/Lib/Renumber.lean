import Mathlib.Data.List.Basic
import Mathlib.Data.List.Count
import Mathlib.Data.List.Induction
import MotaCoin.Lib.Int64

/-!
# Putting items without a place among items with one

Items come one after the other, with a place each or, as `-1`, with none. One without a place gets the
next one that is free, and one with a place is moved by as many of these as are not above it.

## Main definitions

* `Renumber.St`: the next place and the places that were given to items without one
* `Renumber.places`: the new places
* `Renumber.Fits`: no item is moved onto a place that was given to another
* `Renumber.Spaced`: each place leaves room for what comes before it

## Main results

* `Renumber.settled_iff`: when the new places are apart
* `Renumber.fits_of_spaced`
-/

namespace Renumber

/-- The next place, and the places that were given to items without one. -/
structure St where
  next : Int
  offsets : List Int

/-- How far an item is moved. -/
def shift (offsets : List Int) (old : Int) : Int := offsets.countP fun o => o ≤ old

/-- The new place of an item. -/
def St.place (s : St) (old : Int) : Int :=
  if old = -1 then s.next else Int64.wrap (old + shift s.offsets old)

/-- An item is placed. -/
def St.step (s : St) (old : Int) : St :=
  if old = -1 then ⟨Int64.wrap (s.next + 1), s.offsets ++ [s.next]⟩
  else ⟨max s.next (Int64.wrap (s.place old + 1)), s.offsets⟩

/-- The new places of all items. -/
def places : St → List Int → List Int
  | _, [] => []
  | s, old :: l => s.place old :: places (s.step old) l

/-- All items are placed. -/
def run (s : St) (l : List Int) : St := l.foldl St.step s

/-- An item fits: its place is in range, and if it had one it is not moved onto one that was given to
another. -/
def St.Admits (s : St) (old : Int) : Prop :=
  if old = -1 then s.next + 1 < 2 ^ 63
  else 0 ≤ old ∧ old + shift s.offsets old + 1 < 2 ^ 63 ∧ old + shift s.offsets old ∉ s.offsets

instance (s : St) (old : Int) : Decidable (s.Admits old) :=
  inferInstanceAs (Decidable (if old = -1 then s.next + 1 < 2 ^ 63
    else 0 ≤ old ∧ old + shift s.offsets old + 1 < 2 ^ 63 ∧ old + shift s.offsets old ∉ s.offsets))

/-- All items fit. -/
def Fits : St → List Int → Prop
  | _, [] => True
  | s, old :: l => s.Admits old ∧ Fits (s.step old) l

instance decidableFits : (s : St) → (l : List Int) → Decidable (Fits s l)
  | _, [] => isTrue trivial
  | s, old :: l => @instDecidableAnd _ _ _ (decidableFits (s.step old) l)

/-- **Old and new places that are apart**, below the next one and in the same order. -/
structure Settled (pairs : List (Int × Int)) (next : Int) : Prop where
  bounds : ∀ x ∈ pairs, 0 ≤ x.2 ∧ x.2 < next
  distinct : pairs.Pairwise fun x y => x.2 ≠ y.2
  order : ∀ x ∈ pairs, ∀ y ∈ pairs, x.1 ≠ -1 → y.1 ≠ -1 → x.1 < y.1 → x.2 < y.2

/-! ## Items that fit are settled -/

variable {s : St} {old p : Int} {l : List Int}

theorem shift_nonneg (offsets : List Int) (old : Int) : 0 ≤ shift offsets old := Int.natCast_nonneg _

theorem shift_mono {offsets : List Int} {old old' : Int} (h : old ≤ old') :
    shift offsets old ≤ shift offsets old' := by
  refine Int.ofNat_le.2 (List.countP_mono_left fun o _ ho => ?_)
  rw [decide_eq_true_eq] at ho ⊢
  exact ho.trans h

/-- A place that is given later moves nothing that is below it. -/
theorem shift_append {offsets : List Int} {o : Int} (h : old < o) :
    shift (offsets ++ [o]) old = shift offsets old := by
  rw [shift, List.countP_append, List.countP_singleton, shift,
    if_neg (by rw [decide_eq_true_eq]; exact h.not_ge), Nat.add_zero]

/-- What was placed so far. -/
structure Inv (s : St) (done : List (Int × Int)) : Prop where
  next_nonneg : 0 ≤ s.next
  bounds : ∀ x ∈ done, 0 ≤ x.2 ∧ x.2 < s.next
  distinct : done.Pairwise fun x y => x.2 ≠ y.2
  offsets : ∀ o, o ∈ s.offsets ↔ (-1, o) ∈ done
  shifted : ∀ x ∈ done, x.1 ≠ -1 → x.2 = x.1 + shift s.offsets x.1

theorem Inv.settled {done : List (Int × Int)} (h : Inv s done) : Settled done s.next where
  bounds := h.bounds
  distinct := h.distinct
  order x hx y hy hxp hyp hlt := by
    have hmono := @shift_mono s.offsets _ _ hlt.le
    rw [h.shifted x hx hxp, h.shifted y hy hyp]
    omega

theorem St.place_of_admits (h : s.Admits old) (hold : old ≠ -1) :
    s.place old = old + shift s.offsets old := by
  rw [Admits, if_neg hold] at h
  have hshift := shift_nonneg s.offsets old
  rw [place, if_neg hold, Int64.wrap_eq_self ⟨by omega, by omega⟩]

/-- **An item that fits is placed apart from the others.** -/
theorem Inv.step {done : List (Int × Int)} (h : Inv s done) (hadmits : s.Admits old)
    (hnew : ∀ x ∈ done, x.1 = old → old = -1) :
    Inv (s.step old) (done ++ [(old, s.place old)]) := by
  by_cases hold : old = -1
  · subst hold
    rw [St.Admits, if_pos rfl] at hadmits
    have hnext := h.next_nonneg
    have hstep : s.step (-1) = ⟨s.next + 1, s.offsets ++ [s.next]⟩ := by
      rw [St.step, if_pos rfl, Int64.wrap_eq_self ⟨by omega, by omega⟩]
    have hplace : s.place (-1) = s.next := if_pos rfl
    rw [hstep, hplace]
    refine ⟨by dsimp only; omega, fun x hx => ?_, ?_, fun o => ?_, fun x hx hxp => ?_⟩
    · rcases List.mem_append.1 hx with hx | hx
      · have hb := h.bounds x hx
        dsimp only
        omega
      · obtain rfl := List.mem_singleton.1 hx
        dsimp only
        omega
    · rw [List.pairwise_append]
      refine ⟨h.distinct, List.pairwise_singleton _ _, fun x hx y hy => ?_⟩
      obtain rfl := List.mem_singleton.1 hy
      exact (h.bounds x hx).2.ne
    · rw [List.mem_append, List.mem_append, h.offsets, List.mem_singleton, List.mem_singleton,
        Prod.mk.injEq, eq_self_iff_true, true_and]
    · rcases List.mem_append.1 hx with hx | hx
      · -- it was placed below the next place
        have hshifted := h.shifted x hx hxp
        have hb := h.bounds x hx
        have hshift := shift_nonneg s.offsets x.1
        rw [shift_append (by omega)]
        exact hshifted
      · obtain rfl := List.mem_singleton.1 hx
        exact absurd rfl hxp
  · have hplace := St.place_of_admits hadmits hold
    rw [St.Admits, if_neg hold] at hadmits
    obtain ⟨hnonneg, hlt, hfree⟩ := hadmits
    have hshift := shift_nonneg s.offsets old
    have hstep : s.step old = ⟨max s.next (s.place old + 1), s.offsets⟩ := by
      rw [St.step, if_neg hold, hplace, Int64.wrap_eq_self ⟨by omega, by omega⟩]
    rw [hstep, hplace]
    have hnext := h.next_nonneg
    refine ⟨by dsimp only; omega, fun x hx => ?_, ?_, fun o => ?_, fun x hx hxp => ?_⟩
    · rcases List.mem_append.1 hx with hx | hx
      · have hb := h.bounds x hx
        dsimp only
        omega
      · obtain rfl := List.mem_singleton.1 hx
        dsimp only
        omega
    · rw [List.pairwise_append]
      refine ⟨h.distinct, List.pairwise_singleton _ _, fun x hx y hy => ?_⟩
      obtain rfl := List.mem_singleton.1 hy
      dsimp only
      by_cases hxp : x.1 = -1
      · intro heq
        refine hfree (heq ▸ (h.offsets x.2).2 ?_)
        rw [← hxp]
        exact hx
      · -- items that had places keep their order
        rw [h.shifted x hx hxp]
        rcases lt_trichotomy x.1 old with hlt' | heq | hgt
        · have hmono := @shift_mono s.offsets _ _ hlt'.le
          omega
        · exact absurd (hnew x hx heq) hold
        · have hmono := @shift_mono s.offsets _ _ hgt.le
          omega
    · rw [List.mem_append, h.offsets, List.mem_singleton, Prod.mk.injEq]
      exact ⟨Or.inl, fun hor => hor.resolve_right fun heq => hold heq.1.symm⟩
    · rcases List.mem_append.1 hx with hx | hx
      · exact h.shifted x hx hxp
      · obtain rfl := List.mem_singleton.1 hx
        rfl

theorem Inv.run {done : List (Int × Int)} (h : Inv s done) (hfits : Fits s l)
    (hdistinct : (done.map Prod.fst ++ l).Pairwise fun x y => x = y → y = -1) :
    Inv (run s l) (done ++ l.zip (places s l)) := by
  induction l generalizing s done with
  | nil => simpa [Renumber.run, places] using h
  | cons old l ih =>
    obtain ⟨hadmits, hrest⟩ := hfits
    have hnew : ∀ x ∈ done, x.1 = old → old = -1 := fun x hx =>
      (List.pairwise_append.1 hdistinct).2.2 x.1 (List.mem_map_of_mem hx) old List.mem_cons_self
    have hstep := ih (h.step hadmits hnew) hrest (by simpa using hdistinct)
    simpa [Renumber.run, places] using hstep

/-- An item that fits is not moved down. -/
theorem le_of_mem_places (h : Fits s l) {x : Int × Int} (hx : x ∈ l.zip (places s l)) (hold : x.1 ≠ -1) :
    x.1 ≤ x.2 := by
  induction l generalizing s with
  | nil => cases hx
  | cons old l ih =>
    rw [places, List.zip_cons_cons, List.mem_cons] at hx
    rcases hx with rfl | hx
    · have hshift := shift_nonneg s.offsets old
      dsimp only at hold ⊢
      rw [St.place_of_admits h.1 hold]
      omega
    · exact ih h.2 hx

theorem length_places (s : St) (l : List Int) : (places s l).length = l.length := by
  induction l generalizing s with
  | nil => rfl
  | cons old l ih => rw [places, List.length_cons, List.length_cons, ih]

/-! ## Items that are settled fit -/

/-- The next place is never above the range. -/
theorem next_run_lt (h : s.next < 2 ^ 63) (l : List Int) : (run s l).next < 2 ^ 63 := by
  induction l generalizing s with
  | nil => exact h
  | cons old l ih =>
    refine ih ?_
    rw [St.step]
    split
    · exact (Int64.inRange_wrap _).2
    · exact max_lt h (Int64.inRange_wrap _).2

/-- Places that were given so far, in range. -/
structure InBounds (s : St) : Prop where
  next_lt : s.next < 2 ^ 63
  length_le : (s.offsets.length : Int) ≤ s.next
  offsets : ∀ o ∈ s.offsets, 0 ≤ o

theorem shift_le (h : InBounds s) (old : Int) : shift s.offsets old ≤ s.next :=
  (Int.ofNat_le.2 List.countP_le_length).trans h.length_le

/-- Below zero nothing is moved. -/
theorem shift_of_neg (h : InBounds s) (hold : old < 0) : shift s.offsets old = 0 := by
  rw [shift, Int.natCast_eq_zero, List.countP_eq_zero]
  intro o ho
  have hnonneg := h.offsets o ho
  rw [decide_eq_true_eq]
  omega

/-- An item whose new place is in range and free fits. -/
theorem admits_of_place (h : InBounds s) (hrange : Int64.InRange old)
    (hplace : 0 ≤ s.place old ∧ s.place old + 1 < 2 ^ 63)
    (hfree : old ≠ -1 → s.place old ∉ s.offsets) : s.Admits old := by
  rw [St.Admits]
  rw [St.place] at hplace hfree
  split
  · next hold =>
    rw [if_pos hold] at hplace
    exact hplace.2
  · next hold =>
    rw [if_neg hold] at hplace hfree
    have hshift := shift_nonneg s.offsets old
    have hle := shift_le h old
    have hlt := h.next_lt
    obtain ⟨hlo, hhi⟩ := hrange
    have hnonneg : 0 ≤ old := by
      by_contra hneg
      rw [shift_of_neg h (by omega), Int.add_zero, Int64.wrap_eq_self ⟨hlo, hhi⟩] at hplace
      omega
    have hsum : Int64.InRange (old + shift s.offsets old) := by
      -- the sum would be below zero if it were out of range
      by_contra hout
      rw [Int64.wrap] at hplace
      rw [Int64.InRange] at hout
      omega
    rw [Int64.wrap_eq_self hsum] at hplace hfree
    exact ⟨hnonneg, hplace.2, hfree hold⟩

theorem InBounds.step (h : InBounds s) (hadmits : s.Admits old) : InBounds (s.step old) := by
  have hlen := h.length_le
  have hzero : (0 : Int) ≤ s.offsets.length := Int.natCast_nonneg _
  rw [St.step]
  split
  · next hold =>
    rw [St.Admits, if_pos hold] at hadmits
    rw [Int64.wrap_eq_self ⟨by omega, hadmits⟩]
    refine ⟨hadmits, ?_, fun o ho => ?_⟩
    · rw [List.length_append, List.length_singleton]
      push_cast
      omega
    · rcases List.mem_append.1 ho with ho | ho
      · exact h.offsets o ho
      · obtain rfl := List.mem_singleton.1 ho
        omega
  · exact ⟨max_lt h.next_lt (Int64.inRange_wrap _).2, hlen.trans (le_max_left _ _), h.offsets⟩

/-- New places that are apart are those of items that fit. -/
theorem fits_of_settled (h : InBounds s) (hrange : ∀ old ∈ l, Int64.InRange old)
    (hbounds : ∀ q ∈ places s l, 0 ≤ q ∧ q < (run s l).next)
    (hdistinct : (places s l).Pairwise fun q q' => q ≠ q')
    (hfree : ∀ x ∈ l.zip (places s l), x.1 ≠ -1 → x.2 ∉ s.offsets) : Fits s l := by
  induction l generalizing s with
  | nil => trivial
  | cons old l ih =>
    rw [places, List.pairwise_cons] at hdistinct
    rw [places, List.zip_cons_cons] at hfree
    rw [places] at hbounds
    have hlt := next_run_lt h.next_lt (old :: l)
    have hplace := hbounds _ List.mem_cons_self
    have hadmits := admits_of_place h (hrange old List.mem_cons_self) ⟨hplace.1, by omega⟩
      (hfree (old, s.place old) List.mem_cons_self)
    refine ⟨hadmits, ih (h.step hadmits) (fun old' hmem => hrange old' (List.mem_cons_of_mem _ hmem))
      (fun q hq => hbounds q (List.mem_cons_of_mem _ hq)) hdistinct.2 fun x hx hxp => ?_⟩
    have hnot := hfree x (List.mem_cons_of_mem _ hx) hxp
    rw [St.step]
    split
    · next hold =>
      rw [List.mem_append, List.mem_singleton, not_or]
      refine ⟨hnot, fun heq => ?_⟩
      -- the place that was just given
      have hq : x.2 ∈ places (s.step old) l := (List.of_mem_zip hx).2
      refine hdistinct.1 _ hq ?_
      rw [heq, St.place, if_pos hold]
    · exact hnot

/-- **When the new places are apart**: all items fit. -/
theorem settled_iff (hrange : ∀ old ∈ l, Int64.InRange old)
    (hdistinct : l.Pairwise fun x y => x = y → y = -1) :
    Settled (l.zip (places ⟨0, []⟩ l)) (run ⟨0, []⟩ l).next ↔ Fits ⟨0, []⟩ l := by
  have hsnd : (l.zip (places ⟨0, []⟩ l)).map Prod.snd = places ⟨0, []⟩ l :=
    List.map_snd_zip (length_places _ _).le
  constructor
  · intro h
    refine fits_of_settled ⟨by decide, le_rfl, by simp⟩ hrange (fun q hq => ?_) ?_ (by simp)
    · rw [← hsnd] at hq
      obtain ⟨x, hx, rfl⟩ := List.mem_map.1 hq
      exact h.bounds x hx
    · rw [← hsnd, List.pairwise_map]
      exact h.distinct
  · intro h
    have hinv : Inv ⟨0, []⟩ [] := ⟨le_rfl, by simp, .nil, by simp, by simp⟩
    exact (hinv.run h (by simpa using hdistinct)).settled

/-! ## Items with enough room -/

/-- Above all places of `l`, and at least `N`. -/
def top (N : Int) (l : List Int) : Int := l.foldl (fun N old => if old = -1 then N else max N (old + 1)) N

/-- Where the items without a place are among the old places: above all those before them. -/
def starts : Int → List Int → List Int
  | _, [] => []
  | N, old :: l => if old = -1 then N :: starts N l else starts (max N (old + 1)) l

/-- **Each place leaves room for the items before it**: it is below where the `i`-th item without a
place is, or at least `i` above that. -/
def Spaced (l : List Int) : Prop :=
  ∀ a old b, l = a ++ old :: b → old ≠ -1 → ∀ (i : ℕ) N, (starts 0 a)[i]? = some N → old < N ∨ N + i ≤ old

theorem starts_append (N : Int) (a b : List Int) :
    starts N (a ++ b) = starts N a ++ starts (top N a) b := by
  induction a generalizing N with
  | nil => rfl
  | cons old a ih =>
    rw [List.cons_append, starts, starts, top, List.foldl_cons]
    split
    · rw [ih, List.cons_append]
      rfl
    · exact ih _

theorem top_append (N : Int) (a : List Int) (old : Int) :
    top N (a ++ [old]) = if old = -1 then top N a else max (top N a) (old + 1) := by
  rw [top, List.foldl_append]
  rfl

theorem le_top (N : Int) (a : List Int) : N ≤ top N a := by
  induction a generalizing N with
  | nil => exact le_rfl
  | cons old a ih =>
    rw [top, List.foldl_cons]
    split
    · exact ih N
    · exact (le_max_left _ _).trans (ih _)

theorem starts_le_top {N x : Int} {a : List Int} (hx : x ∈ starts N a) : x ≤ top N a := by
  induction a generalizing N with
  | nil => cases hx
  | cons old a ih =>
    rw [starts] at hx
    rw [top, List.foldl_cons]
    split at hx
    · next hold =>
      rw [if_pos hold]
      rcases List.mem_cons.1 hx with rfl | hx
      · exact le_top x a
      · exact ih hx
    · next hold =>
      rw [if_neg hold]
      exact ih hx

theorem sorted_starts (a : List Int) : (starts 0 a).Pairwise fun x y => x ≤ y := by
  induction a using List.reverseRecOn with
  | nil => exact .nil
  | append_singleton a old ih =>
    rw [starts_append, List.pairwise_append]
    refine ⟨ih, ?_, fun x hx y hy => ?_⟩
    · rw [starts]
      split
      · exact List.pairwise_singleton _ _
      · exact .nil
    · rw [starts] at hy
      split at hy
      · obtain rfl := List.mem_singleton.1 hy
        exact starts_le_top hx
      · cases hy

/-- The places that items without one get, where there is room. -/
def given (a : List Int) : List Int := (starts 0 a).zipIdx.map fun x => x.1 + x.2

theorem given_append (a : List Int) (old : Int) :
    given (a ++ [old]) =
      if old = -1 then given a ++ [top 0 a + (starts 0 a).length] else given a := by
  rw [given, starts_append, starts]
  split
  · rw [List.zipIdx_append, List.map_append, given]
    simp [starts]
  · rw [starts, List.append_nil, given]

/-- In a sorted list, at most `i` elements are below the `i`-th. -/
theorem countP_le_of_lt {xs : List Int} (hsorted : xs.Pairwise fun x y => x ≤ y) {i : Nat} {N : Int}
    (hN : xs[i]? = some N) (hlt : old < N) : xs.countP (fun x => x ≤ old) ≤ i := by
  have hrest : (xs.drop i).countP (fun x => x ≤ old) = 0 := by
    rw [List.countP_eq_zero]
    intro x hx
    obtain ⟨j, hj⟩ := List.mem_iff_getElem?.1 hx
    rw [List.getElem?_drop] at hj
    have hle : N ≤ x := by
      rcases Nat.eq_zero_or_pos j with rfl | hpos
      · rw [Nat.add_zero, hN] at hj
        exact (Option.some.inj hj).le
      · obtain ⟨hi, rfl⟩ := List.getElem?_eq_some_iff.1 hN
        obtain ⟨hij, rfl⟩ := List.getElem?_eq_some_iff.1 hj
        exact List.pairwise_iff_getElem.1 hsorted i (i + j) hi hij (by omega)
    rw [decide_eq_true_eq]
    omega
  have hsplit := @List.countP_append _ (fun x => decide (x ≤ old)) (xs.take i) (xs.drop i)
  rw [List.take_append_drop, hrest, Nat.add_zero] at hsplit
  rw [hsplit]
  exact List.countP_le_length.trans (List.length_take_le _ _)

/-- An item with room is moved by as many items as are not above it, and onto none of them. -/
theorem shift_given {a : List Int}
    (hspaced : ∀ (i : ℕ) N, (starts 0 a)[i]? = some N → old < N ∨ N + i ≤ old) :
    shift (given a) old = (starts 0 a).countP (fun N => N ≤ old) ∧
      old + shift (given a) old ∉ given a := by
  have hshift : shift (given a) old = (starts 0 a).countP (fun N => N ≤ old) := by
    have hfst : (starts 0 a).countP (fun N => N ≤ old) =
        (starts 0 a).zipIdx.countP ((fun N => decide (N ≤ old)) ∘ Prod.fst) := by
      rw [← List.countP_map, List.zipIdx_map_fst]
    rw [shift, given, List.countP_map, hfst, Int.ofNat_inj]
    refine List.countP_congr fun x hx => ?_
    have hroom := hspaced x.2 x.1 (List.mem_zipIdx_iff_getElem?.1 hx)
    simp only [Function.comp_apply, decide_eq_true_eq]
    omega
  refine ⟨hshift, fun hmem => ?_⟩
  obtain ⟨⟨N, i⟩, hx, heq⟩ := List.mem_map.1 hmem
  have hN := List.mem_zipIdx_iff_getElem?.1 hx
  dsimp only at hN heq
  rcases hspaced i N hN with hlt | hle
  · have hcount := countP_le_of_lt (sorted_starts a) hN hlt
    rw [hshift] at heq
    omega
  · -- it is counted itself
    have hpos : 0 < (starts 0 a).countP (fun N => N ≤ old) := by
      rw [List.countP_pos_iff]
      exact ⟨N, List.mem_of_getElem? hN, by rw [decide_eq_true_eq]; omega⟩
    rw [hshift] at heq
    omega

theorem length_starts_le (N : Int) (a : List Int) : (starts N a).length ≤ a.length := by
  induction a generalizing N with
  | nil => exact le_rfl
  | cons old a ih =>
    rw [starts, List.length_cons]
    split
    · rw [List.length_cons]
      exact Nat.succ_le_succ (ih N)
    · exact (ih _).trans (Nat.le_succ _)

theorem top_le {B : Int} (hB : 0 ≤ B) {a : List Int} (ha : ∀ old ∈ a, old + 1 ≤ B) : top 0 a ≤ B := by
  induction a using List.reverseRecOn with
  | nil => exact hB
  | append_singleton a old ih =>
    have hinit := ih fun old' hmem => ha old' (List.mem_append_left _ hmem)
    rw [top_append]
    split
    · exact hinit
    · exact max_le hinit (ha old (List.mem_append_right _ List.mem_cons_self))

/-- The state after items with enough room. -/
def spacedSt (a : List Int) : St := ⟨top 0 a + (starts 0 a).length, given a⟩

/-- An item with enough room is placed. -/
theorem step_spacedSt {a : List Int} (hadmits : (spacedSt a).Admits old)
    (hnext : 0 ≤ (spacedSt a).next)
    (hspaced : old ≠ -1 → ∀ (i : ℕ) N, (starts 0 a)[i]? = some N → old < N ∨ N + i ≤ old) :
    (spacedSt a).step old = spacedSt (a ++ [old]) := by
  have hlength : (starts 0 (a ++ [old])).length =
      (starts 0 a).length + if old = -1 then 1 else 0 := by
    rw [starts_append, List.length_append, starts]
    split <;> rfl
  have hnew : spacedSt (a ++ [old]) =
      ⟨(if old = -1 then top 0 a else max (top 0 a) (old + 1)) +
          ((starts 0 a).length + if old = -1 then 1 else 0 : ℕ),
        if old = -1 then given a ++ [top 0 a + (starts 0 a).length] else given a⟩ := by
    rw [spacedSt, given_append, top_append, hlength]
  rw [hnew]
  by_cases hold : old = -1
  · rw [St.Admits, if_pos hold] at hadmits
    rw [St.step, if_pos hold, if_pos hold, if_pos hold, if_pos hold,
      Int64.wrap_eq_self ⟨by omega, hadmits⟩]
    simp only [spacedSt, St.mk.injEq, and_true]
    push_cast
    omega
  · have hplace := St.place_of_admits hadmits hold
    obtain ⟨hshift, -⟩ := shift_given (hspaced hold)
    rw [St.Admits, if_neg hold] at hadmits
    have hnonneg := shift_nonneg (spacedSt a).offsets old
    rw [St.step, if_neg hold, if_neg hold, if_neg hold, if_neg hold, hplace,
      Int64.wrap_eq_self ⟨by omega, hadmits.2.1⟩]
    have hle : (starts 0 a).countP (fun N => N ≤ old) ≤ (starts 0 a).length := List.countP_le_length
    have hall : top 0 a ≤ old → (starts 0 a).countP (fun N => N ≤ old) = (starts 0 a).length := by
      refine fun htop => List.countP_eq_length.2 fun N hN => ?_
      rw [decide_eq_true_eq]
      exact (starts_le_top hN).trans htop
    simp only [spacedSt, St.mk.injEq, and_true, Nat.add_zero]
    rw [hshift]
    rcases le_or_gt (top 0 a) old with htop | htop
    · rw [hall htop]
      omega
    · omega

/-- **Items with enough room fit.** -/
theorem fits_of_spaced (hspaced : Spaced l) (hbounds : ∀ old ∈ l, -1 ≤ old ∧ old + l.length + 1 < 2 ^ 63) :
    Fits ⟨0, []⟩ l := by
  -- what is left fits after what was placed so far
  have hrun : ∀ b a, l = a ++ b → Fits (spacedSt a) b := by
    intro b
    induction b with
    | nil => exact fun _ _ => trivial
    | cons old b ih =>
      intro a hl
      have hmem : ∀ old' ∈ a ++ [old], old' ∈ l := fun old' hold' => by
        rw [hl]
        rcases List.mem_append.1 hold' with hold' | hold'
        · exact List.mem_append_left _ hold'
        · obtain rfl := List.mem_singleton.1 hold'
          exact List.mem_append_right _ List.mem_cons_self
      have hlen : a.length + 1 ≤ l.length := by
        rw [hl, List.length_append, List.length_cons]
        omega
      have hold := hbounds old (hmem old (by simp))
      have hstarts := length_starts_le 0 a
      have htop : top 0 a ≤ 2 ^ 63 - 1 - l.length := top_le (by omega) fun old' hold' => by
        have hb := hbounds old' (hmem old' (List.mem_append_left _ hold'))
        omega
      have hroom : old ≠ -1 → ∀ (i : ℕ) N, (starts 0 a)[i]? = some N → old < N ∨ N + i ≤ old :=
        fun hne => hspaced a old b hl hne
      have hnext : 0 ≤ (spacedSt a).next := Int.add_nonneg (le_top 0 a) (Int.natCast_nonneg _)
      have hadmits : (spacedSt a).Admits old := by
        rw [St.Admits]
        split
        · rw [spacedSt]
          dsimp only
          omega
        · next hne =>
          obtain ⟨hshift, hfree⟩ := shift_given (hroom hne)
          have hle : (starts 0 a).countP (fun N => N ≤ old) ≤ (starts 0 a).length :=
            List.countP_le_length
          refine ⟨by omega, ?_, hfree⟩
          rw [spacedSt]
          dsimp only
          rw [hshift]
          omega
      refine ⟨hadmits, ?_⟩
      rw [step_spacedSt hadmits hnext hroom]
      exact ih _ (by rw [hl, List.append_assoc]; rfl)
  exact hrun l [] rfl

end Renumber
