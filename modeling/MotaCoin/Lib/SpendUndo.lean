import MotaCoin.Lib.SpendIndex

/-!
# Taking back a batch of entries

A batch of entries is added to an index one by one, each marking what it spends and creating its
record, and taken back in reverse order, each unmarking what it spent and erasing its record. Entries
may spend outputs of earlier ones of the batch. Whatever the index was, taking back gives it again,
where its unspent marks are the null position. Nothing here is about one program.

## Main definitions

* `connectAll`, `disconnectAll`: adding and taking back a batch
* `SpendableAll`: the test made before each entry
* `SameBut`: records that differ in the listed outputs only
* `Slots`: what holds of every mark of an index

## Main results

* `disconnectAll_connectAll`: taking back is the inverse
* `exists_record_of_spends`: what an entry spends has a record when it is taken back
-/

namespace SpendIndex

variable {I P : Type} [DecidableEq I] (null : P)

/-- Add an entry. -/
def connectOne (idx : Index I P) (e : Entry I P) : Index I P :=
  create null (markAll idx e.spends e.pos) e

/-- Take an entry back. -/
def disconnectOne (e : Entry I P) (idx : Index I P) : Index I P :=
  erase (markAll idx e.spends null) e.id

/-- Add a batch, from the first entry on. -/
def connectAll (idx : Index I P) (es : List (Entry I P)) : Index I P :=
  es.foldl (connectOne null) idx

/-- Take a batch back, from the last entry on. -/
def disconnectAll (idx : Index I P) (es : List (Entry I P)) : Index I P :=
  es.foldr (disconnectOne null) idx

/-- Every entry spends outputs that are unspent when its turn comes. -/
def SpendableAll (isNull : P → Bool) : Index I P → List (Entry I P) → Prop
  | _, [] => True
  | idx, e :: es =>
    Spendable isNull idx e.spends e.pos ∧ SpendableAll isNull (connectOne null idx e) es

/-- **Records that differ in the listed outputs only.** -/
structure SameBut (os : List (I × Nat)) (i : I) (r r' : Record P) : Prop where
  pos : r'.pos = r.pos
  length : r'.vSpent.length = r.vSpent.length
  slot : ∀ n, (i, n) ∉ os → r'.vSpent[n]? = r.vSpent[n]?

variable {null} {idx : Index I P} {i : I} {r r' r'' : Record P}

omit [DecidableEq I] in
theorem SameBut.refl (i : I) (r : Record P) : SameBut [] i r r := ⟨rfl, rfl, fun _ _ => rfl⟩

omit [DecidableEq I] in
theorem SameBut.trans {os os' : List (I × Nat)} (h : SameBut os i r r')
    (h' : SameBut os' i r' r'') : SameBut (os ++ os') i r r'' where
  pos := h'.pos.trans h.pos
  length := h'.length.trans h.length
  slot n hn := by
    rw [List.mem_append, not_or] at hn
    exact (h'.slot n hn.2).trans (h.slot n hn.1)

theorem SameBut.paint (os : List (I × Nat)) (p : P) (i : I) (r : Record P) :
    SameBut os i r (paint os p i r) where
  pos := rfl
  length := List.length_mapIdx
  slot n hn := by
    rw [SpendIndex.paint, List.getElem?_mapIdx]
    simp only [hn, if_false]
    exact Option.map_id'

theorem paint_paint (os os' : List (I × Nat)) (p : P) (i : I) (r : Record P) :
    paint os p i (paint os' p i r) = paint (os ++ os') p i r := by
  unfold paint
  congr 1
  rw [List.mapIdx_mapIdx]
  congr 1
  funext n q
  simp only [Function.comp_apply, List.mem_append]
  by_cases hn : (i, n) ∈ os
  · simp only [hn, if_true, true_or]
  · simp only [hn, if_false, false_or]

/-! ## Away from the batch -/

theorem connectOne_of_ne {e : Entry I P} (hi : i ≠ e.id) :
    connectOne null idx e i = (idx i).map (paint e.spends e.pos i) := by
  rw [connectOne, create, Function.update_of_ne hi, markAll_apply]

theorem disconnectOne_of_ne {e : Entry I P} (hi : i ≠ e.id) :
    disconnectOne null e idx i = (idx i).map (paint e.spends null i) := by
  rw [disconnectOne, erase, Function.update_of_ne hi, markAll_apply]

/-- A batch changes the record of another identity in the outputs it spends only. -/
theorem connectAll_of_ne {es : List (Entry I P)} (hi : ∀ e ∈ es, i ≠ e.id) :
    Option.Rel (SameBut (es.flatMap Entry.spends) i) (idx i) (connectAll null idx es i) := by
  induction es generalizing idx with
  | nil =>
    change Option.Rel _ (idx i) (idx i)
    cases idx i with
    | none => exact .none
    | some r => exact .some (SameBut.refl i r)
  | cons e es ih =>
    have hrest := @ih (connectOne null idx e) fun e' he' => hi e' (List.mem_cons_of_mem _ he')
    rw [connectOne_of_ne (hi e List.mem_cons_self)] at hrest
    change Option.Rel _ (idx i) (connectAll null (connectOne null idx e) es i)
    generalize connectAll null (connectOne null idx e) es i = last at hrest ⊢
    cases hr : idx i with
    | none =>
      rw [hr, Option.map_none] at hrest
      cases hrest
      exact .none
    | some r =>
      rw [hr, Option.map_some] at hrest
      cases hrest with
      | some hsame => exact .some ((SameBut.paint e.spends e.pos i r).trans hsame)

theorem disconnectAll_of_ne {es : List (Entry I P)} (hi : ∀ e ∈ es, i ≠ e.id) :
    disconnectAll null idx es i = (idx i).map (paint (es.flatMap Entry.spends) null i) := by
  induction es with
  | nil =>
    change idx i = _
    cases idx i with
    | none => rfl
    | some r => exact congrArg some (paint_nil null i r).symm
  | cons e es ih =>
    change disconnectOne null e (disconnectAll null idx es) i = _
    rw [disconnectOne_of_ne (hi e List.mem_cons_self),
      ih fun e' he' => hi e' (List.mem_cons_of_mem _ he'), Option.map_map]
    congr 1
    funext r
    exact paint_paint _ _ null i r

/-- What a batch added is gone. -/
theorem disconnectAll_of_mem {es : List (Entry I P)} {e : Entry I P} (he : e ∈ es) :
    disconnectAll null idx es e.id = none := by
  induction es with
  | nil => cases he
  | cons e' es ih =>
    change disconnectOne null e' (disconnectAll null idx es) e.id = none
    by_cases hid : e.id = e'.id
    · rw [hid, disconnectOne, erase, Function.update_self]
    · rcases List.mem_cons.1 he with rfl | he
      · exact absurd rfl hid
      · rw [disconnectOne_of_ne hid, ih he, Option.map_none]

/-! ## What a batch spends -/

section

variable {isNull : P → Bool}

/-- What passes the test was unspent before. -/
theorem Spendable.unspent {os : List (I × Nat)} {p : P} (h : Spendable isNull idx os p) :
    ∀ o ∈ os, Unspent isNull idx o := by
  induction os generalizing idx with
  | nil => exact fun _ ho => absurd ho List.not_mem_nil
  | cons o os ih =>
    intro o' ho'
    by_cases heq : o' = o
    · rw [heq]
      exact h.1
    · rcases List.mem_cons.1 ho' with rfl | ho'
      · exact absurd rfl heq
      · obtain ⟨r, q, hr, hq, hnull⟩ := ih h.2 o' ho'
        obtain ⟨r', hr', hslot⟩ := mark_getElem? heq hr
        exact ⟨r', q, hr', hslot.trans hq, hnull⟩

/-- **What a batch spends** of other identities was unspent before the batch. -/
theorem SpendableAll.unspent {es : List (Entry I P)} (h : SpendableAll null isNull idx es) :
    ∀ o ∈ es.flatMap Entry.spends, (∀ e ∈ es, o.1 ≠ e.id) → Unspent isNull idx o := by
  induction es generalizing idx with
  | nil => exact fun _ ho => absurd ho List.not_mem_nil
  | cons e es ih =>
    intro o ho hother
    by_cases hspends : o ∈ e.spends
    · exact h.1.unspent o hspends
    · rw [List.flatMap_cons, List.mem_append] at ho
      obtain ⟨r, q, hr, hq, hnull⟩ := ih h.2 o (ho.resolve_left hspends)
        fun e' he' => hother e' (List.mem_cons_of_mem _ he')
      -- The first entry left this output alone.
      rw [connectOne_of_ne (hother e List.mem_cons_self)] at hr
      obtain ⟨r₀, hr₀, rfl⟩ := Option.map_eq_some_iff.1 hr
      exact ⟨r₀, q, hr₀, ((SameBut.paint e.spends e.pos o.1 r₀).slot o.2 hspends).symm.trans hq,
        hnull⟩

/-- Unmarking what was unspent gives a record again. -/
theorem paint_eq_of_sameBut {os : List (I × Nat)} (hsame : SameBut os i r r')
    (hnull : ∀ n, (i, n) ∈ os → r.vSpent[n]? = some null) : paint os null i r' = r := by
  have hslots : (paint os null i r').vSpent = r.vSpent := by
    refine List.ext_getElem? fun n => ?_
    rw [paint, List.getElem?_mapIdx]
    by_cases hn : (i, n) ∈ os
    · have hlt : n < r'.vSpent.length := by
        rw [hsame.length]
        exact (List.getElem?_eq_some_iff.1 (hnull n hn)).1
      simp only [hn, if_true]
      rw [hnull n hn, List.getElem?_eq_getElem hlt, Option.map_some]
    · simp only [hn, if_false]
      rw [hsame.slot n hn]
      exact Option.map_id'
  have hpos : (paint os null i r').pos = r.pos := hsame.pos
  calc paint os null i r' = ⟨(paint os null i r').pos, (paint os null i r').vSpent⟩ := rfl
    _ = r := by rw [hslots, hpos]

/-- **Taking a batch back** gives the index it was added to. -/
theorem disconnectAll_connectAll {es : List (Entry I P)} (hfresh : ∀ e ∈ es, idx e.id = none)
    (hspendable : SpendableAll null isNull idx es)
    (hnull : ∀ i r, idx i = some r → ∀ q ∈ r.vSpent, isNull q = true → q = null) :
    disconnectAll null (connectAll null idx es) es = idx := by
  funext i
  by_cases hi : ∃ e ∈ es, i = e.id
  · obtain ⟨e, he, rfl⟩ := hi
    rw [disconnectAll_of_mem he, hfresh e he]
  · have hother : ∀ e ∈ es, i ≠ e.id := fun e he heq => hi ⟨e, he, heq⟩
    rw [disconnectAll_of_ne hother]
    have hrel : Option.Rel (SameBut (es.flatMap Entry.spends) i) (idx i) (connectAll null idx es i) :=
      connectAll_of_ne hother
    generalize connectAll null idx es i = last at hrel ⊢
    cases hr : idx i with
    | none =>
      rw [hr] at hrel
      cases hrel
      rfl
    | some r =>
      rw [hr] at hrel
      cases hrel with
      | some hsame =>
        refine congrArg some (paint_eq_of_sameBut hsame fun n hn => ?_)
        obtain ⟨r', q, hr', hq, hq_null⟩ := hspendable.unspent (i, n) hn hother
        obtain rfl := Option.some.inj (hr.symm.trans hr')
        rw [hq, hnull i r hr q (List.mem_of_getElem? hq) hq_null]

/-! ## While a batch is taken back -/

theorem SpendableAll.of_append {es es' : List (Entry I P)}
    (h : SpendableAll null isNull idx (es ++ es')) :
    SpendableAll null isNull (connectAll null idx es) es' := by
  induction es generalizing idx with
  | nil => exact h
  | cons e es ih => exact ih h.2

theorem connectAll_append (es es' : List (Entry I P)) :
    connectAll null idx (es ++ es') = connectAll null (connectAll null idx es) es' :=
  List.foldl_append

/-- **What an entry spends has a record** when the entries after it have been taken back. -/
theorem exists_record_of_spends {es es' : List (Entry I P)} {e : Entry I P}
    (hfresh : ∀ e' ∈ es ++ e :: es', idx e'.id = none)
    (hnodup : ((es ++ e :: es').map Entry.id).Nodup)
    (hspendable : SpendableAll null isNull idx (es ++ e :: es')) {o : I × Nat}
    (ho : o ∈ e.spends) :
    ∃ r, disconnectAll null (connectAll null idx (es ++ e :: es')) es' o.1 = some r ∧
      o.2 < r.vSpent.length := by
  -- What is spent has a record before the entry is added; its identity is of no later one.
  obtain ⟨r, q, hr, hq, -⟩ := hspendable.of_append.1.unspent o ho
  have hlt : o.2 < r.vSpent.length := (List.getElem?_eq_some_iff.1 hq).1
  rw [List.map_append, List.map_cons] at hnodup
  obtain ⟨-, -, hdisjoint⟩ := List.nodup_append.1 hnodup
  have hother : ∀ e' ∈ e :: es', o.1 ≠ e'.id := by
    intro e' he' heq
    have hnew : ∀ e'' ∈ es, o.1 ≠ e''.id := by
      intro e'' he'' heq'
      exact hdisjoint _ (List.mem_map_of_mem he'') _ (List.mem_map_of_mem (f := Entry.id) he')
        (heq'.symm.trans heq)
    have hrel : Option.Rel (SameBut (es.flatMap Entry.spends) o.1) (idx o.1)
        (connectAll null idx es o.1) := connectAll_of_ne hnew
    rw [hr, heq, hfresh e' (List.mem_append_right _ he')] at hrel
    cases hrel
  have hrel : Option.Rel (SameBut ((e :: es').flatMap Entry.spends) o.1) (connectAll null idx es o.1)
      (connectAll null (connectAll null idx es) (e :: es') o.1) := connectAll_of_ne hother
  rw [hr, ← connectAll_append] at hrel
  rw [disconnectAll_of_ne fun e' he' => hother e' (List.mem_cons_of_mem _ he')]
  generalize connectAll null idx (es ++ e :: es') o.1 = last at hrel ⊢
  cases hrel with
  | some hsame =>
    refine ⟨_, rfl, ?_⟩
    rw [(SameBut.paint _ null o.1 _).length, hsame.length]
    exact hlt

end

/-! ## Marks -/

/-- Every mark of an index satisfies a predicate. -/
def Slots (Q : P → Prop) (idx : Index I P) : Prop :=
  ∀ i r, idx i = some r → ∀ q ∈ r.vSpent, Q q

variable {Q : P → Prop}

/-- The marks of the index of a ledger are the null position and positions of its entries. -/
theorem Slots.ofLedger {L : List (Entry I P)} (hnull : Q null) (hL : ∀ e ∈ L, Q e.pos) :
    Slots Q (ofLedger null L) := by
  intro i r hr q hq
  obtain ⟨e, -, rfl⟩ := Option.map_eq_some_iff.1 hr
  obtain ⟨n, -, rfl⟩ := List.mem_map.1 hq
  unfold spentAt
  cases hfind : L.find? fun e' => decide ((e.id, n) ∈ e'.spends) with
  | none => exact hnull
  | some e' => exact hL e' (List.mem_of_find?_eq_some hfind)

end SpendIndex
