import Mathlib.Data.List.Forall2
import MotaCoin.Lib.SpendIndex

/-!
# Spend indices of relocated ledgers

Two ledgers with the same entries at different positions have the same index up to the positions:
a record of one corresponds to a record of the other, with the corresponding position and the
corresponding spenders. Which positions correspond is a relation, so that both ledgers may use any
places they like. Nothing here is about one program.

## Main definitions

* `OrNull`, `RecordRel`, `IndexRel`: corresponding spenders, records and indices
* `EntryRel`: the same entry at corresponding positions

## Main results

* `ofLedger_rel`: relocated ledgers have corresponding indices
* `IndexRel.update`, `RecordRel.set`: corresponding updates
-/

theorem Option.Rel.exists_right {α β : Type} {R : α → β → Prop} {a : Option α} {b : Option β}
    (h : Option.Rel R a b) {x : α} (hx : a = .some x) : ∃ y, b = .some y ∧ R x y := by
  cases h with
  | none => cases hx
  | some hr =>
    obtain rfl := Option.some.inj hx
    exact ⟨_, rfl, hr⟩

theorem Option.Rel.exists_left {α β : Type} {R : α → β → Prop} {a : Option α} {b : Option β}
    (h : Option.Rel R a b) {y : β} (hy : b = .some y) : ∃ x, a = .some x ∧ R x y := by
  cases h with
  | none => cases hy
  | some hr =>
    obtain rfl := Option.some.inj hy
    exact ⟨_, rfl, hr⟩

namespace SpendIndex

variable {I P : Type} (R : P → P → Prop) (null : P)

/-- Corresponding spenders: at corresponding positions, or none on both sides. -/
def OrNull (p p' : P) : Prop := R p p' ∨ p = null ∧ p' = null

/-- Corresponding records. -/
structure RecordRel (r r' : Record P) : Prop where
  pos : R r.pos r'.pos
  vSpent : List.Forall₂ (OrNull R null) r.vSpent r'.vSpent

/-- Corresponding indices: the same identities, with corresponding records. -/
def IndexRel (idx idx' : Index I P) : Prop := ∀ i, Option.Rel (RecordRel R null) (idx i) (idx' i)

/-- The same entry at corresponding positions. -/
structure EntryRel (e e' : Entry I P) : Prop where
  id : e.id = e'.id
  outs : e.outs = e'.outs
  spends : e.spends = e'.spends
  pos : R e.pos e'.pos

variable {R null}

/-- Searching for a property that corresponding entries share finds corresponding entries. -/
theorem find?_rel {L L' : List (Entry I P)} (hL : List.Forall₂ (EntryRel R) L L')
    {f : Entry I P → Bool} (hf : ∀ e e', EntryRel R e e' → f e = f e') :
    Option.Rel (EntryRel R) (L.find? f) (L'.find? f) := by
  induction hL with
  | nil => exact .none
  | @cons e e' L L' he _ ih =>
    rw [List.find?_cons, List.find?_cons, ← hf e e' he]
    cases f e with
    | true => exact .some he
    | false => exact ih

theorem RecordRel.length_eq {r r' : Record P} (h : RecordRel R null r r') :
    r.vSpent.length = r'.vSpent.length := h.vSpent.length_eq

theorem forall₂_getElem? {S : P → P → Prop} {l l' : List P} (h : List.Forall₂ S l l') (n : Nat) :
    Option.Rel S l[n]? l'[n]? := by
  induction h generalizing n with
  | nil => exact .none
  | cons hp _ ih =>
    cases n with
    | zero => exact .some hp
    | succ n => exact ih n

/-- Looking up a spender in corresponding records. -/
theorem RecordRel.getElem? {r r' : Record P} (h : RecordRel R null r r') (n : Nat) :
    Option.Rel (OrNull R null) r.vSpent[n]? r'.vSpent[n]? := forall₂_getElem? h.vSpent n

theorem forall₂_set {S : P → P → Prop} {l l' : List P} (h : List.Forall₂ S l l') {p p' : P}
    (hp : S p p') (n : Nat) : List.Forall₂ S (l.set n p) (l'.set n p') := by
  induction h generalizing n with
  | nil => exact .nil
  | cons hq hl ih =>
    cases n with
    | zero => exact .cons hp hl
    | succ n => exact .cons hq (ih n)

/-- Marking an output spent in corresponding records. -/
theorem RecordRel.set {r r' : Record P} (h : RecordRel R null r r') {p p' : P} (hp : R p p')
    (n : Nat) :
    RecordRel R null { r with vSpent := r.vSpent.set n p }
      { r' with vSpent := r'.vSpent.set n p' } where
  pos := h.pos
  vSpent := forall₂_set h.vSpent (.inl hp) n

/-- The record of a new entry, with no output spent. -/
theorem RecordRel.fresh {p p' : P} (hp : R p p') (n : Nat) :
    RecordRel R null ⟨p, List.replicate n null⟩ ⟨p', List.replicate n null⟩ where
  pos := hp
  vSpent := List.forall₂_same.mpr fun _ hq => .inr
    ⟨List.eq_of_mem_replicate hq, List.eq_of_mem_replicate hq⟩

variable [DecidableEq I]

theorem IndexRel.update {idx idx' : Index I P} (h : IndexRel R null idx idx') (i : I)
    {r r' : Record P} (hr : RecordRel R null r r') :
    IndexRel R null (Function.update idx i (some r)) (Function.update idx' i (some r')) := by
  intro j
  by_cases hj : j = i
  · subst hj
    rw [Function.update_self, Function.update_self]
    exact .some hr
  · rw [Function.update_of_ne hj, Function.update_of_ne hj]
    exact h j

theorem spentAt_rel {L L' : List (Entry I P)} (hL : List.Forall₂ (EntryRel R) L L') (o : I × Nat) :
    OrNull R null (spentAt null L o) (spentAt null L' o) := by
  have hfind := find?_rel hL fun e e' (he : EntryRel R e e') =>
    congrArg (fun spends => decide (o ∈ spends)) he.spends
  unfold spentAt
  generalize L.find? _ = found at hfind ⊢
  generalize L'.find? _ = found' at hfind ⊢
  cases hfind with
  | none => exact .inr ⟨rfl, rfl⟩
  | some he => exact .inl he.pos

/-- **Relocated ledgers have corresponding indices.** -/
theorem ofLedger_rel {L L' : List (Entry I P)} (hL : List.Forall₂ (EntryRel R) L L') :
    IndexRel R null (ofLedger null L) (ofLedger null L') := by
  intro i
  have hfind := find?_rel hL fun e e' (he : EntryRel R e e') =>
    congrArg (fun id => decide (id = i)) he.id
  unfold ofLedger
  generalize L.find? _ = found at hfind ⊢
  generalize L'.find? _ = found' at hfind ⊢
  cases hfind with
  | none => exact .none
  | some he =>
    refine .some ⟨he.pos, ?_⟩
    unfold recordOf
    rw [he.id, he.outs]
    exact List.forall₂_map_left_iff.mpr <| List.forall₂_map_right_iff.mpr <|
      List.forall₂_same.mpr fun n _ => spentAt_rel hL _

end SpendIndex
