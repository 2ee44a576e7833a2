import Mathlib.Order.Basic

/-!
# Computations that count

A computation may fail, and on its way it counts how often it did one thing. What it has counted
stays counted when it fails. Nothing here is about one program.

## Main definitions

* `Counted α`: a count, with a result or none
* `Counted.fail`, `Counted.tick`, `Counted.ofOption`: the steps

## Main results

* `Counted.count_bind_le`: a bound for each of two steps is a bound for both
* `Counted.exists_of_result_bind`: what a result of two steps came from
-/

/-- A count, with a result or none. -/
structure Counted (α : Type) where
  /-- How often the thing was done. -/
  count : Nat
  /-- What came out; `none` is a failure. -/
  result : Option α

namespace Counted

variable {α β : Type}

/-- Fail, and count nothing. -/
def fail : Counted α := ⟨0, none⟩

/-- Do the thing once, with the result `a`. -/
def tick (a : α) : Counted α := ⟨1, some a⟩

/-- A computation that counts nothing. -/
def ofOption (o : Option α) : Counted α := ⟨0, o⟩

/-- One computation after another. -/
protected def bind (m : Counted α) (f : α → Counted β) : Counted β :=
  match m.result with
  | none => ⟨m.count, none⟩
  | some a => ⟨m.count + (f a).count, (f a).result⟩

instance : Monad Counted where
  pure a := ⟨0, some a⟩
  bind := Counted.bind

@[simp] theorem count_pure (a : α) : (pure a : Counted α).count = 0 := rfl

@[simp] theorem result_pure (a : α) : (pure a : Counted α).result = some a := rfl

@[simp] theorem count_fail : (fail : Counted α).count = 0 := rfl

@[simp] theorem result_fail : (fail : Counted α).result = none := rfl

@[simp] theorem count_tick (a : α) : (tick a).count = 1 := rfl

@[simp] theorem count_ofOption (o : Option α) : (ofOption o).count = 0 := rfl

@[simp] theorem result_ofOption (o : Option α) : (ofOption o).result = o := rfl

variable {m : Counted α} {f : α → Counted β} {x y : Nat}

/-- A bound for the first step, and one for what follows it, add up to a bound for both. -/
theorem count_bind_le (hm : m.count ≤ x) (hf : ∀ a, m.result = some a → (f a).count ≤ y) :
    (m >>= f).count ≤ x + y := by
  change (Counted.bind m f).count ≤ x + y
  unfold Counted.bind
  split
  · exact Nat.le_add_right_of_le hm
  · next a ha => exact Nat.add_le_add hm (hf a ha)

theorem result_bind (m : Counted α) (f : α → Counted β) :
    (m >>= f).result = m.result.bind fun a => (f a).result := by
  change (Counted.bind m f).result = _
  unfold Counted.bind
  cases m.result <;> rfl

theorem exists_of_result_bind {b : β} (h : (m >>= f).result = some b) :
    ∃ a, m.result = some a ∧ (f a).result = some b := by
  change (Counted.bind m f).result = some b at h
  unfold Counted.bind at h
  split at h
  · cases h
  · next a ha => exact ⟨a, ha, h⟩

end Counted
