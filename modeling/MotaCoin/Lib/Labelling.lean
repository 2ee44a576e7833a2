import Mathlib.Data.Countable.Basic
import Mathlib.Data.List.Basic

/-!
# Injective labellings

On a countable type there is an injective labelling by natural numbers that takes prescribed values
on a finite list: the members of the list are numbered first, every other element comes after them.
Labels start at one.

## Main definitions

* `Labelling.label`: the labelling that numbers a list first

## Main results

* `Labelling.label_injective`
-/

namespace Labelling

variable {α : Type*} [DecidableEq α] [Countable α]

/-- The injective labelling that numbers the members of `known` from one. -/
noncomputable def label (known : List α) (a : α) : ℕ :=
  if a ∈ known then known.idxOf a + 1
  else known.length + (Classical.choose (exists_injective_nat α) a + 1)

theorem label_injective (known : List α) : Function.Injective (label known) := by
  have hinj := Classical.choose_spec (exists_injective_nat α)
  intro a b h
  unfold label at h
  split at h
  · next ha =>
    have hlt := List.idxOf_lt_length_of_mem ha
    split at h
    · next hb => exact (List.idxOf_inj ha).mp (by omega)
    · omega
  · split at h
    · next hb =>
      have hlt := List.idxOf_lt_length_of_mem hb
      omega
    · exact hinj (by omega)

end Labelling
