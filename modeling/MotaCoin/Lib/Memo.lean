import Mathlib.Data.Option.Basic

/-!
# Cached values

A cache of a computation that may fail: it is empty, or holds a value. And caches that change from
call to call, where no answer depends on them. Nothing here is about one program.

## Main definitions

* `Memo.Coherent cache value`: a cache that is filled holds the value
* `Memo.get cache value`: what is read through a cache, and the cache after that
* `Memo.answers step s calls`: the answers to calls made one after the other

## Main results

* `Coherent.get_fst`, `Coherent.get_snd`: a coherent cache gives the value, and stays coherent
* `answers_eq_map`: with an invariant under which each answer is that of a function, all are
-/

namespace Memo

variable {α : Type} {cache value : Option α}

/-- A cache that is filled holds the value of the computation. -/
def Coherent (cache value : Option α) : Prop := ∀ v, cache = some v → value = some v

/-- What is read through a cache, which is filled by a computation that does not fail. -/
def get (cache value : Option α) : Option α × Option α :=
  match cache with
  | some v => (some v, some v)
  | none => (value, value)

theorem coherent_none : Coherent none value := fun _ => nofun

theorem coherent_self : Coherent value value := fun _ => id

/-- A cache that is empty stays coherent with any value, a filled one where the value stays. -/
theorem Coherent.congr {value' : Option α} (h : Coherent cache value)
    (hvalue : cache ≠ none → value' = value) : Coherent cache value' := by
  intro v hcache
  rw [hvalue (hcache ▸ nofun)]
  exact h v hcache

theorem Coherent.get_fst (h : Coherent cache value) : (get cache value).1 = value := by
  cases cache with
  | none => rfl
  | some v => exact (h v rfl).symm

theorem Coherent.get_snd (h : Coherent cache value) : Coherent (get cache value).2 value := by
  cases cache with
  | none => exact coherent_self
  | some v => exact h

/-! ## Calls that share a cache -/

section Calls

variable {σ ι ο : Type} {step : σ → ι → ο × σ} {Inv : σ → Prop} {f : ι → ο}

/-- The answers to calls made one after the other. -/
def answers (step : σ → ι → ο × σ) : σ → List ι → List ο
  | _, [] => []
  | s, i :: calls => (step s i).1 :: answers step (step s i).2 calls

/-- **An invariant under which each answer is that of a function** makes all of them so. -/
theorem answers_eq_map (hanswer : ∀ s i, Inv s → (step s i).1 = f i)
    (hkeep : ∀ s i, Inv s → Inv (step s i).2) {s : σ} (hs : Inv s) (calls : List ι) :
    answers step s calls = calls.map f := by
  induction calls generalizing s with
  | nil => rfl
  | cons i calls ih => rw [answers, hanswer s i hs, ih (hkeep s i hs), List.map_cons]

end Calls

end Memo
