import Mathlib.Logic.Function.Basic

/-!
# Key-value stores with a write batch

A store maps a key to the value kept under it, the type of the value depending on the key. A
batch is a list of pending writes; reading through a batch gives the last write at the key, and
the stored value when the batch has none. Nothing here is about one program.

## Main definitions

* `Store K V`, `Op K V`: stores and single writes
* `applyOp`, `applyOps`: the effect of a write, and of a batch in order
* `scan`, `readThrough`: reading a key through a batch

## Main results

* `readThrough_eq`: reading through a batch is reading the store the batch leads to
-/

namespace KVStore

variable {K : Type} [DecidableEq K] {V : K → Type}

/-- A store: the value kept under each key, if any. -/
abbrev Store (K : Type) (V : K → Type) := (k : K) → Option (V k)

/-- One write of a batch. -/
inductive Op (K : Type) (V : K → Type) where
  | put (k : K) (v : V k)
  | delete (k : K)

/-- The effect of one write on a store. -/
def applyOp (st : Store K V) : Op K V → Store K V
  | .put k v => Function.update st k (some v)
  | .delete k => Function.update st k none

/-- The effect of a batch, its writes taken in order. -/
def applyOps (st : Store K V) (ops : List (Op K V)) : Store K V :=
  ops.foldl applyOp st

@[simp] theorem applyOps_nil (st : Store K V) : applyOps st [] = st := rfl

@[simp] theorem applyOps_append (st : Store K V) (ops ops' : List (Op K V)) :
    applyOps st (ops ++ ops') = applyOps (applyOps st ops) ops' :=
  List.foldl_append

@[simp] theorem applyOps_singleton (st : Store K V) (op : Op K V) :
    applyOps st [op] = applyOp st op := rfl

/-- What one write says about the key `k`: nothing, that it is deleted, or its value. -/
def Op.at (op : Op K V) (k : K) : Option (Option (V k)) :=
  match op with
  | .put k' v => if h : k' = k then some (some (h ▸ v)) else none
  | .delete k' => if k' = k then some none else none

/-- What a batch says about the key `k`: the last write at `k`. -/
def scan (k : K) : List (Op K V) → Option (Option (V k))
  | [] => none
  | op :: ops => (scan k ops).or (op.at k)

/-- Reading `k` through a batch: the batch first, then the store. -/
def readThrough (st : Store K V) (ops : List (Op K V)) (k : K) : Option (V k) :=
  (scan k ops).getD (st k)

theorem applyOp_apply (st : Store K V) (op : Op K V) (k : K) :
    applyOp st op k = (op.at k).getD (st k) := by
  cases op with
  | put k' v =>
    by_cases h : k' = k
    · subst h
      simp [applyOp, Op.at]
    · simp [applyOp, Op.at, h, Function.update_of_ne (Ne.symm h)]
  | delete k' =>
    by_cases h : k' = k
    · subst h
      simp [applyOp, Op.at]
    · simp [applyOp, Op.at, h, Function.update_of_ne (Ne.symm h)]

/-- **Read your writes**: reading through a batch is reading the store the batch leads to. -/
theorem readThrough_eq (st : Store K V) (ops : List (Op K V)) (k : K) :
    readThrough st ops k = applyOps st ops k := by
  induction ops generalizing st with
  | nil => rfl
  | cons op ops ih =>
    have hstep : applyOps st (op :: ops) = applyOps (applyOp st op) ops := rfl
    rw [hstep, ← ih (applyOp st op)]
    cases hs : scan k ops with
    | none => simp [readThrough, scan, hs, applyOp_apply]
    | some v => simp [readThrough, scan, hs]

end KVStore
