import Mathlib.Data.List.Basic
import Mathlib.Tactic.Common

/-!
# Scanning a stream that comes in chunks

A scanner takes values from the front of a list and keeps a rest. It is incremental when scanning
`x ++ y` is scanning `x` and then its rest with `y` behind it; then it does not matter how a stream
is cut. A scanner is run from the step that takes one value, skips, or stops; a machine whose steps
are those of a scanner on what it holds runs as the scanner does. Nothing here is about one program.

## Main definitions

* `search pat l`: the place of the first occurrence of `pat` in `l`, or its length
* `Next β σ`: what a step does, and `run`: steps until one stops
* `Incremental`, `feed`: scanners that go on with a rest

## Main results

* `search_append`, `length_lt_search_append`: searching in a longer list
* `search_drop`: searching behind a place that is not past the first occurrence
* `run_map`: a simulation of steps is one of runs
* `Incremental.foldl_feed`: the chunks do not matter
-/

namespace Framing

variable {α β σ τ : Type}

/-! ## Searching -/

/-- The place of the first occurrence of `pat` in a list, or its length when there is none. -/
def search [DecidableEq α] (pat : List α) : List α → Nat
  | [] => 0
  | x :: l => if pat <+: x :: l then 0 else search pat l + 1

section Search

variable [DecidableEq α] {pat : List α}

theorem search_le (pat l : List α) : search pat l ≤ l.length := by
  induction l with
  | nil => exact Nat.le_refl 0
  | cons x l ih =>
    rw [search]
    split
    · exact Nat.zero_le _
    · exact Nat.succ_le_succ ih

theorem search_of_isPrefix {l : List α} (h : pat <+: l) : search pat l = 0 := by
  cases l with
  | nil => rfl
  | cons x l => rw [search, if_pos h]

/-- The pattern stands where the search ends. -/
theorem prefix_drop_search {l : List α} (h : search pat l < l.length) :
    pat <+: l.drop (search pat l) := by
  induction l with
  | nil => exact absurd h (Nat.lt_irrefl _)
  | cons x l ih =>
    rw [search] at h ⊢
    split
    · next hpre => exact hpre
    · next hpre =>
      rw [if_neg hpre] at h
      exact ih (Nat.lt_of_succ_lt_succ h)

/-- An occurrence is found in a longer list too, at the same place. -/
theorem search_append {l : List α} (h : search pat l < l.length) (y : List α) :
    search pat (l ++ y) = search pat l := by
  induction l with
  | nil => exact absurd h (Nat.lt_irrefl _)
  | cons x l ih =>
    have hsub : x :: l <+: x :: (l ++ y) := List.prefix_append (x :: l) y
    rw [search] at h ⊢
    rw [List.cons_append, search]
    by_cases hpre : pat <+: x :: l
    · rw [if_pos hpre, if_pos (hpre.trans hsub)]
    · rw [if_neg hpre] at h ⊢
      have hlt : search pat l < l.length := Nat.lt_of_succ_lt_succ h
      -- an occurrence at the front of the longer list reaches no further than the one in `l`
      have hlong : ¬ pat <+: x :: (l ++ y) := by
        intro hpre'
        have hfit : pat.length ≤ (x :: l).length := by
          have hlen := (prefix_drop_search hlt).length_le
          rw [List.length_drop] at hlen
          rw [List.length_cons]
          omega
        exact hpre (List.prefix_of_prefix_length_le hpre' hsub hfit)
      rw [if_neg hlong, ih hlt]

/-- Without an occurrence in `l`, the first one in a longer list reaches past `l`. -/
theorem length_lt_search_append {l : List α} (hpat : pat ≠ []) (h : search pat l = l.length)
    (y : List α) : l.length < search pat (l ++ y) + pat.length := by
  induction l with
  | nil =>
    have hpos : 0 < pat.length := List.length_pos_of_ne_nil hpat
    rw [List.length_nil]
    omega
  | cons x l ih =>
    rw [search] at h
    by_cases hpre : pat <+: x :: l
    · rw [if_pos hpre] at h
      cases h
    · rw [if_neg hpre] at h
      have hih := ih (Nat.succ.inj h)
      rw [List.cons_append, search, List.length_cons]
      split
      · next hlong =>
        -- an occurrence inside `x :: l` was excluded
        by_contra hle
        have hsub : x :: l <+: x :: (l ++ y) := List.prefix_append (x :: l) y
        refine hpre (List.prefix_of_prefix_length_le hlong hsub ?_)
        rw [List.length_cons]
        omega
      · omega

/-- Searching behind a place that is not past the first occurrence. -/
theorem search_drop {l : List α} {k : Nat} (h : k ≤ search pat l) :
    search pat (l.drop k) + k = search pat l := by
  induction k generalizing l with
  | zero => rfl
  | succ k ih =>
    cases l with
    | nil => exact absurd h (Nat.not_succ_le_zero k)
    | cons x l =>
      rw [search] at h ⊢
      split at h
      · exact absurd h (Nat.not_succ_le_zero k)
      · next hpre =>
        rw [if_neg hpre, List.drop_succ_cons, ← Nat.add_assoc, ih (Nat.le_of_succ_le_succ h)]

end Search

/-! ## Steps and runs -/

/-- What a step does: stop, skip something, or give a value. -/
inductive Next (β σ : Type)
  | stop (s : σ)
  | skip (s : σ)
  | emit (b : β) (s : σ)

namespace Next

/-- The step seen through a function of the state. -/
def map (f : σ → τ) : Next β σ → Next β τ
  | stop s => stop (f s)
  | skip s => skip (f s)
  | emit b s => emit b (f s)

/-- The property holds of the state after the step. -/
def All (P : σ → Prop) : Next β σ → Prop
  | stop s => P s
  | skip s => P s
  | emit _ s => P s

/-- The property holds of the state after the step, unless it stops. -/
def Goes (P : σ → Prop) : Next β σ → Prop
  | stop _ => True
  | skip s => P s
  | emit _ s => P s

end Next

/-- Steps until one stops; every step but the last makes the state smaller. -/
def run (size : σ → Nat) (step : σ → Next β σ)
    (hstep : ∀ s, (step s).Goes fun s' => size s' < size s) (s : σ) : List β × σ :=
  match _hs : step s with
  | .stop s' => ([], s')
  | .skip s' => run size step hstep s'
  | .emit b s' =>
    let r := run size step hstep s'
    (b :: r.1, r.2)
termination_by size s
decreasing_by
  all_goals
    have hlt := hstep s
    rw [_hs] at hlt
    exact hlt

section Run

variable {size : σ → Nat} {step : σ → Next β σ}
  {hstep : ∀ s, (step s).Goes fun s' => size s' < size s}

theorem run_of_stop {s s' : σ} (h : step s = .stop s') : run size step hstep s = ([], s') := by
  rw [run]
  split <;> simp_all

theorem run_of_skip {s s' : σ} (h : step s = .skip s') :
    run size step hstep s = run size step hstep s' := by
  rw [run]
  split <;> simp_all

theorem run_of_emit {s s' : σ} {b : β} (h : step s = .emit b s') :
    run size step hstep s =
      (b :: (run size step hstep s').1, (run size step hstep s').2) := by
  rw [run]
  split <;> simp_all

/-- A run only depends on its first step. -/
theorem run_congr {s s' : σ} (h : step s = step s') :
    run size step hstep s = run size step hstep s' := by
  rcases hs : step s with t | t | ⟨b, t⟩
  · exact (run_of_stop hs).trans (run_of_stop (h ▸ hs)).symm
  · exact (run_of_skip hs).trans (run_of_skip (h ▸ hs)).symm
  · exact (run_of_emit hs).trans (run_of_emit (h ▸ hs)).symm

/-- **A simulation of steps is one of runs**: a machine whose steps are those of another on `f s`, as
long as an invariant holds, gives the same values and ends at the same state. -/
theorem run_map {size' : τ → Nat} {step' : τ → Next β τ}
    {hstep' : ∀ t, (step' t).Goes fun t' => size' t' < size' t} {f : σ → τ} {Inv : σ → Prop}
    (hinv : ∀ s, Inv s → (step s).All Inv) (hsim : ∀ s, Inv s → (step s).map f = step' (f s))
    {s : σ} (hs : Inv s) :
    run size' step' hstep' (f s) = ((run size step hstep s).1, f (run size step hstep s).2) ∧
      Inv (run size step hstep s).2 := by
  induction hn : size s using Nat.strongRecOn generalizing s with
  | _ n ih =>
    have hcases := hsim s hs
    have hall := hinv s hs
    have hlt := hstep s
    rcases h : step s with s' | s' | ⟨b, s'⟩
    · rw [h] at hcases hall
      rw [run_of_stop h, run_of_stop hcases.symm]
      exact ⟨rfl, hall⟩
    · rw [h] at hcases hall hlt
      rw [run_of_skip h, run_of_skip hcases.symm]
      exact ih (size s') (hn ▸ hlt) hall rfl
    · rw [h] at hcases hall hlt
      obtain ⟨hrun, hend⟩ := ih (size s') (hn ▸ hlt) hall rfl
      rw [run_of_emit h, run_of_emit hcases.symm, hrun]
      exact ⟨rfl, hend⟩

end Run

/-! ## Chunks -/

/-- Scanning `x ++ y` is scanning `x`, and then its rest with `y` behind it. -/
def Incremental (scan : List α → List β × List α) : Prop :=
  ∀ x y, scan (x ++ y) =
    ((scan x).1 ++ (scan ((scan x).2 ++ y)).1, (scan ((scan x).2 ++ y)).2)

/-- Scan one chunk behind the rest of those before. -/
def feed (scan : List α → List β × List α) (st : List β × List α) (chunk : List α) :
    List β × List α :=
  (st.1 ++ (scan (st.2 ++ chunk)).1, (scan (st.2 ++ chunk)).2)

/-- **The chunks do not matter.** -/
theorem Incremental.foldl_feed {scan : List α → List β × List α} (h : Incremental scan)
    (x : List α) (chunks : List (List α)) :
    chunks.foldl (feed scan) (scan x) = scan (x ++ chunks.flatten) := by
  induction chunks generalizing x with
  | nil => rw [List.foldl_nil, List.flatten_nil, List.append_nil]
  | cons chunk chunks ih =>
    rw [List.foldl_cons, feed, ← h x chunk, ih, List.flatten_cons, List.append_assoc]

end Framing
