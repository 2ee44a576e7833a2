import Mathlib.Data.List.AList

/-!
# Folds of insertions and erasures

What a key maps to after a list of entries is inserted into an association list, or a list of keys
erased from it. Nothing here is about one program.

## Main results

* `AList.lookup_eq_some_foldl_insert`: lookups after inserting entries with distinct keys
* `AList.lookup_eq_none_foldl_insert`: which keys are missing after inserting entries
* `AList.lookup_foldl_erase`: lookups after erasing keys
* `AList.lookup_eq_some_foldl_erase_if`: lookups after a loop that erases some entries
* `AList.length_erase`: erasing a key that is there shortens the list by one
* `FoldAt.keeps`, `FoldAt.of_mem`, `FoldAt.of_notMem`: a loop over entries that changes a state at their
  keys
-/

namespace AList

variable {α : Type} [DecidableEq α] {β : Type}

/-- After inserting entries with distinct keys, a key maps to its new entry, and else to what it
mapped to before. -/
theorem lookup_eq_some_foldl_insert {l : List (α × β)} (hl : (l.map Prod.fst).Nodup)
    (m : AList fun _ : α => β) (k : α) (v : β) :
    (l.foldl (fun m e => m.insert e.1 e.2) m).lookup k = some v ↔
      (k, v) ∈ l ∨ k ∉ l.map Prod.fst ∧ m.lookup k = some v := by
  induction l generalizing m with
  | nil => simp
  | cons e l ih =>
    rw [List.map_cons, List.nodup_cons] at hl
    rw [List.foldl_cons, ih hl.2]
    by_cases hk : k = e.1
    · -- the head entry is the only one at this key
      subst hk
      have hnot : (e.1, v) ∉ l := fun hmem => hl.1 (List.mem_map.mpr ⟨_, hmem, rfl⟩)
      simp only [hnot, hl.1, AList.lookup_insert, List.mem_cons, List.map_cons,
        not_true_eq_false, not_false_eq_true, false_and, or_false, false_or, true_and,
        Option.some.injEq, Prod.ext_iff]
      exact eq_comm
    · rw [AList.lookup_insert_ne hk]
      have hne : (k, v) ≠ e := fun h => hk (congrArg Prod.fst h)
      simp [hk, hne]

/-- After inserting entries, a key maps to nothing iff no entry has it and it mapped to nothing
before. -/
theorem lookup_eq_none_foldl_insert (l : List (α × β)) (m : AList fun _ : α => β) (k : α) :
    (l.foldl (fun m e => m.insert e.1 e.2) m).lookup k = none ↔
      k ∉ l.map Prod.fst ∧ m.lookup k = none := by
  induction l generalizing m with
  | nil => simp
  | cons e l ih =>
    rw [List.foldl_cons, ih, AList.lookup_insert_eq_none, List.map_cons, List.mem_cons, not_or]
    tauto

/-- Erased keys map to nothing, the others to what they mapped to before. -/
theorem lookup_foldl_erase (ks : List α) (m : AList fun _ : α => β) (k : α) :
    (ks.foldl (fun m k => m.erase k) m).lookup k = if k ∈ ks then none else m.lookup k := by
  induction ks generalizing m with
  | nil => simp
  | cons k' ks ih =>
    rw [List.foldl_cons, ih]
    by_cases hk : k = k'
    · subst hk
      simp
    · simp [hk, AList.lookup_erase_ne hk]

/-- A loop that erases the entries with `p` leaves the others. -/
theorem lookup_eq_some_foldl_erase_if (p : (_ : α) × β → Bool) (m : AList fun _ : α => β) (k : α)
    (v : β) :
    (m.entries.foldl (fun m e => if p e then m.erase e.1 else m) m).lookup k = some v ↔
      m.lookup k = some v ∧ p ⟨k, v⟩ = false := by
  -- over any entries of `m`, those met so far with `p` are gone
  have hloop : ∀ (l : List ((_ : α) × β)) (m' : AList fun _ : α => β), l ⊆ m.entries →
      ((l.foldl (fun m e => if p e then m.erase e.1 else m) m').lookup k = some v ↔
        m'.lookup k = some v ∧ ∀ e ∈ l, e.1 = k → p e = false) := by
    intro l
    induction l with
    | nil => simp
    | cons e l ih =>
      intro m' hsub
      rw [List.foldl_cons, ih _ fun x hx => hsub (List.mem_cons_of_mem e hx), List.forall_mem_cons]
      by_cases hp : p e = true
      · rw [if_pos hp]
        by_cases hk : e.1 = k
        · subst hk
          simp [hp]
        · rw [AList.lookup_erase_ne fun h => hk h.symm]
          simp [hk]
      · rw [if_neg hp]
        simp [hp]
  rw [hloop m.entries m (List.Subset.refl _)]
  constructor
  · rintro ⟨hv, hall⟩
    exact ⟨hv, hall ⟨k, v⟩ (AList.mem_lookup_iff.mp hv) rfl⟩
  · rintro ⟨hv, hpv⟩
    refine ⟨hv, fun e he hk => ?_⟩
    obtain ⟨k', v'⟩ := e
    obtain rfl : k' = k := hk
    -- a key has one entry
    have hv' : m.lookup k' = some v' := AList.mem_lookup_iff.mpr he
    obtain rfl := Option.some.inj (hv.symm.trans hv')
    exact hpv

/-- Erasing a key that is there shortens the list by one. -/
theorem length_erase {m : AList fun _ : α => β} {k : α} (h : k ∈ m) :
    (m.erase k).entries.length + 1 = m.entries.length := by
  have hkeys : (m.erase k).keys.length + 1 = m.keys.length := by
    rw [AList.keys_erase]
    exact List.length_erase_add_one (AList.mem_keys.mp h)
  simpa [AList.keys, List.keys] using hkeys

end AList

namespace FoldAt

variable {σ ε α γ : Type} {P : σ → Prop} {get : σ → α → γ} {key : ε → α} {step : σ → ε → σ} {l : List ε}

/-- What the steps of a loop keep. -/
theorem keeps (hstep : ∀ e ∈ l, ∀ s, P s → P (step s e)) {s : σ} (hs : P s) :
    P (l.foldl step s) := by
  induction l generalizing s with
  | nil => exact hs
  | cons e l ih =>
    exact ih (fun e' he' => hstep e' (List.mem_cons_of_mem e he')) (hstep e List.mem_cons_self s hs)

/-- A loop whose steps change a state at their keys only leaves the other keys alone. -/
theorem of_notMem (hstep : ∀ e ∈ l, ∀ s, P s → P (step s e))
    (hother : ∀ e ∈ l, ∀ s, P s → ∀ k, k ≠ key e → get (step s e) k = get s k) {s : σ} (hs : P s)
    {k : α} (hk : k ∉ l.map key) : get (l.foldl step s) k = get s k := by
  induction l generalizing s with
  | nil => rfl
  | cons e l ih =>
    rw [List.map_cons, List.mem_cons, not_or] at hk
    rw [List.foldl_cons, ih (fun e' he' => hstep e' (List.mem_cons_of_mem e he'))
      (fun e' he' => hother e' (List.mem_cons_of_mem e he')) (hstep e List.mem_cons_self s hs) hk.2]
    exact hother e List.mem_cons_self s hs k hk.1

/-- At a key that one entry has, it leaves what the step for that entry makes of it. -/
theorem of_mem {f : ε → γ → γ} (hstep : ∀ e ∈ l, ∀ s, P s → P (step s e))
    (hl : (l.map key).Nodup) (hself : ∀ e ∈ l, ∀ s, P s → get (step s e) (key e) = f e (get s (key e)))
    (hother : ∀ e ∈ l, ∀ s, P s → ∀ k, k ≠ key e → get (step s e) k = get s k) {s : σ} (hs : P s)
    {e : ε} (he : e ∈ l) : get (l.foldl step s) (key e) = f e (get s (key e)) := by
  induction l generalizing s with
  | nil => cases he
  | cons e' l ih =>
    rw [List.map_cons, List.nodup_cons] at hl
    have hstep' := fun x (hx : x ∈ l) => hstep x (List.mem_cons_of_mem e' hx)
    have hother' := fun x (hx : x ∈ l) => hother x (List.mem_cons_of_mem e' hx)
    have hs' := hstep e' List.mem_cons_self s hs
    rw [List.foldl_cons]
    rcases List.mem_cons.1 he with rfl | he
    · rw [of_notMem hstep' hother' hs' hl.1]
      exact hself e List.mem_cons_self s hs
    · have hne : key e ≠ key e' := fun heq => hl.1 (heq ▸ List.mem_map_of_mem he)
      rw [ih hstep' hl.2 (fun x hx => hself x (List.mem_cons_of_mem e' hx)) hother' hs' he,
        hother e' List.mem_cons_self s hs (key e) hne]

end FoldAt
