import MotaCoin.Lib.SpendUndo

/-!
# Batches that spend outputs of a ledger

A batch that passes the test entry by entry may spend what it creates itself. When every output it
spends is of an entry of the ledger, it does not: no entry of the batch that spends something has an
identity of the ledger, so that the batch spends, once each, outputs that are unspent in the ledger.
Such a batch can be added to any index in which these outputs are unspent. Nothing here is about one
program.

## Main definitions

* `SpendsLedger L es`: the batch `es` finds what it spends in the ledger `L`

## Main results

* `Unspent.of_connectAll`: what is unspent after a batch was unspent before
* `SpendableAll.of_ledger`: the batch spends distinct unspent outputs of the ledger
* `SpendableAll.new_of_ledger`: the entries are new to the ledger
* `sum_spends_le`: what is spent is worth no more than all unspent outputs
-/

namespace SpendIndex

variable {I P : Type} [DecidableEq I] {null : P} {isNull : P → Bool} {idx : Index I P}

/-- What is unspent after a batch was unspent before it, and no entry of the batch spends it. -/
theorem Unspent.of_connectAll {es : List (Entry I P)} {o : I × Nat}
    (hother : ∀ e ∈ es, o.1 ≠ e.id) (hpos : ∀ e ∈ es, isNull e.pos = false)
    (h : Unspent isNull (connectAll null idx es) o) :
    Unspent isNull idx o ∧ ∀ e ∈ es, o ∉ e.spends := by
  induction es generalizing idx with
  | nil => exact ⟨h, fun _ he => absurd he List.not_mem_nil⟩
  | cons e es ih =>
    obtain ⟨⟨r, q, hr, hq, hnull⟩, hrest⟩ :=
      @ih (connectOne null idx e) (fun e' he' => hother e' (List.mem_cons_of_mem _ he'))
        (fun e' he' => hpos e' (List.mem_cons_of_mem _ he')) h
    rw [connectOne_of_ne (hother e List.mem_cons_self)] at hr
    obtain ⟨r₀, hr₀, rfl⟩ := Option.map_eq_some_iff.1 hr
    -- Had the first entry spent the output, its mark would not be null.
    have hfirst : o ∉ e.spends := by
      intro ho
      rw [paint, List.getElem?_mapIdx] at hq
      obtain ⟨q₀, -, rfl⟩ := Option.map_eq_some_iff.1 hq
      rw [if_pos ho, hpos e List.mem_cons_self] at hnull
      cases hnull
    refine ⟨⟨r₀, q, hr₀, ?_, hnull⟩, fun e' he' => ?_⟩
    · exact ((SameBut.paint e.spends e.pos o.1 r₀).slot o.2 hfirst).symm.trans hq
    · rcases List.mem_cons.1 he' with rfl | he'
      · exact hfirst
      · exact hrest e' he'

/-! ## Batches that can be added -/

/-- Marking an output leaves the others unspent. -/
theorem Unspent.mark {o o' : I × Nat} (h : Unspent isNull idx o') (hne : o' ≠ o) (p : P) :
    Unspent isNull (mark idx o p) o' := by
  obtain ⟨r, q, hr, hq, hnull⟩ := h
  by_cases hi : o'.1 = o.1
  · have hn : o.2 ≠ o'.2 := fun hn => hne (Prod.ext hi hn.symm)
    rw [hi] at hr
    refine ⟨{ r with vSpent := r.vSpent.set o.2 p }, q, ?_, ?_, hnull⟩
    · rw [SpendIndex.mark, hi, Function.update_self, hr, Option.map_some]
    · rw [List.getElem?_set_ne hn]
      exact hq
  · refine ⟨r, q, ?_, hq, hnull⟩
    rw [SpendIndex.mark, Function.update_of_ne hi]
    exact hr

/-- Distinct unspent outputs pass the test. -/
theorem Spendable.of_unspent {os : List (I × Nat)} (hnodup : os.Nodup)
    (h : ∀ o ∈ os, Unspent isNull idx o) (p : P) : Spendable isNull idx os p := by
  induction os generalizing idx with
  | nil => trivial
  | cons o os ih =>
    obtain ⟨ho, hnodup⟩ := List.nodup_cons.1 hnodup
    refine ⟨h o List.mem_cons_self, ih hnodup fun o' ho' => ?_⟩
    have hne : o' ≠ o := by
      rintro rfl
      exact ho ho'
    exact (h o' (List.mem_cons_of_mem _ ho')).mark hne p

/-- An entry leaves the outputs of others that it does not spend unspent. -/
theorem Unspent.connectOne {e : Entry I P} {o : I × Nat} (h : Unspent isNull idx o)
    (hother : o.1 ≠ e.id) (hspends : o ∉ e.spends) : Unspent isNull (connectOne null idx e) o := by
  obtain ⟨r, q, hr, hq, hnull⟩ := h
  refine ⟨paint e.spends e.pos o.1 r, q, ?_, ?_, hnull⟩
  · rw [connectOne_of_ne hother, hr, Option.map_some]
  · exact ((SameBut.paint e.spends e.pos o.1 r).slot o.2 hspends).trans hq

theorem Unspent.connectAll {es : List (Entry I P)} {o : I × Nat} (h : Unspent isNull idx o)
    (hother : ∀ e ∈ es, o.1 ≠ e.id) (hspends : ∀ e ∈ es, o ∉ e.spends) :
    Unspent isNull (connectAll null idx es) o := by
  induction es generalizing idx with
  | nil => exact h
  | cons e es ih =>
    exact ih (h.connectOne (hother e List.mem_cons_self) (hspends e List.mem_cons_self))
      (fun e' he' => hother e' (List.mem_cons_of_mem _ he'))
      fun e' he' => hspends e' (List.mem_cons_of_mem _ he')

theorem SpendableAll.append {es es' : List (Entry I P)} (h : SpendableAll null isNull idx es)
    (h' : SpendableAll null isNull (connectAll null idx es) es') :
    SpendableAll null isNull idx (es ++ es') := by
  induction es generalizing idx with
  | nil => exact h'
  | cons e es ih => exact ⟨h.1, ih h.2 h'⟩

/-! ## Spending a ledger -/

/-- **A batch finds what it spends in a ledger.** An entry with an identity of the ledger is the
entry of the ledger, and nothing spends an output of an entry that spends nothing itself. -/
structure SpendsLedger (L es : List (Entry I P)) : Prop where
  found : ∀ e ∈ es, ∀ o ∈ e.spends, ∃ e' ∈ L, e'.id = o.1
  same : ∀ e ∈ es, ∀ e' ∈ L, e'.id = e.id → e'.spends = e.spends
  unspendable : ∀ e ∈ es, e.spends = [] → ∀ e' ∈ es, ∀ o ∈ e'.spends, o.1 ≠ e.id

omit [DecidableEq I] in
theorem SpendsLedger.of_append {L es es' : List (Entry I P)} (h : SpendsLedger L (es ++ es')) :
    SpendsLedger L es where
  found e he := h.found e (List.mem_append_left _ he)
  same e he := h.same e (List.mem_append_left _ he)
  unspendable e he hnil e' he' :=
    h.unspendable e (List.mem_append_left _ he) hnil e' (List.mem_append_left _ he')

theorem SpendableAll.of_append_left {es es' : List (Entry I P)}
    (h : SpendableAll null isNull idx (es ++ es')) : SpendableAll null isNull idx es := by
  induction es generalizing idx with
  | nil => trivial
  | cons e es ih => exact ⟨h.1, ih h.2⟩

section Ledger

variable {L es : List (Entry I P)} (hv : Valid L) (hL : ∀ e ∈ L, isNull e.pos = false)

include hv hL

/-- **A batch that finds what it spends in a ledger** spends distinct outputs, which are unspent in
the ledger. -/
theorem SpendableAll.of_ledger (hpos : ∀ e ∈ es, isNull e.pos = false) (hfrom : SpendsLedger L es)
    (h : SpendableAll null isNull (ofLedger null L) es) :
    (es.flatMap Entry.spends).Nodup ∧ ∀ o ∈ es.flatMap Entry.spends,
      (∃ e ∈ L, e.id = o.1 ∧ o.2 < e.outs.length) ∧ ∀ e ∈ L, o ∉ e.spends := by
  induction es using List.reverseRecOn with
  | nil => exact ⟨List.nodup_nil, fun _ ho => absurd ho List.not_mem_nil⟩
  | append_singleton es e ih =>
    obtain ⟨hnodup, hunspent⟩ := ih (fun e' he' => hpos e' (List.mem_append_left _ he'))
      hfrom.of_append h.of_append_left
    have he : e ∈ es ++ [e] := List.mem_append_right _ List.mem_cons_self
    have hspendable : Spendable isNull (connectAll null (ofLedger null L) es) e.spends e.pos :=
      h.of_append.1
    -- An earlier entry with the identity of what is spent would be an entry of the ledger, which
    -- spends what the earlier entry spends.
    have hnew : ∀ o ∈ e.spends, ∀ e' ∈ es, o.1 ≠ e'.id := by
      intro o ho e' he' heq
      have he'' : e' ∈ es ++ [e] := List.mem_append_left _ he'
      cases hspends : e'.spends with
      | nil => exact hfrom.unspendable e' he'' hspends e he o ho heq
      | cons o' os =>
        obtain ⟨f, hf, hid⟩ := hfrom.found e he o ho
        have hsame := hfrom.same e' he'' f hf (hid.trans heq)
        have ho' : o' ∈ e'.spends := by
          rw [hspends]
          exact List.mem_cons_self
        refine (hunspent o' (List.mem_flatMap.2 ⟨e', he', ho'⟩)).2 f hf ?_
        rw [hsame]
        exact ho'
    have hlast : ∀ o ∈ e.spends, Unspent isNull (ofLedger null L) o ∧ ∀ e' ∈ es, o ∉ e'.spends :=
      fun o ho => Unspent.of_connectAll (hnew o ho)
        (fun e' he' => hpos e' (List.mem_append_left _ he')) (hspendable.unspent o ho)
    rw [List.flatMap_append, List.flatMap_singleton]
    refine ⟨List.nodup_append.2 ⟨hnodup, (hspendable.nodup (hpos e he)).1, ?_⟩, fun o ho => ?_⟩
    · rintro o ho _ ho' rfl
      obtain ⟨e', he', hspends⟩ := List.mem_flatMap.1 ho
      exact (hlast o ho').2 e' he' hspends
    · rcases List.mem_append.1 ho with ho | ho
      · exact hunspent o ho
      · exact Unspent.of_ledger hv hL (hlast o ho).1

/-- **A batch that finds what it spends in a ledger**, each entry spending something, adds entries
that are new to the ledger and spends distinct outputs that its index shows as unspent. -/
theorem SpendableAll.new_of_ledger (hpos : ∀ e ∈ es, isNull e.pos = false)
    (hfrom : SpendsLedger L es) (hsome : ∀ e ∈ es, e.spends ≠ [])
    (h : SpendableAll null isNull (ofLedger null L) es) :
    (∀ e ∈ es, ∀ e' ∈ L, e'.id ≠ e.id) ∧ (es.flatMap Entry.spends).Nodup ∧
      ∀ o ∈ es.flatMap Entry.spends, Unspent isNull (ofLedger null L) o ∧ ∀ e ∈ es, o.1 ≠ e.id := by
  obtain ⟨hnodup, hledger⟩ := h.of_ledger hv hL hpos hfrom
  -- An entry of the ledger with the identity of a new one would spend the same outputs.
  have hnew : ∀ e ∈ es, ∀ e' ∈ L, e'.id ≠ e.id := by
    intro e he e' he' hid
    obtain ⟨o, ho⟩ := List.exists_mem_of_ne_nil _ (hsome e he)
    refine (hledger o (List.mem_flatMap.2 ⟨e, he, ho⟩)).2 e' he' ?_
    rw [hfrom.same e he e' he' hid]
    exact ho
  refine ⟨hnew, hnodup, fun o ho => ?_⟩
  have hother : ∀ e ∈ es, o.1 ≠ e.id := by
    intro e he heq
    obtain ⟨⟨e', he', hid, -⟩, -⟩ := hledger o ho
    exact hnew e he e' he' (hid.trans heq)
  exact ⟨h.unspent o ho hother, hother⟩

/-- **What such a batch spends** is worth no more than the unspent outputs of the ledger. -/
theorem sum_spends_le (hpos : ∀ e ∈ es, isNull e.pos = false) (hfrom : SpendsLedger L es)
    (houts : ∀ e ∈ L, ∀ v ∈ e.outs, 0 ≤ v)
    (h : SpendableAll null isNull (ofLedger null L) es) :
    ((es.flatMap Entry.spends).map (valueOf L)).sum ≤ unspentValue L := by
  obtain ⟨hnodup, hunspent⟩ := h.of_ledger hv hL hpos hfrom
  exact sum_valueOf_le hv houts hnodup (fun o ho => (hunspent o ho).1) fun o ho => (hunspent o ho).2

end Ledger

end SpendIndex
