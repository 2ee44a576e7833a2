import Mathlib.Data.List.Nodup
import Mathlib.Data.List.Induction
import Mathlib.Algebra.BigOperators.Group.List.Basic
import Mathlib.Algebra.Order.BigOperators.Group.List
import Mathlib.Tactic.Linarith

/-!
# Spend indices of a ledger

A ledger is a list of entries in the order they took effect; an entry has an identity, outputs with
a value, and the outputs of earlier entries it spends. The spend index of a ledger has, for each
identity, the position of its entry and, for each output, the position of the entry that spends it
or a null position. The index is maintained in place: an entry is added by marking what it spends
and creating its own record, and taken back by unmarking and erasing. This file shows that the
maintained index is the one read off the ledger, in both directions, and that the value of the
unspent outputs changes by what the entry creates and spends. Nothing here is about one program.

## Main definitions

* `Record`, `Index`, `Entry`: index records, indices and ledger entries
* `ofLedger null L`: the index read off the ledger `L`
* `markAll`, `create`: the two in-place updates
* `Fits L e`, `Valid L`: the entry `e` may follow `L`; every entry of `L` may follow those before
* `Unspent`, `Spendable`: what the index shows as unspent, and the test made before marking, output
  by output
* `unspentValue L`: the total of the outputs no entry spends

## Main results

* `ofLedger_snoc`, `ofLedger_undo`: adding and taking back an entry
* `fits_of_spendable`: entries that pass the test fit
* `Valid.pairwise`, `spentAt_of_mem`: no output is spent twice, and the index names the spender
* `unspentValue_snoc`: the balance of one entry
* `sum_valueOf_le`: distinct unspent outputs are worth no more than all of them
-/

namespace SpendIndex

/-- The record of one entry: its position, and the spender of each output. -/
structure Record (P : Type) where
  pos : P
  vSpent : List P
deriving DecidableEq, Repr

/-- An index: the record of each identity. -/
abbrev Index (I P : Type) := I → Option (Record P)

/-- An entry of a ledger. -/
structure Entry (I P : Type) where
  id : I
  outs : List Int
  spends : List (I × Nat)
  pos : P

variable {I P : Type}

/-! ## Outputs and their values -/

/-- The outputs of an entry, each with its value. -/
def Entry.coins (e : Entry I P) : List ((I × Nat) × Int) :=
  e.outs.zipIdx.map fun p => ((e.id, p.2), p.1)

theorem Entry.sum_coins (e : Entry I P) : (e.coins.map Prod.snd).sum = e.outs.sum := by
  have : e.coins.map Prod.snd = e.outs := by
    simp only [Entry.coins, List.map_map]
    exact List.zipIdx_map_fst 0 e.outs
  rw [this]

theorem Entry.mem_coins {e : Entry I P} {c : (I × Nat) × Int} :
    c ∈ e.coins ↔ c.1.1 = e.id ∧ e.outs[c.1.2]? = some c.2 := by
  simp only [Entry.coins, List.mem_map, Prod.exists, List.mem_zipIdx_iff_getElem?]
  constructor
  · rintro ⟨v, n, h, rfl⟩
    exact ⟨rfl, h⟩
  · rintro ⟨h₁, h₂⟩
    exact ⟨c.2, c.1.2, h₂, by rw [← h₁]⟩

theorem Entry.nodup_coins (e : Entry I P) : (e.coins.map Prod.fst).Nodup := by
  have : e.coins.map Prod.fst = (List.range e.outs.length).map fun n => (e.id, n) := by
    simp only [Entry.coins, List.map_map]
    refine List.ext_getElem (by simp) fun n h₁ h₂ => by simp
  rw [this]
  exact List.nodup_range.map fun a b h => congrArg Prod.snd h

/-- The outputs of a ledger, each with its value. -/
def coins (L : List (Entry I P)) : List ((I × Nat) × Int) := L.flatMap Entry.coins

theorem mem_coins {L : List (Entry I P)} {c : (I × Nat) × Int} :
    c ∈ coins L ↔ ∃ e ∈ L, c.1.1 = e.id ∧ e.outs[c.1.2]? = some c.2 := by
  simp only [coins, List.mem_flatMap, Entry.mem_coins]

theorem nodup_coins {L : List (Entry I P)} (h : (L.map Entry.id).Nodup) :
    ((coins L).map Prod.fst).Nodup := by
  rw [coins, List.map_flatMap]
  refine List.nodup_flatMap.mpr ⟨fun e _ => e.nodup_coins, ?_⟩
  refine (List.pairwise_map.mp h).imp fun {e e'} hne => ?_
  intro o ho ho'
  obtain ⟨c, hc, rfl⟩ := List.mem_map.mp ho
  obtain ⟨c', hc', heq⟩ := List.mem_map.mp ho'
  have h₁ := (Entry.mem_coins.mp hc).1
  have h₂ := (Entry.mem_coins.mp hc').1
  exact hne (h₁.symm.trans ((congrArg Prod.fst heq).symm.trans h₂))

/-! ## Valid ledgers -/

/-- The entry `e` may follow the ledger `L`: its identity is new, and it spends, once each, outputs
of `L` that no entry of `L` spends. -/
structure Fits (L : List (Entry I P)) (e : Entry I P) : Prop where
  fresh : ∀ e' ∈ L, e'.id ≠ e.id
  nodup : e.spends.Nodup
  resolves : ∀ o ∈ e.spends, ∃ e' ∈ L, e'.id = o.1 ∧ o.2 < e'.outs.length
  unspent : ∀ o ∈ e.spends, ∀ e' ∈ L, o ∉ e'.spends

/-- Every entry may follow the ones before it. -/
inductive Valid : List (Entry I P) → Prop
  | nil : Valid []
  | snoc {L : List (Entry I P)} {e : Entry I P} : Valid L → Fits L e → Valid (L ++ [e])

theorem Valid.of_snoc {L : List (Entry I P)} {e : Entry I P} (h : Valid (L ++ [e])) :
    Valid L ∧ Fits L e := by
  generalize hL : L ++ [e] = L' at h
  cases h with
  | nil => simp at hL
  | snoc hv hf =>
    obtain ⟨rfl, he⟩ := List.append_inj' hL rfl
    obtain rfl := List.head_eq_of_cons_eq he
    exact ⟨hv, hf⟩

/-- Spends of a valid ledger are of its own outputs. -/
theorem Valid.resolves {L : List (Entry I P)} (h : Valid L) :
    ∀ e ∈ L, ∀ o ∈ e.spends, ∃ e' ∈ L, e'.id = o.1 ∧ o.2 < e'.outs.length := by
  induction h with
  | nil => simp
  | snoc hv hf ih =>
    intro e he o ho
    rcases List.mem_append.mp he with he | he
    · obtain ⟨e', he', h'⟩ := ih e he o ho
      exact ⟨e', List.mem_append_left _ he', h'⟩
    · obtain rfl := List.mem_singleton.mp he
      obtain ⟨e', he', h'⟩ := hf.resolves o ho
      exact ⟨e', List.mem_append_left _ he', h'⟩

/-- **No output is spent twice**, and no identity occurs twice. -/
theorem Valid.pairwise {L : List (Entry I P)} (h : Valid L) :
    L.Pairwise fun e e' => e.id ≠ e'.id ∧ ∀ o ∈ e.spends, o ∉ e'.spends := by
  induction h with
  | nil => exact List.Pairwise.nil
  | snoc hv hf ih =>
    refine List.pairwise_append.mpr ⟨ih, List.pairwise_singleton _ _, ?_⟩
    intro e he e' he'
    obtain rfl := List.mem_singleton.mp he'
    exact ⟨hf.fresh e he, fun o ho ho' => hf.unspent o ho' e he ho⟩

theorem Valid.nodup_ids {L : List (Entry I P)} (h : Valid L) : (L.map Entry.id).Nodup :=
  List.pairwise_map.mpr (h.pairwise.imp fun h => h.1)

/-- Two entries of a valid ledger with a common spend are the same. -/
theorem Valid.eq_of_spends {L : List (Entry I P)} (h : Valid L) {e e' : Entry I P} (he : e ∈ L)
    (he' : e' ∈ L) {o : I × Nat} (ho : o ∈ e.spends) (ho' : o ∈ e'.spends) : e = e' := by
  induction h with
  | nil => simp at he
  | @snoc L f hv hf ih =>
    rcases List.mem_append.mp he with h₁ | h₁ <;> rcases List.mem_append.mp he' with h₂ | h₂
    · exact ih h₁ h₂
    · obtain rfl := List.mem_singleton.mp h₂
      exact absurd ho (hf.unspent o ho' e h₁)
    · obtain rfl := List.mem_singleton.mp h₁
      exact absurd ho' (hf.unspent o ho e' h₂)
    · rw [List.mem_singleton.mp h₁, List.mem_singleton.mp h₂]

theorem Valid.eq_of_id {L : List (Entry I P)} (h : Valid L) {e e' : Entry I P} (he : e ∈ L)
    (he' : e' ∈ L) (hid : e.id = e'.id) : e = e' :=
  List.inj_on_of_nodup_map h.nodup_ids he he' hid

/-- No entry of a ledger, and not the next one, spends an output of the next one. -/
theorem Fits.notMem_spends {L : List (Entry I P)} {e : Entry I P} (hv : Valid L) (hf : Fits L e)
    (n : Nat) : ∀ e' ∈ L ++ [e], (e.id, n) ∉ e'.spends := by
  intro e' he' ho
  have hres : ∃ e'' ∈ L, e''.id = e.id := by
    rcases List.mem_append.mp he' with h | h
    · obtain ⟨e'', he'', hid, -⟩ := hv.resolves e' h _ ho
      exact ⟨e'', he'', hid⟩
    · obtain rfl := List.mem_singleton.mp h
      obtain ⟨e'', he'', hid, -⟩ := hf.resolves _ ho
      exact ⟨e'', he'', hid⟩
  obtain ⟨e'', he'', hid⟩ := hres
  exact hf.fresh e'' he'' hid

/-! ## The index of a ledger -/

variable [DecidableEq I]

section Read

variable (null : P)

/-- The position of the entry that spends `o`, or the null position. -/
def spentAt (L : List (Entry I P)) (o : I × Nat) : P :=
  ((L.find? fun e => decide (o ∈ e.spends)).map Entry.pos).getD null

/-- The record of `e` as read off the ledger. -/
def recordOf (L : List (Entry I P)) (e : Entry I P) : Record P :=
  ⟨e.pos, (List.range e.outs.length).map fun n => spentAt null L (e.id, n)⟩

/-- **The index of a ledger.** -/
def ofLedger (L : List (Entry I P)) : Index I P :=
  fun i => (L.find? fun e => decide (e.id = i)).map (recordOf null L)

end Read

/-! ## In-place updates -/

/-- Write `p` as the spender of the output `o`. -/
def mark (idx : Index I P) (o : I × Nat) (p : P) : Index I P :=
  Function.update idx o.1 ((idx o.1).map fun r => { r with vSpent := r.vSpent.set o.2 p })

/-- Write `p` as the spender of every listed output. -/
def markAll (idx : Index I P) (os : List (I × Nat)) (p : P) : Index I P :=
  os.foldl (fun idx o => mark idx o p) idx

/-- Create the record of an entry, with no output spent. -/
def create (null : P) (idx : Index I P) (e : Entry I P) : Index I P :=
  Function.update idx e.id (some ⟨e.pos, List.replicate e.outs.length null⟩)

/-- Erase a record. -/
def erase (idx : Index I P) (i : I) : Index I P := Function.update idx i none

/-- The record of `i` with `p` written at the listed outputs of `i`. -/
def paint (os : List (I × Nat)) (p : P) (i : I) (r : Record P) : Record P :=
  ⟨r.pos, r.vSpent.mapIdx fun n q => if (i, n) ∈ os then p else q⟩

theorem paint_nil (p : P) (i : I) (r : Record P) : paint [] p i r = r := by
  unfold paint
  simp only [List.not_mem_nil, if_false]
  congr 1
  exact List.mapIdx_eq_iff.mpr fun n => by simp

theorem paint_mark (o : I × Nat) (os : List (I × Nat)) (p : P) (r : Record P) :
    paint os p o.1 { r with vSpent := r.vSpent.set o.2 p } = paint (o :: os) p o.1 r := by
  unfold paint
  congr 1
  refine List.ext_getElem? fun n => ?_
  simp only [List.getElem?_mapIdx, List.getElem?_set, List.mem_cons]
  by_cases hn : o.2 = n
  · subst hn
    by_cases hl : o.2 < r.vSpent.length
    · simp [hl]
    · simp [hl]
  · have ho : (o.1, n) ≠ o := fun h => hn (congrArg Prod.snd h).symm
    simp [hn, ho]

theorem paint_cons_of_ne {o : I × Nat} {i : I} (h : i ≠ o.1) (os : List (I × Nat)) (p : P)
    (r : Record P) : paint (o :: os) p i r = paint os p i r := by
  unfold paint
  congr 2
  funext n q
  have ho : (i, n) ≠ o := fun e => h (congrArg Prod.fst e)
  simp [ho]

/-- Marking outputs one by one writes `p` at all of them. -/
theorem markAll_apply (idx : Index I P) (os : List (I × Nat)) (p : P) (i : I) :
    markAll idx os p i = (idx i).map (paint os p i) := by
  induction os generalizing idx with
  | nil =>
    change idx i = _
    cases idx i with
    | none => rfl
    | some r => simp [paint_nil]
  | cons o os ih =>
    have hstep : markAll idx (o :: os) p = markAll (mark idx o p) os p := rfl
    rw [hstep, ih]
    by_cases h : i = o.1
    · subst h
      simp only [mark, Function.update_self]
      cases idx o.1 with
      | none => rfl
      | some r => simp [paint_mark]
    · simp only [mark, Function.update_of_ne h]
      cases idx i with
      | none => rfl
      | some r => simp [paint_cons_of_ne h]

/-! ## Reading the index of a valid ledger -/

section Reading

variable (null : P)

theorem spentAt_of_forall_notMem {L : List (Entry I P)} {o : I × Nat}
    (h : ∀ e ∈ L, o ∉ e.spends) : spentAt null L o = null := by
  have hf : (L.find? fun e => decide (o ∈ e.spends)) = none :=
    List.find?_eq_none.mpr fun e he => by simpa using h e he
  simp [spentAt, hf]

/-- The index names the spender. -/
theorem spentAt_of_mem {L : List (Entry I P)} (hv : Valid L) {e : Entry I P} (he : e ∈ L)
    {o : I × Nat} (ho : o ∈ e.spends) : spentAt null L o = e.pos := by
  have hsome : (L.find? fun e => decide (o ∈ e.spends)).isSome :=
    List.find?_isSome.mpr ⟨e, he, by simpa using ho⟩
  obtain ⟨e', he'⟩ := Option.isSome_iff_exists.mp hsome
  have ho' : o ∈ e'.spends := by simpa using List.find?_some he'
  have := hv.eq_of_spends he (List.mem_of_find?_eq_some he') ho ho'
  simp [spentAt, he', this]

theorem spentAt_append {L : List (Entry I P)} {e : Entry I P} {o : I × Nat} (ho : o ∉ e.spends) :
    spentAt null (L ++ [e]) o = spentAt null L o := by
  simp [spentAt, List.find?_append, ho]

theorem spentAt_snoc {L : List (Entry I P)} {e : Entry I P} {o : I × Nat} (ho : o ∈ e.spends)
    (h : ∀ e' ∈ L, o ∉ e'.spends) : spentAt null (L ++ [e]) o = e.pos := by
  have hf : (L.find? fun e => decide (o ∈ e.spends)) = none :=
    List.find?_eq_none.mpr fun e he => by simpa using h e he
  simp [spentAt, List.find?_append, hf, ho]

theorem ofLedger_eq_none_iff {L : List (Entry I P)} {i : I} :
    ofLedger null L i = none ↔ ∀ e ∈ L, e.id ≠ i := by
  simp [ofLedger]

theorem ofLedger_of_mem {L : List (Entry I P)} (hv : Valid L) {e : Entry I P} (he : e ∈ L) :
    ofLedger null L e.id = some (recordOf null L e) := by
  have hsome : (L.find? fun e' => decide (e'.id = e.id)).isSome :=
    List.find?_isSome.mpr ⟨e, he, by simp⟩
  obtain ⟨e', he'⟩ := Option.isSome_iff_exists.mp hsome
  have hid : e'.id = e.id := by simpa using List.find?_some he'
  have heq := hv.eq_of_id (List.mem_of_find?_eq_some he') he hid
  simp [ofLedger, he', heq]

theorem exists_of_ofLedger {L : List (Entry I P)} {i : I} {r : Record P}
    (h : ofLedger null L i = some r) : ∃ e ∈ L, e.id = i ∧ recordOf null L e = r := by
  obtain ⟨e, he, hr⟩ := Option.map_eq_some_iff.mp h
  exact ⟨e, List.mem_of_find?_eq_some he, by simpa using List.find?_some he, hr⟩

end Reading

/-! ## Adding and taking back an entry -/

section Update

variable (null : P)

theorem paint_recordOf (L : List (Entry I P)) (e : Entry I P) (os : List (I × Nat)) (p : P) :
    paint os p e.id (recordOf null L e) = ⟨e.pos, (List.range e.outs.length).map fun n =>
      if (e.id, n) ∈ os then p else spentAt null L (e.id, n)⟩ := by
  unfold paint recordOf
  congr 1
  exact List.ext_getElem (by simp) fun n h₁ h₂ => by simp

theorem recordOf_snoc {L : List (Entry I P)} {e : Entry I P} (hf : Fits L e) (e' : Entry I P) :
    recordOf null (L ++ [e]) e' = paint e.spends e.pos e'.id (recordOf null L e') := by
  rw [paint_recordOf]
  unfold recordOf
  congr 1
  refine List.map_congr_left fun n _ => ?_
  split
  · next h => exact spentAt_snoc null h (hf.unspent _ h)
  · next h => exact spentAt_append null h

/-- What an entry marked is unmarked again by writing the null position. -/
theorem recordOf_undo {L : List (Entry I P)} {e : Entry I P} (hf : Fits L e) (e' : Entry I P) :
    paint e.spends null e'.id (recordOf null (L ++ [e]) e') = recordOf null L e' := by
  rw [paint_recordOf]
  unfold recordOf
  congr 1
  refine List.map_congr_left fun n _ => ?_
  split
  · next h => exact (spentAt_of_forall_notMem null (hf.unspent _ h)).symm
  · next h => exact spentAt_append null h

theorem find?_id_snoc {L : List (Entry I P)} {e : Entry I P} {i : I} (hi : i ≠ e.id) :
    ((L ++ [e]).find? fun e' => decide (e'.id = i)) = L.find? fun e' => decide (e'.id = i) := by
  simp [List.find?_append, hi.symm]

theorem find?_id_of_fits {L : List (Entry I P)} {e : Entry I P} (hf : Fits L e) :
    (L.find? fun e' => decide (e'.id = e.id)) = none :=
  List.find?_eq_none.mpr fun e' he' => by simpa using hf.fresh e' he'

/-- **Adding an entry** marks what it spends and creates its record. -/
theorem ofLedger_snoc {L : List (Entry I P)} {e : Entry I P} (hv : Valid L) (hf : Fits L e) :
    ofLedger null (L ++ [e]) = create null (markAll (ofLedger null L) e.spends e.pos) e := by
  funext i
  by_cases hi : i = e.id
  · subst hi
    have hself : ∀ n, spentAt null (L ++ [e]) (e.id, n) = null := fun n =>
      spentAt_of_forall_notMem null (hf.notMem_spends hv n)
    simp [ofLedger, create, List.find?_append, find?_id_of_fits hf, recordOf, hself,
      List.map_const']
  · rw [create, Function.update_of_ne hi, markAll_apply, ofLedger, ofLedger, find?_id_snoc hi]
    cases hL : L.find? fun e' => decide (e'.id = i) with
    | none => rfl
    | some e' =>
      have hid : e'.id = i := by simpa using List.find?_some hL
      simp [recordOf_snoc null hf, hid]

/-- **Taking back an entry** unmarks what it spent and erases its record. -/
theorem ofLedger_undo {L : List (Entry I P)} {e : Entry I P} (hf : Fits L e) :
    erase (markAll (ofLedger null (L ++ [e])) e.spends null) e.id = ofLedger null L := by
  funext i
  by_cases hi : i = e.id
  · subst hi
    simp [erase, ofLedger, find?_id_of_fits hf]
  · rw [erase, Function.update_of_ne hi, markAll_apply, ofLedger, ofLedger, find?_id_snoc hi]
    cases hL : L.find? fun e' => decide (e'.id = i) with
    | none => rfl
    | some e' =>
      have hid : e'.id = i := by simpa using List.find?_some hL
      have := recordOf_undo null hf e'
      rw [hid] at this
      simp [this]

end Update

/-! ## The test before marking -/

/-- Output by output, the listed outputs have a record whose spender is null when their turn comes,
each being marked with `p` before the next. -/
def Spendable (isNull : P → Bool) : Index I P → List (I × Nat) → P → Prop
  | _, [], _ => True
  | idx, o :: os, p =>
    (∃ r q, idx o.1 = some r ∧ r.vSpent[o.2]? = some q ∧ isNull q = true) ∧
      Spendable isNull (mark idx o p) os p

/-- An output has a record that shows it as unspent. -/
def Unspent (isNull : P → Bool) (idx : Index I P) (o : I × Nat) : Prop :=
  ∃ r q, idx o.1 = some r ∧ r.vSpent[o.2]? = some q ∧ isNull q = true

theorem mark_getElem? {idx : Index I P} {o o' : I × Nat} (h : o' ≠ o) {p : P} {r : Record P}
    (hr : mark idx o p o'.1 = some r) :
    ∃ r', idx o'.1 = some r' ∧ r'.vSpent[o'.2]? = r.vSpent[o'.2]? := by
  by_cases hi : o'.1 = o.1
  · rw [hi] at hr ⊢
    simp only [mark, Function.update_self] at hr
    obtain ⟨r', hr', rfl⟩ := Option.map_eq_some_iff.mp hr
    have hn : o.2 ≠ o'.2 := fun hn => h (Prod.ext hi hn.symm)
    exact ⟨r', hr', by simp [List.getElem?_set_ne hn]⟩
  · rw [mark, Function.update_of_ne hi] at hr
    exact ⟨r, hr, rfl⟩

/-- Outputs that pass the test are distinct and were unspent from the start. -/
theorem Spendable.nodup {isNull : P → Bool} {os : List (I × Nat)} {p : P} (hp : isNull p = false) :
    ∀ {idx : Index I P}, Spendable isNull idx os p →
      os.Nodup ∧ ∀ o ∈ os, Unspent isNull idx o := by
  induction os with
  | nil => simp
  | cons o os ih =>
    rintro idx ⟨hhead, htail⟩
    obtain ⟨hnd, hall⟩ := ih htail
    have hne : ∀ o' ∈ os, o' ≠ o := by
      rintro o' ho' rfl
      obtain ⟨r, q, hr, hq, hnull⟩ := hall o' ho'
      simp only [mark, Function.update_self] at hr
      obtain ⟨r', -, rfl⟩ := Option.map_eq_some_iff.mp hr
      obtain ⟨hlt, rfl⟩ := List.getElem?_eq_some_iff.mp hq
      simp [hp] at hnull
    refine ⟨List.nodup_cons.mpr ⟨fun ho => hne o ho rfl, hnd⟩, ?_⟩
    intro o' ho'
    rcases List.mem_cons.mp ho' with rfl | ho'
    · exact hhead
    · obtain ⟨r, q, hr, hq, hnull⟩ := hall o' ho'
      obtain ⟨r', hr', heq⟩ := mark_getElem? (hne o' ho') hr
      exact ⟨r', q, hr', heq.trans hq, hnull⟩

/-- What the index of a ledger shows as unspent is an output of the ledger that no entry spends. -/
theorem Unspent.of_ledger {null : P} {isNull : P → Bool} {L : List (Entry I P)} (hv : Valid L)
    (hL : ∀ e ∈ L, isNull e.pos = false) {o : I × Nat}
    (h : Unspent isNull (ofLedger null L) o) :
    (∃ e ∈ L, e.id = o.1 ∧ o.2 < e.outs.length) ∧ ∀ e ∈ L, o ∉ e.spends := by
  obtain ⟨r, q, hr, hq, hnull⟩ := h
  obtain ⟨e, he, hid, rfl⟩ := exists_of_ofLedger null hr
  obtain ⟨hlt, rfl⟩ := List.getElem?_eq_some_iff.mp hq
  refine ⟨⟨e, he, hid, by simpa [recordOf] using hlt⟩, ?_⟩
  intro e' he' ho
  have hspent : spentAt null L (e.id, o.2) = e'.pos := by
    rw [hid]
    exact spentAt_of_mem null hv he' ho
  simp only [recordOf, List.getElem_map, List.getElem_range, hspent, hL e' he'] at hnull
  exact absurd hnull (by simp)

/-- **Entries that pass the test fit**, when their identity is new. -/
theorem fits_of_spendable {null : P} {isNull : P → Bool} {L : List (Entry I P)} {e : Entry I P}
    (hv : Valid L) (hL : ∀ e' ∈ L, isNull e'.pos = false) (he : isNull e.pos = false)
    (hfresh : ∀ e' ∈ L, e'.id ≠ e.id)
    (h : Spendable isNull (ofLedger null L) e.spends e.pos) : Fits L e := by
  obtain ⟨hnd, hall⟩ := h.nodup he
  exact ⟨hfresh, hnd, fun o ho => (Unspent.of_ledger hv hL (hall o ho)).1,
    fun o ho => (Unspent.of_ledger hv hL (hall o ho)).2⟩

/-! ## The value of the unspent outputs -/

section Value

/-- Whether some entry spends `o`. -/
def isSpent (L : List (Entry I P)) (o : I × Nat) : Bool := L.any fun e => decide (o ∈ e.spends)

/-- **The total of the outputs no entry spends.** -/
def unspentValue (L : List (Entry I P)) : Int :=
  (((coins L).filter fun c => !isSpent L c.1).map Prod.snd).sum

/-- The value of an output of the ledger. -/
def valueOf (L : List (Entry I P)) (o : I × Nat) : Int :=
  ((L.find? fun e => decide (e.id = o.1)).bind fun e => e.outs[o.2]?).getD 0

theorem valueOf_nonneg {L : List (Entry I P)} (hL : ∀ e ∈ L, ∀ v ∈ e.outs, 0 ≤ v) (o : I × Nat) :
    0 ≤ valueOf L o := by
  unfold valueOf
  cases hfind : (L.find? fun e => decide (e.id = o.1)) with
  | none => exact le_rfl
  | some e =>
    cases hout : e.outs[o.2]? with
    | none => simp [hout]
    | some v =>
      simpa [hout] using hL e (List.mem_of_find?_eq_some hfind) v (List.mem_of_getElem? hout)

theorem sum_filter_ne {K : Type} [DecidableEq K] {k : K} {v : Int} :
    ∀ {U : List (K × Int)}, (U.map Prod.fst).Nodup → (k, v) ∈ U →
      ((U.filter fun c => decide (c.1 ≠ k)).map Prod.snd).sum = (U.map Prod.snd).sum - v := by
  intro U
  induction U with
  | nil => simp
  | cons c U ih =>
    intro hnd hmem
    rw [List.map_cons] at hnd
    obtain ⟨hc, hnd⟩ := List.nodup_cons.mp hnd
    rcases List.mem_cons.mp hmem with rfl | hmem
    · have hall : (U.filter fun c => decide (c.1 ≠ k)) = U := by
        refine List.filter_eq_self.mpr fun c hcU => ?_
        have : c.1 ≠ k := fun h => hc (List.mem_map.mpr ⟨c, hcU, h⟩)
        simpa using this
      rw [List.filter_cons_of_neg (by simp), hall]
      simp
    · have hne : c.1 ≠ k := fun h => hc (List.mem_map.mpr ⟨(k, v), hmem, h.symm⟩)
      rw [List.filter_cons_of_pos (by simpa using hne), List.map_cons, List.sum_cons, ih hnd hmem,
        List.map_cons, List.sum_cons]
      omega

/-- Leaving out distinct keys takes their values off the sum. -/
theorem sum_filter_notMem {K : Type} [DecidableEq K] {U : List (K × Int)} {f : K → Int}
    (hU : (U.map Prod.fst).Nodup) {ks : List K} (hks : ks.Nodup) (h : ∀ k ∈ ks, (k, f k) ∈ U) :
    ((U.filter fun c => decide (c.1 ∉ ks)).map Prod.snd).sum =
      (U.map Prod.snd).sum - (ks.map f).sum := by
  induction ks with
  | nil => simp
  | cons k ks ih =>
    obtain ⟨hk, hks⟩ := List.nodup_cons.mp hks
    have hsplit : (U.filter fun c => decide (c.1 ∉ k :: ks)) =
        (U.filter fun c => decide (c.1 ∉ ks)).filter fun c => decide (c.1 ≠ k) := by
      rw [List.filter_filter]
      congr 1
      funext c
      simp [List.mem_cons, not_or]
    have hnd : ((U.filter fun c => decide (c.1 ∉ ks)).map Prod.fst).Nodup :=
      hU.sublist (List.filter_sublist.map _)
    have hmem : (k, f k) ∈ U.filter fun c => decide (c.1 ∉ ks) :=
      List.mem_filter.mpr ⟨h k List.mem_cons_self, by simpa using hk⟩
    rw [hsplit, sum_filter_ne hnd hmem, ih hks fun k' hk' => h k' (List.mem_cons_of_mem _ hk'),
      List.map_cons, List.sum_cons]
    omega

theorem isSpent_eq_false {L : List (Entry I P)} {o : I × Nat} :
    isSpent L o = false ↔ ∀ e ∈ L, o ∉ e.spends := by
  simp [isSpent]

/-- An output of a ledger that no entry spends is among the unspent ones, with its value. -/
theorem mem_unspent {L : List (Entry I P)} (hv : Valid L) {o : I × Nat}
    (hres : ∃ e ∈ L, e.id = o.1 ∧ o.2 < e.outs.length) (hun : ∀ e ∈ L, o ∉ e.spends) :
    (o, valueOf L o) ∈ (coins L).filter fun c => !isSpent L c.1 := by
  obtain ⟨e, he, hid, hlt⟩ := hres
  refine List.mem_filter.mpr ⟨mem_coins.mpr ⟨e, he, hid.symm, ?_⟩, ?_⟩
  · have hfind : (L.find? fun e => decide (e.id = o.1)) = some e := by
      have hsome : (L.find? fun e => decide (e.id = o.1)).isSome :=
        List.find?_isSome.mpr ⟨e, he, by simpa using hid⟩
      obtain ⟨e', he'⟩ := Option.isSome_iff_exists.mp hsome
      have hid' : e'.id = o.1 := by simpa using List.find?_some he'
      rw [he', hv.eq_of_id (List.mem_of_find?_eq_some he') he (hid'.trans hid.symm)]
    simp [valueOf, hfind, List.getElem?_eq_getElem hlt]
  · have : isSpent L o = false := isSpent_eq_false.mpr hun
    simp [this]

theorem nodup_unspent {L : List (Entry I P)} (hv : Valid L) :
    (((coins L).filter fun c => !isSpent L c.1).map Prod.fst).Nodup :=
  (nodup_coins hv.nodup_ids).sublist (List.filter_sublist.map _)

/-- **Distinct unspent outputs are worth no more than all of them**, where no value is negative. -/
theorem sum_valueOf_le {L : List (Entry I P)} (hv : Valid L) (hL : ∀ e ∈ L, ∀ v ∈ e.outs, 0 ≤ v)
    {os : List (I × Nat)} (hos : os.Nodup)
    (hres : ∀ o ∈ os, ∃ e ∈ L, e.id = o.1 ∧ o.2 < e.outs.length)
    (hun : ∀ o ∈ os, ∀ e ∈ L, o ∉ e.spends) : (os.map (valueOf L)).sum ≤ unspentValue L := by
  have hrest := sum_filter_notMem (nodup_unspent hv) hos
    fun o ho => mem_unspent hv (hres o ho) (hun o ho)
  have hnonneg : 0 ≤ unspentValue L - (os.map (valueOf L)).sum := by
    rw [unspentValue, ← hrest]
    refine List.sum_nonneg fun v hv => ?_
    obtain ⟨c, hc, rfl⟩ := List.mem_map.mp hv
    obtain ⟨e, he, -, hout⟩ := mem_coins.mp (List.mem_filter.mp (List.mem_filter.mp hc).1).1
    exact hL e he _ (List.mem_of_getElem? hout)
  omega

/-- **The balance of one entry**: the unspent value grows by what the entry creates and shrinks by
what it spends. -/
theorem unspentValue_snoc {L : List (Entry I P)} {e : Entry I P} (hv : Valid L) (hf : Fits L e) :
    unspentValue (L ++ [e]) =
      unspentValue L + e.outs.sum - (e.spends.map (valueOf L)).sum := by
  have hown : (e.coins.filter fun c => !isSpent (L ++ [e]) c.1) = e.coins := by
    refine List.filter_eq_self.mpr fun c hc => ?_
    have hid := (Entry.mem_coins.mp hc).1
    have : isSpent (L ++ [e]) c.1 = false := by
      rw [isSpent_eq_false, show c.1 = (e.id, c.1.2) from Prod.ext hid rfl]
      exact hf.notMem_spends hv _
    simp [this]
  have hrest : ((coins L).filter fun c => !isSpent (L ++ [e]) c.1) =
      ((coins L).filter fun c => !isSpent L c.1).filter fun c => decide (c.1 ∉ e.spends) := by
    rw [List.filter_filter]
    congr 1
    funext c
    simp [isSpent, Bool.and_comm]
  have hmem : ∀ o ∈ e.spends, (o, valueOf L o) ∈ (coins L).filter fun c => !isSpent L c.1 :=
    fun o ho => mem_unspent hv (hf.resolves o ho) (hf.unspent o ho)
  have hcoins : coins (L ++ [e]) = coins L ++ e.coins := by simp [coins]
  calc unspentValue (L ++ [e])
      = ((((coins L).filter fun c => !isSpent L c.1).filter fun c =>
          decide (c.1 ∉ e.spends)).map Prod.snd).sum + e.outs.sum := by
        rw [unspentValue, hcoins, List.filter_append, hown, hrest, List.map_append,
          List.sum_append, e.sum_coins]
    _ = unspentValue L + e.outs.sum - (e.spends.map (valueOf L)).sum := by
        have hs := sum_filter_notMem (nodup_unspent hv) hf.nodup hmem
        rw [unspentValue, add_sub_right_comm, ← hs]
        congr!

end Value

end SpendIndex
