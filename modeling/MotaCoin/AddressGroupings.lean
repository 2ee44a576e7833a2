import MotaCoin.Lib.Coalesce
import MotaCoin.SpentFlags
import MotaCoin.WalletCoins
import Mathlib.Data.Finset.Sort
import Mathlib.Data.Finset.Option
import Mathlib.Data.List.Lex
import Mathlib.Data.Prod.Lex

/-!
# Which addresses belong together

`GetAddressGroupings` collects the addresses that each transaction of the wallet spends from and pays
its change to, and puts together what overlaps.

## Main definitions

* `Groups`: the groups on the heap, and where each address is
* `CWallet.getAddressGroupings`: the call
* `CWallet.Linked`: addresses that transactions of the wallet connect

## Main results

* `Groups.merge_spec`: one group is put together with what it overlaps
* `CWallet.getAddressGroupings_iff`: when the groups are what transactions connect
-/

namespace MotaCoin

namespace CTxDestination

/-- Which alternative it is, and the identifier. -/
def rank : CTxDestination → ℕ ×ₗ ℕ
  | .noDestination => toLex (0, 0)
  | .keyID id => toLex (1, id)
  | .scriptID id => toLex (2, id)

theorem rank_injective : Function.Injective rank := by
  intro dest dest' h
  cases dest <;> cases dest' <;> simp_all [rank]

/-- The order of the destinations in a set. -/
instance : LinearOrder CTxDestination where
  le dest dest' := dest.rank ≤ dest'.rank
  le_refl _ := le_rfl
  le_trans _ _ _ := le_trans
  le_antisymm _ _ h h' := rank_injective (le_antisymm h h')
  le_total _ _ := le_total _ _
  toDecidableLE dest dest' := inferInstanceAs (Decidable (dest.rank ≤ dest'.rank))
  toDecidableEq := inferInstance

end CTxDestination

/-- A set of sets of destinations, in its order. -/
def inOrder (groupings : Finset (Finset CTxDestination)) : List (Finset CTxDestination) :=
  ((groupings.image fun grouping => grouping.sort).sort).map List.toFinset

theorem toFinset_inOrder (groupings : Finset (Finset CTxDestination)) :
    (inOrder groupings).toFinset = groupings := by
  ext grouping
  simp only [inOrder, List.mem_toFinset, List.mem_map, Finset.mem_sort, Finset.mem_image]
  constructor
  · rintro ⟨_, ⟨g, hg, rfl⟩, rfl⟩
    rwa [Finset.sort_toFinset]
  · intro hg
    exact ⟨_, ⟨grouping, hg, rfl⟩, Finset.sort_toFinset _ _⟩

/-! ## Putting groups together -/

/-- The groups so far. -/
structure Groups where
  /-- What is at each address that was allocated and is not deleted. -/
  heap : ℕ → Option (Finset CTxDestination)
  /-- The address that is allocated next. -/
  next : ℕ
  uniqueGroupings : Finset ℕ
  setmap : AList fun _ : CTxDestination => ℕ

namespace Groups

/-- No groups. -/
def empty : Groups := ⟨fun _ => none, 0, ∅, ∅⟩

/-- The groups that are hit are put into `merged` and deleted; `none` if one was deleted before. -/
def absorbHits : List ℕ → Finset CTxDestination → Groups → Option (Finset CTxDestination × Groups)
  | [], merged, st => some (merged, st)
  | hit :: hits, merged, st =>
    match st.heap hit with
    | none => none
    | some group =>
      absorbHits hits (merged ∪ group)
        { st with
          heap := Function.update st.heap hit none
          uniqueGroupings := st.uniqueGroupings.erase hit }

/-- The groups that `grouping` hits. -/
def hits (st : Groups) (grouping : Finset CTxDestination) : Finset ℕ :=
  grouping.biUnion fun address => (st.setmap.lookup address).toFinset

/-- A new group is merged with those that it hits. -/
def merge (st : Groups) (grouping : Finset CTxDestination) : Option Groups :=
  (absorbHits (st.hits grouping).sort grouping st).map fun (merged, st) =>
    { heap := Function.update st.heap st.next (some merged)
      next := st.next + 1
      uniqueGroupings := insert st.next st.uniqueGroupings
      setmap := merged.sort.foldl (fun setmap element => setmap.insert element st.next) st.setmap }

/-- `ret`: the groups there are. -/
def groups (st : Groups) : Option (Finset (Finset CTxDestination)) :=
  (st.uniqueGroupings.sort.mapM st.heap).map List.toFinset

/-- The groups on the heap are these blocks, and `setmap` finds the one that an address is in. -/
structure Represents (st : Groups) (blocks : Finset (Finset CTxDestination)) : Prop where
  fresh : ∀ p, st.next ≤ p → st.heap p = none
  unique : ∀ p, p ∈ st.uniqueGroupings ↔ ∃ group, st.heap p = some group
  mapped : ∀ a p, st.setmap.lookup a = some p ↔ ∃ group, st.heap p = some group ∧ a ∈ group
  blocks : ∀ block, block ∈ blocks ↔ ∃ p, st.heap p = some block

theorem represents_empty : empty.Represents ∅ where
  fresh _ _ := rfl
  unique p := by simp [empty]
  mapped a p := by simp [empty]
  blocks block := by simp [empty]

/-- What is left once groups were put into one. -/
theorem absorbHits_spec {hits : List ℕ} (hnodup : hits.Nodup) (merged : Finset CTxDestination)
    (st : Groups) (halive : ∀ p ∈ hits, ∃ group, st.heap p = some group) :
    ∃ merged', absorbHits hits merged st = some (merged', { st with
        heap := fun p => if p ∈ hits then none else st.heap p
        uniqueGroupings := st.uniqueGroupings.filter fun p => p ∉ hits }) ∧
      ∀ a, a ∈ merged' ↔ a ∈ merged ∨ ∃ p ∈ hits, ∃ group, st.heap p = some group ∧ a ∈ group := by
  induction hits generalizing merged st with
  | nil => exact ⟨merged, by simp [absorbHits], by simp⟩
  | cons hit hits ih =>
    obtain ⟨hnot, hnodup⟩ := List.nodup_cons.1 hnodup
    obtain ⟨group, hgroup⟩ := halive hit List.mem_cons_self
    have hne : ∀ p ∈ hits, p ≠ hit := fun p hp heq => hnot (heq ▸ hp)
    set st' : Groups := { st with
      heap := Function.update st.heap hit none
      uniqueGroupings := st.uniqueGroupings.erase hit } with hst'
    have hheap : ∀ p ∈ hits, st'.heap p = st.heap p := fun p hp =>
      Function.update_of_ne (hne p hp) _ _
    obtain ⟨merged', heq, hmem⟩ := ih hnodup (merged ∪ group) st' fun p hp => by
      rw [hheap p hp]
      exact halive p (List.mem_cons_of_mem _ hp)
    refine ⟨merged', ?_, fun a => ?_⟩
    · rw [absorbHits, hgroup]
      refine heq.trans ?_
      congr 3
      · funext p
        by_cases hp : p = hit
        · subst hp
          simp [hst']
        · simp [hst', hp]
      · ext p
        simp only [hst', Finset.mem_filter, Finset.mem_erase, List.mem_cons]
        tauto
    · rw [hmem, Finset.mem_union, or_assoc]
      refine or_congr_right ?_
      constructor
      · rintro (ha | ⟨p, hp, group', hgroup', ha⟩)
        · exact ⟨hit, List.mem_cons_self, group, hgroup, ha⟩
        · exact ⟨p, List.mem_cons_of_mem _ hp, group', hheap p hp ▸ hgroup', ha⟩
      · rintro ⟨p, hp, group', hgroup', ha⟩
        rcases List.mem_cons.1 hp with rfl | hp
        · obtain rfl := Option.some.inj (hgroup.symm.trans hgroup')
          exact .inl ha
        · exact .inr ⟨p, hp, group', (hheap p hp).trans hgroup', ha⟩

/-- The addresses that are moved are found at the new group. -/
theorem lookup_foldl_insert (l : List CTxDestination) (p : ℕ) (setmap : AList fun _ : CTxDestination => ℕ)
    (a : CTxDestination) :
    (l.foldl (fun setmap element => setmap.insert element p) setmap).lookup a =
      if a ∈ l then some p else setmap.lookup a := by
  induction l generalizing setmap with
  | nil => simp
  | cons b l ih =>
    rw [List.foldl_cons, ih]
    by_cases hab : a = b
    · subst hab
      simp
    · simp [hab, AList.lookup_insert_ne hab]

theorem exists_mapM_heap {heap : ℕ → Option (Finset CTxDestination)} (l : List ℕ)
    (halive : ∀ p ∈ l, ∃ group, heap p = some group) :
    ∃ groups, l.mapM heap = some groups ∧ ∀ group, group ∈ groups ↔ ∃ p ∈ l, heap p = some group := by
  induction l with
  | nil => exact ⟨[], rfl, by simp⟩
  | cons p l ih =>
    obtain ⟨group, hgroup⟩ := halive p List.mem_cons_self
    obtain ⟨groups, heq, hmem⟩ := ih fun q hq => halive q (List.mem_cons_of_mem _ hq)
    refine ⟨group :: groups, by rw [List.mapM_cons, hgroup, heq]; rfl, fun group' => ?_⟩
    rw [List.mem_cons, hmem, List.exists_mem_cons_iff, hgroup, Option.some.injEq, eq_comm]

namespace Represents

variable {st : Groups} {blocks : Finset (Finset CTxDestination)} (h : st.Represents blocks)

include h

theorem mem_hits {grouping : Finset CTxDestination} {p : ℕ} :
    p ∈ st.hits grouping ↔ ∃ group, st.heap p = some group ∧ ¬Disjoint group grouping := by
  simp only [hits, Finset.mem_biUnion, Option.mem_toFinset, Option.mem_def, h.mapped,
    Finset.not_disjoint_iff]
  constructor
  · rintro ⟨a, ha, group, hgroup, hmem⟩
    exact ⟨group, hgroup, a, hmem, ha⟩
  · rintro ⟨group, hgroup, a, hmem, ha⟩
    exact ⟨a, ha, group, hgroup, hmem⟩

/-- **A group is put together with what it overlaps**, and no deleted one is looked at. -/
theorem merge_spec (grouping : Finset CTxDestination) :
    ∃ st', st.merge grouping = some st' ∧ st'.Represents (Coalesce.absorb blocks grouping) := by
  obtain ⟨merged, heq, hmem⟩ := absorbHits_spec ((st.hits grouping).sort_nodup (· ≤ ·)) grouping st
    fun p hp => by
      obtain ⟨group, hgroup, -⟩ := h.mem_hits.1 ((Finset.mem_sort _).1 hp)
      exact ⟨group, hgroup⟩
  simp only [Finset.mem_sort] at heq hmem
  -- what was put into one group
  have hmerged : merged = Coalesce.merged blocks grouping := by
    ext a
    rw [hmem, Coalesce.mem_merged]
    refine or_congr_right ⟨?_, ?_⟩
    · rintro ⟨p, hp, group, hgroup, ha⟩
      obtain ⟨group', hgroup', hmeets⟩ := h.mem_hits.1 hp
      obtain rfl := Option.some.inj (hgroup.symm.trans hgroup')
      exact ⟨group, Finset.mem_filter.2 ⟨(h.blocks _).2 ⟨p, hgroup⟩, hmeets⟩, ha⟩
    · rintro ⟨group, hhit, ha⟩
      obtain ⟨hblock, hmeets⟩ := Finset.mem_filter.1 hhit
      obtain ⟨p, hp⟩ := (h.blocks _).1 hblock
      exact ⟨p, h.mem_hits.2 ⟨group, hp, hmeets⟩, group, hp, ha⟩
  have hnext : st.heap st.next = none := h.fresh _ le_rfl
  refine ⟨_, by rw [merge, heq, Option.map_some], ?_⟩
  -- what is on the heap then
  set heap' : ℕ → Option (Finset CTxDestination) :=
    Function.update (fun p => if p ∈ st.hits grouping then none else st.heap p) st.next (some merged)
    with hheap'
  have hself : heap' st.next = some merged := Function.update_self _ _ _
  have hold : ∀ p, p ≠ st.next → ∀ group,
      heap' p = some group ↔ st.heap p = some group ∧ Disjoint group grouping := by
    intro p hp group
    rw [hheap', Function.update_of_ne hp]
    split
    · next hhit =>
      obtain ⟨group', hgroup', hmeets⟩ := h.mem_hits.1 hhit
      refine ⟨nofun, ?_⟩
      rintro ⟨hgroup, happart⟩
      obtain rfl := Option.some.inj (hgroup.symm.trans hgroup')
      exact absurd happart hmeets
    · next hhit =>
      refine ⟨fun hgroup => ⟨hgroup, ?_⟩, And.left⟩
      by_contra hmeets
      exact hhit (h.mem_hits.2 ⟨group, hgroup, hmeets⟩)
  have hne : ∀ p group, st.heap p = some group → p ≠ st.next := by
    rintro p group hgroup rfl
    rw [hnext] at hgroup
    cases hgroup
  exact {
    fresh := fun p hp => by
      have hlt : st.next < p := hp
      change heap' p = none
      rw [hheap', Function.update_of_ne hlt.ne']
      split
      · rfl
      · exact h.fresh p hlt.le
    unique := fun p => by
      change p ∈ insert st.next _ ↔ ∃ group, heap' p = some group
      rw [Finset.mem_insert, Finset.mem_filter, h.unique]
      by_cases hp : p = st.next
      · subst hp
        exact iff_of_true (.inl rfl) ⟨merged, hself⟩
      · simp only [hp, false_or, hold p hp, h.mem_hits]
        constructor
        · rintro ⟨⟨group, hgroup⟩, hhit⟩
          refine ⟨group, hgroup, ?_⟩
          by_contra hmeets
          exact hhit ⟨group, hgroup, hmeets⟩
        · rintro ⟨group, hgroup, happart⟩
          refine ⟨⟨group, hgroup⟩, ?_⟩
          rintro ⟨group', hgroup', hmeets⟩
          obtain rfl := Option.some.inj (hgroup.symm.trans hgroup')
          exact hmeets happart
    mapped := fun a p => by
      change (merged.sort.foldl _ st.setmap).lookup a = some p ↔ ∃ group, heap' p = some group ∧ a ∈ group
      simp only [lookup_foldl_insert, Finset.mem_sort]
      by_cases hp : p = st.next
      · subst hp
        simp only [hself, Option.some.injEq, exists_eq_left']
        split
        · next ha => exact iff_of_true rfl ha
        · next ha =>
          refine iff_of_false (fun hlookup => ?_) ha
          obtain ⟨group, hgroup, -⟩ := (h.mapped _ _).1 hlookup
          exact hne _ _ hgroup rfl
      · simp only [hold p hp]
        split
        · next ha =>
          refine iff_of_false (fun heq => hp (Option.some.inj heq).symm) ?_
          rintro ⟨group, ⟨hgroup, happart⟩, hag⟩
          rcases (hmem a).1 ha with hg | ⟨q, hq, group', hgroup', hag'⟩
          · exact Finset.disjoint_left.1 happart hag hg
          · -- `setmap` has one group for `a`
            have hpq : p = q := Option.some.inj
              (((h.mapped _ _).2 ⟨group, hgroup, hag⟩).symm.trans
                ((h.mapped _ _).2 ⟨group', hgroup', hag'⟩))
            subst hpq
            obtain ⟨group'', hgroup'', hmeets⟩ := h.mem_hits.1 hq
            obtain rfl := Option.some.inj (hgroup.symm.trans hgroup'')
            exact hmeets happart
        · next ha =>
          rw [h.mapped]
          constructor
          · rintro ⟨group, hgroup, hag⟩
            refine ⟨group, ⟨hgroup, ?_⟩, hag⟩
            by_contra hmeets
            exact ha ((hmem a).2 (.inr ⟨p, h.mem_hits.2 ⟨group, hgroup, hmeets⟩, group, hgroup, hag⟩))
          · rintro ⟨group, ⟨hgroup, -⟩, hag⟩
            exact ⟨group, hgroup, hag⟩
    blocks := fun block => by
      change block ∈ Coalesce.absorb blocks grouping ↔ ∃ p, heap' p = some block
      rw [Coalesce.mem_absorb, ← hmerged, h.blocks]
      constructor
      · rintro (rfl | ⟨⟨p, hp⟩, happart⟩)
        · exact ⟨st.next, hself⟩
        · exact ⟨p, (hold p (hne p _ hp) _).2 ⟨hp, happart⟩⟩
      · rintro ⟨p, hp⟩
        by_cases heq : p = st.next
        · subst heq
          exact .inl (Option.some.inj (hself.symm.trans hp)).symm
        · obtain ⟨hp, happart⟩ := (hold p heq _).1 hp
          exact .inr ⟨⟨p, hp⟩, happart⟩ }

/-- All groups that are returned are there. -/
theorem groups_eq : st.groups = some blocks := by
  obtain ⟨groups, heq, hmem⟩ := exists_mapM_heap st.uniqueGroupings.sort fun p hp =>
    (h.unique p).1 ((Finset.mem_sort _).1 hp)
  rw [Groups.groups, heq, Option.map_some]
  congr 1
  ext block
  rw [List.mem_toFinset, hmem, h.blocks]
  constructor
  · rintro ⟨p, -, hp⟩
    exact ⟨p, hp⟩
  · rintro ⟨p, hp⟩
    exact ⟨p, (Finset.mem_sort _).2 ((h.unique p).2 ⟨block, hp⟩), hp⟩

end Represents

/-- All groups are merged one after the other. -/
def mergeAll (groupings : Finset (Finset CTxDestination)) : Option (Finset (Finset CTxDestination)) :=
  ((inOrder groupings).foldlM merge empty).bind groups

theorem exists_foldlM_merge (l : List (Finset CTxDestination)) {st : Groups}
    {blocks : Finset (Finset CTxDestination)} (h : st.Represents blocks) :
    ∃ st', l.foldlM merge st = some st' ∧ st'.Represents (l.foldl Coalesce.absorb blocks) := by
  induction l generalizing st blocks with
  | nil => exact ⟨st, rfl, h⟩
  | cons grouping l ih =>
    obtain ⟨st', heq, h'⟩ := h.merge_spec grouping
    obtain ⟨st'', heq', h''⟩ := ih h'
    refine ⟨st'', ?_, h''⟩
    rw [List.foldlM_cons, heq]
    exact heq'

/-- **The groupings are put together where they overlap.** -/
theorem mergeAll_spec (groupings : Finset (Finset CTxDestination)) :
    ∃ ret, mergeAll groupings = some ret ∧ Coalesce.Coalesced groupings ret := by
  obtain ⟨st, heq, h⟩ := exists_foldlM_merge (inOrder groupings) represents_empty
  have hcoalesced := Coalesce.coalesced_empty.foldl (inOrder groupings)
  rw [Finset.empty_union, toFinset_inOrder] at hcoalesced
  refine ⟨_, ?_, hcoalesced⟩
  rw [mergeAll, heq, Option.bind_some, h.groups_eq]

end Groups

/-! ## What transactions connect -/

namespace CWalletTx

/-- `CWalletTx()`, at a time. -/
def new (adjustedTime : Nat) : CWalletTx := .ofTx ⟨1, adjustedTime, [], [], 0⟩

end CWalletTx

namespace CWallet

variable (w : CWallet)

/-- The output that an input spends, if the wallet has its transaction. -/
def prevOutput (txin : CTxIn) : Option CTxOut :=
  (w.mapWallet.lookup txin.prevout.hash).bind fun prev => prev.tx.vout[txin.prevout.n]?

/-- The destination of an output. -/
def destination (txout : CTxOut) : Option CTxDestination :=
  extractDestination w.keys.hash160 txout.scriptPubKey

/-- The addresses that inputs spend from. -/
def spentFrom (vin : List CTxIn) : Finset CTxDestination :=
  (vin.filterMap fun txin => (w.prevOutput txin).bind w.destination).toFinset

/-- The addresses that change is paid to. -/
def changeTo (vout : List CTxOut) : Finset CTxDestination :=
  ((vout.filter w.isChange).filterMap w.destination).toFinset

/-- The addresses of the outputs that are the wallet's. -/
def paidTo (vout : List CTxOut) : Finset CTxDestination :=
  ((vout.filter fun txout => w.keys.isMine txout.scriptPubKey).filterMap w.destination).toFinset

/-- `vin.size() > 0 && IsMine(vin[0])`. -/
def ownsFirst (wtx : CWalletTx) : Bool := wtx.tx.vin.head?.any fun txin => (w.ownOutput txin).isSome

/-- A transaction spends from two addresses, or spends from one and pays its change to the other. -/
def Connects (wtx : CWalletTx) (a b : CTxDestination) : Prop :=
  a ∈ w.spentFrom wtx.tx.vin ∧ b ∈ w.spentFrom wtx.tx.vin ∨
    a ∈ w.spentFrom wtx.tx.vin ∧ b ∈ w.changeTo wtx.tx.vout ∨
      a ∈ w.changeTo wtx.tx.vout ∧ b ∈ w.spentFrom wtx.tx.vin

/-- **Two addresses are linked** by a chain of transactions of the wallet. -/
def Linked (a b : CTxDestination) : Prop :=
  Relation.TransGen (fun a b => ∃ hash wtx, w.mapWallet.lookup hash = some wtx ∧ w.Connects wtx a b) a b

/-- Two addresses are linked by a chain of transactions whose first input is the wallet's, each of
which spends from them or pays its change to them. -/
def GroupedByOwn (a b : CTxDestination) : Prop :=
  Relation.TransGen (fun a b => ∃ hash wtx, w.mapWallet.lookup hash = some wtx ∧ w.ownsFirst wtx = true ∧
    a ∈ w.spentFrom wtx.tx.vin ∪ w.changeTo wtx.tx.vout ∧
      b ∈ w.spentFrom wtx.tx.vin ∪ w.changeTo wtx.tx.vout) a b

/-! ## The call -/

section Call

variable (adjustedTime : Nat)

/-- `mapWallet[hash]`, which makes an entry where there is none. -/
def entryAt (hash : Uint256) : CWalletTx × CWallet :=
  match w.mapWallet.lookup hash with
  | some wtx => (wtx, w)
  | none => (.new adjustedTime, w.setTx hash (.new adjustedTime))

/-- The addresses of the inputs are put into `grouping`; `none` if an output is read that is not
there. -/
def groupInputs : List CTxIn → Finset CTxDestination → CWallet → Option (Finset CTxDestination) × CWallet
  | [], grouping, w => (some grouping, w)
  | txin :: vin, grouping, w =>
    let (prev, w) := w.entryAt adjustedTime txin.prevout.hash
    match prev.tx.vout[txin.prevout.n]? with
    | none => (none, w)
    | some txout =>
      match w.destination txout with
      | none => groupInputs vin grouping w
      | some address => groupInputs vin (insert address grouping) w

/-- The addresses of the change are put into `grouping`. -/
def groupChange (first : CTxIn) : List CTxOut → Finset CTxDestination → CWallet →
    Finset CTxDestination × CWallet
  | [], grouping, w => (grouping, w)
  | txout :: vout, grouping, w =>
    if w.isChange txout then
      let w := (w.entryAt adjustedTime first.prevout.hash).2
      match w.destination txout with
      | none => groupChange first vout grouping w
      | some address => groupChange first vout (insert address grouping) w
    else groupChange first vout grouping w

/-- Each own address is a group. -/
def groupLone (groupings : Finset (Finset CTxDestination)) (txout : CTxOut) :
    Finset (Finset CTxDestination) :=
  if w.keys.isMine txout.scriptPubKey then
    match w.destination txout with
    | none => groupings
    | some address => insert {address} groupings
  else groupings

/-- The group of a transaction whose first input is the wallet's. -/
def scanInputs (wtx : CWalletTx) (groupings : Finset (Finset CTxDestination)) (w : CWallet) :
    Option (Finset (Finset CTxDestination)) × CWallet :=
  match wtx.tx.vin with
  | [] => (some groupings, w)
  | first :: vin =>
    if (w.ownOutput first).isSome then
      match groupInputs adjustedTime (first :: vin) ∅ w with
      | (none, w) => (none, w)
      | (some grouping, w) =>
        let (grouping, w) := groupChange adjustedTime first wtx.tx.vout grouping w
        (some (insert grouping groupings), w)
    else (some groupings, w)

/-- The groups of the transactions. An entry that is made on the way has no outputs, so that the
reading of it ends the loop. -/
def scan : List (Uint256 × CWalletTx) → Finset (Finset CTxDestination) → CWallet →
    Option (Finset (Finset CTxDestination)) × CWallet
  | [], groupings, w => (some groupings, w)
  | (_, wtx) :: entries, groupings, w =>
    match scanInputs adjustedTime wtx groupings w with
    | (none, w) => (none, w)
    | (some groupings, w) => scan entries (wtx.tx.vout.foldl w.groupLone groupings) w

/-- **`GetAddressGroupings`**, with the wallet that it leaves; `none` if it reads what is not there. -/
def getAddressGroupings : Option (Finset (Finset CTxDestination)) × CWallet :=
  match scan adjustedTime w.entriesByHash ∅ w with
  | (none, w) => (none, w)
  | (some groupings, w) => (Groups.mergeAll groupings, w)

end Call

/-! ## What the scan finds -/

section Spec

variable {w : CWallet} {adjustedTime : Nat}

theorem entryAt_of_lookup {hash : Uint256} {wtx : CWalletTx} (h : w.mapWallet.lookup hash = some wtx) :
    w.entryAt adjustedTime hash = (wtx, w) := by
  rw [entryAt, h]

/-- Only an entry that is there has an output. -/
theorem prevOutput_eq (txin : CTxIn) :
    w.prevOutput txin =
      (w.entryAt adjustedTime txin.prevout.hash).1.tx.vout[txin.prevout.n]? := by
  rw [prevOutput, entryAt]
  cases w.mapWallet.lookup txin.prevout.hash with
  | some wtx => rfl
  | none => rfl

theorem snd_entryAt {txin : CTxIn} {txout : CTxOut} (h : w.prevOutput txin = some txout) :
    (w.entryAt adjustedTime txin.prevout.hash).2 = w := by
  obtain ⟨prev, hprev, -⟩ := Option.bind_eq_some_iff.1 h
  rw [entryAt_of_lookup hprev]

theorem mem_spentFrom {vin : List CTxIn} {a : CTxDestination} :
    a ∈ w.spentFrom vin ↔ ∃ txin ∈ vin, (w.prevOutput txin).bind w.destination = some a := by
  rw [spentFrom, List.mem_toFinset, List.mem_filterMap]

theorem spentFrom_cons (txin : CTxIn) (vin : List CTxIn) :
    w.spentFrom (txin :: vin) =
      ((w.prevOutput txin).bind w.destination).toFinset ∪ w.spentFrom vin := by
  ext a
  rw [mem_spentFrom, Finset.mem_union, mem_spentFrom, Option.mem_toFinset, Option.mem_def,
    List.exists_mem_cons_iff]

/-- The addresses of the inputs are found if all outputs they spend are there. -/
theorem groupInputs_eq {vin : List CTxIn} (h : ∀ txin ∈ vin, (w.prevOutput txin).isSome)
    (grouping : Finset CTxDestination) :
    groupInputs adjustedTime vin grouping w = (some (grouping ∪ w.spentFrom vin), w) := by
  induction vin generalizing grouping with
  | nil => simp [groupInputs, spentFrom]
  | cons txin vin ih =>
    obtain ⟨txout, htxout⟩ := Option.isSome_iff_exists.1 (h txin List.mem_cons_self)
    have hrest := ih fun txin' hmem => h txin' (List.mem_cons_of_mem _ hmem)
    have hentry := @prevOutput_eq w adjustedTime txin
    rw [htxout] at hentry
    rw [groupInputs, spentFrom_cons, htxout, Option.bind_some]
    dsimp only
    rw [← hentry, snd_entryAt htxout]
    cases hdest : w.destination txout with
    | none => simp [hdest, hrest]
    | some a =>
      simp only [hdest, hrest, Option.toFinset_some]
      congr 2
      rw [Finset.insert_union, Finset.union_left_comm, Finset.insert_eq]

/-- Else an output is read that is not there. -/
theorem groupInputs_eq_none {vin : List CTxIn} (h : ∃ txin ∈ vin, w.prevOutput txin = none)
    (grouping : Finset CTxDestination) : (groupInputs adjustedTime vin grouping w).1 = none := by
  induction vin generalizing grouping with
  | nil => simp at h
  | cons txin vin ih =>
    have hentry := @prevOutput_eq w adjustedTime txin
    rw [groupInputs]
    dsimp only
    cases hprev : w.prevOutput txin with
    | none => rw [← hentry, hprev]
    | some txout =>
      have hrest : ∃ txin ∈ vin, w.prevOutput txin = none := by
        obtain ⟨txin', hmem, hnone⟩ := h
        rcases List.mem_cons.1 hmem with rfl | hmem
        · rw [hprev] at hnone
          cases hnone
        · exact ⟨txin', hmem, hnone⟩
      rw [← hentry, hprev, snd_entryAt hprev]
      dsimp only
      split
      · exact ih hrest _
      · exact ih hrest _

theorem groupChange_eq {first : CTxIn} {txout : CTxOut} (h : w.prevOutput first = some txout)
    (vout : List CTxOut) (grouping : Finset CTxDestination) :
    groupChange adjustedTime first vout grouping w = (grouping ∪ w.changeTo vout, w) := by
  induction vout generalizing grouping with
  | nil => simp [groupChange, changeTo]
  | cons out vout ih =>
    rw [groupChange, changeTo, List.filter_cons]
    split
    · rw [snd_entryAt h, List.filterMap_cons]
      dsimp only
      cases hdest : w.destination out with
      | none => exact ih grouping
      | some a =>
        refine (ih _).trans ?_
        rw [List.toFinset_cons, Finset.union_insert, Finset.insert_union, changeTo]
    · exact ih grouping

theorem foldl_groupLone (vout : List CTxOut) (groupings : Finset (Finset CTxDestination)) :
    vout.foldl w.groupLone groupings = groupings ∪ (w.paidTo vout).image fun a => {a} := by
  induction vout generalizing groupings with
  | nil => simp [paidTo]
  | cons out vout ih =>
    rw [List.foldl_cons, ih, groupLone, paidTo, paidTo, List.filter_cons]
    split
    · rw [List.filterMap_cons]
      cases w.destination out with
      | none => rfl
      | some a => rw [List.toFinset_cons, Finset.image_insert, Finset.union_insert, Finset.insert_union]
    · rfl

/-- The group of a transaction, if it has one. -/
theorem scanInputs_eq {wtx : CWalletTx}
    (h : w.ownsFirst wtx = true → ∀ txin ∈ wtx.tx.vin, (w.prevOutput txin).isSome)
    (groupings : Finset (Finset CTxDestination)) :
    scanInputs adjustedTime wtx groupings w =
      (some (if w.ownsFirst wtx then
        insert (w.spentFrom wtx.tx.vin ∪ w.changeTo wtx.tx.vout) groupings else groupings), w) := by
  rw [ownsFirst] at h ⊢
  rw [scanInputs]
  cases hvin : wtx.tx.vin with
  | nil => simp
  | cons first vin =>
    simp only [hvin, List.head?_cons, Option.any_some] at h ⊢
    by_cases hown : (w.ownOutput first).isSome = true
    · obtain ⟨txout, htxout⟩ := Option.isSome_iff_exists.1 (h hown first List.mem_cons_self)
      simp only [hown, if_true, groupInputs_eq (h hown), groupChange_eq htxout, Finset.empty_union]
    · rw [Bool.not_eq_true] at hown
      simp only [hown, Bool.false_eq_true, if_false]

theorem scanInputs_eq_none {wtx : CWalletTx} (hown : w.ownsFirst wtx = true)
    (h : ∃ txin ∈ wtx.tx.vin, w.prevOutput txin = none) (groupings : Finset (Finset CTxDestination)) :
    (scanInputs adjustedTime wtx groupings w).1 = none := by
  rw [ownsFirst] at hown
  rw [scanInputs]
  cases hvin : wtx.tx.vin with
  | nil => simp [hvin] at h
  | cons first vin =>
    rw [hvin, List.head?_cons, Option.any_some] at hown
    rw [hvin] at h
    dsimp only
    rw [if_pos hown]
    have hnone : (groupInputs adjustedTime (first :: vin) ∅ w).1 = none := groupInputs_eq_none h ∅
    split
    · rfl
    · next heq =>
      rw [heq] at hnone
      cases hnone

/-- Every transaction whose first input is the wallet's spends outputs that the wallet has. -/
def PrevKnown (w : CWallet) (wtx : CWalletTx) : Prop :=
  w.ownsFirst wtx = true → ∀ txin ∈ wtx.tx.vin, (w.prevOutput txin).isSome

/-- **The groups that the scan finds.** -/
theorem scan_spec {entries : List (Uint256 × CWalletTx)} (h : ∀ entry ∈ entries, w.PrevKnown entry.2)
    (groupings : Finset (Finset CTxDestination)) :
    ∃ groupings', scan adjustedTime entries groupings w = (some groupings', w) ∧
      ∀ g, g ∈ groupings' ↔ g ∈ groupings ∨ ∃ entry ∈ entries,
        (w.ownsFirst entry.2 = true ∧ g = w.spentFrom entry.2.tx.vin ∪ w.changeTo entry.2.tx.vout) ∨
          ∃ a ∈ w.paidTo entry.2.tx.vout, g = {a} := by
  induction entries generalizing groupings with
  | nil => exact ⟨groupings, rfl, by simp⟩
  | cons entry entries ih =>
    have hentry := h entry List.mem_cons_self
    rw [scan, scanInputs_eq hentry]
    dsimp only
    rw [foldl_groupLone]
    obtain ⟨groupings', heq, hmem⟩ := ih (fun entry' he => h entry' (List.mem_cons_of_mem _ he)) _
    refine ⟨groupings', heq, fun g => ?_⟩
    rw [hmem, List.exists_mem_cons_iff, ← or_assoc]
    refine or_congr_left ?_
    rw [Finset.mem_union, Finset.mem_image]
    have hlone : (∃ a ∈ w.paidTo entry.2.tx.vout, {a} = g) ↔
        ∃ a ∈ w.paidTo entry.2.tx.vout, g = {a} := by simp only [eq_comm]
    rw [hlone]
    cases w.ownsFirst entry.2 with
    | false => simp
    | true =>
      simp only [if_true, Finset.mem_insert, true_and]
      tauto

theorem scan_eq_none {entries : List (Uint256 × CWalletTx)}
    (h : ¬∀ entry ∈ entries, w.PrevKnown entry.2) (groupings : Finset (Finset CTxDestination)) :
    (scan adjustedTime entries groupings w).1 = none := by
  induction entries generalizing groupings with
  | nil => simp at h
  | cons entry entries ih =>
    rw [scan]
    by_cases hentry : w.PrevKnown entry.2
    · rw [scanInputs_eq hentry]
      refine ih (fun hall => h fun entry' hmem => ?_) _
      rcases List.mem_cons.1 hmem with rfl | hmem
      · exact hentry
      · exact hall entry' hmem
    · simp only [PrevKnown, Classical.not_imp, not_forall, Option.isSome_iff_ne_none, not_not] at hentry
      obtain ⟨hown, txin, hmem, hnone⟩ := hentry
      have hfail : (scanInputs adjustedTime entry.2 groupings w).1 = none :=
        scanInputs_eq_none hown ⟨txin, hmem, hnone⟩ groupings
      split
      · rfl
      · next heq =>
        rw [heq] at hfail
        cases hfail

end Spec

/-! ## When the groups are what transactions connect -/

/-- **A wallet whose links its groups show**. -/
structure LinksGrouped (w : CWallet) : Prop where
  /-- A transaction whose first input is the wallet's spends outputs that the wallet has. -/
  known : ∀ hash wtx, w.mapWallet.lookup hash = some wtx → w.PrevKnown wtx
  /-- It has an address. -/
  address : ∀ hash wtx, w.mapWallet.lookup hash = some wtx → w.ownsFirst wtx = true →
    w.spentFrom wtx.tx.vin = ∅ → w.changeTo wtx.tx.vout ≠ ∅
  /-- If it spends from none, then what its change is paid to is linked otherwise. -/
  change : ∀ hash wtx, w.mapWallet.lookup hash = some wtx → w.ownsFirst wtx = true →
    w.spentFrom wtx.tx.vin = ∅ → ∀ a ∈ w.changeTo wtx.tx.vout, ∀ b ∈ w.changeTo wtx.tx.vout, a ≠ b →
      w.Linked a b
  /-- What the other transactions connect is linked otherwise. -/
  others : ∀ hash wtx, w.mapWallet.lookup hash = some wtx → w.ownsFirst wtx = false →
    ∀ a b, w.Connects wtx a b → a ≠ b → w.GroupedByOwn a b

/-- What is asked of the groups: nothing is read that is not there and the wallet stays as it is, and
the groups are a partition by links. -/
def GroupsLinked (w : CWallet) (adjustedTime : Nat) : Prop :=
  ∃ ret, w.getAddressGroupings adjustedTime = (some ret, w) ∧ (∀ g ∈ ret, g.Nonempty) ∧
    (∀ g ∈ ret, ∀ g' ∈ ret, g ≠ g' → Disjoint g g') ∧
      ∀ a b, a ≠ b → ((∃ g ∈ ret, a ∈ g ∧ b ∈ g) ↔ w.Linked a b)

section Links

variable {w : CWallet} {groupings : Finset (Finset CTxDestination)} {a b : CTxDestination}

/-- The groupings of a wallet. -/
def IsScan (w : CWallet) (groupings : Finset (Finset CTxDestination)) : Prop :=
  ∀ g, g ∈ groupings ↔ ∃ hash wtx, w.mapWallet.lookup hash = some wtx ∧
    ((w.ownsFirst wtx = true ∧ g = w.spentFrom wtx.tx.vin ∪ w.changeTo wtx.tx.vout) ∨
      ∃ a ∈ w.paidTo wtx.tx.vout, g = {a})

/-- What is returned for a wallet whose transactions spend what it has. -/
theorem getAddressGroupings_spec {adjustedTime : Nat}
    (h : ∀ hash wtx, w.mapWallet.lookup hash = some wtx → w.PrevKnown wtx) :
    ∃ groupings ret, w.getAddressGroupings adjustedTime = (some ret, w) ∧ w.IsScan groupings ∧
      Coalesce.Coalesced groupings ret := by
  obtain ⟨groupings, hscan, hmem⟩ := @scan_spec w adjustedTime w.entriesByHash
    (fun entry hentry => h entry.1 entry.2 (mem_entriesByHash.1 hentry)) ∅
  obtain ⟨ret, hret, hcoalesced⟩ := Groups.mergeAll_spec groupings
  refine ⟨groupings, ret, ?_, fun g => ?_, hcoalesced⟩
  · rw [getAddressGroupings, hscan]
    dsimp only
    rw [hret]
  · rw [hmem]
    simp only [Finset.notMem_empty, false_or, Prod.exists, mem_entriesByHash]

theorem known_of_getAddressGroupings {adjustedTime : Nat} {ret : Finset (Finset CTxDestination)}
    (h : w.getAddressGroupings adjustedTime = (some ret, w)) :
    ∀ hash wtx, w.mapWallet.lookup hash = some wtx → w.PrevKnown wtx := by
  intro hash wtx hlookup
  by_contra hunknown
  have hfail : (scan adjustedTime w.entriesByHash ∅ w).1 = none := scan_eq_none
    (fun hall => hunknown (hall (hash, wtx) (mem_entriesByHash.2 hlookup))) ∅
  rw [getAddressGroupings] at h
  split at h
  · cases h
  · next heq =>
    rw [heq] at hfail
    cases hfail

/-- Two addresses that the scan puts together are those of one transaction. -/
theorem IsScan.groupedByOwn_iff (h : w.IsScan groupings) (hab : a ≠ b) :
    Relation.TransGen (Coalesce.Together groupings) a b ↔ w.GroupedByOwn a b := by
  constructor
  · intro hchain
    refine (Coalesce.eq_or_transGen (fun a b hstep => ?_) hchain).resolve_left hab
    obtain ⟨g, hg, ha, hb⟩ := hstep
    obtain ⟨hash, wtx, hlookup, ⟨hown, rfl⟩ | ⟨c, -, rfl⟩⟩ := (h g).1 hg
    · exact .inr (.single ⟨hash, wtx, hlookup, hown, ha, hb⟩)
    · exact .inl ((Finset.mem_singleton.1 ha).trans (Finset.mem_singleton.1 hb).symm)
  · refine fun hchain => Relation.TransGen.mono (fun a b hstep => ?_) _ _ hchain
    obtain ⟨hash, wtx, hlookup, hown, ha, hb⟩ := hstep
    exact ⟨_, (h _).2 ⟨hash, wtx, hlookup, .inl ⟨hown, rfl⟩⟩, ha, hb⟩

/-- Where nothing else links them, the addresses of one transaction are what it connects. -/
theorem LinksGrouped.linked_iff (h : w.LinksGrouped) (hab : a ≠ b) :
    w.GroupedByOwn a b ↔ w.Linked a b := by
  constructor
  · intro hchain
    refine (Coalesce.eq_or_transGen (fun a b hstep => ?_) hchain).resolve_left hab
    obtain ⟨hash, wtx, hlookup, hown, ha, hb⟩ := hstep
    rw [Finset.mem_union] at ha hb
    rcases ha with ha | ha
    · rcases hb with hb | hb
      · exact .inr (.single ⟨hash, wtx, hlookup, .inl ⟨ha, hb⟩⟩)
      · exact .inr (.single ⟨hash, wtx, hlookup, .inr (.inl ⟨ha, hb⟩)⟩)
    · rcases hb with hb | hb
      · exact .inr (.single ⟨hash, wtx, hlookup, .inr (.inr ⟨ha, hb⟩)⟩)
      · -- both are paid change, by way of an address that is spent from
        rcases (w.spentFrom wtx.tx.vin).eq_empty_or_nonempty with hspent | ⟨c, hc⟩
        · by_cases heq : a = b
          · exact .inl heq
          · exact .inr (h.change hash wtx hlookup hown hspent a ha b hb heq)
        · exact .inr (.tail (.single ⟨hash, wtx, hlookup, .inr (.inr ⟨ha, hc⟩)⟩)
            ⟨hash, wtx, hlookup, .inr (.inl ⟨hc, hb⟩)⟩)
  · intro hchain
    refine (Coalesce.eq_or_transGen (fun a b hstep => ?_) hchain).resolve_left hab
    obtain ⟨hash, wtx, hlookup, hconnects⟩ := hstep
    cases hown : w.ownsFirst wtx with
    | false =>
      by_cases heq : a = b
      · exact .inl heq
      · exact .inr (h.others hash wtx hlookup hown a b hconnects heq)
    | true =>
      refine .inr (.single ⟨hash, wtx, hlookup, hown, ?_⟩)
      simp only [Finset.mem_union]
      rcases hconnects with ⟨ha, hb⟩ | ⟨ha, hb⟩ | ⟨ha, hb⟩
      · exact ⟨.inl ha, .inl hb⟩
      · exact ⟨.inl ha, .inr hb⟩
      · exact ⟨.inr ha, .inl hb⟩

end Links

/-- **When the groups are what transactions connect.** -/
theorem getAddressGroupings_iff (w : CWallet) (adjustedTime : Nat) :
    w.GroupsLinked adjustedTime ↔ w.LinksGrouped := by
  constructor
  · rintro ⟨ret, hret, hnonempty, -, hlinked⟩
    have hknown := known_of_getAddressGroupings hret
    obtain ⟨groupings, ret', hret', hscan, hcoalesced⟩ := @getAddressGroupings_spec w adjustedTime hknown
    obtain rfl : ret = ret' := Option.some.inj (congrArg Prod.fst (hret.symm.trans hret'))
    have hgrouped : ∀ a b, a ≠ b → (w.GroupedByOwn a b ↔ w.Linked a b) := fun a b hab =>
      (hscan.groupedByOwn_iff hab).symm.trans ((hcoalesced.together a b).symm.trans (hlinked a b hab))
    refine ⟨hknown, fun hash wtx hlookup hown hspent hchange => ?_,
      fun hash wtx hlookup hown _ a ha b hb hab => ?_,
      fun hash wtx hlookup hown a b hconnects hab => ?_⟩
    · -- its group would be empty
      have hempty : ∅ ∈ groupings := (hscan ∅).2
        ⟨hash, wtx, hlookup, .inl ⟨hown, by rw [hspent, hchange, Finset.empty_union]⟩⟩
      exact Finset.not_nonempty_empty (hnonempty ∅ (hcoalesced.empty_mem.2 hempty))
    · exact (hgrouped a b hab).1 (.single ⟨hash, wtx, hlookup, hown, Finset.mem_union_right _ ha,
        Finset.mem_union_right _ hb⟩)
    · exact (hgrouped a b hab).2 (.single ⟨hash, wtx, hlookup, hconnects⟩)
  · intro h
    obtain ⟨groupings, ret, hret, hscan, hcoalesced⟩ := @getAddressGroupings_spec w adjustedTime h.known
    refine ⟨ret, hret, fun g hg => ?_, fun g hg g' hg' hne => ?_, fun a b hab => ?_⟩
    · rw [Finset.nonempty_iff_ne_empty]
      rintro rfl
      obtain ⟨hash, wtx, hlookup, ⟨hown, hempty⟩ | ⟨a, -, hempty⟩⟩ :=
        (hscan ∅).1 (hcoalesced.empty_mem.1 hg)
      · obtain ⟨hspent, hchange⟩ := Finset.union_eq_empty.1 hempty.symm
        exact h.address hash wtx hlookup hown hspent hchange
      · exact Finset.singleton_ne_empty a hempty.symm
    · exact Finset.disjoint_left.2 fun a ha ha' => hne (hcoalesced.apart g hg g' hg' a ha ha')
    · exact (hcoalesced.together a b).trans ((hscan.groupedByOwn_iff hab).trans (h.linked_iff hab))

end CWallet

/-! ## A payment that is shared -/

/-- The wallet and somebody else pay for something together. -/
def sharedTx : CTransaction :=
  ⟨1, 1100, [⟨⟨1, 0⟩, [], 4294967295⟩, ⟨⟨9, 0⟩, [], 4294967295⟩], [⟨60000, []⟩], 0⟩

/-- The wallet does not have the transaction that paid the other one. -/
def sharingWallet : CWallet :=
  { newWallet with
    mapWallet := AList.insert 2 (CWalletTx.ofTx sharedTx) (AList.insert 1 (CWalletTx.ofTx incomeTx) ∅) }

/-- The call makes an empty entry for that transaction and reads an output of it. -/
theorem not_groupsLinked_shared :
    ¬∀ (w : CWallet) (adjustedTime : Nat), w.GroupsLinked adjustedTime := by
  intro hall
  obtain ⟨ret, hret, -⟩ := hall sharingWallet 1300
  have hfail : (sharingWallet.getAddressGroupings 1300).1.isNone = true := by decide +kernel
  rw [hret] at hfail
  cases hfail

end MotaCoin
