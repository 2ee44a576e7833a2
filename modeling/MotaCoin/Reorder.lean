import MotaCoin.Lib.Renumber
import MotaCoin.SpentFlags
import MotaCoin.TxListing

/-!
# Positions of old items

`ReorderTransactions` gives a position to the transactions and accounting entries that have none, in
the order of their times, and moves the others.

## Main definitions

* `TxItem`: an item with where it is kept
* `reorderTransactions`: the call
* `ReorderLaw`: what is asked of the positions

## Main results

* `reorder_spec`: the positions after the call
* `reorderLaw_iff`: when they are in order
-/

namespace MotaCoin

/-- `DBErrors`. -/
inductive DBErrors where
  | loadOK
  | corrupt
  | noncriticalError
  | tooNew
  | loadFail
  | needRewrite
  deriving DecidableEq

/-! ## Items -/

/-- A transaction of `mapWallet` with its hash, or an accounting entry. -/
abbrev TxItem := (Uint256 × CWalletTx) ⊕ CAccountingItem

/-- Where an item is kept: the hash of a transaction, or the account of an entry with its number. -/
abbrev ItemKey := Uint256 ⊕ (String × Nat)

namespace TxItem

def nOrderPos : TxItem → Int
  | .inl (_, wtx) => wtx.nOrderPos
  | .inr entry => entry.nOrderPos

def time : TxItem → Int
  | .inl (_, wtx) => wtx.nTimeReceived
  | .inr entry => entry.nTime

def key : TxItem → ItemKey
  | .inl (hash, _) => .inl hash
  | .inr entry => .inr (entry.strAccount, entry.nEntryNo)

/-- The item with another position. -/
def withPos (pos : Int) : TxItem → TxItem
  | .inl (hash, wtx) => .inl (hash, { wtx with nOrderPos := pos })
  | .inr entry => .inr { entry with nOrderPos := pos }

end TxItem

/-- The wallet and the accounting entries of its database, with `nOrderPosOffsets`. -/
structure ReorderState where
  wallet : CWallet
  acentries : List CAccountingItem
  nOrderPosOffsets : List Int

namespace ReorderState

/-- The position of what is kept under a key. -/
def posOf (st : ReorderState) : ItemKey → Option Int
  | .inl hash => (st.wallet.mapWallet.lookup hash).map CWalletTx.nOrderPos
  | .inr key => (st.acentries.find? fun entry => (entry.strAccount, entry.nEntryNo) = key).map
      CAccountingItem.nOrderPos

/-- `nOrderPos` refers to a transaction of the wallet, or to an entry that was read. -/
def assign (st : ReorderState) : TxItem → ReorderState
  | .inl (hash, wtx) => { st with wallet := st.wallet.setTx hash wtx }
  | .inr _ => st

/-- `WriteTx` or `WriteAccountingEntry`. -/
def write (st : ReorderState) : TxItem → ReorderState
  | .inl _ => st
  | .inr acentry => { st with
      acentries := st.acentries.map fun entry =>
        if (entry.strAccount, entry.nEntryNo) = (acentry.strAccount, acentry.nEntryNo) then acentry
        else entry }

end ReorderState

/-! ## The call -/

/-- `txByTime`: a multimap, where items with one time are in the order of insertion. -/
def txByTime (w : CWallet) (acentries : List CAccountingItem) : List TxItem :=
  (w.entriesByHash.map Sum.inl ++ (listAccountItems acentries "").map Sum.inr).insertionSort
    fun item₁ item₂ => item₁.time ≤ item₂.time

variable (writes : TxItem → Bool)

/-- An item gets its position; `writes` says which records can be written. -/
def reorderItem (st : ReorderState) (item : TxItem) : DBErrors × ReorderState :=
  let nOrderPosNext := st.wallet.nOrderPosNext
  if item.nOrderPos = -1 then
    let item := item.withPos nOrderPosNext
    let st := st.assign item
    let st := { st with
      wallet := { st.wallet with nOrderPosNext := Int64.wrap (nOrderPosNext + 1) }
      nOrderPosOffsets := st.nOrderPosOffsets ++ [nOrderPosNext] }
    match item with
    | .inl _ => (.loadOK, st)
    | .inr _ => if writes item then (.loadOK, st.write item) else (.loadFail, st)
  else
    let nOrderPosOff : Int :=
      st.nOrderPosOffsets.countP fun nOffsetStart => nOffsetStart ≤ item.nOrderPos
    let item := item.withPos (Int64.wrap (item.nOrderPos + nOrderPosOff))
    let st := st.assign item
    let st := { st with
      wallet := { st.wallet with
        nOrderPosNext := max nOrderPosNext (Int64.wrap (item.nOrderPos + 1)) } }
    if nOrderPosOff = 0 then (.loadOK, st)
    else if writes item then (.loadOK, st.write item)
    else (.loadFail, st)

/-- The loop, which ends when a record cannot be written. -/
def reorderItems : List TxItem → ReorderState → DBErrors × ReorderState
  | [], st => (.loadOK, st)
  | item :: items, st =>
    let (result, st) := reorderItem writes st item
    if result = .loadOK then reorderItems items st else (result, st)

/-- **`ReorderTransactions`.** -/
def reorderTransactions (w : CWallet) (acentries : List CAccountingItem) : DBErrors × ReorderState :=
  reorderItems writes (txByTime w acentries) ⟨{ w with nOrderPosNext := 0 }, acentries, []⟩

/-! ## What is asked of the positions -/

/-- Before the call: each record is there once, and positions are `int64_t` and distinct, or `-1`. -/
structure Numbered (st : ReorderState) : Prop where
  keys : (st.acentries.map fun entry => (entry.strAccount, entry.nEntryNo)).Nodup
  range : ∀ key p, st.posOf key = some p → Int64.InRange p
  distinct : ∀ key key' p, st.posOf key = some p → st.posOf key' = some p → p ≠ -1 → key = key'

/-- **The law of the positions**: all are in range and distinct, and those that were there keep their
order. -/
structure ReorderLaw (st st' : ReorderState) : Prop where
  range : ∀ key q, st'.posOf key = some q → 0 ≤ q ∧ q < st'.wallet.nOrderPosNext
  distinct : ∀ key key' q, st'.posOf key = some q → st'.posOf key' = some q → key = key'
  order : ∀ key key' p p' q q', st.posOf key = some p → p ≠ -1 → st.posOf key' = some p' → p' ≠ -1 →
    p < p' → st'.posOf key = some q → st'.posOf key' = some q' → q < q'

/-! ## One item -/

namespace ReorderState

/-- What the numbers of the next items depend on. -/
def numbers (st : ReorderState) : Renumber.St := ⟨st.wallet.nOrderPosNext, st.nOrderPosOffsets⟩

@[simp] theorem posOf_numbers (st : ReorderState) (n : Int) (offsets : List Int) (key : ItemKey) :
    ReorderState.posOf { st with
      wallet := { st.wallet with nOrderPosNext := n }
      nOrderPosOffsets := offsets } key = st.posOf key := by
  cases key <;> rfl

theorem posOf_assign_inl (st : ReorderState) (hash : Uint256) (wtx : CWalletTx) (key : ItemKey) :
    (st.assign (.inl (hash, wtx))).posOf key =
      if key = .inl hash then some wtx.nOrderPos else st.posOf key := by
  cases key with
  | inl hash' =>
    by_cases hsame : hash' = hash
    · subst hsame
      simp [posOf, assign, CWallet.setTx]
    · simp [posOf, assign, CWallet.setTx, AList.lookup_insert_ne hsame, hsame]
  | inr key' => rfl

/-- Writing a record leaves the others. -/
theorem find_write_of_ne (acentries : List CAccountingItem) (acentry : CAccountingItem)
    {key : String × Nat} (hkey : key ≠ (acentry.strAccount, acentry.nEntryNo)) :
    (acentries.map fun entry =>
        if (entry.strAccount, entry.nEntryNo) = (acentry.strAccount, acentry.nEntryNo) then acentry
        else entry).find? (fun entry => (entry.strAccount, entry.nEntryNo) = key) =
      acentries.find? fun entry => (entry.strAccount, entry.nEntryNo) = key := by
  induction acentries with
  | nil => rfl
  | cons entry acentries ih =>
    rw [List.map_cons, List.find?_cons, List.find?_cons, ih]
    by_cases hsame : (entry.strAccount, entry.nEntryNo) = (acentry.strAccount, acentry.nEntryNo)
    · rw [if_pos hsame, hsame, decide_eq_false (Ne.symm hkey)]
    · rw [if_neg hsame]

/-- A record that is there is written. -/
theorem find_write_self (acentries : List CAccountingItem) (acentry : CAccountingItem)
    (hmem : ∃ entry ∈ acentries,
      (entry.strAccount, entry.nEntryNo) = (acentry.strAccount, acentry.nEntryNo)) :
    (acentries.map fun entry =>
        if (entry.strAccount, entry.nEntryNo) = (acentry.strAccount, acentry.nEntryNo) then acentry
        else entry).find? (fun entry =>
          (entry.strAccount, entry.nEntryNo) = (acentry.strAccount, acentry.nEntryNo)) =
      some acentry := by
  induction acentries with
  | nil => simp at hmem
  | cons entry acentries ih =>
    rw [List.map_cons, List.find?_cons]
    by_cases hsame : (entry.strAccount, entry.nEntryNo) = (acentry.strAccount, acentry.nEntryNo)
    · simp [hsame]
    · have hrest : ∃ entry ∈ acentries,
          (entry.strAccount, entry.nEntryNo) = (acentry.strAccount, acentry.nEntryNo) := by
        obtain ⟨entry', hentry', heq⟩ := hmem
        rcases List.mem_cons.1 hentry' with rfl | hentry'
        · exact absurd heq hsame
        · exact ⟨entry', hentry', heq⟩
      rw [if_neg hsame, decide_eq_false hsame]
      exact ih hrest

theorem posOf_write_inr (st : ReorderState) (acentry : CAccountingItem) {p : Int}
    (hp : st.posOf (.inr (acentry.strAccount, acentry.nEntryNo)) = some p) (key : ItemKey) :
    (st.write (.inr acentry)).posOf key =
      if key = .inr (acentry.strAccount, acentry.nEntryNo) then some acentry.nOrderPos
      else st.posOf key := by
  cases key with
  | inl hash => rfl
  | inr key =>
    by_cases hkey : key = (acentry.strAccount, acentry.nEntryNo)
    · subst hkey
      obtain ⟨entry, hentry, -⟩ := Option.map_eq_some_iff.1 hp
      have hmem := List.mem_of_find?_eq_some hentry
      have hsame := List.find?_some hentry
      rw [if_pos rfl, posOf, write]
      dsimp only
      rw [find_write_self _ _ ⟨entry, hmem, of_decide_eq_true hsame⟩]
      rfl
    · rw [if_neg (fun heq => hkey (Sum.inr.inj heq)), posOf, write, posOf]
      dsimp only
      rw [find_write_of_ne _ _ hkey]

end ReorderState

/-- A transaction gets its place in the wallet, whether or not its record is written. -/
theorem reorderItem_inl {st st' : ReorderState} {hash : Uint256} {wtx : CWalletTx}
    (h : reorderItem writes st (.inl (hash, wtx)) = (.loadOK, st')) :
    st' = { st.assign (.inl (hash, { wtx with nOrderPos := st.numbers.place wtx.nOrderPos })) with
      wallet := { (st.assign (.inl (hash,
        { wtx with nOrderPos := st.numbers.place wtx.nOrderPos }))).wallet with
          nOrderPosNext := (st.numbers.step wtx.nOrderPos).next }
      nOrderPosOffsets := (st.numbers.step wtx.nOrderPos).offsets } := by
  rw [reorderItem] at h
  rw [Renumber.St.step, Renumber.St.place]
  by_cases hnew : wtx.nOrderPos = -1
  · rw [if_pos (show TxItem.nOrderPos (.inl (hash, wtx)) = -1 from hnew)] at h
    rw [if_pos hnew, if_pos hnew]
    exact (Prod.mk.inj h).2.symm
  · rw [if_neg (show ¬TxItem.nOrderPos (.inl (hash, wtx)) = -1 from hnew)] at h
    rw [if_neg hnew, if_neg hnew]
    dsimp only at h
    split at h
    · exact (Prod.mk.inj h).2.symm
    · split at h
      · exact (Prod.mk.inj h).2.symm
      · cases h

/-- An entry gets its place in its record. -/
theorem reorderItem_inr {st st' : ReorderState} {acentry : CAccountingItem}
    (h : reorderItem writes st (.inr acentry) = (.loadOK, st')) (hrange : Int64.InRange acentry.nOrderPos) :
    st'.numbers = st.numbers.step acentry.nOrderPos ∧
      (st'.posOf = (st.write (.inr { acentry with
          nOrderPos := st.numbers.place acentry.nOrderPos })).posOf ∨
        st.numbers.place acentry.nOrderPos = acentry.nOrderPos ∧ st'.posOf = st.posOf) := by
  rw [reorderItem] at h
  rw [Renumber.St.step, Renumber.St.place]
  by_cases hnew : acentry.nOrderPos = -1
  · rw [if_pos (show TxItem.nOrderPos (.inr acentry) = -1 from hnew)] at h
    rw [if_pos hnew, if_pos hnew]
    dsimp only [TxItem.withPos] at h
    split at h
    · obtain rfl := (Prod.mk.inj h).2
      exact ⟨rfl, .inl (by funext key; cases key <;> rfl)⟩
    · cases h
  · rw [if_neg (show ¬TxItem.nOrderPos (.inr acentry) = -1 from hnew)] at h
    rw [if_neg hnew, if_neg hnew]
    dsimp only [TxItem.withPos] at h
    split at h
    · next hoff =>
      -- the record has its place already
      obtain rfl := (Prod.mk.inj h).2
      have hshift : Renumber.shift st.numbers.offsets acentry.nOrderPos = 0 := hoff
      refine ⟨rfl, .inr ⟨?_, by funext key; cases key <;> rfl⟩⟩
      rw [hshift, Int.add_zero, Int64.wrap_eq_self hrange]
    · split at h
      · obtain rfl := (Prod.mk.inj h).2
        exact ⟨rfl, .inl (by funext key; cases key <;> rfl)⟩
      · cases h

/-- **One item gets its place**, and the others keep theirs. -/
theorem reorderItem_spec {st st' : ReorderState} {item : TxItem}
    (hpos : st.posOf item.key = some item.nOrderPos) (hrange : Int64.InRange item.nOrderPos)
    (h : reorderItem writes st item = (.loadOK, st')) :
    st'.numbers = st.numbers.step item.nOrderPos ∧
      ∀ key, st'.posOf key =
        if key = item.key then some (st.numbers.place item.nOrderPos) else st.posOf key := by
  rcases item with ⟨hash, wtx⟩ | acentry
  · obtain rfl := reorderItem_inl writes h
    refine ⟨rfl, fun key => ?_⟩
    rw [ReorderState.posOf_numbers, ReorderState.posOf_assign_inl]
    rfl
  · obtain ⟨hnumbers, hwritten | ⟨hsame, hkept⟩⟩ := reorderItem_inr writes h hrange
    · refine ⟨hnumbers, fun key => ?_⟩
      rw [hwritten]
      exact ReorderState.posOf_write_inr st
        { acentry with nOrderPos := st.numbers.place acentry.nOrderPos } hpos key
    · refine ⟨hnumbers, fun key => ?_⟩
      rw [hkept]
      split
      · next hkey =>
        subst hkey
        rw [hpos]
        exact congrArg some hsame.symm
      · rfl

/-! ## All items -/

/-- **Each item gets its place**, and what is not an item keeps its own. -/
theorem reorderItems_spec {items : List TxItem} {st st' : ReorderState}
    (hkeys : (items.map TxItem.key).Nodup)
    (hpos : ∀ item ∈ items, st.posOf item.key = some item.nOrderPos)
    (hrange : ∀ item ∈ items, Int64.InRange item.nOrderPos)
    (h : reorderItems writes items st = (.loadOK, st')) :
    st'.numbers = Renumber.run st.numbers (items.map TxItem.nOrderPos) ∧
      (∀ x ∈ items.zip (Renumber.places st.numbers (items.map TxItem.nOrderPos)),
        st'.posOf x.1.key = some x.2) ∧
      ∀ key, key ∉ items.map TxItem.key → st'.posOf key = st.posOf key := by
  induction items generalizing st with
  | nil =>
    obtain rfl := (Prod.mk.inj h).2
    exact ⟨rfl, fun x hx => absurd hx (by simp), fun _ _ => rfl⟩
  | cons item items ih =>
    rw [List.map_cons, List.nodup_cons] at hkeys
    rw [reorderItems] at h
    generalize hstep : reorderItem writes st item = result at h
    obtain ⟨err, st₁⟩ := result
    dsimp only at h
    split at h
    · next hok =>
      subst hok
      obtain ⟨hnumbers, hplaces⟩ := reorderItem_spec writes (hpos item List.mem_cons_self)
        (hrange item List.mem_cons_self) hstep
      have hne : ∀ item' ∈ items, item'.key ≠ item.key := fun item' hmem heq =>
        hkeys.1 (heq ▸ List.mem_map_of_mem hmem)
      obtain ⟨hnumbers', hzip, hother⟩ := ih hkeys.2
        (fun item' hmem => by
          rw [hplaces, if_neg (hne item' hmem)]
          exact hpos item' (List.mem_cons_of_mem _ hmem))
        (fun item' hmem => hrange item' (List.mem_cons_of_mem _ hmem)) h
      rw [hnumbers] at hnumbers' hzip
      refine ⟨hnumbers', fun x hx => ?_, fun key hkey => ?_⟩
      · rw [List.map_cons, Renumber.places, List.zip_cons_cons, List.mem_cons] at hx
        rcases hx with rfl | hx
        · dsimp only
          rw [hother _ hkeys.1, hplaces, if_pos rfl]
        · exact hzip x hx
      · rw [List.map_cons, List.mem_cons, not_or] at hkey
        rw [hother key hkey.2, hplaces, if_neg hkey.1]
    · next hfail => exact absurd (Prod.mk.inj h).1 hfail

/-! ## The whole call -/

section Law

variable {w : CWallet} {acentries : List CAccountingItem} {st' : ReorderState}

/-- The wallet and the database before the call. -/
def beforeReorder (w : CWallet) (acentries : List CAccountingItem) : ReorderState :=
  ⟨{ w with nOrderPosNext := 0 }, acentries, []⟩

/-- The old positions, in the order of time. -/
def oldPositions (w : CWallet) (acentries : List CAccountingItem) : List Int :=
  (txByTime w acentries).map TxItem.nOrderPos

theorem mem_txByTime {item : TxItem} :
    item ∈ txByTime w acentries ↔
      (∃ entry ∈ w.entriesByHash, .inl entry = item) ∨
        ∃ acentry ∈ acentries, acentry.strAccount = "" ∧ .inr acentry = item := by
  rw [txByTime, (List.perm_insertionSort _ _).mem_iff, List.mem_append, List.mem_map, List.mem_map]
  simp [listAccountItems, and_assoc]

theorem nodup_keys_txByTime
    (hkeys : (acentries.map fun entry => (entry.strAccount, entry.nEntryNo)).Nodup) :
    ((txByTime w acentries).map TxItem.key).Nodup := by
  have hperm := ((List.perm_insertionSort (fun item₁ item₂ : TxItem => item₁.time ≤ item₂.time)
    (w.entriesByHash.map Sum.inl ++ (listAccountItems acentries "").map Sum.inr)).map TxItem.key)
  rw [txByTime]
  refine hperm.nodup_iff.2 ?_
  rw [List.map_append, List.map_map, List.map_map]
  refine List.Nodup.append ?_ ?_ ?_
  · have hinl : TxItem.key ∘ Sum.inl = Sum.inl ∘ (Prod.fst : Uint256 × CWalletTx → Uint256) := rfl
    rw [hinl, ← List.map_map]
    exact (CWallet.nodup_entriesByHash w).map Sum.inl_injective
  · have hinr : TxItem.key ∘ Sum.inr =
        Sum.inr ∘ fun entry : CAccountingItem => (entry.strAccount, entry.nEntryNo) := rfl
    rw [hinr, ← List.map_map]
    exact (hkeys.sublist (List.filter_sublist.map _)).map Sum.inr_injective
  · intro key hkey hkey'
    obtain ⟨entry, -, rfl⟩ := List.mem_map.1 hkey
    obtain ⟨acentry, -, heq⟩ := List.mem_map.1 hkey'
    cases heq

/-- What is kept under a key is an item, or an entry of another account. -/
theorem posOf_cases {key : ItemKey} {p : Int} (h : (beforeReorder w acentries).posOf key = some p) :
    (∃ item ∈ txByTime w acentries, item.key = key ∧ item.nOrderPos = p) ∨
      ∃ acentry ∈ acentries, acentry.strAccount ≠ "" ∧ key = TxItem.key (.inr acentry) ∧
        acentry.nOrderPos = p := by
  cases key with
  | inl hash =>
    obtain ⟨wtx, hlookup, hp⟩ := Option.map_eq_some_iff.1 h
    exact .inl ⟨.inl (hash, wtx), mem_txByTime.2 (.inl ⟨_, CWallet.mem_entriesByHash.2 hlookup, rfl⟩),
      rfl, hp⟩
  | inr key =>
    obtain ⟨acentry, hfind, hp⟩ := Option.map_eq_some_iff.1 h
    have hmem := List.mem_of_find?_eq_some hfind
    have hfound := List.find?_some hfind
    have hkey : (acentry.strAccount, acentry.nEntryNo) = key := of_decide_eq_true hfound
    by_cases haccount : acentry.strAccount = ""
    · exact .inl ⟨.inr acentry, mem_txByTime.2 (.inr ⟨_, hmem, haccount, rfl⟩), congrArg Sum.inr hkey, hp⟩
    · exact .inr ⟨acentry, hmem, haccount, congrArg Sum.inr hkey.symm, hp⟩

/-- A record is found under its key. -/
theorem find_acentry {acentries : List CAccountingItem}
    (hkeys : (acentries.map fun entry => (entry.strAccount, entry.nEntryNo)).Nodup)
    {acentry : CAccountingItem} (hmem : acentry ∈ acentries) :
    acentries.find? (fun entry => (entry.strAccount, entry.nEntryNo) =
      (acentry.strAccount, acentry.nEntryNo)) = some acentry := by
  induction acentries with
  | nil => cases hmem
  | cons entry acentries ih =>
    rw [List.map_cons, List.nodup_cons] at hkeys
    rw [List.find?_cons]
    rcases List.mem_cons.1 hmem with rfl | hmem
    · rw [decide_eq_true rfl]
    · have hne : (entry.strAccount, entry.nEntryNo) ≠ (acentry.strAccount, acentry.nEntryNo) :=
        fun heq => hkeys.1 (heq ▸ List.mem_map_of_mem hmem)
      rw [decide_eq_false hne]
      exact ih hkeys.2 hmem

/-- Each item is kept under its key. -/
theorem posOf_inr (hkeys : (acentries.map fun entry => (entry.strAccount, entry.nEntryNo)).Nodup)
    {acentry : CAccountingItem} (hmem : acentry ∈ acentries) :
    (beforeReorder w acentries).posOf (TxItem.key (.inr acentry)) = some acentry.nOrderPos :=
  congrArg (Option.map CAccountingItem.nOrderPos) (find_acentry hkeys hmem)

theorem posOf_of_mem (hkeys : (acentries.map fun entry => (entry.strAccount, entry.nEntryNo)).Nodup)
    {item : TxItem} (hmem : item ∈ txByTime w acentries) :
    (beforeReorder w acentries).posOf item.key = some item.nOrderPos := by
  rcases mem_txByTime.1 hmem with ⟨⟨hash, wtx⟩, hentry, rfl⟩ | ⟨acentry, hacentry, -, rfl⟩
  · exact congrArg (Option.map CWalletTx.nOrderPos) (CWallet.mem_entriesByHash.1 hentry)
  · exact posOf_inr hkeys hacentry

/-- The old positions with the new ones. -/
def movedPositions (w : CWallet) (acentries : List CAccountingItem) : List (Int × Int) :=
  (oldPositions w acentries).zip (Renumber.places ⟨0, []⟩ (oldPositions w acentries))

/-- The entries of other accounts, which are not read, are apart from the others all the same. -/
def OthersApart (w : CWallet) (acentries : List CAccountingItem) : Prop :=
  ∀ acentry ∈ acentries, acentry.strAccount ≠ "" →
    0 ≤ acentry.nOrderPos ∧
      acentry.nOrderPos < (Renumber.run ⟨0, []⟩ (oldPositions w acentries)).next ∧
      ∀ x ∈ movedPositions w acentries, x.2 ≠ acentry.nOrderPos ∧
        (x.1 ≠ -1 → x.1 < acentry.nOrderPos → x.2 < acentry.nOrderPos)

/-- **Every position leaves room for what comes before it in time.** -/
structure Roomy (w : CWallet) (acentries : List CAccountingItem) : Prop where
  accounts : ∀ acentry ∈ acentries, acentry.strAccount = ""
  spaced : Renumber.Spaced (oldPositions w acentries)
  bounds : ∀ old ∈ oldPositions w acentries,
    -1 ≤ old ∧ old + (oldPositions w acentries).length + 1 < 2 ^ 63

/-- **The positions after the call.** -/
theorem reorder_spec (h : Numbered (beforeReorder w acentries))
    (hok : reorderTransactions writes w acentries = (.loadOK, st')) :
    st'.wallet.nOrderPosNext = (Renumber.run ⟨0, []⟩ (oldPositions w acentries)).next ∧
      (∀ x ∈ (txByTime w acentries).zip (Renumber.places ⟨0, []⟩ (oldPositions w acentries)),
        st'.posOf x.1.key = some x.2) ∧
      ∀ key, key ∉ (txByTime w acentries).map TxItem.key →
        st'.posOf key = (beforeReorder w acentries).posOf key := by
  have hpos : ∀ item ∈ txByTime w acentries,
      (beforeReorder w acentries).posOf item.key = some item.nOrderPos := fun item hmem =>
    posOf_of_mem h.keys hmem
  obtain ⟨hnumbers, hplaces, hother⟩ := reorderItems_spec writes (nodup_keys_txByTime h.keys) hpos
    (fun item hmem => h.range _ _ (hpos item hmem)) hok
  exact ⟨congrArg Renumber.St.next hnumbers, hplaces, hother⟩

/-- Where each position comes from. -/
theorem posOf_after (h : Numbered (beforeReorder w acentries))
    (hok : reorderTransactions writes w acentries = (.loadOK, st')) {key : ItemKey} {q : Int}
    (hq : st'.posOf key = some q) :
    (∃ x ∈ (txByTime w acentries).zip (Renumber.places ⟨0, []⟩ (oldPositions w acentries)),
        key = x.1.key ∧ q = x.2) ∨
      ∃ acentry ∈ acentries, acentry.strAccount ≠ "" ∧ key = TxItem.key (.inr acentry) ∧
        acentry.nOrderPos = q := by
  obtain ⟨-, hplaces, hother⟩ := reorder_spec writes h hok
  by_cases hmem : key ∈ (txByTime w acentries).map TxItem.key
  · obtain ⟨item, hitem, rfl⟩ := List.mem_map.1 hmem
    obtain ⟨i, hi, rfl⟩ := List.mem_iff_getElem.1 hitem
    have hlen : ((txByTime w acentries).zip
        (Renumber.places ⟨0, []⟩ (oldPositions w acentries))).length = (txByTime w acentries).length := by
      rw [List.length_zip, Renumber.length_places, oldPositions, List.length_map, min_self]
    have hx := List.getElem_mem (h := hlen.symm ▸ hi)
    refine .inl ⟨_, hx, by rw [List.getElem_zip], ?_⟩
    have hplace := hplaces _ hx
    rw [List.getElem_zip] at hplace ⊢
    exact Option.some.inj (hq.symm.trans hplace)
  · rw [hother key hmem] at hq
    rcases posOf_cases hq with ⟨item, hitem, rfl, -⟩ | hacentry
    · exact absurd (List.mem_map_of_mem hitem) hmem
    · exact .inr hacentry

theorem movedPositions_eq :
    movedPositions w acentries =
      ((txByTime w acentries).zip (Renumber.places ⟨0, []⟩ (oldPositions w acentries))).map
        fun x => (x.1.nOrderPos, x.2) := by
  rw [movedPositions]
  nth_rewrite 1 [oldPositions]
  rw [List.zip_map_left]
  rfl

theorem fst_mem_txByTime {x : TxItem × Int}
    (hx : x ∈ (txByTime w acentries).zip (Renumber.places ⟨0, []⟩ (oldPositions w acentries))) :
    x.1 ∈ txByTime w acentries ∧ (x.1.nOrderPos, x.2) ∈ movedPositions w acentries := by
  refine ⟨(List.of_mem_zip hx).1, ?_⟩
  rw [movedPositions_eq]
  exact List.mem_map.2 ⟨x, hx, rfl⟩

/-- An entry of another account is no item. -/
theorem other_notMem {acentry : CAccountingItem} (h : acentry.strAccount ≠ "") :
    TxItem.key (.inr acentry) ∉ (txByTime w acentries).map TxItem.key := by
  intro hmem
  obtain ⟨item, hitem, heq⟩ := List.mem_map.1 hmem
  rcases mem_txByTime.1 hitem with ⟨entry, -, rfl⟩ | ⟨acentry', -, haccount, rfl⟩
  · cases heq
  · exact h ((Prod.mk.inj (Sum.inr.inj heq)).1.symm.trans haccount)

/-- Old positions are distinct. -/
theorem distinct_oldPositions (h : Numbered (beforeReorder w acentries)) :
    (oldPositions w acentries).Pairwise fun p p' => p = p' → p' = -1 := by
  rw [oldPositions, List.pairwise_map]
  have hkeys := List.pairwise_map.1 (nodup_keys_txByTime (w := w) h.keys)
  refine hkeys.imp_of_mem fun {item item'} hitem hitem' hne heq => ?_
  by_contra hpos
  have hat := posOf_of_mem h.keys hitem
  rw [heq] at hat
  exact hne (h.distinct _ _ _ hat (posOf_of_mem h.keys hitem') hpos)

theorem settled_movedPositions_iff (h : Numbered (beforeReorder w acentries)) :
    Renumber.Settled (movedPositions w acentries)
        (Renumber.run ⟨0, []⟩ (oldPositions w acentries)).next ↔
      Renumber.Fits ⟨0, []⟩ (oldPositions w acentries) := by
  refine Renumber.settled_iff (fun old hold => ?_) (distinct_oldPositions h)
  obtain ⟨item, hitem, rfl⟩ := List.mem_map.1 hold
  exact h.range _ _ (posOf_of_mem h.keys hitem)

/-- Positions in order are those of items that fit, with the others apart. -/
theorem ReorderLaw.fits (hlaw : ReorderLaw (beforeReorder w acentries) st')
    (h : Numbered (beforeReorder w acentries))
    (hok : reorderTransactions writes w acentries = (.loadOK, st')) :
    Renumber.Fits ⟨0, []⟩ (oldPositions w acentries) ∧ OthersApart w acentries := by
  obtain ⟨hnext, hplaces, hother⟩ := reorder_spec writes h hok
  constructor
  · rw [← settled_movedPositions_iff h, movedPositions_eq]
    refine ⟨fun x' hx' => ?_, ?_, fun x' hx' y' hy' hxp hyp hlt => ?_⟩
    · obtain ⟨x, hx, rfl⟩ := List.mem_map.1 hx'
      exact hnext ▸ hlaw.range _ _ (hplaces x hx)
    · have hkeys : (((txByTime w acentries).zip
          (Renumber.places ⟨0, []⟩ (oldPositions w acentries))).map fun x => x.1.key).Nodup := by
        have hfst : ((txByTime w acentries).zip
            (Renumber.places ⟨0, []⟩ (oldPositions w acentries))).map Prod.fst = txByTime w acentries :=
          List.map_fst_zip (by rw [Renumber.length_places, oldPositions, List.length_map])
        have hnodup : ((txByTime w acentries).map TxItem.key).Nodup := nodup_keys_txByTime h.keys
        rwa [← hfst, List.map_map] at hnodup
      rw [List.pairwise_map]
      refine (List.pairwise_map.1 hkeys).imp_of_mem fun {x y} hx hy hne heq => ?_
      have hat := hplaces x hx
      rw [show x.2 = y.2 from heq] at hat
      exact hne (hlaw.distinct _ _ _ hat (hplaces y hy))
    · obtain ⟨x, hx, rfl⟩ := List.mem_map.1 hx'
      obtain ⟨y, hy, rfl⟩ := List.mem_map.1 hy'
      exact hlaw.order _ _ _ _ _ _ (posOf_of_mem h.keys (fst_mem_txByTime hx).1) hxp
        (posOf_of_mem h.keys (fst_mem_txByTime hy).1) hyp hlt (hplaces x hx) (hplaces y hy)
  · intro acentry hmem haccount
    have hbefore := posOf_inr (w := w) h.keys hmem
    have hafter := (hother _ (other_notMem haccount)).trans hbefore
    obtain ⟨hnonneg, hlt⟩ := hlaw.range _ _ hafter
    refine ⟨hnonneg, hnext ▸ hlt, fun x' hx' => ?_⟩
    rw [movedPositions_eq] at hx'
    obtain ⟨x, hx, rfl⟩ := List.mem_map.1 hx'
    have hitem := (fst_mem_txByTime hx).1
    refine ⟨fun heq => ?_, fun hxp hlt' => ?_⟩
    · have hat := hplaces x hx
      rw [show x.2 = acentry.nOrderPos from heq] at hat
      have hsame := hlaw.distinct _ _ _ hat hafter
      exact other_notMem haccount (List.mem_map.2 ⟨x.1, hitem, hsame⟩)
    · exact hlaw.order _ _ _ _ _ _ (posOf_of_mem h.keys hitem) hxp hbefore (by omega) hlt'
        (hplaces x hx) hafter

/-- The position before the call, for each that is there afterwards. -/
theorem posOf_before (h : Numbered (beforeReorder w acentries)) {x : TxItem × Int}
    (hx : x ∈ (txByTime w acentries).zip (Renumber.places ⟨0, []⟩ (oldPositions w acentries))) {p : Int}
    (hp : (beforeReorder w acentries).posOf x.1.key = some p) : (p, x.2) ∈ movedPositions w acentries := by
  obtain ⟨hitem, hmoved⟩ := fst_mem_txByTime hx
  obtain rfl := Option.some.inj ((posOf_of_mem h.keys hitem).symm.trans hp)
  exact hmoved

theorem ReorderLaw.of_fits (hfits : Renumber.Fits ⟨0, []⟩ (oldPositions w acentries))
    (hothers : OthersApart w acentries) (h : Numbered (beforeReorder w acentries))
    (hok : reorderTransactions writes w acentries = (.loadOK, st')) :
    ReorderLaw (beforeReorder w acentries) st' := by
  obtain ⟨hnext, hplaces, hother⟩ := reorder_spec writes h hok
  have hsettled := (settled_movedPositions_iff h).2 hfits
  have hcases := @posOf_after writes w acentries st' h hok
  refine ⟨fun key q hq => ?_, fun key key' q hq hq' => ?_,
    fun key key' p p' q q' hp hpos hp' hpos' hlt hq hq' => ?_⟩
  · rw [hnext]
    rcases hcases hq with ⟨x, hx, rfl, rfl⟩ | ⟨acentry, hmem, haccount, rfl, rfl⟩
    · exact hsettled.bounds _ (fst_mem_txByTime hx).2
    · exact ⟨(hothers acentry hmem haccount).1, (hothers acentry hmem haccount).2.1⟩
  · rcases hcases hq with ⟨x, hx, rfl, rfl⟩ | ⟨acentry, hmem, haccount, rfl, rfl⟩
    · rcases hcases hq' with ⟨y, hy, rfl, heq⟩ | ⟨acentry', hmem', haccount', rfl, heq⟩
      · -- two items with one place are one
        have hnodup : (((txByTime w acentries).zip
            (Renumber.places ⟨0, []⟩ (oldPositions w acentries))).map Prod.snd).Nodup := by
          have hdistinct := hsettled.distinct
          rw [movedPositions_eq, List.pairwise_map] at hdistinct
          exact List.pairwise_map.2 hdistinct
        rw [List.inj_on_of_nodup_map hnodup hx hy heq]
      · exact absurd heq.symm ((hothers acentry' hmem' haccount').2.2 _ (fst_mem_txByTime hx).2).1
    · rcases hcases hq' with ⟨y, hy, rfl, heq⟩ | ⟨acentry', hmem', haccount', rfl, heq⟩
      · exact absurd heq.symm ((hothers acentry hmem haccount).2.2 _ (fst_mem_txByTime hy).2).1
      · have hnonneg := (hothers acentry hmem haccount).1
        have hbefore := posOf_inr (w := w) h.keys hmem'
        rw [heq] at hbefore
        exact h.distinct _ _ _ (posOf_inr h.keys hmem) hbefore (by omega)
  · rcases hcases hq with ⟨x, hx, rfl, rfl⟩ | ⟨acentry, hmem, haccount, rfl, rfl⟩
    · have hmoved := posOf_before h hx hp
      rcases hcases hq' with ⟨y, hy, rfl, rfl⟩ | ⟨acentry', hmem', haccount', rfl, rfl⟩
      · exact hsettled.order _ hmoved _ (posOf_before h hy hp') hpos hpos' hlt
      · obtain rfl := Option.some.inj ((posOf_inr h.keys hmem').symm.trans hp')
        exact ((hothers acentry' hmem' haccount').2.2 _ hmoved).2 hpos hlt
    · obtain rfl := Option.some.inj ((posOf_inr h.keys hmem).symm.trans hp)
      rcases hcases hq' with ⟨y, hy, rfl, rfl⟩ | ⟨acentry', hmem', haccount', rfl, rfl⟩
      · have hle := Renumber.le_of_mem_places hfits (posOf_before h hy hp') hpos'
        exact hlt.trans_le hle
      · obtain rfl := Option.some.inj ((posOf_inr h.keys hmem').symm.trans hp')
        exact hlt

/-- **When the positions are in order**: all items fit, and the entries of other accounts are apart
from them. So it is where every position leaves room for what comes before it. -/
theorem reorderLaw_iff (h : Numbered (beforeReorder w acentries))
    (hok : reorderTransactions writes w acentries = (.loadOK, st')) :
    (ReorderLaw (beforeReorder w acentries) st' ↔
        Renumber.Fits ⟨0, []⟩ (oldPositions w acentries) ∧ OthersApart w acentries) ∧
      (Roomy w acentries → ReorderLaw (beforeReorder w acentries) st') := by
  refine ⟨⟨fun hlaw => hlaw.fits writes h hok, fun hboth => .of_fits writes hboth.1 hboth.2 h hok⟩,
    fun hroomy => ?_⟩
  exact .of_fits writes (Renumber.fits_of_spaced hroomy.spaced hroomy.bounds)
    (fun acentry hmem haccount => absurd (hroomy.accounts acentry hmem) haccount) h hok

end Law

/-! ## Four transactions -/

/-- A transaction with its time and position. -/
def datedTx (nTimeReceived nOrderPos : Int) : CWalletTx :=
  { CWalletTx.ofTx incomeTx with nTimeReceived := nTimeReceived, nOrderPos := nOrderPos }

/-- The first and the third of four transactions have no position. -/
def datedWallet (last : Int) : CWallet :=
  { newWallet with
    mapWallet := AList.insert 4 (datedTx 4 last) (AList.insert 3 (datedTx 3 (-1))
      (AList.insert 2 (datedTx 2 0) (AList.insert 1 (datedTx 1 (-1)) ∅))) }

theorem posOf_datedWallet {last : Int} {key : ItemKey} {p : Int}
    (h : (beforeReorder (datedWallet last) []).posOf key = some p) :
    (key, p) ∈ ([(.inl 4, last), (.inl 3, -1), (.inl 2, 0), (.inl 1, -1)] : List (ItemKey × Int)) := by
  cases key with
  | inr key => cases h
  | inl hash =>
    obtain ⟨wtx, hlookup, rfl⟩ := Option.map_eq_some_iff.1 h
    have hentries : (datedWallet last).mapWallet.entries =
        [⟨4, datedTx 4 last⟩, ⟨3, datedTx 3 (-1)⟩, ⟨2, datedTx 2 0⟩, ⟨1, datedTx 1 (-1)⟩] := rfl
    have hmem : (⟨hash, wtx⟩ : Sigma fun _ : Uint256 => CWalletTx) ∈ (datedWallet last).mapWallet.entries :=
      AList.mem_lookup_iff.1 hlookup
    rw [hentries] at hmem
    simp only [List.mem_cons, List.not_mem_nil, or_false] at hmem ⊢
    rcases hmem with h | h | h | h <;> cases h <;> simp [datedTx]

theorem numbered_datedWallet {last : Int} (hpos : 0 < last) (hlast : last < 2 ^ 63) :
    Numbered (beforeReorder (datedWallet last) []) := by
  refine ⟨.nil, fun key p h => ?_, fun key key' p h h' hp => ?_⟩
  · have hmem := posOf_datedWallet h
    simp only [List.mem_cons, Prod.mk.injEq, List.not_mem_nil, or_false] at hmem
    rw [Int64.InRange]
    omega
  · have hmem := posOf_datedWallet h
    have hmem' := posOf_datedWallet h'
    simp only [List.mem_cons, Prod.mk.injEq, List.not_mem_nil, or_false] at hmem hmem'
    rcases hmem with ⟨rfl, rfl⟩ | ⟨rfl, rfl⟩ | ⟨rfl, rfl⟩ | ⟨rfl, rfl⟩
    · rcases hmem' with ⟨rfl, -⟩ | ⟨-, h⟩ | ⟨-, h⟩ | ⟨-, h⟩
      · rfl
      all_goals omega
    · exact absurd rfl hp
    · rcases hmem' with ⟨-, h⟩ | ⟨-, h⟩ | ⟨rfl, -⟩ | ⟨-, h⟩
      · omega
      · omega
      · rfl
      · omega
    · exact absurd rfl hp

/-- With room before the last one, the positions are in order. -/
theorem reorderLaw_datedWallet :
    ReorderLaw (beforeReorder (datedWallet 2) [])
      (reorderTransactions (fun _ => true) (datedWallet 2) []).2 := by
  have hok : reorderTransactions (fun _ => true) (datedWallet 2) [] =
      (.loadOK, (reorderTransactions (fun _ => true) (datedWallet 2) []).2) :=
    Prod.ext (by decide +kernel) rfl
  have hnumbered : Numbered (beforeReorder (datedWallet 2) []) :=
    numbered_datedWallet (by decide) (by decide)
  refine (reorderLaw_iff (fun _ => true) hnumbered hok).1.2 ⟨?_, fun _ hmem => absurd hmem (by simp)⟩
  have hold : oldPositions (datedWallet 2) [] = [-1, 0, -1, 2] := by decide +kernel
  rw [hold]
  decide +kernel

/-- Without it, the last one is moved onto the position that the third one was given. -/
theorem not_reorderLaw_datedWallet :
    ¬∀ (writes : TxItem → Bool) (w : CWallet) (acentries : List CAccountingItem) (st' : ReorderState),
      Numbered (beforeReorder w acentries) → reorderTransactions writes w acentries = (.loadOK, st') →
        ReorderLaw (beforeReorder w acentries) st' := by
  intro hall
  have hok : reorderTransactions (fun _ => true) (datedWallet 1) [] =
      (.loadOK, (reorderTransactions (fun _ => true) (datedWallet 1) []).2) :=
    Prod.ext (by decide +kernel) rfl
  have hlaw := hall (fun _ => true) (datedWallet 1) [] _
    (numbered_datedWallet (by decide) (by decide)) hok
  have hsame := hlaw.distinct (.inl 3) (.inl 4) 2 (by decide +kernel) (by decide +kernel)
  exact absurd hsame (by decide)

end MotaCoin
