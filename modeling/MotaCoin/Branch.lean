import MotaCoin.Frame

/-!
# The transaction index of a branch

`OnBranch C s k` says that the transaction index `s` sees is the one of the blocks up to `k`, each
of which `ConnectBlock` accepted on the index of its parent, with the money supply it recorded.
Connecting a child and disconnecting the last block move `k` by one; the loops of `Reorganize` move
it along a segment of the tree.

## Main definitions

* `Connects`: `ConnectBlock` accepted a block on the index of its parent
* `Supplied`: the recorded money supply of a block is its unspent value
* `OnBranch`: the node works on the index of a branch
* `ConnectedFromScratch`: an index built by `ConnectBlock` from the empty one

## Main results

* `OnBranch.connectBlock`, `OnBranch.disconnectBlock`: one block
* `OnBranch.connectLoop`, `OnBranch.disconnectLoop`: the loops of `Reorganize`
* `OnBranch.connectedFromScratch`: the index of a branch is built by `ConnectBlock` alone
-/

namespace MotaCoin

open Ancestry (Walk Climb)
open SpendIndex (Valid unspentValue)

variable (C : Crypto) (env : Env)

/-- `nMoneySupply` of the entry of a hash. -/
def NodeState.supplyOf (s : NodeState) (hash : Uint256) : Int :=
  ((s.mapBlockIndex hash).map CBlockIndex.nMoneySupply).getD 0

/-- The recorded money supply of a block is the unspent value of its path, as `int64_t`. -/
def Supplied (s : NodeState) (j : Uint256) : Prop :=
  s.supplyOf j = Int64.wrap (unspentValue (ledgerOf C (s.pathTxs j)))

/-- `ConnectBlock` accepted the block in a node, with no more of the tree than `s`, whose index was
that of the parent. -/
def Connects (s : NodeState) (j : Uint256) : Prop :=
  ∃ s₁ env p b, TreeOK C s₁ ∧ TreeLe s₁ s ∧ s₁.parentOf j = some p ∧ s₁.blockOf j = some b ∧
    s₁.txdb.txIndex = indexOf C (s₁.pathTxs p) ∧ (s₁.connectBlock C env b j).1 = true

/-- **The node works on the index of the branch of `k`.** -/
structure OnBranch (s : NodeState) (k : Uint256) : Prop where
  index : s.txdb.txIndex = indexOf C (s.pathTxs k)
  connects : ∀ j ∈ s.path k, Connects C s j
  supplied : ∀ j, s.parentOf j = none ∨ j ∈ s.path k → Supplied C s j

/-! ## One block -/

theorem map_fst_txPositions (nFile nBlockPos : Nat) (b : CBlock) :
    (txPositions nFile nBlockPos b).map Prod.fst = b.vtx := by
  have hoff : ∀ (vtx : List CTransaction) (nTxPos : Nat),
      (txOffsets nTxPos vtx).map Prod.fst = vtx := by
    intro vtx
    induction vtx with
    | nil => exact fun _ => rfl
    | cons tx vtx ih => exact fun nTxPos => congrArg (tx :: ·) (ih _)
  simp [txPositions, Function.comp_def, hoff]

theorem NodeState.blockOf_eq_some {s : NodeState} {h : Uint256} {b : CBlock}
    (hb : s.blockOf h = some b) :
    ∃ e, s.mapBlockIndex h = some e ∧ s.blkFiles e.nFile e.nBlockPos = some b :=
  Option.bind_eq_some_iff.mp hb

theorem NodeState.map_fst_blockTxs {s : NodeState} {h : Uint256} {b : CBlock}
    (hb : s.blockOf h = some b) : (s.blockTxs h).map Prod.fst = b.vtx := by
  obtain ⟨e, he, hfile⟩ := NodeState.blockOf_eq_some hb
  rw [NodeState.blockTxs_eq he hfile, map_fst_txPositions]

/-- `ReadFromDisk` reads the block of the entry. -/
theorem readFromDisk_eq_some {s : NodeState} {h : Uint256} {b : CBlock}
    (hr : s.readFromDisk C env h = some b) : s.blockOf h = some b := by
  unfold NodeState.readFromDisk at hr
  split at hr
  · cases hr
  · next e he =>
    split at hr
    · cases hr
    · next b' hb' =>
      have hread : s.blkFiles e.nFile e.nBlockPos = some b' := by
        unfold NodeState.readBlockAt at hb'
        split at hb'
        · cases hb'
        · exact hb'
      split at hr
      · cases hr
      · split at hr
        · cases hr
        · obtain rfl := Option.some.inj hr
          simp [NodeState.blockOf, he, hread]

/-- What a successful `ConnectBlock` did. -/
theorem connectBlock_eq_true {s : NodeState} {b : CBlock} {h : Uint256}
    (hok : (s.connectBlock C env b h).1 = true) :
    ∃ e t, s.mapBlockIndex h = some e ∧
      connectTxs C (s.sources env) (s.connectCtx e true) (txPositions e.nFile e.nBlockPos b)
        ConnectTotals.init = some t ∧
      s.checkRewards C env b e t = true ∧
      (s.connectBlock C env b h).2 = s.connectWrites b h e t := by
  unfold NodeState.connectBlock at hok ⊢
  split at hok
  · cases hok
  · next e he =>
    split at hok
    · cases hok
    · next t ht =>
      unfold NodeState.connectChecks at ht
      split at ht
      · cases ht
      · split at ht
        · cases ht
        · next t' ht' =>
          split at ht
          · next hrew =>
            obtain rfl := Option.some.inj ht
            exact ⟨e, t', he, ht', hrew, rfl⟩
          · cases ht

theorem txIndex_connectWrites (s : NodeState) (b : CBlock) (h : Uint256) (e : CBlockIndex)
    (t : ConnectTotals) :
    (s.connectWrites b h e t).txdb.txIndex = overlay s.txdb.txIndex t.mapQueuedChanges := by
  simp only [NodeState.connectWrites, txIndex_writePrevLink, txIndex_writeQueue,
    CTxDB.txIndex_writeBlockIndex]

theorem supplyOf_connectWrites (s : NodeState) (b : CBlock) (h : Uint256) (e : CBlockIndex)
    (t : ConnectTotals) :
    (s.connectWrites b h e t).supplyOf = Function.update s.supplyOf h
      (Int64.wrap (s.prevMoneySupply e + t.nValueOut - t.nValueIn)) := by
  funext k
  by_cases hk : k = h
  · subst hk
    simp [NodeState.supplyOf, NodeState.connectWrites]
  · simp [NodeState.supplyOf, NodeState.connectWrites, Function.update_of_ne hk]

section OneBlock

variable {C env} {s : NodeState} {h p : Uint256} {b : CBlock}

/-- **`ConnectBlock` on the index of the parent** leaves the index of the block, and records what
the block adds to the unspent value. -/
theorem connectBlock_spec (hT : TreeOK C s) (hp : s.parentOf h = some p)
    (hb : s.blockOf h = some b) (hidx : s.txdb.txIndex = indexOf C (s.pathTxs p))
    (hv : Valid (ledgerOf C (s.pathTxs p))) (hok : (s.connectBlock C env b h).1 = true) :
    Valid (ledgerOf C (s.pathTxs h)) ∧
      (s.connectBlock C env b h).2.txdb.txIndex = indexOf C (s.pathTxs h) ∧
      (s.connectBlock C env b h).2.supplyOf = Function.update s.supplyOf h
        (Int64.wrap (s.supplyOf p + (unspentValue (ledgerOf C (s.pathTxs h)) -
          unspentValue (ledgerOf C (s.pathTxs p))))) := by
  obtain ⟨e, t, he, htxs, -, hs'⟩ := connectBlock_eq_true C env hok
  obtain ⟨e', he', hfile⟩ := NodeState.blockOf_eq_some hb
  obtain rfl := Option.some.inj (he.symm.trans he')
  have hpath : s.pathTxs h = s.pathTxs p ++ txPositions e.nFile e.nBlockPos b := by
    rw [hT.pathTxs_of_parent hp, NodeState.blockTxs_eq he hfile]
  have hsrc : (s.sources env).readTxIndex = s.txdb.txIndex :=
    funext fun hash => s.txdb.readTxIndex_eq hash
  have hinv := connectTxs_spec C (ConnectInv.init C hv (hsrc.trans hidx))
    (hpath ▸ hT.proper) (hpath ▸ s.readsBack env h) (hpath ▸ hT.distinct h) htxs
  rw [← hpath] at hinv
  have hprev : s.prevMoneySupply e = s.supplyOf p := by
    have : e.pprev = some p := by simpa [NodeState.parentOf, he] using hp
    simp [NodeState.prevMoneySupply, NodeState.supplyOf, this]
  refine ⟨hinv.valid, ?_, ?_⟩
  · rw [hs', txIndex_connectWrites, ← hsrc]
    exact hinv.index
  · rw [hs', supplyOf_connectWrites, hprev]
    congr 1
    have := Int64.wrap_eq_wrap_iff.mp hinv.supply
    exact Int64.wrap_eq_wrap_iff.mpr (by omega)

/-- `DisconnectBlock` on the index of a block leaves the index of its parent. -/
theorem disconnectBlock_spec (hT : TreeOK C s) (hp : s.parentOf h = some p)
    (hb : s.blockOf h = some b) (hidx : s.txdb.txIndex = indexOf C (s.pathTxs h))
    (hv : Valid (ledgerOf C (s.pathTxs h))) (hok : (s.disconnectBlock C b h).1 = true) :
    (s.disconnectBlock C b h).2.txdb.txIndex = indexOf C (s.pathTxs p) := by
  rw [hT.pathTxs_of_parent hp] at hidx hv
  have hvtx := NodeState.map_fst_blockTxs hb
  unfold NodeState.disconnectBlock at hok ⊢
  split at hok
  · cases hok
  · next e he =>
    simp only at hok ⊢
    split at hok
    · next hd =>
      rw [if_pos hd, txIndex_writePrevLink]
      exact disconnectTxs_spec C hv hidx (by rw [hvtx]; exact Prod.ext hd rfl)
    · cases hok

/-- `DisconnectBlock` does not fail on the index of the block. -/
theorem disconnectBlock_fst (hT : TreeOK C s) (hp : s.parentOf h = some p)
    (hb : s.blockOf h = some b) (hidx : s.txdb.txIndex = indexOf C (s.pathTxs h))
    (hv : Valid (ledgerOf C (s.pathTxs h))) : (s.disconnectBlock C b h).1 = true := by
  rw [hT.pathTxs_of_parent hp] at hidx hv
  obtain ⟨e, he, -⟩ := NodeState.blockOf_eq_some hb
  have hok := disconnectTxs_fst C hv hidx
  rw [NodeState.map_fst_blockTxs hb] at hok
  simp only [NodeState.disconnectBlock, he, hok, if_true]

/-- `DisconnectBlock` changes no entry in memory. -/
theorem mapBlockIndex_disconnectBlock (s : NodeState) (b : CBlock) (h : Uint256) :
    (s.disconnectBlock C b h).2.mapBlockIndex = s.mapBlockIndex := by
  unfold NodeState.disconnectBlock
  split
  · rfl
  · simp only
    split
    · rfl
    · rfl

end OneBlock

/-! ## Moving along a branch -/

section Moving

variable {C env}

theorem Connects.mono {s s' : NodeState} (h : TreeLe s s') {j : Uint256} (hj : Connects C s j) :
    Connects C s' j := by
  obtain ⟨s₁, env, p, b, hT, hle, hrest⟩ := hj
  exact ⟨s₁, env, p, b, hT, hle.trans h, hrest⟩

/-- The accepting node sees the parent and the transactions that `s` sees. -/
theorem Connects.valid {s : NodeState} {j p : Uint256} (hj : Connects C s j)
    (hp : s.parentOf j = some p) (hv : Valid (ledgerOf C (s.pathTxs p))) :
    Valid (ledgerOf C (s.pathTxs j)) := by
  obtain ⟨s₁, env, p₁, b, hT₁, hle, hp₁, hb, hidx, hok⟩ := hj
  have hj₁ := NodeState.isSome_of_parentOf_eq hp₁
  obtain rfl : p₁ = p := Option.some.inj (hp₁.symm.trans ((hle.parentOf hj₁).symm.trans hp))
  rw [hle.pathTxs hT₁ (hT₁.isSome_of_parentOf hp₁)] at hv
  rw [hle.pathTxs hT₁ hj₁]
  exact (connectBlock_spec hT₁ hp₁ hb hidx hv hok).1

/-- The transactions of a branch of connected blocks are a valid ledger. -/
theorem valid_of_connects {s : NodeState} (hT : TreeOK C s) {k : Uint256}
    (hk : ∀ j ∈ s.path k, Connects C s j) : Valid (ledgerOf C (s.pathTxs k)) := by
  induction k using hT.tree.induction_parent with
  | root k hroot =>
    have : s.path k = [] := hT.tree.path_of_root hroot
    rw [NodeState.pathTxs, this]
    exact Valid.nil
  | step k p hp ih =>
    rw [hT.path_of_parent hp] at hk
    refine (hk k (by simp)).valid hp (ih fun j hj => hk j ?_)
    exact List.mem_append_left _ hj

theorem OnBranch.valid {s : NodeState} {k : Uint256} (h : OnBranch C s k) (hT : TreeOK C s) :
    Valid (ledgerOf C (s.pathTxs k)) := valid_of_connects hT h.connects

theorem OnBranch.supplied_self {s : NodeState} {k : Uint256} (h : OnBranch C s k)
    (hT : TreeOK C s) : Supplied C s k := by
  refine h.supplied k ?_
  cases hp : s.parentOf k with
  | none => exact .inl rfl
  | some p =>
    right
    rw [hT.path_of_parent hp]
    simp

/-- What `OnBranch` says only depends on the tree, the index and the recorded supplies. -/
theorem OnBranch.congr {s s' : NodeState} {k : Uint256} (h : OnBranch C s k)
    (htree : SameTree s s') (hidx : s'.txdb.txIndex = s.txdb.txIndex)
    (hsup : ∀ j, Supplied C s j → Supplied C s' j) : OnBranch C s' k where
  index := by rw [hidx, htree.pathTxs, h.index]
  connects := by
    rw [htree.path]
    exact fun j hj => (h.connects j hj).mono htree.treeLe
  supplied := by
    rw [htree.path, htree.parentOf]
    exact fun j hj => hsup j (h.supplied j hj)

/-- A block recorded on a supplied parent is supplied, and no other record changes. -/
theorem supplied_connectBlock {s : NodeState} {h p : Uint256} {b : CBlock} (hT : TreeOK C s)
    (hbr : OnBranch C s p) (hp : s.parentOf h = some p) (hb : s.blockOf h = some b)
    (hok : (s.connectBlock C env b h).1 = true) {j : Uint256} (hj : j = h ∨ Supplied C s j) :
    Supplied C (s.connectBlock C env b h).2 j := by
  obtain ⟨-, -, hsup⟩ := connectBlock_spec hT hp hb hbr.index (hbr.valid hT) hok
  have htree := (connectBlock_frame C env s b h).tree
  have hpsup : s.supplyOf p = Int64.wrap (unspentValue (ledgerOf C (s.pathTxs p))) :=
    hbr.supplied_self hT
  unfold Supplied
  rw [hsup, htree.pathTxs]
  by_cases hjh : j = h
  · subst hjh
    rw [Function.update_self, hpsup]
    have := Int64.wrap_sub_self_mod (unspentValue (ledgerOf C (s.pathTxs p)))
    exact Int64.wrap_eq_wrap_iff.mpr (by omega)
  · rw [Function.update_of_ne hjh]
    exact hj.resolve_left hjh

theorem connectBlock_of_failed {s : NodeState} {h : Uint256} {b : CBlock}
    (hok : (s.connectBlock C env b h).1 = false) : (s.connectBlock C env b h).2 = s := by
  unfold NodeState.connectBlock at hok ⊢
  split at hok
  · rfl
  · split at hok
    · rfl
    · cases hok

/-- **Connecting a child** moves the branch up. -/
theorem OnBranch.connectBlock {s : NodeState} {h p : Uint256} {b : CBlock} (hT : TreeOK C s)
    (hbr : OnBranch C s p) (hp : s.parentOf h = some p) (hb : s.blockOf h = some b)
    (hok : (s.connectBlock C env b h).1 = true) :
    OnBranch C (s.connectBlock C env b h).2 h := by
  have htree := (connectBlock_frame C env s b h).tree
  obtain ⟨-, hidx, -⟩ := connectBlock_spec hT hp hb hbr.index (hbr.valid hT) hok
  refine ⟨by rw [hidx, htree.pathTxs], ?_, ?_⟩
  · intro j hj
    rw [htree.path, hT.path_of_parent hp, List.mem_append, List.mem_singleton] at hj
    rcases hj with hj | rfl
    · exact (hbr.connects j hj).mono htree.treeLe
    · exact ⟨s, env, p, b, hT, htree.treeLe, hp, hb, hbr.index, hok⟩
  · intro j hj
    refine supplied_connectBlock hT hbr hp hb hok ?_
    rw [htree.path, htree.parentOf, hT.path_of_parent hp, List.mem_append,
      List.mem_singleton] at hj
    rcases hj with hj | hj | rfl
    · exact .inr (hbr.supplied j (.inl hj))
    · exact .inr (hbr.supplied j (.inr hj))
    · exact .inl rfl

theorem supplied_of_mapBlockIndex_eq {s s' : NodeState} (htree : SameTree s s')
    (h : s'.mapBlockIndex = s.mapBlockIndex) {j : Uint256} (hj : Supplied C s j) :
    Supplied C s' j := by
  unfold Supplied NodeState.supplyOf at hj ⊢
  rwa [h, htree.pathTxs]

/-- **Disconnecting the last block** moves the branch down. -/
theorem OnBranch.disconnectBlock {s : NodeState} {h p : Uint256} {b : CBlock} (hT : TreeOK C s)
    (hbr : OnBranch C s h) (hp : s.parentOf h = some p) (hb : s.blockOf h = some b)
    (hok : (s.disconnectBlock C b h).1 = true) :
    OnBranch C (s.disconnectBlock C b h).2 p := by
  have htree := (disconnectBlock_frame C s b h).tree
  have hsub : ∀ j ∈ s.path p, j ∈ s.path h := by
    intro j hj
    rw [hT.path_of_parent hp]
    exact List.mem_append_left _ hj
  refine ⟨?_, ?_, ?_⟩
  · rw [htree.pathTxs]
    exact disconnectBlock_spec hT hp hb hbr.index (hbr.valid hT) hok
  · intro j hj
    rw [htree.path] at hj
    exact (hbr.connects j (hsub j hj)).mono htree.treeLe
  · intro j hj
    rw [htree.path, htree.parentOf] at hj
    exact supplied_of_mapBlockIndex_eq htree (mapBlockIndex_disconnectBlock s b h)
      (hbr.supplied j (hj.imp_right (hsub j)))

/-! ## The loops of `Reorganize` -/

/-- **The disconnecting loop** moves the branch down a walk. -/
theorem OnBranch.disconnectLoop {w : List Uint256} :
    ∀ {s : NodeState} {a f : Uint256} {vResurrect : List CTransaction}, TreeOK C s →
      OnBranch C s a → Walk s.parentOf a w f →
      (NodeState.disconnectLoop C env w s vResurrect).1 = true →
      OnBranch C (NodeState.disconnectLoop C env w s vResurrect).2.1 f := by
  induction w with
  | nil =>
    intro s a f vResurrect _ hbr hw _
    obtain rfl : a = f := hw
    exact hbr
  | cons x w ih =>
    intro s a f vResurrect hT hbr hw hok
    obtain ⟨rfl, p, hp, hw'⟩ := hw
    simp only [NodeState.disconnectLoop] at hok ⊢
    split at hok
    · cases hok
    · next b hr =>
      split at hok
      · next hd =>
        rw [if_pos hd]
        have htree := (disconnectBlock_frame C s b x).tree
        have hbr' := OnBranch.disconnectBlock hT hbr hp (readFromDisk_eq_some C env hr) hd
        exact ih (htree.treeOK hT) hbr' (htree.parentOf ▸ hw') hok
      · cases hok

theorem mapBlockIndex_disconnectLoop (w : List Uint256) :
    ∀ (s : NodeState) (vResurrect : List CTransaction),
      (NodeState.disconnectLoop C env w s vResurrect).2.1.mapBlockIndex = s.mapBlockIndex := by
  induction w with
  | nil => exact fun _ _ => rfl
  | cons x w ih =>
    intro s vResurrect
    simp only [NodeState.disconnectLoop]
    split
    · rfl
    · next b _ =>
      split
      · rw [ih, mapBlockIndex_disconnectBlock]
      · exact mapBlockIndex_disconnectBlock s b x

/-- **The connecting loop** moves the branch up a climb. -/
theorem OnBranch.connectLoop {v : List Uint256} :
    ∀ {s : NodeState} {f a : Uint256} {vDelete : List CTransaction}, TreeOK C s →
      OnBranch C s f → Climb s.parentOf f v a →
      (NodeState.connectLoop C env v s vDelete).1 = true →
      OnBranch C (NodeState.connectLoop C env v s vDelete).2.1 a := by
  induction v with
  | nil =>
    intro s f a vDelete _ hbr hc _
    obtain rfl : f = a := hc
    exact hbr
  | cons k v ih =>
    intro s f a vDelete hT hbr hc hok
    obtain ⟨hp, hc'⟩ := hc
    simp only [NodeState.connectLoop] at hok ⊢
    split at hok
    · cases hok
    · next b hr =>
      split at hok
      · next hd =>
        rw [if_pos hd]
        have htree := (connectBlock_frame C env s b k).tree
        have hbr' := OnBranch.connectBlock hT hbr hp (readFromDisk_eq_some C env hr) hd
        exact ih (htree.treeOK hT) hbr' (htree.parentOf ▸ hc') hok
      · cases hok

/-- The connecting loop keeps the supplied blocks supplied, also where it stops early. -/
theorem supplied_connectLoop {v : List Uint256} :
    ∀ {s : NodeState} {f a : Uint256} {vDelete : List CTransaction}, TreeOK C s →
      OnBranch C s f → Climb s.parentOf f v a → ∀ {j : Uint256}, Supplied C s j →
      Supplied C (NodeState.connectLoop C env v s vDelete).2.1 j := by
  induction v with
  | nil => exact fun _ _ _ _ hj => hj
  | cons k v ih =>
    intro s f a vDelete hT hbr hc j hj
    obtain ⟨hp, hc'⟩ := hc
    simp only [NodeState.connectLoop]
    split
    · exact hj
    · next b hr =>
      have hb := readFromDisk_eq_some C env hr
      split
      · next hd =>
        have htree := (connectBlock_frame C env s b k).tree
        exact ih (htree.treeOK hT) (OnBranch.connectBlock hT hbr hp hb hd) (htree.parentOf ▸ hc')
          (supplied_connectBlock hT hbr hp hb hd (.inr hj))
      · next hd =>
        rw [connectBlock_of_failed (by simpa using hd)]
        exact hj

end Moving

/-! ## From scratch -/

/-- **An index built from the empty one by `ConnectBlock`**, one accepted block after the other, on
nodes with no more of the tree than `s`. -/
inductive ConnectedFromScratch (s : NodeState) : List Uint256 → TxIndexMap → Prop
  | nil : ConnectedFromScratch s [] fun _ => none
  | snoc {path : List Uint256} {s₁ : NodeState} {env : Env} {b : CBlock} {k : Uint256} :
      ConnectedFromScratch s path s₁.txdb.txIndex → TreeLe s₁ s → s₁.blockOf k = some b →
      (s₁.connectBlock C env b k).1 = true →
      ConnectedFromScratch s (path ++ [k]) (s₁.connectBlock C env b k).2.txdb.txIndex

variable {C}

theorem connectedFromScratch_of_connects {s : NodeState} (hT : TreeOK C s) {k : Uint256}
    (hk : ∀ j ∈ s.path k, Connects C s j) :
    ConnectedFromScratch C s (s.path k) (indexOf C (s.pathTxs k)) := by
  induction k using hT.tree.induction_parent with
  | root k hroot =>
    have hpath : s.path k = [] := hT.tree.path_of_root hroot
    rw [NodeState.pathTxs, hpath]
    exact ConnectedFromScratch.nil
  | step k p hp ih =>
    have hpath := hT.path_of_parent hp
    rw [hpath] at hk
    have hkp : ∀ j ∈ s.path p, Connects C s j := fun j hj => hk j (List.mem_append_left _ hj)
    have hvp := valid_of_connects hT hkp
    obtain ⟨s₁, env, p₁, b, hT₁, hle, hp₁, hb, hidx, hok⟩ := hk k (by simp)
    have hk₁ := NodeState.isSome_of_parentOf_eq hp₁
    obtain rfl : p₁ = p := Option.some.inj (hp₁.symm.trans ((hle.parentOf hk₁).symm.trans hp))
    have htxs := hle.pathTxs hT₁ (hT₁.isSome_of_parentOf hp₁)
    have hstep := connectBlock_spec hT₁ hp₁ hb hidx (htxs ▸ hvp) hok
    rw [hpath, hle.pathTxs hT₁ hk₁, ← hstep.2.1]
    refine ConnectedFromScratch.snoc ?_ hle hb hok
    rw [hidx, ← htxs]
    exact ih hkp

/-- The index of a branch is built by `ConnectBlock` alone. -/
theorem OnBranch.connectedFromScratch {s : NodeState} {k : Uint256} (h : OnBranch C s k)
    (hT : TreeOK C s) : ConnectedFromScratch C s (s.path k) s.txdb.txIndex := by
  rw [h.index]
  exact connectedFromScratch_of_connects hT h.connects

/-- The index of a branch describes the transactions of its path. -/
theorem OnBranch.describes {s : NodeState} {k : Uint256} (h : OnBranch C s k) (hT : TreeOK C s) :
    IndexDescribes C s.txdb.txIndex (s.pathTxs k) := by
  rw [h.index]
  exact indexOf_describes (h.valid hT) hT.proper

end MotaCoin
