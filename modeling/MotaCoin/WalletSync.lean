import MotaCoin.BlockTree
import MotaCoin.Consistency

/-!
# Notifications to the wallets

`ConnectBlock` and `DisconnectBlock` call `SyncWithWallets` for every transaction of the block, while
the database transaction they are part of is still open. A wallet sees what was committed as long as
each of these database transactions, once a block was moved in it, gets to its commit; a
reorganization that stops half way has already told the wallets about the blocks it moved.

## Main definitions

* `NodeState.movedSyncs`: the notifications of moving the committed chain from one tip to another
* `ChainBatch`, `NodeState.reorganizeBatches`: the database transactions of a reorganization
* `NotifiesWhole`: every database transaction of a call that moves a block is committed
* `SyncRun`: runs, with the notifications of what they committed

## Main results

* `setBestChain_walletSyncs`: such a call notifies the wallets of what it committed
* `syncRun_walletSyncs`: so does a run of such calls
-/

namespace MotaCoin

open Ancestry (Walk Climb)

variable {C : Crypto} {env : Env}

/-! ## What is committed -/

namespace NodeState

variable (s : NodeState)

/-- The notifications of connecting, or disconnecting, the block of an entry. -/
def syncsOf (fConnect : Bool) (hash : Uint256) : List WalletSync :=
  match s.blockOf hash with
  | none => []
  | some b => b.vtx.map fun tx => ⟨tx, b, fConnect, fConnect⟩

/-- **The notifications of moving the chain** from the tip `t` to the tip `t'`: the blocks of the
first path that are not on the second are disconnected from the tip down, then those of the second
path that are not on the first are connected upwards. -/
def movedSyncs (t t' : Uint256) : List WalletSync :=
  ((s.path t).filter fun k => decide (k ∉ s.path t')).reverse.flatMap (s.syncsOf false) ++
    ((s.path t').filter fun k => decide (k ∉ s.path t)).flatMap (s.syncsOf true)

end NodeState

/-- The notifications of what was committed between two states. -/
def committedSyncs (s s' : NodeState) : List WalletSync :=
  match s.txdb.content .hashBestChain, s'.txdb.content .hashBestChain with
  | some t, some t' => s'.movedSyncs t t'
  | _, _ => []

theorem SameTree.syncsOf {s s' : NodeState} (h : SameTree s s') (fConnect : Bool) :
    s'.syncsOf fConnect = s.syncsOf fConnect := by
  funext k
  simp only [NodeState.syncsOf, h.blockOf]

theorem SameTree.movedSyncs {s s' : NodeState} (h : SameTree s s') (t t' : Uint256) :
    s'.movedSyncs t t' = s.movedSyncs t t' := by
  simp only [NodeState.movedSyncs, h.path, h.syncsOf]

theorem NodeState.movedSyncs_self (s : NodeState) (t : Uint256) : s.movedSyncs t t = [] := by
  simp only [NodeState.movedSyncs, List.append_eq_nil_iff, List.flatMap_eq_nil_iff]
  constructor
  · simp +contextual
  · simp +contextual

/-- Moving a tip over a fork. -/
theorem TreeOK.movedSyncs_of_climb {s : NodeState} (hT : TreeOK C s) {f t k : Uint256}
    {v w : List Uint256} (ht : Climb s.parentOf f v t) (hk : Climb s.parentOf f w k)
    (hdisj : ∀ x ∈ v, x ∉ w) :
    s.movedSyncs t k = v.reverse.flatMap (s.syncsOf false) ++ w.flatMap (s.syncsOf true) := by
  unfold NodeState.movedSyncs
  rw [show (s.path t).filter (fun x => decide (x ∉ s.path k)) = v from
      hT.tree.filter_path_of_climb ht hk hdisj,
    show (s.path k).filter (fun x => decide (x ∉ s.path t)) = w from
      hT.tree.filter_path_of_climb hk ht fun x hw hv => hdisj x hv hw]

/-! ## What is notified -/

section Notified

variable {s : NodeState}

theorem walletSyncs_connectBlock {b : CBlock} {h : Uint256} (hb : s.blockOf h = some b)
    (hok : (s.connectBlock C env b h).1 = true) :
    (s.connectBlock C env b h).2.walletSyncs = s.walletSyncs ++ s.syncsOf true h := by
  obtain ⟨e, t, -, -, -, hs⟩ := connectBlock_eq_true C env hok
  rw [hs, NodeState.syncsOf, hb]
  rfl

theorem walletSyncs_disconnectBlock {b : CBlock} {h : Uint256} (hb : s.blockOf h = some b)
    (hok : (s.disconnectBlock C b h).1 = true) :
    (s.disconnectBlock C b h).2.walletSyncs = s.walletSyncs ++ s.syncsOf false h := by
  unfold NodeState.disconnectBlock at hok ⊢
  split at hok
  · cases hok
  · simp only at hok ⊢
    split at hok
    · next hd =>
      rw [if_pos hd, NodeState.syncsOf, hb]
    · cases hok

theorem walletSyncs_disconnectLoop {w : List Uint256} :
    ∀ {s : NodeState} {vResurrect : List CTransaction},
      (NodeState.disconnectLoop C env w s vResurrect).1 = true →
      (NodeState.disconnectLoop C env w s vResurrect).2.1.walletSyncs =
        s.walletSyncs ++ w.flatMap (s.syncsOf false) := by
  induction w with
  | nil => exact fun _ => (List.append_nil _).symm
  | cons k w ih =>
    intro s vResurrect hok
    simp only [NodeState.disconnectLoop] at hok ⊢
    split at hok
    · cases hok
    · next b hr =>
      split at hok
      · next hd =>
        rw [if_pos hd, ih hok, walletSyncs_disconnectBlock (readFromDisk_eq_some C env hr) hd,
          (disconnectBlock_frame C s b k).tree.syncsOf, List.flatMap_cons, List.append_assoc]
      · cases hok

theorem walletSyncs_connectLoop {v : List Uint256} :
    ∀ {s : NodeState} {vDelete : List CTransaction},
      (NodeState.connectLoop C env v s vDelete).1 = true →
      (NodeState.connectLoop C env v s vDelete).2.1.walletSyncs =
        s.walletSyncs ++ v.flatMap (s.syncsOf true) := by
  induction v with
  | nil => exact fun _ => (List.append_nil _).symm
  | cons k v ih =>
    intro s vDelete hok
    simp only [NodeState.connectLoop] at hok ⊢
    split at hok
    · cases hok
    · next b hr =>
      split at hok
      · next hc =>
        rw [if_pos hc, ih hok, walletSyncs_connectBlock (readFromDisk_eq_some C env hr) hc,
          (connectBlock_frame C env s b k).tree.syncsOf, List.flatMap_cons, List.append_assoc]
      · cases hok

theorem walletSyncs_setPrevNext (s : NodeState) (hash : Uint256) (pnext : Option Uint256) :
    (s.setPrevNext hash pnext).walletSyncs = s.walletSyncs := by
  unfold NodeState.setPrevNext
  split
  · rfl
  · rfl

theorem walletSyncs_abortInvalid (s : NodeState) (pindexNew : Uint256) :
    (s.abortInvalid pindexNew).walletSyncs = s.walletSyncs := by
  unfold NodeState.abortInvalid NodeState.invalidChainFound
  split
  · rfl
  · rfl

theorem walletSyncs_relink (s : NodeState) (vDisconnect vConnect : List Uint256) :
    (s.relink vDisconnect vConnect).walletSyncs = s.walletSyncs := by
  have hfold : ∀ (f : Uint256 → Option Uint256) (l : List Uint256) (s : NodeState),
      (l.foldl (fun s hash => s.setPrevNext hash (f hash)) s).walletSyncs = s.walletSyncs := by
    intro f l
    induction l with
    | nil => exact fun _ => rfl
    | cons k l ih =>
      intro s
      rw [List.foldl_cons, ih, walletSyncs_setPrevNext]
  exact (hfold some vConnect _).trans (hfold (fun _ => none) vDisconnect s)

/-- A block that is connected and committed is notified; one that is refused is not. -/
theorem walletSyncs_setBestChainInner {b : CBlock} {h : Uint256} (hb : s.blockOf h = some b)
    (hcommit : (s.connectBlock C env b h).1 = true → env.commitFails (b.getHash C) = false) :
    (s.setBestChainInner C env b h).2.walletSyncs =
      if (s.setBestChainInner C env b h).1 = true then s.walletSyncs ++ s.syncsOf true h
      else s.walletSyncs := by
  rw [if_congr setBestChainInner_fst_iff rfl rfl]
  unfold NodeState.setBestChainInner
  cases hc : (s.connectBlock C env b h).1 with
  | false =>
    simp only [hc, Bool.not_false, if_true, Bool.false_eq_true, false_and, if_false]
    rw [walletSyncs_abortInvalid, connectBlock_of_failed hc]
  | true =>
    have hr : ((s.connectBlock C env b h).2.commitBest env (b.getHash C)).1 = true :=
      (commitBest_fst _ _).mpr (hcommit hc)
    simp only [hc, hr, hcommit hc, Bool.not_true, Bool.false_eq_true, if_false, and_self, if_true]
    rw [walletSyncs_setPrevNext]
    exact walletSyncs_connectBlock hb hc

/-- A successful `Reorganize` notifies of the blocks between the fork and the two tips. -/
theorem walletSyncs_reorganize {a : Uint256} (hok : (s.reorganize C env a).1 = true) :
    ∃ t f vDisconnect walk, s.pindexBest = some t ∧ s.findFork t a = some f ∧
      s.walkTo f t = some vDisconnect ∧ s.walkTo f a = some walk ∧
      (s.reorganize C env a).2.walletSyncs = s.walletSyncs ++
        (vDisconnect.flatMap (s.syncsOf false) ++ walk.reverse.flatMap (s.syncsOf true)) := by
  obtain ⟨t, f, vDisconnect, walk, ht, hfork, hw₁, hw₂, hd, hc, -, m, hres⟩ :=
    reorganize_eq_true hok
  refine ⟨t, f, vDisconnect, walk, ht, hfork, hw₁, hw₂, ?_⟩
  rw [hres]
  refine (walletSyncs_relink _ _ _).trans ((walletSyncs_connectLoop hc).trans ?_)
  rw [walletSyncs_disconnectLoop hd, (disconnectLoop_frame C env vDisconnect s []).tree.syncsOf,
    List.append_assoc]

end Notified

/-! ## Database transactions -/

/-- A block moved inside a database transaction of a reorganization. -/
inductive ChainMove where
  | disconnect (hash : Uint256)
  | connect (hash : Uint256)
deriving DecidableEq

/-- The moves of a reorganization, first down and then up. -/
def reorganizeMoves (vDisconnect vConnect : List Uint256) : List ChainMove :=
  vDisconnect.map .disconnect ++ vConnect.map .connect

/-- The blocks a database transaction moves, and the best chain it commits. -/
structure ChainBatch where
  moves : List ChainMove
  best : Uint256
deriving DecidableEq

/-- **The database transactions of a reorganization** to `pindexNew`: one for the two branches, up
to the first block with more trust than the tip, and one for each postponed block. -/
def NodeState.reorganizeBatches (s : NodeState) (pindexNew : Uint256) : List ChainBatch :=
  match s.pindexBest with
  | none => []
  | some t =>
    let p := s.postpone t pindexNew
    match s.findFork t p.1 with
    | none => []
    | some f =>
      match s.walkTo f t, s.walkTo f p.1 with
      | some vDisconnect, some walk =>
        ⟨reorganizeMoves vDisconnect walk.reverse, p.1⟩ ::
          p.2.map fun j => ⟨[.connect j], j⟩
      | _, _ => []

section Condition

variable (C env)

/-- `ConnectBlock` accepts the block on the index of the path of its parent. -/
def Accepted (s : NodeState) (b : CBlock) (j : Uint256) : Prop :=
  ∃ p, s.parentOf j = some p ∧
    ((s.withIndex (indexOf C (s.pathTxs p))).connectBlock C env b j).1 = true

/-- The block can be read, and, to be connected, is accepted on its own branch. -/
def ChainMove.Possible (s : NodeState) : ChainMove → Prop
  | .disconnect j => (s.readFromDisk C env j).isSome
  | .connect j => ∃ b, s.readFromDisk C env j = some b ∧ Accepted C env s b j

/-- Each database transaction whose first block can be moved moves all its blocks and is
committed; the first one that cannot be begun ends the call. -/
def AllOrNothing (s : NodeState) : List ChainBatch → Prop
  | [] => True
  | B :: Bs => (∀ m ∈ B.moves.head?, m.Possible C env s) →
      (∀ m ∈ B.moves, m.Possible C env s) ∧ env.commitFails B.best = false ∧ AllOrNothing s Bs

/-- **A call that notifies the wallets of nothing it does not commit**: the database and
`pindexBest` name the same tip, an accepted block on top of it is committed, and a reorganization
gets through each database transaction it moves a block in. -/
structure NotifiesWhole (s : NodeState) (b : CBlock) (pindexNew : Uint256) : Prop where
  tip : s.txdb.content .hashBestChain = s.pindexBest
  extend : b.hashPrevBlock = s.hashBestChain → Accepted C env s b pindexNew →
    env.commitFails pindexNew = false
  reorganize : b.hashPrevBlock ≠ s.hashBestChain →
    AllOrNothing C env s (s.reorganizeBatches pindexNew)

end Condition

/-! ## One call -/

section OneCall

variable {s₀ s : NodeState}

theorem connectBlock_fst_iff_accepted {j p : Uint256} {b : CBlock} (hT : TreeOK C s)
    (hbr : OnBranch C s p) (htree : SameTree s₀ s) (htip : SameTip s₀ s)
    (hp : s.parentOf j = some p) (hb : s.blockOf j = some b) :
    (s.connectBlock C env b j).1 = true ↔ Accepted C env s₀ b j := by
  have hp₀ : s₀.parentOf j = some p := (congrFun htree.parentOf j).symm.trans hp
  rw [connectBlock_fst_onBranch hT hbr htree htip hp hb]
  constructor
  · exact fun hok => ⟨p, hp₀, hok⟩
  · rintro ⟨p', hp', hok⟩
    obtain rfl := Option.some.inj (hp₀.symm.trans hp')
    exact hok

/-- The disconnecting loop succeeds when every block can be read. -/
theorem disconnectLoop_fst {w : List Uint256} :
    ∀ {s : NodeState} {a f : Uint256} {vResurrect : List CTransaction}, TreeOK C s →
      OnBranch C s a → Walk s.parentOf a w f → SameTree s₀ s →
      (∀ j ∈ w, (ChainMove.disconnect j).Possible C env s₀) →
      (NodeState.disconnectLoop C env w s vResurrect).1 = true := by
  induction w with
  | nil => exact fun _ _ _ _ _ => rfl
  | cons x w ih =>
    intro s a f vResurrect hT hbr hw htree hread
    obtain ⟨rfl, p, hp, hw'⟩ := hw
    obtain ⟨b, hr₀⟩ := Option.isSome_iff_exists.mp (hread x List.mem_cons_self)
    have hr : s.readFromDisk C env x = some b := (readFromDisk_congr htree x).trans hr₀
    have hb := readFromDisk_eq_some C env hr
    have hd := disconnectBlock_fst hT hp hb hbr.index (hbr.valid hT)
    have hframe := (disconnectBlock_frame C s b x).tree
    simp only [NodeState.disconnectLoop, hr, hd, if_true]
    exact ih (hframe.treeOK hT) (hbr.disconnectBlock hT hp hb hd) (hframe.parentOf ▸ hw')
      (htree.trans hframe) fun j hj => hread j (List.mem_cons_of_mem _ hj)

/-- The connecting loop succeeds when every block is accepted on its own branch. -/
theorem connectLoop_fst {v : List Uint256} :
    ∀ {s : NodeState} {f a : Uint256} {vDelete : List CTransaction}, TreeOK C s →
      OnBranch C s f → Climb s.parentOf f v a → SameTree s₀ s → SameTip s₀ s →
      (∀ j ∈ v, (ChainMove.connect j).Possible C env s₀) →
      (NodeState.connectLoop C env v s vDelete).1 = true := by
  induction v with
  | nil => exact fun _ _ _ _ _ _ => rfl
  | cons k v ih =>
    intro s f a vDelete hT hbr hc htree htip hposs
    obtain ⟨hp, hc'⟩ := hc
    obtain ⟨b, hr₀, hacc⟩ := hposs k List.mem_cons_self
    have hr : s.readFromDisk C env k = some b := (readFromDisk_congr htree k).trans hr₀
    have hb := readFromDisk_eq_some C env hr
    have hok := (connectBlock_fst_iff_accepted hT hbr htree htip hp hb).mpr hacc
    have hframe := connectBlock_frame C env s b k
    simp only [NodeState.connectLoop, hr, hok, if_true]
    exact ih (hframe.tree.treeOK hT) (hbr.connectBlock hT hp hb hok)
      (hframe.tree.parentOf ▸ hc') (htree.trans hframe.tree) (htip.trans hframe.tip)
      fun j hj => hposs j (List.mem_cons_of_mem _ hj)

/-- Loops that cannot move their first block notify of nothing. -/
theorem walletSyncs_loops_of_first {s : NodeState} {t f a : Uint256}
    {vDisconnect vConnect : List Uint256} (hT : TreeOK C s) (hbr : OnBranch C s t)
    (hwalk : Walk s.parentOf t vDisconnect f) (hclimb : Climb s.parentOf f vConnect a)
    (htree : SameTree s₀ s) (htip : SameTip s₀ s) {m : ChainMove}
    (hm : m ∈ (reorganizeMoves vDisconnect vConnect).head?) (hno : ¬ m.Possible C env s₀) :
    ((NodeState.disconnectLoop C env vDisconnect s []).1 = false ∧
      (NodeState.disconnectLoop C env vDisconnect s []).2.1.walletSyncs = s.walletSyncs) ∨
    ((NodeState.disconnectLoop C env vDisconnect s []) = (true, s, []) ∧
      (NodeState.connectLoop C env vConnect s []).1 = false ∧
      (NodeState.connectLoop C env vConnect s []).2.1.walletSyncs = s.walletSyncs) := by
  cases vDisconnect with
  | cons x w =>
    obtain rfl : ChainMove.disconnect x = m := by simpa [reorganizeMoves] using hm
    have hr : s.readFromDisk C env x = none := by
      rw [readFromDisk_congr htree]
      simpa [ChainMove.Possible] using hno
    exact .inl (by simp only [NodeState.disconnectLoop, hr, and_self])
  | nil =>
    obtain rfl : t = f := hwalk
    cases vConnect with
    | nil => simp [reorganizeMoves] at hm
    | cons k v =>
      obtain rfl : ChainMove.connect k = m := by simpa [reorganizeMoves] using hm
      refine .inr ⟨rfl, ?_⟩
      simp only [NodeState.connectLoop]
      cases hr : s.readFromDisk C env k with
      | none => exact ⟨rfl, rfl⟩
      | some b =>
        have hb := readFromDisk_eq_some C env hr
        have hacc : ¬ Accepted C env s₀ b k :=
          fun hacc => hno ⟨b, (readFromDisk_congr htree k).symm.trans hr, hacc⟩
        rw [← connectBlock_fst_iff_accepted hT hbr htree htip hclimb.1 hb, Bool.not_eq_true] at hacc
        simp only [hacc, Bool.false_eq_true, if_false]
        exact ⟨trivial, by rw [connectBlock_of_failed hacc]⟩

/-- **A reorganization that fails** has notified of nothing when it would have been committed
whole, had its first block been moved. -/
theorem walletSyncs_reorganize_of_failed {t a : Uint256} (hs : CommittedAt C s t)
    (hbest : s.pindexBest = some t)
    (hwhole : ∀ f vDisconnect walk, s.findFork t a = some f → s.walkTo f t = some vDisconnect →
      s.walkTo f a = some walk →
      (∀ m ∈ (reorganizeMoves vDisconnect walk.reverse).head?, m.Possible C env s) →
      (∀ m ∈ reorganizeMoves vDisconnect walk.reverse, m.Possible C env s) ∧
        env.commitFails a = false)
    (hfail : (s.txnBegin.reorganize C env a).1 = false) :
    (s.txnBegin.reorganize C env a).2.walletSyncs = s.walletSyncs := by
  have hT₀ : TreeOK C s.txnBegin := (sameTree_withTxdb s _).treeOK hs.tree
  have hbr₀ := OnBranch.txnBegin hs
  have htree₀ : SameTree s s.txnBegin := sameTree_withTxdb s _
  have htip₀ : SameTip s s.txnBegin := ⟨rfl, rfl, rfl, rfl⟩
  unfold NodeState.reorganize at hfail ⊢
  simp only [show s.txnBegin.pindexBest = some t from hbest, findFork_txnBegin,
    walkTo_txnBegin] at hfail ⊢
  cases hf : s.findFork t a with
  | none => rfl
  | some f =>
    cases hw₁ : s.walkTo f t with
    | none =>
      simp only [hw₁]
      rfl
    | some vDisconnect =>
      cases hw₂ : s.walkTo f a with
      | none =>
        simp only [hw₁, hw₂]
        rfl
      | some walk =>
        simp only [hf, hw₁, hw₂] at hfail ⊢
        have hwalk : Walk s.txnBegin.parentOf t vDisconnect f := walkTo_spec (s := s) hw₁
        have hclimb : Climb s.txnBegin.parentOf f walk.reverse a :=
          (walkTo_spec (s := s) hw₂).climb
        have hmoves := hwhole f vDisconnect walk hf hw₁ hw₂
        by_cases hfirst : ∀ m ∈ (reorganizeMoves vDisconnect walk.reverse).head?,
            m.Possible C env s
        · -- every block can be moved, and the commit goes through
          obtain ⟨hall, hcommit⟩ := hmoves hfirst
          have hd : (NodeState.disconnectLoop C env vDisconnect s.txnBegin []).1 = true :=
            disconnectLoop_fst hT₀ hbr₀ hwalk htree₀ fun j hj => hall _ (by
              simp [reorganizeMoves, hj])
          have hframe := disconnectLoop_frame C env vDisconnect s.txnBegin []
          have hbr_fork := hbr₀.disconnectLoop hT₀ hwalk hd
          generalize NodeState.disconnectLoop C env vDisconnect s.txnBegin [] = d at *
          have hc : (NodeState.connectLoop C env walk.reverse d.2.1 []).1 = true :=
            connectLoop_fst (hframe.tree.treeOK hT₀) hbr_fork (hframe.tree.parentOf ▸ hclimb)
              (htree₀.trans hframe.tree) (htip₀.trans hframe.tip) fun j hj => hall _ (by
                simpa [reorganizeMoves] using hj)
          have hr : ((NodeState.connectLoop C env walk.reverse d.2.1 []).2.1.commitBest env a).1 =
              true := (commitBest_fst _ a).mpr hcommit
          simp [hd, hc, hr] at hfail
        · obtain ⟨m, hm, hno⟩ : ∃ m ∈ (reorganizeMoves vDisconnect walk.reverse).head?,
              ¬ m.Possible C env s := by simpa using hfirst
          rcases walletSyncs_loops_of_first hT₀ hbr₀ hwalk hclimb htree₀ htip₀ hm hno with
            ⟨hd, hsyncs⟩ | ⟨hd, hc, hsyncs⟩
          · simp only [hd, Bool.not_false, if_true]
            exact hsyncs
          · simp only [hd, hc, Bool.not_true, Bool.not_false, Bool.false_eq_true, if_false, if_true]
            exact hsyncs

/-- A successful reorganization could move its first block. -/
theorem possible_of_reorganize {t a f : Uint256} {vDisconnect walk : List Uint256}
    (hs : CommittedAt C s t) (hbest : s.pindexBest = some t) (hf : s.findFork t a = some f)
    (hw₁ : s.walkTo f t = some vDisconnect) (hw₂ : s.walkTo f a = some walk)
    (hok : (s.txnBegin.reorganize C env a).1 = true) :
    ∀ m ∈ (reorganizeMoves vDisconnect walk.reverse).head?, m.Possible C env s := by
  intro m hm
  by_contra hno
  obtain ⟨t', f', vDisconnect', walk', ht', hf', hw₁', hw₂', hd, hc, -⟩ := reorganize_eq_true hok
  rw [findFork_txnBegin] at hf'
  rw [walkTo_txnBegin] at hw₁' hw₂'
  obtain rfl : t = t' := Option.some.inj (hbest.symm.trans ht')
  obtain rfl := Option.some.inj (hf.symm.trans hf')
  obtain rfl := Option.some.inj (hw₁.symm.trans hw₁')
  obtain rfl := Option.some.inj (hw₂.symm.trans hw₂')
  have hbegin : SameTree s s.txnBegin := sameTree_withTxdb s _
  rcases walletSyncs_loops_of_first (hbegin.treeOK hs.tree) (OnBranch.txnBegin hs)
    (walkTo_spec (s := s) hw₁) (walkTo_spec (s := s) hw₂).climb hbegin ⟨rfl, rfl, rfl, rfl⟩ hm
    hno with ⟨hd', -⟩ | ⟨hd', hc', -⟩
  · rw [hd] at hd'
    cases hd'
  · rw [hd', hc'] at hc
    cases hc

/-- **The loop "Connect further blocks"** notifies of the blocks it commits. -/
theorem walletSyncs_connectFurther {v : List Uint256} :
    ∀ {s : NodeState} {f a : Uint256}, CommittedAt C s f → Climb s.parentOf f v a →
      SameTree s₀ s → SameTip s₀ s →
      AllOrNothing C env s₀ (v.map fun j => ⟨[.connect j], j⟩) →
      ∃ v' k, v' <+: v ∧ CommittedAt C (NodeState.connectFurther C env v s).2 k ∧
        Climb s.parentOf f v' k ∧ (NodeState.connectFurther C env v s).2.walletSyncs =
          s.walletSyncs ++ v'.flatMap (s.syncsOf true) := by
  induction v with
  | nil =>
    intro s f a hs hc _ _ _
    exact ⟨[], f, List.prefix_refl _, hs, rfl, (List.append_nil _).symm⟩
  | cons j v ih =>
    intro s f a hs hc htree₀ htip₀ hall
    obtain ⟨hp, hc'⟩ := hc
    have hstop : ∀ s' : NodeState, CommittedAt C s' f → s'.walletSyncs = s.walletSyncs →
        ∃ v' k, v' <+: j :: v ∧ CommittedAt C s' k ∧ Climb s.parentOf f v' k ∧
          s'.walletSyncs = s.walletSyncs ++ v'.flatMap (s.syncsOf true) := by
      intro s' hs' hsyncs
      exact ⟨[], f, List.nil_prefix, hs', rfl, by rw [hsyncs, List.flatMap_nil, List.append_nil]⟩
    simp only [NodeState.connectFurther]
    split
    · exact hstop s hs rfl
    · next b hr =>
      obtain ⟨htree, htip, hcom⟩ := setBestChainInner_step hs hp hr
      have hb := readFromDisk_eq_some C env hr
      have hbegin : SameTree s s.txnBegin := sameTree_withTxdb s _
      have hposs : (s.txnBegin.connectBlock C env b j).1 = true →
          (ChainMove.connect j).Possible C env s₀ := by
        intro hok
        refine ⟨b, (readFromDisk_congr htree₀ j).symm.trans hr, ?_⟩
        exact (connectBlock_fst_iff_accepted (hbegin.treeOK hs.tree) (OnBranch.txnBegin hs)
          (htree₀.trans hbegin) ⟨htip₀.1, htip₀.2, htip₀.3, htip₀.4⟩ hp hb).mp hok
      have hrest := fun hok => hall (by simpa using hposs hok)
      have hcommit : (s.txnBegin.connectBlock C env b j).1 = true →
          env.commitFails (b.getHash C) = false := by
        rw [getHash_of_readFromDisk hs.tree hr]
        exact fun hok => (hrest hok).2.1
      have hsyncs := walletSyncs_setBestChainInner (s := s.txnBegin) hb hcommit
      split
      · next hok =>
        rw [if_pos hok] at hcom hsyncs
        have htail := (hrest (setBestChainInner_fst_iff.mp hok).1).2.2
        obtain ⟨v', k, hpre, hk, hclimb, heq⟩ := ih hcom (htree.parentOf ▸ hc')
          (htree₀.trans htree) (htip₀.trans htip) htail
        refine ⟨j :: v', k, List.cons_prefix_cons.mpr ⟨rfl, hpre⟩, hk,
          ⟨hp, htree.parentOf ▸ hclimb⟩, ?_⟩
        rw [heq, hsyncs, htree.syncsOf, hbegin.syncsOf, List.flatMap_cons, List.append_assoc]
        rfl
      · next hok =>
        rw [if_neg hok] at hcom hsyncs
        exact hstop _ hcom hsyncs

/-- `AddToBlockIndex` gives an entry no less trust than its parent has. -/
def TrustRises (s : NodeState) : Prop :=
  ∀ {j p : Uint256}, s.parentOf j = some p → s.trustOf p ≤ s.trustOf j

theorem TrustRises.climb (h : TrustRises s) {v : List Uint256} :
    ∀ {f a : Uint256}, Climb s.parentOf f v a → s.trustOf f ≤ s.trustOf a := by
  induction v with
  | nil =>
    intro f a hc
    obtain rfl : f = a := hc
    exact Nat.le_refl _
  | cons k v ih => exact fun hc => Nat.le_trans (h hc.1) (ih hc.2)

/-- Blocks are postponed only on top of a block with more trust than the tip. -/
theorem postpone_trust {t pindexNew : Uint256} (hne : (s.postpone t pindexNew).2 ≠ []) :
    s.trustOf t < s.trustOf (s.postpone t pindexNew).1 := by
  have hfrom : ∀ (fuel : Nat) (pindex : Uint256) (acc : List Uint256),
      (acc ≠ [] → s.trustOf t < s.trustOf pindex) →
      (s.postponeFrom (s.trustOf t) fuel pindex acc).2 ≠ [] →
      s.trustOf t < s.trustOf (s.postponeFrom (s.trustOf t) fuel pindex acc).1 := by
    intro fuel
    induction fuel with
    | zero => exact fun _ _ h => h
    | succ fuel ih =>
      intro pindex acc h
      simp only [NodeState.postponeFrom]
      split
      · exact h
      · split
        · next hlt => exact ih _ _ fun _ => hlt
        · exact h
  exact hfrom _ _ _ (fun h => absurd rfl h) hne

/-- The blocks a reorganization disconnects are none of those it connects, or connects later. -/
theorem not_mem_of_reorganize (hT : TreeOK C s) (htrust : TrustRises s) {t f a k h : Uint256}
    {vDisconnect walk v v' : List Uint256} (hf : s.findFork t a = some f)
    (hdown : Walk s.parentOf t vDisconnect f) (hup : Walk s.parentOf a walk f)
    (hpost : s.postpone t h = (a, v)) (hpre : v' <+: v) (hfurther : Climb s.parentOf a v' k) :
    ∀ x ∈ vDisconnect.reverse, x ∉ walk.reverse ++ v' := by
  intro x hx hmem
  have hlow := Ancestry.Tree.lt_height_of_mem_climb (T := hT.tree) hdown.climb hx
  have hpath : ∀ {w : List Uint256} {c d : Uint256}, Climb s.parentOf c w d → x ∈ w →
      x ∈ s.path d := by
    intro w c d hc hw
    rw [show s.path d = s.path c ++ w from Ancestry.Tree.path_of_climb (T := hT.tree) hc]
    exact List.mem_append_right _ hw
  have hxt : x ∈ s.path t := hpath hdown.climb hx
  rcases List.mem_append.mp hmem with hw | hv'
  · -- a common block of the two paths is not above the fork
    have := findFork_spec hT.heightOf_of_parentOf hf hxt (hpath hup.climb hw)
    have : s.heightOf f < s.heightOf x := hlow
    omega
  · -- a postponed block on the old path would put the trust of `a` below that of the tip
    obtain ⟨v₁, v₂, rfl⟩ := List.append_of_mem hv'
    have hax : Climb s.parentOf a (v₁ ++ [x]) x := Climb.of_append_cons hfurther
    obtain ⟨w, hxw⟩ := Ancestry.Tree.exists_climb_of_mem_path (T := hT.tree) hxt
    have hle := htrust.climb (hax.append hxw)
    have hne : (s.postpone t h).2 ≠ [] := by
      rw [hpost]
      rintro rfl
      simp at hpre
    have hlt := postpone_trust hne
    rw [hpost] at hlt
    exact Nat.not_lt.mpr hle hlt

theorem committedSyncs_eq {s s' : NodeState} {t k : Uint256}
    (ht : s.txdb.content .hashBestChain = some t) (hk : s'.txdb.content .hashBestChain = some k) :
    committedSyncs s s' = s'.movedSyncs t k := by
  simp only [committedSyncs, ht, hk]

section Call

variable {t h : Uint256} {b : CBlock} (hs : Synced C s t) (hb : s.blockOf h = some b)
include hs hb

/-- A block on top of the tip. -/
theorem walletSyncs_extend (hprev : b.hashPrevBlock = t)
    (hwhole : Accepted C env s b h → env.commitFails h = false) :
    (s.txnBegin.setBestChainInner C env b h).2.walletSyncs = s.walletSyncs ++
      if (s.txnBegin.setBestChainInner C env b h).1 = true then s.movedSyncs t h else [] := by
  have hT := hs.committed.tree
  obtain ⟨e, he, hfile⟩ := NodeState.blockOf_eq_some hb
  obtain ⟨b', hb', hhash, -⟩ := hT.stored he
  obtain rfl := Option.some.inj (hfile.symm.trans hb')
  have hp : s.parentOf h = some t :=
    hT.parentOf_eq_of_hashPrevBlock he hfile hprev hs.committed.known
  have hbegin : SameTree s s.txnBegin := sameTree_withTxdb s _
  have hcommit : (s.txnBegin.connectBlock C env b h).1 = true →
      env.commitFails (b.getHash C) = false := by
    rw [hhash, connectBlock_fst_iff_accepted (hbegin.treeOK hT) (OnBranch.txnBegin hs.committed)
      hbegin ⟨rfl, rfl, rfl, rfl⟩ hp hb]
    exact hwhole
  have hmoved : s.movedSyncs t h = s.syncsOf true h := by
    rw [hT.movedSyncs_of_climb (f := t) (v := []) (w := [h]) rfl ⟨hp, rfl⟩ (by simp)]
    simp
  rw [walletSyncs_setBestChainInner (s := s.txnBegin) hb hcommit, hmoved]
  split
  · rfl
  · exact (List.append_nil _).symm

omit hb in
/-- A reorganization. -/
theorem walletSyncs_setBestChainReorganize (htrust : TrustRises s)
    (hwhole : AllOrNothing C env s (s.reorganizeBatches h)) :
    ∃ k, (s.txnBegin.setBestChainReorganize C env h).2.walletSyncs =
        s.walletSyncs ++ s.movedSyncs t k ∧
      ((s.txnBegin.setBestChainReorganize C env h).1 = true →
        (s.txnBegin.setBestChainReorganize C env h).2.txdb.content .hashBestChain = some k) ∧
      ((s.txnBegin.setBestChainReorganize C env h).1 = false → k = t) := by
  have hT := hs.committed.tree
  have hbegin : SameTree s s.txnBegin := sameTree_withTxdb s _
  have hpost : s.txnBegin.postpone t h = s.postpone t h := postpone_congr hbegin t h
  unfold NodeState.setBestChainReorganize
  simp only [show s.txnBegin.pindexBest = some t from hs.pindexBest, hpost]
  have hclimb : Climb s.parentOf (s.postpone t h).1 (s.postpone t h).2 h := postpone_spec t h
  generalize hp : s.postpone t h = p at *
  have hbatches : ∀ f vDisconnect walk, s.findFork t p.1 = some f →
      s.walkTo f t = some vDisconnect → s.walkTo f p.1 = some walk →
      s.reorganizeBatches h = ⟨reorganizeMoves vDisconnect walk.reverse, p.1⟩ ::
        p.2.map fun j => ⟨[.connect j], j⟩ := by
    intro f vDisconnect walk hf hw₁ hw₂
    simp only [NodeState.reorganizeBatches, hs.pindexBest, hp, hf, hw₁, hw₂]
  cases hr : (s.txnBegin.reorganize C env p.1).1 with
  | false =>
    refine ⟨t, ?_, by simp, by simp⟩
    simp only [Bool.not_false, if_true]
    rw [walletSyncs_abortInvalid, s.movedSyncs_self, List.append_nil]
    refine walletSyncs_reorganize_of_failed hs.committed hs.pindexBest ?_ hr
    intro f vDisconnect walk hf hw₁ hw₂ hfirst
    rw [hbatches f vDisconnect walk hf hw₁ hw₂] at hwhole
    obtain ⟨hall, hcommit, -⟩ := hwhole hfirst
    exact ⟨hall, hcommit⟩
  | true =>
    simp only [Bool.not_true, Bool.false_eq_true, if_false]
    obtain ⟨hcom, htree, htip⟩ := reorganize_committed hs.committed hs.pindexBest hr
    obtain ⟨t', f, vDisconnect, walk, ht', hf, hw₁, hw₂, hsyncs⟩ := walletSyncs_reorganize hr
    obtain rfl : t = t' := Option.some.inj (hs.pindexBest.symm.trans ht')
    rw [findFork_txnBegin] at hf
    rw [walkTo_txnBegin] at hw₁ hw₂
    have hfirst := possible_of_reorganize hs.committed hs.pindexBest hf hw₁ hw₂ hr
    rw [hbatches f vDisconnect walk hf hw₁ hw₂] at hwhole
    obtain ⟨-, -, hrest⟩ := hwhole hfirst
    obtain ⟨v', k, hpre, hk, hclimb', hfurther⟩ := walletSyncs_connectFurther hcom
      (htree.parentOf.symm ▸ hclimb) htree htip hrest
    rw [htree.parentOf] at hclimb'
    have hdown := walkTo_spec hw₁
    have hup := walkTo_spec hw₂
    refine ⟨k, ?_, fun _ => hk.best, fun hno => by simp at hno⟩
    rw [hT.movedSyncs_of_climb hdown.climb (hup.climb.append hclimb')
      (not_mem_of_reorganize hT htrust hf hdown hup hp hpre hclimb'), hfurther, hsyncs,
      htree.syncsOf, hbegin.syncsOf, hbegin.syncsOf]
    simp only [List.reverse_reverse, List.flatMap_append, List.append_assoc]
    rfl

/-- **A call that gets through the database transactions it moves a block in** notifies the wallets
of what it commits, whether or not it succeeds. -/
theorem setBestChain_walletSyncs (htrust : TrustRises s) (hwhole : NotifiesWhole C env s b h) :
    (s.setBestChain C env b h).2.walletSyncs =
      s.walletSyncs ++ committedSyncs s (s.setBestChain C env b h).2 := by
  have htip := hs.hashBestChain
  -- what the branches of the call notify of, and the tip they commit
  obtain ⟨k, hsyncs, hok, hfail⟩ : ∃ k,
      (s.txnBegin.setBestChainBranches C env b h).2.walletSyncs =
        s.walletSyncs ++ s.movedSyncs t k ∧
      ((s.txnBegin.setBestChainBranches C env b h).1 = true →
        (s.txnBegin.setBestChainBranches C env b h).2.txdb.content .hashBestChain = some k) ∧
      ((s.txnBegin.setBestChainBranches C env b h).1 = false → k = t) := by
    rw [setBestChainBranches_of_synced hs]
    split
    · next hprev =>
      have hext := walletSyncs_extend hs hb hprev (hwhole.extend (hprev.trans htip.symm))
      cases hin : (s.txnBegin.setBestChainInner C env b h).1 with
      | true =>
        refine ⟨h, by rw [hext, if_pos hin], fun _ => ?_, by simp⟩
        obtain ⟨e, he, hfile⟩ := NodeState.blockOf_eq_some hb
        obtain ⟨b', hb', hhash, -⟩ := hs.committed.tree.stored he
        obtain rfl := Option.some.inj (hfile.symm.trans hb')
        have hp := hs.committed.tree.parentOf_eq_of_hashPrevBlock he hfile hprev
          hs.committed.known
        exact (setBestChainInner_committed hs.committed hp hb hhash hin).best
      | false =>
        refine ⟨t, ?_, by simp, fun _ => rfl⟩
        rw [hext, hin, s.movedSyncs_self]
        rfl
    · next hprev =>
      exact walletSyncs_setBestChainReorganize hs htrust
        (hwhole.reorganize fun heq => hprev (heq.trans htip))
  cases hres : (s.setBestChain C env b h).1 with
  | true =>
    rw [setBestChain_of_ok C env hres]
    rw [setBestChain_fst] at hres
    obtain ⟨htree, -⟩ := setBestChainBranches_ok hs hb hres
    have hbest : (NodeState.newBestBlock C (s.txnBegin.setBestChainBranches C env b h).2 b
        h).txdb.content .hashBestChain = some k := hok hres
    rw [committedSyncs_eq hs.committed.best hbest]
    refine hsyncs.trans (congrArg (s.walletSyncs ++ ·) ?_)
    exact (htree.movedSyncs t k).symm
  | false =>
    have hbest := (setBestChain_synced_of_failed hs hb hres).committed.best
    rw [committedSyncs_eq hs.committed.best hbest, NodeState.movedSyncs_self,
      setBestChain_of_failed C env hres, hsyncs]
    rw [setBestChain_fst] at hres
    rw [hfail hres, s.movedSyncs_self]

end Call

end OneCall

/-! ## Runs -/

/-- The globals of the tip name the block `p` of the tree. -/
structure TipAt (s : NodeState) (p : Uint256) : Prop where
  known : (s.mapBlockIndex p).isSome
  pindexBest : s.pindexBest = some p
  hashBestChain : s.hashBestChain = p
  nBestHeight : s.nBestHeight = s.heightOf p
  nBestChainTrust : s.nBestChainTrust = s.trustOf p

theorem Synced.tipAt {s : NodeState} {t : Uint256} (h : Synced C s t) : TipAt s t :=
  ⟨h.committed.known, h.pindexBest, h.hashBestChain, h.nBestHeight, h.nBestChainTrust⟩

theorem TipAt.grow {s s' : NodeState} {p : Uint256} (h : TipAt s p) (hgrow : Grows C s s') :
    TipAt s' p := by
  refine ⟨hgrow.treeLe.isSome h.known, hgrow.tip.pindexBest.trans h.pindexBest,
    hgrow.tip.hashBestChain.trans h.hashBestChain, ?_, ?_⟩
  · rw [hgrow.tip.nBestHeight, h.nBestHeight, NodeState.heightOf, NodeState.heightOf,
      hgrow.mapBlockIndex_eq h.known]
  · rw [hgrow.tip.nBestChainTrust, h.nBestChainTrust, NodeState.trustOf, NodeState.trustOf,
      hgrow.mapBlockIndex_eq h.known]

variable (C) in
/-- **Runs with what they committed.** The state `s` is reached, and `log` is what the wallets knew
at the start, followed by the notifications of what each call committed. -/
inductive SyncRun (Call : Env → NodeState → CBlock → Uint256 → Prop) :
    NodeState → List WalletSync → Prop
  | genesis {s : NodeState} {g : Uint256} : GenesisState C s g → TrustRises s →
      SyncRun Call s s.walletSyncs
  | grow {s s' : NodeState} {log : List WalletSync} : SyncRun Call s log → Grows C s s' →
      TrustRises s' → s'.walletSyncs = s.walletSyncs → SyncRun Call s' log
  | call {s : NodeState} {log : List WalletSync} {env : Env} {b : CBlock} {h : Uint256} :
      SyncRun Call s log → s.blockOf h = some b → Call env s b h →
      SyncRun Call (s.setBestChain C env b h).2
        (log ++ committedSyncs s (s.setBestChain C env b h).2)

/-- Between calls the database is committed somewhere, and the globals name some block. -/
theorem setBestChain_tracked {s : NodeState} {t h : Uint256} {b : CBlock} (hs : Synced C s t)
    (hb : s.blockOf h = some b) :
    ∃ k p, CommittedAt C (s.setBestChain C env b h).2 k ∧ TipAt (s.setBestChain C env b h).2 p := by
  cases hok : (s.setBestChain C env b h).1 with
  | false =>
    have hsync := setBestChain_synced_of_failed hs hb hok
    exact ⟨t, t, hsync.committed, hsync.tipAt⟩
  | true =>
    obtain ⟨k, hk, -, hbest, hhash, hheight, htrust⟩ := setBestChain_ok hs hb hok
    obtain ⟨e, he, -⟩ := NodeState.blockOf_eq_some hb
    have hsome : ((s.setBestChain C env b h).2.mapBlockIndex h).isSome := by
      rw [(setBestChain_chainSteps C env s b h).sameIndex.1.isSome h, he]
      rfl
    exact ⟨k, h, hk, hsome, hbest, hhash, hheight, htrust⟩

theorem TrustRises.setBestChain {s : NodeState} (htrust : TrustRises s) (b : CBlock)
    (h : Uint256) : TrustRises (s.setBestChain C env b h).2 := by
  have hsame := (setBestChain_chainSteps C env s b h).sameIndex.1
  have htree : SameTree s { (s.setBestChain C env b h).2 with
      blkFiles := s.blkFiles, pindexGenesisBlock := s.pindexGenesisBlock } :=
    ⟨hsame.skeleton, rfl, rfl⟩
  intro j p hp
  have hp₀ : s.parentOf j = some p := (congrFun htree.parentOf j).symm.trans hp
  have hle := htrust hp₀
  rw [← htree.trustOf] at hle
  exact hle

/-- **Runs whose calls get through the database transactions they move a block in** notify the
wallets of what they commit. -/
theorem syncRun_walletSyncs {s : NodeState} {log : List WalletSync}
    (h : SyncRun C (fun env s b h => NotifiesWhole C env s b h) s log) : s.walletSyncs = log := by
  have hinv : TrustRises s ∧ (∃ k p, CommittedAt C s k ∧ TipAt s p) ∧ s.walletSyncs = log := by
    induction h with
    | genesis hg htrust =>
      exact ⟨htrust, ⟨_, _, hg.synced.committed, hg.synced.tipAt⟩, rfl⟩
    | grow _ hgrow htrust hsyncs ih =>
      obtain ⟨-, ⟨k, p, hk, hp⟩, hlog⟩ := ih
      exact ⟨htrust, ⟨k, p, hk.grow hgrow, hp.grow hgrow⟩, hsyncs.trans hlog⟩
    | call _ hb hwhole ih =>
      obtain ⟨htrust, ⟨k, p, hk, hp⟩, hlog⟩ := ih
      obtain rfl : k = p :=
        Option.some.inj (hk.best.symm.trans (hwhole.tip.trans hp.pindexBest))
      have hs : Synced C _ k :=
        ⟨hk, hp.pindexBest, hp.hashBestChain, hp.nBestHeight, hp.nBestChainTrust⟩
      refine ⟨htrust.setBestChain _ _, setBestChain_tracked hs hb, ?_⟩
      rw [setBestChain_walletSyncs hs hb htrust hwhole, hlog]
  exact hinv.2.2

/-! ## A fork -/

/-- A block on top of genesis, and a longer branch of two blocks beside it. The second block of the
branch pays its miner `nValue`; 0.42 coins are allowed. -/
def forkChain (nValue : Int) : List StoredBlock :=
  [⟨sampleBlock 1 2 1 42000000, 1, 2⟩, ⟨sampleBlock 1 3 2 42000000, 1, 2⟩,
    ⟨sampleBlock 3 4 3 nValue, 2, 3⟩]

/-- Hashes that number the blocks of the fork and their coinbases from one. -/
noncomputable def forkChainCrypto (nValue : Int) : Crypto :=
  labelCrypto ((sampleGenesis :: forkChain nValue).flatMap fun x => x.block.vtx)
    ((sampleGenesis :: forkChain nValue).map fun x => x.block.getBlockHeader)

/-- The node that stores the fork. -/
noncomputable def forkChainNode (nValue : Int) : NodeState :=
  storedNode (forkChainCrypto nValue) (sampleGenesis :: forkChain nValue)

/-- The node after a call for the block on top of genesis. -/
noncomputable def forkChainNode₁ (nValue : Int) : NodeState :=
  ((forkChainNode nValue).setBestChain (forkChainCrypto nValue) (sampleEnv false)
    (sampleBlock 1 2 1 42000000) 2).2

/-- The node after a further call, for the end of the longer branch. -/
noncomputable def forkChainNode₂ (nValue : Int) : NodeState :=
  ((forkChainNode₁ nValue).setBestChain (forkChainCrypto nValue) (sampleEnv false)
    (sampleBlock 3 4 3 nValue) 4).2

theorem trustRises_storedNode {l : List StoredBlock}
    (h : ∀ x ∈ l, ∀ y ∈ l, y.hash C = x.block.hashPrevBlock → y.nChainTrust ≤ x.nChainTrust) :
    TrustRises (storedNode C l) := by
  intro j p hp
  obtain ⟨e, he, hpe⟩ := Option.bind_eq_some_iff.mp hp
  obtain ⟨i, x, hx, -, rfl⟩ := Storable.exists_of_mapBlockIndex he
  have hprev : x.block.hashPrevBlock = p := by
    simp only [storedEntry] at hpe
    split at hpe
    · cases hpe
    · exact Option.some.inj hpe
  rw [NodeState.trustOf, NodeState.trustOf, he]
  cases hp : (storedNode C l).mapBlockIndex p with
  | none => exact Nat.zero_le _
  | some f =>
    obtain ⟨k, y, hy, hyp, rfl⟩ := Storable.exists_of_mapBlockIndex hp
    exact h x (List.mem_of_getElem? hx) y (List.mem_of_getElem? hy) (hyp.trans hprev.symm)

/-- What a run from the node of the fork needs of its blocks. -/
theorem forkChain_start {nValue : Int}
    (hl : Storable (forkChainCrypto nValue) sampleGenesis (forkChain nValue))
    (htrust : ∀ x ∈ sampleGenesis :: forkChain nValue, ∀ y ∈ sampleGenesis :: forkChain nValue,
      y.hash (forkChainCrypto nValue) = x.block.hashPrevBlock → y.nChainTrust ≤ x.nChainTrust)
    (Call : Env → NodeState → CBlock → Uint256 → Prop) :
    SyncRun (forkChainCrypto nValue) Call (forkChainNode nValue) [] :=
  SyncRun.genesis hl.genesisState (trustRises_storedNode htrust)

theorem forkChain_storable :
    Storable (forkChainCrypto 42000000) sampleGenesis (forkChain 42000000) where
  nodup := by decide +kernel
  hash_ne_zero := by decide +kernel
  genesis := by decide +kernel
  parent := by decide +kernel
  distinct := by decide +kernel

theorem forkChain_storable_greedy :
    Storable (forkChainCrypto 42000001) sampleGenesis (forkChain 42000001) where
  nodup := by decide +kernel
  hash_ne_zero := by decide +kernel
  genesis := by decide +kernel
  parent := by decide +kernel
  distinct := by decide +kernel

/-- A call in the fork for the block on top of genesis. -/
theorem forkChain_notifiesWhole₁ : NotifiesWhole (forkChainCrypto 42000000) (sampleEnv false)
    (forkChainNode 42000000) (sampleBlock 1 2 1 42000000) 2 where
  tip := by decide +kernel
  extend _ _ := rfl
  reorganize hne := absurd (by decide +kernel) hne

/-- A further call for the longer branch, all of whose blocks are in order. -/
theorem forkChain_notifiesWhole₂ : NotifiesWhole (forkChainCrypto 42000000) (sampleEnv false)
    (forkChainNode₁ 42000000) (sampleBlock 3 4 3 42000000) 4 where
  tip := by decide +kernel
  extend heq := absurd heq (by decide +kernel)
  reorganize _ := by
    have hbatches : (forkChainNode₁ 42000000).reorganizeBatches 4 =
        [⟨[.disconnect 2, .connect 3, .connect 4], 4⟩] := by
      decide +kernel
    rw [hbatches]
    have hdown : (ChainMove.disconnect 2).Possible (forkChainCrypto 42000000) (sampleEnv false)
        (forkChainNode₁ 42000000) := by
      show ((forkChainNode₁ 42000000).readFromDisk _ _ 2).isSome = true
      decide +kernel
    have hup₁ : (ChainMove.connect 3).Possible (forkChainCrypto 42000000) (sampleEnv false)
        (forkChainNode₁ 42000000) :=
      ⟨sampleBlock 1 3 2 42000000, by decide +kernel, 1, by decide +kernel, by decide +kernel⟩
    have hup₂ : (ChainMove.connect 4).Possible (forkChainCrypto 42000000) (sampleEnv false)
        (forkChainNode₁ 42000000) :=
      ⟨sampleBlock 3 4 3 42000000, by decide +kernel, 3, by decide +kernel, by decide +kernel⟩
    refine fun _ => ⟨?_, rfl, trivial⟩
    simp [hdown, hup₁, hup₂]

/-- In the fork the reorganization succeeds, and the wallets hear of four moves. -/
theorem syncRun_walletSyncs_forkChain :
    ∃ log, SyncRun (forkChainCrypto 42000000)
        (fun env s b h => NotifiesWhole (forkChainCrypto 42000000) env s b h)
        (forkChainNode₂ 42000000) log ∧
      log.map (fun x => (x.block.hashMerkleRoot, x.fConnect)) =
        [(2, true), (2, false), (3, true), (4, true)] ∧
      (forkChainNode₂ 42000000).walletSyncs = log := by
  have hrun := SyncRun.call (SyncRun.call
    (forkChain_start forkChain_storable (by decide +kernel) _) (by decide +kernel)
    forkChain_notifiesWhole₁) (by decide +kernel) forkChain_notifiesWhole₂
  exact ⟨_, hrun, by decide +kernel, syncRun_walletSyncs hrun⟩

/-- When the second block of the longer branch pays its miner too much, the reorganization fails
and nothing of it is committed; the wallets were told that the tip was disconnected and the first
block of the branch connected. -/
theorem not_forall_syncRun_walletSyncs :
    ¬ ∀ (C : Crypto) (s : NodeState) (log : List WalletSync), HashInjective C →
      SyncRun C (fun _ _ _ _ => True) s log → s.walletSyncs = log := by
  intro hall
  have hrun : SyncRun (forkChainCrypto 42000001) (fun _ _ _ _ => True) (forkChainNode₂ 42000001)
      (([] ++ committedSyncs (forkChainNode 42000001) (forkChainNode₁ 42000001)) ++
        committedSyncs (forkChainNode₁ 42000001) (forkChainNode₂ 42000001)) :=
    SyncRun.call (SyncRun.call
      (forkChain_start forkChain_storable_greedy (by decide +kernel) fun _ _ _ _ => True)
      (by decide +kernel) trivial) (by decide +kernel) trivial
  have heq := hall (forkChainCrypto 42000001) (forkChainNode₂ 42000001) _
    (labelCrypto_hashInjective _ _) hrun
  have hthree : (forkChainNode₂ 42000001).walletSyncs.length = 3 := by decide +kernel
  have hone : (([] ++ committedSyncs (forkChainNode 42000001) (forkChainNode₁ 42000001)) ++
      committedSyncs (forkChainNode₁ 42000001) (forkChainNode₂ 42000001)).length = 1 := by
    decide +kernel
  have := (congrArg List.length heq).symm.trans hthree
  exact absurd (hone.symm.trans this) (by decide)

end MotaCoin
