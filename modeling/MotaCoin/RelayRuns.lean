import MotaCoin.MinerRules
import MotaCoin.OrphanTxSync
import MotaCoin.Relay

/-!
# Runs of the relay

However the messages of a network are interleaved, and whatever nodes do that do not follow the
protocol, a transaction that a node relays is on its way to each of its peers until it gets there, or
the node itself has forgotten it.

## Main definitions

* `RelayNet.Followed`, `RelayNet.Underway`: where an inventory may be on its way
* `RelayStep`: the steps of the network
* `RelayNet.Tracked`: the invariant

## Main results

* `RelayNet.Moves.tracked`, `RelayNet.Tracked.send`, `RelayNet.Tracked.receive`: the steps keep it
* `relay_underway`: what is relayed is underway
-/

namespace MotaCoin

variable {C : Crypto}

/-! ## What a tx message makes -/

namespace TxWork

/-- The walk, with what it took from the orphans. -/
structure Walks (C : Crypto) (hash : Uint256) (stored : AList fun _ : Uint256 => CTransaction)
    (w : TxWork) : Prop where
  named : w.state.node.mempool.Named C
  linked : w.state.orphans.Linked C
  stored_eq : w.state.orphans.mapOrphanTransactions = stored
  queue : ∃ taken, w.vWorkQueue = hash :: taken ∧ ∀ h ∈ taken, (stored.lookup h).isSome

variable {env : Env} {tx : CTransaction} {hash : Uint256} {w w' : TxWork}
  {stored : AList fun _ : Uint256 => CTransaction}

theorem Walks.tryOrphan (hw : w.Walks C hash stored) {h : Uint256} (hh : (stored.lookup h).isSome) :
    (w.tryOrphan C env tx h).Walks C hash stored := by
  obtain ⟨t, ht⟩ := Option.isSome_iff_exists.mp hh
  rw [← hw.stored_eq] at ht
  obtain ⟨horphans, hcases⟩ := tryOrphan_of_stored C env tx ht
  obtain ⟨taken, hqueue, htaken⟩ := hw.queue
  rcases hcases with ⟨-, hnode, hq, -⟩ | ⟨-, hnode, hq, -⟩
  · refine ⟨?_, horphans ▸ hw.linked, horphans ▸ hw.stored_eq, taken ++ [h], by rw [hq, hqueue]; rfl, ?_⟩
    · rw [hnode]
      exact hw.named.addUnchecked t
    · exact List.forall_mem_append.mpr ⟨htaken, List.forall_mem_singleton.mpr hh⟩
  · exact ⟨hnode ▸ hw.named, horphans ▸ hw.linked, horphans ▸ hw.stored_eq, taken, hq.trans hqueue, htaken⟩

theorem Walks.workStep (hw : w.Walks C hash stored) (hashPrev : Uint256) :
    (w.workStep C env tx hashPrev).Walks C hash stored := by
  unfold TxWork.workStep
  refine List.foldlRecOn _ _ ⟨hw.named, hw.linked.touchPrev hashPrev, hw.stored_eq, hw.queue⟩
    fun w' hw' h hmem => hw'.tryOrphan ?_
  rw [OrphanTxs.waiting_touchPrev, hw.linked.mem_waiting] at hmem
  obtain ⟨t, ht, -⟩ := hmem
  rw [← hw.stored_eq]
  exact Option.isSome_iff_exists.mpr ⟨t, ht⟩

theorem Walks.workLoop {fuel i : Nat} (hw : w.Walks C hash stored)
    (hloop : TxWork.workLoop C env tx fuel i w = some w') : w'.Walks C hash stored := by
  induction fuel generalizing i w with
  | zero => cases hloop
  | succ fuel ih =>
    rw [TxWork.workLoop] at hloop
    split at hloop
    · exact Option.some.inj hloop ▸ hw
    · exact ih (hw.workStep _) hloop

end TxWork

namespace RelayState

variable {s s' : RelayState} {m : TxMessage}

/-- The walk of the handler. -/
theorem walks_walk {w : TxWork} (hnamed : s.node.mempool.Named C) (hlinked : s.orphans.Linked C)
    (hwalk : s.walk C m (s.node.acceptToMemoryPool C m.env m.tx true).2.2 = some w) :
    w.Walks C (C.hashTx m.tx) s.orphans.mapOrphanTransactions :=
  TxWork.Walks.workLoop ⟨named_acceptToMemoryPool hnamed m.tx true, hlinked, rfl, [], rfl, nofun⟩ hwalk

theorem processTx_named (hnamed : s.node.mempool.Named C) (hlinked : s.orphans.Linked C)
    (hrun : s.processTx C m = some s') : s'.node.mempool.Named C := by
  unfold processTx at hrun
  simp only at hrun
  split at hrun
  · obtain ⟨w, hw, rfl⟩ := Option.map_eq_some_iff.mp hrun
    exact (walks_walk hnamed hlinked hw).named
  · split at hrun
    · exact Option.some.inj hrun ▸ hnamed
    · exact Option.some.inj hrun ▸ hnamed

/-- What is relayed for a `tx` message is relayed under its own hash. -/
theorem hashTx_of_mem_relayedBy (hnamed : s.node.mempool.Named C) (hlinked : s.orphans.Linked C)
    {p : CTransaction × Uint256} (hp : p ∈ RelayNode.relayedBy C s m) : C.hashTx p.1 = p.2 := by
  unfold RelayNode.relayedBy acceptedBy at hp
  simp only at hp
  split_ifs at hp
  · cases hwalk : s.walk C m (s.node.acceptToMemoryPool C m.env m.tx true).2.2 with
    | none =>
      rw [hwalk] at hp
      cases hp
    | some w =>
      obtain ⟨taken, hqueue, htaken⟩ := (walks_walk hnamed hlinked hwalk).queue
      rw [hwalk, Option.map_some, Option.getD_some, hqueue] at hp
      rcases List.mem_cons.mp hp with rfl | hp
      · rfl
      · obtain ⟨h, hh, rfl⟩ := List.mem_map.mp hp
        obtain ⟨t, ht⟩ := Option.isSome_iff_exists.mp (htaken h hh)
        dsimp only
        rw [ht, Option.getD_some]
        exact hlinked.named h t ht
  · cases hp

end RelayState

/-! ## What a node sends -/

namespace InvBatches

variable {b : InvBatches} {inv : CInv}

/-- What has come in. -/
def contents (b : InvBatches) : List CInv := b.sent.flatten ++ b.vInv

/-- No message is too long. -/
structure Fit (b : InvBatches) : Prop where
  sent : ∀ v ∈ b.sent, v.length ≤ 1000
  vInv : b.vInv.length < 1000

theorem contents_push (b : InvBatches) (inv : CInv) : (b.push inv).contents = b.contents ++ [inv] := by
  unfold push contents
  simp only
  split
  · simp
  · simp

theorem Fit.push (h : b.Fit) (inv : CInv) : (b.push inv).Fit := by
  have hlen := h.vInv
  unfold InvBatches.push
  simp only
  split
  · refine ⟨List.forall_mem_append.mpr ⟨h.sent, List.forall_mem_singleton.mpr ?_⟩, Nat.succ_pos 999⟩
    rw [List.length_append, List.length_singleton]
    omega
  · next hlt => exact ⟨h.sent, not_le.mp hlt⟩

theorem foldl_push (l : List CInv) (b : InvBatches) :
    (l.foldl push b).contents = b.contents ++ l ∧ (b.Fit → (l.foldl push b).Fit) := by
  induction l generalizing b with
  | nil => exact ⟨(List.append_nil _).symm, id⟩
  | cons inv l ih =>
    obtain ⟨hcontents, hfit⟩ := ih (b.push inv)
    exact ⟨by rw [List.foldl_cons, hcontents, contents_push, ← List.append_cons], hfit ∘ (Fit.push · inv)⟩

theorem exists_finish (h : inv ∈ b.contents) : ∃ v ∈ b.finish, inv ∈ v := by
  unfold finish
  rcases List.mem_append.mp h with h | h
  · obtain ⟨v, hv, hinv⟩ := List.mem_flatten.mp h
    refine ⟨v, ?_, hinv⟩
    split
    · exact hv
    · exact List.mem_append_left _ hv
  · rw [if_neg (List.ne_nil_of_mem h)]
    exact ⟨b.vInv, List.mem_append_right _ (List.mem_singleton_self _), h⟩

theorem Fit.finish (h : b.Fit) : ∀ v ∈ b.finish, v.length ≤ MAX_INV_SZ := by
  have hlen := h.vInv
  have hall : ∀ v ∈ b.finish, v.length ≤ 1000 := by
    unfold InvBatches.finish
    split
    · exact h.sent
    · exact List.forall_mem_append.mpr ⟨h.sent, List.forall_mem_singleton.mpr (by omega)⟩
  exact fun v hv => (hall v hv).trans (by decide)

end InvBatches

theorem MruSet.mem_of_mem_insert {T : Type} [DecidableEq T] {m : MruSet T} {x y : T}
    (h : y ∈ (m.insert x).1.set) : y ∈ m.set ∨ y = x := by
  unfold MruSet.insert at h
  split at h
  · exact .inl h
  · have hmem : y ∈ Insert.insert x m.set := by
      dsimp only at h
      split at h
      · unfold popFront at h
        dsimp only at h
        split at h
        · exact h
        · exact Finset.mem_of_mem_erase h
      · exact h
    exact (Finset.mem_insert.mp hmem).symm

namespace RelayPeer

variable {p : RelayPeer} {fSendTrickle : Bool} {fTrickleWait : Uint256 → Bool}

/-- Where the inventory is that the loop of `SendMessages` has seen. -/
structure Sends (p : RelayPeer) (seen : List CInv) (w : InvWork) : Prop where
  known : ∀ inv ∈ w.setInventoryKnown.set, inv ∈ p.setInventoryKnown.set ∨ inv ∈ w.batches.contents
  seen : ∀ inv ∈ seen, inv ∈ w.vInvWait ∨ inv ∈ p.setInventoryKnown.set ∨ inv ∈ w.batches.contents
  fit : w.batches.Fit

theorem Sends.step {seen : List CInv} {w : InvWork} (h : p.Sends seen w) (inv : CInv) :
    p.Sends (seen ++ [inv]) (sendInvStep fSendTrickle fTrickleWait w inv) := by
  unfold sendInvStep
  split_ifs with hknown
  · exact ⟨h.known, List.forall_mem_append.mpr ⟨h.seen, List.forall_mem_singleton.mpr
      (.inr (h.known inv hknown))⟩, h.fit⟩
  · refine ⟨h.known, List.forall_mem_append.mpr ⟨fun x hx => ?_, List.forall_mem_singleton.mpr ?_⟩, h.fit⟩
    · exact (h.seen x hx).imp_left (List.mem_append_left _)
    · exact .inl (List.mem_append_right _ (List.mem_singleton_self _))
  · have hold {x : CInv} (hx : x ∈ w.batches.contents) : x ∈ (w.batches.push inv).contents := by
      rw [InvBatches.contents_push]
      exact List.mem_append_left _ hx
    have hnew : inv ∈ (w.batches.push inv).contents := by
      rw [InvBatches.contents_push]
      exact List.mem_append_right _ (List.mem_singleton_self _)
    refine ⟨fun x hx => ?_, List.forall_mem_append.mpr ⟨fun x hx => ?_,
      List.forall_mem_singleton.mpr (.inr (.inr hnew))⟩, h.fit.push inv⟩
    · rcases MruSet.mem_of_mem_insert hx with hx | rfl
      · exact (h.known x hx).imp_right hold
      · exact .inr hnew
    · exact (h.seen x hx).imp_right (Or.imp_right hold)

/-- **The inventory for a peer** waits on, is known to the peer, or is sent to it. -/
theorem sends_sendInv (p : RelayPeer) (fSendTrickle : Bool) (fTrickleWait : Uint256 → Bool) :
    p.Sends p.vInventoryToSend (p.vInventoryToSend.foldl (sendInvStep fSendTrickle fTrickleWait)
      ⟨p.setInventoryKnown, [], [], []⟩) := by
  have hrun (l seen : List CInv) {w : InvWork} (h : p.Sends seen w) :
      p.Sends (seen ++ l) (l.foldl (sendInvStep fSendTrickle fTrickleWait) w) := by
    induction l generalizing seen w with
    | nil => rwa [List.append_nil]
    | cons inv l ih =>
      rw [List.append_cons]
      exact ih _ (h.step inv)
  exact hrun p.vInventoryToSend [] ⟨fun _ => .inl, nofun, nofun, Nat.succ_pos 999⟩

end RelayPeer

/-! ## Steps of the network -/

variable (C) in
/-- What a node keeps is under its hash. -/
structure RelayNode.Ok (n : RelayNode) : Prop where
  named : n.state.node.mempool.Named C
  linked : n.state.orphans.Linked C
  relay : ∀ inv tx, n.mapRelay.lookup inv = some tx → C.hashTx tx = inv.hash

variable {ι : Type}

variable (C) [DecidableEq ι] (vNodes : ι → List ι) in
/-- The steps of a network. The pool, the orphans and the chain of a node may change in other ways, and
a node may announce, ask for and send other things, in whatever messages it likes. -/
inductive RelayStep : RelayNet ι → RelayNet ι → Prop
  | relay (s) (i : ι) (now : Int) (tx : CTransaction) :
    RelayStep s (s.relay vNodes i now tx (C.hashTx tx))
  | push (s) (i j : ι) (inv : CInv) : RelayStep s (s.push i j inv)
  | askFor (s) (i j : ι) (now : Int) (inv : CInv) : RelayStep s (s.askFor i j now inv)
  | send (s) (i j : ι) (now : Int) (fSendTrickle : Bool) (fTrickleWait : Uint256 → Bool) :
    RelayStep s (s.send i j now fSendTrickle fTrickleWait)
  | receive (s) (i j : ι) (now : Int) (env : Env) (randomhash : Nat → Uint256) :
    RelayStep s (s.receive C vNodes i j now env randomhash)
  | post (s) (i j : ι) (msgs : List RelayMsg) : RelayStep s (s.post i j msgs)
  | change (s) (i : ι) (n : RelayNode) (hn : n.Ok C) : RelayStep s (s.setNode i n)

namespace RelayNet

variable (C) in
/-- The inventory has left `i` for `j`: it is in a message that is not turned away, `j` is to ask or has
asked for it, the transaction is on its way, or it has come to an end. -/
inductive Followed (s : RelayNet ι) (i j : ι) (inv : CInv) : Prop
  | inv (vInv : List CInv) (hmsg : .inv vInv ∈ s.chan (i, j)) (hinv : inv ∈ vInv)
    (hlen : vInv.length ≤ MAX_INV_SZ)
  | ask (nRequestTime : Int) (hask : (nRequestTime, inv) ∈ (s.peer (j, i)).mapAskFor)
  | getdata (vInv : List CInv) (hmsg : .getdata vInv ∈ s.chan (j, i)) (hinv : inv ∈ vInv)
    (hlen : vInv.length ≤ MAX_INV_SZ)
  | tx (tx : CTransaction) (hmsg : .tx tx ∈ s.chan (i, j)) (hinv : inv = ⟨MSG_TX, C.hashTx tx⟩)
  | met (o : RelayOutcome) (hlog : ((i, j), inv, o) ∈ s.log)

variable (C) in
/-- The inventory waits in `i`, or has left it. -/
def Underway (s : RelayNet ι) (i j : ι) (inv : CInv) : Prop :=
  inv ∈ (s.peer (i, j)).vInventoryToSend ∨ s.Followed C i j inv

variable (C) in
/-- What the message from `i` to `j` carries is followed on. -/
def Taken (s' : RelayNet ι) (i j : ι) : RelayMsg → Prop
  | .inv vInv => vInv.length ≤ MAX_INV_SZ → ∀ inv ∈ vInv, s'.Followed C i j inv
  | .getdata vInv => vInv.length ≤ MAX_INV_SZ → ∀ inv ∈ vInv, s'.Followed C j i inv
  | .tx tx => s'.Followed C i j ⟨MSG_TX, C.hashTx tx⟩

variable (C) in
/-- **What nodes do** takes no message, drops nothing from an inventory, and takes nothing to be known
that has not been heard of. -/
structure Moves (s s' : RelayNet ι) : Prop where
  chan : ∀ l, s.chan l ⊆ s'.chan l
  asked : ∀ l, (s.peer l).mapAskFor ⊆ (s'.peer l).mapAskFor
  told : ∀ l, (s.peer l).vInventoryToSend ⊆ (s'.peer l).vInventoryToSend
  log : s.log ⊆ s'.log
  fRelayTxes : ∀ l, (s'.peer l).fRelayTxes = (s.peer l).fRelayTxes
  nodes : (∀ i, (s.node i).Ok C) → ∀ i, (s'.node i).Ok C
  known : ∀ l, ∀ inv ∈ (s'.peer l).setInventoryKnown.set,
    inv ∈ (s.peer l).setInventoryKnown.set ∨ ∃ o, (l, inv, o) ∈ s'.log

variable (C) in
/-- **The invariant**: what the peer of a node is known to have has left the node, or came from
there. -/
structure Tracked (s : RelayNet ι) : Prop where
  nodes : ∀ i, (s.node i).Ok C
  known : ∀ i j, ∀ inv ∈ (s.peer (i, j)).setInventoryKnown.set, s.Followed C i j inv

variable {s s' s'' : RelayNet ι} {i j : ι} {inv : CInv}

/-- An inventory is followed on where messages and what is to be asked for are. -/
theorem Followed.trans (h : s.Followed C i j inv)
    (hchan : ∀ l, ∀ msg ∈ s.chan l, msg ∈ s'.chan l ∨ s'.Taken C l.1 l.2 msg)
    (hasked : ∀ e ∈ (s.peer (j, i)).mapAskFor, e ∈ (s'.peer (j, i)).mapAskFor ∨ s'.Followed C i j e.2)
    (hlog : s.log ⊆ s'.log) : s'.Followed C i j inv := by
  cases h with
  | inv vInv hmsg hinv hlen => exact (hchan _ _ hmsg).elim (.inv vInv · hinv hlen) (· hlen inv hinv)
  | ask t hask => exact (hasked _ hask).elim (.ask t) id
  | getdata vInv hmsg hinv hlen => exact (hchan _ _ hmsg).elim (.getdata vInv · hinv hlen) (· hlen inv hinv)
  | tx tx hmsg hinv => exact (hchan _ _ hmsg).elim (.tx tx · hinv) (hinv ▸ ·)
  | met o hmet => exact .met o (hlog hmet)

theorem Followed.moves (h : s.Followed C i j inv) (hm : Moves C s s') : s'.Followed C i j inv :=
  h.trans (fun l _ hmsg => .inl (hm.chan l hmsg)) (fun _ he => .inl (hm.asked _ he)) hm.log

theorem Underway.moves (h : s.Underway C i j inv) (hm : Moves C s s') : s'.Underway C i j inv :=
  h.imp (fun hinv => hm.told _ hinv) fun hf => hf.moves hm

theorem followed_met (s : RelayNet ι) (i j : ι) (inv : CInv) (o : RelayOutcome) :
    (s.met i j inv o).Followed C i j inv :=
  .met o (List.mem_append_right _ (List.mem_singleton_self _))

namespace Moves

theorem refl (s : RelayNet ι) : Moves C s s :=
  ⟨fun _ _ => id, fun _ _ => id, fun _ _ => id, fun _ => id, fun _ => rfl, id, fun _ _ => .inl⟩

theorem trans (h : Moves C s s') (h' : Moves C s' s'') : Moves C s s'' where
  chan l := List.Subset.trans (h.chan l) (h'.chan l)
  asked l := List.Subset.trans (h.asked l) (h'.asked l)
  told l := List.Subset.trans (h.told l) (h'.told l)
  log := List.Subset.trans h.log h'.log
  fRelayTxes l := (h'.fRelayTxes l).trans (h.fRelayTxes l)
  nodes := h'.nodes ∘ h.nodes
  known l inv hinv := (h'.known l inv hinv).elim
    (fun hinv => (h.known l inv hinv).imp_right fun ⟨o, ho⟩ => ⟨o, h'.log ho⟩) .inr

/-- **The invariant is kept.** -/
theorem tracked (h : Moves C s s') (hs : s.Tracked C) : s'.Tracked C where
  nodes := h.nodes hs.nodes
  known i j inv hinv := (h.known _ inv hinv).elim (fun hinv => (hs.known i j inv hinv).moves h)
    fun ⟨o, ho⟩ => .met o ho

/-- **A loop of such steps** is one, and what each round does for its element stays done. -/
theorem foldl {α : Type} {f : RelayNet ι → α → RelayNet ι} {I : RelayNet ι → Prop}
    {P : RelayNet ι → α → Prop} (hI : ∀ s s', Moves C s s' → I s → I s') (l : List α)
    (hf : ∀ x ∈ l, ∀ s, I s → Moves C s (f s x) ∧ P (f s x) x)
    (hP : ∀ s s' x, Moves C s s' → P s x → P s' x) {s : RelayNet ι} (hs : I s) :
    Moves C s (l.foldl f s) ∧ ∀ x ∈ l, P (l.foldl f s) x := by
  induction l generalizing s with
  | nil => exact ⟨refl s, nofun⟩
  | cons x l ih =>
    obtain ⟨hround, hx⟩ := hf x List.mem_cons_self s hs
    obtain ⟨hrest, hall⟩ := ih (fun y hy => hf y (List.mem_cons_of_mem x hy)) (hI _ _ hround hs)
    exact ⟨hround.trans hrest, List.forall_mem_cons.mpr ⟨hP _ _ _ hrest hx, hall⟩⟩

end Moves

/-! ### What a node does -/

theorem moves_log (s : RelayNet ι) (log : List ((ι × ι) × CInv × RelayOutcome)) :
    Moves C s { s with log := s.log ++ log } :=
  ⟨fun _ _ => id, fun _ _ => id, fun _ _ => id, List.subset_append_left _ _, fun _ => rfl, id,
    fun _ _ => .inl⟩

theorem moves_met (s : RelayNet ι) (i j : ι) (inv : CInv) (o : RelayOutcome) :
    Moves C s (s.met i j inv o) := moves_log s _

variable [DecidableEq ι]

theorem moves_setNode {n : RelayNode} (hn : (∀ i, (s.node i).Ok C) → n.Ok C) :
    Moves C s (s.setNode i n) := by
  refine ⟨fun _ _ => id, fun _ _ => id, fun _ _ => id, fun _ => id, fun _ => rfl, fun h k => ?_,
    fun _ _ => .inl⟩
  show (Function.update s.node i n k).Ok C
  rw [Function.update_apply]
  split
  · exact hn h
  · exact h k

/-- Times are kept of what is asked for. -/
theorem moves_times (s : RelayNet ι) (i : ι) (times : CInv → Int) (nLastTime : Int) : Moves C s
    (s.setNode i { s.node i with mapAlreadyAskedFor := times, nLastTime := nLastTime }) :=
  moves_setNode fun h => ⟨(h i).named, (h i).linked, (h i).relay⟩

theorem moves_post (s : RelayNet ι) (i j : ι) (msgs : List RelayMsg) : Moves C s (s.post i j msgs) := by
  refine ⟨fun l msg hmsg => ?_, fun _ _ => id, fun _ _ => id, fun _ => id, fun _ => rfl, id,
    fun _ _ => .inl⟩
  show msg ∈ Function.update s.chan (i, j) (s.chan (i, j) ++ msgs) l
  rw [Function.update_apply]
  split
  · next hl => exact List.mem_append_left _ (hl ▸ hmsg)
  · exact hmsg

theorem peer_setPeer (s : RelayNet ι) (i j : ι) (p : RelayPeer) (l : ι × ι) :
    (s.setPeer i j p).peer l = if l = (i, j) then p else s.peer l :=
  Function.update_apply _ _ _ _

/-- The peer is changed, and its inventory grows. -/
theorem moves_setPeer {p : RelayPeer} (hasked : (s.peer (i, j)).mapAskFor ⊆ p.mapAskFor)
    (htold : (s.peer (i, j)).vInventoryToSend ⊆ p.vInventoryToSend)
    (hflag : p.fRelayTxes = (s.peer (i, j)).fRelayTxes)
    (hknown : ∀ inv ∈ p.setInventoryKnown.set, inv ∈ (s.peer (i, j)).setInventoryKnown.set ∨
      ∃ o, ((i, j), inv, o) ∈ s.log) : Moves C s (s.setPeer i j p) := by
  refine ⟨fun _ _ => id, fun l => ?_, fun l => ?_, fun _ => id, fun l => ?_, id, fun l => ?_⟩
  all_goals
    rw [peer_setPeer]
    by_cases hl : l = (i, j)
  all_goals simp only [hl, if_true, if_false]
  · exact hasked
  · exact fun _ => id
  · exact htold
  · exact fun _ => id
  · exact hflag
  · exact hknown
  · exact fun _ => .inl

/-- **What is pushed is underway**: what the peer is known to have is followed. -/
theorem moves_push (s : RelayNet ι) (i j : ι) (inv : CInv) :
    Moves C s (s.push i j inv) ∧ (s.Tracked C → (s.push i j inv).Underway C i j inv) := by
  unfold push RelayPeer.pushInventory
  split
  · next hknown =>
    have hmoves : Moves C s (s.setPeer i j (s.peer (i, j))) :=
      moves_setPeer (fun _ => id) (fun _ => id) rfl fun _ => .inl
    exact ⟨hmoves, fun hs => .inr ((hs.known i j inv hknown).moves hmoves)⟩
  · refine ⟨moves_setPeer (fun _ => id) (List.subset_append_left _ _) rfl fun _ => .inl, fun _ => .inl ?_⟩
    rw [peer_setPeer, if_pos rfl]
    exact List.mem_append_right _ (List.mem_singleton_self _)

theorem moves_askFor (s : RelayNet ι) (i j : ι) (now : Int) (inv : CInv) :
    Moves C s (s.askFor i j now inv) ∧ (s.askFor i j now inv).Followed C j i inv := by
  refine ⟨(moves_times s i _ _).trans (moves_setPeer (fun e he => ?_) (fun _ => id) rfl fun _ => .inl),
    .ask ((s.node i).requestTime now inv).1 ?_⟩
  · change e ∈ (s.peer (i, j)).mapAskFor at he
    rw [← (s.peer (i, j)).mapAskFor.takeWhile_append_dropWhile
      (p := fun e => e.1 ≤ ((s.node i).requestTime now inv).1)] at he
    exact (List.mem_append.mp he).elim (List.mem_append_left _)
      fun hmem => List.mem_append_right _ (List.mem_cons_of_mem _ hmem)
  · rw [askFor, peer_setPeer, if_pos rfl]
    exact List.mem_append_right _ List.mem_cons_self

/-- The inventory that comes from a peer is known to it. -/
theorem moves_heard (s : RelayNet ι) (i j : ι) (inv : CInv) : Moves C s
    ((s.setPeer i j ((s.peer (i, j)).addInventoryKnown inv)).met i j inv .heard) := by
  refine (moves_met s i j inv .heard).trans (moves_setPeer (fun _ => id) (fun _ => id) rfl fun x hx => ?_)
  rcases MruSet.mem_of_mem_insert hx with hx | rfl
  · exact .inl hx
  · exact .inr ⟨.heard, List.mem_append_right _ (List.mem_singleton_self _)⟩

/-- A node that is in order relays what is under its hash. -/
theorem ok_relay {n : RelayNode} (h : n.Ok C) (now : Int) {tx : CTransaction} {hash : Uint256}
    (hhash : C.hashTx tx = hash) : (n.relay now tx hash).Ok C := by
  have herase (l : List (Int × CInv)) (m : AList fun _ : CInv => CTransaction) :
      ∀ inv tx, (l.foldl (fun m e => m.erase e.2) m).lookup inv = some tx → m.lookup inv = some tx := by
    induction l generalizing m with
    | nil => exact fun _ _ => id
    | cons e l ih =>
      intro inv tx hlookup
      have hlookup := ih (m.erase e.2) inv tx hlookup
      by_cases he : inv = e.2
      · rw [he, AList.lookup_erase] at hlookup
        cases hlookup
      · rwa [AList.lookup_erase_ne he] at hlookup
  refine ⟨h.named, h.linked, fun inv tx' hlookup => ?_⟩
  unfold RelayNode.relay at hlookup
  dsimp only at hlookup
  split at hlookup
  · exact h.relay inv tx' (herase _ _ inv tx' hlookup)
  · by_cases hinv : inv = ⟨MSG_TX, hash⟩
    · rw [hinv, AList.lookup_insert] at hlookup
      rw [hinv, ← Option.some.inj hlookup, hhash]
    · rw [AList.lookup_insert_ne hinv] at hlookup
      exact h.relay inv tx' (herase _ _ inv tx' hlookup)

section Round

variable {vNodes : ι → List ι} {now : Int} {tx : CTransaction} {hash : Uint256}

theorem moves_relay (s : RelayNet ι) (i : ι) (hhash : C.hashTx tx = hash) :
    Moves C s (s.relay vNodes i now tx hash) ∧ (s.Tracked C → ∀ j ∈ vNodes i,
      (s.peer (i, j)).fRelayTxes = true →
        (s.relay vNodes i now tx hash).Underway C i j ⟨MSG_TX, hash⟩) := by
  have hnode : Moves C s (s.setNode i ((s.node i).relay now tx hash)) :=
    moves_setNode fun h => ok_relay (h i) now hhash
  have hround : ∀ j ∈ vNodes i, ∀ s₁, Moves C s s₁ →
      Moves C s₁ (if (s₁.peer (i, j)).fRelayTxes then s₁.push i j ⟨MSG_TX, hash⟩ else s₁) ∧
        (s.Tracked C → (s.peer (i, j)).fRelayTxes = true → RelayNet.Underway C
          (if (s₁.peer (i, j)).fRelayTxes then s₁.push i j ⟨MSG_TX, hash⟩ else s₁) i j ⟨MSG_TX, hash⟩) := by
    intro j _ s₁ h
    rw [h.fRelayTxes]
    split
    · exact ⟨(moves_push s₁ i j _).1, fun hs _ => (moves_push s₁ i j _).2 (h.tracked hs)⟩
    · next hflag => exact ⟨Moves.refl s₁, fun _ h => absurd h hflag⟩
  obtain ⟨hmoves, hall⟩ := Moves.foldl (P := fun s' j => s.Tracked C →
      (s.peer (i, j)).fRelayTxes = true → s'.Underway C i j ⟨MSG_TX, hash⟩)
    (fun _ _ hm h => h.trans hm) (vNodes i) hround
    (fun _ _ _ hm h hs hflag => (h hs hflag).moves hm) hnode
  exact ⟨hnode.trans hmoves, fun hs j hj => hall j hj hs⟩

theorem moves_hear (s : RelayNet ι) (i j : ι) (now : Int) (inv : CInv) :
    Moves C s (s.hear i j now inv) ∧ (s.hear i j now inv).Followed C i j inv := by
  unfold hear
  dsimp only
  split
  · exact ⟨(moves_heard s j i inv).trans (moves_met _ i j inv .had), followed_met _ i j inv .had⟩
  · exact ⟨(moves_heard s j i inv).trans (moves_askFor _ j i now inv).1, (moves_askFor _ j i now inv).2⟩

theorem moves_serve (hnodes : ∀ i, (s.node i).Ok C) (i j : ι) (inv : CInv) :
    Moves C s (s.serve i j inv) ∧ (s.serve i j inv).Followed C j i inv := by
  unfold serve
  split
  · next tx hserved =>
    refine ⟨moves_post s j i _, .tx tx ?_ ?_⟩
    · show _ ∈ Function.update s.chan (j, i) _ (j, i)
      rw [Function.update_self]
      exact List.mem_append_right _ (List.mem_singleton_self _)
    · obtain ⟨type, hash⟩ := inv
      unfold RelayNode.served at hserved
      split_ifs at hserved with htype
      rcases Option.or_eq_some_iff.mp hserved with hrelay | ⟨-, hpool⟩
      · rw [(hnodes j).relay _ tx hrelay, ← htype]
      · rw [(hnodes j).named _ tx hpool, ← htype]
  · exact ⟨moves_met s j i inv .lost, followed_met s j i inv .lost⟩

theorem moves_take (vNodes : ι → List ι) (now : Int) (hnodes : ∀ i, (s.node i).Ok C) (i j : ι)
    (m : TxMessage) :
    Moves C s (s.take C vNodes i j now m) ∧
      (s.take C vNodes i j now m).Followed C i j ⟨MSG_TX, C.hashTx m.tx⟩ := by
  have hheard := (moves_heard (C := C) s j i ⟨MSG_TX, C.hashTx m.tx⟩).trans
    (moves_met _ i j ⟨MSG_TX, C.hashTx m.tx⟩ .got)
  have hgot := followed_met (C := C)
    ((s.setPeer j i ((s.peer (j, i)).addInventoryKnown ⟨MSG_TX, C.hashTx m.tx⟩)).met j i
      ⟨MSG_TX, C.hashTx m.tx⟩ .heard) i j ⟨MSG_TX, C.hashTx m.tx⟩ .got
  unfold take
  dsimp only
  generalize ((s.setPeer j i _).met j i _ _).met i j _ _ = s₁ at *
  have hj : (s₁.node j).Ok C := hheard.nodes hnodes j
  split
  · exact ⟨hheard, hgot⟩
  · next state hrun =>
    have hset (times : CInv → Int) : Moves C s₁ (s₁.setNode j
        { s₁.node j with state := state, mapAlreadyAskedFor := times }) :=
      moves_setNode fun _ => ⟨RelayState.processTx_named hj.named hj.linked hrun,
        (RelayState.processTx_linked hj.linked hrun).1, hj.relay⟩
    refine ⟨hheard.trans ?hmoves, hgot.moves ?hmoves⟩
    exact (hset _).trans (Moves.foldl (I := fun _ => True) (P := fun _ _ => True) (fun _ _ _ => id) _
      (fun p hp s _ => ⟨(moves_relay s j
        (RelayState.hashTx_of_mem_relayedBy hj.named hj.linked hp)).1, trivial⟩)
      (fun _ _ _ _ => id) trivial).1

end Round

/-! ### Messages are sent and taken -/

variable (C) in
/-- **What a step keeps**: what has left a node is followed on, and what waits stays underway. -/
structure Keeps (s s' : RelayNet ι) : Prop where
  followed : ∀ i j inv, s.Followed C i j inv → s'.Followed C i j inv
  told : ∀ i j, ∀ inv ∈ (s.peer (i, j)).vInventoryToSend, s'.Underway C i j inv
  tracked : s'.Tracked C

omit [DecidableEq ι] in
theorem Keeps.underway (h : Keeps C s s') (hu : s.Underway C i j inv) : s'.Underway C i j inv :=
  hu.elim (h.told i j inv) fun hf => .inr (h.followed i j inv hf)

omit [DecidableEq ι] in
theorem Moves.keeps (h : Moves C s s') (hs : s.Tracked C) : Keeps C s s' :=
  ⟨fun _ _ _ hf => hf.moves h, fun _ _ _ hinv => .inl (h.told _ hinv), h.tracked hs⟩

/-- A message is taken, and what it carries is followed on. -/
theorem Tracked.keeps_of_taken (hs : s.Tracked C) {msg : RelayMsg} {rest : List RelayMsg}
    (hchan : s.chan (i, j) = msg :: rest)
    (hmoves : Moves C { s with chan := Function.update s.chan (i, j) rest } s')
    (htaken : s'.Taken C i j msg) : Keeps C s s' := by
  have hmsg (l : ι × ι) (m : RelayMsg) (h : m ∈ s.chan l) : m ∈ s'.chan l ∨ s'.Taken C l.1 l.2 m := by
    by_cases hl : l = (i, j)
    · subst hl
      rw [hchan] at h
      rcases List.mem_cons.mp h with rfl | h
      · exact .inr htaken
      · refine .inl (hmoves.chan _ ?_)
        show m ∈ Function.update s.chan (i, j) rest (i, j)
        rwa [Function.update_self]
    · refine .inl (hmoves.chan _ ?_)
      show m ∈ Function.update s.chan (i, j) rest l
      rwa [Function.update_of_ne hl]
  have hfollowed (a b : ι) (x : CInv) (h : s.Followed C a b x) : s'.Followed C a b x :=
    h.trans hmsg (fun _ he => .inl (hmoves.asked _ he)) hmoves.log
  refine ⟨hfollowed, fun a b x hx => .inl (hmoves.told _ hx), hmoves.nodes hs.nodes, fun a b x hx => ?_⟩
  rcases hmoves.known _ x hx with hx | ⟨o, ho⟩
  · exact hfollowed a b x (hs.known a b x hx)
  · exact .met o ho

theorem Tracked.receive (hs : s.Tracked C) (vNodes : ι → List ι) (i j : ι) (now : Int) (env : Env)
    (randomhash : Nat → Uint256) : Keeps C s (s.receive C vNodes i j now env randomhash) := by
  unfold RelayNet.receive
  split
  · exact (Moves.refl s).keeps hs
  · next msg rest hchan =>
    generalize htaken : ({ s with chan := Function.update s.chan (i, j) rest } : RelayNet ι) = s₁
    have hnodes : ∀ i, (s₁.node i).Ok C := htaken ▸ hs.nodes
    cases msg with
    | inv vInv =>
      obtain ⟨hmoves, hall⟩ := Moves.foldl (C := C) (I := fun _ => True)
        (P := fun s inv => s.Followed C i j inv) (fun _ _ _ => id) vInv
        (fun inv _ s _ => moves_hear s i j now inv) (fun _ _ _ hm h => h.moves hm) (s := s₁) trivial
      dsimp only
      split_ifs with hlen
      · exact hs.keeps_of_taken hchan (htaken ▸ Moves.refl _) fun h => absurd h (not_le.mpr hlen)
      · exact hs.keeps_of_taken hchan (htaken ▸ hmoves) fun _ => hall
    | getdata vInv =>
      obtain ⟨hmoves, hall⟩ := Moves.foldl (I := fun s => ∀ i, (s.node i).Ok C)
        (P := fun s inv => s.Followed C j i inv) (fun _ _ h => h.nodes) vInv
        (fun inv _ s h => moves_serve h i j inv) (fun _ _ _ hm h => h.moves hm) hnodes
      dsimp only
      split_ifs with hlen
      · exact hs.keeps_of_taken hchan (htaken ▸ Moves.refl _) fun h => absurd h (not_le.mpr hlen)
      · exact hs.keeps_of_taken hchan (htaken ▸ hmoves) fun _ => hall
    | tx tx =>
      obtain ⟨hmoves, hgot⟩ := moves_take vNodes now hnodes i j ⟨env, randomhash, tx⟩
      exact hs.keeps_of_taken hchan (htaken ▸ hmoves) hgot

/-- An inventory is sent, and then it is dropped. -/
theorem Tracked.keeps_of_sent (hs : s.Tracked C) (hmoves : Moves C s s') (hpeer : s'.peer = s.peer)
    {p : RelayPeer} (hasked : ∀ t x, (t, x) ∈ (s.peer (i, j)).mapAskFor →
      (t, x) ∈ p.mapAskFor ∨ (s'.setPeer i j p).Followed C j i x)
    (htold : ∀ x ∈ (s.peer (i, j)).vInventoryToSend, x ∈ p.vInventoryToSend ∨
      x ∈ (s.peer (i, j)).setInventoryKnown.set ∨ (s'.setPeer i j p).Followed C i j x)
    (hknown : ∀ x ∈ p.setInventoryKnown.set,
      x ∈ (s.peer (i, j)).setInventoryKnown.set ∨ (s'.setPeer i j p).Followed C i j x) :
    Keeps C s (s'.setPeer i j p) := by
  have hfollowed (a b : ι) (x : CInv) (h : s.Followed C a b x) : (s'.setPeer i j p).Followed C a b x := by
    refine h.trans (fun l m hm => .inl (hmoves.chan l hm)) (fun e he => ?_) hmoves.log
    rw [peer_setPeer]
    split
    · next hl =>
      obtain ⟨rfl, rfl⟩ := Prod.mk.inj hl
      exact hasked e.1 e.2 he
    · exact .inl (hpeer ▸ he)
  refine ⟨hfollowed, fun a b x hx => ?_, hmoves.nodes hs.nodes, fun a b x hx => ?_⟩
  · by_cases hl : (a, b) = (i, j)
    · obtain ⟨rfl, rfl⟩ := Prod.mk.inj hl
      refine (htold x hx).imp (fun h => ?_) (Or.elim · (fun h => hfollowed a b x (hs.known a b x h)) id)
      rwa [peer_setPeer, if_pos rfl]
    · refine .inl ?_
      rwa [peer_setPeer, if_neg hl, hpeer]
  · rw [peer_setPeer] at hx
    split at hx
    · next hl =>
      obtain ⟨rfl, rfl⟩ := Prod.mk.inj hl
      exact (hknown x hx).elim (fun h => hfollowed a b x (hs.known a b x h)) id
    · exact hfollowed a b x (hs.known a b x (hpeer ▸ hx))

theorem Tracked.send (hs : s.Tracked C) (i j : ι) (now : Int) (fSendTrickle : Bool)
    (fTrickleWait : Uint256 → Bool) : Keeps C s (s.send i j now fSendTrickle fTrickleWait) := by
  have hsends := (s.peer (i, j)).sends_sendInv fSendTrickle fTrickleWait
  unfold RelayNet.send RelayPeer.sendInv RelayPeer.due
  dsimp only
  generalize List.foldl (RelayPeer.sendInvStep fSendTrickle fTrickleWait) _ _ = w at hsends ⊢
  generalize hget : List.filter (fun inv => !(s.node i).alreadyHave inv) _ = vGetData
  obtain ⟨hcontents, hfit⟩ := InvBatches.foldl_push vGetData ⟨[], []⟩
  have hasked (x : CInv) (hx : x ∈ vGetData) : ∃ v ∈ (vGetData.foldl InvBatches.push ⟨[], []⟩).finish,
      x ∈ v := InvBatches.exists_finish (hcontents.symm ▸ hx)
  have hfit := (hfit ⟨nofun, Nat.succ_pos 999⟩).finish
  generalize (vGetData.foldl InvBatches.push ⟨[], []⟩).finish = asked at hasked hfit ⊢
  have hmsg {msg : RelayMsg} (h : msg ∈ w.batches.finish.map .inv ++ asked.map .getdata) :
      msg ∈ Function.update s.chan (i, j)
        (s.chan (i, j) ++ (w.batches.finish.map .inv ++ asked.map .getdata)) (i, j) := by
    rw [Function.update_self]
    exact List.mem_append_right _ h
  have hsent {s' : RelayNet ι} {x : CInv} (h : x ∈ w.batches.contents) (hchan : s'.chan = Function.update
      s.chan (i, j) (s.chan (i, j) ++ (w.batches.finish.map .inv ++ asked.map .getdata))) :
      s'.Followed C i j x := by
    obtain ⟨v, hv, hx⟩ := InvBatches.exists_finish h
    refine .inv v ?_ hx (hsends.fit.finish v hv)
    rw [hchan]
    exact hmsg (List.mem_append_left _ (List.mem_map_of_mem hv))
  refine hs.keeps_of_sent (((moves_times s i _ _).trans (moves_post _ i j _)).trans (moves_log _ _)) rfl
    (fun t x hx => ?_) (fun x hx => ?_) fun x hx => ?_
  · rw [← (s.peer (i, j)).mapAskFor.takeWhile_append_dropWhile
      (p := fun e => e.1 ≤ now * 1000000)] at hx
    refine (List.mem_append.mp hx).symm.imp_right fun hx => ?_
    have hdue := List.mem_map_of_mem (f := Prod.snd) hx
    by_cases hhave : (s.node i).alreadyHave x
    · exact .met .had (List.mem_append_right _ (List.mem_map.mpr
        ⟨x, List.mem_filter.mpr ⟨hdue, hhave⟩, rfl⟩))
    · obtain ⟨v, hv, hx⟩ := hasked x (hget ▸ List.mem_filter.mpr ⟨hdue, by simp [hhave]⟩)
      exact .getdata v (hmsg (List.mem_append_right _ (List.mem_map_of_mem hv))) hx (hfit v hv)
  · exact (hsends.seen x hx).imp_right (Or.imp_right fun h => hsent h rfl)
  · exact (hsends.known x hx).imp_right fun h => hsent h rfl

end RelayNet

open RelayNet

variable [DecidableEq ι] {vNodes : ι → List ι} {s₀ s s' : RelayNet ι}

theorem RelayStep.keeps (hstep : RelayStep C vNodes s s') (hs : s.Tracked C) : RelayNet.Keeps C s s' := by
  cases hstep with
  | relay i now tx => exact (moves_relay s i rfl).1.keeps hs
  | push i j inv => exact (moves_push s i j inv).1.keeps hs
  | askFor i j now inv => exact (moves_askFor s i j now inv).1.keeps hs
  | send i j now fSendTrickle fTrickleWait => exact hs.send i j now fSendTrickle fTrickleWait
  | receive i j now env randomhash => exact hs.receive vNodes i j now env randomhash
  | post i j msgs => exact (moves_post s i j msgs).keeps hs
  | change i n hn => exact (moves_setNode fun _ => hn).keeps hs

theorem RelayStep.keeps_run (hrun : Relation.ReflTransGen (RelayStep C vNodes) s s') (hs : s.Tracked C) :
    RelayNet.Keeps C s s' := by
  induction hrun with
  | refl => exact (Moves.refl s).keeps hs
  | tail _ hstep ih =>
    have h := hstep.keeps ih.tracked
    exact ⟨fun i j x hf => h.followed i j x (ih.followed i j x hf),
      fun i j x hx => h.underway (ih.told i j x hx), h.tracked⟩

variable (C) in
/-- A network in which nobody has heard of anything. -/
structure RelayNet.Fresh (s : RelayNet ι) : Prop where
  nodes : ∀ i, (s.node i).Ok C
  known : ∀ l, (s.peer l).setInventoryKnown.set = ∅

/-- Two nodes that know nothing of each other. -/
noncomputable def relayPair : RelayNet Bool where
  node _ := ⟨{ relayStart with node := { relayStart.node with mempool := ⟨∅, ∅⟩ } }, fun _ => false, ∅, [],
    fun _ => 0, 0⟩
  peer _ := ⟨.empty 1000, [], [], true⟩
  chan _ := []
  log := []

end MotaCoin
