import MotaCoin.OrphanBlocks

/-!
# Resolving orphan blocks

Blocks that are accepted once their previous block is known end up in the block tree in whatever order
`ProcessBlock` gets them, as far as their ancestors are known, and the others wait as orphans. The
walk through the orphans accepts all that wait for an accepted block, at any depth, because each
accepted orphan goes to the end of the work queue. The test against too little work, which only a
block on top of the tip is spared, can refuse a block that comes early, so it is a condition.

## Main definitions

* `AcceptRun`: the states in which blocks of a set are accepted, one after the other
* `Deliverable`: the blocks pass the tests and are accepted once their previous block is known
* `Resolved`: the ancestors of a block are in the set or known

## Main results

* `tooLittleWork_eq`: the test against too little work does not change when the tree grows
* `Delivery.processBlock`: what one call preserves
* `deliver_resolves_blocks`: where the blocks end
-/

namespace MotaCoin

variable {C : Crypto}

/-! ## Growing trees -/

/-- Every entry of the first state is in the second, up to links and money supply. -/
def IndexLe (n n' : NodeState) : Prop :=
  ∀ h e, n.mapBlockIndex h = some e → ∃ e', n'.mapBlockIndex h = some e' ∧ e'.skeleton = e.skeleton

/-- The previous entry of each entry is known. -/
def ParentsKnown (n : NodeState) : Prop :=
  ∀ h e p, n.mapBlockIndex h = some e → e.pprev = some p → (n.mapBlockIndex p).isSome

namespace IndexLe

variable {n n' n'' : NodeState}

theorem refl (n : NodeState) : IndexLe n n := fun _ e he => ⟨e, he, rfl⟩

theorem trans (h : IndexLe n n') (h' : IndexLe n' n'') : IndexLe n n'' := by
  intro k e he
  obtain ⟨e', he', hsk⟩ := h k e he
  obtain ⟨e'', he'', hsk'⟩ := h' k e' he'
  exact ⟨e'', he'', hsk'.trans hsk⟩

theorem isSome (h : IndexLe n n') {k : Uint256} (hk : (n.mapBlockIndex k).isSome) :
    (n'.mapBlockIndex k).isSome := by
  obtain ⟨e, he⟩ := Option.isSome_iff_exists.mp hk
  obtain ⟨e', he', -⟩ := h k e he
  exact Option.isSome_iff_exists.mpr ⟨e', he'⟩

theorem of_sameIndex (h : SameIndex n n') : IndexLe n n' := by
  intro k e he
  obtain ⟨e', he', hsk⟩ := h.symm.exists_entry he
  exact ⟨e', he', hsk.symm⟩

theorem acceptBlock (env : Env) (n : NodeState) (b : CBlock) :
    IndexLe n (n.acceptBlock C env b).2 := by
  rcases acceptBlock_cases C env n b with ⟨-, hsame, -⟩ | ⟨e, -, hentry, hindex, -⟩
  · intro k e he
    exact ⟨e, hsame ▸ he, rfl⟩
  · have hnone : n.mapBlockIndex e.hash = none := hentry.hash ▸ hentry.unknown
    refine IndexLe.trans (fun k e' he' => ?_) (of_sameIndex hindex)
    obtain ⟨e'', he'', hsk, -⟩ := treeLe_insertIndex hnone k e' he'
    exact ⟨e'', he'', hsk⟩

end IndexLe

/-- Walking back from an entry does not depend on later blocks. -/
theorem getLastBlockIndexFrom_skeleton {n n' : NodeState} (hle : IndexLe n n')
    (hknown : ParentsKnown n) (fProofOfStake : Bool) (fuel : Nat) {h : Uint256} {e e' : CBlockIndex}
    (he : n.mapBlockIndex h = some e) (hsk : e'.skeleton = e.skeleton) :
    (n'.getLastBlockIndexFrom fProofOfStake fuel e').skeleton =
      (n.getLastBlockIndexFrom fProofOfStake fuel e).skeleton := by
  induction fuel generalizing h e e' with
  | zero => exact hsk
  | succ fuel ih =>
    have hprev : e'.pprev = e.pprev := (CBlockIndex.eq_of_skeleton hsk).2.1
    have hpos : e'.isProofOfStake = e.isProofOfStake :=
      congrArg (Nat.testBit · 0) (CBlockIndex.header_of_skeleton hsk).2.2
    rcases hp : e.pprev with _ | p
    · rw [hp] at hprev
      simp only [NodeState.getLastBlockIndexFrom, NodeState.prev, hp, hprev, Option.bind_none]
      exact hsk
    · rw [hp] at hprev
      obtain ⟨q, hq⟩ := Option.isSome_iff_exists.mp (hknown h e p he hp)
      obtain ⟨q', hq', hskq⟩ := hle p q hq
      simp only [NodeState.getLastBlockIndexFrom, NodeState.prev, hp, hprev, Option.bind_some, hq,
        hq', hpos]
      split
      · exact ih hq hskq
      · exact hsk

/-- **The test against too little work stays the same when the tree grows.** -/
theorem tooLittleWork_eq {n n' : NodeState} (hle : IndexLe n n') (hknown : ParentsKnown n)
    (hsync : n'.hashSyncCheckpoint = n.hashSyncCheckpoint)
    (hsome : (n.mapBlockIndex n.hashSyncCheckpoint).isSome) (b : CBlock) :
    n'.tooLittleWork b = n.tooLittleWork b := by
  obtain ⟨e, he⟩ := Option.isSome_iff_exists.mp hsome
  obtain ⟨e', he', hsk⟩ := hle _ e he
  have htime : e'.nTime = e.nTime := (CBlockIndex.header_of_skeleton hsk).2.1
  have hheight : e'.nHeight = e.nHeight := (CBlockIndex.eq_of_skeleton hsk).2.2.2.2.1
  have hbits : (n'.getLastBlockIndex e' b.isProofOfStake).nBits =
      (n.getLastBlockIndex e b.isProofOfStake).nBits := by
    unfold NodeState.getLastBlockIndex
    rw [hheight]
    exact (CBlockIndex.header_of_skeleton
      (getLastBlockIndexFrom_skeleton hle hknown b.isProofOfStake e.nHeight he hsk)).1
  simp only [NodeState.tooLittleWork, hsync, he, he', htime, hbits]

/-! ## Sets of blocks -/

variable (C) in
/-- The states in which blocks of `T` with a known previous block are accepted, one after the
other. -/
def AcceptRun (envs : List (Uint256 → Env)) (T : List CBlock) : NodeState → NodeState → Prop :=
  Relation.ReflTransGen fun n n' => ∃ env ∈ envs, ∃ b ∈ T,
    (n.mapBlockIndex b.hashPrevBlock).isSome ∧ n' = (n.acceptBlock C (env (b.getHash C)) b).2

variable (C) in
/-- **The blocks of a delivery**: each is checked, is accepted in every state on the way in which its
previous block is known, repeats no stake, and has enough work for the synchronized checkpoint. -/
structure Deliverable (n : NodeState) (T : List CBlock) (msgs : List ((Uint256 → Env) × CBlock)) :
    Prop where
  mem_iff : ∀ b, b ∈ T ↔ ∃ m ∈ msgs, m.2 = b
  checked : ∀ m ∈ msgs, m.2.checkBlock C (m.1 (m.2.getHash C)).adjustedTime true true true = true
  accepted : ∀ n', AcceptRun C (msgs.map Prod.fst) T n n' → ∀ m ∈ msgs, ∀ b ∈ T,
    (n'.mapBlockIndex b.hashPrevBlock).isSome → n'.mapBlockIndex (b.getHash C) = none →
    (n'.acceptBlock C (m.1 (b.getHash C)) b).1 = true
  stakes : ∀ b ∈ T, ∀ b' ∈ T, b.isProofOfStake = true → b'.isProofOfStake = true →
    b.getProofOfStake = b'.getProofOfStake → b = b'
  unseen : ∀ b ∈ T, b.isProofOfStake = true → b.getProofOfStake ∉ n.setStakeSeen
  noPending : n.hashPendingCheckpoint = 0
  checkpoint : (n.mapBlockIndex n.hashSyncCheckpoint).isSome
  enoughWork : ∀ b ∈ T, n.tooLittleWork b = false
  parentsKnown : ParentsKnown n

variable (C) in
/-- The ancestors of a block of the set are in the set or known. -/
inductive Resolved (n : NodeState) (T : List CBlock) : CBlock → Prop
  | known {b : CBlock} : b ∈ T → (n.mapBlockIndex (b.getHash C)).isSome → Resolved n T b
  | parent {b : CBlock} : b ∈ T → (n.mapBlockIndex b.hashPrevBlock).isSome → Resolved n T b
  | step {b b' : CBlock} : Resolved n T b → b' ∈ T → b'.hashPrevBlock = b.getHash C →
    Resolved n T b'

/-! ## The node on the way -/

variable (C) in
/-- What a node has become when blocks of the set were accepted: it has grown by resolved blocks, and
has seen their stakes. -/
structure GrownNode (n₀ : NodeState) (T : List CBlock) (envs : List (Uint256 → Env))
    (n : NodeState) : Prop where
  run : AcceptRun C envs T n₀ n
  le : IndexLe n₀ n
  checkpoints : SameCheckpoints n₀ n
  resolved : ∀ k, (n.mapBlockIndex k).isSome → (n₀.mapBlockIndex k).isSome ∨
    ∃ b ∈ T, b.getHash C = k ∧ Resolved C n₀ T b
  stakes : ∀ x ∈ n.setStakeSeen, x ∈ n₀.setStakeSeen ∨
    ∃ b ∈ T, b.isProofOfStake = true ∧ b.getProofOfStake = x ∧
      (n.mapBlockIndex (b.getHash C)).isSome

namespace GrownNode

variable {n₀ n : NodeState} {T : List CBlock} {msgs : List ((Uint256 → Env) × CBlock)}

theorem refl (n : NodeState) (envs : List (Uint256 → Env)) : GrownNode C n T envs n :=
  ⟨.refl, IndexLe.refl n, ⟨rfl, rfl⟩, fun _ => Or.inl, fun _ => Or.inl⟩

/-- **A block of the set whose previous block is known is accepted**, and nothing else is new. -/
theorem acceptBlock (hdel : Deliverable C n₀ T msgs)
    (h : GrownNode C n₀ T (msgs.map Prod.fst) n) {m : (Uint256 → Env) × CBlock} (hm : m ∈ msgs)
    {b : CBlock} (hb : b ∈ T) (hprev : (n.mapBlockIndex b.hashPrevBlock).isSome)
    (hnew : n.mapBlockIndex (b.getHash C) = none) :
    (n.acceptBlock C (m.1 (b.getHash C)) b).1 = true ∧
      GrownNode C n₀ T (msgs.map Prod.fst) (n.acceptBlock C (m.1 (b.getHash C)) b).2 ∧
      (∀ k, ((n.acceptBlock C (m.1 (b.getHash C)) b).2.mapBlockIndex k).isSome ↔
        (n.mapBlockIndex k).isSome ∨ k = b.getHash C) := by
  have hok := hdel.accepted n h.run m hm b hb hprev hnew
  have hle := IndexLe.acceptBlock (C := C) (m.1 (b.getHash C)) n b
  rcases acceptBlock_cases C (m.1 (b.getHash C)) n b with
    ⟨hfail, -⟩ | ⟨e, -, hentry, hindex, hcheck⟩
  · rw [hok] at hfail
    cases hfail
  · have hkeys : ∀ k, ((n.acceptBlock C (m.1 (b.getHash C)) b).2.mapBlockIndex k).isSome ↔
        (n.mapBlockIndex k).isSome ∨ k = b.getHash C := by
      intro k
      rw [hindex.isSome, insertIndex_mapBlockIndex, hentry.hash]
      by_cases hk : k = b.getHash C
      · simp [hk]
      · simp [hk]
    have hresolved : Resolved C n₀ T b := by
      rcases h.resolved _ hprev with hold | ⟨b', -, heq, hres⟩
      · exact .parent hb hold
      · exact .step hres hb heq.symm
    have hcheck' := hcheck (h.checkpoints.hashPendingCheckpoint.trans hdel.noPending)
    refine ⟨hok, ⟨?_, h.le.trans hle, ?_, ?_, ?_⟩, hkeys⟩
    · exact h.run.tail ⟨m.1, List.mem_map.mpr ⟨m, hm, rfl⟩, b, hb, hprev, rfl⟩
    · exact ⟨hcheck'.1.trans h.checkpoints.1, hcheck'.2.trans h.checkpoints.2⟩
    · intro k hk
      rcases (hkeys k).mp hk with hk | rfl
      · exact h.resolved k hk
      · exact Or.inr ⟨b, hb, rfl, hresolved⟩
    · intro x hx
      rw [hindex.setStakeSeen, NodeState.insertIndex, hentry.isProofOfStake, hentry.stake] at hx
      have hold : x ∈ n.setStakeSeen → x ∈ n₀.setStakeSeen ∨
          ∃ b' ∈ T, b'.isProofOfStake = true ∧ b'.getProofOfStake = x ∧
            ((n.acceptBlock C (m.1 (b.getHash C)) b).2.mapBlockIndex (b'.getHash C)).isSome := by
        intro hx
        rcases h.stakes x hx with hx | ⟨b', hb', hpos, heq, hsome⟩
        · exact Or.inl hx
        · exact Or.inr ⟨b', hb', hpos, heq, hle.isSome hsome⟩
      split at hx
      · next hpos =>
        rcases List.mem_cons.mp hx with rfl | hx
        · exact Or.inr ⟨b, hb, hpos, rfl, (hkeys _).mpr (Or.inr rfl)⟩
        · exact hold hx
      · exact hold hx

end GrownNode

/-! ## The walk through the orphans -/

section Walk

variable {n₀ : NodeState} {T : List CBlock} {msgs : List ((Uint256 → Env) × CBlock)}
  (hdel : Deliverable C n₀ T msgs) {m : (Uint256 → Env) × CBlock} (hm : m ∈ msgs)

include hdel hm

/-- The orphans on top of an entry are all accepted and queued. -/
theorem foldl_drainOrphan_accepts (bs : List CBlock) {w : BlockWork}
    (hgrown : GrownNode C n₀ T (msgs.map Prod.fst) w.state.node) (hT : ∀ b ∈ bs, b ∈ T)
    (hprev : ∀ b ∈ bs, (w.state.node.mapBlockIndex b.hashPrevBlock).isSome)
    (hnew : ∀ b ∈ bs, w.state.node.mapBlockIndex (b.getHash C) = none)
    (hnodup : (bs.map (CBlock.getHash C)).Nodup) :
    GrownNode C n₀ T (msgs.map Prod.fst) (bs.foldl (BlockWork.drainOrphan C m.1) w).state.node ∧
      (bs.foldl (BlockWork.drainOrphan C m.1) w).vWorkQueue =
        w.vWorkQueue ++ bs.map (CBlock.getHash C) ∧
      ∀ k, ((bs.foldl (BlockWork.drainOrphan C m.1) w).state.node.mapBlockIndex k).isSome ↔
        (w.state.node.mapBlockIndex k).isSome ∨ k ∈ bs.map (CBlock.getHash C) := by
  induction bs generalizing w with
  | nil => exact ⟨hgrown, by simp, by simp⟩
  | cons b bs ih =>
    rw [List.forall_mem_cons] at hT hprev hnew
    rw [List.map_cons, List.nodup_cons] at hnodup
    obtain ⟨hok, hgrown', hkeys⟩ := hgrown.acceptBlock hdel hm hT.1 hprev.1 hnew.1
    have hqueue : (BlockWork.drainOrphan C m.1 w b).vWorkQueue =
        w.vWorkQueue ++ [b.getHash C] := by
      simp only [BlockWork.drainOrphan, hok, if_true]
    have hkeys' : ∀ k, ((BlockWork.drainOrphan C m.1 w b).state.node.mapBlockIndex k).isSome ↔
        (w.state.node.mapBlockIndex k).isSome ∨ k = b.getHash C := hkeys
    obtain ⟨hend, hendqueue, hendkeys⟩ := ih (w := BlockWork.drainOrphan C m.1 w b) hgrown' hT.2
      (fun b' hb' => (hkeys' _).mpr (Or.inl (hprev.2 b' hb')))
      (fun b' hb' => by
        by_contra hsome
        rcases (hkeys' _).mp (Option.isSome_iff_ne_none.mpr hsome) with hold | heq
        · rw [hnew.2 b' hb'] at hold
          cases hold
        · exact hnodup.1 (heq ▸ List.mem_map.mpr ⟨b', hb', rfl⟩))
      hnodup.2
    refine ⟨hend, ?_, fun k => ?_⟩
    · rw [List.foldl_cons, hendqueue, hqueue]
      simp
    · rw [List.foldl_cons, hendkeys, hkeys', List.map_cons, List.mem_cons, or_assoc]

omit hdel hm in
variable (C) in
/-- The invariant of the walk: an orphan whose previous block is known has it ahead in the queue. -/
structure Walking (n₀ : NodeState) (T : List CBlock) (envs : List (Uint256 → Env)) (i : Nat)
    (w : BlockWork) : Prop where
  booked : w.state.Booked C
  mem : ∀ b, w.state.Stored b → b ∈ T
  node : GrownNode C n₀ T envs w.state.node
  queue : ∀ q ∈ w.vWorkQueue, (w.state.node.mapBlockIndex q).isSome
  waiting : ∀ o, w.state.Stored o → (w.state.node.mapBlockIndex o.hashPrevBlock).isSome →
    o.hashPrevBlock ∈ w.vWorkQueue.drop i

omit hdel hm in
/-- The block is in the tree or stored as an orphan. -/
def BlockState.Has (s : BlockState) (h : Uint256) : Prop :=
  (s.node.mapBlockIndex h).isSome ∨ (s.mapOrphanBlocks.lookup h).isSome

/-- A round of the walk, after which no known block is lost. -/
theorem Walking.drainStep {i : Nat} {w : BlockWork} {hashPrev : Uint256}
    (h : Walking C n₀ T (msgs.map Prod.fst) i w) (hget : w.vWorkQueue[i]? = some hashPrev) :
    Walking C n₀ T (msgs.map Prod.fst) (i + 1) (w.drainStep C m.1 hashPrev) ∧
      ∀ k, w.state.Has k → (w.drainStep C m.1 hashPrev).state.Has k := by
  obtain ⟨hlt, hval⟩ := List.getElem?_eq_some_iff.mp hget
  have hindexed := h.queue hashPrev (List.mem_of_getElem? hget)
  have hof : ∀ b, b ∈ w.state.orphansOf hashPrev ↔
      w.state.Stored b ∧ b.hashPrevBlock = hashPrev := fun b =>
    BlockState.mem_orphansOf h.booked.keyed
  have hunindexed : ∀ b, w.state.Stored b → w.state.node.mapBlockIndex (b.getHash C) = none := by
    intro b hb
    have hlook := (h.booked.lookup_iff _ b).mpr ⟨rfl, hb⟩
    exact (BlockState.hasIndex_eq_false_iff.mp (h.booked.unindexed _ (by rw [hlook]; rfl))).1
  have hnodup : ((w.state.orphansOf hashPrev).map (CBlock.getHash C)).Nodup := by
    -- one hash, one stored block
    refine List.Nodup.map_on (fun b hb b' hb' heq => ?_) ?_
    · have h₁ := (h.booked.lookup_iff _ b).mpr ⟨rfl, ((hof b).mp hb).1⟩
      rw [heq, (h.booked.lookup_iff _ b').mpr ⟨rfl, ((hof b').mp hb').1⟩] at h₁
      exact (Option.some.inj h₁).symm
    · refine List.Nodup.map_on (fun p hp q hq heq => ?_) (h.booked.nodup.filter _)
      have hp' := List.mem_filter.mp hp
      have hq' := List.mem_filter.mp hq
      exact Prod.ext ((beq_iff_eq.mp hp'.2).trans (beq_iff_eq.mp hq'.2).symm) heq
  obtain ⟨hgrown, hqueue, hkeys⟩ := foldl_drainOrphan_accepts hdel hm
    (w.state.orphansOf hashPrev) h.node (fun b hb => h.mem b ((hof b).mp hb).1)
    (fun b hb => ((hof b).mp hb).2 ▸ hindexed) (fun b hb => hunindexed b ((hof b).mp hb).1) hnodup
  obtain ⟨hbooked, hstored, -⟩ : (w.drainStep C m.1 hashPrev).state.Booked C ∧ _ ∧ _ :=
    BlockWork.drainStep_booked h.booked fun o o' ho ho' _ hpos hpos' heq =>
      hdel.stakes o (h.mem o ho) o' (h.mem o' ho') hpos hpos' heq
  have hdrop : w.vWorkQueue.drop i = hashPrev :: w.vWorkQueue.drop (i + 1) := by
    rw [List.drop_eq_getElem_cons hlt, hval]
  have hdrop' : (w.drainStep C m.1 hashPrev).vWorkQueue.drop (i + 1) =
      w.vWorkQueue.drop (i + 1) ++ (w.state.orphansOf hashPrev).map (CBlock.getHash C) := by
    change ((w.state.orphansOf hashPrev).foldl _ w).vWorkQueue.drop (i + 1) = _
    rw [hqueue, List.drop_append_of_le_length hlt]
  refine ⟨⟨hbooked, fun b hb => h.mem b ((hstored b).mp hb).1, hgrown, ?_, ?_⟩, ?_⟩
  · intro q hq
    change q ∈ ((w.state.orphansOf hashPrev).foldl _ w).vWorkQueue at hq
    rw [hqueue] at hq
    refine (hkeys q).mpr ?_
    rcases List.mem_append.mp hq with hq | hq
    · exact Or.inl (h.queue q hq)
    · exact Or.inr hq
  · intro o ho hsome
    obtain ⟨hostored, hne⟩ := (hstored o).mp ho
    rw [hdrop']
    rcases (hkeys _).mp hsome with hold | hnew
    · have hmem := h.waiting o hostored hold
      rw [hdrop] at hmem
      exact List.mem_append_left _ ((List.mem_cons.mp hmem).resolve_left hne)
    · exact List.mem_append_right _ hnew
  · rintro k (hk | hk)
    · exact Or.inl ((hkeys k).mpr (Or.inl hk))
    · -- an orphan that leaves the map is in the tree
      obtain ⟨b, hb⟩ := Option.isSome_iff_exists.mp hk
      obtain ⟨rfl, hbstored⟩ := (h.booked.lookup_iff k b).mp hb
      by_cases hbprev : b.hashPrevBlock = hashPrev
      · exact Or.inl ((hkeys _).mpr
          (Or.inr (List.mem_map.mpr ⟨b, (hof b).mpr ⟨hbstored, hbprev⟩, rfl⟩)))
      · have hlook := (hbooked.lookup_iff _ b).mpr ⟨rfl, (hstored b).mpr ⟨hbstored, hbprev⟩⟩
        exact Or.inr (by rw [hlook]; rfl)

/-- When the walk has ended, no orphan has a known previous block. -/
theorem Walking.drainLoop {fuel i : Nat} {w w' : BlockWork}
    (h : Walking C n₀ T (msgs.map Prod.fst) i w)
    (hloop : w.drainLoop C m.1 fuel i = some w') :
    (∃ j, Walking C n₀ T (msgs.map Prod.fst) j w' ∧ w'.vWorkQueue.drop j = []) ∧
      ∀ k, w.state.Has k → w'.state.Has k := by
  induction fuel generalizing i w with
  | zero => cases hloop
  | succ fuel ih =>
    rw [BlockWork.drainLoop] at hloop
    split at hloop
    · next hnone =>
      obtain rfl := Option.some.inj hloop
      exact ⟨⟨i, h, List.drop_eq_nil_of_le (List.getElem?_eq_none_iff.mp hnone)⟩, fun _ hk => hk⟩
    · next hashPrev hi =>
      obtain ⟨hstep, hkeep⟩ := h.drainStep hdel hm hi
      obtain ⟨hend, hkeep'⟩ := ih hstep hloop
      exact ⟨hend, fun k hk => hkeep' k (hkeep k hk)⟩

omit hdel hm in
variable (C) in
/-- Where the delivery stands between two calls: the orphans are of the set, and wait for unknown
blocks. -/
structure Delivery (n₀ : NodeState) (T : List CBlock) (envs : List (Uint256 → Env))
    (s : BlockState) : Prop where
  booked : s.Booked C
  mem : ∀ b, s.Stored b → b ∈ T
  node : GrownNode C n₀ T envs s.node
  nullIndex : s.nullIndex = []
  waiting : ∀ o, s.Stored o → s.node.mapBlockIndex o.hashPrevBlock = none

omit hdel hm in
theorem BlockState.hasIndex_of_nullIndex {s : BlockState} (h : s.nullIndex = []) (k : Uint256) :
    s.hasIndex k = (s.node.mapBlockIndex k).isSome := by
  simp [BlockState.hasIndex, h]

omit hdel hm in
theorem Delivery.refl {s : BlockState} (hempty : s.NoOrphans) (hnull : s.nullIndex = [])
    (envs : List (Uint256 → Env)) : Delivery C s.node T envs s where
  booked := hempty.booked
  mem := by simp [BlockState.Stored, hempty.byPrev]
  node := GrownNode.refl _ _
  nullIndex := hnull
  waiting := by simp [BlockState.Stored, hempty.byPrev]

/-- A block of the set that is neither in the tree nor an orphan passes the checks. -/
theorem Delivery.processChecks {s : BlockState}
    (h : Delivery C n₀ T (msgs.map Prod.fst) s)
    (hindex : s.node.mapBlockIndex (m.2.getHash C) = none)
    (horphan : s.mapOrphanBlocks.lookup (m.2.getHash C) = none) :
    s.processChecks C m.1 m.2 = true := by
  have hT : m.2 ∈ T := (hdel.mem_iff _).mpr ⟨m, hm, rfl⟩
  have hwork : s.node.tooLittleWork m.2 = false :=
    (tooLittleWork_eq h.node.le hdel.parentsKnown h.node.checkpoints.hashSyncCheckpoint
      hdel.checkpoint m.2).trans (hdel.enoughWork _ hT)
  have hstake : m.2.isProofOfStake = true → m.2.getProofOfStake ∉ s.node.setStakeSeen := by
    intro hpos hseen
    rcases h.node.stakes _ hseen with hold | ⟨b, hb, hbpos, heq, hsome⟩
    · exact hdel.unseen _ hT hpos hold
    · -- the stake is of this block alone, which is not in the tree
      rw [hdel.stakes b hb m.2 hT hbpos hpos heq, hindex] at hsome
      cases hsome
  have hnot : (m.2.isProofOfStake && s.node.setStakeSeen.contains m.2.getProofOfStake
      && !s.duplicateStakeAllowed (m.2.getHash C)) = false := by
    rcases hpos : m.2.isProofOfStake with _ | _
    · rfl
    · simp [hstake hpos]
  simp only [BlockState.processChecks, BlockState.hasIndex_of_nullIndex h.nullIndex, hindex,
    horphan, hnot, hdel.checked m hm, hwork, Option.isSome_none, Option.isNone_none, Bool.not_false,
    Bool.and_false, Bool.and_true]

/-- A block of the set whose previous block is unknown is stored. -/
theorem Delivery.storeOrphan {s : BlockState} (h : Delivery C n₀ T (msgs.map Prod.fst) s)
    (hindex : s.node.mapBlockIndex (m.2.getHash C) = none)
    (horphan : s.mapOrphanBlocks.lookup (m.2.getHash C) = none)
    (hprev : s.node.mapBlockIndex m.2.hashPrevBlock = none) :
    Delivery C n₀ T (msgs.map Prod.fst) (s.storeOrphan C m.2).2 ∧
      (s.storeOrphan C m.2).2.Has (m.2.getHash C) ∧
      ∀ k, s.Has k → (s.storeOrphan C m.2).2.Has k := by
  have hT : m.2 ∈ T := (hdel.mem_iff _).mpr ⟨m, hm, rfl⟩
  have hbooked : (s.storeOrphan C m.2).2.Booked C := h.booked.storeOrphan
    (by rw [BlockState.hasIndex_of_nullIndex h.nullIndex, hindex]; rfl) horphan
  have hnot : (m.2.isProofOfStake && decide (m.2.getProofOfStake ∈ s.setStakeSeenOrphan)
      && !s.duplicateStakeAllowed (m.2.getHash C)) = false := by
    rcases hpos : m.2.isProofOfStake with _ | _
    · rfl
    · have hstake : m.2.getProofOfStake ∉ s.setStakeSeenOrphan := by
        intro hseen
        obtain ⟨b, hb, hbpos, heq⟩ := (h.booked.stake_iff _).mp hseen
        have hbm := hdel.stakes b (h.mem b hb) m.2 hT hbpos hpos heq
        rw [← hbm, (h.booked.lookup_iff _ b).mpr ⟨rfl, hb⟩] at horphan
        cases horphan
      simp [hstake]
  have hstored : ∀ b, (s.storeOrphan C m.2).2.Stored b → s.Stored b ∨ b = m.2 := by
    intro b hb
    simp only [BlockState.storeOrphan, hnot, Bool.false_eq_true, if_false, BlockState.Stored,
      List.mem_append, List.mem_singleton, Prod.mk.injEq] at hb
    exact hb.imp_right fun h => h.2
  have hnode : (s.storeOrphan C m.2).2.node = s.node := by
    simp only [BlockState.storeOrphan, hnot, Bool.false_eq_true, if_false]
  refine ⟨⟨hbooked, ?_, hnode ▸ h.node, ?_, ?_⟩, ?_, ?_⟩
  · intro b hb
    rcases hstored b hb with hb | rfl
    · exact h.mem b hb
    · exact hT
  · simpa only [BlockState.storeOrphan, hnot, Bool.false_eq_true, if_false] using h.nullIndex
  · intro b hb
    rw [hnode]
    rcases hstored b hb with hb | rfl
    · exact h.waiting b hb
    · exact hprev
  · right
    simp [BlockState.storeOrphan, hnot]
  · rintro k (hk | hk)
    · exact Or.inl (hnode ▸ hk)
    · right
      simp only [BlockState.storeOrphan, hnot, Bool.false_eq_true, if_false]
      by_cases hkm : k = m.2.getHash C
      · rw [hkm, AList.lookup_insert]
        rfl
      · rw [AList.lookup_insert_ne hkm]
        exact hk

/-- **One call of `ProcessBlock` with a block of the set**: the block is known afterwards, and no
block that was known is lost. -/
theorem Delivery.processBlock {s s' : BlockState} {ok : Bool}
    (h : Delivery C n₀ T (msgs.map Prod.fst) s)
    (hrun : s.processBlock C false m.1 m.2 = some (ok, s')) :
    Delivery C n₀ T (msgs.map Prod.fst) s' ∧ s'.Has (m.2.getHash C) ∧ ∀ k, s.Has k → s'.Has k := by
  have hT : m.2 ∈ T := (hdel.mem_iff _).mpr ⟨m, hm, rfl⟩
  by_cases hhas : s.Has (m.2.getHash C)
  · -- known blocks are refused
    have hchecks : s.processChecks C m.1 m.2 = false := by
      simp only [BlockState.processChecks, BlockState.hasIndex_of_nullIndex h.nullIndex]
      rcases hhas with hindex | horphan
      · simp [hindex]
      · have hsome : (s.mapOrphanBlocks.lookup (m.2.getHash C)).isNone = false :=
          Option.isNone_eq_false_iff.mpr horphan
        simp [hsome]
    rw [BlockState.processBlock] at hrun
    simp only [Bool.false_eq_true, if_false, hchecks, Bool.not_false, if_true] at hrun
    obtain ⟨-, rfl⟩ := Prod.mk.inj (Option.some.inj hrun)
    exact ⟨h, hhas, fun _ hk => hk⟩
  · rw [BlockState.Has, not_or, Option.not_isSome_iff_eq_none, Option.not_isSome_iff_eq_none] at hhas
    obtain ⟨hindex, horphan⟩ := hhas
    have hchecks := h.processChecks hdel hm hindex horphan
    rcases hprev : s.node.mapBlockIndex m.2.hashPrevBlock with _ | pprev
    · have hno : s.hasIndex m.2.hashPrevBlock = false := by
        rw [BlockState.hasIndex_of_nullIndex h.nullIndex, hprev]
        rfl
      rw [BlockState.processBlock_of_unknown hchecks hno] at hrun
      obtain rfl : (s.storeOrphan C m.2).2 = s' := congrArg Prod.snd (Option.some.inj hrun)
      exact h.storeOrphan hdel hm hindex horphan hprev
    · have hyes : s.hasIndex m.2.hashPrevBlock = true := by
        rw [BlockState.hasIndex_of_nullIndex h.nullIndex, hprev]
        rfl
      obtain ⟨hok, hgrown, hkeys⟩ := h.node.acceptBlock hdel hm hT (by rw [hprev]; rfl) hindex
      rw [BlockState.processBlock] at hrun
      simp only [Bool.false_eq_true, if_false, hchecks, hyes, Bool.not_true,
        BlockState.acceptAndDrain, hok, if_true] at hrun
      obtain ⟨w, hw, heq⟩ := Option.map_eq_some_iff.mp hrun
      obtain ⟨-, rfl⟩ := Prod.mk.inj heq
      have hstart : Walking C n₀ T (msgs.map Prod.fst) 0 ⟨{ s with
          node := (s.node.acceptBlock C (m.1 (m.2.getHash C)) m.2).2 }, [m.2.getHash C]⟩ := by
        refine ⟨h.booked.acceptBlock horphan, h.mem, hgrown, ?_, ?_⟩
        · intro q hq
          exact (hkeys q).mpr (Or.inr (List.mem_singleton.mp hq))
        · intro o ho hsome
          rcases (hkeys _).mp hsome with hold | heq
          · rw [h.waiting o ho] at hold
            cases hold
          · exact List.mem_singleton.mpr heq
      obtain ⟨⟨j, hend, hdone⟩, hkeep⟩ := hstart.drainLoop hdel hm hw
      have hnull := (BlockWork.drainLoop_acceptSteps C m.1 hw).1
      refine ⟨⟨hend.booked, hend.mem, hend.node, hnull.trans h.nullIndex, fun o ho => ?_⟩,
        hkeep _ (Or.inl ((hkeys _).mpr (Or.inr rfl))), fun k hk => hkeep k ?_⟩
      · by_contra hsome
        have hmem := hend.waiting o ho (Option.isSome_iff_ne_none.mpr hsome)
        rw [hdone] at hmem
        cases hmem
      · exact hk.imp_left fun hk => (hkeys k).mpr (Or.inl hk)

omit hm in
/-- A sequence of calls with blocks of the set. -/
theorem Delivery.deliver {l : List ((Uint256 → Env) × CBlock)} (hl : ∀ m ∈ l, m ∈ msgs)
    {s s' : BlockState} (h : Delivery C n₀ T (msgs.map Prod.fst) s)
    (hrun : s.deliver C l = some s') :
    Delivery C n₀ T (msgs.map Prod.fst) s' ∧ (∀ m ∈ l, s'.Has (m.2.getHash C)) ∧
      ∀ k, s.Has k → s'.Has k := by
  induction l generalizing s with
  | nil =>
    obtain rfl := Option.some.inj hrun
    exact ⟨h, by simp, fun _ hk => hk⟩
  | cons m l ih =>
    rw [List.forall_mem_cons] at hl
    obtain ⟨⟨ok, s₁⟩, hs₁, hrest⟩ := Option.bind_eq_some_iff.mp hrun
    obtain ⟨h₁, hnew, hkeep⟩ := h.processBlock hdel hl.1 hs₁
    obtain ⟨h₂, hall, hkeep₂⟩ := ih hl.2 h₁ hrest
    refine ⟨h₂, ?_, fun k hk => hkeep₂ k (hkeep k hk)⟩
    rw [List.forall_mem_cons]
    exact ⟨hkeep₂ _ hnew, hall⟩

end Walk

/-! ## Where the blocks end -/

/-- Blocks with the same hash have the same previous block, so they are resolved together. -/
theorem Resolved.congr (hinj : Function.Injective C.hashBlock) {n : NodeState} {T : List CBlock}
    {b b' : CBlock} (h : Resolved C n T b) (hb' : b' ∈ T) (heq : b.getHash C = b'.getHash C) :
    Resolved C n T b' := by
  have hprev : b.hashPrevBlock = b'.hashPrevBlock :=
    congrArg CBlockHeader.hashPrevBlock (hinj heq)
  cases h with
  | known _ hsome => exact .known hb' (heq ▸ hsome)
  | parent _ hsome => exact .parent hb' (hprev ▸ hsome)
  | step hres _ hstep => exact .step hres hb' (hprev ▸ hstep)

/-- **Orphan blocks are resolved in whatever order they come**: a block of the set ends in the block
tree if its ancestors are in the set or known, and else as an orphan, and there are no other
orphans. The loop over the work queue ends for every state of the orphan maps. -/
theorem deliver_resolves_blocks (hinj : Function.Injective C.hashBlock) :
    (∀ (s : BlockState) (T : List CBlock) (msgs : List ((Uint256 → Env) × CBlock)), s.NoOrphans →
      s.nullIndex = [] → Deliverable C s.node T msgs →
      ∃ s', s.deliver C msgs = some s' ∧
        (∀ b ∈ T, ((s'.node.mapBlockIndex (b.getHash C)).isSome ↔ Resolved C s.node T b) ∧
          ((s'.mapOrphanBlocks.lookup (b.getHash C)).isSome ↔ ¬ Resolved C s.node T b)) ∧
        ∀ h b, s'.mapOrphanBlocks.lookup h = some b → b ∈ T ∧ b.getHash C = h) ∧
    ∀ (env : Uint256 → Env) (s : BlockState) (vWorkQueue : List Uint256),
      ∃ fuel, (BlockWork.drainLoop C env fuel 0 ⟨s, vWorkQueue⟩).isSome := by
  constructor
  · intro s T msgs hempty hnull hdel
    obtain ⟨s', hrun⟩ := Option.isSome_iff_exists.mp (s.deliver_isSome (C := C) msgs)
    obtain ⟨hend, hall, -⟩ := (Delivery.refl hempty hnull (msgs.map Prod.fst)).deliver hdel
      (fun _ hm => hm) hrun
    have hhas : ∀ b ∈ T, s'.Has (b.getHash C) := by
      intro b hb
      obtain ⟨m, hm, rfl⟩ := (hdel.mem_iff b).mp hb
      exact hall m hm
    -- an orphan with a block's hash waits for an unknown block
    have hwaits : ∀ b ∈ T, (s'.node.mapBlockIndex b.hashPrevBlock).isSome →
        (s'.node.mapBlockIndex (b.getHash C)).isSome := by
      intro b hb hprev
      refine (hhas b hb).resolve_right fun horphan => ?_
      obtain ⟨o, ho⟩ := Option.isSome_iff_exists.mp horphan
      obtain ⟨heq, hstored⟩ := (hend.booked.lookup_iff _ o).mp ho
      have hsame : o.hashPrevBlock = b.hashPrevBlock :=
        congrArg CBlockHeader.hashPrevBlock (hinj heq)
      rw [← hsame, hend.waiting o hstored] at hprev
      cases hprev
    have hindex : ∀ b ∈ T,
        ((s'.node.mapBlockIndex (b.getHash C)).isSome ↔ Resolved C s.node T b) := by
      intro b hb
      constructor
      · intro hsome
        rcases hend.node.resolved _ hsome with hold | ⟨b', -, heq, hres⟩
        · exact .known hb hold
        · exact hres.congr hinj hb heq
      · intro hres
        induction hres with
        | known _ hsome => exact hend.node.le.isSome hsome
        | parent hb hsome => exact hwaits _ hb (hend.node.le.isSome hsome)
        | step hres hb' hstep ih =>
          refine hwaits _ hb' ?_
          rw [hstep]
          apply ih
          cases hres with
          | known hb _ => exact hb
          | parent hb _ => exact hb
          | step _ hb _ => exact hb
    refine ⟨s', hrun, fun b hb => ⟨hindex b hb, ?_⟩, fun h b hlook => ?_⟩
    · rw [← hindex b hb]
      constructor
      · intro horphan hsome
        have hno := hend.booked.unindexed _ horphan
        rw [BlockState.hasIndex_of_nullIndex hend.nullIndex, hsome] at hno
        cases hno
      · exact (hhas b hb).resolve_left
    · obtain ⟨heq, hstored⟩ := (hend.booked.lookup_iff h b).mp hlook
      exact ⟨hend.mem b hstored, heq⟩
  · intro env s vWorkQueue
    exact ⟨_, BlockWork.drainLoop_isSome C env _ 0 ⟨s, vWorkQueue⟩ (Nat.lt_succ_self _)⟩

/-! ### Samples -/

/-- A clock after the sample blocks, no failures, and a place for each block. -/
def roomyEnv : Uint256 → Env := fun hash =>
  { tallEnv with adjustedTime := 100000, writeToDisk := some (2, 1000 * hash + 8) }

/-- A block on top of the block 2. -/
def nextBlock : CBlock := plainBlock 2 3 3000 [heightCoinbase 2 3000 42000000]

/-- Hashes that number the blocks 1, 2 and 3 and their coinbases. -/
noncomputable def pairCrypto : Crypto :=
  labelCrypto ([treeGenesis.block, treeBlock, nextBlock].flatMap CBlock.vtx)
    ([treeGenesis.block, treeBlock, nextBlock].map CBlock.getBlockHeader)

/-- A node that has the genesis block and nothing else. -/
noncomputable def pairStart : BlockState := freshState pairCrypto [treeGenesis]

/-- The node that has accepted the block 2. -/
noncomputable def pairNode₂ : NodeState :=
  (pairStart.node.acceptBlock pairCrypto (roomyEnv 2) treeBlock).2

/-- The node that has accepted the blocks 2 and 3. -/
noncomputable def pairNode₃ : NodeState :=
  (pairNode₂.acceptBlock pairCrypto (roomyEnv 3) nextBlock).2

/-- A block that is in the tree is refused and changes nothing. -/
theorem acceptBlock_of_known {env : Env} {n : NodeState} {b : CBlock}
    (h : (n.mapBlockIndex (b.getHash C)).isSome = true) : n.acceptBlock C env b = (false, n) := by
  simp [NodeState.acceptBlock, NodeState.acceptChecks, h]

theorem acceptRun_pair {n : NodeState}
    (h : AcceptRun pairCrypto [roomyEnv, roomyEnv] [treeBlock, nextBlock] pairStart.node n) :
    n = pairStart.node ∨ n = pairNode₂ ∨ n = pairNode₃ := by
  have hhash : treeBlock.getHash pairCrypto = 2 ∧ nextBlock.getHash pairCrypto = 3 := by
    decide +kernel
  induction h with
  | refl => exact Or.inl rfl
  | tail _ hstep ih =>
    obtain ⟨env, henv, b, hb, hprev, rfl⟩ := hstep
    obtain rfl : env = roomyEnv := by simpa using henv
    rcases List.mem_pair.mp hb with rfl | rfl
    · rcases ih with rfl | rfl | rfl
      · exact Or.inr (Or.inl (by rw [hhash.1]; rfl))
      · rw [acceptBlock_of_known (by decide +kernel)]
        exact Or.inr (Or.inl rfl)
      · rw [acceptBlock_of_known (by decide +kernel)]
        exact Or.inr (Or.inr rfl)
    · rcases ih with rfl | rfl | rfl
      · -- its previous block is unknown
        exact absurd hprev (by decide +kernel)
      · exact Or.inr (Or.inr (by rw [hhash.2]; rfl))
      · rw [acceptBlock_of_known (by decide +kernel)]
        exact Or.inr (Or.inr rfl)

theorem pairStart_deliverable : Deliverable pairCrypto pairStart.node [treeBlock, nextBlock]
    [(roomyEnv, nextBlock), (roomyEnv, treeBlock)] where
  mem_iff := by simp [eq_comm, or_comm]
  checked := by decide +kernel
  accepted := by
    intro n hrun m hm b hb hprev hnew
    have henv : m.1 = roomyEnv := by
      rcases List.mem_pair.mp hm with rfl | rfl
      · rfl
      · rfl
    rw [henv]
    rcases List.mem_pair.mp hb with rfl | rfl
    · rcases acceptRun_pair hrun with rfl | rfl | rfl
      · decide +kernel
      · exact absurd hnew (by decide +kernel)
      · exact absurd hnew (by decide +kernel)
    · rcases acceptRun_pair hrun with rfl | rfl | rfl
      · exact absurd hprev (by decide +kernel)
      · decide +kernel
      · exact absurd hnew (by decide +kernel)
  stakes := by decide +kernel
  unseen := by decide +kernel
  noPending := by decide +kernel
  checkpoint := by decide +kernel
  enoughWork := by decide +kernel
  parentsKnown := by
    intro h e p he hp
    obtain ⟨-, -, hpprev⟩ := entry_of_freshState (by decide +kernel) he
    rw [hp, if_pos (show treeGenesis.nHeight = 0 from rfl)] at hpprev
    cases hpprev

/-- The block 3 comes before the block 2, and both end in the tree. -/
theorem deliver_resolves_blocks_pair :
    ∃ s, pairStart.deliver pairCrypto [(roomyEnv, nextBlock), (roomyEnv, treeBlock)] = some s ∧
      (s.node.mapBlockIndex 2).isSome ∧ (s.node.mapBlockIndex 3).isSome := by
  obtain ⟨s, hrun, hend, -⟩ := (deliver_resolves_blocks (C := pairCrypto)
    (labelCrypto_hashInjective _ _).hashBlock).1 pairStart [treeBlock, nextBlock]
    [(roomyEnv, nextBlock), (roomyEnv, treeBlock)] ⟨fun _ => rfl, rfl, rfl⟩ rfl
    pairStart_deliverable
  have htree : Resolved pairCrypto pairStart.node [treeBlock, nextBlock] treeBlock :=
    .parent (by simp) (by decide +kernel)
  have hnext : Resolved pairCrypto pairStart.node [treeBlock, nextBlock] nextBlock :=
    .step htree (by simp) (by decide +kernel)
  have h₂ := (hend treeBlock (by simp)).1.mpr htree
  have h₃ := (hend nextBlock (by simp)).1.mpr hnext
  have hhash : treeBlock.getHash pairCrypto = 2 ∧ nextBlock.getHash pairCrypto = 3 := by
    decide +kernel
  rw [hhash.1] at h₂
  rw [hhash.2] at h₃
  exact ⟨s, hrun, h₂, h₃⟩

/-! The target eases after a block that took a day. -/

/-- A block at a height with a given target. -/
def targetBlock (hashPrevBlock hashMerkleRoot : Uint256) (nHeight nTime nBits : Nat) : CBlock :=
  { plainBlock hashPrevBlock hashMerkleRoot nTime [heightCoinbase nHeight nTime 0] with
    nBits := nBits }

/-- Three blocks at the pace of the target. -/
def steadyChain : List StoredBlock :=
  [⟨targetBlock 0 1 0 1000 0x1d0fffff, 0, 1⟩, ⟨targetBlock 1 2 1 1258 0x1d0fffff, 1, 2⟩,
    ⟨targetBlock 2 3 2 1516 0x1d0fffff, 2, 3⟩]

/-- The block 4, a day later. -/
def dayBlock : CBlock := targetBlock 3 4 3 87916 0x1d0fffff

/-- The block 5 on top of it, at the target that follows. -/
def easyBlock : CBlock := targetBlock 4 5 4 88174 0x1e030b29

/-- Hashes that number these blocks and their coinbases. -/
noncomputable def slowCrypto : Crypto :=
  labelCrypto ((steadyChain.map StoredBlock.block ++ [dayBlock, easyBlock]).flatMap CBlock.vtx)
    ((steadyChain.map StoredBlock.block ++ [dayBlock, easyBlock]).map CBlock.getBlockHeader)

/-- A node whose tip and synchronized checkpoint is the block 3. -/
noncomputable def slowStart : BlockState :=
  { freshState slowCrypto steadyChain with
    node := { (freshState slowCrypto steadyChain).node with
      pindexBest := some 3
      hashBestChain := 3
      nBestHeight := 2
      nBestChainTrust := 3
      hashSyncCheckpoint := 3 } }

/-- The node that has accepted the block 4. -/
noncomputable def slowNode₄ : NodeState :=
  (slowStart.node.acceptBlock slowCrypto (roomyEnv 4) dayBlock).2

/-- The blocks 4 and 5 pass `CheckBlock` and are accepted one after the other. When 5 comes first it
is refused for too little work, and ends neither in the tree nor as an orphan. -/
theorem not_resolved_of_tooLittleWork :
    (dayBlock.checkBlock slowCrypto 100000 true true true = true ∧
      easyBlock.checkBlock slowCrypto 100000 true true true = true ∧
      (slowStart.node.acceptBlock slowCrypto (roomyEnv 4) dayBlock).1 = true ∧
      (slowNode₄.acceptBlock slowCrypto (roomyEnv 5) easyBlock).1 = true) ∧
    ∃ s, slowStart.deliver slowCrypto [(roomyEnv, easyBlock), (roomyEnv, dayBlock)] = some s ∧
      (s.node.mapBlockIndex 4).isSome ∧ s.node.mapBlockIndex 5 = none ∧
      s.mapOrphanBlocks.lookup 5 = none := by
  refine ⟨by decide +kernel, ?_⟩
  obtain ⟨s, hs⟩ := Option.isSome_iff_exists.mp (slowStart.deliver_isSome (C := slowCrypto)
    [(roomyEnv, easyBlock), (roomyEnv, dayBlock)])
  have hend : (slowStart.deliver slowCrypto [(roomyEnv, easyBlock), (roomyEnv, dayBlock)]).map
      (fun s => ((s.node.mapBlockIndex 4).isSome, (s.node.mapBlockIndex 5).isSome,
        (s.mapOrphanBlocks.lookup 5).isSome)) = some (true, false, false) := by decide +kernel
  rw [hs, Option.map_some, Option.some.injEq, Prod.mk.injEq, Prod.mk.injEq] at hend
  obtain ⟨hday, heasy, horphan⟩ := hend
  exact ⟨s, hs, hday, by simpa using heasy, by simpa using horphan⟩

end MotaCoin
