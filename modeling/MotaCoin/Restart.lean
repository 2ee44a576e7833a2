import MotaCoin.Records

/-!
# Restarting a node

A run starts with an empty database: the genesis block is loaded, blocks are accepted, and
`SetBestChain` is called for blocks of the tree. A node that is stopped in such a run and started
again has the tree and the tip it had, as long as every call of `SetBestChain` connected the blocks
it postponed; otherwise the globals name a block the database is not committed at.

## Main definitions

* `SetBestCall`, `NodeState.acceptCalls`: the calls of `SetBestChain` that `AcceptBlock` makes
* `RunOK`: the invariant of runs
* `NodeRun`: runs of successful calls from an empty database
* `RestartsEqual`: the node restarts as it was

## Main results

* `Entered.insertIndex`, `RunOK.addToBlockIndex`, `RunOK.setBestChain`
* `nodeRun_restartsEqual`: runs whose calls connect the blocks they postpone
-/

namespace MotaCoin

variable {C : Crypto} {env : Env}

/-! ## The calls of AcceptBlock -/

/-- A call of `SetBestChain`: the node it is made on, the block and its entry. -/
structure SetBestCall where
  node : NodeState
  block : CBlock
  pindexNew : Uint256

namespace NodeState

variable (C env) (s : NodeState)

/-- The node once `AddToBlockIndex` has made an entry and written its record. -/
def indexed (pindexNew : CBlockIndex) : NodeState :=
  (s.insertIndex pindexNew).withTxdb ((s.txdb.txnBegin.writeBlockIndex
    (CDiskBlockIndex.ofIndex pindexNew)).txnCommit (!env.indexCommitFails))

/-- The calls `AddToBlockIndex` makes. -/
def addToBlockIndexCalls (b : CBlock) (nFile nBlockPos : Nat) (hashProofOfStake : Uint256) :
    List SetBestCall :=
  if (s.mapBlockIndex (b.getHash C)).isSome then []
  else
    match s.newBlockIndex C b nFile nBlockPos hashProofOfStake with
    | none => []
    | some pindexNew =>
      if env.indexCommitFails then []
      else if s.nBestChainTrust < pindexNew.nChainTrust then
        [⟨s.indexed env pindexNew, b, pindexNew.hash⟩]
      else []

/-- The calls `AcceptPendingSyncCheckpoint` makes. -/
def acceptPendingCalls : List SetBestCall :=
  let hash := s.hashPendingCheckpoint
  if hash = 0 ∨ s.mapBlockIndex hash = none then []
  else if !s.validateSyncCheckpoint hash then []
  else if s.isInMainChain hash then []
  else
    match s.readFromDisk C env hash with
    | none => []
    | some b => [⟨s, b, hash⟩]

/-- **The calls `AcceptBlock` makes**: for its block, when it has more trust than the tip, and for a
pending checkpoint. -/
def acceptCalls (b : CBlock) : List SetBestCall :=
  match s.acceptChecks C env b, env.writeToDisk with
  | some hashProofOfStake, some (nFile, nBlockPos) =>
    let s₁ := s.writeBlock b nFile nBlockPos
    let r := s₁.addToBlockIndex C env b nFile nBlockPos hashProofOfStake
    s₁.addToBlockIndexCalls C env b nFile nBlockPos hashProofOfStake ++
      if r.1 then r.2.acceptPendingCalls C env else []
  | _, _ => []

end NodeState

/-! ## New entries -/

variable (C) in
/-- What `AddToBlockIndex` puts into an entry. -/
structure MadeEntry (s : NodeState) (b : CBlock) (hashProofOfStake : Uint256) (e : CBlockIndex) :
    Prop where
  hash : e.hash = b.getHash C
  header : (e.nVersion, e.hashMerkleRoot, e.nTime, e.nBits, e.nNonce) =
    (b.nVersion, b.hashMerkleRoot, b.nTime, b.nBits, b.nNonce)
  pnext : e.pnext = none
  pprev : e.pprev = (s.mapBlockIndex b.hashPrevBlock).map fun _ => b.hashPrevBlock
  nHeight : e.nHeight = ((s.mapBlockIndex b.hashPrevBlock).map fun p => p.nHeight + 1).getD 0
  nChainTrust : e.nChainTrust = ((s.mapBlockIndex b.hashPrevBlock).map
    CBlockIndex.nChainTrust).getD 0 + NodeState.getBlockTrust e.nBits
  checksum : e.nStakeModifierChecksum = C.hashChecksum ((s.mapBlockIndex b.hashPrevBlock).map
    CBlockIndex.nStakeModifierChecksum) e.nFlags e.hashProofOfStake e.nStakeModifier
  checkpoint : NodeState.checkStakeModifierCheckpoints e.nHeight e.nStakeModifierChecksum = true
  isProofOfStake : e.isProofOfStake = b.isProofOfStake
  hashProofOfStake : e.hashProofOfStake = hashProofOfStake
  stake : b.isProofOfStake = false → e.prevoutStake = COutPoint.null ∧ e.nStakeTime = 0

theorem madeEntry_of_newBlockIndex {s : NodeState} {b : CBlock} {nFile nBlockPos : Nat}
    {hashProofOfStake : Uint256} {e : CBlockIndex}
    (h : s.newBlockIndex C b nFile nBlockPos hashProofOfStake = some e) :
    MadeEntry C s b hashProofOfStake e := by
  unfold NodeState.newBlockIndex at h
  simp only at h
  split at h
  · cases h
  · next nStakeModifier fGenerated _ =>
    split at h
    · next hcheck =>
      obtain rfl := Option.some.inj h
      refine ⟨rfl, rfl, rfl, rfl, rfl, rfl, rfl, hcheck, ?_, rfl, fun hpow => ?_⟩
      · simp only [CBlockIndex.isProofOfStake, Nat.testBit_zero]
        cases b.isProofOfStake with
        | false => simp; omega
        | true => simp; omega
      · simp [hpow]
    · cases h

/-- **A new entry** is as `AddToBlockIndex` makes them. -/
theorem Entered.insertIndex {s : NodeState} (hs : Entered C s)
    (hzero : ∀ header, C.hashBlock header ≠ 0) {b : CBlock} {hashProofOfStake : Uint256}
    {e : CBlockIndex} (he : MadeEntry C s b hashProofOfStake e)
    (hunknown : s.mapBlockIndex (b.getHash C) = none)
    (hprev : (s.mapBlockIndex b.hashPrevBlock).isSome ∨
      b.getHash C = NodeState.hashGenesisBlock ∧ b.hashPrevBlock = 0)
    (hproof : b.isProofOfStake = false → hashProofOfStake = 0) : Entered C (s.insertIndex e) := by
  have hmap : (s.insertIndex e).mapBlockIndex =
      Function.update s.mapBlockIndex (b.getHash C) (some e) := by
    rw [insertIndex_mapBlockIndex, he.hash]
  have hold : ∀ {k}, (s.mapBlockIndex k).isSome →
      (s.insertIndex e).mapBlockIndex k = s.mapBlockIndex k := by
    intro k hk
    rw [hmap, Function.update_of_ne]
    rintro rfl
    rw [hunknown] at hk
    cases hk
  -- an entry is the new one, or was there
  have hcases : ∀ {k e'}, (s.insertIndex e).mapBlockIndex k = some e' →
      k = b.getHash C ∧ e' = e ∨ s.mapBlockIndex k = some e' := by
    intro k e' he'
    rw [hmap] at he'
    by_cases hk : k = b.getHash C
    · subst hk
      rw [Function.update_self] at he'
      exact .inl ⟨rfl, (Option.some.inj he').symm⟩
    · rw [Function.update_of_ne hk] at he'
      exact .inr he'
  have hparents : ∀ {k e'}, s.mapBlockIndex k = some e' →
      e'.pprev.bind (s.insertIndex e).mapBlockIndex = e'.pprev.bind s.mapBlockIndex := by
    intro k e' he'
    cases hp : e'.pprev with
    | none => rfl
    | some p =>
      obtain ⟨f, hf, -⟩ := hs.parent he' hp
      exact hold (by rw [hf]; rfl)
  have hparent : e.pprev.bind (s.insertIndex e).mapBlockIndex =
      s.mapBlockIndex b.hashPrevBlock := by
    rw [he.pprev]
    cases hp : s.mapBlockIndex b.hashPrevBlock with
    | none => rfl
    | some f => exact (hold (by rw [hp]; rfl)).trans hp
  refine ⟨?_, ?_, ?_, ?_, ?_, ?_, ?_, ?_, ?_, ?_⟩
  · have hne : (0 : Uint256) ≠ b.getHash C := (hzero _).symm
    rw [hmap, Function.update_of_ne hne, hs.zero]
  · intro k e' he'
    rcases hcases he' with ⟨rfl, rfl⟩ | hin
    · exact he.hash
    · exact hs.hash_eq hin
  · intro k e' he'
    rcases hcases he' with ⟨rfl, rfl⟩ | hin
    · obtain ⟨hver, hroot, htime, hbits, hnonce⟩ : e'.nVersion = b.nVersion ∧
          e'.hashMerkleRoot = b.hashMerkleRoot ∧ e'.nTime = b.nTime ∧ e'.nBits = b.nBits ∧
          e'.nNonce = b.nNonce := by simpa using he.header
      have hhashPrev : e'.pprev.getD 0 = b.hashPrevBlock := by
        rw [he.pprev]
        rcases hprev with hsome | ⟨-, hz⟩
        · obtain ⟨f, hf⟩ := Option.isSome_iff_exists.mp hsome
          rw [hf]
          rfl
        · rw [hz, hs.zero]
          rfl
      simp only [CDiskBlockIndex.getBlockHash, CDiskBlockIndex.ofIndex, hhashPrev, hver, hroot,
        htime, hbits, hnonce]
      rfl
    · exact hs.header hin
  · intro k e' p he' hp
    rcases hcases he' with ⟨rfl, rfl⟩ | hin
    · rw [he.pprev] at hp
      obtain ⟨f, hf, rfl⟩ := Option.map_eq_some_iff.mp hp
      refine ⟨f, (hold (by rw [hf]; rfl)).trans hf, ?_⟩
      rw [he.nHeight, hf]
      rfl
    · obtain ⟨f, hf, hheight⟩ := hs.parent hin hp
      exact ⟨f, (hold (by rw [hf]; rfl)).trans hf, hheight⟩
  · intro k e' he' hp
    rcases hcases he' with ⟨rfl, rfl⟩ | hin
    · rcases hprev with hsome | ⟨hgen, -⟩
      · obtain ⟨f, hf⟩ := Option.isSome_iff_exists.mp hsome
        rw [he.pprev, hf] at hp
        cases hp
      · exact hgen
    · exact hs.root hin hp
  · intro k e' he'
    rcases hcases he' with ⟨rfl, rfl⟩ | hin
    · rw [hparent]
      exact he.nChainTrust
    · rw [hparents hin]
      exact hs.nChainTrust hin
  · intro k e' he'
    rcases hcases he' with ⟨rfl, rfl⟩ | hin
    · rw [hparent]
      exact he.checksum
    · rw [hparents hin]
      exact hs.checksum hin
  · intro k e' he'
    rcases hcases he' with ⟨rfl, rfl⟩ | hin
    · exact he.checkpoint
    · exact hs.checkpoint hin
  · intro k e' he' hpow
    rcases hcases he' with ⟨rfl, rfl⟩ | hin
    · rw [he.isProofOfStake] at hpow
      obtain ⟨hprevout, htime⟩ := he.stake hpow
      exact ⟨hprevout, htime, he.hashProofOfStake.trans (hproof hpow)⟩
    · exact hs.stake hin hpow
  · intro x
    have hnew : (s.insertIndex e).mapBlockIndex (b.getHash C) = some e := by
      rw [hmap, Function.update_self]
    have hexists : (∃ k e', (s.insertIndex e).mapBlockIndex k = some e' ∧
        e'.isProofOfStake = true ∧ (e'.prevoutStake, e'.nStakeTime) = x) ↔
        (e.isProofOfStake = true ∧ (e.prevoutStake, e.nStakeTime) = x) ∨ x ∈ s.setStakeSeen := by
      rw [hs.seen]
      constructor
      · rintro ⟨k, e', he', hrest⟩
        rcases hcases he' with ⟨rfl, rfl⟩ | hin
        · exact .inl hrest
        · exact .inr ⟨k, e', hin, hrest⟩
      · rintro (hrest | ⟨k, e', hin, hrest⟩)
        · exact ⟨_, e, hnew, hrest⟩
        · exact ⟨k, e', (hold (by rw [hin]; rfl)).trans hin, hrest⟩
    rw [hexists]
    unfold NodeState.insertIndex
    cases hpos : e.isProofOfStake with
    | false => simp
    | true => simp [eq_comm (a := x)]

/-- Every tree is rooted in the genesis block. -/
theorem Entered.genesis_isSome {s : NodeState} (hs : Entered C s) {h : Uint256}
    (hh : (s.mapBlockIndex h).isSome) : (s.mapBlockIndex NodeState.hashGenesisBlock).isSome := by
  induction h using Ancestry.Tree.induction_parent (T := hs.tree) with
  | root h hroot =>
    obtain ⟨e, he⟩ := Option.isSome_iff_exists.mp hh
    have hp : e.pprev = none := by
      have hroot : s.parentOf h = none := hroot
      rw [NodeState.parentOf, he] at hroot
      exact hroot
    exact hs.root he hp ▸ hh
  | step h p hp ih => exact ih (hs.isSome_of_parentOf hp)

/-- The record of a new entry is written with it. -/
theorem OnDisk.indexed {s : NodeState} (hs : OnDisk C s) {e : CBlockIndex}
    (hent : Entered C (s.insertIndex e)) (hunknown : s.mapBlockIndex e.hash = none)
    (hpnext : e.pnext = none) (hok : env.indexCommitFails = false) :
    OnDisk C (s.indexed env e) := by
  have hmap : ∀ k, (s.indexed env e).mapBlockIndex k =
      if k = e.hash then some e else s.mapBlockIndex k := by
    intro k
    by_cases hk : k = e.hash
    · subst hk
      rw [if_pos rfl]
      exact Function.update_self ..
    · rw [if_neg hk]
      exact Function.update_of_ne hk ..
  have hnext : ∀ k, (s.indexed env e).nextOf k = s.nextOf k := by
    intro k
    rw [NodeState.nextOf, hmap, NodeState.nextOf]
    split
    · next hk => rw [hk, hunknown, Option.bind_some, hpnext, Option.bind_none]
    · rfl
  refine ⟨hent.of_sameIndex ⟨fun _ => rfl, rfl⟩, ?_, rfl, fun k => ?_⟩
  · intro j k hk
    rw [hnext] at hk
    rw [hmap]
    split
    · rfl
    · exact hs.next hk
  · have hcontent : (s.indexed env e).txdb.content (.blockindex k) =
        (s.txdb.txnBegin.writeBlockIndex (CDiskBlockIndex.ofIndex e)).view (.blockindex k) := by
      simp only [NodeState.indexed, NodeState.withTxdb, CTxDB.txnCommit, hok, Bool.not_false,
        if_true]
    rw [hcontent, view_writeBlockIndex, hmap, hnext]
    simp only [show (CDiskBlockIndex.ofIndex e).index.hash = e.hash from rfl]
    split
    · next hk =>
      have hnone : s.nextOf k = none := by rw [NodeState.nextOf, hk, hunknown, Option.bind_none]
      rw [hnone, Option.map_some, Option.map_some, CDiskBlockIndex.serialized, CBlockIndex.record,
        CDiskBlockIndex.ofIndex, hpnext]
    · exact hs.records k

/-! ## The invariant of runs -/

variable (C) in
/-- **The invariant of runs**: the node is recorded, has a tip once it has an entry, and finitely
many entries. -/
structure RunOK (s : NodeState) : Prop where
  recorded : Recorded C s
  empty : s.pindexBest = none → ∀ h, s.mapBlockIndex h = none
  finite : ∃ keys : List Uint256, ∀ h, (s.mapBlockIndex h).isSome → h ∈ keys

section SetBestChain

variable {s : NodeState} {b : CBlock} {h : Uint256}

/-- **A successful call of `SetBestChain`** that connects the blocks it postpones records its tip. -/
theorem OnDisk.setBestChain_tipRecorded (hs : OnDisk C s)
    (hgen : s.pindexGenesisBlock = (if (s.mapBlockIndex NodeState.hashGenesisBlock).isSome then
      some NodeState.hashGenesisBlock else none) ∨
      s.pindexGenesisBlock = none ∧ h = NodeState.hashGenesisBlock)
    (hhash : b.getHash C = h) (hknown : (s.mapBlockIndex h).isSome)
    (hcall : ConnectsPostponed C env s b h) (hok : (s.setBestChain C env b h).1 = true) :
    TipRecorded C (s.setBestChain C env b h).2 := by
  obtain ⟨hdisk, hbest, hgen'⟩ := hs.setBestChain hhash hcall hok
  have hsome := (setBestChain_chainSteps C env s b h).sameIndex.1.isSome
  obtain ⟨e, he⟩ := Option.isSome_iff_exists.mp ((hsome h).trans hknown)
  have htip : (s.setBestChain C env b h).2.pindexBest = some h ∧
      (s.setBestChain C env b h).2.hashBestChain = h ∧
      (s.setBestChain C env b h).2.nBestHeight = e.nHeight ∧
      (s.setBestChain C env b h).2.nBestChainTrust = e.nChainTrust := by
    rw [setBestChain_of_ok C env hok] at he ⊢
    simp only [NodeState.newBestBlock] at he ⊢
    simp [NodeState.heightOf, NodeState.trustOf, he, hhash]
  obtain ⟨hpindex, hhashBest, hheight, htrust⟩ := htip
  refine ⟨hdisk, ?_, hbest.trans hpindex.symm, ⟨?_, ?_⟩⟩
  · rw [hgen', hsome]
    rcases hgen with hgen | ⟨hnone, rfl⟩
    · by_cases hg : (s.mapBlockIndex NodeState.hashGenesisBlock).isSome
      · rw [if_pos hg] at hgen ⊢
        rw [hgen, if_neg (by simp)]
      · have hne : h ≠ NodeState.hashGenesisBlock := by
          rintro rfl
          exact hg hknown
        rw [if_neg hg] at hgen ⊢
        rw [if_neg fun hboth => hne hboth.2, hgen]
    · rw [if_pos ⟨hnone, rfl⟩, if_pos hknown]
  · intro t ht
    obtain rfl := Option.some.inj (hpindex.symm.trans ht)
    exact ⟨e, he, hhashBest, hheight, htrust⟩
  · intro hnone
    rw [hpindex] at hnone
    cases hnone

end SetBestChain

/-- What is not recorded may change. -/
theorem TipRecorded.congr {s s' : NodeState} (hs : TipRecorded C s)
    (hmap : s'.mapBlockIndex = s.mapBlockIndex) (hseen : s'.setStakeSeen = s.setStakeSeen)
    (hgen : s'.pindexGenesisBlock = s.pindexGenesisBlock) (htip : SameTip s s')
    (hbatch : s'.txdb.activeBatch = none)
    (hcontent : ∀ h, s'.txdb.content (.blockindex h) = s.txdb.content (.blockindex h))
    (hbest : s'.txdb.content .hashBestChain = s.txdb.content .hashBestChain) :
    TipRecorded C s' := by
  have hindex : SameIndex s s' := ⟨fun h => by rw [hmap], hseen⟩
  have hnext : s'.nextOf = s.nextOf := by
    funext h
    rw [NodeState.nextOf, hmap, NodeState.nextOf]
  refine ⟨⟨hs.disk.entered.of_sameIndex hindex, ?_, hbatch, ?_⟩, ?_, ?_, ⟨?_, ?_⟩⟩
  · rw [hmap, hnext]
    exact hs.disk.next
  · intro h
    rw [hcontent, hmap, hnext]
    exact hs.disk.records h
  · rw [hgen, hmap]
    exact hs.genesis
  · rw [hbest, htip.pindexBest]
    exact hs.best
  · rw [htip.pindexBest, hmap, htip.hashBestChain, htip.nBestHeight, htip.nBestChainTrust]
    exact hs.tip.some
  · rw [htip.pindexBest, hgen, htip.hashBestChain, htip.nBestHeight, htip.nBestChainTrust]
    exact hs.tip.none

variable (env) in
/-- A synchronized checkpoint is written beside the other records. -/
theorem writeSyncCheckpoint_spec (s : NodeState) (hash : Uint256) :
    (∀ k, (s.writeSyncCheckpoint env hash).txdb.content k =
      if env.indexCommitFails then s.txdb.content k
      else KVStore.applyOp s.txdb.content (.put .hashSyncCheckpoint hash) k) ∧
      (s.writeSyncCheckpoint env hash).txdb.activeBatch = none ∧
      (s.writeSyncCheckpoint env hash).mapBlockIndex = s.mapBlockIndex ∧
      (s.writeSyncCheckpoint env hash).setStakeSeen = s.setStakeSeen ∧
      (s.writeSyncCheckpoint env hash).pindexGenesisBlock = s.pindexGenesisBlock ∧
      SameTip s (s.writeSyncCheckpoint env hash) := by
  unfold NodeState.writeSyncCheckpoint
  cases hfails : env.indexCommitFails with
  | true => exact ⟨fun _ => rfl, rfl, rfl, rfl, rfl, rfl, rfl, rfl, rfl⟩
  | false =>
    refine ⟨fun k => ?_, rfl, rfl, rfl, rfl, rfl, rfl, rfl, rfl⟩
    simp only [Bool.not_false, Bool.false_eq_true, if_false, NodeState.withTxdb, CTxDB.txnCommit,
      if_true, CTxDB.view_exec, CTxDB.view_txnBegin]

/-- The tip stays recorded when a synchronized checkpoint is written. -/
theorem TipRecorded.writeSyncCheckpoint {s : NodeState} (hs : TipRecorded C s) (hash : Uint256) :
    TipRecorded C (s.writeSyncCheckpoint env hash) := by
  obtain ⟨hcontent, hbatch, hmap, hseen, hgen, htip⟩ := writeSyncCheckpoint_spec env s hash
  have hkeep : ∀ {k : DbKey}, k ≠ .hashSyncCheckpoint →
      (s.writeSyncCheckpoint env hash).txdb.content k = s.txdb.content k := by
    intro k hk
    rw [hcontent]
    split
    · rfl
    · simp [KVStore.applyOp_apply, KVStore.Op.at, hk.symm]
  exact hs.congr hmap hseen hgen htip hbatch (fun h => hkeep (by simp)) (hkeep (by simp))

namespace RunOK

variable {s s' : NodeState}

theorem congr (hs : RunOK C s) (hmap : s'.mapBlockIndex = s.mapBlockIndex)
    (hseen : s'.setStakeSeen = s.setStakeSeen)
    (hgen : s'.pindexGenesisBlock = s.pindexGenesisBlock) (htip : SameTip s s')
    (htxdb : s'.txdb = s.txdb) : RunOK C s' := by
  refine ⟨⟨hs.recorded.congr hmap hseen hgen htip ?_ ?_ ?_, ?_⟩, ?_, ?_⟩
  · rw [htxdb]
    exact hs.recorded.disk.batch
  · rw [htxdb]
    exact fun _ => rfl
  · rw [htxdb]
  · rw [htip.pindexBest, htxdb]
    exact hs.recorded.syncCheckpoint
  · rw [htip.pindexBest, hmap]
    exact hs.empty
  · rw [hmap]
    exact hs.finite

theorem pindexBest_isSome (hs : RunOK C s) {h : Uint256} (hh : (s.mapBlockIndex h).isSome) :
    s.pindexBest.isSome := by
  cases hb : s.pindexBest with
  | some t => rfl
  | none =>
    rw [hs.empty hb h] at hh
    cases hh

/-- A new synchronized checkpoint. -/
theorem writeSyncCheckpoint (hs : RunOK C s) (hash : Uint256) :
    RunOK C (s.writeSyncCheckpoint env hash) := by
  obtain ⟨hcontent, -, hmap, -, -, htip⟩ := writeSyncCheckpoint_spec env s hash
  refine ⟨⟨hs.recorded.writeSyncCheckpoint hash, fun hbest => ?_⟩, ?_, ?_⟩
  · rw [hcontent]
    split
    · rw [htip.pindexBest] at hbest
      exact hs.recorded.syncCheckpoint hbest
    · simp [KVStore.applyOp]
  · rw [htip.pindexBest, hmap]
    exact hs.empty
  · rw [hmap]
    exact hs.finite

/-- **A successful call of `SetBestChain`** that connects the blocks it postpones. -/
theorem setBestChain (hs : RunOK C s) {b : CBlock} {h : Uint256} (hhash : b.getHash C = h)
    (hknown : (s.mapBlockIndex h).isSome) (hcall : ConnectsPostponed C env s b h)
    (hok : (s.setBestChain C env b h).1 = true) : RunOK C (s.setBestChain C env b h).2 := by
  have hsteps := setBestChain_chainSteps C env s b h
  have hsync : SyncRecord (s.txdb.content .hashSyncCheckpoint) (s.setBestChain C env b h).2 := by
    refine hsteps.syncRecord ⟨?_, rfl⟩
    rw [CTxDB.view, hs.recorded.disk.batch]
    rfl
  have htip := hs.recorded.disk.setBestChain_tipRecorded (.inl hs.recorded.genesis) hhash hknown
    hcall hok
  refine ⟨⟨htip, fun _ => ?_⟩, fun hnone => ?_, ?_⟩
  · rw [hsync.2]
    exact hs.recorded.syncCheckpoint (hs.pindexBest_isSome hknown)
  · rw [setBestChain_of_ok C env hok] at hnone
    cases hnone
  · obtain ⟨keys, hkeys⟩ := hs.finite
    exact ⟨keys, fun k hk => hkeys k ((hsteps.sameIndex.1.isSome k).symm.trans hk)⟩

/-- A new entry on top of a known one. -/
theorem indexed (hs : RunOK C s) (hzero : ∀ header, C.hashBlock header ≠ 0) {b : CBlock}
    {hashProofOfStake : Uint256} {e : CBlockIndex} (he : MadeEntry C s b hashProofOfStake e)
    (hunknown : s.mapBlockIndex (b.getHash C) = none)
    (hprev : (s.mapBlockIndex b.hashPrevBlock).isSome)
    (hproof : b.isProofOfStake = false → hashProofOfStake = 0)
    (hok : env.indexCommitFails = false) : RunOK C (s.indexed env e) := by
  have hent := hs.recorded.disk.entered.insertIndex hzero he hunknown (.inl hprev) hproof
  have hdisk := hs.recorded.disk.indexed hent (by rw [he.hash]; exact hunknown) he.pnext hok
  have hbest := hs.pindexBest_isSome hprev
  have hold : ∀ {k}, (s.mapBlockIndex k).isSome →
      (s.indexed env e).mapBlockIndex k = s.mapBlockIndex k := by
    intro k hk
    refine Function.update_of_ne ?_ ..
    rintro rfl
    rw [he.hash, hunknown] at hk
    cases hk
  -- the other records are left alone
  have hcontent : ∀ {k : DbKey}, (∀ hash, k ≠ .blockindex hash) →
      (s.indexed env e).txdb.content k = s.txdb.content k := by
    intro k hk
    simp only [NodeState.indexed, NodeState.withTxdb, CTxDB.txnCommit, hok, Bool.not_false, if_true,
      CTxDB.writeBlockIndex, CTxDB.view_exec, CTxDB.view_txnBegin, KVStore.applyOp_apply]
    simp [KVStore.Op.at, (hk _).symm]
  have hgenesis := hs.recorded.disk.entered.genesis_isSome hprev
  refine ⟨⟨⟨hdisk, ?_, ?_, ⟨?_, ?_⟩⟩, fun hsome => ?_⟩, ?_, ?_⟩
  · rw [hold hgenesis]
    exact hs.recorded.genesis
  · rw [hcontent (by simp)]
    exact hs.recorded.best
  · intro t ht
    obtain ⟨et, het, hrest⟩ := hs.recorded.tip.some ht
    exact ⟨et, (hold (by rw [het]; rfl)).trans het, hrest⟩
  · intro hnone
    rw [show s.pindexBest = none from hnone] at hbest
    cases hbest
  · rw [hcontent (by simp)]
    exact hs.recorded.syncCheckpoint hsome
  · intro hnone
    rw [show s.pindexBest = none from hnone] at hbest
    cases hbest
  · obtain ⟨keys, hkeys⟩ := hs.finite
    refine ⟨e.hash :: keys, fun k hk => ?_⟩
    by_cases hke : k = e.hash
    · exact hke ▸ List.mem_cons_self
    · have hmap : (s.indexed env e).mapBlockIndex k = s.mapBlockIndex k :=
        Function.update_of_ne hke ..
      exact List.mem_cons_of_mem _ (hkeys k (hmap ▸ hk))

end RunOK

variable (C env) in
/-- A call of `SetBestChain` succeeds. -/
def SetBestCall.Succeeds (c : SetBestCall) : Prop :=
  (c.node.setBestChain C env c.block c.pindexNew).1 = true

variable (C env) in
/-- A call of `SetBestChain` connects the blocks it postpones. -/
def SetBestCall.Connects (c : SetBestCall) : Prop :=
  ConnectsPostponed C env c.node c.block c.pindexNew

instance (c : SetBestCall) : Decidable (c.Succeeds C env) :=
  inferInstanceAs (Decidable ((c.node.setBestChain C env c.block c.pindexNew).1 = true))

instance (c : SetBestCall) : Decidable (c.Connects C env) :=
  inferInstanceAs (Decidable (ConnectsPostponed C env c.node c.block c.pindexNew))

/-- What a successful `AddToBlockIndex` did: it made and recorded the entry, and called
`SetBestChain` or not. -/
theorem addToBlockIndex_eq_true {s : NodeState} {b : CBlock} {nFile nBlockPos : Nat}
    {hashProofOfStake : Uint256}
    (hok : (s.addToBlockIndex C env b nFile nBlockPos hashProofOfStake).1 = true) :
    ∃ e, s.mapBlockIndex (b.getHash C) = none ∧ MadeEntry C s b hashProofOfStake e ∧
      env.indexCommitFails = false ∧
      (s.nBestChainTrust < e.nChainTrust ∧
        s.addToBlockIndexCalls C env b nFile nBlockPos hashProofOfStake =
          [⟨s.indexed env e, b, e.hash⟩] ∧
        s.addToBlockIndex C env b nFile nBlockPos hashProofOfStake =
          (s.indexed env e).setBestChain C env b e.hash ∨
        ¬ s.nBestChainTrust < e.nChainTrust ∧
        (s.addToBlockIndex C env b nFile nBlockPos hashProofOfStake).2 = s.indexed env e) := by
  unfold NodeState.addToBlockIndex at hok ⊢
  unfold NodeState.addToBlockIndexCalls
  split at hok
  · cases hok
  · next hunknown =>
    rw [if_neg hunknown, if_neg hunknown]
    split at hok
    · cases hok
    · next e hnew =>
      dsimp only at hok
      simp only [hnew]
      refine ⟨e, by simpa using hunknown, madeEntry_of_newBlockIndex hnew, ?_⟩
      split at hok
      · cases hok
      · next hfails =>
        refine ⟨by simpa using hfails, ?_⟩
        rw [if_neg hfails, if_neg hfails]
        split at hok
        · next hlt =>
          have hlt : s.nBestChainTrust < e.nChainTrust := hlt
          exact .inl ⟨hlt, by rw [if_pos hlt], if_pos hlt⟩
        · next hlt =>
          have hlt : ¬ s.nBestChainTrust < e.nChainTrust := hlt
          exact .inr ⟨hlt, congrArg Prod.snd (if_neg hlt)⟩

/-- A proof-of-work block has no proof hash. -/
theorem hashProofOfStake_of_acceptChecks {s : NodeState} {b : CBlock} {hashProofOfStake : Uint256}
    (h : s.acceptChecks C env b = some hashProofOfStake) (hpow : b.isProofOfStake = false) :
    hashProofOfStake = 0 := by
  simp only [NodeState.acceptChecks, NodeState.checkKernel, hpow, Bool.false_eq_true, if_false] at h
  split_ifs at h
  split at h
  · cases h
  · split_ifs at h
    exact (Option.some.inj h).symm

namespace RunOK

variable {s : NodeState}

/-- `AddToBlockIndex` on top of a known block. -/
theorem addToBlockIndex (hs : RunOK C s) (hzero : ∀ header, C.hashBlock header ≠ 0) {b : CBlock}
    {nFile nBlockPos : Nat} {hashProofOfStake : Uint256}
    (hprev : (s.mapBlockIndex b.hashPrevBlock).isSome)
    (hproof : b.isProofOfStake = false → hashProofOfStake = 0)
    (hcalls : ∀ c ∈ s.addToBlockIndexCalls C env b nFile nBlockPos hashProofOfStake,
      c.Connects C env)
    (hok : (s.addToBlockIndex C env b nFile nBlockPos hashProofOfStake).1 = true) :
    RunOK C (s.addToBlockIndex C env b nFile nBlockPos hashProofOfStake).2 := by
  obtain ⟨e, hunknown, he, hcommit, ⟨-, hcall, heq⟩ | ⟨-, heq⟩⟩ := addToBlockIndex_eq_true hok
  · have hindexed := hs.indexed hzero he hunknown hprev hproof hcommit
    rw [heq] at hok ⊢
    have hconnects : SetBestCall.Connects C env ⟨s.indexed env e, b, e.hash⟩ :=
      hcalls _ (by rw [hcall]; exact .head _)
    refine hindexed.setBestChain he.hash.symm ?_ hconnects hok
    have hmap : (s.indexed env e).mapBlockIndex e.hash = some e := Function.update_self ..
    rw [hmap]
    rfl
  · rw [heq]
    exact hs.indexed hzero he hunknown hprev hproof hcommit

/-- `AcceptPendingSyncCheckpoint`, as long as the call it makes succeeds. -/
theorem acceptPendingSyncCheckpoint (hs : RunOK C s)
    (hcalls : ∀ c ∈ s.acceptPendingCalls C env, c.Succeeds C env ∧ c.Connects C env) :
    RunOK C (s.acceptPendingSyncCheckpoint C env) := by
  unfold NodeState.acceptPendingSyncCheckpoint
  unfold NodeState.acceptPendingCalls at hcalls
  simp only at hcalls ⊢
  split
  · exact hs
  · next hpending =>
    rw [if_neg hpending] at hcalls
    split
    · exact hs.congr rfl rfl rfl ⟨rfl, rfl, rfl, rfl⟩ rfl
    · next hvalid =>
      rw [if_neg hvalid] at hcalls
      split
      · exact hs.writeSyncCheckpoint _
      · next hmain =>
        rw [if_neg hmain] at hcalls
        split
        · exact hs
        · next b hr =>
          rw [hr] at hcalls
          obtain ⟨hok, hconnects⟩ := hcalls _ (.head _)
          have hok : (s.setBestChain C env b s.hashPendingCheckpoint).1 = true := hok
          have hknown : (s.mapBlockIndex s.hashPendingCheckpoint).isSome := by
            rw [Option.isSome_iff_ne_none]
            exact fun hnone => hpending (.inr hnone)
          have hset := hs.setBestChain (hs.recorded.disk.getHash_of_readFromDisk hr) hknown
            hconnects hok
          rw [if_pos hok]
          exact hset.writeSyncCheckpoint _

/-- **A successful `AcceptBlock`**, as long as its calls of `SetBestChain` succeed and connect the
blocks they postpone. -/
theorem acceptBlock (hs : RunOK C s) (hzero : ∀ header, C.hashBlock header ≠ 0) {b : CBlock}
    (hcalls : ∀ c ∈ s.acceptCalls C env b, c.Succeeds C env ∧ c.Connects C env)
    (hok : (s.acceptBlock C env b).1 = true) : RunOK C (s.acceptBlock C env b).2 := by
  unfold NodeState.acceptBlock at hok ⊢
  unfold NodeState.acceptCalls at hcalls
  split at hok
  · cases hok
  · next hashProofOfStake hchecks =>
    split at hok
    · cases hok
    · next nFile nBlockPos hdisk =>
      simp only [hchecks, hdisk] at hcalls hok ⊢
      split at hok
      · next hadd =>
        rw [if_pos hadd] at hcalls ⊢
        obtain ⟨-, pprev, hprev⟩ := exists_of_acceptChecks hchecks
        have hwritten : RunOK C (s.writeBlock b nFile nBlockPos) :=
          hs.congr rfl rfl rfl ⟨rfl, rfl, rfl, rfl⟩ rfl
        have hadded := hwritten.addToBlockIndex hzero (by
            rw [show (s.writeBlock b nFile nBlockPos).mapBlockIndex = s.mapBlockIndex from rfl, hprev]
            rfl) (hashProofOfStake_of_acceptChecks hchecks)
          (fun c hc => (hcalls c (List.mem_append_left _ hc)).2) hadd
        exact hadded.acceptPendingSyncCheckpoint fun c hc =>
          hcalls c (List.mem_append_right _ hc)
      · cases hok

end RunOK

theorem known_of_readFromDisk {s : NodeState} {h : Uint256} {b : CBlock}
    (hr : s.readFromDisk C env h = some b) : (s.mapBlockIndex h).isSome := by
  obtain ⟨e, he, -⟩ := NodeState.blockOf_eq_some (readFromDisk_eq_some C env hr)
  exact Option.isSome_iff_exists.mpr ⟨e, he⟩

/-- **The genesis block** of an empty tree, as long as it is indexed and its checkpoint written. -/
theorem RunOK.loadGenesis {s : NodeState} (hs : RunOK C s)
    (hzero : ∀ header, C.hashBlock header ≠ 0) (hempty : ∀ h, s.mapBlockIndex h = none)
    (hok : (s.loadGenesis C env).1 = true) : RunOK C (s.loadGenesis C env).2 := by
  have hnobest : s.pindexBest = none := by
    rcases hbest : s.pindexBest with _ | t
    · rfl
    · obtain ⟨e, he, -⟩ := hs.recorded.tip.some hbest
      rw [hempty] at he
      cases he
  obtain ⟨hnogen, -, -, htrust⟩ := hs.recorded.tip.none hnobest
  unfold NodeState.loadGenesis at hok ⊢
  split at hok
  · cases hok
  · next hassert =>
    rw [if_neg hassert]
    have hhash : NodeState.genesisBlock.getHash C = NodeState.hashGenesisBlock := by
      by_contra hne
      exact hassert (.inr (.inl hne))
    split at hok
    · cases hok
    · next nFile nBlockPos hdisk =>
      simp only at hok ⊢
      split at hok
      · next hadd =>
        rw [if_pos hadd]
        obtain ⟨e, hunknown, he, hcommit, ⟨-, -, heq⟩ | ⟨hlt, -⟩⟩ := addToBlockIndex_eq_true hadd
        · rw [heq] at hadd ⊢
          have hwritten : RunOK C (s.writeBlock NodeState.genesisBlock nFile nBlockPos) :=
            hs.congr rfl rfl rfl ⟨rfl, rfl, rfl, rfl⟩ rfl
          have hent := hwritten.recorded.disk.entered.insertIndex hzero he hunknown
            (.inr ⟨hhash, rfl⟩) fun _ => rfl
          have hindexed := hwritten.recorded.disk.indexed hent (by rw [he.hash]; exact hunknown)
            he.pnext hcommit
          generalize hn : (s.writeBlock NodeState.genesisBlock nFile nBlockPos).indexed env e = n at *
          have hmap : ∀ k, n.mapBlockIndex k = if k = e.hash then some e else none := by
            intro k
            subst hn
            by_cases hk : k = e.hash
            · subst hk
              rw [if_pos rfl]
              exact Function.update_self ..
            · rw [if_neg hk, ← hempty k]
              exact Function.update_of_ne hk ..
          have hgenesis : n.pindexGenesisBlock = none := by
            subst hn
            exact hnogen
          have hbest : n.pindexBest = none := by
            subst hn
            exact hnobest
          have htip := hindexed.setBestChain_tipRecorded (.inr ⟨hgenesis, he.hash.trans hhash⟩)
            he.hash.symm (by rw [hmap, if_pos rfl]; rfl)
            (fun _ t ht => by rw [hbest] at ht; cases ht) hadd
          have hindex := (setBestChain_chainSteps C env n NodeState.genesisBlock e.hash).sameIndex.1
          have hset := setBestChain_of_ok C env hadd
          generalize (n.setBestChain C env NodeState.genesisBlock e.hash).2 = m at *
          obtain ⟨hcontent, -, hmap', -, -, htip'⟩ :=
            writeSyncCheckpoint_spec env m NodeState.hashGenesisBlock
          have hrecorded : RunOK C (m.writeSyncCheckpoint env NodeState.hashGenesisBlock) := by
            refine ⟨⟨htip.writeSyncCheckpoint _, fun _ => ?_⟩, fun hnone => ?_, [e.hash],
              fun k hk => ?_⟩
            · rw [hcontent, hcommit]
              simp [KVStore.applyOp]
            · rw [htip'.pindexBest, hset] at hnone
              cases hnone
            · rw [hmap', hindex.isSome, hmap] at hk
              split at hk
              · next heq => exact List.mem_singleton.mpr heq
              · cases hk
          exact hrecorded.congr rfl rfl rfl ⟨rfl, rfl, rfl, rfl⟩ rfl
        · -- the genesis block has trust, and the node has none
          exfalso
          refine hlt ?_
          have hbits : e.nBits = NodeState.genesisBlock.nBits := by
            have := he.header
            simp only [Prod.mk.injEq] at this
            exact this.2.2.2.1
          have hpos : 0 < NodeState.getBlockTrust NodeState.genesisBlock.nBits := by decide +kernel
          have hzero : (s.writeBlock NodeState.genesisBlock nFile nBlockPos).nBestChainTrust = 0 :=
            htrust
          rw [he.nChainTrust, hbits, hzero]
          exact Nat.lt_of_lt_of_le hpos (Nat.le_add_left _ _)
      · cases hok

/-! ## Runs -/

/-- A node with an empty database and empty block files. -/
def emptyNode : NodeState where
  mapBlockIndex _ := none
  setStakeSeen := []
  pindexGenesisBlock := none
  pindexBest := none
  hashBestChain := 0
  nBestHeight := -1
  nBestChainTrust := 0
  nBestInvalidTrust := 0
  pblockindexFBBHLast := none
  hashSyncCheckpoint := 0
  hashPendingCheckpoint := 0
  mempool := ⟨∅, ∅⟩
  txdb := ⟨fun _ => none, none⟩
  blkFiles _ _ := none
  walletSyncs := []

variable (C) in
/-- **Runs of successful calls** from an empty database. The tree is started with the genesis block;
blocks are accepted, and `SetBestChain` is called for blocks of the tree, with calls that meet
`Call`; the memory pool and the pending checkpoint change. -/
inductive NodeRun (Call : Env → SetBestCall → Prop) : NodeState → Prop
  | empty : NodeRun Call emptyNode
  | genesis {s : NodeState} {env : Env} : NodeRun Call s → (∀ h, s.mapBlockIndex h = none) →
      (s.loadGenesis C env).1 = true → NodeRun Call (s.loadGenesis C env).2
  | accept {s : NodeState} {env : Env} {b : CBlock} : NodeRun Call s →
      (s.acceptBlock C env b).1 = true →
      (∀ c ∈ s.acceptCalls C env b, c.Succeeds C env ∧ Call env c) →
      NodeRun Call (s.acceptBlock C env b).2
  | setBestChain {s : NodeState} {env : Env} {b : CBlock} {h : Uint256} : NodeRun Call s →
      s.readFromDisk C env h = some b → (s.setBestChain C env b h).1 = true →
      Call env ⟨s, b, h⟩ → NodeRun Call (s.setBestChain C env b h).2
  | other {s : NodeState} (mempool : CTxMemPool) (hashPendingCheckpoint : Uint256) :
      NodeRun Call s → NodeRun Call { s with
        mempool := mempool, hashPendingCheckpoint := hashPendingCheckpoint }

variable (C) in
/-- **The node restarts as it was**: its records can be scanned, and in whatever order they are,
`LoadBlockIndex` succeeds and rebuilds the tree and the tip. -/
def RestartsEqual (s : NodeState) : Prop :=
  (∃ keys, Enumerates s keys) ∧ ∀ keys, Enumerates s keys →
    (s.restart.loadBlockIndex C keys).1 = true ∧ Rebuilt s (s.restart.loadBlockIndex C keys).2

theorem RunOK.emptyNode : RunOK C emptyNode := by
  refine ⟨⟨⟨⟨⟨rfl, ?_, ?_, ?_, ?_, ?_, ?_, ?_, ?_, ?_⟩, ?_, rfl, fun _ => rfl⟩, rfl, rfl,
    ⟨?_, fun _ => ⟨rfl, rfl, rfl, rfl⟩⟩⟩, ?_⟩, fun _ _ => rfl, [], ?_⟩
  all_goals simp [MotaCoin.emptyNode, NodeState.nextOf]

theorem RunOK.enumerates {s : NodeState} (hs : RunOK C s) : ∃ keys, Enumerates s keys := by
  obtain ⟨keys, hkeys⟩ := hs.finite
  have hsome : ∀ h, (s.txdb.content (.blockindex h)).isSome = (s.mapBlockIndex h).isSome := by
    intro h
    rw [← Option.isSome_map (f := CDiskBlockIndex.serialized), hs.recorded.disk.records h,
      Option.isSome_map]
  refine ⟨keys.filter fun h => (s.txdb.content (.blockindex h)).isSome, fun h => ?_⟩
  rw [List.mem_filter]
  constructor
  · exact fun hh => hh.2
  · exact fun hh => ⟨hkeys h ((hsome h).symm.trans hh), hh⟩

/-- **Runs whose calls connect the blocks they postpone** can be stopped and restarted at any
point. -/
theorem nodeRun_restartsEqual (hzero : ∀ header, C.hashBlock header ≠ 0) {s : NodeState}
    (h : NodeRun C (fun env c => c.Connects C env) s) : RestartsEqual C s := by
  have hs : RunOK C s := by
    induction h with
    | empty => exact RunOK.emptyNode
    | genesis _ hempty hok ih => exact ih.loadGenesis hzero hempty hok
    | accept _ hok hcalls ih => exact ih.acceptBlock hzero hcalls hok
    | setBestChain _ hr hok hcall ih =>
      have hknown := known_of_readFromDisk hr
      exact ih.setBestChain (ih.recorded.disk.getHash_of_readFromDisk hr) hknown hcall hok
    | other mempool hashPendingCheckpoint _ ih =>
      exact ih.congr rfl rfl rfl ⟨rfl, rfl, rfl, rfl⟩ rfl
  exact ⟨hs.enumerates, fun keys hkeys => hs.recorded.loadBlockIndex hkeys⟩

/-! ### A checkpoint below the tip

Two blocks on top of genesis, and one beside them that a checkpoint makes the tip. A third block on
top of the first two brings the node back; it pays its miner `nValue`, and 0.42 coins are allowed. -/

/-- A block on top of genesis. -/
def restartFirst : CBlock :=
  plainBlock NodeState.hashGenesisBlock 2 1521500000 [heightCoinbase 1 1521500000 42000000]

/-- A block on top of the first one. -/
def restartSecond : CBlock := plainBlock 2 3 1521600000 [heightCoinbase 2 1521600000 42000000]

/-- A block beside the first one. -/
def restartSide : CBlock :=
  plainBlock NodeState.hashGenesisBlock 4 1521700000 [heightCoinbase 1 1521700000 42000000]

/-- A block on top of the second one. -/
def restartThird (nValue : Int) : CBlock :=
  plainBlock 3 5 1521800000 [heightCoinbase 3 1521800000 nValue]

/-- Hashes that number the blocks and their coinbases from two, with the genesis block's own. -/
noncomputable def restartCrypto (nValue : Int) : Crypto :=
  let blocks := [NodeState.genesisBlock, restartFirst, restartSecond, restartSide,
    restartThird nValue]
  let numbered := labelCrypto (blocks.flatMap CBlock.vtx) (blocks.map CBlock.getBlockHeader)
  { numbered with
    hashTx := fun tx => Equiv.swap 1 NodeState.genesisBlock.hashMerkleRoot (numbered.hashTx tx)
    hashBlock := fun header => Equiv.swap 1 NodeState.hashGenesisBlock (numbered.hashBlock header)
    hashChecksum := fun _ _ _ _ => 0x0e00670b }

/-- A clock after the blocks, checkpoints as advice, and room in the file `nFile`. -/
def restartEnv (nFile : Nat) : Env :=
  { tallEnv with
    adjustedTime := 1522000000
    checkpointsMode := .advisory
    writeToDisk := some (nFile, 8) }

section Restart

variable (nValue : Int)

/-- The node with the genesis block. -/
noncomputable def restartNode₀ : NodeState :=
  (emptyNode.loadGenesis (restartCrypto nValue) (restartEnv 1)).2

/-- The node with the first block. -/
noncomputable def restartNode₁ : NodeState :=
  ((restartNode₀ nValue).acceptBlock (restartCrypto nValue) (restartEnv 2) restartFirst).2

/-- The node with the second block. -/
noncomputable def restartNode₂ : NodeState :=
  ((restartNode₁ nValue).acceptBlock (restartCrypto nValue) (restartEnv 3) restartSecond).2

/-- The node with the block beside them. -/
noncomputable def restartNode₃ : NodeState :=
  ((restartNode₂ nValue).acceptBlock (restartCrypto nValue) (restartEnv 4) restartSide).2

/-- The node with the block beside them as its tip. -/
noncomputable def restartNode₄ : NodeState :=
  ((restartNode₃ nValue).setBestChain (restartCrypto nValue) (restartEnv 5) restartSide 4).2

/-- The node with the third block. -/
noncomputable def restartNode₅ : NodeState :=
  ((restartNode₄ nValue).acceptBlock (restartCrypto nValue) (restartEnv 5) (restartThird nValue)).2

end Restart

theorem restartCrypto_hashBlock_ne_zero (nValue : Int) (header : CBlockHeader) :
    (restartCrypto nValue).hashBlock header ≠ 0 := by
  have hlabel : ∀ l : List CBlockHeader, Labelling.label l header ≠ 0 := by
    intro l
    unfold Labelling.label
    split
    · omega
    · omega
  intro hzero
  have hswap : Equiv.swap 1 NodeState.hashGenesisBlock 0 = 0 := by decide +kernel
  exact hlabel _ ((Equiv.injective _) (hzero.trans hswap.symm))

theorem restartCrypto_hashInjective (nValue : Int) : HashInjective (restartCrypto nValue) where
  hashTx := (Equiv.injective _).comp (labelCrypto_hashInjective _ _).hashTx
  hashBlock := (Equiv.injective _).comp (labelCrypto_hashInjective _ _).hashBlock
  hashPair := (labelCrypto_hashInjective [] []).hashPair

/-- The run, as far as its steps succeed and their calls meet `Call`. -/
theorem restartNode₅_run {nValue : Int} {Call : Env → SetBestCall → Prop}
    (hgenesis : (emptyNode.loadGenesis (restartCrypto nValue) (restartEnv 1)).1 = true)
    (haccepts : ∀ p ∈ [(restartNode₀ nValue, restartEnv 2, restartFirst),
        (restartNode₁ nValue, restartEnv 3, restartSecond),
        (restartNode₂ nValue, restartEnv 4, restartSide),
        (restartNode₄ nValue, restartEnv 5, restartThird nValue)],
      (p.1.acceptBlock (restartCrypto nValue) p.2.1 p.2.2).1 = true ∧
      ∀ c ∈ p.1.acceptCalls (restartCrypto nValue) p.2.1 p.2.2,
        c.Succeeds (restartCrypto nValue) p.2.1 ∧ Call p.2.1 c)
    (hread : (restartNode₃ nValue).readFromDisk (restartCrypto nValue) (restartEnv 5) 4 =
      some restartSide)
    (hset : ((restartNode₃ nValue).setBestChain (restartCrypto nValue) (restartEnv 5) restartSide
      4).1 = true)
    (hcall : Call (restartEnv 5) ⟨restartNode₃ nValue, restartSide, 4⟩) :
    NodeRun (restartCrypto nValue) Call (restartNode₅ nValue) := by
  have h₀ : NodeRun (restartCrypto nValue) Call (restartNode₀ nValue) :=
    NodeRun.genesis NodeRun.empty (fun _ => rfl) hgenesis
  have hstep : ∀ p ∈ [(restartNode₀ nValue, restartEnv 2, restartFirst),
        (restartNode₁ nValue, restartEnv 3, restartSecond),
        (restartNode₂ nValue, restartEnv 4, restartSide),
        (restartNode₄ nValue, restartEnv 5, restartThird nValue)],
      NodeRun (restartCrypto nValue) Call p.1 → NodeRun (restartCrypto nValue) Call
        (p.1.acceptBlock (restartCrypto nValue) p.2.1 p.2.2).2 :=
    fun p hp hrun => hrun.accept (haccepts p hp).1 (haccepts p hp).2
  simp only [List.forall_mem_cons] at hstep
  obtain ⟨hstep₀, hstep₁, hstep₂, hstep₄, -⟩ := hstep
  have h₃ : NodeRun (restartCrypto nValue) Call (restartNode₃ nValue) :=
    hstep₂ (hstep₁ (hstep₀ h₀))
  exact hstep₄ (h₃.setBestChain hread hset hcall)

/-- When the third block pays its miner what is allowed, the run ends with it connected, and the
node restarts as it was. -/
theorem nodeRun_restartsEqual_third :
    ∃ s, NodeRun (restartCrypto 42000000) (fun env c => c.Connects (restartCrypto 42000000) env) s ∧
      s.pindexBest = some 5 ∧ s.txdb.content .hashBestChain = some 5 ∧
      RestartsEqual (restartCrypto 42000000) s := by
  have hrun : NodeRun (restartCrypto 42000000)
      (fun env c => c.Connects (restartCrypto 42000000) env) (restartNode₅ 42000000) :=
    restartNode₅_run (by decide +kernel) (by decide +kernel) (by decide +kernel)
      (by decide +kernel) (by decide +kernel)
  exact ⟨_, hrun, by decide +kernel, by decide +kernel,
    nodeRun_restartsEqual (restartCrypto_hashBlock_ne_zero _) hrun⟩

theorem loadScores_sameOutside (v : List Uint256) (m : NodeState) :
    SameOutside m (m.loadScores C v).2 := by
  induction v generalizing m with
  | nil => exact SameOutside.refl m
  | cons h v ih =>
    rw [NodeState.loadScores]
    split
    · exact ih m
    · simp only
      split
      · exact SameOutside.refl m
      · split
        · obtain ⟨htxdb, hbest, hhash, hheight, htrust⟩ := ih (m.modifyIndex h _)
          exact ⟨htxdb, hbest, hhash, hheight, htrust⟩
        · exact ⟨rfl, rfl, rfl, rfl, rfl⟩

/-- The tip a node is loaded with is the committed one. -/
theorem loadBlockIndex_pindexBest (s : NodeState) (keys : List Uint256) :
    (s.restart.loadBlockIndex C keys).2.pindexBest = none ∨
      (s.restart.loadBlockIndex C keys).2.pindexBest = s.txdb.content .hashBestChain := by
  have hfold : ∀ (records : List CDiskBlockIndex) (m : NodeState),
      SameOutside m (records.foldl (NodeState.loadRecord C) m) := by
    intro records
    induction records with
    | nil => exact SameOutside.refl
    | cons d records ih => exact fun m => (loadRecord_sameOutside m d).trans (ih _)
  unfold NodeState.loadBlockIndex
  simp only
  generalize (keys.filterMap fun hash => s.restart.txdb.read (.blockindex hash)) = records
  have hscan := hfold records s.restart
  generalize records.foldl (NodeState.loadRecord C) s.restart = m at hscan
  generalize (NodeState.loadedKeys C records).insertionSort
    (fun a b => m.heightOf a ≤ m.heightOf b) = v
  have hout := hscan.trans (loadScores_sameOutside (C := C) v m)
  split
  · unfold NodeState.loadBest
    rw [hout.txdb, restart_read]
    split
    · exact .inl hout.pindexBest
    · next t ht =>
      split
      · exact .inl hout.pindexBest
      · simp only
        split
        · exact .inr ht.symm
        · exact .inr ht.symm
  · exact .inl hout.pindexBest

/-- When the third block pays its miner too much, `AcceptBlock` succeeds, the second block is
committed and the third one is the tip in memory. -/
theorem not_forall_nodeRun_restartsEqual :
    ¬ ∀ (C : Crypto) (s : NodeState), HashInjective C → (∀ header, C.hashBlock header ≠ 0) →
      NodeRun C (fun _ _ => True) s → RestartsEqual C s := by
  intro hall
  have hrun : NodeRun (restartCrypto 42000001) (fun _ _ => True) (restartNode₅ 42000001) :=
    restartNode₅_run (by decide +kernel) (by decide +kernel) (by decide +kernel)
      (by decide +kernel) trivial
  obtain ⟨⟨keys, hkeys⟩, hload⟩ := hall (restartCrypto 42000001) (restartNode₅ 42000001)
    (restartCrypto_hashInjective _) (restartCrypto_hashBlock_ne_zero _) hrun
  have hbest := (hload keys hkeys).2.pindexBest
  have hmemory : (restartNode₅ 42000001).pindexBest = some 5 := by decide +kernel
  have hdisk : (restartNode₅ 42000001).txdb.content .hashBestChain = some 3 := by decide +kernel
  rcases loadBlockIndex_pindexBest (C := restartCrypto 42000001) (restartNode₅ 42000001) keys with
    hnone | hcommitted
  · rw [hnone, hmemory] at hbest
    cases hbest
  · rw [hcommitted, hdisk, hmemory] at hbest
    cases hbest

end MotaCoin
