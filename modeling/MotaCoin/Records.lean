import MotaCoin.Reload

/-!
# The records of the block tree under SetBestChain

`ConnectBlock` and `DisconnectBlock` write the record of the previous block with a new forward link,
and `ConnectBlock` the record of the block itself, while the links in memory are set after the
commit. Inside a batch the records are those of the entries with other links: the links that memory
will have once the batch is committed.

## Main definitions

* `CTxDB.SameAt`: a record is left alone
* `linkPrev`: the forward links with the one of the previous block set
* `NodeState.RecordsAs`: the records a reader sees are those of the entries, with given links
* `FurtherConnects`, `ConnectsPostponed`: every postponed block is connected when its turn comes

## Main results

* `RecordsAs.disconnectLoop`, `RecordsAs.connectLoop`: the records inside the batch
* `OnDisk.setBestChainInner`, `OnDisk.reorganize`: a committed batch brings the entries and the
  records together
* `OnDisk.setBestChain`
-/

namespace MotaCoin

open Ancestry (Walk Climb)

variable {C : Crypto} {env : Env}

/-! ## Records that are left alone -/

/-- The record under `k` is the same, committed and as a reader sees it. -/
def CTxDB.SameAt (k : DbKey) (db db' : CTxDB) : Prop :=
  db'.view k = db.view k ∧ db'.content k = db.content k

namespace CTxDB.SameAt

variable {k : DbKey} {db db' db'' : CTxDB}

theorem refl (db : CTxDB) : SameAt k db db := ⟨rfl, rfl⟩

theorem trans (h : SameAt k db db') (h' : SameAt k db' db'') : SameAt k db db'' :=
  ⟨h'.1.trans h.1, h'.2.trans h.2⟩

/-- A write that says nothing about the key. -/
theorem exec (db : CTxDB) {op : KVStore.Op DbKey DbKey.Value} (h : op.at k = none) :
    SameAt k db (db.exec op) := by
  constructor
  · rw [CTxDB.view_exec, KVStore.applyOp_apply, h, Option.getD_none]
  · unfold CTxDB.exec
    split
    · rfl
    · simp only [KVStore.applyOp_apply, h, Option.getD_none]

variable (htx : ∀ hash, k ≠ .tx hash)
include htx

theorem unspendInputs (vin : List CTxIn) (db : CTxDB) :
    SameAt k db (CTransaction.unspendInputs vin db).2 := by
  induction vin generalizing db with
  | nil => exact refl db
  | cons txin vin ih =>
    simp only [CTransaction.unspendInputs]
    split
    · exact refl db
    · split
      · exact refl db
      · exact (exec db (by simp [KVStore.Op.at, (htx _).symm])).trans (ih _)

theorem disconnectInputs (tx : CTransaction) (db : CTxDB) :
    SameAt k db (tx.disconnectInputs C db).2 := by
  have herase : ∀ db : CTxDB, SameAt k db (db.eraseTxIndex (C.hashTx tx)) :=
    fun db => exec db (by simp [KVStore.Op.at, (htx _).symm])
  simp only [CTransaction.disconnectInputs]
  split
  · exact herase db
  · split
    · exact (unspendInputs htx tx.vin db).trans (herase _)
    · exact unspendInputs htx tx.vin db

theorem disconnectTxs (vtx : List CTransaction) (db : CTxDB) :
    SameAt k db (NodeState.disconnectTxs C vtx db).2 := by
  induction vtx generalizing db with
  | nil => exact refl db
  | cons tx vtx ih =>
    simp only [NodeState.disconnectTxs]
    split
    · exact (disconnectInputs htx tx db).trans (ih _)
    · exact disconnectInputs htx tx db

theorem writeQueue (db : CTxDB) (q : TxIndexQueue) :
    SameAt k db (NodeState.writeQueue db q) := by
  unfold NodeState.writeQueue
  induction q.entries generalizing db with
  | nil => exact refl db
  | cons e entries ih => exact (exec db (by simp [KVStore.Op.at, (htx _).symm])).trans (ih _)

omit htx in
theorem writePrevLink (hindex : ∀ hash, k ≠ .blockindex hash) (s : NodeState) (pindex : CBlockIndex)
    (hashNext : Uint256) (db : CTxDB) : SameAt k db (s.writePrevLink pindex hashNext db) := by
  unfold NodeState.writePrevLink
  split
  · exact refl db
  · exact exec db (by simp [KVStore.Op.at, (hindex _).symm])

end CTxDB.SameAt

/-- The record of the synchronized checkpoint, committed and as a reader sees it. -/
def SyncRecord (c : Option Uint256) (s : NodeState) : Prop :=
  s.txdb.view .hashSyncCheckpoint = c ∧ s.txdb.content .hashSyncCheckpoint = c

theorem SyncRecord.of_sameAt {c : Option Uint256} {s s' : NodeState} (hs : SyncRecord c s)
    (h : CTxDB.SameAt .hashSyncCheckpoint s.txdb s'.txdb) : SyncRecord c s' :=
  ⟨h.1.trans hs.1, h.2.trans hs.2⟩

/-- The chain logic leaves the record of the synchronized checkpoint alone. -/
theorem ChainStep.syncRecord {c : Option Uint256} {s s' : NodeState} (h : ChainStep C env s s')
    (hs : SyncRecord c s) : SyncRecord c s' := by
  have hself : CTxDB.SameAt .hashSyncCheckpoint s.txdb s.txdb := CTxDB.SameAt.refl _
  cases h with
  | txnBegin => exact ⟨hs.2, hs.2⟩
  | abortInvalid k =>
    unfold NodeState.abortInvalid NodeState.invalidChainFound
    split
    · have hcontent : KVStore.applyOp s.txdb.content (.put .bnBestInvalidTrust
          ((s.withTxdb s.txdb.txnAbort).trustOf k)) .hashSyncCheckpoint = c := by
        rw [KVStore.applyOp_apply]
        exact hs.2
      exact ⟨hcontent, hcontent⟩
    · exact ⟨hs.2, hs.2⟩
  | commitBest hash =>
    have hwrite : CTxDB.SameAt .hashSyncCheckpoint s.txdb (s.txdb.writeHashBestChain hash) :=
      CTxDB.SameAt.exec _ (by simp [KVStore.Op.at])
    have hcontent : ((s.txdb.writeHashBestChain hash).txnCommit
        (!env.commitFails hash)).content .hashSyncCheckpoint = c := by
      unfold CTxDB.txnCommit
      split
      · exact hwrite.1.trans hs.1
      · exact hwrite.2.trans hs.2
    exact ⟨hcontent, hcontent⟩
  | connectBlock b k =>
    refine hs.of_sameAt ?_
    unfold NodeState.connectBlock
    split
    · exact hself
    · next pindex _ =>
      split
      · exact hself
      · next t _ =>
        have hentry : CTxDB.SameAt .hashSyncCheckpoint s.txdb (s.txdb.writeBlockIndex
            (CDiskBlockIndex.ofIndex { pindex with
              nMint := Int64.wrap (t.nValueOut - t.nValueIn + t.nFees)
              nMoneySupply := Int64.wrap (s.prevMoneySupply pindex + t.nValueOut -
                t.nValueIn) })) :=
          CTxDB.SameAt.exec _ (by simp [KVStore.Op.at])
        exact (hentry.trans (CTxDB.SameAt.writeQueue (by simp) _ _)).trans
          (CTxDB.SameAt.writePrevLink (by simp) s _ _ _)
  | disconnectBlock b k =>
    refine hs.of_sameAt ?_
    unfold NodeState.disconnectBlock
    split
    · exact hself
    · have htxs : CTxDB.SameAt .hashSyncCheckpoint s.txdb
          (NodeState.disconnectTxs C b.vtx.reverse s.txdb).2 :=
        CTxDB.SameAt.disconnectTxs (by simp) _ _
      simp only
      split
      · exact htxs.trans (CTxDB.SameAt.writePrevLink (by simp) s _ _ _)
      · exact htxs
  | setPrevNext k pnext =>
    refine hs.of_sameAt ?_
    rw [setPrevNext_txdb]
    exact hself
  | mempool m => exact hs
  | genesis k => exact hs
  | newBestBlock b k => exact hs

theorem ChainSteps.syncRecord {c : Option Uint256} {s s' : NodeState} (h : ChainSteps C env s s')
    (hs : SyncRecord c s) : SyncRecord c s' := by
  induction h with
  | refl => exact hs
  | tail _ hstep ih => exact hstep.syncRecord ih

/-! ## Entries -/

namespace Entered

variable {s s' : NodeState}

theorem heightOf_of_parentOf (hs : Entered C s) {h p : Uint256} (hp : s.parentOf h = some p) :
    s.heightOf h = s.heightOf p + 1 := by
  obtain ⟨e, he, hpe⟩ := Option.bind_eq_some_iff.mp hp
  obtain ⟨e', he', hheight⟩ := hs.parent he hpe
  simpa [NodeState.heightOf, he, he'] using hheight

theorem isSome_of_parentOf (hs : Entered C s) {h p : Uint256} (hp : s.parentOf h = some p) :
    (s.mapBlockIndex p).isSome := by
  obtain ⟨e, he, hpe⟩ := Option.bind_eq_some_iff.mp hp
  obtain ⟨e', he', -⟩ := hs.parent he hpe
  exact Option.isSome_iff_exists.mpr ⟨e', he'⟩

/-- The entries as a tree of parent links. -/
def tree (hs : Entered C s) : Ancestry.Tree Uint256 := s.treeOf hs.heightOf_of_parentOf

/-- Above a fork, no block of the one side is the parent of a block of the other: it would be on both
paths. -/
theorem not_parent_of_fork (hs : Entered C s) {t a f : Uint256} {w v : List Uint256}
    (hf : s.findFork t a = some f) (hw : Walk s.parentOf t w f) (hv : Climb s.parentOf f v a)
    {x k : Uint256} (hx : x ∈ v) (hk : k ∈ w) : s.parentOf k ≠ some x := by
  intro hp
  have hlow : s.heightOf f < s.heightOf x :=
    Ancestry.Tree.lt_height_of_mem_climb (T := hs.tree) hv hx
  have hxa : x ∈ s.path a := by
    rw [show s.path a = s.path f ++ v from Ancestry.Tree.path_of_climb (T := hs.tree) hv]
    exact List.mem_append_right _ hx
  have hkt : k ∈ s.path t := by
    rw [show s.path t = s.path f ++ w.reverse from
      Ancestry.Tree.path_of_climb (T := hs.tree) hw.climb]
    exact List.mem_append_right _ (List.mem_reverse.mpr hk)
  have hxk : x ∈ s.path k := by
    obtain ⟨q, hq⟩ := hv.exists_parent hx
    refine (Ancestry.Tree.mem_path_of_parent (T := hs.tree) hp).mpr (.inl ?_)
    exact (Ancestry.Tree.mem_path_of_parent (T := hs.tree) hq).mpr (.inr rfl)
  have hxt : x ∈ s.path t :=
    (Ancestry.Tree.path_isPrefix_of_mem (T := hs.tree) hkt).subset hxk
  have := findFork_spec hs.heightOf_of_parentOf hf hxt hxa
  omega

/-- The links and the money supply of the entries are no part of what `AddToBlockIndex` fixes. -/
theorem of_sameIndex (hs : Entered C s) (h : SameIndex s s') : Entered C s' := by
  have hentry : ∀ {k e'}, s'.mapBlockIndex k = some e' → ∃ e, s.mapBlockIndex k = some e ∧
      ∃ pnext nMint nMoneySupply, e' = { e with
        pnext := pnext, nMint := nMint, nMoneySupply := nMoneySupply } := by
    intro k e' he'
    obtain ⟨e, he, hsk⟩ := h.exists_entry he'
    refine ⟨e, he, e'.pnext, e'.nMint, e'.nMoneySupply, ?_⟩
    exact congrArg (fun y : CBlockIndex => { y with
      pnext := e'.pnext, nMint := e'.nMint, nMoneySupply := e'.nMoneySupply }) hsk
  have hprev : ∀ {β : Type} (f : CBlockIndex → β), (∀ e, f e.skeleton = f e) →
      ∀ o : Option Uint256, (o.bind s'.mapBlockIndex).map f = (o.bind s.mapBlockIndex).map f := by
    intro β f hf o
    have hcomp : f = f ∘ CBlockIndex.skeleton := funext fun e => (hf e).symm
    cases o with
    | none => rfl
    | some p =>
      rw [Option.bind_some, Option.bind_some, hcomp, ← Option.map_map, ← Option.map_map,
        h.skeleton]
  refine ⟨?_, ?_, ?_, ?_, ?_, ?_, ?_, ?_, ?_, ?_⟩
  · rw [← Option.not_isSome_iff_eq_none, h.isSome, hs.zero]
    simp
  · intro k e' he'
    obtain ⟨e, he, pnext, nMint, nMoneySupply, rfl⟩ := hentry he'
    have hold := hs.hash_eq he
    exact hold
  · intro k e' he'
    obtain ⟨e, he, pnext, nMint, nMoneySupply, rfl⟩ := hentry he'
    have hold := hs.header he
    exact hold
  · intro k e' p he' hp
    obtain ⟨e, he, pnext, nMint, nMoneySupply, rfl⟩ := hentry he'
    obtain ⟨f, hf, hheight⟩ := hs.parent he hp
    obtain ⟨f', hf', hsk⟩ := h.symm.exists_entry hf
    refine ⟨f', hf', hheight.trans ?_⟩
    rw [(CBlockIndex.eq_of_skeleton hsk).2.2.2.2.1]
  · intro k e' he' hp
    obtain ⟨e, he, pnext, nMint, nMoneySupply, rfl⟩ := hentry he'
    exact hs.root he hp
  · intro k e' he'
    obtain ⟨e, he, pnext, nMint, nMoneySupply, rfl⟩ := hentry he'
    rw [hprev CBlockIndex.nChainTrust fun _ => rfl]
    have hold := hs.nChainTrust he
    exact hold
  · intro k e' he'
    obtain ⟨e, he, pnext, nMint, nMoneySupply, rfl⟩ := hentry he'
    rw [hprev CBlockIndex.nStakeModifierChecksum fun _ => rfl]
    have hold := hs.checksum he
    exact hold
  · intro k e' he'
    obtain ⟨e, he, pnext, nMint, nMoneySupply, rfl⟩ := hentry he'
    have hold := hs.checkpoint he
    exact hold
  · intro k e' he' hpos
    obtain ⟨e, he, pnext, nMint, nMoneySupply, rfl⟩ := hentry he'
    have hold := hs.stake he
    exact hold hpos
  · intro x
    rw [h.setStakeSeen, hs.seen]
    constructor
    · rintro ⟨k, e, he, hpos, hx⟩
      obtain ⟨e', he', hsk⟩ := h.symm.exists_entry he
      obtain ⟨e₀, he₀, pnext, nMint, nMoneySupply, rfl⟩ := hentry he'
      obtain rfl := Option.some.inj (he.symm.trans he₀)
      exact ⟨k, _, he', hpos, hx⟩
    · rintro ⟨k, e', he', hpos, hx⟩
      obtain ⟨e, he, pnext, nMint, nMoneySupply, rfl⟩ := hentry he'
      exact ⟨k, e, he, hpos, hx⟩

end Entered

/-! ## Records inside a batch -/

/-- The forward links with the one of the previous block of `hash` set. -/
def linkPrev (parentOf next : Uint256 → Option Uint256) (hash : Uint256)
    (pnext : Option Uint256) : Uint256 → Option Uint256 :=
  match parentOf hash with
  | none => next
  | some pprev => Function.update next pprev pnext

theorem linkPrev_of_ne {parentOf next : Uint256 → Option Uint256} {hash k : Uint256}
    (h : parentOf hash ≠ some k) (pnext : Option Uint256) :
    linkPrev parentOf next hash pnext k = next k := by
  unfold linkPrev
  cases hp : parentOf hash with
  | none => rfl
  | some p =>
    refine Function.update_of_ne ?_ _ _
    rintro rfl
    exact h hp

theorem foldl_linkPrev_of_ne {parentOf f : Uint256 → Option Uint256} {v : List Uint256}
    {k : Uint256} (h : ∀ j ∈ v, parentOf j ≠ some k) :
    ∀ {next : Uint256 → Option Uint256},
      v.foldl (fun next j => linkPrev parentOf next j (f j)) next k = next k := by
  induction v with
  | nil => exact rfl
  | cons j v ih =>
    intro next
    rw [List.foldl_cons, ih fun i hi => h i (List.mem_cons_of_mem _ hi),
      linkPrev_of_ne (h j List.mem_cons_self)]

/-- **The records a reader sees** are those of the entries, with the links `next`. -/
def NodeState.RecordsAs (s : NodeState) (next : Uint256 → Option Uint256) : Prop :=
  ∀ h, (s.txdb.view (.blockindex h)).map CDiskBlockIndex.serialized =
    (s.mapBlockIndex h).map fun e => e.record (next h)

theorem view_writeBlockIndex (db : CTxDB) (d : CDiskBlockIndex) (k : Uint256) :
    (db.writeBlockIndex d).view (.blockindex k) =
      if k = d.index.hash then some d else db.view (.blockindex k) := by
  rw [CTxDB.writeBlockIndex, CTxDB.view_exec, KVStore.applyOp]
  by_cases hk : k = d.index.hash
  · subst hk
    rw [Function.update_self, if_pos rfl]
  · rw [Function.update_of_ne (by simpa using hk), if_neg hk]

/-- The record of the previous block is rewritten with a new link. -/
theorem view_writePrevLink {s : NodeState} (hs : Entered C s) {h : Uint256} {e : CBlockIndex}
    (he : s.mapBlockIndex h = some e) (pnext : Option Uint256) (db : CTxDB) (k : Uint256) :
    ((s.writePrevLink e (pnext.getD 0) db).view (.blockindex k)).map CDiskBlockIndex.serialized =
      if s.parentOf h = some k then (s.mapBlockIndex k).map fun e => e.record pnext
      else (db.view (.blockindex k)).map CDiskBlockIndex.serialized := by
  have hparent : s.parentOf h = e.pprev := by rw [NodeState.parentOf, he, Option.bind_some]
  rw [hparent]
  unfold NodeState.writePrevLink
  cases hp : e.pprev with
  | none => simp
  | some p =>
    obtain ⟨e', he', -⟩ := hs.parent he hp
    simp only [Option.bind_some, he', view_writeBlockIndex, Option.some.injEq]
    have hhash : (CDiskBlockIndex.ofIndex e').index.hash = p := hs.hash_eq he'
    by_cases hk : p = k
    · subst hk
      rw [if_pos hhash.symm, if_pos rfl, he']
      rfl
    · rw [if_neg (by rw [hhash]; exact Ne.symm hk), if_neg hk]

namespace NodeState.RecordsAs

variable {s : NodeState} {next : Uint256 → Option Uint256} {b : CBlock} {h : Uint256}

theorem disconnectBlock (hrec : s.RecordsAs next) (hs : Entered C s)
    (hok : (s.disconnectBlock C b h).1 = true) :
    (s.disconnectBlock C b h).2.RecordsAs (linkPrev s.parentOf next h none) := by
  unfold NodeState.disconnectBlock at hok ⊢
  split at hok
  · cases hok
  · next e he =>
    simp only at hok ⊢
    split at hok
    · next hd =>
      rw [if_pos hd]
      intro k
      refine (view_writePrevLink hs he none _ k).trans ?_
      have htxs := CTxDB.SameAt.disconnectTxs (C := C) (k := .blockindex k) (by simp)
        b.vtx.reverse s.txdb
      split
      · next hp => simp only [linkPrev, hp, Function.update_self]
      · next hp => rw [htxs.1, hrec k, linkPrev_of_ne hp]
    · cases hok

/-- The record of a connected block is written with the link the block has in memory. -/
theorem connectBlock (hrec : s.RecordsAs next) (hs : Entered C s)
    (hok : (s.connectBlock C env b h).1 = true) :
    (s.connectBlock C env b h).2.RecordsAs
      (linkPrev s.parentOf (Function.update next h (s.nextOf h)) h (some h)) := by
  obtain ⟨e, t, he, -, -, heq⟩ := connectBlock_eq_true C env hok
  have hhash : e.hash = h := hs.hash_eq he
  have hnext : s.nextOf h = e.pnext := by rw [NodeState.nextOf, he, Option.bind_some]
  rw [heq]
  intro k
  -- a block is not its own parent
  have hself : s.parentOf h ≠ some h := by
    intro hp
    have := hs.heightOf_of_parentOf hp
    omega
  refine (view_writePrevLink hs he (some e.hash) _ k).trans ?_
  simp only [NodeState.connectWrites]
  split
  · next hp =>
    have hkh : k ≠ h := by
      rintro rfl
      exact hself hp
    simp only [linkPrev, hp, Function.update_self, Function.update_of_ne hkh, hhash]
  · next hp =>
    rw [(CTxDB.SameAt.writeQueue (k := .blockindex k) (by simp) _ _).1, view_writeBlockIndex,
      linkPrev_of_ne hp]
    simp only [CDiskBlockIndex.ofIndex, hhash]
    by_cases hk : k = h
    · subst hk
      rw [if_pos rfl, Function.update_self, Function.update_self, hnext]
      rfl
    · rw [if_neg hk, Function.update_of_ne hk, Function.update_of_ne hk, hrec k]

/-- The loop that disconnects takes the links back. -/
theorem disconnectLoop {w : List Uint256} :
    ∀ {s : NodeState} {next : Uint256 → Option Uint256} {vResurrect : List CTransaction},
      s.RecordsAs next → Entered C s →
      (NodeState.disconnectLoop C env w s vResurrect).1 = true →
      (NodeState.disconnectLoop C env w s vResurrect).2.1.RecordsAs
        (w.foldl (fun next h => linkPrev s.parentOf next h none) next) := by
  induction w with
  | nil => exact fun hrec _ _ => hrec
  | cons h w ih =>
    intro s next vResurrect hrec hs hok
    simp only [NodeState.disconnectLoop] at hok ⊢
    split at hok
    · cases hok
    · next b hr =>
      split at hok
      · next hd =>
        have hstep : ChainStep C env s (s.disconnectBlock C b h).2 := .disconnectBlock s b h
        have hparent := (disconnectBlock_frame C s b h).tree.parentOf
        have hrest := ih (hrec.disconnectBlock hs hd) (hs.of_sameIndex hstep.sameIndex.1) hok
        rw [hparent] at hrest
        rw [if_pos hd]
        exact hrest
      · cases hok

/-- The loop that connects sets the links, as long as the records of its blocks have the links they
have in memory. -/
theorem connectLoop {v : List Uint256} :
    ∀ {s : NodeState} {next : Uint256 → Option Uint256} {vDelete : List CTransaction}
      {f a : Uint256}, s.RecordsAs next → Entered C s → Climb s.parentOf f v a →
      (∀ h ∈ v, next h = s.nextOf h) → (NodeState.connectLoop C env v s vDelete).1 = true →
      (NodeState.connectLoop C env v s vDelete).2.1.RecordsAs
        (v.foldl (fun next h => linkPrev s.parentOf next h (some h)) next) := by
  induction v with
  | nil => exact fun hrec _ _ _ _ => hrec
  | cons h v ih =>
    intro s next vDelete f a hrec hs hc hnext hok
    have hup : ∀ k ∈ v, s.heightOf f < s.heightOf k := by
      intro k hk
      exact Ancestry.Tree.lt_height_of_mem_climb (T := s.treeOf hs.heightOf_of_parentOf) hc
        (List.mem_cons_of_mem _ hk)
    obtain ⟨hp, hc'⟩ := hc
    simp only [NodeState.connectLoop] at hok ⊢
    split at hok
    · cases hok
    · next b hr =>
      split at hok
      · next hcon =>
        have hframe := connectBlock_frame C env s b h
        have hstep : ChainStep C env s (s.connectBlock C env b h).2 := .connectBlock s b h
        have hrec' := hrec.connectBlock hs hcon
        rw [← hnext h List.mem_cons_self, Function.update_eq_self] at hrec'
        have hrest := ih hrec' (hs.of_sameIndex hstep.sameIndex.1) (hframe.tree.parentOf ▸ hc')
          (fun k hk => by
            -- the link that was set is that of a lower block
            rw [hframe.next, linkPrev_of_ne, hnext k (List.mem_cons_of_mem _ hk)]
            rw [hp]
            rintro heq
            obtain rfl := Option.some.inj heq
            exact Nat.lt_irrefl _ (hup f hk)) hok
        rw [hframe.tree.parentOf] at hrest
        rw [if_pos hcon]
        exact hrest
      · cases hok

end NodeState.RecordsAs

/-! ## Links in memory -/

theorem nextOf_setPrevNext_eq {s : NodeState} (hs : Entered C s) (h : Uint256)
    (pnext : Option Uint256) :
    (s.setPrevNext h pnext).nextOf = linkPrev s.parentOf s.nextOf h pnext := by
  unfold NodeState.setPrevNext linkPrev
  rw [show (s.mapBlockIndex h).bind CBlockIndex.pprev = s.parentOf h from rfl]
  cases hp : s.parentOf h with
  | none => rfl
  | some p =>
    obtain ⟨e, he⟩ := Option.isSome_iff_exists.mp (hs.isSome_of_parentOf hp)
    funext k
    by_cases hk : k = p
    · subst hk
      simp [NodeState.nextOf, NodeState.modifyIndex, he]
    · simp only [NodeState.nextOf, NodeState.modifyIndex, Function.update_of_ne hk]

theorem setPrevNext_sameIndex (s : NodeState) (h : Uint256) (pnext : Option Uint256) :
    SameIndex s (s.setPrevNext h pnext) := by
  refine ⟨(setPrevNext_sameTree s h pnext).skeleton, ?_⟩
  unfold NodeState.setPrevNext
  split
  · rfl
  · rfl

/-- Setting links in memory. The record of an entry does not depend on the link it has there. -/
theorem foldl_setPrevNext_spec (f : Uint256 → Option Uint256) (v : List Uint256) :
    ∀ {s : NodeState}, Entered C s →
      (v.foldl (fun s h => s.setPrevNext h (f h)) s).nextOf =
          v.foldl (fun next h => linkPrev s.parentOf next h (f h)) s.nextOf ∧
        SameTree s (v.foldl (fun s h => s.setPrevNext h (f h)) s) ∧
        (v.foldl (fun s h => s.setPrevNext h (f h)) s).txdb = s.txdb ∧
        Entered C (v.foldl (fun s h => s.setPrevNext h (f h)) s) ∧
        ∀ next : Uint256 → Option Uint256, s.RecordsAs next →
          (v.foldl (fun s h => s.setPrevNext h (f h)) s).RecordsAs next := by
  induction v with
  | nil => exact fun hs => ⟨rfl, SameTree.refl _, rfl, hs, fun _ hrec => hrec⟩
  | cons h v ih =>
    intro s hs
    have hstep := setPrevNext_sameTree s h (f h)
    obtain ⟨hnext, htree, htxdb, hent, hrec'⟩ :=
      ih (hs.of_sameIndex (setPrevNext_sameIndex s h (f h)))
    refine ⟨?_, hstep.trans htree, htxdb.trans (setPrevNext_txdb s h (f h)), hent, ?_⟩
    · rw [List.foldl_cons, hnext, hstep.parentOf, nextOf_setPrevNext_eq hs, List.foldl_cons]
    · intro next hrec
      refine hrec' next fun k => ?_
      rw [setPrevNext_txdb, hrec k]
      unfold NodeState.setPrevNext
      split
      · rfl
      · next p _ =>
        by_cases hk : k = p
        · subst hk
          simp only [NodeState.modifyIndex, Function.update_self, Option.map_map]
          rfl
        · simp only [NodeState.modifyIndex, Function.update_of_ne hk]

/-- Links lead to entries. -/
def LinksKnown (s : NodeState) (next : Uint256 → Option Uint256) : Prop :=
  ∀ {h k}, next h = some k → (s.mapBlockIndex k).isSome

theorem LinksKnown.linkPrev {s : NodeState} {next : Uint256 → Option Uint256}
    (hn : LinksKnown s next) (parentOf : Uint256 → Option Uint256) (h : Uint256)
    {pnext : Option Uint256} (hp : ∀ k, pnext = some k → (s.mapBlockIndex k).isSome) :
    LinksKnown s (linkPrev parentOf next h pnext) := by
  intro j k hk
  by_cases hj : parentOf h = some j
  · simp only [MotaCoin.linkPrev, hj, Function.update_self] at hk
    exact hp k hk
  · rw [linkPrev_of_ne hj] at hk
    exact hn hk

theorem LinksKnown.foldl_linkPrev {s : NodeState} {parentOf : Uint256 → Option Uint256}
    {f : Uint256 → Option Uint256} {v : List Uint256}
    (hf : ∀ h ∈ v, ∀ k, f h = some k → (s.mapBlockIndex k).isSome) :
    ∀ {next : Uint256 → Option Uint256}, LinksKnown s next →
      LinksKnown s (v.foldl (fun next h => MotaCoin.linkPrev parentOf next h (f h)) next) := by
  induction v with
  | nil => exact fun hn => hn
  | cons h v ih =>
    intro next hn
    exact ih (fun k hk => hf k (List.mem_cons_of_mem _ hk))
      (hn.linkPrev parentOf h (hf h List.mem_cons_self))

/-! ## Commits -/

theorem OnDisk.recordsAs_txnBegin {s : NodeState} (hs : OnDisk C s) :
    s.txnBegin.RecordsAs s.nextOf := fun h => hs.records h

theorem OnDisk.of_recordsAs {s : NodeState} (hs : Entered C s) (hnext : LinksKnown s s.nextOf)
    (hbatch : s.txdb.activeBatch = none) (hrec : s.RecordsAs s.nextOf) : OnDisk C s := by
  refine ⟨hs, hnext, hbatch, fun h => ?_⟩
  have hh := hrec h
  rw [CTxDB.view, hbatch] at hh
  exact hh

theorem OnDisk.getHash_of_readFromDisk {s : NodeState} (hs : OnDisk C s) {j : Uint256} {b : CBlock}
    (hr : s.readFromDisk C env j = some b) : b.getHash C = j := by
  unfold NodeState.readFromDisk at hr
  split at hr
  · cases hr
  · next e he =>
    split at hr
    · cases hr
    · split at hr
      · cases hr
      · split at hr
        · cases hr
        · next hhash =>
          obtain rfl := Option.some.inj hr
          exact (not_not.mp hhash).trans (hs.entered.hash_eq he)

/-- A commit makes the records of the batch durable. -/
theorem NodeState.RecordsAs.commitBest {s : NodeState} {next : Uint256 → Option Uint256}
    (hrec : s.RecordsAs next) {hash : Uint256} (hok : env.commitFails hash = false) :
    (s.commitBest env hash).2.RecordsAs next ∧
      (s.commitBest env hash).2.txdb.content .hashBestChain = some hash := by
  obtain ⟨txdb, heq, -, hbest, -⟩ := commitBest_spec ((commitBest_fst s hash).mpr hok)
  rw [heq]
  refine ⟨fun h => ?_, hbest⟩
  have hsame : CTxDB.SameAt (.blockindex h) s.txdb (s.txdb.writeHashBestChain hash) :=
    CTxDB.SameAt.exec _ (by simp [KVStore.Op.at])
  have htxdb : txdb = (s.txdb.writeHashBestChain hash).txnCommit true := by
    have := congrArg NodeState.txdb heq
    rw [NodeState.commitBest, hok] at this
    exact this.symm
  have hview : txdb.view (.blockindex h) = s.txdb.view (.blockindex h) := by
    rw [htxdb]
    exact hsame.1
  exact (congrArg (Option.map CDiskBlockIndex.serialized) hview).trans (hrec h)

/-- **A committed batch**: once the links in memory are those of the records. -/
theorem OnDisk.of_commit {s m s' : NodeState} {next : Uint256 → Option Uint256} {hash : Uint256}
    (vDisconnect vConnect : List Uint256) (htree : SameTree s m) (hm : Entered C m)
    (hrec : m.RecordsAs next) (hok : env.commitFails hash = false)
    (hlinks : vConnect.foldl (fun next h => linkPrev m.parentOf next h (some h))
      (vDisconnect.foldl (fun next h => linkPrev m.parentOf next h none) m.nextOf) = next)
    (hknown : LinksKnown m m.nextOf) (hv : ∀ h ∈ vConnect, (m.mapBlockIndex h).isSome)
    (hs' : ∃ mempool, s' =
      { (m.commitBest env hash).2.relink vDisconnect vConnect with mempool := mempool }) :
    OnDisk C s' ∧ SameTree s s' ∧ s'.txdb.content .hashBestChain = some hash := by
  obtain ⟨mempool, hs'⟩ := hs'
  obtain ⟨hrec₁, hbest⟩ := hrec.commitBest hok
  obtain ⟨txdb, heq, hbatch, -, -⟩ := commitBest_spec ((commitBest_fst m hash).mpr hok)
  rw [heq] at hs' hrec₁ hbest
  have htree₁ : SameTree m (m.withTxdb txdb) := sameTree_withTxdb m txdb
  have hent₁ : Entered C (m.withTxdb txdb) := hm.of_sameIndex ⟨fun _ => rfl, rfl⟩
  obtain ⟨hnext₂, htree₂, htxdb₂, hent₂, hrec₂⟩ :=
    foldl_setPrevNext_spec (fun _ => none) vDisconnect hent₁
  obtain ⟨hnext₃, htree₃, htxdb₃, hent₃, hrec₃⟩ := foldl_setPrevNext_spec some vConnect hent₂
  have hnext : ((m.withTxdb txdb).relink vDisconnect vConnect).nextOf = next := by
    refine hnext₃.trans ?_
    rw [hnext₂, htree₂.parentOf]
    exact hlinks
  have htxdb : ((m.withTxdb txdb).relink vDisconnect vConnect).txdb = txdb := htxdb₃.trans htxdb₂
  have htree' := (htree₁.trans htree₂).trans htree₃
  have hlinksKnown : LinksKnown m next := by
    rw [← hlinks]
    exact LinksKnown.foldl_linkPrev (fun h hh k hk => Option.some.inj hk ▸ hv h hh)
      (LinksKnown.foldl_linkPrev (fun _ _ _ hk => by cases hk) hknown)
  have hdisk : OnDisk C ((m.withTxdb txdb).relink vDisconnect vConnect) := by
    refine OnDisk.of_recordsAs hent₃ ?_ ?_ ?_
    · rw [hnext]
      intro h k hk
      exact (htree'.isSome k).trans (hlinksKnown hk)
    · rw [htxdb]
      exact hbatch
    · rw [hnext]
      exact hrec₃ next (hrec₂ next hrec₁)
  subst hs'
  refine ⟨⟨hdisk.entered.of_sameIndex ⟨fun _ => rfl, rfl⟩, hdisk.next, hdisk.batch, hdisk.records⟩,
    (htree.trans htree').trans ⟨fun _ => rfl, rfl, rfl⟩, ?_⟩
  exact (congrArg (fun db => CTxDB.content db .hashBestChain) htxdb).trans hbest

section Calls

variable {s : NodeState} {b : CBlock} {h : Uint256}

/-- **`SetBestChainInner`** brings the entries and the records together. -/
theorem OnDisk.setBestChainInner (hs : OnDisk C s)
    (hok : (s.txnBegin.setBestChainInner C env b h).1 = true) :
    OnDisk C (s.txnBegin.setBestChainInner C env b h).2 ∧
      SameTree s (s.txnBegin.setBestChainInner C env b h).2 ∧
      (s.txnBegin.setBestChainInner C env b h).2.txdb.content .hashBestChain =
        some (b.getHash C) := by
  obtain ⟨hc, hcommit⟩ := setBestChainInner_fst_iff.mp hok
  have hframe := connectBlock_frame C env s.txnBegin b h
  have hstep : ChainStep C env s.txnBegin (s.txnBegin.connectBlock C env b h).2 :=
    .connectBlock _ b h
  have hent₀ : Entered C s.txnBegin := hs.entered.of_sameIndex ⟨fun _ => rfl, rfl⟩
  have hrec := NodeState.RecordsAs.connectBlock hs.recordsAs_txnBegin hent₀ hc
  rw [show s.txnBegin.nextOf h = s.nextOf h from rfl, Function.update_eq_self] at hrec
  have hknown : (s.mapBlockIndex h).isSome := by
    obtain ⟨e, t, he, -⟩ := connectBlock_eq_true C env hc
    exact Option.isSome_iff_exists.mpr ⟨e, he⟩
  generalize hm : s.txnBegin.connectBlock C env b h = c at *
  refine OnDisk.of_commit [] [h] ((sameTree_withTxdb s _).trans hframe.tree)
    (hent₀.of_sameIndex hstep.sameIndex.1) hrec hcommit ?_ ?_ ?_ ?_
  · rw [hframe.tree.parentOf, hframe.next]
    rfl
  · rw [hframe.next]
    intro j k hk
    exact (hframe.tree.isSome k).trans (hs.next hk)
  · intro k hk
    obtain rfl := List.mem_singleton.mp hk
    exact (hframe.tree.isSome k).trans hknown
  · have hr : (c.2.commitBest env (b.getHash C)).1 = true := (commitBest_fst _ _).mpr hcommit
    simp only [NodeState.setBestChainInner, hm, hc, hr, Bool.not_true, Bool.false_eq_true, if_false]
    exact ⟨_, rfl⟩

/-- **`Reorganize`** brings the entries and the records together. -/
theorem OnDisk.reorganize (hs : OnDisk C s) (hok : (s.txnBegin.reorganize C env h).1 = true) :
    OnDisk C (s.txnBegin.reorganize C env h).2 ∧ SameTree s (s.txnBegin.reorganize C env h).2 ∧
      (s.txnBegin.reorganize C env h).2.txdb.content .hashBestChain = some h := by
  obtain ⟨t, f, vDisconnect, walk, -, hf, hw₁, hw₂, hd, hc, hcommit, m, hres⟩ :=
    reorganize_eq_true hok
  have hent₀ : Entered C s.txnBegin := hs.entered.of_sameIndex ⟨fun _ => rfl, rfl⟩
  have hup : Climb s.txnBegin.parentOf f walk.reverse h := (walkTo_spec hw₂).climb
  have hdisj : ∀ x ∈ walk.reverse, ∀ k ∈ vDisconnect, s.txnBegin.parentOf k ≠ some x :=
    fun x hx k hk => hent₀.not_parent_of_fork hf (walkTo_spec hw₁) hup hx hk
  have hrec_fork := NodeState.RecordsAs.disconnectLoop hs.recordsAs_txnBegin hent₀ hd
  have hframe_fork := disconnectLoop_frame C env vDisconnect s.txnBegin []
  have hsteps_fork : ChainSteps C env s.txnBegin _ :=
    ChainSteps.disconnectLoop vDisconnect s.txnBegin []
  generalize (NodeState.disconnectLoop C env vDisconnect s.txnBegin []) = d at *
  have hent_fork := hent₀.of_sameIndex hsteps_fork.sameIndex.1
  have hrec_new := hrec_fork.connectLoop hent_fork (hframe_fork.tree.parentOf.symm ▸ hup)
    (fun x hx => by
      rw [hframe_fork.next]
      exact foldl_linkPrev_of_ne (f := fun _ => none) fun k hk => hdisj x hx k hk) hc
  have hframe_new := hframe_fork.trans (connectLoop_frame C env walk.reverse d.2.1 [])
  have hsteps_new : ChainSteps C env d.2.1 _ := ChainSteps.connectLoop walk.reverse d.2.1 []
  generalize (NodeState.connectLoop C env walk.reverse d.2.1 []) = c at *
  refine OnDisk.of_commit vDisconnect walk.reverse
    ((sameTree_withTxdb s _).trans hframe_new.tree) (hent_fork.of_sameIndex hsteps_new.sameIndex.1)
    hrec_new hcommit ?_ ?_ ?_ ⟨m, hres⟩
  · rw [hframe_new.tree.parentOf, hframe_new.next, hframe_fork.tree.parentOf]
    rfl
  · rw [hframe_new.next]
    intro j k hk
    exact (hframe_new.tree.isSome k).trans (hs.next hk)
  · intro k hk
    rw [hframe_new.tree.isSome]
    obtain ⟨p, hp⟩ := hup.exists_parent hk
    exact NodeState.isSome_of_parentOf_eq hp

/-! ## Connect further blocks -/

variable (C env) in
/-- **Each postponed block**, when its turn comes, can be read, is accepted and is committed. -/
def FurtherConnects : List Uint256 → NodeState → Prop
  | [], _ => True
  | j :: vpindexSecondary, m => ∃ b, m.readFromDisk C env j = some b ∧
      (m.txnBegin.connectBlock C env b j).1 = true ∧ env.commitFails (b.getHash C) = false ∧
      FurtherConnects vpindexSecondary (m.txnBegin.setBestChainInner C env b j).2

variable (C env) in
/-- **A call that connects the blocks it postpones.** A call for the genesis block, or for a block
on top of the tip, postpones nothing. -/
def ConnectsPostponed (s : NodeState) (b : CBlock) (pindexNew : Uint256) : Prop :=
  b.hashPrevBlock ≠ s.hashBestChain → ∀ t, s.pindexBest = some t →
    FurtherConnects C env (s.postpone t pindexNew).2
      (s.txnBegin.reorganize C env (s.postpone t pindexNew).1).2

/-- The loop gets to the end exactly when each block is connected. -/
theorem connectFurther_fst_iff_furtherConnects (v : List Uint256) (m : NodeState) :
    (NodeState.connectFurther C env v m).1 = true ↔ FurtherConnects C env v m := by
  induction v generalizing m with
  | nil => simp [NodeState.connectFurther, FurtherConnects]
  | cons j v ih =>
    simp only [NodeState.connectFurther, FurtherConnects]
    cases hr : m.readFromDisk C env j with
    | none => simp
    | some b =>
      simp only [Option.some.injEq, exists_eq_left']
      rw [← and_assoc, ← setBestChainInner_fst_iff, ← ih]
      cases hok : (m.txnBegin.setBestChainInner C env b j).1 with
      | false => simp
      | true => simp

instance (v : List Uint256) (m : NodeState) : Decidable (FurtherConnects C env v m) :=
  decidable_of_iff _ (connectFurther_fst_iff_furtherConnects v m)

instance (s : NodeState) (b : CBlock) (pindexNew : Uint256) :
    Decidable (ConnectsPostponed C env s b pindexNew) :=
  inferInstanceAs (Decidable (b.hashPrevBlock ≠ s.hashBestChain → ∀ t ∈ s.pindexBest,
    FurtherConnects C env (s.postpone t pindexNew).2
      (s.txnBegin.reorganize C env (s.postpone t pindexNew).1).2))

theorem OnDisk.connectFurther {v : List Uint256} :
    ∀ {s : NodeState} {f a : Uint256}, OnDisk C s → Climb s.parentOf f v a →
      s.txdb.content .hashBestChain = some f → FurtherConnects C env v s →
      OnDisk C (NodeState.connectFurther C env v s).2 ∧
        SameTree s (NodeState.connectFurther C env v s).2 ∧
        (NodeState.connectFurther C env v s).2.txdb.content .hashBestChain = some a := by
  induction v with
  | nil =>
    intro s f a hs hc hbest _
    obtain rfl : f = a := hc
    exact ⟨hs, SameTree.refl s, hbest⟩
  | cons j v ih =>
    intro s f a hs hc _ hfurther
    obtain ⟨b, hr, hcon, hcommit, hrest⟩ := hfurther
    have hok : (s.txnBegin.setBestChainInner C env b j).1 = true :=
      setBestChainInner_fst_iff.mpr ⟨hcon, hcommit⟩
    obtain ⟨hdisk, htree, hbest⟩ := hs.setBestChainInner hok
    have hhash : b.getHash C = j := hs.getHash_of_readFromDisk hr
    simp only [NodeState.connectFurther, hr, hok, if_true]
    obtain ⟨hdisk', htree', hbest'⟩ := ih hdisk (htree.parentOf.symm ▸ hc.2) (hhash ▸ hbest) hrest
    exact ⟨hdisk', htree.trans htree', hbest'⟩

/-- **A successful call of `SetBestChain`** that connects the blocks it postpones leaves the entries
and the records together, with the tip recorded. -/
theorem OnDisk.setBestChain (hs : OnDisk C s) (hhash : b.getHash C = h)
    (hcall : ConnectsPostponed C env s b h) (hok : (s.setBestChain C env b h).1 = true) :
    OnDisk C (s.setBestChain C env b h).2 ∧
      (s.setBestChain C env b h).2.txdb.content .hashBestChain = some h ∧
      (s.setBestChain C env b h).2.pindexGenesisBlock =
        if s.pindexGenesisBlock = none ∧ h = NodeState.hashGenesisBlock then some h
        else s.pindexGenesisBlock := by
  rw [setBestChain_of_ok C env hok]
  rw [setBestChain_fst] at hok
  obtain ⟨hdisk, hbest, hgen⟩ : OnDisk C (s.txnBegin.setBestChainBranches C env b h).2 ∧
      (s.txnBegin.setBestChainBranches C env b h).2.txdb.content .hashBestChain = some h ∧
      (s.txnBegin.setBestChainBranches C env b h).2.pindexGenesisBlock =
        if s.pindexGenesisBlock = none ∧ h = NodeState.hashGenesisBlock then some h
        else s.pindexGenesisBlock := by
    unfold NodeState.setBestChainBranches at hok ⊢
    rw [hhash, show s.txnBegin.pindexGenesisBlock = s.pindexGenesisBlock from rfl] at hok ⊢
    split at hok
    · next hg =>
      rw [if_pos hg, if_pos hg]
      unfold NodeState.setBestChainGenesis at hok ⊢
      rw [hhash] at hok ⊢
      simp only at hok ⊢
      split at hok
      · next hr =>
        have hent₀ : Entered C s.txnBegin := hs.entered.of_sameIndex ⟨fun _ => rfl, rfl⟩
        obtain ⟨hdisk, -, hbest⟩ := OnDisk.of_commit (s := s) [] [] (sameTree_withTxdb s _) hent₀
          hs.recordsAs_txnBegin ((commitBest_fst _ _).mp hr) rfl hs.next (by simp)
          ⟨s.mempool, rfl⟩
        rw [if_pos hr]
        exact ⟨⟨hdisk.entered.of_sameIndex ⟨fun _ => rfl, rfl⟩, hdisk.next, hdisk.batch,
          hdisk.records⟩, hbest, rfl⟩
      · cases hok
    · next hg =>
      rw [if_neg hg, if_neg hg]
      split at hok
      · next hprev =>
        rw [if_pos hprev]
        obtain ⟨hdisk, htree, hbest⟩ := hs.setBestChainInner hok
        exact ⟨hdisk, hhash ▸ hbest, htree.pindexGenesisBlock⟩
      · next hprev =>
        rw [if_neg hprev]
        unfold NodeState.setBestChainReorganize at hok ⊢
        split at hok
        · cases hok
        · next t ht =>
          have hfurther := hcall hprev t ht
          have hpost : s.txnBegin.postpone t h = s.postpone t h :=
            postpone_congr (sameTree_withTxdb s _) t h
          simp only [hpost] at hok ⊢
          split at hok
          · cases hok
          · next hr =>
            rw [if_neg hr]
            obtain ⟨hdisk, htree, hbest⟩ := hs.reorganize (by simpa using hr)
            have hclimb : Climb s.parentOf (s.postpone t h).1 (s.postpone t h).2 h :=
              postpone_spec t h
            obtain ⟨hdisk', htree', hbest'⟩ :=
              hdisk.connectFurther (htree.parentOf.symm ▸ hclimb) hbest hfurther
            exact ⟨hdisk', hbest', (htree.trans htree').pindexGenesisBlock⟩
  exact ⟨⟨hdisk.entered.of_sameIndex ⟨fun _ => rfl, rfl⟩, hdisk.next, hdisk.batch,
    hdisk.records⟩, hbest, hgen⟩

end Calls

end MotaCoin
