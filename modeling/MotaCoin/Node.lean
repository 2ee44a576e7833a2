import MotaCoin.Inputs

/-!
# The state of a node

The global variables of `main.cpp` that the chain logic reads and writes, the block files, the
transaction database and the notifications sent to the wallets, with the reads that go through the
disk. Which reads and commits fail during a call is part of the call's environment.

## Main definitions

* `CTxMemPool`, `NodeState`: the memory pool and the node
* `Env`: the clock and the failures of one call
* `NodeState.readTx`, `NodeState.readBlockAt`, `NodeState.readFromDisk`: reads of the block files
* `NodeState.sources`: what a transaction check reads of a node
-/

namespace MotaCoin

/-- `CTxMemPool`. The pointer of a `CInPoint` is the hash its transaction has in `mapTx`. -/
structure CTxMemPool where
  mapTx : AList fun _ : Uint256 => CTransaction
  mapNextTx : AList fun _ : COutPoint => Uint256 × Nat

/-- One call of `SyncWithWallets`. -/
structure WalletSync where
  tx : CTransaction
  block : CBlock
  fUpdate : Bool
  fConnect : Bool
deriving DecidableEq

/-- The global state of the chain logic. -/
structure NodeState where
  mapBlockIndex : Uint256 → Option CBlockIndex
  setStakeSeen : List (COutPoint × Nat)
  pindexGenesisBlock : Option Uint256
  pindexBest : Option Uint256
  hashBestChain : Uint256
  nBestHeight : Int
  nBestChainTrust : Uint256
  nBestInvalidTrust : Uint256
  pblockindexFBBHLast : Option Uint256
  /-- `Checkpoints::hashSyncCheckpoint` and `Checkpoints::hashPendingCheckpoint`. -/
  hashSyncCheckpoint : Uint256
  hashPendingCheckpoint : Uint256
  mempool : CTxMemPool
  txdb : CTxDB
  /-- The block record written at each file number and offset. -/
  blkFiles : Nat → Nat → Option CBlock
  walletSyncs : List WalletSync

/-- `Checkpoints::CPMode`. -/
inductive CPMode where
  | strict
  | advisory
  | permissive
deriving DecidableEq

/-- What a call of the chain logic meets: the adjusted time, the checkpoint mode, and the disk reads
and commits that fail while it runs. A commit is named by the hash of the best chain it would make
durable. -/
structure Env where
  adjustedTime : Int
  checkpointsMode : CPMode
  /-- Where `WriteToDisk` appends a block; none when it fails or there is no space. -/
  writeToDisk : Option (Nat × Nat)
  /-- The commit of a record that does not move the best chain fails. -/
  indexCommitFails : Bool
  blockUnreadable : Nat → Nat → Bool
  txUnreadable : CDiskTxPos → Bool
  commitFails : Uint256 → Bool
  /-- The rate limiter of `CTxMemPool::accept` turns a free transaction away. -/
  freeTxRefused : CTransaction → Bool

namespace NodeState

variable (C : Crypto) (env : Env) (s : NodeState)

/-! ## The block files -/

/-- `CBlock::ReadFromDisk(nFile, nBlockPos)` before its header test: the record at a position. -/
def readBlockAt (nFile nBlockPos : Nat) : Option CBlock :=
  if env.blockUnreadable nFile nBlockPos then none else s.blkFiles nFile nBlockPos

/-- `CTransaction::ReadFromDisk(pos)`: the transaction whose serialization starts there. -/
def readTx (pos : CDiskTxPos) : Option CTransaction :=
  if env.txUnreadable pos then none
  else (s.blkFiles pos.nFile pos.nBlockPos).bind fun b =>
    ((txPositions pos.nFile pos.nBlockPos b).find? fun p => p.2 == pos).map Prod.fst

/-- `CTxMemPool::lookup` behind `CTxMemPool::exists`. -/
def memPoolTx (hash : Uint256) : Option CTransaction := s.mempool.mapTx.lookup hash

/-- What a transaction check reads of the node. -/
def sources : Sources where
  readTxIndex := s.txdb.readTxIndex
  readTx := s.readTx env
  readHeader := s.readBlockAt env
  memPool := s.memPoolTx

/-! ## The block tree -/

/-- The entry `pindexBest` points at. -/
def best : Option CBlockIndex := s.pindexBest.bind s.mapBlockIndex

/-- The loop of `ConnectInputs` over the last `nCoinbaseMaturity` blocks: whether one of them is at
the given position. `fuel` bounds the walk. -/
def immatureFrom (pindexBlock : CBlockIndex) (nFile nBlockPos : Nat) :
    Nat → Option Uint256 → Bool
  | 0, _ => false
  | _ + 1, none => false
  | fuel + 1, some hash =>
    match s.mapBlockIndex hash with
    | none => false
    | some pindex =>
      if (pindexBlock.nHeight : Int) - pindex.nHeight < nCoinbaseMaturity then
        (pindex.nBlockPos == nBlockPos && pindex.nFile == nFile)
          || immatureFrom pindexBlock nFile nBlockPos fuel pindex.pprev
      else false

/-- The context of `ConnectInputs` for the block of `pindexBlock`: heights fall along `pprev`, so
`nHeight + 1` steps reach the genesis block. Signatures are skipped when a block is connected below
the last checkpoint. -/
def connectCtx (pindexBlock : CBlockIndex) (fBlock : Bool) : CTransaction.ConnectCtx where
  immature nFile nBlockPos :=
    s.immatureFrom pindexBlock nFile nBlockPos (pindexBlock.nHeight + 1) (some pindexBlock.hash)
  checkSignatures := !(fBlock && decide (s.nBestHeight < 974427))

/-- The node with another state of the database. -/
def withTxdb (txdb : CTxDB) : NodeState := { s with txdb := txdb }

/-- `TxnBegin` of the database. -/
def txnBegin : NodeState := s.withTxdb s.txdb.txnBegin

/-- Change the entry of `hash` in `mapBlockIndex`. -/
def modifyIndex (hash : Uint256) (f : CBlockIndex → CBlockIndex) : NodeState :=
  { s with mapBlockIndex := Function.update s.mapBlockIndex hash ((s.mapBlockIndex hash).map f) }

end NodeState

end MotaCoin
