import MotaCoin.Chain
import MotaCoin.Kernel

/-!
# The block template of the miner

`CreateNewBlock` for a proof-of-work block: the transactions of the memory pool whose inputs are in
the active index come off a priority queue, each is connected to a test pool, and the coinbase pays
the subsidy and the fees. The priorities are computed in `double`: the order they give, and which
transactions count as free, are parameters.

## Main definitions

* `Miner`: the settings and the priorities of the miner
* `NodeState.candidates`: the transactions that go into the priority queue
* `NodeState.collectTx`, `NodeState.collectTxs`: the loop that collects transactions
* `NodeState.createNewBlock`: the template
* `Solves`: a block whose header was solved
-/

namespace MotaCoin

variable (C : Crypto)

/-- What the miner is told: the script of its reserved key, `-blockmaxsize`, the order in which its
priority queue hands transactions out, and which ones it skips as free at a block size. -/
structure Miner where
  scriptPubKey : CScript
  blockmaxsize : Nat
  order : List CTransaction → List CTransaction
  mem_order : ∀ {vecPriority tx}, tx ∈ order vecPriority → tx ∈ vecPriority
  skipsFree : CTransaction → Nat → Bool

/-- `nBlockMaxSize`: the setting, limited to between 1K and `MAX_BLOCK_SIZE` less 1K. -/
def Miner.nBlockMaxSize (m : Miner) : Nat := max 1000 (min (MAX_BLOCK_SIZE - 1000) m.blockmaxsize)

/-- The local variables of the collecting loop, with the transactions after the coinbase. -/
structure Template where
  mapTestPool : TxIndexQueue
  nBlockSize : Nat
  nBlockSigOps : Nat
  nFees : Int
  vtx : List CTransaction

/-- The variables before the loop. -/
def Template.init : Template := ⟨∅, 1000, 100, 0, []⟩

/-- `devCoin`. -/
def devCoin : Int := 0 * COIN

namespace NodeState

variable (env : Env) (s : NodeState) (m : Miner)

/-- The transactions that go into `vecPriority`: final ones of the memory pool, other than coinbases
and coinstakes, all of whose inputs are in the active index. -/
def candidates : List CTransaction :=
  (s.mempool.mapTx.entries.map Sigma.snd).filter fun tx =>
    !tx.isCoinBase && !tx.isCoinStake && tx.isFinal s.nBestHeight env.adjustedTime
      && tx.vin.all fun txin =>
        (CTransaction.readFromDisk (s.sources env) txin.prevout).isSome

/-- One round of the collecting loop, on top of `pindexPrev`. A transaction that does not fit is
left out; `none` is an exception of `GetValueMapIn`, `GetValueOut` or `GetP2SHSigOpCount`. -/
def collectTx (pindexPrev : CBlockIndex) (t : Template) (tx : CTransaction) : Option Template :=
  let nTxSize := tx.getSerializeSize
  let nTxSigOps := tx.getLegacySigOpCount C
  if m.nBlockMaxSize ≤ t.nBlockSize + nTxSize then some t
  else if MAX_BLOCK_SIGOPS ≤ t.nBlockSigOps + nTxSigOps then some t
  else if env.adjustedTime < tx.nTime then some t
  else if m.skipsFree tx t.nBlockSize then some t
  else
    let fetched := tx.fetchInputs (s.sources env) t.mapTestPool false true
    if !fetched.ok then some t
    else
      match tx.getValueMapIn fetched.inputsRet, tx.getValueOut with
      | some nTxValueIn, some nTxValueOut =>
        let nTxFees := Int64.wrap (nTxValueIn - nTxValueOut)
        if nTxFees < tx.getMinFee t.nBlockSize .block 0 then some t
        else
          match tx.getP2SHSigOpCount C fetched.inputsRet with
          | none => none
          | some nP2SH =>
            if MAX_BLOCK_SIGOPS ≤ t.nBlockSigOps + (nTxSigOps + nP2SH) then some t
            else
              match tx.connectInputs C (s.connectCtx pindexPrev false) fetched.inputsRet
                  t.mapTestPool CDiskTxPos.memPool false true with
              | none => some t
              | some mapTestPool =>
                some {
                  mapTestPool := mapTestPool.insert (C.hashTx tx)
                    (CTxIndex.fresh CDiskTxPos.memPool tx.vout.length)
                  nBlockSize := t.nBlockSize + nTxSize
                  nBlockSigOps := t.nBlockSigOps + (nTxSigOps + nP2SH)
                  nFees := Int64.wrap (t.nFees + nTxFees)
                  vtx := t.vtx ++ [tx] }
      | _, _ => none

/-- The loop "Collect transactions into block". -/
def collectTxs (pindexPrev : CBlockIndex) : List CTransaction → Template → Option Template
  | [], t => some t
  | tx :: vecPriority, t =>
    match s.collectTx C env m pindexPrev t tx with
    | none => none
    | some t' => collectTxs pindexPrev vecPriority t'

/-- The coinbase of the template: it pays the reward at the height of the tip, and `devCoin`. -/
def templateCoinbase (pindexPrev : CBlockIndex) (nFees : Int) : CTransaction where
  nVersion := 1
  nTime := env.adjustedTime.toNat
  vin := [⟨COutPoint.null, [], 4294967295⟩]
  vout := [⟨Int64.wrap (getProofOfWorkReward pindexPrev.nHeight nFees - devCoin), m.scriptPubKey⟩,
    ⟨devCoin, []⟩]
  nLockTime := 0

/-- **`CreateNewBlock(pwallet, false)`**; `none` is an exception, or no tip. -/
def createNewBlock : Option CBlock :=
  match s.best with
  | none => none
  | some pindexPrev =>
    let vecPriority := s.candidates env
    if vecPriority.any fun tx => tx.getValueOut.isNone then none
    else
      (s.collectTxs C env m pindexPrev (m.order vecPriority) Template.init).map fun t => {
        nVersion := 6
        hashPrevBlock := pindexPrev.hash
        hashMerkleRoot := 0
        nTime := env.adjustedTime.toNat
        nBits := s.getNextTargetRequired pindexPrev false
        nNonce := 0
        vtx := templateCoinbase env m pindexPrev t.nFees :: t.vtx
        vchBlockSig := [] }

end NodeState

/-- A template once solved: the header and the input script of the coinbase have changed. -/
structure Solves (template b : CBlock) : Prop where
  hashPrevBlock : b.hashPrevBlock = template.hashPrevBlock
  vtx : ∃ coinbase coinbase' rest, template.vtx = coinbase :: rest ∧ b.vtx = coinbase' :: rest ∧
    coinbase'.isCoinBase = true ∧ coinbase'.vout = coinbase.vout

end MotaCoin
