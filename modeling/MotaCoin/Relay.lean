import MotaCoin.MruSet
import MotaCoin.OrphanTxMaps

/-!
# The relay of transactions

A node that accepts a transaction puts its hash on the inventory of every peer. `SendMessages` sends the
inventory, at once or with the next trickle; the peer asks for what it does not have, when its turn has
come; and the node answers from the relay memory or the memory pool. Filters of peers are left out, and
of blocks all but their inventory.

## Main definitions

* `CInv`, `RelayPeer`, `RelayNode`: the inventory, and what a node keeps for it
* `RelayPeer.askFor`, `RelayPeer.sendInv`, `RelayNode.relay`, `RelayNode.served`: the code
* `RelayNet`: nodes, and the messages between them
* `RelayNet.relay`, `RelayNet.send`, `RelayNet.receive`: what a node does in it
-/

namespace MotaCoin

/-! ## Inventory -/

/-- `MSG_TX`. -/
def MSG_TX : Int := 1

/-- `MSG_BLOCK`. -/
def MSG_BLOCK : Int := 2

/-- `MAX_INV_SZ`. -/
def MAX_INV_SZ : Nat := 50000

/-- `CInv`. -/
structure CInv where
  type : Int
  hash : Uint256
deriving DecidableEq

/-- The messages of the relay. -/
inductive RelayMsg where
  | inv (vInv : List CInv)
  | getdata (vInv : List CInv)
  | tx (tx : CTransaction)

/-- A list that is sent in messages of a thousand: the messages, and what is to be sent yet. -/
structure InvBatches where
  sent : List (List CInv)
  vInv : List CInv

namespace InvBatches

/-- `vInv.push_back(inv)`, and a message when there are a thousand. -/
def push (b : InvBatches) (inv : CInv) : InvBatches :=
  let vInv := b.vInv ++ [inv]
  if 1000 ≤ vInv.length then ⟨b.sent ++ [vInv], []⟩ else { b with vInv := vInv }

/-- The messages, and one for the rest. -/
def finish (b : InvBatches) : List (List CInv) := if b.vInv = [] then b.sent else b.sent ++ [b.vInv]

end InvBatches

/-! ## What is kept of a peer -/

/-- What a `CNode` has for the inventory of a peer. -/
structure RelayPeer where
  setInventoryKnown : MruSet CInv
  vInventoryToSend : List CInv
  /-- A `multimap`, in its order. -/
  mapAskFor : List (Int × CInv)
  fRelayTxes : Bool

/-- The variables of `SendMessages` in the loop over `vInventoryToSend`. -/
structure InvWork where
  setInventoryKnown : MruSet CInv
  vInvWait : List CInv
  batches : InvBatches

namespace RelayPeer

/-- `AddInventoryKnown`. -/
def addInventoryKnown (p : RelayPeer) (inv : CInv) : RelayPeer :=
  { p with setInventoryKnown := (p.setInventoryKnown.insert inv).1 }

/-- `PushInventory`. -/
def pushInventory (p : RelayPeer) (inv : CInv) : RelayPeer :=
  if inv ∈ p.setInventoryKnown.set then p
  else { p with vInventoryToSend := p.vInventoryToSend ++ [inv] }

/-- `mapAskFor.insert`, which goes behind what has the same time. -/
def insertAsk (p : RelayPeer) (nRequestTime : Int) (inv : CInv) : RelayPeer :=
  { p with mapAskFor := p.mapAskFor.takeWhile (·.1 ≤ nRequestTime) ++
      (nRequestTime, inv) :: p.mapAskFor.dropWhile (·.1 ≤ nRequestTime) }

/-- The round of `SendMessages` for one entry of the inventory. `fTrickleWait` is drawn from the hash,
and from whether the transaction is the node's own. -/
def sendInvStep (fSendTrickle : Bool) (fTrickleWait : Uint256 → Bool) (w : InvWork) (inv : CInv) :
    InvWork :=
  if inv ∈ w.setInventoryKnown.set then w
  else if inv.type = MSG_TX ∧ fSendTrickle = false ∧ fTrickleWait inv.hash = true then
    { w with vInvWait := w.vInvWait ++ [inv] }
  else { w with
    setInventoryKnown := (w.setInventoryKnown.insert inv).1
    batches := w.batches.push inv }

/-- `SendMessages` up to the inventory: the messages, and the peer. -/
def sendInv (p : RelayPeer) (fSendTrickle : Bool) (fTrickleWait : Uint256 → Bool) :
    List (List CInv) × RelayPeer :=
  let w := p.vInventoryToSend.foldl (sendInvStep fSendTrickle fTrickleWait)
    ⟨p.setInventoryKnown, [], [], []⟩
  (w.batches.finish,
    { p with setInventoryKnown := w.setInventoryKnown, vInventoryToSend := w.vInvWait })

/-- The inventory that is due at `nNow`. -/
def due (p : RelayPeer) (nNow : Int) : List CInv := (p.mapAskFor.takeWhile (·.1 ≤ nNow)).map Prod.snd

end RelayPeer

/-! ## What a node keeps -/

/-- The globals of a node that relays. -/
structure RelayNode where
  state : RelayState
  /-- `mapOrphanBlocks.count`. -/
  hasOrphanBlock : Uint256 → Bool
  mapRelay : AList fun _ : CInv => CTransaction
  vRelayExpiration : List (Int × CInv)
  /-- `operator[]` gives zero for a key that is not there. -/
  mapAlreadyAskedFor : CInv → Int
  /-- The last time that `AskFor` has used. -/
  nLastTime : Int

namespace RelayNode

/-- `AlreadyHave`. -/
def alreadyHave (n : RelayNode) (inv : CInv) : Bool :=
  if inv.type = MSG_TX then
    (n.state.node.mempool.mapTx.lookup inv.hash).isSome ||
      (n.state.orphans.mapOrphanTransactions.lookup inv.hash).isSome ||
        (n.state.node.txdb.readTxIndex inv.hash).isSome
  else if inv.type = MSG_BLOCK then
    (n.state.node.mapBlockIndex inv.hash).isSome || n.hasOrphanBlock inv.hash
  else true

/-- The relay memory once what has expired is erased. -/
def expire (n : RelayNode) (now : Int) : RelayNode :=
  { n with
    mapRelay := (n.vRelayExpiration.takeWhile (·.1 < now)).foldl (fun m e => m.erase e.2) n.mapRelay
    vRelayExpiration := n.vRelayExpiration.dropWhile (·.1 < now) }

/-- `RelayTransaction` up to the peers. -/
def relay (n : RelayNode) (now : Int) (tx : CTransaction) (hash : Uint256) : RelayNode :=
  let inv : CInv := ⟨MSG_TX, hash⟩
  let n := n.expire now
  { n with
    mapRelay := if (n.mapRelay.lookup inv).isSome then n.mapRelay else n.mapRelay.insert inv tx
    vRelayExpiration := n.vRelayExpiration ++ [(now + 15 * 60, inv)] }

/-- `AskFor`: the time of the request, and the node. -/
def requestTime (n : RelayNode) (now : Int) (inv : CInv) : Int × RelayNode :=
  let nNow := max ((now - 1) * 1000000) (n.nLastTime + 1)
  let nRequestTime := max (n.mapAlreadyAskedFor inv + 2 * 60 * 1000000) nNow
  (nRequestTime, { n with
    mapAlreadyAskedFor := Function.update n.mapAlreadyAskedFor inv nRequestTime
    nLastTime := nNow })

/-- What `getdata` finds for an inventory. Of the known types only that of transactions gets here. -/
def served (n : RelayNode) (inv : CInv) : Option CTransaction :=
  if inv.type = MSG_TX then
    (n.mapRelay.lookup inv).or (n.state.node.mempool.mapTx.lookup inv.hash)
  else none

variable (C : Crypto)

/-- The calls of `RelayTransaction` for a `tx` message: for its own transaction, and for each orphan
that was accepted. -/
def relayedBy (s : RelayState) (m : TxMessage) : List (CTransaction × Uint256) :=
  match s.acceptedBy C m with
  | [] => []
  | hash :: hashes => (m.tx, hash) :: hashes.map fun orphanTxHash =>
      ((s.orphans.mapOrphanTransactions.lookup orphanTxHash).getD .empty, orphanTxHash)

end RelayNode

/-! ## The network -/

/-- What becomes of an inventory that a node has for a peer. -/
inductive RelayOutcome where
  /-- The peer has told the node of it. -/
  | heard
  /-- The peer has it. -/
  | had
  /-- The transaction has come to the peer. -/
  | got
  /-- The node does not have the transaction any more. -/
  | lost
deriving DecidableEq

/-- Nodes that are connected: for each pair, what the first one keeps of the second, and the messages
from the first to the second, the oldest in front. -/
structure RelayNet (ι : Type) where
  node : ι → RelayNode
  peer : ι × ι → RelayPeer
  chan : ι × ι → List RelayMsg
  log : List ((ι × ι) × CInv × RelayOutcome)

namespace RelayNet

variable {ι : Type} [DecidableEq ι]

/-- `i` sends messages to `j`. -/
def post (s : RelayNet ι) (i j : ι) (msgs : List RelayMsg) : RelayNet ι :=
  { s with chan := Function.update s.chan (i, j) (s.chan (i, j) ++ msgs) }

/-- The peer `j` of `i` is changed. -/
def setPeer (s : RelayNet ι) (i j : ι) (p : RelayPeer) : RelayNet ι :=
  { s with peer := Function.update s.peer (i, j) p }

def setNode (s : RelayNet ι) (i : ι) (n : RelayNode) : RelayNet ι :=
  { s with node := Function.update s.node i n }

/-- The inventory of `i` for `j` has come to this. -/
def met (s : RelayNet ι) (i j : ι) (inv : CInv) (o : RelayOutcome) : RelayNet ι :=
  { s with log := s.log ++ [((i, j), inv, o)] }

/-- `PushInventory`. -/
def push (s : RelayNet ι) (i j : ι) (inv : CInv) : RelayNet ι :=
  s.setPeer i j ((s.peer (i, j)).pushInventory inv)

/-- `RelayTransaction`. -/
def relay (vNodes : ι → List ι) (s : RelayNet ι) (i : ι) (now : Int) (tx : CTransaction)
    (hash : Uint256) : RelayNet ι :=
  (vNodes i).foldl (fun s j => if (s.peer (i, j)).fRelayTxes then s.push i j ⟨MSG_TX, hash⟩ else s)
    (s.setNode i ((s.node i).relay now tx hash))

/-- `AskFor`. -/
def askFor (s : RelayNet ι) (i j : ι) (now : Int) (inv : CInv) : RelayNet ι :=
  let r := (s.node i).requestTime now inv
  (s.setNode i r.2).setPeer i j ((s.peer (i, j)).insertAsk r.1 inv)

/-- `SendMessages`, of the inventory and of what is asked for. -/
def send (s : RelayNet ι) (i j : ι) (now : Int) (fSendTrickle : Bool)
    (fTrickleWait : Uint256 → Bool) : RelayNet ι :=
  let r := (s.peer (i, j)).sendInv fSendTrickle fTrickleWait
  let nNow := now * 1000000
  let n := s.node i
  let due := r.2.due nNow
  let vGetData := due.filter fun inv => !n.alreadyHave inv
  let asked := (vGetData.foldl InvBatches.push ⟨[], []⟩).finish
  let s := s.setNode i { n with mapAlreadyAskedFor := fun inv =>
    if inv ∈ vGetData then nNow else n.mapAlreadyAskedFor inv }
  let s := s.post i j (r.1.map .inv ++ asked.map .getdata)
  let s := { s with log := s.log ++ (due.filter n.alreadyHave).map ((j, i), ·, RelayOutcome.had) }
  s.setPeer i j { r.2 with mapAskFor := r.2.mapAskFor.dropWhile (·.1 ≤ nNow) }

variable (C : Crypto) (vNodes : ι → List ι)

/-- The round of `inv` for one entry, in `j`, of a message from `i`. -/
def hear (s : RelayNet ι) (i j : ι) (now : Int) (inv : CInv) : RelayNet ι :=
  let s := (s.setPeer j i ((s.peer (j, i)).addInventoryKnown inv)).met j i inv .heard
  if (s.node j).alreadyHave inv then s.met i j inv .had else s.askFor j i now inv

/-- The round of `getdata` for one entry, in `j`, of a message from `i`. -/
def serve (s : RelayNet ι) (i j : ι) (inv : CInv) : RelayNet ι :=
  match (s.node j).served inv with
  | some tx => s.post j i [.tx tx]
  | none => s.met j i inv .lost

/-- `tx`, in `j`, of a message from `i`. -/
def take (s : RelayNet ι) (i j : ι) (now : Int) (m : TxMessage) : RelayNet ι :=
  let inv : CInv := ⟨MSG_TX, C.hashTx m.tx⟩
  let s := ((s.setPeer j i ((s.peer (j, i)).addInventoryKnown inv)).met j i inv .heard).met i j inv .got
  let n := s.node j
  match n.state.processTx C m with
  | none => s
  | some state =>
    let relayed := RelayNode.relayedBy C n.state m
    relayed.foldl (fun s p => s.relay vNodes j now p.1 p.2)
      (s.setNode j { n with
        state := state
        mapAlreadyAskedFor := fun inv =>
          if inv ∈ relayed.map (⟨MSG_TX, ·.2⟩) then 0 else n.mapAlreadyAskedFor inv })

/-- `ProcessMessage`, in `j`, of the first message from `i`, and what a `tx` message meets. -/
def receive (s : RelayNet ι) (i j : ι) (now : Int) (env : Env) (randomhash : Nat → Uint256) :
    RelayNet ι :=
  match s.chan (i, j) with
  | [] => s
  | msg :: rest =>
    let s := { s with chan := Function.update s.chan (i, j) rest }
    match msg with
    | .inv vInv =>
      if MAX_INV_SZ < vInv.length then s else vInv.foldl (fun s inv => s.hear i j now inv) s
    | .getdata vInv =>
      if MAX_INV_SZ < vInv.length then s else vInv.foldl (fun s inv => s.serve i j inv) s
    | .tx tx => s.take C vNodes i j now ⟨env, randomhash, tx⟩

end RelayNet

end MotaCoin
