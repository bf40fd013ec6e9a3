import Kovanica.Node.Node
import Mathlib.Data.String.Basic

/-!
# The mesh

Named nodes, a directed peer graph and one queue of envelopes.  A block or a
transaction is announced to the peers of the node that has it, and passed on by
each node that sees it for the first time.  Time is discrete: `tick` delivers
what is due.

What a node has seen is never forgotten, so an envelope is handled at most once at each node, even
where the node refuses what it carries.
-/

namespace Kovanica

open Lib

/-- Why a mesh operation failed. -/
inductive P2pError where
  | unknownNode (name : String)
  | node (e : NodeError)

def P2pError.display : P2pError → String
  | unknownNode name => s!"unknown node {name}"
  | node e => e.display

inductive GossipKind where
  | hello
  | block
  | tx
deriving DecidableEq

/-- A delivered envelope. -/
structure GossipEvent where
  time : U64
  sender : String
  recipient : String
  kind : GossipKind
deriving DecidableEq

inductive Envelope where
  | hello (advertised : List String)
  | block (record : BlockRecord)
  | tx (tx : Transaction)

def Envelope.kind : Envelope → GossipKind
  | hello _ => .hello
  | block _ => .block
  | tx _ => .tx

/-- An envelope under way, with the time from which it is due and the names it goes between. -/
structure Queued where
  due : U64
  sender : String
  recipient : String
  envelope : Envelope

/-- `record_id(record)`. -/
def BlockRecord.id [Crypto] (record : BlockRecord) : BlockId := record.block.id

/-- An in-process overlay of nodes: who is registered, whom each announces to, what is under way,
and what each has seen go by. -/
structure Mesh where
  nodes : Finmap fun _ : String => Node
  peers : Finmap fun _ : String => Finset String
  queue : List Queued
  seenBlocks : Finmap fun _ : String => Finset BlockId
  seenTxs : Finmap fun _ : String => Finset TxId
  now : U64
  events : List GossipEvent

namespace Mesh

/-- `Mesh::new()`. -/
def new : Mesh := ⟨∅, ∅, [], ∅, ∅, 0, []⟩

/-- `add(name, node)`. -/
def add (m : Mesh) (name : String) (node : Node) : Mesh :=
  { m with
    nodes := m.nodes.insert name node
    peers := m.peers.insert name ((m.peers.lookup name).getD ∅)
    seenBlocks := m.seenBlocks.insert name ((m.seenBlocks.lookup name).getD ∅)
    seenTxs := m.seenTxs.insert name ((m.seenTxs.lookup name).getD ∅) }

/-- `names()`. -/
def names (m : Mesh) : List String := ascending m.nodes.keys

/-- The peer set of a node, empty when none is stored. -/
def peerSet (m : Mesh) (name : String) : Finset String := (m.peers.lookup name).getD ∅

/-- `peers_of(name)`. -/
def peersOf (m : Mesh) (name : String) : List String := ascending (m.peerSet name)

/-- The blocks a node has seen go by. -/
def blocksSeen (m : Mesh) (name : String) : Finset BlockId := (m.seenBlocks.lookup name).getD ∅

/-- The transactions a node has seen go by. -/
def txsSeen (m : Mesh) (name : String) : Finset TxId := (m.seenTxs.lookup name).getD ∅

def require (m : Mesh) (name : String) : Outcome P2pError Unit :=
  if name ∈ m.nodes then .ok () else .error (.error (.unknownNode name))

/-! ## Sending -/

/-- `enqueue(from, to, envelope)`: due one after the present, unless to oneself.  The queue is
first in, first out. -/
def enqueue (m : Mesh) (sender recipient : String) (envelope : Envelope) : Mesh :=
  if sender = recipient then m
  else
    { m with
      queue := m.queue ++ [⟨Word.saturatingAdd m.now 1, sender, recipient, envelope⟩] }

/-- The same envelope to several recipients. -/
def enqueueAll (m : Mesh) (sender : String) (recipients : List String) (envelope : Envelope) :
    Mesh :=
  recipients.foldl (fun m recipient => m.enqueue sender recipient envelope) m

/-- `enqueue_hello(from, to)`. -/
def enqueueHello (m : Mesh) (sender recipient : String) : Mesh :=
  m.enqueue sender recipient (.hello (m.peersOf sender))

/-- `connect(from, to)`: one direction only.  The peer that is new is greeted, and it learns of the
other direction when the hello arrives. -/
def connect (m : Mesh) (sender recipient : String) : Outcome P2pError Mesh := do
  m.require sender
  m.require recipient
  if sender = recipient then return m
  let known := m.peerSet sender
  if recipient ∈ known then return m
  return { m with peers := m.peers.insert sender (insert recipient known) }.enqueueHello sender
    recipient

/-- A block is seen by a node. -/
def markBlock (m : Mesh) (name : String) (id : BlockId) : Mesh :=
  { m with seenBlocks := m.seenBlocks.insert name (insert id (m.blocksSeen name)) }

/-- A transaction is seen by a node. -/
def markTx (m : Mesh) (name : String) (id : TxId) : Mesh :=
  { m with seenTxs := m.seenTxs.insert name (insert id (m.txsSeen name)) }

/-- `announce_block(from, record)`: the sender has seen the block, so it will drop what comes back,
and all its peers are told. -/
def announceBlock [Crypto] (m : Mesh) (sender : String) (record : BlockRecord) : Mesh :=
  (m.markBlock sender record.id).enqueueAll sender (m.peersOf sender) (.block record)

/-- `announce_tx(from, tx)`. -/
def announceTx [Crypto] (m : Mesh) (sender : String) (tx : Transaction) : Mesh :=
  (m.markTx sender tx.id).enqueueAll sender (m.peersOf sender) (.tx tx)

/-! ## Delivery -/

/-- The advertised names that are registered and not known yet, learnt in turn. -/
def learn (m : Mesh) (name sender : String) :
    List String → (known : Finset String) → (fresh : List String) → Finset String × List String
  | [], known, fresh => (known, fresh)
  | p :: rest, known, fresh =>
      if p ≠ name ∧ p ≠ sender ∧ p ∈ m.nodes ∧ p ∉ known then
        learn m name sender rest (insert p known) (fresh ++ [p])
      else learn m name sender rest known fresh

/-- `on_hello(to, from, advertised)`: the sender and the advertised names become peers, and those
that are new are greeted. -/
def onHello (m : Mesh) (name sender : String) (advertised : List String) : Mesh :=
  if name ∉ m.nodes then m
  else
    let known := m.peerSet name
    let (learnt, fresh) := m.learn name sender advertised (insert sender known) []
    let m := { m with peers := m.peers.insert name learnt }
    let m := if sender ∈ known then m else m.enqueueHello name sender
    fresh.foldl (fun m p => m.enqueueHello name p) m

/-- Pass an envelope on to all peers but the one it came from.  Only what the node has taken is
passed on. -/
def relay (m : Mesh) (name sender : String) (envelope : Envelope) : Mesh :=
  m.enqueueAll name ((m.peersOf name).filter fun next => next != sender) envelope

/-- Run a step of the node of that name, if there is one; `none` when the node
refuses. -/
def deliverTo {α : Type} (m : Mesh) (name : String)
    (step : Node → Outcome NodeError (α × Node)) : Outcome Empty (Option Mesh) :=
  match m.nodes.lookup name with
  | none => .ok (some m)
  | some node =>
      match step node with
      | .ok (_, node) => .ok (some { m with nodes := m.nodes.insert name node })
      | .error (.error _) => .ok none
      | .error (.panic site) => .error (.panic site)

/-- `on_block(to, from, record)`: a block seen before is dropped, any other is handed to the node.
A refused block is seen and goes no further. -/
def onBlock [Crypto] (env : Env) (m : Mesh) (name sender : String) (record : BlockRecord) :
    Outcome Empty Mesh :=
  if record.id ∈ m.blocksSeen name then .ok m
  else do
    let m := m.markBlock name record.id
    match ← m.deliverTo name (fun node => node.receiveBlock env record) with
    | none => return m
    | some m => return m.relay name sender (.block record)

/-- `on_tx(to, from, tx)`: as for a block.  A transaction is seen even where the node refuses it. -/
def onTx [Crypto] (m : Mesh) (name sender : String) (tx : Transaction) : Outcome Empty Mesh :=
  if tx.id ∈ m.txsSeen name then .ok m
  else do
    let m := m.markTx name tx.id
    match ← m.deliverTo name (fun node => node.submitTx tx) with
    | none => return m
    | some m => return m.relay name sender (.tx tx)

/-- `deliver(q)`: the envelope is noted in the log and handled by its kind.  Errors of the node are
swallowed here, panics are not. -/
def deliver [Crypto] (env : Env) (m : Mesh) (q : Queued) : Outcome Empty Mesh :=
  let event : GossipEvent := ⟨m.now, q.sender, q.recipient, q.envelope.kind⟩
  let m := { m with events := m.events ++ [event] }
  match q.envelope with
  | .hello advertised => .ok (m.onHello q.recipient q.sender advertised)
  | .block record => m.onBlock env q.recipient q.sender record
  | .tx tx => m.onTx q.recipient q.sender tx

/-- Deliver the envelopes in turn, the first of them in the surroundings
`envs i`. -/
def deliverAll [Crypto] (envs : Nat → Env) : (i : Nat) → List Queued → Mesh → Outcome Empty Mesh
  | _, [], m => .ok m
  | i, q :: rest, m =>
      match m.deliver (envs i) q with
      | .error e => .error e
      | .ok m => deliverAll envs (i + 1) rest m

/-- The mesh when a tick has advanced the time and taken what is due. -/
def advance (m : Mesh) : Mesh :=
  let now := Word.saturatingAdd m.now 1
  { m with
    now := now
    queue := m.queue.filter fun q => !decide (q.due ≤ now) }

/-- What a tick delivers. -/
def dueNow (m : Mesh) : List Queued :=
  m.queue.filter fun q => decide (q.due ≤ Word.saturatingAdd m.now 1)

/-- `tick()`: the number of envelopes delivered.  Time advances first; what is sent in answer is
due at the next tick. -/
def tick [Crypto] (envs : Nat → Env) (m : Mesh) : Outcome Empty (Nat × Mesh) := do
  let after ← deliverAll envs 0 m.dueNow m.advance
  return (m.dueNow.length, after)

/-- `drain(limit)`: ticks until the queue is empty, `limit` of them at most, with the number of
envelopes delivered. -/
def drain [Crypto] (envs : Nat → Nat → Env) : (limit : Nat) → Mesh → Outcome Empty (Nat × Mesh)
  | 0, m => .ok (0, m)
  | limit + 1, m =>
      if m.queue.isEmpty then .ok (0, m)
      else do
        let (delivered, m) ← m.tick (envs 0)
        let (total, m) ← drain (fun i => envs (i + 1)) limit m
        return (delivered + total, m)

/-! ## Node operations -/

/-- Run a step of a registered node, which takes the place of the old one if the step succeeds.
An unknown name is an error, and a failed step changes nothing. -/
def onNode {α : Type} (m : Mesh) (name : String) (step : Node → Outcome NodeError (α × Node)) :
    Outcome P2pError (α × Mesh) :=
  match m.nodes.lookup name with
  | none => .error (.error (.unknownNode name))
  | some node =>
      match step node with
      | .ok (a, node) => .ok (a, { m with nodes := m.nodes.insert name node })
      | .error (.error e) => .error (.error (.node e))
      | .error (.panic site) => .error (.panic site)

/-- Announce a block of a node, if it has a record. -/
def announceStored [Crypto] (m : Mesh) (name : String) (id : BlockId) : Mesh :=
  match (m.nodes.lookup name).bind fun node => node.blockRecord id with
  | none => m
  | some record => m.announceBlock name record

/-- Announce a pending transaction of a node. -/
def announcePending [Crypto] (m : Mesh) (name : String) (id : TxId) : Mesh :=
  match (m.nodes.lookup name).bind fun node => node.mempool.get id with
  | none => m
  | some tx => m.announceTx name tx

/-- `produce(name)`: the node produces a block if anything is pending, and what it produced is
announced. -/
def produce [Crypto] (env : Env) (m : Mesh) (name : String) :
    Outcome P2pError (Option BlockId × Mesh) := do
  let (produced, m) ← m.onNode name fun node => node.produceBlock env
  match produced with
  | none => return (none, m)
  | some id => return (some id, m.announceStored name id)

/-- `produce_empty(name)`. -/
def produceEmpty [Crypto] (env : Env) (m : Mesh) (name : String) :
    Outcome P2pError (BlockId × Mesh) := do
  let (id, m) ← m.onNode name fun node => node.produceEmpty env
  return (id, m.announceStored name id)

/-- `send_to(name, from_seed, amount, to)`. -/
def sendTo [Crypto] (env : Env) (m : Mesh) (name : String) (fromSeed amount : U64)
    (recipient : Address) : Outcome P2pError (BlockId × Mesh) := do
  let (sent, m) ← m.onNode name fun node => node.sendTo env fromSeed amount recipient
  return (sent.block, m.announceStored name sent.block)

/-- `send(name, from_seed, amount, to_seed)`. -/
def send [Crypto] (env : Env) (m : Mesh) (name : String) (fromSeed amount toSeed : U64) :
    Outcome P2pError (BlockId × Mesh) := do
  let (sent, m) ← m.onNode name fun node => node.send env fromSeed amount toSeed
  return (sent.block, m.announceStored name sent.block)

/-- `pool(name, from_seed, amount, to_seed)`. -/
def pool [Crypto] (env : Env) (m : Mesh) (name : String) (fromSeed amount toSeed : U64) :
    Outcome P2pError (TxId × Mesh) := do
  let (id, m) ← m.onNode name fun node => node.pool env fromSeed amount toSeed
  return (id, m.announcePending name id)

/-- `submit_signed(name, from, amount, to, signature)`. -/
def submitSigned [Crypto] (env : Env) (m : Mesh) (name : String) (sender : Address)
    (amount : U64) (recipient : Address) (signature : Bytes 64) :
    Outcome P2pError (TxId × Mesh) := do
  let (id, m) ← m.onNode name fun node => node.submitSigned env sender amount recipient signature
  return (id, m.announcePending name id)

end Mesh

end Kovanica
