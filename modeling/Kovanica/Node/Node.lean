import Kovanica.Node.Mempool
import Kovanica.State.Ledger

/-!
# The node

A ledger and a mempool in memory, with a clock and a miner's address.  A node
brings up a genesis, builds and submits spends, produces blocks on its tips, and
exchanges blocks with its peers as `BlockRecord`s.
-/

namespace Kovanica

open Lib

/-- `MAX_FUTURE_DRIFT_MS`: two hours. -/
def maxFutureDriftMs : U64 := 2 * 60 * 60 * 1000

/-- Blocks per subsidy-halving era. -/
def halvingEra : U64 := 1000

def minFeeDivisor : U64 := 500000

/-- What a call reads of its surroundings: the order its maps are iterated in and
the system clock. -/
structure Env where
  ord : HashOrder
  wallMs : U64

/-- The node's source of time: the clock of the host, or a fixed time that a caller has set, which
is how the tests run. -/
inductive Clock where
  | wall
  | fixed (nowMs : U64)

/-- Why a node operation failed.  File errors are left out with the files. -/
inductive NodeError where
  | notInitialized
  | alreadyInitialized
  | zeroAmount
  | insufficientFunds
  | unexpectedCoinbase
  | badSignature
  | ledger (e : LedgerError)
  | insert (e : LedgerInsertError)
  | timestampTooFarInFuture (timestampMs nowMs : U64)

namespace NodeError

def display : NodeError → String
  | notInitialized => "no ledger yet — run `genesis` first"
  | alreadyInitialized => "already initialised"
  | zeroAmount => "amount must be non-zero"
  | insufficientFunds => "no single output covers the amount plus fee"
  | unexpectedCoinbase => "coinbase transactions are not accepted"
  | badSignature => "bad spend signature"
  | ledger e => s!"genesis invalid: {e.display}"
  | insert e => e.display
  | timestampTooFarInFuture timestampMs nowMs =>
      s!"block timestamp {timestampMs.val}ms is more than {maxFutureDriftMs.val}ms ahead of " ++
        s!"local time {nowMs.val}ms"

end NodeError

/-- A block and the transaction it carries, of a successful send.  They are what the caller gets to
see; the rest of the outcome is in the node. -/
structure Sent where
  block : BlockId
  tx : TxId

/-- An unsigned transfer ready for a wallet to sign. -/
structure Prepared where
  tx : Transaction
  sighash : List U8
  outpoint : OutPoint
  value : U64
  fee : U64

/-- The wire form of a block: what a peer needs to insert it again.  The id is not sent; the peer
derives it, as it derives all consensus data. -/
structure BlockRecord where
  parents : Vec BlockId
  work : U128
  timestampMs : U64
  nonce : U64
  txs : TxList

/-- The block a record stands for. -/
def BlockRecord.block (record : BlockRecord) : Block :=
  Block.new record.parents record.work record.timestampMs record.nonce record.txs.payload

/-- A running node.  Before a genesis there is no ledger, and most calls are refused with an
error that says so. -/
structure Node where
  ledger : Option Ledger
  mempool : Mempool
  clock : Clock
  miner : Option Address

/-- `fee_of(state, tx)`: what the inputs found in `state` are worth beyond the
outputs.  The output sum wraps. -/
def feeOf (state : UtxoSet) (tx : Transaction) : U64 :=
  let sumIn := tx.inputs.foldl (fun acc input =>
    match state.lookup input.outpoint with
    | some prev => Word.saturatingAdd acc prev.value
    | none => acc) (0 : U64)
  let sumOut := tx.outputs.foldl (fun acc output => acc + output.value) (0 : U64)
  Word.saturatingSub sumIn sumOut

/-- A step that may panic. -/
def orPanic {ε α : Type} (site : String) : Option α → Outcome ε α
  | some a => .ok a
  | none => .error (.panic site)

namespace Node

/-- `Node::new()`. -/
def new : Node := ⟨none, .empty, .wall, none⟩

/-- `now_ms()`. -/
def nowMs (env : Env) (n : Node) : U64 :=
  match n.clock with
  | .wall => env.wallMs
  | .fixed t => t

def setNowMs (n : Node) (nowMs : U64) : Node := { n with clock := .fixed nowMs }

/-- `next_timestamp(dag, parents)`: now, or one past the latest parent.  The
addition wraps. -/
def nextTimestamp (env : Env) (n : Node) (dag : Dag) (parents : List BlockId) : U64 :=
  let latest := maxByKey (fun t : U64 => t)
    (parents.filterMap fun p => (dag.block p).map Block.timestampMs)
  let floor := match latest with
    | none => 0
    | some t => t + 1
  max (n.nowMs env) floor

/-- The id a node uses for actor `seed`. -/
def address [Crypto] (seed : U64) : Address := (KeyPair.fromU64 seed).address

def setProofOfWork (n : Node) (enabled : Bool) : Except NodeError Node :=
  match n.ledger with
  | none => .error .notInitialized
  | some ledger => .ok { n with ledger := some (ledger.setProofOfWork enabled) }

/-- `proof_of_work()`. -/
def proofOfWork (n : Node) : Bool := (n.ledger.map fun ledger => ledger.dag.requirePow).getD false

/-- The coinbase of a genesis: `amount` to the founder, tagged `genesis`. -/
def genesisCoinbase [Crypto] (amount founderSeed : U64) : Transaction :=
  .coinbase [⟨amount, address founderSeed⟩] [103, 101, 110, 101, 115, 105, 115]

theorem length_genesisCoinbase [Crypto] (amount founderSeed : U64) :
    (encodeBlockPayload [genesisCoinbase amount founderSeed]).length < 2 ^ 64 := by
  simp [encodeBlockPayload, genesisCoinbase, Transaction.coinbase, Transaction.encode,
    Transaction.encodeInto, Transaction.encodeOutput, (address founderSeed).bytes.property]

/-- The transactions of a genesis block. -/
def genesisTxs [Crypto] (amount founderSeed : U64) : TxList :=
  ⟨[genesisCoinbase amount founderSeed], length_genesisCoinbase amount founderSeed⟩

/-- `genesis(k, subsidy, amount, founder_seed)`: an unbounded ledger whose genesis pays the
founder, who is also the miner from then on. -/
def genesis [Crypto] (env : Env) (n : Node) (k : KParam) (subsidy amount founderSeed : U64) :
    Except NodeError ((BlockId × Address) × Node) :=
  if n.ledger.isSome then .error .alreadyInitialized
  else
    match Ledger.new env.ord k subsidy (genesisTxs amount founderSeed) with
    | .error e => .error (.ledger e)
    | .ok ledger =>
        .ok ((ledger.genesis, address founderSeed),
          { n with ledger := some ledger, miner := some (address founderSeed) })

def setMiner (n : Node) (miner : Address) : Node := { n with miner := some miner }

/-- `min_fee()`. -/
def minFee (n : Node) : U64 :=
  let cap : U64 := (n.ledger.map Ledger.subsidy).getD 1
  max (cap / minFeeDivisor) 1

/-- `issuance_at(cap, height)`: the cap, halved once for each full era below the height, and
nothing once 63 eras are full. -/
def issuanceAt (cap height : U64) : U64 :=
  let era := height / halvingEra
  if 63 ≤ era then 0 else Word.cast 64 (cap.val >>> era.val)

/-- `issuance()`, zero without a ledger.  The height it is taken at is the number of blocks the
node has. -/
def issuance (n : Node) : U64 :=
  match n.ledger with
  | none => 0
  | some ledger => issuanceAt ledger.subsidy (Word.cast 64 ledger.dag.len)

/-- `ledger()`. -/
def ledger? (n : Node) : Outcome NodeError Ledger :=
  match n.ledger with
  | none => .error (.error .notInitialized)
  | some ledger => .ok ledger

/-- The ledger state of a ledger; without one for the tip the call panics.  The ledger of a node
has no finality, so for it this never happens. -/
def stateOf [Crypto] (env : Env) (ledger : Ledger) : Outcome NodeError UtxoSet :=
  orPanic "selected tip has a stored state" (ledger.ledgerState env.ord)

/-- `balance(owner)`. -/
def balance [Crypto] (env : Env) (n : Node) (owner : Address) : Outcome NodeError Nat := do
  return (← stateOf env (← n.ledger?)).balance owner

/-! ## Spends -/

/-- `prepare_transfer(from, amount, to)`: of the outputs that cover amount and
fee, the one of least value, then least outpoint. -/
def prepareTransfer [Crypto] (env : Env) (n : Node) (sender : Address) (amount : U64)
    (recipient : Address) : Outcome NodeError Prepared := do
  if amount = 0 then throw (.error .zeroAmount)
  let fee := n.minFee
  let some need := Word.checkedAdd amount fee | throw (.error .insufficientFunds)
  let state ← stateOf env (← n.ledger?)
  let candidates := ((env.ord.entries state).filter fun entry =>
    decide (entry.2.owner = sender) && decide (need ≤ entry.2.value)).map fun entry =>
      (entry.1, entry.2.value)
  let sorted := sortByKey (fun c : OutPoint × U64 => toLex (c.2, c.1)) candidates
  let some (outpoint, value) := sorted.head? | throw (.error .insufficientFunds)
  let change := value - need
  let outputs := if 0 < change then [⟨amount, recipient⟩, ⟨change, sender⟩]
    else [⟨amount, recipient⟩]
  let tx := Transaction.unsigned [outpoint] outputs []
  return ⟨tx, tx.sighash, outpoint, value, fee⟩

/-- `utxos_of(owner)`: the unspent outputs of an address, by outpoint. -/
def utxosOf [Crypto] (env : Env) (n : Node) (owner : Address) :
    Outcome NodeError (List (OutPoint × U64)) := do
  let state ← stateOf env (← n.ledger?)
  let rows := ((env.ord.entries state).filter fun entry => decide (entry.2.owner = owner)).map
    fun entry => (entry.1, entry.2.value)
  return sortByKey (fun row : OutPoint × U64 => row.1) rows

/-- `build_transfer_to(from_seed, amount, to)`: a transfer prepared for the address of the seed and
signed with its key. -/
def buildTransferTo [Crypto] (env : Env) (n : Node) (fromSeed amount : U64)
    (recipient : Address) :
    Outcome NodeError Transaction := do
  if amount = 0 then throw (.error .zeroAmount)
  let key := KeyPair.fromU64 fromSeed
  let unsigned ← n.prepareTransfer env key.address amount recipient
  return unsigned.tx.attachSignature 0 (key.sign unsigned.sighash)

/-- `submit_tx(tx)`: anything but a coinbase becomes pending.  It is checked when a block is put
together, and not here. -/
def submitTx [Crypto] (n : Node) (tx : Transaction) : Outcome NodeError (TxId × Node) :=
  if tx.isCoinbase then .error (.error .unexpectedCoinbase)
  else .ok (tx.id, { n with mempool := n.mempool.add tx })

/-- `submit_signed(from, amount, to, signature)`: the transfer is prepared again, and taken if the
signature is one of the sender over its hash. -/
def submitSigned [Crypto] (env : Env) (n : Node) (sender : Address) (amount : U64)
    (recipient : Address) (signature : Bytes 64) : Outcome NodeError (TxId × Node) := do
  let prepared ← n.prepareTransfer env sender amount recipient
  if !verify sender prepared.sighash signature then throw (.error .badSignature)
  n.submitTx (prepared.tx.attachSignature 0 signature)

/-- `pool(from_seed, amount, to_seed)`: a signed transfer becomes pending.  It is prepared on the
ledger state, so pending transfers may spend the same output. -/
def pool [Crypto] (env : Env) (n : Node) (fromSeed amount toSeed : U64) :
    Outcome NodeError (TxId × Node) := do
  let tx ← n.buildTransferTo env fromSeed amount (address toSeed)
  return (tx.id, { n with mempool := n.mempool.add tx })

/-! ## Blocks -/

/-- `mine_nonce(..)`: zero unless proof of work is on.  The search covers all nonces, and it is a
panic if none of them meets the target. -/
def mineNonce [Crypto] (dag : Dag) (parents : Vec BlockId) (work : U128) (timestampMs : U64)
    (txs : TxList) : Outcome NodeError U64 :=
  if !dag.requirePow then .ok 0
  else
    orPanic "a nonce meeting the target exists in the u64 range"
      ((Pow.mine (Block.new parents work timestampMs 0 txs.payload)).map Block.nonce)

/-- `evict_mempool()`: pending transactions with an input that the ledger state does not have are
dropped. -/
def evictMempool [Crypto] (env : Env) (n : Node) : Outcome NodeError Node :=
  match n.ledger with
  | none => .ok n
  | some ledger => do
      let utxo ← stateOf env ledger
      return { n with mempool := n.mempool.evictInvalid env.ord utxo }

/-- `ledger.insert(..)` on the node's own ledger. -/
def insertBlock [Crypto] (env : Env) (n : Node) (ledger : Ledger) (record : BlockRecord) :
    Outcome NodeError (BlockId × Node) :=
  match ledger.insert env.ord record.parents record.work record.timestampMs record.nonce
      record.txs with
  | .error (.panic site) => .error (.panic site)
  | .error (.error e) => .error (.error (.insert e))
  | .ok (id, ledger) => .ok (id, { n with ledger := some ledger })

/-- The block that `send_to`, `produce_block` and `produce_empty` build on the
current tips: stamped, mined and inserted, with the transactions its timestamp
determines.  The ones in `included` then leave the mempool, and so do those it
invalidates. -/
def extendTips [Crypto] (env : Env) (n : Node) (ledger : Ledger)
    (txsAt : U64 → List Transaction) (included : List TxId) :
    Outcome NodeError (BlockId × Node) := do
  let parents ← orPanic "capacity overflow" (Vec.ofList? ledger.dag.tipList)
  let timestamp := n.nextTimestamp env ledger.dag parents.val
  let work := (ledger.dag.nextWorkTarget parents.val).getD 1
  let txs ← orPanic "capacity overflow" (TxList.ofList? (txsAt timestamp))
  let nonce ← mineNonce ledger.dag parents work timestamp txs
  let (block, n) ← n.insertBlock env ledger ⟨parents, work, timestamp, nonce, txs⟩
  let n ← { n with mempool := n.mempool.removeAll included }.evictMempool env
  return (block, n)

/-- `send_to(from_seed, amount, to)`: a block on all tips with one signed transfer and no coinbase,
so its fee goes to nobody. -/
def sendTo [Crypto] (env : Env) (n : Node) (fromSeed amount : U64)
    (recipient : Address) :
    Outcome NodeError (Sent × Node) := do
  let tx ← n.buildTransferTo env fromSeed amount recipient
  let (block, n) ← n.extendTips env (← n.ledger?) (fun _ => [tx]) []
  return (⟨block, tx.id⟩, n)

/-- `send(from_seed, amount, to_seed)`. -/
def send [Crypto] (env : Env) (n : Node) (fromSeed amount toSeed : U64) :
    Outcome NodeError (Sent × Node) :=
  n.sendTo env fromSeed amount (address toSeed)

/-- `issuance_txs(timestamp_ms, extra_fees)`: the coinbase of a block, if there is
a miner and something to mint. -/
def issuanceTxs (n : Node) (timestampMs extraFees : U64) : List Transaction :=
  match n.miner with
  | none => []
  | some miner =>
      let total := Word.saturatingAdd n.issuance extraFees
      if total = 0 then [] else [.coinbase [⟨total, miner⟩] (toLeBytes 8 timestampMs.val)]

/-- The candidates that apply one after the other, starting from `working`.  One that does not
apply is skipped, and the next is tried on the same state. -/
def selectValid [Crypto] (subsidy : U64) : UtxoSet → List Transaction → List Transaction
  | _, [] => []
  | working, tx :: rest =>
      match applyBlock working [tx] subsidy with
      | .ok applied => tx :: selectValid subsidy applied.1 rest
      | .error _ => selectValid subsidy working rest

/-- `produce_block()`: nothing where no pending transaction applies, else a block on all tips with
those that do.  The sum of the fees wraps. -/
def produceBlock [Crypto] (env : Env) (n : Node) : Outcome NodeError (Option BlockId × Node) := do
  let ledger ← n.ledger?
  if n.mempool.isEmpty then return (none, n)
  let state ← stateOf env ledger
  let selected := selectValid ledger.subsidy state (n.mempool.ordered env.ord)
  if selected.isEmpty then return (none, n)
  let fees := selected.foldl (fun acc tx => acc + feeOf state tx) (0 : U64)
  let (block, n) ← n.extendTips env ledger
    (fun timestamp => n.issuanceTxs timestamp fees ++ selected) (selected.map Transaction.id)
  return (some block, n)

/-- `produce_empty()`: a block on all tips with nothing but the issuance to the miner. -/
def produceEmpty [Crypto] (env : Env) (n : Node) : Outcome NodeError (BlockId × Node) := do
  n.extendTips env (← n.ledger?) (fun timestamp => n.issuanceTxs timestamp 0) []

/-! ## Exchange -/

/-- `block_record(id)`: the record of a stored block, its payload decoded. -/
def blockRecord (n : Node) (id : BlockId) : Option BlockRecord := do
  let ledger ← n.ledger
  let block ← ledger.dag.block id
  let txs ← (decodeBlockPayload block.payload.val).toOption
  let txs ← TxList.ofList? txs
  return ⟨⟨block.parents, block.parents_fit⟩, block.work, block.timestampMs, block.nonce, txs⟩

/-- `export()`: the records of the blocks after genesis, linearized, so that a receiver that takes
them in turn always has the parents. -/
def exportBlocks (env : Env) (n : Node) : List BlockRecord :=
  match n.ledger with
  | none => []
  | some ledger =>
      ((ledger.dag.linearize env.ord).filter fun id => id != ledger.genesis).filterMap
        n.blockRecord

/-- `receive_block(record)`: a block that is stored already is no error.  The timestamp is checked
before that, against the clock of the node. -/
def receiveBlock [Crypto] (env : Env) (n : Node) (record : BlockRecord) :
    Outcome NodeError (BlockId × Node) :=
  let now := n.nowMs env
  if Word.saturatingAdd maxFutureDriftMs now < record.timestampMs then
    .error (.error (.timestampTooFarInFuture record.timestampMs now))
  else
    match n.ledger with
    | none => .error (.error .notInitialized)
    | some ledger =>
        match n.insertBlock env ledger record with
        | .ok (id, n) => do
            let n ← n.evictMempool env
            return (id, n)
        | .error (.error (.insert (.dag (.duplicateBlock id)))) => .ok (id, n)
        | .error e => .error e

end Node

end Kovanica
