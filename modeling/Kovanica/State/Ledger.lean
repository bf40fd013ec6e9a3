import Kovanica.Dag.Ordering
import Kovanica.State.Validation

/-!
# The ledger

`applyDag` is the batch view: fold every block of a finished DAG in linearized
order.  A `Ledger` is the incremental one: it keeps, for every block that is not
final, the UTXO set of the block's own view, and checks a new block against its
view before admitting it.

`insert` makes its checks in the order of the source: the structure of the block, finality, its
transactions in their view, and then the DAG's own.  That the selected parent of a block that is
not final has its state is an `expect` there and a panic here.
-/

namespace Kovanica

open Lib

/-! ## The batch view -/

/-- The result of applying a whole DAG: the final set, the blocks that took effect, and those that
did not, each with its reason. -/
structure LedgerRun where
  utxo : UtxoSet
  accepted : List BlockId
  rejected : List (BlockId × LedgerError)

/-- One block of the batch: applied, or rejected with its reason.  A rejected block leaves the
set as it was, and the batch goes on. -/
def runBlock [Crypto] (d : DagView) (subsidy : U64) (run : LedgerRun) (id : BlockId) : LedgerRun :=
  match decodeBlockPayload (d.node id).block.payload.val with
  | .error e => { run with rejected := run.rejected ++ [(id, .payload e)] }
  | .ok txs =>
      match applyBlock run.utxo txs subsidy with
      | .ok applied => { run with utxo := applied.1, accepted := run.accepted ++ [id] }
      | .error e => { run with rejected := run.rejected ++ [(id, e)] }

/-- `apply_dag(dag, subsidy)`: the blocks in linearized order, each on what the ones before have
left.  A block that does not apply is listed and skipped. -/
def applyDag [Crypto] (ord : HashOrder) (d : DagView) (subsidy : U64) : LedgerRun :=
  (d.linearize ord).foldl (runBlock d subsidy) ⟨∅, [], []⟩

/-! ## The incremental view -/

/-- Why a block could not be added to a ledger. -/
inductive LedgerInsertError where
  | dag (e : DagError)
  | state (e : LedgerError)
  | finality (parentScore finalityScore : Nat)

namespace LedgerInsertError

def display : LedgerInsertError → String
  | dag e => s!"dag rejected block: {e.display}"
  | state e => s!"invalid block state: {e.display}"
  | finality parentScore finalityScore =>
      s!"finality violation: selected parent blue score {parentScore} < finality {finalityScore}"

end LedgerInsertError

/-- A DAG with the UTXO state of every block's own view.  Blocks more than
`finalityDepth` blue score below the selected tip are final; `u64::MAX` means
never. -/
structure Ledger where
  dag : Dag
  subsidy : U64
  genesis : BlockId
  finalityDepth : U64
  states : Finmap fun _ : BlockId => UtxoSet

/-- Apply a stored block's payload; a block that does not decode or does not
apply has no effect. -/
def applyStored [Crypto] (d : DagView) (subsidy : U64) (state : UtxoSet) (id : BlockId) :
    UtxoSet :=
  match decodeBlockPayload (d.node id).block.payload.val with
  | .error _ => state
  | .ok txs =>
      match applyBlock state txs subsidy with
      | .ok applied => applied.1
      | .error _ => state

namespace Ledger

/-- `Ledger::new(k, subsidy, genesis_txs)`: the genesis transactions are applied to the empty set
under the same rules as any others. -/
def new [Crypto] (ord : HashOrder) (k : KParam) (subsidy : U64) (genesisTxs : TxList) :
    Except LedgerError Ledger :=
  match applyBlock ∅ genesisTxs.val subsidy with
  | .error e => .error e
  | .ok applied =>
      let genesis := Block.genesis 1 0 0 genesisTxs.payload
      .ok { dag := Dag.withValidator ord k genesis txStructureValidator
            subsidy := subsidy
            genesis := genesis.id
            finalityDepth := Word.maxValue 64
            states := Finmap.singleton genesis.id applied.1 }

/-- `Ledger::with_finality`: a new ledger that will drop the states of blocks so far below the
selected tip. -/
def withFinality [Crypto] (ord : HashOrder) (k : KParam) (subsidy : U64) (genesisTxs : TxList)
    (finalityDepth : U64) : Except LedgerError Ledger :=
  match Ledger.new ord k subsidy genesisTxs with
  | .error e => .error e
  | .ok ledger => .ok { ledger with finalityDepth := finalityDepth }

/-- The blue score below which blocks are final: that of the selected tip less the depth, zero
as long as the depth reaches to the genesis. -/
def finalityScore (l : Ledger) : Nat :=
  if l.finalityDepth = Word.maxValue 64 then 0
  else
    let max := ((l.dag.ghostdag l.dag.selectedTip).map GhostdagData.blueScore).getD 0
    max - l.finalityDepth.val

/-- The blue score of a block, zero for an unknown one. -/
def blueScoreOf (l : Ledger) (id : BlockId) : Nat :=
  ((l.dag.ghostdag id).map GhostdagData.blueScore).getD 0

/-- `state(block)`. -/
def state (l : Ledger) (block : BlockId) : Option UtxoSet := l.states.lookup block

/-- Drop the stored state of every block that is now final.  Their blocks and consensus data stay;
what is lost is the view a child of theirs would be checked in. -/
def prune (ord : HashOrder) (l : Ledger) : Ledger :=
  let threshold := l.finalityScore
  if threshold = 0 then l
  else
    let stale := (ord.iter l.states.keys).filter fun id =>
      (l.dag.ghostdag id).any fun g => g.blueScore < threshold
    { l with states := stale.foldl (fun states id => states.erase id) l.states }

/-- The state a block's own transactions are checked against: its selected
parent's state with the mergeset applied. -/
def viewState [Crypto] (l : Ledger) (preview : BlockPreview) : Option UtxoSet :=
  (l.states.lookup preview.selectedParent).map fun state =>
    preview.mergeset.foldl (applyStored l.dag.toDagView l.subsidy) state

/-- The block a call of `insert` builds.  The caller gives transactions; what is stored and hashed
are their bytes. -/
def blockOf (parents : Vec BlockId) (work : U128) (timestampMs nonce : U64) (txs : TxList) :
    Block :=
  Block.new parents work timestampMs nonce txs.payload

/-- `insert(parents, work, timestamp_ms, nonce, txs)`: the new block's id and the
grown ledger. -/
def insert [Crypto] (ord : HashOrder) (l : Ledger) (parents : Vec BlockId) (work : U128)
    (timestampMs nonce : U64) (txs : TxList) :
    Outcome LedgerInsertError (BlockId × Ledger) :=
  let block := blockOf parents work timestampMs nonce txs
  match l.dag.preview block with
  | .error e => .error (.error (.dag e))
  | .ok preview =>
      let parentScore := l.blueScoreOf preview.selectedParent
      if parentScore < l.finalityScore then
        .error (.error (.finality parentScore l.finalityScore))
      else
        match l.viewState preview with
        | none => .error (.panic "non-final selected parent always has a stored state")
        | some before =>
            match applyBlock before txs.val l.subsidy with
            | .error e => .error (.error (.state e))
            | .ok applied =>
                match l.dag.insert ord block with
                | .error (.error e) => .error (.error (.dag e))
                | .error (.panic site) => .error (.panic site)
                | .ok (id, dag) =>
                    .ok (id, prune ord { l with
                      dag := dag
                      states := l.states.insert id applied.1 })

/-- `ledger_state()`: the selected tip's state and the blocks after it in the
linearization.  `none` is a panic: the tip has no stored state. -/
def ledgerState [Crypto] (ord : HashOrder) (l : Ledger) : Option UtxoSet :=
  let order := l.dag.linearize ord
  let tip := l.dag.selectedTip
  (order.idxOf? tip).bind fun pos =>
    (l.states.lookup tip).map fun state =>
      (order.drop (pos + 1)).foldl (applyStored l.dag.toDagView l.subsidy) state

/-! ## Policy switches -/

def setDifficulty (l : Ledger) (retarget : Retarget) : Ledger :=
  { l with dag := l.dag.setDifficulty retarget }

def setProofOfWork (l : Ledger) (enabled : Bool) : Ledger :=
  { l with dag := l.dag.setProofOfWork enabled }

end Ledger

end Kovanica
