import Kovanica.State.Apply
import Kovanica.Dag.View

/-!
# Structural validation of payloads

The checks that need no ledger state, and the validator that runs them on every
block inserted into a DAG.

They repeat what the ledger checks as well, on the bytes of the payload, and stop at the first
transaction that fails.
-/

namespace Kovanica

open Lib

/-- Why a payload failed the structural checks; each names the transaction by its
index. -/
inductive BlockValidationError where
  | payload (e : DecodeError)
  | misplacedCoinbase (txIndex : Nat)
  | noOutputs (txIndex : Nat)
  | duplicateInput (txIndex : Nat) (outpoint : OutPoint)
  | zeroValueOutput (txIndex outputIndex : Nat)
  | valueOverflow (txIndex : Nat)

namespace BlockValidationError

def display : BlockValidationError → String
  | payload e => s!"payload decode: {e.display}"
  | misplacedCoinbase txIndex => s!"misplaced coinbase at tx {txIndex}"
  | noOutputs txIndex => s!"tx {txIndex} has no outputs"
  | duplicateInput txIndex outpoint => s!"tx {txIndex} spends {outpoint.debug} twice"
  | zeroValueOutput txIndex outputIndex =>
      s!"tx {txIndex} output {outputIndex} has zero value"
  | valueOverflow txIndex => s!"tx {txIndex} output values overflow"

end BlockValidationError

/-- No outpoint is spent twice. -/
def validateInputs (index : Nat) :
    List TxInput → (seen : Finset OutPoint) → Except BlockValidationError Unit
  | [], _ => .ok ()
  | input :: rest, seen =>
      if input.outpoint ∈ seen then .error (.duplicateInput index input.outpoint)
      else validateInputs index rest (insert input.outpoint seen)

/-- No output is zero and their sum fits, from output `j` on. -/
def validateOutputs (index : Nat) :
    (j : Nat) → List TxOutput → (sum : U64) → Except BlockValidationError Unit
  | _, [], _ => .ok ()
  | j, output :: rest, sum =>
      if output.value = 0 then .error (.zeroValueOutput index j)
      else
        match Word.checkedAdd sum output.value with
        | none => .error (.valueOverflow index)
        | some sum => validateOutputs index (j + 1) rest sum

/-- `validate_tx_structure(index, tx)`. -/
def validateTxStructure (index : Nat) (tx : Transaction) : Except BlockValidationError Unit :=
  if tx.isCoinbase && index ≠ 0 then .error (.misplacedCoinbase index)
  else if !tx.isCoinbase && tx.outputs.isEmpty then .error (.noOutputs index)
  else
    match validateInputs index tx.inputs ∅ with
    | .error e => .error e
    | .ok () => validateOutputs index 0 tx.outputs 0

/-- The transactions from position `i` on. -/
def validateTxs : (i : Nat) → List Transaction → Except BlockValidationError Unit
  | _, [] => .ok ()
  | i, tx :: rest =>
      match validateTxStructure i tx with
      | .error e => .error e
      | .ok () => validateTxs (i + 1) rest

/-- `validate_block_payload(payload)`: the payload decodes, and every transaction of it is well
structured by itself; no set of outputs is asked. -/
def validateBlockPayload (payload : List U8) : Except BlockValidationError Unit :=
  match decodeBlockPayload payload with
  | .error e => .error (.payload e)
  | .ok txs => validateTxs 0 txs

/-- `TxStructureValidator`: stateless, the reason is the error's text.  It is the validator every
ledger installs on its DAG. -/
def txStructureValidator : BlockValidator := fun block _ =>
  match validateBlockPayload block.payload.val with
  | .ok () => .ok ()
  | .error e => .error e.display

end Kovanica
