import Kovanica.State.Tx
import Mathlib.Algebra.Order.Group.Multiset

/-!
# The state transition of one block

A UTXO set maps every unspent outpoint to its output.  `applyBlock` stages a
block's transactions on a copy: the regular ones in list order, accumulating
fees, and then the coinbase against `subsidy + fees`.  A failure returns no set,
so a rejected block has no effect.

Sums of values are checked, so one that does not fit 64 bits is an error and never wraps.  Every
error carries what the source puts into its text, and `display` is that text.
-/

namespace Kovanica

open Lib

/-! ## The UTXO set -/

/-- The unspent outputs. -/
abbrev UtxoSet : Type := Finmap fun _ : OutPoint => TxOutput

namespace UtxoSet

/-- The outputs of the set, with multiplicity. -/
def outputs (utxo : UtxoSet) : Multiset TxOutput := utxo.entries.map Sigma.snd

/-- `total_value()`.  The source widens to `u128`; a set of fewer than `2 ^ 63`
outputs of 64-bit value cannot overflow it. -/
def totalValue (utxo : UtxoSet) : Nat := (utxo.outputs.map fun o => o.value.val).sum

/-- `balance(owner)`. -/
def balance (utxo : UtxoSet) (owner : Address) : Nat :=
  ((utxo.outputs.filter fun o => o.owner = owner).map fun o => o.value.val).sum

end UtxoSet

/-! ## Errors -/

/-- Why a transaction or block could not be applied. -/
inductive LedgerError where
  | missingInput (op : OutPoint)
  | duplicateInput (op : OutPoint)
  | outputAlreadyExists (op : OutPoint)
  | badSignature (tx : TxId) (input : Nat)
  | valueNotConserved (tx : TxId) (inputs outputs : U64)
  | valueOverflow
  | emptyTransaction (tx : TxId)
  | zeroValueOutput (tx : TxId)
  | misplacedCoinbase (tx : TxId)
  | coinbaseOverspend (claimed allowed : U64)
  | payload (e : DecodeError)

namespace LedgerError

def display : LedgerError → String
  | missingInput op => s!"missing/spent input {op.debug}"
  | duplicateInput op => s!"duplicate input {op.debug}"
  | outputAlreadyExists op => s!"output already exists {op.debug}"
  | badSignature tx input => s!"bad signature on input {input} of {tx.display}"
  | valueNotConserved tx inputs outputs =>
      s!"value not conserved in {tx.display}: in {inputs.val} < out {outputs.val}"
  | valueOverflow => "value sum overflowed"
  | emptyTransaction tx => s!"empty transaction {tx.display}"
  | zeroValueOutput tx => s!"zero-value output in {tx.display}"
  | misplacedCoinbase tx => s!"misplaced coinbase {tx.display}"
  | coinbaseOverspend claimed allowed =>
      s!"coinbase overspend: claimed {claimed.val} > allowed {allowed.val}"
  | payload e => s!"payload decode: {e.display}"

end LedgerError

/-- What an applied block moved: the fees of its regular transactions and what its coinbase
has minted, neither of them wrapped. -/
structure BlockSummary where
  fees : U64
  minted : U64
deriving DecidableEq

/-! ## One transaction -/

/-- The inputs of a transaction from position `i` on: no outpoint twice, each one
unspent and signed for by its owner.  Returns the sum of their values. -/
def checkInputs [Crypto] (utxo : UtxoSet) (tx : TxId) (sighash : List U8) :
    (i : Nat) → List TxInput → (seen : Finset OutPoint) → (sumIn : U64) → Except LedgerError U64
  | _, [], _, sumIn => .ok sumIn
  | i, input :: rest, seen, sumIn =>
      if input.outpoint ∈ seen then .error (.duplicateInput input.outpoint)
      else
        match utxo.lookup input.outpoint with
        | none => .error (.missingInput input.outpoint)
        | some prev =>
            if !verify prev.owner sighash input.signature then .error (.badSignature tx i)
            else
              match Word.checkedAdd sumIn prev.value with
              | none => .error .valueOverflow
              | some sumIn =>
                  checkInputs utxo tx sighash (i + 1) rest (insert input.outpoint seen) sumIn

/-- The sum of the output values, none of which may be zero.  Outputs are checked in order, and
the first fault is the one that is told. -/
def sumOutputs (tx : TxId) : List TxOutput → (sumOut : U64) → Except LedgerError U64
  | [], sumOut => .ok sumOut
  | output :: rest, sumOut =>
      if output.value = 0 then .error (.zeroValueOutput tx)
      else
        match Word.checkedAdd sumOut output.value with
        | none => .error .valueOverflow
        | some sumOut => sumOutputs tx rest sumOut

/-- `add_outputs`, from index `i` on: an outpoint that is unspent already is
refused. -/
def addOutputs (tx : TxId) : (i : Nat) → List TxOutput → UtxoSet → Except LedgerError UtxoSet
  | _, [], staging => .ok staging
  | i, output :: rest, staging =>
      let outpoint : OutPoint := ⟨tx, Word.cast 32 i⟩
      if outpoint ∈ staging then .error (.outputAlreadyExists outpoint)
      else addOutputs tx (i + 1) rest (staging.insert outpoint output)

/-- The staging set without the outputs a transaction spends.  They are removed only after all
inputs have been checked. -/
def removeInputs (inputs : List TxInput) (staging : UtxoSet) : UtxoSet :=
  inputs.foldl (fun staging input => staging.erase input.outpoint) staging

/-- `apply_regular`: the staged set and the fee.  Inputs are checked against the staged set, so a
transaction may spend what an earlier one of the block has created. -/
def applyRegular [Crypto] (staging : UtxoSet) (tx : Transaction) :
    Except LedgerError (UtxoSet × U64) :=
  if tx.inputs.isEmpty || tx.outputs.isEmpty then .error (.emptyTransaction tx.id)
  else
    match checkInputs staging tx.id tx.sighash 0 tx.inputs ∅ 0 with
    | .error e => .error e
    | .ok sumIn =>
        match sumOutputs tx.id tx.outputs 0 with
        | .error e => .error e
        | .ok sumOut =>
            if sumIn < sumOut then .error (.valueNotConserved tx.id sumIn sumOut)
            else
              match addOutputs tx.id 0 tx.outputs (removeInputs tx.inputs staging) with
              | .error e => .error e
              | .ok staging => .ok (staging, sumIn - sumOut)

/-- `apply_coinbase`: the staged set and the value minted, which may be less than is allowed and
never more. -/
def applyCoinbase [Crypto] (staging : UtxoSet) (cb : Transaction) (allowed : U64) :
    Except LedgerError (UtxoSet × U64) :=
  match sumOutputs cb.id cb.outputs 0 with
  | .error e => .error e
  | .ok claimed =>
      if allowed < claimed then .error (.coinbaseOverspend claimed allowed)
      else
        match addOutputs cb.id 0 cb.outputs staging with
        | .error e => .error e
        | .ok staging => .ok (staging, claimed)

/-! ## One block -/

/-- The regular transactions of a block from position `i` on: the staged set, the
coinbase if there is one, and the fees. -/
def applyTxs [Crypto] : (i : Nat) → List Transaction → UtxoSet → Option Transaction →
    (fees : U64) → Except LedgerError (UtxoSet × Option Transaction × U64)
  | _, [], staging, coinbase, fees => .ok (staging, coinbase, fees)
  | i, tx :: rest, staging, coinbase, fees =>
      if tx.isCoinbase then
        if i ≠ 0 then .error (.misplacedCoinbase tx.id)
        else applyTxs (i + 1) rest staging (some tx) fees
      else
        match applyRegular staging tx with
        | .error e => .error e
        | .ok (staging, fee) =>
            match Word.checkedAdd fees fee with
            | none => .error .valueOverflow
            | some fees => applyTxs (i + 1) rest staging coinbase fees

/-- The coinbase comes last, once the fees are known; without one nothing is
minted. -/
def applyLast [Crypto] (staging : UtxoSet) (coinbase : Option Transaction) (allowed : U64) :
    Except LedgerError (UtxoSet × U64) :=
  match coinbase with
  | none => .ok (staging, 0)
  | some cb => applyCoinbase staging cb allowed

/-- `apply_block(utxo, txs, subsidy)`: the committed set and the summary.  Regular transactions
are staged in the order of the list, the coinbase, of which there may be one, after them. -/
def applyBlock [Crypto] (utxo : UtxoSet) (txs : List Transaction) (subsidy : U64) :
    Except LedgerError (UtxoSet × BlockSummary) :=
  match applyTxs 0 txs utxo none 0 with
  | .error e => .error e
  | .ok (staging, coinbase, fees) =>
      match Word.checkedAdd subsidy fees with
      | none => .error .valueOverflow
      | some allowed =>
          match applyLast staging coinbase allowed with
          | .error e => .error e
          | .ok (staging, minted) => .ok (staging, ⟨fees, minted⟩)

end Kovanica
