import Kovanica.State.Accounting

/-!
# The structural checks against the ledger's own

`validate_block_payload` and `apply_block` are written separately, one over bytes
and one over transactions.  Each structural check is one the ledger makes as well,
with the same accumulator, so what applies to some set is well structured, and the
validator installed on a ledger's DAG never has a say.

## Main results

* `validateInputs_of_check`, `validateOutputs_of_sum`, `validateTxs_of_apply`: what has passed the
  ledger's checks passes these.
* `Ledger.insert_ne_invalid`: an insert into a ledger never fails in the validator.
-/

namespace Kovanica

open Lib

variable [Crypto]

/-! ## One transaction -/

/-- Checked inputs are distinct. -/
theorem validateInputs_of_check {utxo : UtxoSet} {tx : TxId} {sighash : List U8} {i : Nat}
    {inputs : List TxInput} {seen : Finset OutPoint} {acc sum : U64} (index : Nat)
    (h : checkInputs utxo tx sighash i inputs seen acc = .ok sum) :
    validateInputs index inputs seen = .ok () := by
  induction inputs generalizing i seen acc with
  | nil => rfl
  | cons input rest ih =>
      rw [checkInputs] at h
      split at h
      · cases h
      rename_i hunseen
      split at h
      · cases h
      split at h
      · cases h
      split at h
      · cases h
      rw [validateInputs, if_neg hunseen]
      exact ih h

omit [Crypto] in
/-- Summed outputs are not zero and their sum fits. -/
theorem validateOutputs_of_sum {tx : TxId} {outputs : List TxOutput} {acc sum : U64}
    (index j : Nat) (h : sumOutputs tx outputs acc = .ok sum) :
    validateOutputs index j outputs acc = .ok () := by
  induction outputs generalizing j acc with
  | nil => rfl
  | cons output rest ih =>
      rw [sumOutputs] at h
      split at h
      · cases h
      rename_i hzero
      split at h
      · cases h
      rename_i next hadd
      rw [validateOutputs, if_neg hzero, hadd]
      exact ih (j + 1) h

theorem validateTxStructure_of_regular {staging next : UtxoSet} {tx : Transaction} {fee : U64}
    (index : Nat) (h : applyRegular staging tx = .ok (next, fee)) :
    validateTxStructure index tx = .ok () := by
  unfold applyRegular at h
  split at h
  · cases h
  rename_i hcontent
  split at h
  · cases h
  rename_i sumIn hin
  split at h
  · cases h
  rename_i sumOut hout
  rw [Bool.or_eq_true, not_or, Bool.not_eq_true, Bool.not_eq_true] at hcontent
  rw [validateTxStructure, Transaction.isCoinbase, hcontent.1, hcontent.2,
    validateInputs_of_check index hin, validateOutputs_of_sum index 0 hout]
  rfl

theorem validateTxStructure_of_coinbase {staging next : UtxoSet} {cb : Transaction}
    {allowed minted : U64} (hcb : cb.isCoinbase = true)
    (h : applyCoinbase staging cb allowed = .ok (next, minted)) :
    validateTxStructure 0 cb = .ok () := by
  unfold applyCoinbase at h
  split at h
  · cases h
  rename_i claimed hclaimed
  have hinputs : cb.inputs = [] := List.isEmpty_iff.1 hcb
  rw [validateTxStructure, hcb, hinputs, validateOutputs_of_sum 0 0 hclaimed]
  rfl

/-! ## One block -/

/-- After the first position every transaction is a regular one that applied. -/
theorem validateTxs_of_apply {i : Nat} (hi : i ≠ 0) {txs : List Transaction}
    {staging next : UtxoSet} {cb cb' : Option Transaction} {fees fees' : U64}
    (h : applyTxs i txs staging cb fees = .ok (next, cb', fees')) :
    validateTxs i txs = .ok () := by
  induction txs generalizing i staging fees with
  | nil => rfl
  | cons tx rest ih =>
      rw [applyTxs] at h
      split at h
      · cases h
      split at h
      · cases h
      rename_i staged fee hfee
      split at h
      · cases h
      rw [validateTxs, validateTxStructure_of_regular i hfee]
      exact ih (Nat.succ_ne_zero i) h

/-- What applies to some set passes the structural checks. -/
theorem validateTxs_of_applyBlock {utxo : UtxoSet} {txs : List Transaction} {subsidy : U64}
    {applied : UtxoSet × BlockSummary} (h : applyBlock utxo txs subsidy = .ok applied) :
    validateTxs 0 txs = .ok () := by
  unfold applyBlock at h
  split at h
  · cases h
  rename_i staging coinbase fees htxs
  split at h
  · cases h
  rename_i allowed hallowed
  split at h
  · cases h
  rename_i last minted hlast
  cases txs with
  | nil => rfl
  | cons tx rest =>
      rw [applyTxs] at htxs
      split at htxs
      · -- the coinbase goes first here and last in `applyLast`
        rename_i hcb
        rw [if_neg (not_not.2 rfl)] at htxs
        obtain ⟨_, rfl, _⟩ := applyTxs_regular (Nat.succ_ne_zero 0) htxs
        rw [validateTxs, validateTxStructure_of_coinbase hcb hlast]
        exact validateTxs_of_apply (Nat.succ_ne_zero 0) htxs
      · split at htxs
        · cases htxs
        rename_i staged fee hfee
        split at htxs
        · cases htxs
        rw [validateTxs, validateTxStructure_of_regular 0 hfee]
        exact validateTxs_of_apply (Nat.succ_ne_zero 0) htxs

/-- The same over bytes. -/
theorem validateBlockPayload_of_applyBlock {utxo : UtxoSet} {txs : TxList} {subsidy : U64}
    {applied : UtxoSet × BlockSummary} (h : applyBlock utxo txs.val subsidy = .ok applied) :
    validateBlockPayload (encodeBlockPayload txs.val) = .ok () := by
  rw [validateBlockPayload, decode_encode]
  exact validateTxs_of_applyBlock h

/-! ## Inserts -/

/-- The installed validator passes a block whose transactions apply to some set. -/
theorem Ledger.runValidator_of_applyBlock {l : Ledger} (hl : l.WellFormed) {parents : Vec BlockId}
    {work : U128} {timestampMs nonce : U64} {txs : TxList} {utxo : UtxoSet}
    {applied : UtxoSet × BlockSummary} (h : applyBlock utxo txs.val l.subsidy = .ok applied) :
    l.dag.runValidator (blockOf parents work timestampMs nonce txs) = .ok () := by
  have hpayload : validateBlockPayload
      (blockOf parents work timestampMs nonce txs).payload.val = .ok () :=
    validateBlockPayload_of_applyBlock h
  rw [Dag.runValidator, hl.validator]
  simp only [txStructureValidator, hpayload]

/-- The policy never calls a block invalid. -/
theorem Dag.checkPolicy_ne_invalid (d : Dag) (block : Block) (sp id : BlockId) (reason : String) :
    d.checkPolicy block sp ≠ .error (.invalidBlock id reason) := by
  unfold checkPolicy DagView.checkDifficulty
  intro h
  simp only at h
  split at h
  · rename_i e he
    cases h
    split at he
    · cases he
    split at he
    · cases he
    · split at he <;> cases he
  · split at h <;> cases h

/-- A call of `insert` is never refused by the validator: what it would refuse has
not passed the stateful checks before. -/
theorem Ledger.insert_ne_invalid {l : Ledger} (hl : l.WellFormed) (ord : HashOrder)
    (parents : Vec BlockId) (work : U128) (timestampMs nonce : U64) (txs : TxList)
    (id : BlockId) (reason : String) :
    l.insert ord parents work timestampMs nonce txs ≠
      .error (.error (.dag (.invalidBlock id reason))) := by
  obtain ⟨block, hblock⟩ : ∃ block, blockOf parents work timestampMs nonce txs = block := ⟨_, rfl⟩
  intro h
  cases hstruct : l.dag.checkStructure block with
  | error e =>
      unfold insert at h
      simp only [hblock, DagView.preview, hstruct, Except.error.injEq, Fault.error.injEq,
        LedgerInsertError.dag.injEq] at h
      rw [h, DagView.checkStructure] at hstruct
      split at hstruct
      · cases hstruct
      split at hstruct
      · cases hstruct
      split at hstruct <;> cases hstruct
  | ok _ =>
      obtain ⟨sp, g, hdata, hg, hsp⟩ :=
        Dag.exists_data ord (Dag.checkStructure_ok_iff.1 hstruct).2.1
      rw [insert_eq hblock hstruct hsp] at h
      split at h
      · cases h
      split at h
      · cases h
      split at h
      · cases h
      rename_i applied happly
      have hvalid : l.dag.runValidator (blockOf parents work timestampMs nonce txs) = .ok () :=
        runValidator_of_applyBlock hl happly
      rw [hblock] at hvalid
      simp only [Dag.insert_eq hstruct hdata hg, hvalid] at h
      cases hpolicy : l.dag.checkPolicy block sp with
      | error e =>
          simp only [hpolicy, Except.error.injEq, Fault.error.injEq,
            LedgerInsertError.dag.injEq] at h
          exact l.dag.checkPolicy_ne_invalid block sp id reason (h ▸ hpolicy)
      | ok _ =>
          by_cases hroom : mapCapacity ≤ l.dag.len + 1
          · simp [hpolicy, hroom] at h
          · simp [hpolicy, hroom] at h

/-- The structural validator is sound for the ledger: a list that applies to some set
has a payload it passes, it refuses no call of `insert` on a reachable ledger, and a
payload it refuses decodes to nothing that applies to any set. -/
theorem validator_sound :
    (∀ (txs : TxList) (utxo : UtxoSet) (subsidy : U64) (applied : UtxoSet × BlockSummary),
      applyBlock utxo txs.val subsidy = .ok applied →
        validateBlockPayload (encodeBlockPayload txs.val) = .ok ()) ∧
    (∀ l : Ledger, l.Reachable → ∀ (ord : HashOrder) (parents : Vec BlockId) (work : U128)
      (timestampMs nonce : U64) (txs : TxList),
        (∀ before applied, applyBlock before txs.val l.subsidy = .ok applied →
          l.dag.runValidator (Ledger.blockOf parents work timestampMs nonce txs) = .ok ()) ∧
        ∀ id reason, l.insert ord parents work timestampMs nonce txs ≠
          .error (.error (.dag (.invalidBlock id reason)))) ∧
    ∀ payload e, validateBlockPayload payload = .error e →
      ∀ txs, decodeBlockPayload payload = .ok txs →
        ∀ utxo subsidy applied, applyBlock utxo txs subsidy ≠ .ok applied := by
  refine ⟨fun txs utxo subsidy applied h => validateBlockPayload_of_applyBlock h,
    fun l hl ord parents work timestampMs nonce txs => ⟨fun before applied h => ?_, ?_⟩,
    fun payload e hrefused txs hdecode utxo subsidy applied happly => ?_⟩
  · exact Ledger.runValidator_of_applyBlock hl.wellFormed h
  · exact Ledger.insert_ne_invalid hl.wellFormed ord parents work timestampMs nonce txs
  · rw [validateBlockPayload, hdecode] at hrefused
    cases hrefused.symm.trans (validateTxs_of_applyBlock happly)

open scoped Reference
open Reference (premine spendTxs founder)

omit [Crypto] in
/-- The spend of the premine applies to the set that holds it. -/
theorem validator_sound_spend :
    validateBlockPayload (encodeBlockPayload spendTxs.val) = .ok () := by
  have hcheck : (applyBlock (Finmap.singleton ⟨premine.id, 0⟩ ⟨1, founder⟩)
      spendTxs.val 0).toOption.isSome = true := by
    decide +kernel
  obtain ⟨applied, happlied⟩ := Option.isSome_iff_exists.1 hcheck
  exact validator_sound.1 spendTxs _ 0 applied (ok_of_toOption happlied)

end Kovanica
