import Kovanica.State.Frame
import Kovanica.State.Identity
import Kovanica.State.Packing

/-!
# Payments from one output

A wallet pays out of a single unspent output: the amount to the recipient, what the fee
leaves of the rest back to the sender.  Such a spend is checked here against the ledger's
own rules.  It applies whenever the outpoints it creates are free and its fee fits in a
block, and it moves the amount and nothing else.

## Main results

* `applyRegular_one_iff`: when a spend of one output applies.
* `transfers_payment_iff`: when the payment of a wallet does.
* `sighash_attachSignature`: signing changes nothing of what is signed.
-/

namespace Kovanica

open Lib

/-! ## Sums and outpoints -/

/-- Outputs none of which is zero have a sum when it fits. -/
theorem sumOutputs_of_sum {tx : TxId} {outputs : List TxOutput} {acc sum : U64}
    (hsum : sum.val = acc.val + (outputs.map fun o => o.value.val).sum)
    (hpos : ∀ o ∈ outputs, o.value ≠ 0) : sumOutputs tx outputs acc = .ok sum := by
  induction outputs generalizing acc with
  | nil =>
      rw [sumOutputs, Except.ok.injEq]
      exact Fin.ext (by simpa using hsum.symm)
  | cons output rest ih =>
      rw [List.map_cons, List.sum_cons, ← Nat.add_assoc] at hsum
      have hlt := sum.isLt
      have hfit : acc.val + output.value.val < 2 ^ 64 := by omega
      have hadd : Word.checkedAdd acc output.value = some ⟨_, hfit⟩ := by
        rw [Word.checkedAdd_eq_some]
      rw [sumOutputs, if_neg (hpos output (List.mem_cons_self ..)), hadd]
      exact ih hsum fun o ho => hpos o (List.mem_cons_of_mem _ ho)

/-- Outputs are added under distinct outpoints that are free. -/
theorem addOutputs_of_fresh {tx : TxId} {i : Nat} {outputs : List TxOutput} {staging : UtxoSet}
    (hnodup : ((Transaction.outputsFrom tx i outputs).map Prod.fst).Nodup)
    (hfresh : ∀ op ∈ (Transaction.outputsFrom tx i outputs).map Prod.fst, op ∉ staging) :
    addOutputs tx i outputs staging =
      .ok (Tokens.createAll staging (Transaction.outputsFrom tx i outputs)) := by
  induction outputs generalizing i staging with
  | nil => rfl
  | cons output rest ih =>
      rw [Transaction.outputsFrom, List.map_cons] at hnodup hfresh
      have hhead : (⟨tx, Word.cast 32 i⟩ : OutPoint) ∉ staging := hfresh _ (List.mem_cons_self ..)
      have hcons := List.nodup_cons.1 hnodup
      rw [addOutputs, if_neg hhead, ih hcons.2]
      · rfl
      · intro op hop hin
        rcases Finmap.mem_insert.1 hin with heq | hold
        · rw [heq] at hop
          exact hcons.1 hop
        · exact hfresh op (List.mem_cons_of_mem _ hop) hold

/-- The outpoints of up to `2 ^ 32` outputs are distinct. -/
theorem Transaction.nodup_outputsFrom {id : TxId} {i : Nat} {outputs : List TxOutput}
    (h : i + outputs.length ≤ 2 ^ 32) : ((outputsFrom id i outputs).map Prod.fst).Nodup := by
  induction outputs generalizing i with
  | nil => exact List.nodup_nil
  | cons output rest ih =>
      rw [List.length_cons] at h
      rw [outputsFrom, List.map_cons, List.nodup_cons]
      constructor
      · intro hin
        rw [List.mem_map] at hin
        obtain ⟨⟨op, o⟩, hmem, heq⟩ := hin
        rw [Transaction.mem_outputsFrom] at hmem
        obtain ⟨j, hj, hop⟩ := hmem
        have hlt := (List.getElem?_eq_some_iff.1 hj).1
        have hindex := congrArg (fun op : OutPoint => op.index.val) (hop.symm.trans heq)
        simp only [Word.cast_val] at hindex
        omega
      · exact ih (by omega)

/-- `balance(owner)`, as a measure of the outputs. -/
theorem UtxoSet.balance_eq (utxo : UtxoSet) (owner : Address) :
    utxo.balance owner =
      Tokens.tally (fun o => if o.owner = owner then o.value.val else 0) utxo := by
  have hsum : ∀ outputs : Multiset TxOutput,
      ((outputs.filter fun o => o.owner = owner).map fun o => o.value.val).sum =
        (outputs.map fun o => if o.owner = owner then o.value.val else 0).sum := by
    intro outputs
    induction outputs using Multiset.induction_on with
    | empty => rfl
    | cons o rest ih =>
        by_cases ho : o.owner = owner
        · simp [ho, ih]
        · simp [ho, ih]
  rw [balance, hsum, outputs, Multiset.map_map]
  rfl

variable [Crypto]

/-! ## A spend of one output -/

/-- A spend of one output, worth its outputs and a fee, and signed for, applies exactly
when its event can fire. -/
theorem applyRegular_one_iff {s next : UtxoSet} {tx : Transaction} {op : OutPoint}
    {signature : Bytes 64} {prev : TxOutput} {fee fee' : U64}
    (hinputs : tx.inputs = [⟨op, signature⟩]) (hprev : s.lookup op = some prev)
    (hverify : verify prev.owner tx.sighash signature = true)
    (hne : tx.outputs ≠ []) (hpos : ∀ o ∈ tx.outputs, o.value ≠ 0)
    (hvalue : prev.value.val = tx.outputValue + fee.val) :
    applyRegular s tx = .ok (next, fee') ↔ fee' = fee ∧ Tokens.Fires s tx.event next := by
  have hlt := prev.value.isLt
  have hzero : (0 : U64).val = 0 := rfl
  have hspends : tx.event.spends = [op] := by
    simp [Transaction.event, hinputs]
  have hsumIn : Word.checkedAdd (0 : U64) prev.value = some prev.value := by
    rw [Word.checkedAdd_eq_some, hzero, Nat.zero_add]
  have hcheck : checkInputs s tx.id tx.sighash 0 tx.inputs ∅ 0 = .ok prev.value := by
    simp [hinputs, checkInputs, hprev, hverify, hsumIn]
  have hfit : tx.outputValue < 2 ^ 64 := by omega
  have hsum : sumOutputs tx.id tx.outputs 0 = .ok ⟨tx.outputValue, hfit⟩ :=
    sumOutputs_of_sum (by rw [hzero, Nat.zero_add]; rfl) hpos
  have hle : (⟨tx.outputValue, hfit⟩ : U64) ≤ prev.value := by
    rw [Fin.le_def]
    show tx.outputValue ≤ prev.value.val
    omega
  have hfee : prev.value - ⟨tx.outputValue, hfit⟩ = fee := by
    apply Fin.ext
    rw [Fin.sub_val_of_le hle]
    show prev.value.val - tx.outputValue = fee.val
    omega
  constructor
  · intro h
    have hfires := (applyRegular_spec h).1
    have htotal := (applyRegular_spec h).2.2
    have htally := hfires.tally_eq fun o => o.value.val
    rw [tx.sum_creates, hspends, List.map_singleton, List.sum_singleton, Tokens.measureAt,
      hprev, ← UtxoSet.totalValue_eq, ← UtxoSet.totalValue_eq] at htally
    have hmeasure : ((some prev).map fun o : TxOutput => o.value.val).getD 0 = prev.value.val :=
      rfl
    exact ⟨Fin.ext (by omega), hfires⟩
  · rintro ⟨hfee', hfires⟩
    have hinputs' : tx.inputs.isEmpty = false := by simp [hinputs]
    have houtputs' : tx.outputs.isEmpty = false := by simpa using hne
    have hadd := addOutputs_of_fresh hfires.creates_nodup hfires.creates_fresh
    have hresult : Tokens.createAll (Tokens.spendAll s tx.event.spends) tx.event.creates = next :=
      hfires.result.symm
    have hremove : removeInputs tx.inputs s = Tokens.spendAll s tx.event.spends :=
      removeInputs_eq tx.inputs s
    have hcreates : tx.event.creates = Transaction.outputsFrom tx.id 0 tx.outputs := rfl
    rw [← hcreates, hresult, ← hremove] at hadd
    rw [applyRegular, hinputs', houtputs', hcheck, hsum]
    simp only [Bool.or_false, Bool.false_eq_true, if_false, not_lt.2 hle, hadd, hfee, hfee']

/-! ## Payments -/

/-- What is paid and, unless it is zero, what comes back. -/
def payment (op : OutPoint) (amount : U64) (recipient : Address) (change : U64)
    (sender : Address) : Transaction :=
  .unsigned [op] (if 0 < change then [⟨amount, recipient⟩, ⟨change, sender⟩]
    else [⟨amount, recipient⟩]) []

/-- Of the outputs of `owner` that are worth `need`, the least by value, then by
outpoint. -/
structure LeastCover (s : UtxoSet) (owner : Address) (need : Nat) (op : OutPoint)
    (prev : TxOutput) : Prop where
  unspent : s.lookup op = some prev
  owned : prev.owner = owner
  covers : need ≤ prev.value.val
  least : ∀ op' prev', s.lookup op' = some prev' → prev'.owner = owner →
    need ≤ prev'.value.val → toLex (prev.value, op) ≤ toLex (prev'.value, op')

/-- The spend applies on `s` with this fee and moves the amount: the sender is down by the
amount and the fee, the recipient up by the amount, and no other balance changes. -/
def Transfers (s : UtxoSet) (subsidy : U64) (tx : Transaction) (sender recipient : Address)
    (amount fee : U64) : Prop :=
  ∃ next, applyBlock s [tx] subsidy = .ok (next, ⟨fee, 0⟩) ∧ ∀ owner,
    next.balance owner + (if owner = sender then amount.val + fee.val else 0) =
      s.balance owner + if owner = recipient then amount.val else 0

section Payment

variable {op : OutPoint} {amount change : U64} {sender recipient : Address}

omit [Crypto] in
theorem payment_value (op : OutPoint) (recipient : Address) (change : U64) (sender : Address)
    (h : amount ≠ 0) :
    (payment op amount recipient change sender).outputs ≠ [] ∧
      (∀ o ∈ (payment op amount recipient change sender).outputs, o.value ≠ 0) ∧
      (payment op amount recipient change sender).outputValue = amount.val + change.val := by
  unfold payment Transaction.outputValue Transaction.unsigned
  by_cases hchange : 0 < change
  · simp [hchange, h, hchange.ne']
  · have hzero : change.val = 0 := Fin.val_eq_of_eq (not_lt.1 hchange |>.antisymm (Fin.zero_le _))
    simp [hchange, h, hzero]

omit [Crypto] in
/-- What an owner gets of a payment. -/
theorem payment_share (owner : Address) :
    ((payment op amount recipient change sender).outputs.map fun o =>
        if o.owner = owner then o.value.val else 0).sum =
      (if owner = recipient then amount.val else 0) + if owner = sender then change.val else 0 := by
  unfold payment Transaction.unsigned
  by_cases hchange : 0 < change
  · simp [hchange, eq_comm]
  · have hzero : change.val = 0 := Fin.val_eq_of_eq (not_lt.1 hchange |>.antisymm (Fin.zero_le _))
    simp [hchange, hzero, eq_comm]

/-- A signature changes neither what is signed nor the outputs. -/
theorem sighash_attachSignature (tx : Transaction) (i : Nat) (signature : Bytes 64) :
    (tx.attachSignature i signature).sighash = tx.sighash := by
  have hspent : (tx.attachSignature i signature).spent = tx.spent := by
    unfold Transaction.spent Transaction.attachSignature
    induction tx.inputs generalizing i with
    | nil => simp
    | cons input rest ih =>
        cases i with
        | zero => rfl
        | succ i =>
            show input.outpoint :: _ = _
            exact congrArg (input.outpoint :: ·) (ih i)
  rw [Transaction.sighash, Transaction.encodeInto_false, hspent]
  exact congrArg (fun bytes => (Crypto.blake3 bytes).val) (tx.encodeInto_false).symm

/-- A signed payment out of an unspent output of the sender does what it says exactly when
the fee fits in a block and what it creates is not unspent already. -/
theorem transfers_payment_iff {s : UtxoSet} {subsidy fee : U64} {prev : TxOutput}
    {signature : Bytes 64} (hprev : s.lookup op = some prev) (howner : prev.owner = sender)
    (hvalue : prev.value.val = amount.val + fee.val + change.val) (hamount : amount ≠ 0)
    (hverify : verify sender (payment op amount recipient change sender).sighash signature = true) :
    Transfers s subsidy
        ((payment op amount recipient change sender).attachSignature 0 signature)
        sender recipient amount fee ↔
      subsidy.val + fee.val < 2 ^ 64 ∧ ∀ created ∈
        ((payment op amount recipient change sender).attachSignature 0
          signature).event.createdKeys, created ∉ s.erase op := by
  have hpay := payment_value op recipient change sender hamount
  have hsighash := sighash_attachSignature (payment op amount recipient change sender) 0 signature
  have houtputs : ((payment op amount recipient change sender).attachSignature 0
    signature).outputs = (payment op amount recipient change sender).outputs := rfl
  have hinputs : ((payment op amount recipient change sender).attachSignature 0
    signature).inputs = [⟨op, signature⟩] := rfl
  revert hsighash houtputs hinputs
  generalize (payment op amount recipient change sender).attachSignature 0 signature = tx
  intro hsighash houtputs hinputs
  have hvalue' : prev.value.val = tx.outputValue + fee.val := by
    have := hpay.2.2
    rw [Transaction.outputValue] at this ⊢
    rw [houtputs, this]
    omega
  have hsigned : verify prev.owner tx.sighash signature = true := by
    rw [howner, hsighash]
    exact hverify
  have hregular : ∀ next fee', applyRegular s tx = .ok (next, fee') ↔
      fee' = fee ∧ Tokens.Fires s tx.event next := fun next fee' =>
    applyRegular_one_iff hinputs hprev hsigned (houtputs ▸ hpay.1) (houtputs ▸ hpay.2.1) hvalue'
  have hspend : tx.isCoinbase = false := by
    simp [Transaction.isCoinbase, hinputs]
  have hspends : tx.event.spends = [op] := by
    simp [Transaction.event, hinputs]
  constructor
  · rintro ⟨next, happly, _⟩
    rw [applyBlock_single_iff hspend] at happly
    obtain ⟨fee', hfirst, hfit, hsummary⟩ := happly
    rw [hregular] at hfirst
    rw [← hfirst.1]
    refine ⟨hfit, fun created hin => ?_⟩
    have hfresh := hfirst.2.creates_fresh created hin
    rw [hspends] at hfresh
    exact hfresh
  · rintro ⟨hfit, hfresh⟩
    have hlength : 0 + tx.outputs.length ≤ 2 ^ 32 := by
      rw [houtputs]
      unfold payment Transaction.unsigned
      split <;> simp
    have hfires : Tokens.Fires s tx.event
        (Tokens.createAll (Tokens.spendAll s tx.event.spends) tx.event.creates) := by
      refine ⟨?_, ?_, Transaction.nodup_outputsFrom hlength, ?_, rfl⟩
      · rw [hspends]
        exact List.nodup_singleton op
      · rw [hspends]
        intro op' hop'
        rw [List.mem_singleton.1 hop']
        exact Finmap.mem_of_lookup_eq_some hprev
      · rw [hspends]
        exact hfresh
    refine ⟨_, (applyBlock_single_iff hspend).2 ⟨fee, (hregular _ _).2 ⟨rfl, hfires⟩, hfit, rfl⟩,
      fun owner => ?_⟩
    have htally := hfires.tally_eq fun o => if o.owner = owner then o.value.val else 0
    rw [hspends, List.map_singleton, List.sum_singleton, Tokens.measureAt, hprev,
      tx.map_creates fun o => if o.owner = owner then o.value.val else 0, houtputs,
      payment_share, ← UtxoSet.balance_eq, ← UtxoSet.balance_eq] at htally
    have hmeasure : ((some prev).map fun o : TxOutput =>
        if o.owner = owner then o.value.val else 0).getD 0 =
        if owner = sender then prev.value.val else 0 := by
      simp [howner, eq_comm]
    rw [hmeasure] at htally
    rw [hspends]
    split_ifs at htally ⊢ <;> omega

end Payment

end Kovanica
