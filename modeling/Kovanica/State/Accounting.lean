import Kovanica.Lib.Tokens
import Kovanica.State.Refinement

/-!
# What an applied block does to the outputs

A transaction is an event on single-use tokens: it spends the outpoints of its
inputs and creates its outputs.  An applied block is a run of such events, its
regular transactions first and its coinbase last, so the laws of such runs give
conservation of value and, over a replay, the bound on the supply.

## Main results

* `applyRegular_spec`, `applyCoinbase_spec`, `applyBlock_spec`: transactions and blocks as runs
  of token events.
* `applyBlock_licensed`: every spend in such a run is signed by the owner of what it spends.
* `Applies.totalValue_le`, `totalValue_foldl_le`: a block adds at most the subsidy.
-/

namespace Kovanica

open Lib

/-! ## Transactions as events -/

namespace Transaction

/-- The outputs from index `i` on, under their outpoints. -/
def outputsFrom (id : TxId) : (i : Nat) → List TxOutput → List (OutPoint × TxOutput)
  | _, [] => []
  | i, output :: rest => (⟨id, Word.cast 32 i⟩, output) :: outputsFrom id (i + 1) rest

/-- What the transaction spends and creates, as an event on tokens.  The outpoints are the keys and
the outputs the values. -/
def event [Crypto] (tx : Transaction) : Tokens.Event OutPoint TxOutput where
  spends := tx.inputs.map TxInput.outpoint
  creates := outputsFrom tx.id 0 tx.outputs

/-- The sum of the output values, not wrapped. -/
def outputValue (tx : Transaction) : Nat := (tx.outputs.map fun o => o.value.val).sum

/-- An input of the transaction spends the output with its owner's signature. -/
def SignedFor [Crypto] (tx : Transaction) (op : OutPoint) (prev : TxOutput) : Prop :=
  ∃ input ∈ tx.inputs, input.outpoint = op ∧ verify prev.owner tx.sighash input.signature = true

theorem outputsFrom_snd (id : TxId) (i : Nat) (outputs : List TxOutput) :
    (outputsFrom id i outputs).map Prod.snd = outputs := by
  induction outputs generalizing i with
  | nil => rfl
  | cons output rest ih => rw [outputsFrom, List.map_cons, ih]

theorem outputsFrom_tx (id : TxId) (i : Nat) (outputs : List TxOutput) :
    ∀ op ∈ (outputsFrom id i outputs).map Prod.fst, op.tx = id := by
  induction outputs generalizing i with
  | nil => simp [outputsFrom]
  | cons output rest ih =>
      intro op hop
      rw [outputsFrom, List.map_cons, List.mem_cons] at hop
      rcases hop with rfl | hop
      · rfl
      · exact ih (i + 1) op hop

/-- Every outpoint names the transaction that created it. -/
theorem tx_of_mem_createdKeys [Crypto] (tx : Transaction) :
    ∀ op ∈ tx.event.createdKeys, op.tx = tx.id :=
  outputsFrom_tx tx.id 0 tx.outputs

/-- A measure of what is created is one of the outputs. -/
theorem map_creates [Crypto] (tx : Transaction) (f : TxOutput → Nat) :
    (tx.event.creates.map fun t => f t.2) = tx.outputs.map f := by
  have hsnd := outputsFrom_snd tx.id 0 tx.outputs
  rw [← congrArg (List.map f) hsnd, List.map_map]
  rfl

theorem sum_creates [Crypto] (tx : Transaction) :
    (tx.event.creates.map fun t => t.2.value.val).sum = tx.outputValue := by
  rw [outputValue, tx.map_creates fun o => o.value.val]

theorem isEmpty_spends [Crypto] (tx : Transaction) :
    tx.event.spends.isEmpty = tx.isCoinbase := by
  rw [event, isCoinbase, List.isEmpty_map]

end Transaction

theorem UtxoSet.totalValue_eq (utxo : UtxoSet) :
    utxo.totalValue = Tokens.tally (fun o => o.value.val) utxo := by
  rw [totalValue, outputs, Multiset.map_map]
  rfl

/-! ## The steps of a transaction -/

theorem sumOutputs_spec {tx : TxId} {outputs : List TxOutput} {acc sum : U64}
    (h : sumOutputs tx outputs acc = .ok sum) :
    sum.val = acc.val + (outputs.map fun o => o.value.val).sum ∧
      ∀ o ∈ outputs, o.value ≠ 0 := by
  induction outputs generalizing acc with
  | nil =>
      rw [sumOutputs, Except.ok.injEq] at h
      rw [← h]
      exact ⟨rfl, fun o ho => absurd ho List.not_mem_nil⟩
  | cons output rest ih =>
      rw [sumOutputs] at h
      split at h
      · cases h
      rename_i hzero
      split at h
      · cases h
      rename_i sum' hadd
      obtain ⟨hsum, hrest⟩ := ih h
      rw [Word.checkedAdd_eq_some] at hadd
      refine ⟨?_, fun o ho => ?_⟩
      · rw [hsum, hadd, List.map_cons, List.sum_cons, Nat.add_assoc]
      · rcases List.mem_cons.1 ho with rfl | ho
        · exact hzero
        · exact hrest o ho

theorem addOutputs_spec {tx : TxId} {i : Nat} {outputs : List TxOutput} {staging next : UtxoSet}
    (h : addOutputs tx i outputs staging = .ok next) :
    ((Transaction.outputsFrom tx i outputs).map Prod.fst).Nodup ∧
      (∀ op ∈ (Transaction.outputsFrom tx i outputs).map Prod.fst, op ∉ staging) ∧
      next = Tokens.createAll staging (Transaction.outputsFrom tx i outputs) := by
  induction outputs generalizing i staging with
  | nil =>
      rw [addOutputs, Except.ok.injEq] at h
      exact ⟨List.nodup_nil, fun op hop => absurd hop List.not_mem_nil, h.symm⟩
  | cons output rest ih =>
      rw [addOutputs] at h
      split at h
      · cases h
      rename_i hfresh
      obtain ⟨hnodup, hrest, hnext⟩ := ih h
      rw [Transaction.outputsFrom, List.map_cons]
      refine ⟨List.nodup_cons.2 ⟨fun hin => ?_, hnodup⟩, fun op hop => ?_, hnext⟩
      · exact hrest _ hin (Finmap.mem_insert.2 (.inl rfl))
      · rcases List.mem_cons.1 hop with rfl | hop
        · exact hfresh
        · exact fun hin => hrest op hop (Finmap.mem_insert.2 (.inr hin))

theorem checkInputs_spec [Crypto] {utxo : UtxoSet} {tx : TxId} {sighash : List U8} {i : Nat}
    {inputs : List TxInput} {seen : Finset OutPoint} {acc sum : U64}
    (h : checkInputs utxo tx sighash i inputs seen acc = .ok sum) :
    (inputs.map TxInput.outpoint).Nodup ∧
      (∀ op ∈ inputs.map TxInput.outpoint, op ∉ seen ∧ op ∈ utxo) ∧
      (∀ input ∈ inputs, ∀ prev, utxo.lookup input.outpoint = some prev →
        verify prev.owner sighash input.signature = true) ∧
      sum.val = acc.val + ((inputs.map TxInput.outpoint).map
        (Tokens.measureAt (fun o => o.value.val) utxo)).sum := by
  induction inputs generalizing i seen acc with
  | nil =>
      rw [checkInputs, Except.ok.injEq] at h
      rw [← h]
      exact ⟨List.nodup_nil, fun op hop => absurd hop List.not_mem_nil,
        fun input hin => absurd hin List.not_mem_nil, rfl⟩
  | cons input rest ih =>
      rw [checkInputs] at h
      split at h
      · cases h
      rename_i hunseen
      split at h
      · cases h
      rename_i prev hprev
      split at h
      · cases h
      rename_i hverify
      split at h
      · cases h
      rename_i sum' hadd
      obtain ⟨hnodup, hrest, hsigned, hsum⟩ := ih h
      rw [Word.checkedAdd_eq_some] at hadd
      rw [List.map_cons]
      refine ⟨List.nodup_cons.2 ⟨fun hin => ?_, hnodup⟩, fun op hop => ?_,
        fun input' hin prev' hprev' => ?_, ?_⟩
      · exact (hrest _ hin).1 (Finset.mem_insert_self ..)
      · rcases List.mem_cons.1 hop with rfl | hop
        · exact ⟨hunseen, Finmap.mem_of_lookup_eq_some hprev⟩
        · exact ⟨fun hin => (hrest op hop).1 (Finset.mem_insert_of_mem hin), (hrest op hop).2⟩
      · rcases List.mem_cons.1 hin with rfl | hin
        · obtain rfl := Option.some.inj (hprev.symm.trans hprev')
          simpa using hverify
        · exact hsigned input' hin prev' hprev'
      · rw [hsum, hadd, List.map_cons, List.sum_cons, Tokens.measureAt, hprev, Nat.add_assoc]
        rfl

theorem removeInputs_eq (inputs : List TxInput) (staging : UtxoSet) :
    removeInputs inputs staging = Tokens.spendAll staging (inputs.map TxInput.outpoint) := by
  rw [removeInputs, Tokens.spendAll, List.foldl_map]

/-- A regular transaction is an event, signed for what it spends; its fee is what it
spends and does not create. -/
theorem applyRegular_spec [Crypto] {staging next : UtxoSet} {tx : Transaction} {fee : U64}
    (h : applyRegular staging tx = .ok (next, fee)) :
    Tokens.Fires staging tx.event next ∧
      (∀ op ∈ tx.event.spends, ∀ prev, staging.lookup op = some prev → tx.SignedFor op prev) ∧
      next.totalValue + fee.val = staging.totalValue := by
  unfold applyRegular at h
  split at h
  · cases h
  split at h
  · cases h
  rename_i sumIn hin
  split at h
  · cases h
  rename_i sumOut hout
  split at h
  · cases h
  rename_i hconserved
  split at h
  · cases h
  rename_i added hadd
  obtain ⟨rfl, rfl⟩ := Prod.mk.inj (Except.ok.inj h)
  obtain ⟨hnodup, hlive, hsigned, hsumIn⟩ := checkInputs_spec hin
  obtain ⟨hcreates, hfresh, hnext⟩ := addOutputs_spec hadd
  rw [removeInputs_eq] at hfresh hnext
  have hfires : Tokens.Fires staging tx.event added :=
    ⟨hnodup, fun op hop => (hlive op hop).2, hcreates, hfresh, hnext⟩
  refine ⟨hfires, fun op hop prev hprev => ?_, ?_⟩
  · obtain ⟨input, hinput, rfl⟩ := List.mem_map.1 hop
    exact ⟨input, hinput, rfl, hsigned input hinput prev hprev⟩
  have htally := hfires.tally_eq fun o => o.value.val
  rw [tx.sum_creates] at htally
  have hsumOut : sumOut.val = tx.outputValue := by
    rw [(sumOutputs_spec hout).1, Transaction.outputValue]
    exact Nat.zero_add _
  have hzero : (0 : U64).val = 0 := rfl
  rw [hzero, Nat.zero_add] at hsumIn
  have hspends : tx.event.spends = tx.inputs.map TxInput.outpoint := rfl
  have hle : sumOut.val ≤ sumIn.val := Fin.le_def.1 (not_lt.1 hconserved)
  have hfee : (sumIn - sumOut).val = sumIn.val - sumOut.val := Fin.sub_val_of_le (not_lt.1 hconserved)
  rw [UtxoSet.totalValue_eq, UtxoSet.totalValue_eq, hfee]
  rw [hspends, ← hsumIn, ← hsumOut] at htally
  omega

/-- A coinbase is an event that spends nothing. -/
theorem applyCoinbase_spec [Crypto] {staging next : UtxoSet} {cb : Transaction}
    {allowed minted : U64} (hcb : cb.isCoinbase = true)
    (h : applyCoinbase staging cb allowed = .ok (next, minted)) :
    Tokens.Fires staging cb.event next ∧ next.totalValue = staging.totalValue + minted.val ∧
      minted.val = cb.outputValue ∧ minted ≤ allowed := by
  unfold applyCoinbase at h
  split at h
  · cases h
  rename_i claimed hclaimed
  split at h
  · cases h
  rename_i hallowed
  split at h
  · cases h
  rename_i added hadd
  obtain ⟨rfl, rfl⟩ := Prod.mk.inj (Except.ok.inj h)
  have hspends : cb.event.spends = [] := by
    rw [← List.isEmpty_iff, cb.isEmpty_spends]
    exact hcb
  obtain ⟨hcreates, hfresh, hnext⟩ := addOutputs_spec hadd
  have hfires : Tokens.Fires staging cb.event added := by
    refine ⟨?_, ?_, hcreates, ?_, ?_⟩
    · rw [hspends]
      exact List.nodup_nil
    · rw [hspends]
      exact fun op hop => absurd hop List.not_mem_nil
    · rw [hspends]
      exact hfresh
    · rw [hspends]
      exact hnext
  have hminted : claimed.val = cb.outputValue := by
    rw [(sumOutputs_spec hclaimed).1, Transaction.outputValue]
    exact Nat.zero_add _
  refine ⟨hfires, ?_, hminted, not_lt.1 hallowed⟩
  have htally := hfires.tally_eq fun o => o.value.val
  rw [cb.sum_creates, hspends, List.map_nil, List.sum_nil, ← hminted] at htally
  rw [UtxoSet.totalValue_eq, UtxoSet.totalValue_eq]
  exact htally

/-! ## The steps of a block -/

/-- After the first position there is no coinbase; the regular transactions run in
order and their fees add up. -/
theorem applyTxs_regular [Crypto] {i : Nat} (hi : i ≠ 0) {txs : List Transaction}
    {staging next : UtxoSet} {cb cb' : Option Transaction} {fees fees' : U64}
    (h : applyTxs i txs staging cb fees = .ok (next, cb', fees')) :
    (∀ tx ∈ txs, tx.isCoinbase = false) ∧ cb' = cb ∧
      Tokens.Licensed Transaction.event Transaction.SignedFor staging txs next ∧
      next.totalValue + fees'.val = staging.totalValue + fees.val := by
  induction txs generalizing i staging fees with
  | nil =>
      rw [applyTxs, Except.ok.injEq, Prod.mk.injEq, Prod.mk.injEq] at h
      obtain ⟨rfl, rfl, rfl⟩ := h
      exact ⟨fun tx htx => absurd htx List.not_mem_nil, rfl, .start, rfl⟩
  | cons tx rest ih =>
      rw [applyTxs] at h
      split at h
      · cases h
      rename_i hregular
      split at h
      · cases h
      rename_i staged fee hfee
      split at h
      · cases h
      rename_i fees'' hadd
      obtain ⟨hrest, hcb, hrun, htotal⟩ := ih (Nat.succ_ne_zero i) h
      obtain ⟨hfires, hsigned, hvalue⟩ := applyRegular_spec hfee
      rw [Word.checkedAdd_eq_some] at hadd
      refine ⟨fun tx' htx' => ?_, hcb, ?_, by omega⟩
      · rcases List.mem_cons.1 htx' with rfl | htx'
        · exact Bool.eq_false_iff.2 hregular
        · exact hrest tx' htx'
      · exact (Tokens.Licensed.start.step hfires hsigned).trans hrun

/-- The transactions of a block in the order they take effect: the coinbase
last. -/
def effectOrder (txs : List Transaction) : List Transaction :=
  (txs.filter fun tx => !tx.isCoinbase) ++ txs.filter fun tx => tx.isCoinbase

theorem effectOrder_perm (txs : List Transaction) : (effectOrder txs).Perm txs := by
  have hsplit := List.filter_append_perm (fun tx : Transaction => !tx.isCoinbase) txs
  simp only [Bool.not_not] at hsplit
  exact hsplit

/-- The value the coinbases of a list claim, not wrapped. -/
def coinbaseValue (txs : List Transaction) : Nat :=
  ((txs.filter fun tx => tx.isCoinbase).map Transaction.outputValue).sum

/-- What applying a block does: the event of each transaction, the regular ones first, with the
fees and what is minted as sums that have not wrapped. -/
structure BlockEffect [Crypto] (utxo : UtxoSet) (txs : List Transaction) (subsidy : U64)
    (next : UtxoSet) (s : BlockSummary) : Prop where
  run : Tokens.Run utxo ((effectOrder txs).map Transaction.event) next
  coinbase_le : (txs.filter fun tx => tx.isCoinbase).length ≤ 1
  conserved : next.totalValue + s.fees.val = utxo.totalValue + s.minted.val
  minted_eq : s.minted.val = coinbaseValue txs
  minted_le : s.minted.val ≤ subsidy.val + s.fees.val
  allowed_lt : subsidy.val + s.fees.val < 2 ^ 64

private theorem blockEffect_of_last [Crypto] {utxo staging next : UtxoSet}
    {txs regular : List Transaction} {coinbase : Option Transaction}
    {subsidy fees allowed minted : U64} (htxs : txs = coinbase.toList ++ regular)
    (hcb : ∀ cb ∈ coinbase, cb.isCoinbase = true)
    (hregular : ∀ tx ∈ regular, tx.isCoinbase = false)
    (hrun : Tokens.Licensed Transaction.event Transaction.SignedFor utxo regular staging)
    (htotal : staging.totalValue + fees.val = utxo.totalValue)
    (hallowed : allowed.val = subsidy.val + fees.val)
    (hlast : applyLast staging coinbase allowed = .ok (next, minted)) :
    BlockEffect utxo txs subsidy next ⟨fees, minted⟩ ∧
      Tokens.Licensed Transaction.event Transaction.SignedFor utxo (effectOrder txs) next := by
  have hkeep : regular.filter (fun tx => !tx.isCoinbase) = regular :=
    List.filter_eq_self.2 fun tx htx => by rw [hregular tx htx]; rfl
  have hdrop : regular.filter (fun tx => tx.isCoinbase) = [] :=
    List.filter_eq_nil_iff.2 fun tx htx => by rw [hregular tx htx]; exact Bool.false_ne_true
  have hlt : subsidy.val + fees.val < 2 ^ 64 := hallowed ▸ allowed.isLt
  cases coinbase with
  | none =>
      obtain ⟨rfl, rfl⟩ := Prod.mk.inj (Except.ok.inj hlast)
      rw [Option.toList_none, List.nil_append] at htxs
      subst htxs
      have horder : effectOrder txs = txs := by
        rw [effectOrder, hkeep, hdrop, List.append_nil]
      rw [← horder] at hrun
      refine ⟨⟨hrun.run, ?_, htotal, ?_, Nat.zero_le _, hlt⟩, hrun⟩
      · rw [hdrop]
        exact Nat.zero_le _
      · rw [coinbaseValue, hdrop]
        rfl
  | some cb =>
      have hcb := hcb cb rfl
      obtain ⟨hfires, hvalue, hclaimed, hle⟩ := applyCoinbase_spec hcb hlast
      rw [Option.toList_some, List.singleton_append] at htxs
      subst htxs
      have hle : minted.val ≤ allowed.val := hle
      have horder : effectOrder (cb :: regular) = regular ++ [cb] := by
        rw [effectOrder, List.filter_cons_of_neg (by simp [hcb]), List.filter_cons_of_pos hcb,
          hkeep, hdrop]
      have hspends : cb.event.spends = [] := by
        rw [← List.isEmpty_iff, cb.isEmpty_spends]
        exact hcb
      have hlicensed := hrun.step hfires fun op hop => by
        rw [hspends] at hop
        exact absurd hop List.not_mem_nil
      rw [← horder] at hlicensed
      refine ⟨⟨hlicensed.run, ?_, ?_, ?_, by simp only; omega, hlt⟩, hlicensed⟩
      · rw [List.filter_cons_of_pos hcb, hdrop, List.length_singleton]
      · simp only
        omega
      · rw [coinbaseValue, List.filter_cons_of_pos hcb, hdrop, List.map_singleton,
          List.sum_singleton]
        exact hclaimed

/-- The transactions of a block: a coinbase at most in front, then regular ones
that run in order. -/
theorem applyTxs_spec [Crypto] {txs : List Transaction} {utxo staging : UtxoSet}
    {coinbase : Option Transaction} {fees : U64}
    (h : applyTxs 0 txs utxo none 0 = .ok (staging, coinbase, fees)) :
    ∃ regular, txs = coinbase.toList ++ regular ∧ (∀ cb ∈ coinbase, cb.isCoinbase = true) ∧
      (∀ tx ∈ regular, tx.isCoinbase = false) ∧
      Tokens.Licensed Transaction.event Transaction.SignedFor utxo regular staging ∧
      staging.totalValue + fees.val = utxo.totalValue := by
  have hzero : (0 : U64).val = 0 := rfl
  have hnone : ∀ cb : Transaction, cb ∈ (none : Option Transaction) → cb.isCoinbase = true :=
    fun cb hcb => absurd hcb (Option.not_mem_none cb)
  cases txs with
  | nil =>
      rw [applyTxs, Except.ok.injEq, Prod.mk.injEq, Prod.mk.injEq] at h
      obtain ⟨rfl, rfl, rfl⟩ := h
      exact ⟨[], rfl, hnone, fun tx htx => absurd htx List.not_mem_nil, .start, rfl⟩
  | cons tx rest =>
      rw [applyTxs] at h
      split at h
      · rename_i hcb
        rw [if_neg (not_not.2 rfl)] at h
        obtain ⟨hregular, rfl, hrun, htotal⟩ := applyTxs_regular (Nat.succ_ne_zero 0) h
        exact ⟨rest, rfl, fun cb hin => Option.some.inj hin ▸ hcb, hregular, hrun, htotal⟩
      · rename_i hregular
        split at h
        · cases h
        rename_i staged fee hfee
        split at h
        · cases h
        rename_i fees' hadd
        obtain ⟨hrest, rfl, hrun, htotal⟩ := applyTxs_regular (Nat.succ_ne_zero 0) h
        obtain ⟨hfires, hsigned, hvalue⟩ := applyRegular_spec hfee
        rw [Word.checkedAdd_eq_some] at hadd
        refine ⟨tx :: rest, rfl, hnone, fun tx' htx' => ?_,
          (Tokens.Licensed.start.step hfires hsigned).trans hrun, by omega⟩
        rcases List.mem_cons.1 htx' with rfl | htx'
        · exact Bool.eq_false_iff.2 hregular
        · exact hrest tx' htx'

private theorem applyBlock_cases [Crypto] {utxo next : UtxoSet} {txs : List Transaction}
    {subsidy : U64} {s : BlockSummary} (h : applyBlock utxo txs subsidy = .ok (next, s)) :
    BlockEffect utxo txs subsidy next s ∧
      Tokens.Licensed Transaction.event Transaction.SignedFor utxo (effectOrder txs) next := by
  unfold applyBlock at h
  split at h
  · cases h
  rename_i staging coinbase fees htxs
  split at h
  · cases h
  rename_i allowed hallowed
  split at h
  · cases h
  rename_i last minted hlast
  obtain ⟨rfl, rfl⟩ := Prod.mk.inj (Except.ok.inj h)
  rw [Word.checkedAdd_eq_some] at hallowed
  obtain ⟨regular, hsplit, hcb, hregular, hrun, htotal⟩ := applyTxs_spec htxs
  exact blockEffect_of_last hsplit hcb hregular hrun htotal hallowed hlast

/-- An applied block is a run of events that conserves value. -/
theorem applyBlock_spec [Crypto] {utxo next : UtxoSet} {txs : List Transaction} {subsidy : U64}
    {s : BlockSummary} (h : applyBlock utxo txs subsidy = .ok (next, s)) :
    BlockEffect utxo txs subsidy next s := (applyBlock_cases h).1

/-- Every spend of an applied block is signed for. -/
theorem applyBlock_licensed [Crypto] {utxo next : UtxoSet} {txs : List Transaction}
    {subsidy : U64} {s : BlockSummary} (h : applyBlock utxo txs subsidy = .ok (next, s)) :
    Tokens.Licensed Transaction.event Transaction.SignedFor utxo (effectOrder txs) next :=
  (applyBlock_cases h).2

/-! ## The supply -/

section Supply

variable [Crypto] {d : DagView} {subsidy : U64}

/-- An applied block adds at most the subsidy. -/
theorem Applies.totalValue_le {state next : UtxoSet} {id : BlockId}
    (h : Applies d subsidy state id next) :
    next.totalValue ≤ state.totalValue + subsidy.val := by
  obtain ⟨txs, s, _, happly⟩ := h
  have heffect := applyBlock_spec happly
  have hconserved := heffect.conserved
  have hminted := heffect.minted_le
  omega

/-- A list of blocks adds at most the subsidy for each that applies. -/
theorem totalValue_foldl_le (state : UtxoSet) (ids : List BlockId) :
    (UtxoSet.totalValue (ids.foldl (applyStored d subsidy) state)) ≤
      state.totalValue + subsidy.val * (d.appliedFrom subsidy state ids).length := by
  induction ids generalizing state with
  | nil => simp [DagView.appliedFrom]
  | cons id rest ih =>
      rw [List.foldl_cons]
      by_cases happlies : ∃ next, Applies d subsidy state id next
      · obtain ⟨next, happlies⟩ := happlies
        have hrest := ih next
        have hhead := happlies.totalValue_le
        rw [applyStored_of_applies happlies, DagView.appliedFrom_cons_of_applies happlies,
          List.length_cons, Nat.mul_succ]
        omega
      · have hnot := not_exists.1 happlies
        rw [applyStored_of_not_applies hnot, DagView.appliedFrom_cons_of_not_applies hnot]
        exact ih state

theorem totalValue_replay_le (ids : List BlockId) :
    (d.replay subsidy ids).totalValue ≤ subsidy.val * (d.applied subsidy ids).length := by
  have hle : (d.replay subsidy ids).totalValue ≤ _ := totalValue_foldl_le ∅ ids
  have hempty : UtxoSet.totalValue ∅ = 0 := rfl
  rw [hempty, Nat.zero_add] at hle
  exact hle

end Supply

/-- Value is conserved and the supply bounded: an applied block mints at most the
subsidy and its fees, with no sum wrapped, and no view of a reachable ledger holds
more than the subsidy times the blocks applied in it. -/
theorem value_conserved_and_supply_bounded [Crypto] :
    (∀ utxo txs subsidy next s, applyBlock utxo txs subsidy = .ok (next, s) →
      next.totalValue + s.fees.val = utxo.totalValue + s.minted.val ∧
        s.minted.val ≤ subsidy.val + s.fees.val ∧ subsidy.val + s.fees.val < 2 ^ 64 ∧
        s.minted.val = coinbaseValue txs) ∧
      ∀ l : Ledger, l.Reachable →
        (∀ ord state, l.ledgerState ord = some state → state.totalValue ≤
          l.subsidy.val * (applyDag ord l.dag.toDagView l.subsidy).accepted.length) ∧
        ∀ x state, l.state x = some state → state.totalValue ≤
          l.subsidy.val * (l.dag.applied l.subsidy (l.dag.order x)).length := by
  refine ⟨fun utxo txs subsidy next s happly => ?_, fun l hl => ⟨fun ord state hstate => ?_,
    fun x state hstate => ?_⟩⟩
  · have heffect := applyBlock_spec happly
    exact ⟨heffect.conserved, heffect.minted_le, heffect.allowed_lt, heffect.minted_eq⟩
  · rw [Ledger.ledgerState_eq hl.wellFormed, Option.map_eq_some_iff] at hstate
    obtain ⟨_, _, rfl⟩ := hstate
    rw [applyDag_accepted]
    exact totalValue_replay_le _
  · rw [(hl.wellFormed.state_eq x state hstate).2]
    exact totalValue_replay_le _

end Kovanica
