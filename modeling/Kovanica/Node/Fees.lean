import Kovanica.Node.Extend
import Kovanica.Reference
import Kovanica.State.Origin

/-!
# The fees a miner collects

`produce_block` picks transactions on a working state, one after the other, and then adds
up their fees by the state it began with.  A fee is missed where a transaction spends what
an earlier pick has created: the block applies all the same, since a coinbase may claim
less than it is allowed.

## Main results

* `feeOf_val`, `feeOf_le`: the fee the miner counts for a pick, which is never more than the fee.
* `Packs.sum_feeOf`: when the sum of them misses nothing.
* `issuance_le`: issuance never exceeds the subsidy.
-/

namespace Kovanica

open Lib

section Fees

variable [Crypto]

/-! ## The fee of one transaction -/

/-- What an output counts for. -/
def worth (o : TxOutput) : Nat := o.value.val

/-- What an applied spend takes in is what it gives out and its fee, and fits 64 bits. -/
theorem applyRegular_value {w next : UtxoSet} {tx : Transaction} {fee : U64}
    (h : applyRegular w tx = .ok (next, fee)) :
    (tx.event.spends.map (Tokens.measureAt worth w)).sum = tx.outputValue + fee.val ∧
      tx.outputValue + fee.val < 2 ^ 64 ∧ ∀ o ∈ tx.outputs, o.value ≠ 0 := by
  unfold applyRegular at h
  split at h
  · cases h
  split at h
  · cases h
  rename_i sumIn hin
  split at h
  · cases h
  rename_i sumOut hout
  split at h
  · cases h
  rename_i hconserved
  split at h
  · cases h
  obtain ⟨_, rfl⟩ := Prod.mk.inj (Except.ok.inj h)
  obtain ⟨_, _, _, hsumIn⟩ := checkInputs_spec hin
  obtain ⟨hsumOut, hne⟩ := sumOutputs_spec hout
  have hzero : (0 : U64).val = 0 := rfl
  have hfee : (sumIn - sumOut).val = sumIn.val - sumOut.val :=
    Fin.sub_val_of_le (not_lt.1 hconserved)
  have hle : sumOut.val ≤ sumIn.val := Fin.le_def.1 (not_lt.1 hconserved)
  have hlt := sumIn.isLt
  rw [hzero, Nat.zero_add] at hsumIn hsumOut
  have hvalue : sumOut.val = tx.outputValue := hsumOut
  have hspends : (tx.event.spends.map (Tokens.measureAt worth w)).sum = sumIn.val := hsumIn.symm
  exact ⟨by omega, by omega, hne⟩

/-- `fee_of` without its accumulators. -/
theorem feeOf_val (state : UtxoSet) (tx : Transaction) :
    (feeOf state tx).val =
      min (tx.event.spends.map (Tokens.measureAt worth state)).sum (2 ^ 64 - 1) -
        tx.outputValue % 2 ^ 64 := by
  have hvalue : ∀ input : TxInput, Tokens.measureAt worth state input.outpoint =
      (((state.lookup input.outpoint).map TxOutput.value).getD (0 : U64)).val := by
    intro input
    rw [Tokens.measureAt]
    cases state.lookup input.outpoint with
    | none => rfl
    | some prev => rfl
  have hfee : feeOf state tx = Word.saturatingSub
      (tx.inputs.foldl (fun acc input => Word.saturatingAdd acc
        (((state.lookup input.outpoint).map TxOutput.value).getD (0 : U64))) 0)
      (tx.outputs.foldl (fun acc output => acc + output.value) 0) := by
    refine congrArg (fun step => Word.saturatingSub (tx.inputs.foldl step 0)
      (tx.outputs.foldl (fun acc output => acc + output.value) 0)) ?_
    funext acc input
    cases state.lookup input.outpoint with
    | some prev => rfl
    | none =>
        have hlt := acc.isLt
        apply Fin.ext
        show acc.val = min (acc.val + 0) (2 ^ 64 - 1)
        omega
  have hzero : (0 : U64).val = 0 := rfl
  have hspends : tx.event.spends.map (Tokens.measureAt worth state) = tx.inputs.map fun input =>
      (((state.lookup input.outpoint).map TxOutput.value).getD (0 : U64)).val := by
    simp only [Transaction.event, List.map_map]
    exact List.map_congr_left fun input _ => hvalue input
  rw [hfee, Word.saturatingSub_val, Word.val_foldl_saturatingAdd, Word.val_foldl_add_mod, hzero,
    Nat.zero_add, Nat.zero_add, hspends]
  rfl

/-- By an earlier state a fee is at most what it is when the transaction applies, and it
is the same exactly when there is none or every output that is spent was there already. -/
theorem feeOf_le {frozen w next : UtxoSet} {tx : Transaction} {fee : U64}
    (hcons : Tokens.Consistent worth frozen w) (h : applyRegular w tx = .ok (next, fee)) :
    (feeOf frozen tx).val ≤ fee.val ∧
      ((feeOf frozen tx).val = fee.val ↔ fee ≠ 0 → ∀ op ∈ tx.event.spends, op ∈ frozen) := by
  obtain ⟨hsum, hfit, _⟩ := applyRegular_value h
  have hlive := (applyRegular_spec h).1.spends_live
  obtain ⟨hle, hiff⟩ := hcons.sum_le hlive
  have hzero : fee ≠ 0 ↔ fee.val ≠ 0 := Fin.val_ne_zero_iff.symm
  rw [feeOf_val, Nat.mod_eq_of_lt (by omega), ← hiff, hzero]
  constructor
  · omega
  · constructor
    · intro heq hne
      omega
    · intro himp
      by_cases hne : fee.val = 0
      · omega
      · have := himp hne
        omega

/-! ## The fees of a list -/

/-- As the spends of the list apply one after the other, from `w` on, each that pays a fee
spends only outputs of `frozen`. -/
def FeesSeen (frozen : UtxoSet) : UtxoSet → List Transaction → Prop
  | _, [] => True
  | w, tx :: rest => ∀ next fee, applyRegular w tx = .ok (next, fee) →
      (fee ≠ 0 → ∀ op ∈ tx.inputs.map TxInput.outpoint, op ∈ frozen) ∧ FeesSeen frozen next rest

instance decidableFeesSeen (frozen : UtxoSet) :
    (w : UtxoSet) → (txs : List Transaction) → Decidable (FeesSeen frozen w txs)
  | _, [] => .isTrue trivial
  | w, tx :: rest =>
      match h : applyRegular w tx with
      | .error _ => .isTrue fun _ _ hok => nomatch h.symm.trans hok
      | .ok (next, fee) =>
          have := decidableFeesSeen frozen next rest
          decidable_of_iff ((fee ≠ 0 → ∀ op ∈ tx.inputs.map TxInput.outpoint, op ∈ frozen) ∧
              FeesSeen frozen next rest)
            ⟨fun hseen next' fee' hok => by
              obtain ⟨rfl, rfl⟩ := Prod.mk.inj (Except.ok.inj (h.symm.trans hok))
              exact hseen, fun hseen => hseen next fee h⟩

/-- The fees of a list that packs, by an earlier state. -/
theorem Packs.sum_feeOf {frozen w mid : UtxoSet} {txs : List Transaction} {fees : List U64}
    (h : Packs w txs fees mid) (hcons : Tokens.Consistent worth frozen w)
    (hsame : ∀ tx ∈ txs, ∀ op output, frozen.lookup op = some output →
      op ∈ tx.event.createdKeys → (op, output) ∈ tx.event.creates) :
    (txs.map fun tx => (feeOf frozen tx).val).sum ≤ sumOf fees ∧
      ((txs.map fun tx => (feeOf frozen tx).val).sum = sumOf fees ↔ FeesSeen frozen w txs) := by
  induction h with
  | nil => simp [FeesSeen]
  | @cons w next mid tx txs fee fees hfirst _ ih =>
      obtain ⟨hle, hiff⟩ := feeOf_le hcons hfirst
      have hpos : ∀ t ∈ tx.event.creates, 0 < worth t.2 := by
        intro t ht
        obtain ⟨i, hi, _⟩ := Transaction.mem_creates.1 ht
        have hne := (applyRegular_value hfirst).2.2 t.2 (List.mem_of_getElem? hi)
        exact Nat.pos_of_ne_zero (Fin.val_ne_zero_iff.2 hne)
      obtain ⟨hle', hiff'⟩ := ih
        (hcons.fires (applyRegular_spec hfirst).1 hpos (hsame tx (List.mem_cons_self ..)))
        fun tx htx => hsame tx (List.mem_cons_of_mem _ htx)
      have hseen : FeesSeen frozen w (tx :: txs) ↔
          (fee ≠ 0 → ∀ op ∈ tx.inputs.map TxInput.outpoint, op ∈ frozen) ∧
            FeesSeen frozen next txs := by
        constructor
        · intro h
          exact h next fee hfirst
        · intro h next' fee' hfirst'
          obtain ⟨rfl, rfl⟩ := Prod.mk.inj (Except.ok.inj (hfirst.symm.trans hfirst'))
          exact h
      rw [hseen, ← hiff', List.map_cons, List.sum_cons, sumOf_cons]
      have hspends : tx.event.spends = tx.inputs.map TxInput.outpoint := rfl
      rw [← hspends, ← hiff]
      omega

/-! ## The coinbase of a produced block -/

namespace Node

variable {n n' : Node} {env : Env} {l : Ledger} {state : UtxoSet}

omit [Crypto] in
/-- Issuance never exceeds the subsidy. -/
theorem issuance_le (hl : n.ledger = some l) : n.issuance.val ≤ l.subsidy.val := by
  simp only [issuance, hl, issuanceAt]
  split
  · exact Nat.zero_le _
  · rw [Word.cast_val]
    exact (Nat.mod_le _ _).trans (Nat.shiftRight_le _ _)

/-- The coinbase of `issuance_txs` for a miner, if there is anything to mint. -/
def rewardTo (n : Node) (miner : Address) (timestampMs extraFees : U64) : Option Transaction :=
  if Word.saturatingAdd n.issuance extraFees = 0 then none
  else some (.coinbase [⟨Word.saturatingAdd n.issuance extraFees, miner⟩]
    (toLeBytes 8 timestampMs.val))

/-- What `issuance_txs` consists of. -/
def reward (n : Node) (timestampMs extraFees : U64) : Option Transaction :=
  n.miner.bind fun miner => n.rewardTo miner timestampMs extraFees

omit [Crypto] in
theorem issuanceTxs_eq (n : Node) (timestampMs extraFees : U64) :
    n.issuanceTxs timestampMs extraFees = (n.reward timestampMs extraFees).toList := by
  unfold issuanceTxs reward
  cases n.miner with
  | none => rfl
  | some miner =>
      by_cases htotal : Word.saturatingAdd n.issuance extraFees = 0
      · simp [rewardTo, htotal]
      · simp [rewardTo, htotal]

omit [Crypto] in
theorem mem_issuanceTxs {timestampMs extraFees : U64} {cb : Transaction} :
    cb ∈ n.issuanceTxs timestampMs extraFees ↔ cb ∈ n.reward timestampMs extraFees := by
  rw [issuanceTxs_eq, Option.mem_toList]
  rfl

omit [Crypto] in
theorem mem_reward {timestampMs extraFees : U64} {cb : Transaction} :
    cb ∈ n.reward timestampMs extraFees ↔ ∃ miner, n.miner = some miner ∧
      Word.saturatingAdd n.issuance extraFees ≠ 0 ∧ cb =
        .coinbase [⟨Word.saturatingAdd n.issuance extraFees, miner⟩]
          (toLeBytes 8 timestampMs.val) := by
  simp only [reward, rewardTo, Option.mem_def, Option.bind_eq_some_iff]
  constructor
  · intro ⟨miner, hminer, hcb⟩
    split at hcb
    · cases hcb
    · rename_i hne
      exact ⟨miner, hminer, hne, (Option.some.inj hcb).symm⟩
  · intro ⟨miner, hminer, hne, hcb⟩
    rw [hcb]
    exact ⟨miner, hminer, if_neg hne⟩

omit [Crypto] in
theorem isCoinbase_reward {timestampMs extraFees : U64} :
    ∀ cb ∈ n.reward timestampMs extraFees, cb.isCoinbase = true := by
  intro cb hcb
  obtain ⟨_, _, _, hcb⟩ := mem_reward.1 hcb
  rw [hcb]
  rfl

theorem selected_spends (hn : n.Reachable) : ∀ tx ∈ n.selected env l state, tx.isCoinbase = false :=
  fun _ htx => hn.invariant.mempool.spend_of_mem_ordered
    ((selectValid_sublist _ _ _).subset htx)

/-- What the miner is told the fees are worth, against what they are. -/
theorem selectedFees_le (hl : l.Unbounded) (hstate : l.ledgerState env.ord = some state)
    (hapart : l.IdsApart (n.selected env l state)) {fees : List U64} {mid : UtxoSet}
    (hpacks : Packs state (n.selected env l state) fees mid) (hfit : sumOf fees < 2 ^ 64) :
    (n.selectedFees env l state).val ≤ sumOf fees ∧
      ((n.selectedFees env l state).val = sumOf fees ↔
        FeesSeen state state (n.selected env l state)) := by
  have horigin := fun (op : OutPoint) (output : TxOutput)
      (houtput : state.lookup op = some output) => hapart.origin hl hstate houtput
  have hcons : Tokens.Consistent worth state state := by
    intro op output houtput
    refine ⟨Nat.pos_of_ne_zero (Fin.val_ne_zero_iff.2 (horigin op output houtput).1), ?_⟩
    intro output' houtput'
    exact Option.some.inj (houtput'.symm.trans houtput)
  have hsum := hpacks.sum_feeOf hcons fun tx htx op output houtput =>
    (horigin op output houtput).2 tx htx
  have hzero : (0 : U64).val = 0 := rfl
  have hval : (n.selectedFees env l state).val =
      ((n.selected env l state).map fun tx => (feeOf state tx).val).sum := by
    rw [selectedFees, Word.val_foldl_add, hzero, Nat.zero_add]
    rw [hzero, Nat.zero_add]
    exact Nat.lt_of_le_of_lt hsum.1 hfit
  rw [hval]
  exact hsum

/-- The coinbase of a produced block collects issuance and all fees if and only if each
picked transaction that pays a fee spends only outputs of the ledger state. -/
theorem produceBlock_collects_iff (hn : n.Reachable) (hl : n.ledger = some l) {miner : Address}
    (hminer : n.miner = some miner) (hstate : l.ledgerState env.ord = some state)
    (hapart : l.IdsApart (n.selected env l state)) {id : BlockId}
    (h : n.produceBlock env = .ok (some id, n')) :
    ∃ txs next summary, Built l n' state id txs (next, summary) ∧
      ((∀ total : U64, total ≠ 0 → total.val = n.issuance.val + summary.fees.val →
          ∃ coinbase rest, txs = coinbase :: rest ∧ coinbase.isCoinbase = true ∧
            coinbase.outputs = [⟨total, miner⟩]) ↔
        FeesSeen state state (n.selected env l state)) := by
  have hplain := hn.plain hl
  obtain ⟨_, hextend⟩ := (produceBlock_some_iff hl hstate).1 h
  obtain ⟨⟨next, summary⟩, hbuilt⟩ := extendTips_built hplain.unbounded hstate hextend
  refine ⟨_, next, summary, hbuilt, ?_⟩
  have happly := hbuilt.applies
  rw [issuanceTxs_eq] at happly ⊢
  obtain ⟨fees, mid, allowed, hpacks, hsummary, hallowed, _⟩ :=
    (applyBlock_spends_iff isCoinbase_reward (selected_spends hn)).1 happly
  have hlt := allowed.isLt
  have hissuance := issuance_le hl
  obtain ⟨hle, hiff⟩ := selectedFees_le hplain.unbounded hstate hapart hpacks (by omega)
  rw [← hiff, hsummary]
  have htotal : (Word.saturatingAdd n.issuance (n.selectedFees env l state)).val =
      n.issuance.val + (n.selectedFees env l state).val := by
    rw [Word.saturatingAdd_val]
    omega
  constructor
  · intro hcollects
    by_cases hzero : n.issuance.val + sumOf fees = 0
    · omega
    -- the total is not zero, so a coinbase claims it
    obtain ⟨cb, rest, htxs, hcb, houtputs⟩ :=
      hcollects ⟨n.issuance.val + sumOf fees, by omega⟩ (Fin.ne_of_val_ne hzero) rfl
    cases hreward : n.reward (n.tipsTimestamp env l) (n.selectedFees env l state) with
    | none =>
        rw [hreward, Option.toList_none, List.nil_append] at htxs
        have hspend := selected_spends hn cb (by rw [htxs]; exact List.mem_cons_self ..)
        rw [hcb] at hspend
        cases hspend
    | some cb' =>
        obtain ⟨_, _, _, hcb'⟩ := mem_reward.1 hreward
        rw [hreward, Option.toList_some, List.singleton_append] at htxs
        rw [← (List.cons.inj htxs).1, hcb'] at houtputs
        have hvalue := congrArg TxOutput.value (List.cons.inj houtputs).1
        have hval := congrArg Fin.val hvalue
        simp only [htotal] at hval
        omega
  · intro hfees total hne hval
    have heq : Word.saturatingAdd n.issuance (n.selectedFees env l state) = total := by
      apply Fin.ext
      rw [htotal, hval, hfees]
    have hmem : _ ∈ n.reward (n.tipsTimestamp env l) (n.selectedFees env l state) :=
      mem_reward.2 ⟨miner, hminer, heq ▸ hne, rfl⟩
    rw [Option.mem_def.1 hmem, heq]
    exact ⟨_, _, rfl, rfl, rfl⟩

end Node

end Fees

/-! ## Two pending transactions, one out of the other -/

namespace Node.Chained

open Reference (founder)
open scoped Passing
open Passing (pass)

/-- A fee of one. -/
def first : Transaction := pass ⟨(genesisCoinbase 10 1).id, 0⟩ 9

/-- A fee of two, out of what the first leaves. -/
def second : Transaction := pass ⟨first.id, 0⟩ 7

/-- A node that mines for the founder, with these pending, before and after it produces a
block. -/
def trial (pending : List Transaction) : Option (Node × Ledger × UtxoSet × BlockId × Node) := do
  let (_, n) ← (Node.new.genesis ⟨.sorted, 0⟩ 3 10 10 1).toOption
  let n ← pending.foldlM (fun (n : Node) tx => (n.submitTx tx).toOption.map Prod.snd) n
  let l ← n.ledger
  let state ← l.ledgerState .sorted
  let (produced, n') ← (n.produceBlock ⟨.sorted, 0⟩).toOption
  let id ← produced
  return (n, l, state, id, n')

theorem reachable_of_submit {pending : List Transaction} {n n' : Node} (hn : n.Reachable)
    (h : pending.foldlM (fun (n : Node) tx => (n.submitTx tx).toOption.map Prod.snd) n =
      some n') : n'.Reachable := by
  induction pending generalizing n with
  | nil =>
      rw [List.foldlM_nil] at h
      exact Option.some.inj h ▸ hn
  | cons tx rest ih =>
      rw [List.foldlM_cons, Option.bind_eq_bind, Option.bind_eq_some_iff] at h
      obtain ⟨n₁, hfirst, hrest⟩ := h
      obtain ⟨⟨id, n₂⟩, hsubmit, rfl⟩ := Option.map_eq_some_iff.1 hfirst
      exact ih (hn.submitTx (ok_of_toOption hsubmit)) hrest

theorem trial_spec {pending : List Transaction} {n n' : Node} {l : Ledger} {state : UtxoSet}
    {id : BlockId} (h : trial pending = some (n, l, state, id, n')) :
    n.Reachable ∧ n.ledger = some l ∧ l.ledgerState .sorted = some state ∧
      n.produceBlock ⟨.sorted, 0⟩ = .ok (some id, n') := by
  simp only [trial, Option.bind_eq_bind, Option.bind_eq_some_iff] at h
  obtain ⟨⟨r, n₀⟩, hgenesis, n₁, hsubmit, l', hl, state', hstate, ⟨produced, n₂⟩, hproduce, id',
    hid, heq⟩ := h
  obtain ⟨rfl, rfl, rfl, rfl, rfl⟩ :
      n₁ = n ∧ l' = l ∧ state' = state ∧ id' = id ∧ n₂ = n' := by
    simpa using heq
  have hproduced : produced = some id' := hid
  rw [hproduced] at hproduce
  exact ⟨reachable_of_submit (.genesis .new (ok_of_toOption hgenesis)) hsubmit, hl, hstate,
    ok_of_toOption hproduce⟩

/-- The first of the two on its own: its fee is collected. -/
theorem produceBlock_collects_iff_one : ∃ n n' l state id txs next summary, Reachable n ∧
    n.ledger = some l ∧ n.produceBlock ⟨.sorted, 0⟩ = .ok (some id, n') ∧
    Built l n' state id txs (next, summary) ∧
    ∀ total : U64, total ≠ 0 → total.val = n.issuance.val + summary.fees.val →
      ∃ coinbase rest, txs = coinbase :: rest ∧ coinbase.isCoinbase = true ∧
        coinbase.outputs = [⟨total, founder⟩] := by
  have hcheck : (trial [first]).any (fun (n, l, state, _) => decide (n.miner = some founder ∧
      l.IdsApart (n.selected ⟨.sorted, 0⟩ l state) ∧
      FeesSeen state state (n.selected ⟨.sorted, 0⟩ l state))) = true := by
    decide +kernel
  obtain ⟨⟨n, l, state, id, n'⟩, htrial, hdec⟩ := Option.any_eq_true _ _ |>.1 hcheck
  obtain ⟨hn, hl, hstate, hproduce⟩ := trial_spec htrial
  obtain ⟨hminer, hapart, hseen⟩ := of_decide_eq_true hdec
  obtain ⟨txs, next, summary, hbuilt, hcollects⟩ :=
    produceBlock_collects_iff hn hl hminer hstate hapart hproduce
  exact ⟨n, n', l, state, id, txs, next, summary, hn, hl, hproduce, hbuilt, hcollects.2 hseen⟩

/-- Both of them: the fees are three, and the coinbase claims one. -/
theorem produceBlock_misses_fee : ∃ n n' l state id txs next summary total, Reachable n ∧
    n.ledger = some l ∧ n.miner = some founder ∧
    n.produceBlock ⟨.sorted, 0⟩ = .ok (some id, n') ∧
    Built l n' state id txs (next, summary) ∧ total ≠ 0 ∧
    total.val = n.issuance.val + summary.fees.val ∧
    ¬ ∃ coinbase rest, txs = coinbase :: rest ∧ coinbase.isCoinbase = true ∧
      coinbase.outputs = [⟨total, founder⟩] := by
  have hcheck : (trial [first, second]).any (fun (n, l, state, _) =>
      decide (n.miner = some founder ∧ n.selected ⟨.sorted, 0⟩ l state = [first, second]) &&
      let txs := n.issuanceTxs (n.tipsTimestamp ⟨.sorted, 0⟩ l)
        (n.selectedFees ⟨.sorted, 0⟩ l state) ++ n.selected ⟨.sorted, 0⟩ l state
      (applyBlock state txs l.subsidy).toOption.any fun applied =>
        decide (13 = n.issuance.val + applied.2.fees.val ∧
          txs.head?.map Transaction.outputs = some [⟨11, founder⟩])) = true := by
    decide +kernel
  obtain ⟨⟨n, l, state, id, n'⟩, htrial, hboth⟩ := Option.any_eq_true _ _ |>.1 hcheck
  obtain ⟨hn, hl, hstate, hproduce⟩ := trial_spec htrial
  obtain ⟨hdec, happlies⟩ := Bool.and_eq_true_iff.1 hboth
  obtain ⟨_, hextend⟩ := (produceBlock_some_iff hl hstate).1 hproduce
  obtain ⟨⟨next, summary⟩, hbuilt⟩ := extendTips_built (hn.plain hl).unbounded hstate hextend
  obtain ⟨applied, happlied, hdec'⟩ := Option.any_eq_true _ _ |>.1 happlies
  obtain rfl := Except.ok.inj (hbuilt.applies.symm.trans (ok_of_toOption happlied))
  obtain ⟨htotal, hhead⟩ := of_decide_eq_true hdec'
  refine ⟨n, n', l, state, id, _, next, summary, 13, hn, hl, (of_decide_eq_true hdec).1, hproduce,
    hbuilt, by decide, htotal, ?_⟩
  rintro ⟨coinbase, rest, htxs, _, houtputs⟩
  rw [htxs, List.head?_cons, Option.map_some, houtputs] at hhead
  have hvalue := (List.cons.inj (Option.some.inj hhead)).1
  exact absurd (congrArg TxOutput.value hvalue) (by decide)

end Node.Chained

end Kovanica
