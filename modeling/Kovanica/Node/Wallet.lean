import Kovanica.Node.Reachable
import Kovanica.Reference
import Kovanica.State.Payment

/-!
# Prepared transfers

What a wallet prepares, it prepares against the ledger state: the least output of the
sender that covers the amount and the fee.  The rules it is judged by are the ledger's.
The two agree but for two limits the wallet does not see: the fee has to fit in 64 bits
next to the subsidy, and an outpoint the transfer creates may be unspent already.

## Main results

* `head?_coverings_iff`, `exists_leastCover`: which output is picked, and when there is one.
* `prepareTransfer_eq_ok_iff`: when a transfer is prepared, and what it is.
-/

namespace Kovanica

open Lib

/-! ## The output a wallet picks -/

/-- The outputs of `owner` that are worth `need`, with their values, in the order the map
is iterated in. -/
def coverings (ord : HashOrder) (s : UtxoSet) (owner : Address) (need : U64) :
    List (OutPoint × U64) :=
  ((ord.entries s).filter fun entry =>
    decide (entry.2.owner = owner) && decide (need ≤ entry.2.value)).map fun entry =>
      (entry.1, entry.2.value)

/-- By value, then by outpoint. -/
def coverKey (c : OutPoint × U64) : U64 ×ₗ OutPoint := toLex (c.2, c.1)

theorem coverKey_injective : Function.Injective coverKey := by
  intro c c' h
  have hpair := Prod.mk.inj (toLex.injective h)
  exact Prod.ext hpair.2 hpair.1

theorem mem_coverings {ord : HashOrder} {s : UtxoSet} {owner : Address} {need : U64}
    {op : OutPoint} {value : U64} : (op, value) ∈ coverings ord s owner need ↔
      ∃ prev, s.lookup op = some prev ∧ prev.owner = owner ∧ need ≤ prev.value ∧
        prev.value = value := by
  simp only [coverings, List.mem_map, List.mem_filter, HashOrder.mem_entries, Bool.and_eq_true,
    decide_eq_true_eq]
  constructor
  · rintro ⟨entry, ⟨hlookup, howner, hneed⟩, heq⟩
    obtain ⟨hop, hvalue⟩ := Prod.mk.inj heq
    exact ⟨entry.2, hop ▸ hlookup, howner, hneed, hvalue⟩
  · rintro ⟨prev, hlookup, howner, hneed, hvalue⟩
    exact ⟨(op, prev), ⟨hlookup, howner, hneed⟩, congrArg (Prod.mk op) hvalue⟩

/-- The first of them, sorted, is the least cover. -/
theorem head?_coverings_iff {ord : HashOrder} {s : UtxoSet} {owner : Address} {need : U64}
    {op : OutPoint} {value : U64} :
    (sortByKey coverKey (coverings ord s owner need)).head? = some (op, value) ↔
      ∃ prev, LeastCover s owner need.val op prev ∧ prev.value = value := by
  constructor
  · intro h
    obtain ⟨hmem, hleast⟩ := least_of_head? h
    obtain ⟨prev, hlookup, howner, hneed, hvalue⟩ := mem_coverings.1 hmem
    refine ⟨prev, ⟨hlookup, howner, hneed, ?_⟩, hvalue⟩
    intro op' prev' hlookup' howner' hneed'
    rw [hvalue]
    exact hleast (op', prev'.value) (mem_coverings.2 ⟨prev', hlookup', howner', hneed', rfl⟩)
  · intro ⟨prev, hcover, hvalue⟩
    have hmem : (op, value) ∈ coverings ord s owner need :=
      mem_coverings.2 ⟨prev, hcover.unspent, hcover.owned, hcover.covers, hvalue⟩
    cases hhead : (sortByKey coverKey (coverings ord s owner need)).head? with
    | none =>
        have hsorted : _ ∈ sortByKey coverKey _ := mem_sortByKey.2 hmem
        rw [List.head?_eq_none_iff.1 hhead] at hsorted
        cases hsorted
    | some c =>
        obtain ⟨hc, hleast⟩ := least_of_head? hhead
        obtain ⟨prev', hlookup', howner', hneed', hvalue'⟩ := mem_coverings.1 hc
        have hle := hcover.least c.1 prev' hlookup' howner' hneed'
        rw [hvalue, hvalue'] at hle
        rw [coverKey_injective (le_antisymm (hleast _ hmem) hle)]

/-- Where an output covers the need, there is a least. -/
theorem exists_leastCover {s : UtxoSet} {owner : Address} {need : Nat} {op : OutPoint}
    {prev : TxOutput} (hlookup : s.lookup op = some prev) (howner : prev.owner = owner)
    (hneed : need ≤ prev.value.val) : ∃ op' prev', LeastCover s owner need op' prev' := by
  have hlt : need < 2 ^ 64 := Nat.lt_of_le_of_lt hneed prev.value.isLt
  have hmem : (op, prev.value) ∈ coverings .sorted s owner ⟨need, hlt⟩ :=
    mem_coverings.2 ⟨prev, hlookup, howner, hneed, rfl⟩
  cases hhead : (sortByKey coverKey (coverings .sorted s owner ⟨need, hlt⟩)).head? with
  | none =>
      have hsorted : _ ∈ sortByKey coverKey _ := mem_sortByKey.2 hmem
      rw [List.head?_eq_none_iff.1 hhead] at hsorted
      cases hsorted
  | some c =>
      obtain ⟨prev', hcover, _⟩ := head?_coverings_iff.1 hhead
      exact ⟨c.1, prev', hcover⟩

namespace Node

variable [Crypto] {n : Node} {env : Env} {l : Ledger} {state : UtxoSet}

/-- What is prepared out of this output. -/
def preparedOf (n : Node) (op : OutPoint) (value amount : U64) (recipient : Address)
    (change : U64) (sender : Address) : Prepared :=
  ⟨payment op amount recipient change sender,
    (payment op amount recipient change sender).sighash, op, value, n.minFee⟩

theorem prepareTransfer_of_head? (hl : n.ledger = some l)
    (hstate : l.ledgerState env.ord = some state) {sender recipient : Address} {amount need : U64}
    (hamount : amount ≠ 0) (hneed : Word.checkedAdd amount n.minFee = some need)
    {head : Option (OutPoint × U64)}
    (hhead : (sortByKey coverKey (coverings env.ord state sender need)).head? = head) :
    n.prepareTransfer env sender amount recipient =
      match head with
      | some c => .ok (n.preparedOf c.1 c.2 amount recipient (c.2 - need) sender)
      | none => .error (.error .insufficientFunds) := by
  have hledger : n.ledger? = .ok l := ledger?_eq_ok.2 hl
  have hstateOf : stateOf env l = .ok state := stateOf_eq_ok.2 hstate
  unfold coverings coverKey at hhead
  cases head with
  | none =>
      simp [prepareTransfer, hamount, hneed, hledger, hstateOf, Outcome.ok_bind, hhead]
      rfl
  | some c =>
      simp [prepareTransfer, hamount, hneed, hledger, hstateOf, Outcome.ok_bind, hhead]
      rfl

/-- `prepare_transfer`, in terms of the ledger state. -/
theorem prepareTransfer_eq_ok_iff (hl : n.ledger = some l)
    (hstate : l.ledgerState env.ord = some state) {sender recipient : Address} {amount : U64}
    (hamount : amount ≠ 0) {prepared : Prepared} :
    n.prepareTransfer env sender amount recipient = .ok prepared ↔ ∃ op prev change,
      LeastCover state sender (amount.val + n.minFee.val) op prev ∧
        prev.value.val = amount.val + n.minFee.val + change.val ∧
        prepared = n.preparedOf op prev.value amount recipient change sender := by
  cases hneed : Word.checkedAdd amount n.minFee with
  | none =>
      constructor
      · intro h
        simp [prepareTransfer, hamount, hneed] at h
      · intro ⟨op, prev, change, hcover, _⟩
        rw [Word.checkedAdd_eq_none] at hneed
        have := hcover.covers
        have := prev.value.isLt
        omega
  | some need =>
      have hval : need.val = amount.val + n.minFee.val := Word.checkedAdd_eq_some.1 hneed
      rw [← hval]
      constructor
      · intro h
        cases hhead : (sortByKey coverKey (coverings env.ord state sender need)).head? with
        | none =>
            rw [prepareTransfer_of_head? hl hstate hamount hneed hhead] at h
            cases h
        | some c =>
            rw [prepareTransfer_of_head? hl hstate hamount hneed hhead] at h
            obtain ⟨prev, hcover, hvalue⟩ := head?_coverings_iff.1 hhead
            have hsub := Fin.sub_val_of_le (Fin.le_def.2 hcover.covers)
            have hle := hcover.covers
            have hprepared := (Except.ok.inj h).symm
            rw [← hvalue] at hprepared
            exact ⟨c.1, prev, prev.value - need, hcover, by omega, hprepared⟩
      · intro ⟨op, prev, change, hcover, hvalue, hprepared⟩
        have hhead : (sortByKey coverKey (coverings env.ord state sender need)).head? =
            some (op, prev.value) := head?_coverings_iff.2 ⟨prev, hcover, rfl⟩
        have hsub := Fin.sub_val_of_le (Fin.le_def.2 hcover.covers)
        have hchange : prev.value - need = change := Fin.ext (by omega)
        rw [prepareTransfer_of_head? hl hstate hamount hneed hhead, hprepared]
        simp only [hchange]

/-- A transfer can be prepared exactly when one output covers amount and fee.  Signed by
the sender, it does what it says on the ledger state exactly when the subsidy and the fee
fit 64 bits together and no outpoint it creates is unspent already. -/
theorem prepareTransfer_valid_iff (hn : n.Reachable) (hl : n.ledger = some l) (env : Env)
    (sender recipient : Address) {amount : U64} (hamount : amount ≠ 0) :
    ∃ state, l.ledgerState env.ord = some state ∧
      ((∃ prepared, n.prepareTransfer env sender amount recipient = .ok prepared) ↔
        ∃ op prev, state.lookup op = some prev ∧ prev.owner = sender ∧
          amount.val + n.minFee.val ≤ prev.value.val) ∧
      ∀ prepared, n.prepareTransfer env sender amount recipient = .ok prepared →
        ∃ op prev change, LeastCover state sender (amount.val + n.minFee.val) op prev ∧
          prev.value.val = amount.val + n.minFee.val + change.val ∧
          prepared = n.preparedOf op prev.value amount recipient change sender ∧
          ∀ signature, verify sender prepared.sighash signature = true →
            (Transfers state l.subsidy (prepared.tx.attachSignature 0 signature) sender recipient
                amount n.minFee ↔
              l.subsidy.val + n.minFee.val < 2 ^ 64 ∧ ∀ created ∈
                ((payment op amount recipient change sender).attachSignature 0
                  signature).event.createdKeys, created ∉ state.erase op) := by
  have hplain := hn.plain hl
  refine ⟨_, hplain.unbounded.ledgerState env.ord, ?_, ?_⟩
  · constructor
    · intro ⟨prepared, h⟩
      obtain ⟨op, prev, _, hcover, _⟩ :=
        (prepareTransfer_eq_ok_iff hl (hplain.unbounded.ledgerState env.ord) hamount).1 h
      exact ⟨op, prev, hcover.unspent, hcover.owned, hcover.covers⟩
    · intro ⟨op, prev, hlookup, howner, hneed⟩
      obtain ⟨op', prev', hcover⟩ := exists_leastCover hlookup howner hneed
      have hle := hcover.covers
      have hlt := prev'.value.isLt
      exact ⟨_, (prepareTransfer_eq_ok_iff hl (hplain.unbounded.ledgerState env.ord) hamount).2
        ⟨op', prev', ⟨prev'.value.val - (amount.val + n.minFee.val), by omega⟩, hcover,
          by simp only; omega, rfl⟩⟩
  · intro prepared h
    obtain ⟨op, prev, change, hcover, hvalue, hprepared⟩ :=
      (prepareTransfer_eq_ok_iff hl (hplain.unbounded.ledgerState env.ord) hamount).1 h
    refine ⟨op, prev, change, hcover, hvalue, hprepared, ?_⟩
    intro signature hverify
    rw [hprepared] at hverify ⊢
    exact transfers_payment_iff hcover.unspent hcover.owned hvalue hamount hverify

end Node

/-! ## Two transfers -/

namespace Node.Transfer

open Reference

/-- Two transfers of a premine, as they are signed: a part of ten units, and one unit
where the fee is the largest there is. -/
def signed : List (Bytes 32 × Bytes 64) :=
  [(bytesOf 32 0x8fac997e56818adb718e2e7f75e87fe5b41fa182becf904247c8e27fb051c409,
    bytesOf 64 (0x965b746cc6e65f6d561aa0c0ac3e8192cf9960563b650191aa857aefabcf687b * 2 ^ 256 +
      0x71dac4e9003d00307e1b4ddcffa1935a215d0417194b6ac24ae4c9ab66b5f20b)),
   (bytesOf 32 0x7eb08a0ba446ebf7340673f07ae5adb4606c60b1f044e9d3c95257ed3a2c3ca5,
    bytesOf 64 (0x13d36b38cab90503acf311eb3cbf899a0e51cb3f62699e686dbd301d6f2fea29 * 2 ^ 256 +
      0x9eee98e4cfc06b74c79a74efd9d4a26bb6d631fa1db561889e9b219fb2c44002))]

scoped instance packages : Crypto := signing signed

/-- Nobody's address. -/
def stranger : Address := ⟨bytesOf 32 0⟩

/-- A node with a premine, its ledger and ledger state, and a transfer it prepares for the
founder. -/
def trial (subsidy premine amount : U64) (recipient : Address) :
    Option (Node × Ledger × UtxoSet × Prepared) := do
  let (_, n) ← (Node.new.genesis ⟨.sorted, 0⟩ 3 subsidy premine 1).toOption
  let l ← n.ledger
  let state ← l.ledgerState .sorted
  let prepared ← (n.prepareTransfer ⟨.sorted, 0⟩ founder amount recipient).toOption
  return (n, l, state, prepared)

theorem trial_spec {subsidy premine amount : U64} {recipient : Address} {n : Node} {l : Ledger}
    {state : UtxoSet} {prepared : Prepared}
    (h : trial subsidy premine amount recipient = some (n, l, state, prepared)) :
    n.Reachable ∧ n.ledger = some l ∧ l.ledgerState .sorted = some state ∧
      n.prepareTransfer ⟨.sorted, 0⟩ founder amount recipient = .ok prepared := by
  simp only [trial, Option.bind_eq_bind, Option.bind_eq_some_iff] at h
  obtain ⟨⟨r, n'⟩, hgenesis, l', hl, state', hstate, prepared', hprepared, heq⟩ := h
  obtain ⟨rfl, rfl, rfl, rfl⟩ : n' = n ∧ l' = l ∧ state' = state ∧ prepared' = prepared := by
    simpa using heq
  exact ⟨.genesis .new (ok_of_toOption hgenesis), hl, hstate, ok_of_toOption hprepared⟩

/-- Four of ten units, and the rest but the fee comes back. -/
theorem prepareTransfer_valid_iff_part : ∃ n l state prepared signature, Reachable n ∧
    n.ledger = some l ∧ l.ledgerState .sorted = some state ∧
    n.prepareTransfer ⟨.sorted, 0⟩ founder 4 stranger = .ok prepared ∧
    verify founder prepared.sighash signature = true ∧
    Transfers state l.subsidy (prepared.tx.attachSignature 0 signature) founder stranger 4
      n.minFee := by
  have hcheck : (trial 10 10 4 stranger).any (fun (n, l, state, prepared) =>
      let signature := Crypto.sign seed prepared.sighash
      verify founder prepared.sighash signature &&
        decide (l.subsidy.val + n.minFee.val < 2 ^ 64 ∧
          ∀ created ∈ (prepared.tx.attachSignature 0 signature).event.createdKeys,
            created ∉ state.erase prepared.outpoint)) = true := by
    decide +kernel
  obtain ⟨⟨n, l, state, prepared⟩, htrial, hboth⟩ := Option.any_eq_true _ _ |>.1 hcheck
  obtain ⟨hn, hl, hstate, hprepared⟩ := trial_spec htrial
  obtain ⟨hverify, hdec⟩ := Bool.and_eq_true_iff.1 hboth
  obtain ⟨state', hstate', _, hvalid⟩ :=
    prepareTransfer_valid_iff hn hl ⟨.sorted, 0⟩ founder stranger (by decide : (4 : U64) ≠ 0)
  obtain rfl := Option.some.inj (hstate.symm.trans hstate')
  obtain ⟨op, prev, change, _, _, heq, htransfers⟩ := hvalid prepared hprepared
  refine ⟨n, l, state, prepared, _, hn, hl, hstate, hprepared, hverify,
    (htransfers _ hverify).2 ?_⟩
  have hcond := of_decide_eq_true hdec
  rw [heq] at hcond ⊢
  exact hcond

/-- Whether a block is refused because a sum of values does not fit. -/
def overflows {α : Type} : Except LedgerError α → Bool
  | .error .valueOverflow => true
  | _ => false

theorem of_overflows {α : Type} {x : Except LedgerError α} (h : overflows x = true) :
    x = .error .valueOverflow := by
  unfold overflows at h
  split at h
  · rfl
  · cases h

/-- Where the subsidy leaves no room for a fee, what a wallet prepares is refused. -/
theorem prepareTransfer_overflow : ∃ n l state prepared signature, Reachable n ∧
    n.ledger = some l ∧ l.ledgerState .sorted = some state ∧
    n.prepareTransfer ⟨.sorted, 0⟩ founder 1 founder = .ok prepared ∧
    verify founder prepared.sighash signature = true ∧
    applyBlock state [prepared.tx.attachSignature 0 signature] l.subsidy =
      .error .valueOverflow := by
  have hcheck : (trial (Word.maxValue 64) 36893488147420 1 founder).any
      (fun (_, l, state, prepared) =>
        let signature := Crypto.sign seed prepared.sighash
        verify founder prepared.sighash signature &&
          overflows (applyBlock state [prepared.tx.attachSignature 0 signature] l.subsidy)) =
      true := by
    decide +kernel
  obtain ⟨⟨n, l, state, prepared⟩, htrial, hboth⟩ := Option.any_eq_true _ _ |>.1 hcheck
  obtain ⟨hn, hl, hstate, hprepared⟩ := trial_spec htrial
  obtain ⟨hverify, hrefused⟩ := Bool.and_eq_true_iff.1 hboth
  exact ⟨n, l, state, prepared, _, hn, hl, hstate, hprepared, hverify, of_overflows hrefused⟩

end Node.Transfer

end Kovanica
