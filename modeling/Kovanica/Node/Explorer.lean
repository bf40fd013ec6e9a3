import Kovanica.Node.Fees
import Kovanica.Node.Reachable
import Kovanica.State.Balance
import Kovanica.State.Emission
import Mathlib.Algebra.Ring.Int.Defs

/-!
# The history of an address

The explorer lists, for every transaction of every linearized block, by how much it
changes the funds of an address, and next to that list the balance of the address in the
ledger state.  The list counts the blocks that the ledger state drops as well, so it
explains the balance exactly when these blocks pay the address as much as they would have
taken from it.

## Main results

* `deltaOf_eq`, `sum_items`: a row of the list, and the sum of the rows.
* `history_eq`: the balance against the list and the dropped blocks.
* `history_sums`: where nothing is dropped the list explains the balance.
-/

namespace Kovanica

open Lib

namespace Explorer

/-- The kind of an entry: `"coinbase"`, `"in"` or `"out"`. -/
inductive HistoryKind
  | coinbase
  | incoming
  | outgoing
  deriving DecidableEq

/-- One entry of a history. -/
structure HistoryItem where
  block : BlockId
  tx : TxId
  kind : HistoryKind
  delta : Int

/-- The answer to `/api/history`. -/
structure History where
  address : Address
  balance : Nat
  txs : List HistoryItem

/-! ## The fold over the records -/

/-- The blocks of a list that have a record, with it. -/
def recordsOf (n : Node) (order : List BlockId) : List (BlockId × BlockRecord) :=
  order.filterMap fun id => (n.blockRecord id).map fun rec => (id, rec)

/-- `by_id`: the transactions of the records under their ids. -/
def byId [Crypto] (records : List (BlockId × BlockRecord)) : Finmap fun _ : TxId => Transaction :=
  records.foldl (fun map rec => rec.2.txs.val.foldl (fun map tx => map.insert tx.id tx) map) ∅

/-- What a transaction adds to the funds of an address: its outputs less its inputs, as
far as the outputs these spend are known.  The source sums in `i128`; fewer than `2 ^ 63`
outputs of 64-bit value cannot overflow it. -/
def deltaOf (byId : Finmap fun _ : TxId => Transaction) (addr : Address) (tx : Transaction) :
    Int :=
  let delta := tx.outputs.foldl (fun (delta : Int) o =>
    if o.owner = addr then delta + o.value.val else delta) 0
  tx.inputs.foldl (fun (delta : Int) inp =>
    match byId.lookup inp.outpoint.tx with
    | none => delta
    | some prev =>
        match prev.outputs[inp.outpoint.index.val]? with
        | none => delta
        | some o => if o.owner = addr then delta - o.value.val else delta) delta

/-- The entry of a transaction, unless it changes nothing.  Without a reward the kind follows the
sign of the change. -/
def itemOf [Crypto] (byId : Finmap fun _ : TxId => Transaction) (addr : Address) (id : BlockId)
    (tx : Transaction) : Option HistoryItem :=
  let delta := deltaOf byId addr tx
  if delta = 0 then none
  else
    let kind := if tx.isCoinbase then .coinbase else if 0 < delta then .incoming else .outgoing
    some ⟨id, tx.id, kind, delta⟩

/-- The entries of all records, in their order. -/
def itemsOf [Crypto] (records : List (BlockId × BlockRecord)) (addr : Address) :
    List HistoryItem :=
  records.flatMap fun rec => rec.2.txs.val.filterMap (itemOf (byId records) addr rec.1)

/-- `history_json(..)`, on the node it asks: the entries of all linearized blocks, next to the
balance of the ledger state. -/
def history [Crypto] (env : Env) (n : Node) (addr : Address) : Outcome NodeError History := do
  let ledger ← n.ledger?
  let order := ledger.dag.linearize env.ord
  let items := itemsOf (recordsOf n order) addr
  return ⟨addr, ← n.balance env addr, items⟩

/-! ## The sum of the entries -/

section Sums

variable [Crypto] {n : Node} {l : Ledger}

/-- A stored block has a record, with its transactions. -/
theorem exists_record (hledger : n.ledger = some l) (hl : l.WellFormed) {x : BlockId}
    (hx : x ∈ l.dag.nodes) :
    ∃ rec, n.blockRecord x = some rec ∧ rec.txs.val = l.dag.blockTxs x := by
  obtain ⟨rec, hrec, hblock⟩ := Node.exists_blockRecord hledger hl hx
  refine ⟨rec, hrec, (Ledger.blockTxs_of_payload ?_).symm⟩
  rw [← hblock]
  rfl

theorem flatMap_recordsOf (hledger : n.ledger = some l) (hl : l.WellFormed)
    {order : List BlockId} (horder : ∀ x ∈ order, x ∈ l.dag.nodes) :
    ((recordsOf n order).flatMap fun rec => rec.2.txs.val) = order.flatMap l.dag.blockTxs := by
  induction order with
  | nil => rfl
  | cons x rest ih =>
      obtain ⟨rec, hrec, htxs⟩ := exists_record hledger hl (horder x (List.mem_cons_self ..))
      have hrest := ih fun y hy => horder y (List.mem_cons_of_mem _ hy)
      rw [recordsOf] at hrest ⊢
      rw [List.filterMap_cons, hrec, Option.map_some, List.flatMap_cons, hrest, htxs,
        List.flatMap_cons]

theorem lookup_byId {records : List (BlockId × BlockRecord)} {txs : List Transaction}
    (hrecords : (records.flatMap fun rec => rec.2.txs.val) = txs)
    (hids : ∀ tx ∈ txs, ∀ tx' ∈ txs, tx.id = tx'.id → tx = tx') (id : TxId) :
    (byId records).lookup id = txs.find? fun tx => tx.id = id := by
  rw [byId, ← List.foldl_flatMap, hrecords, lookup_foldl_insert Transaction.id hids,
    Finmap.lookup_empty, Option.or_none]

omit [Crypto] in
theorem foldl_outputs (addr : Address) (outputs : List TxOutput) (acc : Int) :
    outputs.foldl (fun (delta : Int) o =>
      if o.owner = addr then delta + o.value.val else delta) acc =
      acc + ((outputs.map (TxOutput.worth addr)).sum : Nat) := by
  induction outputs generalizing acc with
  | nil => simp
  | cons o rest ih =>
      rw [List.foldl_cons, ih, List.map_cons, List.sum_cons, TxOutput.worth]
      split <;> push_cast <;> omega

section Worth

variable {map : Finmap fun _ : TxId => Transaction} {addr : Address} {worthOf : OutPoint → Nat}

omit [Crypto] in
theorem foldl_inputs (hworth : ∀ op, worthOf op = (((map.lookup op.tx).bind fun tx =>
      tx.outputs[op.index.val]?).map (TxOutput.worth addr)).getD 0)
    (inputs : List TxInput) (acc : Int) :
    inputs.foldl (fun (delta : Int) inp =>
      match map.lookup inp.outpoint.tx with
      | none => delta
      | some prev =>
          match prev.outputs[inp.outpoint.index.val]? with
          | none => delta
          | some o => if o.owner = addr then delta - o.value.val else delta) acc =
      acc - ((inputs.map fun input => worthOf input.outpoint).sum : Nat) := by
  induction inputs generalizing acc with
  | nil => simp
  | cons input rest ih =>
      rw [List.foldl_cons, ih, List.map_cons, List.sum_cons, hworth]
      cases hlookup : map.lookup input.outpoint.tx with
      | none => simp
      | some prev =>
          cases hget : prev.outputs[input.outpoint.index.val]? with
          | none => simp [hget]
          | some o =>
              simp only [hget, Option.bind_some, Option.map_some, Option.getD_some,
                TxOutput.worth]
              split
              · rw [Int.natCast_add]
                exact sub_sub ..
              · rw [Nat.zero_add]

omit [Crypto] in
/-- The delta of a transaction is what it pays less what it takes. -/
theorem deltaOf_eq (hworth : ∀ op, worthOf op = (((map.lookup op.tx).bind fun tx =>
      tx.outputs[op.index.val]?).map (TxOutput.worth addr)).getD 0) (tx : Transaction) :
    deltaOf map addr tx = (tx.paidTo addr : Int) - tx.taken worthOf := by
  rw [deltaOf, foldl_outputs, foldl_inputs hworth, Transaction.paidTo, Transaction.taken, zero_add]

end Worth

/-- Leaving out the zeros does not change the sum. -/
theorem sum_items (map : Finmap fun _ : TxId => Transaction) (addr : Address) (id : BlockId)
    (txs : List Transaction) :
    ((txs.filterMap (itemOf map addr id)).map HistoryItem.delta).sum =
      (txs.map (deltaOf map addr)).sum := by
  induction txs with
  | nil => rfl
  | cons tx rest ih =>
      rw [List.filterMap_cons, List.map_cons, List.sum_cons, ← ih, itemOf]
      by_cases hzero : deltaOf map addr tx = 0
      · rw [if_pos hzero, hzero, zero_add]
      · rw [if_neg hzero, List.map_cons, List.sum_cons]

theorem sum_history (map : Finmap fun _ : TxId => Transaction) (addr : Address)
    (records : List (BlockId × BlockRecord)) :
    ((records.flatMap fun rec => rec.2.txs.val.filterMap (itemOf map addr rec.1)).map
      HistoryItem.delta).sum =
      ((records.flatMap fun rec => rec.2.txs.val).map (deltaOf map addr)).sum := by
  induction records with
  | nil => rfl
  | cons rec rest ih =>
      rw [List.flatMap_cons, List.flatMap_cons, List.map_append, List.map_append,
        List.sum_append, List.sum_append, ih, sum_items]

omit [Crypto] in
theorem sum_sub (f g : Transaction → Nat) (txs : List Transaction) :
    (txs.map fun tx => (f tx : Int) - g tx).sum = ((txs.map f).sum : Int) - (txs.map g).sum := by
  induction txs with
  | nil => rfl
  | cons tx rest ih =>
      rw [List.map_cons, List.sum_cons, ih, List.map_cons, List.sum_cons, List.map_cons,
        List.sum_cons]
      push_cast
      omega

end Sums

/-! ## The history against the balance -/

section Balance

variable [Crypto] {n : Node} {l : Ledger}

/-- The transactions of the blocks that have no effect on the ledger state.  They are listed in a
history like all others. -/
def dropped (l : Ledger) (ord : HashOrder) : List Transaction :=
  ((applyDag ord l.dag.toDagView l.subsidy).rejected.map Prod.fst).flatMap l.dag.blockTxs

/-- What these transactions pay an address. -/
def droppedPay (l : Ledger) (ord : HashOrder) (addr : Address) : Nat :=
  ((dropped l ord).map (Transaction.paidTo addr)).sum

/-- What they would take from it. -/
def droppedTake (l : Ledger) (ord : HashOrder) (addr : Address) : Nat :=
  ((dropped l ord).map (Transaction.taken (l.dag.worthNamed (l.dag.linearize ord) addr))).sum

/-- The history sums up to the balance, and what the dropped blocks pay less what they
would take. -/
theorem history_eq (hn : n.Reachable) (hledger : n.ledger = some l)
    (hids : l.dag.IdsCollisionFree) (env : Env) (addr : Address) :
    ∃ h, history env n addr = .ok h ∧ (h.txs.map HistoryItem.delta).sum =
      (h.balance : Int) + droppedPay l env.ord addr - droppedTake l env.ord addr := by
  have hl := (hn.plain hledger).unbounded
  have hwf := hl.reachable.wellFormed
  have horder : ∀ x ∈ l.dag.linearize env.ord, x ∈ l.dag.nodes := fun x hx =>
    (hwf.dag.mem_linearize env.ord x).1 hx
  have hapart := hids.apartIn horder
  have hflat := flatMap_recordsOf hledger hwf horder
  have hbalance : n.balance env addr =
      .ok ((l.dag.replay l.subsidy (l.dag.linearize env.ord)).balance addr) := by
    rw [Node.balance, Node.ledger?, hledger]
    simp only [Outcome.ok_bind, Node.stateOf, hl.ledgerState, orPanic]
    rfl
  have hhistory : history env n addr = .ok
      ⟨addr, (l.dag.replay l.subsidy (l.dag.linearize env.ord)).balance addr,
        itemsOf (recordsOf n (l.dag.linearize env.ord)) addr⟩ := by
    rw [history, Node.ledger?, hledger]
    simp only [Outcome.ok_bind, hbalance]
    rfl
  refine ⟨_, hhistory, ?_⟩
  have hdelta : deltaOf (byId (recordsOf n (l.dag.linearize env.ord))) addr = fun tx =>
      (tx.paidTo addr : Int) -
        tx.taken (l.dag.worthNamed (l.dag.linearize env.ord) addr) := by
    funext tx
    refine deltaOf_eq (fun op => ?_) tx
    rw [lookup_byId hflat hapart, DagView.worthNamed, DagView.outputNamed]
  -- every transaction of the linearization took effect or was dropped
  have hperm := (applyDag_perm env.ord l.dag.toDagView l.subsidy).flatMap_right l.dag.blockTxs
  rw [List.flatMap_append] at hperm
  have hpaid := (hperm.map (Transaction.paidTo addr)).sum_eq
  have htaken := (hperm.map (Transaction.taken
    (l.dag.worthNamed (l.dag.linearize env.ord) addr))).sum_eq
  rw [List.map_append, List.sum_append] at hpaid htaken
  have hreplay := DagView.balance_replay hapart l.subsidy addr
  rw [← applyDag_accepted] at hreplay
  simp only [itemsOf, sum_history, hflat, hdelta, sum_sub]
  rw [droppedPay, droppedTake, dropped]
  omega

/-- Where every stored block has taken effect, a history explains the balance. -/
theorem history_sums (hn : n.Reachable) (hledger : n.ledger = some l)
    (hids : l.dag.IdsCollisionFree) (env : Env)
    (hnone : (applyDag env.ord l.dag.toDagView l.subsidy).rejected = []) (addr : Address) :
    ∃ h, history env n addr = .ok h ∧ (h.txs.map HistoryItem.delta).sum = h.balance := by
  obtain ⟨h, hhistory, hsum⟩ := history_eq hn hledger hids env addr
  have hdropped : dropped l env.ord = [] := by
    rw [dropped, hnone]
    rfl
  rw [droppedPay, droppedTake, hdropped] at hsum
  exact ⟨h, hhistory, by simpa using hsum⟩

/-- A history explains the balance exactly if what the dropped blocks pay the address is
what they would take from it.  The blocks that take effect sum to the balance, so these are
all that is left to ask about. -/
theorem history_explains_balance_iff (hn : n.Reachable) (hledger : n.ledger = some l)
    (hids : l.dag.IdsCollisionFree) (env : Env) (addr : Address) :
    ∃ h, history env n addr = .ok h ∧ ((h.txs.map HistoryItem.delta).sum = h.balance ↔
      droppedPay l env.ord addr = droppedTake l env.ord addr) := by
  obtain ⟨h, hhistory, hsum⟩ := history_eq hn hledger hids env addr
  refine ⟨h, hhistory, ?_⟩
  constructor <;> intro heq <;> omega

end Balance

/-! ## One transfer in two blocks -/

section Carried

variable [Crypto]

open Reference (vec)

/-- A node that receives two parallel blocks on a genesis of this amount, each of them with
the same transactions. -/
def carried (amount : U64) (txs : TxList) : Option Node := do
  let ((genesis, _), n) ← (Node.new.genesis ⟨.sorted, 0⟩ 3 10 amount 1).toOption
  let (_, n) ← (n.receiveBlock ⟨.sorted, 0⟩ ⟨vec [genesis], 1, 0, 0, txs⟩).toOption
  let (_, n) ← (n.receiveBlock ⟨.sorted, 0⟩ ⟨vec [genesis], 1, 1, 0, txs⟩).toOption
  return n

theorem reachable_of_carried {amount : U64} {txs : TxList} {n : Node}
    (h : carried amount txs = some n) : n.Reachable := by
  simp only [carried, Option.bind_eq_bind, Option.bind_eq_some_iff] at h
  obtain ⟨⟨⟨genesis, _⟩, n₀⟩, hgenesis, ⟨_, n₁⟩, hfirst, ⟨_, n₂⟩, hsecond, hn⟩ := h
  have hn₀ : n₀.Reachable := .genesis .new (ok_of_toOption hgenesis)
  exact Option.some.inj hn ▸ (hn₀.receiveBlock (ok_of_toOption hfirst)).receiveBlock
    (ok_of_toOption hsecond)

end Carried

section Unchanged

open scoped Reference
open Reference (founder spendTxs)

/-- The whole premine to its owner: one block is dropped, and would have taken what it pays. -/
theorem history_explains_balance_parallel : ∃ n l h, Node.Reachable n ∧ n.ledger = some l ∧
    dropped l .sorted = spendTxs.val ∧ history ⟨.sorted, 0⟩ n founder = .ok h ∧
    h.balance = 1 ∧ (h.txs.map HistoryItem.delta).sum = (h.balance : Int) := by
  have hcheck : (carried 1 spendTxs).any (fun n => (n.ledger.any fun l : Ledger =>
      decide (l.dag.IdsCollisionFree ∧ dropped l .sorted = spendTxs.val ∧
        droppedPay l .sorted founder = droppedTake l .sorted founder)) &&
      (history ⟨.sorted, 0⟩ n founder).toOption.any fun h => decide (h.balance = 1)) = true := by
    decide +kernel
  obtain ⟨n, hcarried, hboth⟩ := Option.any_eq_true _ _ |>.1 hcheck
  obtain ⟨hany, hfunds⟩ := Bool.and_eq_true_iff.1 hboth
  obtain ⟨l, hledger, hdec⟩ := Option.any_eq_true _ _ |>.1 hany
  obtain ⟨hids, hdropped, hequal⟩ := of_decide_eq_true hdec
  obtain ⟨h', hh', hbalance⟩ := Option.any_eq_true _ _ |>.1 hfunds
  have hn := reachable_of_carried hcarried
  obtain ⟨h, hhistory, hiff⟩ := history_explains_balance_iff hn hledger hids ⟨.sorted, 0⟩ founder
  obtain rfl : h' = h := Except.ok.inj ((ok_of_toOption hh').symm.trans hhistory)
  exact ⟨n, l, h', hn, hledger, hdropped, hhistory, of_decide_eq_true hbalance, hiff.2 hequal⟩

end Unchanged

section Paid

open Reference (founder)
open scoped Passing
open Node.Chained (first)

/-- The transfer of nine of the ten units. -/
def firstTxs : TxList := ⟨[first], by decide +kernel⟩

/-- A transfer with a fee: the block that is dropped would have taken more than it pays, and
its fee is counted once more. -/
theorem history_counts_dropped : ∃ n l h, Node.Reachable n ∧ n.ledger = some l ∧
    l.dag.IdsCollisionFree ∧ history ⟨.sorted, 0⟩ n founder = .ok h ∧ h.balance = 9 ∧
    (h.txs.map HistoryItem.delta).sum = 8 := by
  have hcheck : (carried 10 firstTxs).any (fun n => (n.ledger.any fun l : Ledger =>
      decide l.dag.IdsCollisionFree) && (history ⟨.sorted, 0⟩ n founder).toOption.any fun h =>
        decide (h.balance = 9 ∧ (h.txs.map HistoryItem.delta).sum = 8)) = true := by
    decide +kernel
  obtain ⟨n, hcarried, hboth⟩ := Option.any_eq_true _ _ |>.1 hcheck
  obtain ⟨hany, hhistory⟩ := Bool.and_eq_true_iff.1 hboth
  obtain ⟨l, hledger, hids⟩ := Option.any_eq_true _ _ |>.1 hany
  obtain ⟨h, hh, hdec⟩ := Option.any_eq_true _ _ |>.1 hhistory
  exact ⟨n, l, h, reachable_of_carried hcarried, hledger, of_decide_eq_true hids,
    ok_of_toOption hh, of_decide_eq_true hdec⟩

end Paid

end Explorer

end Kovanica
