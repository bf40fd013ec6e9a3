import Kovanica.Node.Fees
import Kovanica.Node.Idempotence

/-!
# When a node can produce

A produced block is put together from the ledger state and judged on the same state, so
little can go wrong: there has to be room, the fees have to fit next to the subsidy, and
the coinbase must not be one that is still unspent.  The last is not guaranteed.  The
coinbase is tagged by the timestamp, and the timestamp only looks at the parents: over a
received block with an older timestamp it can be the one of an earlier coinbase.

## Main results

* `applyBlock_reward_iff`: when a block of picked spends and a coinbase applies.
* `idApart_of_fresh`: without proof of work there is one block to look at, the one of nonce zero.
-/

namespace Kovanica

open Lib

section Production

variable [Crypto]

namespace Node

variable {n n' : Node} {env : Env} {l : Ledger} {state : UtxoSet}

/-! ## The two blocks -/

/-- The transactions of the block that `produce_empty` makes. -/
def emptyTxs (env : Env) (n : Node) (l : Ledger) : List Transaction :=
  n.issuanceTxs (n.tipsTimestamp env l) 0

/-- The transactions of the block that `produce_block` makes. -/
def blockTxs (env : Env) (n : Node) (l : Ledger) (state : UtxoSet) : List Transaction :=
  n.issuanceTxs (n.tipsTimestamp env l) (n.selectedFees env l state) ++ n.selected env l state

omit [Crypto] in
theorem length_reward (timestampMs extraFees : U64) :
    (encodeBlockPayload (n.reward timestampMs extraFees).toList).length < 2 ^ 64 := by
  cases hreward : n.reward timestampMs extraFees with
  | none => simp [encodeBlockPayload]
  | some cb =>
      obtain ⟨miner, _, _, hcb⟩ := mem_reward.1 hreward
      simp [hcb, encodeBlockPayload, Transaction.coinbase, Transaction.encode,
        Transaction.encodeInto, Transaction.encodeOutput, miner.bytes.property]

/-- A coinbase and spends that pack apply together when it claims no more than the fees,
they fit next to the subsidy, and its outpoint is free in what the spends leave. -/
theorem applyBlock_reward_iff (hl : n.ledger = some l) {txs : List Transaction}
    (hspends : ∀ tx ∈ txs, tx.isCoinbase = false) {fees : List U64} {mid : UtxoSet}
    (hpacks : Packs state txs fees mid) (timestampMs : U64) {extraFees : U64}
    (hextra : sumOf fees < 2 ^ 64 → extraFees.val ≤ sumOf fees) :
    (∃ applied, applyBlock state ((n.reward timestampMs extraFees).toList ++ txs) l.subsidy =
        .ok applied) ↔
      l.subsidy.val + sumOf fees < 2 ^ 64 ∧
        ∀ cb ∈ n.reward timestampMs extraFees, (⟨cb.id, 0⟩ : OutPoint) ∉ mid := by
  have hissuance := issuance_le hl
  constructor
  · intro ⟨⟨next, summary⟩, happly⟩
    obtain ⟨fees', mid', allowed, hpacks', _, hallowed, hlast⟩ :=
      (applyBlock_spends_iff isCoinbase_reward hspends).1 happly
    obtain ⟨rfl, rfl⟩ := hpacks.unique hpacks'
    have hlt := allowed.isLt
    refine ⟨by omega, fun cb hcb => ?_⟩
    rw [Option.mem_def.1 hcb] at hlast
    obtain ⟨_, _, _, hshape⟩ := mem_reward.1 hcb
    exact ((applyLast_reward_iff hshape).1 hlast).2.2.1
  · intro ⟨hfit, hfree⟩
    have hle := hextra (by omega)
    have hlast : ∃ next minted, applyLast mid (n.reward timestampMs extraFees)
        ⟨l.subsidy.val + sumOf fees, hfit⟩ = .ok (next, minted) := by
      cases hreward : n.reward timestampMs extraFees with
      | none => exact ⟨mid, 0, rfl⟩
      | some cb =>
          obtain ⟨_, _, hne, hshape⟩ := mem_reward.1 hreward
          refine ⟨_, _, (applyLast_reward_iff hshape).2 ⟨hne, ?_, hfree cb hreward, rfl, rfl⟩⟩
          rw [Fin.le_def, Word.saturatingAdd_val]
          show min _ _ ≤ l.subsidy.val + sumOf fees
          omega
    obtain ⟨next, minted, hlast⟩ := hlast
    have hsum : sumOf fees < 2 ^ 64 := by omega
    exact ⟨(next, ⟨⟨sumOf fees, hsum⟩, minted⟩),
      (applyBlock_spends_iff isCoinbase_reward hspends).2
        ⟨fees, mid, _, hpacks, rfl, rfl, hlast⟩⟩

/-! ## Producing -/

theorem produceEmpty_ok_iff (hn : n.Reachable) (hl : n.ledger = some l)
    (hstate : l.ledgerState env.ord = some state) (hmine : n.Minable env l (n.emptyTxs env l))
    (hid : n.IdApart env l (n.emptyTxs env l)) :
    (∃ id n', n.produceEmpty env = .ok (id, n')) ↔ l.dag.len + 1 < mapCapacity ∧
      ∀ cb ∈ n.emptyTxs env l, (⟨cb.id, 0⟩ : OutPoint) ∉ state := by
  have hledger : n.ledger? = .ok l := ledger?_eq_ok.2 hl
  have hproduce : n.produceEmpty env =
      n.extendTips env l (fun timestamp => n.issuanceTxs timestamp 0) [] := by
    rw [produceEmpty, hledger]
    rfl
  have hzero : (0 : U64).val = 0 := rfl
  have hnone : sumOf [] < 2 ^ 64 → (0 : U64).val ≤ sumOf [] := by
    rw [hzero, sumOf_nil]
    exact fun _ => Nat.le_refl 0
  have hreward := applyBlock_reward_iff hl (by simp) (.nil : Packs state [] [] state)
    (n.tipsTimestamp env l) hnone
  have hlength := length_reward (n := n) (n.tipsTimestamp env l) 0
  have hsubsidy := l.subsidy.isLt
  rw [List.append_nil, ← issuanceTxs_eq, sumOf_nil, Nat.add_zero] at hreward
  rw [← issuanceTxs_eq] at hlength
  have hextend := extendTips_ok_iff (hn.plain hl) hstate
    (fun timestamp => n.issuanceTxs timestamp 0) [] hmine hid
  simp only [emptyTxs, mem_issuanceTxs]
  rw [hproduce, hextend, hreward]
  constructor
  · rintro ⟨hroom, _, _, hfree⟩
    exact ⟨hroom, hfree⟩
  · rintro ⟨hroom, hfree⟩
    exact ⟨hroom, hlength, hsubsidy, hfree⟩

theorem produceBlock_ok_iff (hn : n.Reachable) (hl : n.ledger = some l)
    (hstate : l.ledgerState env.ord = some state)
    (hmine : n.Minable env l (n.blockTxs env l state))
    (hid : n.IdApart env l (n.blockTxs env l state))
    (hapart : l.IdsApart (n.selected env l state)) {fees : List U64} {mid : UtxoSet}
    (hpacks : Packs state (n.selected env l state) fees mid) :
    (∃ id n', n.produceBlock env = .ok (some id, n')) ↔ n.selected env l state ≠ [] ∧
      l.dag.len + 1 < mapCapacity ∧
      (encodeBlockPayload (n.blockTxs env l state)).length < 2 ^ 64 ∧
      l.subsidy.val + sumOf fees < 2 ^ 64 ∧
      ∀ cb ∈ n.issuanceTxs (n.tipsTimestamp env l) (n.selectedFees env l state),
        (⟨cb.id, 0⟩ : OutPoint) ∉ mid := by
  have hreward := applyBlock_reward_iff hl (selected_spends hn) hpacks (n.tipsTimestamp env l)
    fun hfit => (selectedFees_le (hn.plain hl).unbounded hstate hapart hpacks hfit).1
  rw [← issuanceTxs_eq] at hreward
  have hextend := extendTips_ok_iff (hn.plain hl) hstate
    (fun timestamp =>
      n.issuanceTxs timestamp (n.selectedFees env l state) ++ n.selected env l state)
    ((n.selected env l state).map Transaction.id) hmine hid
  rw [hreward] at hextend
  simp only [mem_issuanceTxs, produceBlock_some_iff hl hstate, exists_and_left]
  rw [hextend]
  rfl

/-- What producing depends on: room for a block, a coinbase that is not unspent already,
and, where something is picked, that it fits. -/
structure Producible (env : Env) (n : Node) (l : Ledger) (state : UtxoSet) : Prop where
  room : l.dag.len + 1 < mapCapacity
  empty_free : ∀ cb ∈ n.emptyTxs env l, (⟨cb.id, 0⟩ : OutPoint) ∉ state
  block_fits : n.selected env l state ≠ [] →
    (encodeBlockPayload (n.blockTxs env l state)).length < 2 ^ 64
  fees_fit : n.selected env l state ≠ [] → ∀ fees mid,
    Packs state (n.selected env l state) fees mid → l.subsidy.val + sumOf fees < 2 ^ 64
  block_free : n.selected env l state ≠ [] → ∀ fees mid,
    Packs state (n.selected env l state) fees mid →
      ∀ cb ∈ n.issuanceTxs (n.tipsTimestamp env l) (n.selectedFees env l state),
        (⟨cb.id, 0⟩ : OutPoint) ∉ mid

/-- A node produces an empty block, and where a pending transaction applies to the ledger
state one with exactly the transactions that are picked, if and only if there is room, the
fees fit and neither coinbase is unspent already. -/
theorem produce_iff (hn : n.Reachable) (hl : n.ledger = some l)
    (hstate : l.ledgerState env.ord = some state)
    (hmine : n.Minable env l (n.emptyTxs env l) ∧ n.Minable env l (n.blockTxs env l state))
    (hid : n.IdApart env l (n.emptyTxs env l) ∧ n.IdApart env l (n.blockTxs env l state))
    (hapart : l.IdsApart (n.selected env l state)) :
    ((∃ id n', n.produceEmpty env = .ok (id, n')) ∧
      ((∃ i tx applied, n.mempool.get i = some tx ∧
          applyBlock state [tx] l.subsidy = .ok applied) →
        ∃ id n' applied, n.produceBlock env = .ok (some id, n') ∧
          Built l n' state id (n.blockTxs env l state) applied)) ↔
      n.Producible env l state := by
  have hunbounded := (hn.plain hl).unbounded
  have hselected : ∃ fees mid, Packs state (n.selected env l state) fees mid :=
    selectValid_packs (fun _ htx => hn.invariant.mempool.spend_of_mem_ordered htx) state
  obtain ⟨fees, mid, hpacks⟩ := hselected
  have hempty := produceEmpty_ok_iff hn hl hstate hmine.1 hid.1
  have hblock := produceBlock_ok_iff hn hl hstate hmine.2 hid.2 hapart hpacks
  have hpending : (∃ i tx applied, n.mempool.get i = some tx ∧
      applyBlock state [tx] l.subsidy = .ok applied) ↔ n.selected env l state ≠ [] := by
    rw [selected, selectValid_ne_nil_iff]
    constructor
    · rintro ⟨i, tx, applied, hget, happly⟩
      exact ⟨tx, Mempool.mem_ordered.2 ⟨i, hget⟩, applied, happly⟩
    · rintro ⟨tx, htx, applied, happly⟩
      obtain ⟨i, hget⟩ := Mempool.mem_ordered.1 htx
      exact ⟨i, tx, applied, hget, happly⟩
  rw [hpending, hempty]
  constructor
  · rintro ⟨⟨hroom, hfree⟩, hproduce⟩
    have hproduced : n.selected env l state ≠ [] →
        ∃ id n', n.produceBlock env = .ok (some id, n') := by
      intro hne
      obtain ⟨id, n', _, h, _⟩ := hproduce hne
      exact ⟨id, n', h⟩
    have hparts := fun hne => (hblock.1 (hproduced hne)).2.2
    refine ⟨hroom, hfree, fun hne => (hparts hne).1, fun hne fees' mid' hpacks' => ?_,
      fun hne fees' mid' hpacks' => ?_⟩
    · rw [(hpacks'.unique hpacks).1]
      exact (hparts hne).2.1
    · rw [(hpacks'.unique hpacks).2]
      exact (hparts hne).2.2
  · intro h
    refine ⟨⟨h.room, h.empty_free⟩, fun hne => ?_⟩
    obtain ⟨id, n', hproduce⟩ := hblock.2 ⟨hne, h.room, h.block_fits hne,
      h.fees_fit hne fees mid hpacks, h.block_free hne fees mid hpacks⟩
    obtain ⟨applied, hbuilt⟩ := extendTips_built hunbounded hstate
      ((produceBlock_some_iff hl hstate).1 hproduce).2
    exact ⟨id, n', applied, hproduce, hbuilt⟩

/-! ## Without proof of work -/

theorem minable_of_not_requirePow (hpow : l.dag.requirePow = false)
    (txs : List Transaction) : n.Minable env l txs := by
  intro hon
  rw [hpow] at hon
  cases hon

/-- Without proof of work the nonce is zero. -/
theorem idApart_of_fresh (hpow : l.dag.requirePow = false) {txs : List Transaction}
    (h : ∀ parents ∈ Vec.ofList? l.dag.tipList, ∀ txs' ∈ TxList.ofList? txs,
      (n.tipsBlock env l parents txs' 0).id ∉ l.dag.nodes) : n.IdApart env l txs := by
  intro parents txs' nonce hparents htxs hnonce x hx hid
  have hzero : nonce = 0 := by
    simpa [mineNonce, hpow] using hnonce.symm
  rw [hzero] at hid
  rw [← hid] at hx
  exact absurd hx (h parents hparents txs' htxs)

end Node

end Production

namespace Node

open scoped Passing
open Chained (first trial trial_spec)

/-- A pending transaction on a new ledger. -/
theorem produce_iff_one : ∃ n l state, Reachable n ∧ n.ledger = some l ∧
    l.ledgerState .sorted = some state ∧
    (∃ id n', n.produceEmpty ⟨.sorted, 0⟩ = .ok (id, n')) ∧
    ∃ id n' applied, n.produceBlock ⟨.sorted, 0⟩ = .ok (some id, n') ∧
      Built l n' state id (n.blockTxs ⟨.sorted, 0⟩ l state) applied := by
  have hcheck : (trial [first]).any (fun (n, l, state, _) =>
      decide (l.dag.requirePow = false ∧ l.IdsApart (n.selected ⟨.sorted, 0⟩ l state) ∧
        n.selected ⟨.sorted, 0⟩ l state = [first] ∧
        l.dag.len + 1 < 100 ∧ (∀ cb ∈ n.emptyTxs ⟨.sorted, 0⟩ l, (⟨cb.id, 0⟩ : OutPoint) ∉ state) ∧
        (encodeBlockPayload (n.blockTxs ⟨.sorted, 0⟩ l state)).length < 1000) &&
      decide ((∀ parents ∈ Vec.ofList? l.dag.tipList,
          ∀ txs ∈ TxList.ofList? (n.emptyTxs ⟨.sorted, 0⟩ l),
            (n.tipsBlock ⟨.sorted, 0⟩ l parents txs 0).id ∉ l.dag.nodes) ∧
        ∀ parents ∈ Vec.ofList? l.dag.tipList,
          ∀ txs ∈ TxList.ofList? (n.blockTxs ⟨.sorted, 0⟩ l state),
            (n.tipsBlock ⟨.sorted, 0⟩ l parents txs 0).id ∉ l.dag.nodes) &&
      (applyRegular state first).toOption.any fun applied =>
        decide (l.subsidy.val + applied.2.val < 100 ∧
          ∀ cb ∈ n.issuanceTxs (n.tipsTimestamp ⟨.sorted, 0⟩ l)
              (n.selectedFees ⟨.sorted, 0⟩ l state), (⟨cb.id, 0⟩ : OutPoint) ∉ applied.1)) =
      true := by
    decide +kernel
  obtain ⟨⟨n, l, state, id, n'⟩, htrial, hall⟩ := Option.any_eq_true _ _ |>.1 hcheck
  obtain ⟨hn, hl, hstate, _⟩ := trial_spec htrial
  obtain ⟨hboth, hfirst⟩ := Bool.and_eq_true_iff.1 hall
  obtain ⟨hdec, hfresh⟩ := Bool.and_eq_true_iff.1 hboth
  obtain ⟨hpow, hapart, hselected, hroom, hfree, hfits⟩ := of_decide_eq_true hdec
  obtain ⟨hfreshEmpty, hfreshBlock⟩ := of_decide_eq_true hfresh
  obtain ⟨⟨mid, fee⟩, hregular, hdec'⟩ := Option.any_eq_true _ _ |>.1 hfirst
  obtain ⟨hfee, hfreeBlock⟩ := of_decide_eq_true hdec'
  have hsum : l.subsidy.val + fee.val < 100 := hfee
  have hpacks : ∀ fees mid', Packs state (n.selected ⟨.sorted, 0⟩ l state) fees mid' →
      fees = [fee] ∧ mid' = mid := by
    intro fees mid' hpacks
    rw [hselected] at hpacks
    exact hpacks.unique (.cons (ok_of_toOption hregular) .nil)
  have hcan : n.Producible ⟨.sorted, 0⟩ l state := by
    constructor
    · rw [mapCapacity]
      omega
    · exact hfree
    · exact fun _ => by omega
    · intro _ fees mid' hpack
      rw [(hpacks fees mid' hpack).1, sumOf_cons, sumOf_nil]
      omega
    · intro _ fees mid' hpack
      rw [(hpacks fees mid' hpack).2]
      exact hfreeBlock
  obtain ⟨hempty, hblock⟩ := (produce_iff hn hl hstate
    ⟨minable_of_not_requirePow hpow _, minable_of_not_requirePow hpow _⟩
    ⟨idApart_of_fresh hpow hfreshEmpty, idApart_of_fresh hpow hfreshBlock⟩ hapart).2 hcan
  have hne : n.selected ⟨.sorted, 0⟩ l state ≠ [] := by
    rw [hselected]
    exact List.cons_ne_nil first []
  obtain ⟨tx, htx, applied, happly⟩ := selectValid_ne_nil_iff.1 hne
  obtain ⟨i, hi⟩ := Mempool.mem_ordered.1 htx
  exact ⟨n, l, state, hn, hl, hstate, hempty, hblock ⟨i, tx, applied, hi, happly⟩⟩

end Node

namespace Node

open scoped Reference

/-- A node that has produced a block at time `1000`, and has then received an older one on
top of it. -/
def overtaken : Option (Node × Ledger) := do
  let n ← (producedAt 1000).toOption
  let l ← n.ledger
  let (_, n') ← (n.receiveBlock ⟨.sorted, 0⟩
    ⟨Reference.vec [l.dag.selectedTip], 1, 0, 0, Reference.noTxs⟩).toOption
  let l' ← n'.ledger
  return (n', l')

theorem overtaken_spec {n : Node} {l : Ledger} (h : overtaken = some (n, l)) :
    n.Reachable ∧ n.ledger = some l := by
  simp only [overtaken, Option.bind_eq_bind, Option.bind_eq_some_iff] at h
  obtain ⟨n₀, hproduced, l₀, _, ⟨id, n₁⟩, hreceive, l', hl, heq⟩ := h
  obtain ⟨rfl, rfl⟩ : n₁ = n ∧ l' = l := by
    simpa using heq
  exact ⟨(reachable_of_producedAt (ok_of_toOption hproduced)).receiveBlock
    (ok_of_toOption hreceive), hl⟩

/-- The output that a refused block would have created a second time. -/
def repeated? {α : Type} : Outcome NodeError α → Option OutPoint
  | .error (.error (.insert (.state (.outputAlreadyExists op)))) => some op
  | _ => none

theorem of_repeated? {α : Type} {x : Outcome NodeError α} {op : OutPoint}
    (h : repeated? x = some op) :
    x = .error (.error (.insert (.state (.outputAlreadyExists op)))) := by
  unfold repeated? at h
  split at h
  · rw [Option.some.inj h]
  · cases h

/-- Its next block would repeat the coinbase of its first, and is refused. -/
theorem produceEmpty_refused : ∃ n l op, Reachable n ∧ n.ledger = some l ∧
    l.dag.requirePow = false ∧ n.produceEmpty ⟨.sorted, 0⟩ =
      .error (.error (.insert (.state (.outputAlreadyExists op)))) := by
  have hcheck : overtaken.any (fun played => decide (played.2.dag.requirePow = false) &&
      (repeated? (played.1.produceEmpty ⟨.sorted, 0⟩)).isSome) = true := by
    decide +kernel
  obtain ⟨⟨n, l⟩, hovertaken, hboth⟩ := Option.any_eq_true _ _ |>.1 hcheck
  obtain ⟨hn, hl⟩ := overtaken_spec hovertaken
  obtain ⟨hpow, hrefused⟩ := Bool.and_eq_true_iff.1 hboth
  obtain ⟨op, hop⟩ := Option.isSome_iff_exists.1 hrefused
  exact ⟨n, l, op, hn, hl, of_decide_eq_true hpow, of_repeated? hop⟩

end Node

end Kovanica
