import Kovanica.Node.Node
import Kovanica.State.Agreement

/-!
# How the ledger of a node grows

A node's ledger has no finality and no retargeting, and its proof-of-work switch
is set once.  Every state then stays stored, `ledger_state` always answers, and a
block stored by one such ledger is accepted by any other that holds its parents.
No operation of a node does more to its ledger than insert one block.

## Main results

* `offer`, `offer_stored`: the one insert, of a new block and of one that another such ledger
  stores.
* `state_eq`, `ledgerState`: stored states are replays, and the ledger state is always there.
* `compatible`: ledgers of one genesis take each other's blocks.
* `produceBlock_cases`: a miner makes one block or changes nothing.
-/

namespace Kovanica

open Lib Relation

namespace Ledger

variable [Crypto]

/-- The blocks of a ledger. -/
def blocks (l : Ledger) : Set Block := {b | ∃ x ∈ l.dag.nodes, (l.dag.node x).block = b}

omit [Crypto] in
theorem mem_blocks {l : Ledger} {x : BlockId} (hx : x ∈ l.dag.nodes) :
    (l.dag.node x).block ∈ l.blocks := ⟨x, hx, rfl⟩

/-- A block of the ledger is stored under its id. -/
theorem WellFormed.mem_blocks_iff {l : Ledger} (h : l.WellFormed) {b : Block} :
    b ∈ l.blocks ↔ b.id ∈ l.dag.nodes ∧ (l.dag.node b.id).block = b := by
  constructor
  · rintro ⟨x, hx, rfl⟩
    rw [h.dag.id_eq x _ (DagView.lookup_node hx)]
    exact ⟨hx, rfl⟩
  · rintro ⟨hmem, hstored⟩
    exact ⟨_, hmem, hstored⟩

/-- A block found in another ledger is stored there under the same id. -/
theorem WellFormed.mem_of_mem_blocks {l m : Ledger} (hl : l.WellFormed) (hm : m.WellFormed)
    {x : BlockId} (hx : x ∈ l.dag.nodes) (hblock : (l.dag.node x).block ∈ m.blocks) :
    x ∈ m.dag.nodes := by
  have hmem := (hm.mem_blocks_iff.1 hblock).1
  rwa [hl.dag.id_eq x _ (DagView.lookup_node hx)] at hmem

/-- The ledger of a node, with proof of work on or off since genesis.  It is never pruned, so it
has the state of every block. -/
structure Healthy (pow : Bool) (l : Ledger) : Prop where
  wellFormed : l.WellFormed
  depth_eq : l.finalityDepth = Word.maxValue 64
  difficulty_eq : l.dag.difficulty = none
  requirePow_eq : l.dag.requirePow = pow
  stored : ∀ x ∈ l.dag.nodes, x ∈ l.states
  mined : pow = true → ∀ x ∈ l.dag.nodes, x ≠ l.dag.genesis →
    Pow.isMined (l.dag.node x).block = true

/-- `l'` is `l` with one more block.  The parameters are the same, and every block that was
stored is stored as it was. -/
structure Grew (l l' : Ledger) (block : Block) : Prop where
  fresh : block.id ∉ l.dag.nodes
  parents_mem : ∀ p ∈ block.parents, p ∈ l.dag.nodes
  mem_iff : ∀ x, x ∈ l'.dag.nodes ↔ x ∈ l.dag.nodes ∨ x = block.id
  self : (l'.dag.node block.id).block = block
  keep : ∀ x ∈ l.dag.nodes, (l'.dag.node x).block = (l.dag.node x).block
  same : SameParameters l l'

theorem Grew.blocks_iff {l l' : Ledger} {block : Block} (h : Grew l l' block) {b : Block} :
    b ∈ l'.blocks ↔ b ∈ l.blocks ∨ b = block := by
  constructor
  · rintro ⟨x, hx, rfl⟩
    rcases (h.mem_iff x).1 hx with hold | rfl
    · rw [h.keep x hold]
      exact .inl (mem_blocks hold)
    · exact .inr h.self
  · rintro (⟨x, hx, rfl⟩ | rfl)
    · exact ⟨x, (h.mem_iff x).2 (.inl hx), h.keep x hx⟩
    · exact ⟨_, (h.mem_iff _).2 (.inr rfl), h.self⟩

namespace Healthy

variable {pow : Bool} {l m : Ledger}

theorem finalityScore_eq_zero (h : l.Healthy pow) : l.finalityScore = 0 := by
  rw [finalityScore_eq, if_pos h.depth_eq]

/-- A new ledger has no proof of work. -/
theorem setProofOfWork_new {ord : HashOrder} {k : KParam} {subsidy : U64} {genesisTxs : TxList}
    (h : Ledger.new ord k subsidy genesisTxs = .ok l) : l.setProofOfWork false = l := by
  obtain ⟨applied, _, rfl⟩ := new_eq_ok_iff.1 h
  rfl

/-- A new ledger, its proof of work switched as wanted. -/
theorem of_new {ord : HashOrder} {k : KParam} {subsidy : U64} {genesisTxs : TxList}
    (h : Ledger.new ord k subsidy genesisTxs = .ok l) (pow : Bool) :
    (l.setProofOfWork pow).Healthy pow := by
  have hl : l.WellFormed := Started.wellFormed ⟨ord, k, subsidy, genesisTxs, .inl h⟩
  obtain ⟨applied, _, rfl⟩ := new_eq_ok_iff.1 h
  have hmem : ∀ x, x ∈ (Dag.withValidator ord k (Block.genesis 1 0 0 genesisTxs.payload)
      txStructureValidator).nodes → x = (Block.genesis 1 0 0 genesisTxs.payload).id :=
    fun x hx => (Finmap.mem_singleton _ _ _).1 hx
  refine ⟨hl.policy none pow, rfl, rfl, rfl, fun x hx => ?_, fun _ x hx hne => ?_⟩
  · exact (Finmap.mem_singleton _ _ _).2 (hmem x hx)
  · exact absurd (hmem x hx) hne

/-- An accepted block: the ledger stays healthy and has that block more. -/
theorem offer (h : l.Healthy pow) {o : Offer} {id : BlockId} {l' : Ledger}
    (hoffer : l.offer o = .ok (id, l')) :
    id = o.block.id ∧ l'.Healthy pow ∧ Grew l l' o.block := by
  have hwf := h.wellFormed.insert hoffer
  have hsame : SameParameters l l' := Step.sameParameters (.accepted hoffer)
  have hkeep := (Step.agreeOn h.wellFormed (.accepted hoffer)).1
  obtain ⟨sp, g, state, applied, haccepts, rfl, rfl⟩ := offer_eq_ok_iff.1 hoffer
  have hscore : (l.grown o.block sp g applied.1).finalityScore = 0 := by
    rw [finalityScore_eq]
    exact if_pos h.depth_eq
  have hmem : ∀ x, x ∈ ((l.grown o.block sp g applied.1).prune o.ord).dag.nodes ↔
      x ∈ l.dag.nodes ∨ x = o.block.id := by
    intro x
    rw [prune_dag, or_comm]
    exact Dag.mem_wire haccepts.admits
  have hself : (((l.grown o.block sp g applied.1).prune o.ord).dag.node o.block.id).block =
      o.block := by
    rw [prune_dag]
    exact congrArg Dag.Node.block (DagView.node_of_lookup Dag.lookup_wire_self)
  have hgrew : Grew l ((l.grown o.block sp g applied.1).prune o.ord) o.block :=
    ⟨haccepts.admits.fresh, haccepts.admits.parents_mem, hmem, hself,
      fun x hx => (hkeep.sameCore hx).block.symm, hsame⟩
  refine ⟨rfl, ⟨hwf, ?_, ?_, ?_, fun x hx => ?_, fun hpow x hx hne => ?_⟩, hgrew⟩
  · rw [prune_finalityDepth]
    exact h.depth_eq
  · rw [prune_dag]
    exact h.difficulty_eq
  · rw [prune_dag]
    exact h.requirePow_eq
  · rw [← Finmap.lookup_isSome, lookup_prune, if_neg, Finmap.lookup_isSome]
    · exact Finmap.mem_insert.2 (((hmem x).1 hx).symm.imp id (h.stored x))
    · rintro ⟨_, hlt⟩
      omega
  · rcases (hmem x).1 hx with hold | rfl
    · rw [hgrew.keep x hold]
      exact h.mined hpow x hold (hsame.genesis_eq ▸ hne)
    · have hpolicy := haccepts.admits.policy
      rw [Dag.checkPolicy, h.difficulty_eq, h.requirePow_eq, hpow, Bool.true_and] at hpolicy
      rw [hself, Pow.isMined]
      cases hmined : Pow.meetsTarget o.block.id o.block.work with
      | true => rfl
      | false =>
          rw [hmined] at hpolicy
          cases hpolicy

/-- `ledger_state` always answers, with the replay of the linearization. -/
theorem ledgerState (h : l.Healthy pow) (ord : HashOrder) :
    l.ledgerState ord = some (l.dag.replay l.subsidy (l.dag.linearize ord)) := by
  obtain ⟨state, hstate⟩ := Finmap.mem_iff.1
    (h.stored _ h.wellFormed.dag.selectedTip_mem)
  rw [ledgerState_eq h.wellFormed, hstate, Option.map_some]

/-- The stored state of a block is the replay of its order. -/
theorem state_eq (h : l.Healthy pow) {x : BlockId} (hx : x ∈ l.dag.nodes) :
    l.state x = some (l.dag.replay l.subsidy (l.dag.order x)) := by
  obtain ⟨state, hstate⟩ := Finmap.mem_iff.1 (h.stored x hx)
  rw [Ledger.state, hstate, ← (h.wellFormed.state_eq x state hstate).2]

/-- Without a hash collision, ledgers of the same genesis are compatible. -/
theorem compatible (hm : m.Healthy pow) (hl : l.Healthy pow) (hsame : SameParameters m l)
    {S : Set Block} (hS : Set.InjOn Crypto.blake3 (Block.preimage '' S)) (hmS : m.blocks ⊆ S)
    (hlS : l.blocks ⊆ S) : Compatible m l where
  k_eq := hsame.k_eq
  genesis_eq := hsame.genesis_eq
  subsidy_eq := hsame.subsidy_eq
  block_eq := fun x hx hx' => Block.eq_of_id_eq hS (hmS (mem_blocks hx)) (hlS (mem_blocks hx')) <|
    (hm.wellFormed.dag.id_eq x _ (DagView.lookup_node hx)).trans
      (hl.wellFormed.dag.id_eq x _ (DagView.lookup_node hx')).symm

/-- A block of one ledger offered to another that holds its parents: known
already, accepted, or the node map is full. -/
theorem offer_stored (hm : m.Healthy pow) (hl : l.Healthy pow) (hcompat : Compatible m l)
    {o : Offer} (hblock : o.block ∈ m.blocks) (hgenesis : o.block.id ≠ m.dag.genesis)
    (hparents : ∀ p ∈ o.block.parents, p ∈ l.dag.nodes) :
    (o.block.id ∈ l.dag.nodes ∧ l.offer o = .error (.error (.dag (.duplicateBlock o.block.id)))) ∨
      (o.block.id ∉ l.dag.nodes ∧
        if l.dag.len + 1 < mapCapacity then ∃ l', l.offer o = .ok (o.block.id, l')
        else ∃ site, l.offer o = .error (.panic site)) := by
  obtain ⟨hmem, hstored⟩ := hm.wellFormed.mem_blocks_iff.1 hblock
  by_cases hin : o.block.id ∈ l.dag.nodes
  · refine .inl ⟨hin, offer_eq_of_structure ?_⟩
    rw [DagView.checkStructure, if_pos hin]
  refine .inr ⟨hin, ?_⟩
  have hne : o.block.parents ≠ [] := by
    rw [← hstored]
    exact hm.wellFormed.dag.parents_ne _ _ (DagView.lookup_node hmem) hgenesis
  have hstruct : l.dag.checkStructure o.block = .ok () :=
    Dag.checkStructure_ok_iff.2 ⟨hin, hne, hparents⟩
  have hpolicy : ∀ sp, l.dag.checkPolicy o.block sp = .ok () := by
    intro sp
    rw [Dag.checkPolicy, hl.difficulty_eq, hl.requirePow_eq]
    cases pow with
    | false => rfl
    | true =>
        have hmined := hm.mined rfl _ hmem hgenesis
        rw [hstored, Pow.isMined] at hmined
        rw [hmined]
        rfl
  obtain ⟨sp, hsp⟩ := exists_maxByKey l.dag.chainKey hne
  have hspMem : sp ∈ l.dag.nodes := hparents sp (maxByKey_mem hsp)
  have hcases := hcompat.offer_cases hm.wellFormed hl.wellFormed hmem hstored hstruct hpolicy hsp
  rw [hl.finalityScore_eq_zero, if_neg (Nat.not_lt_zero _)] at hcases
  simp only [hl.stored sp hspMem, true_and] at hcases
  by_cases hroom : l.dag.len + 1 < mapCapacity
  · rw [if_pos hroom] at hcases ⊢
    obtain ⟨id, l', hoffer⟩ := hcases
    obtain ⟨rfl, _⟩ := hl.offer hoffer
    exact ⟨l', hoffer⟩
  · rw [if_neg hroom] at hcases ⊢
    exact hcases

end Healthy

/-! ## Genesis -/

/-- The parameters of a ledger are these: `k`, the subsidy, and the genesis that is made of these
transactions. -/
structure Rooted (k : KParam) (subsidy : U64) (genesisTxs : TxList) (l : Ledger) : Prop where
  k_eq : l.dag.k = k
  subsidy_eq : l.subsidy = subsidy
  genesis_eq : l.dag.genesis = (Block.genesis 1 0 0 genesisTxs.payload).id

namespace Rooted

variable {k : KParam} {subsidy : U64} {genesisTxs : TxList} {l l' : Ledger}

theorem same (h : Rooted k subsidy genesisTxs l) (h' : Rooted k subsidy genesisTxs l') :
    SameParameters l l' where
  k_eq := h.k_eq.trans h'.k_eq.symm
  genesis_eq := h.genesis_eq.trans h'.genesis_eq.symm
  subsidy_eq := h.subsidy_eq.trans h'.subsidy_eq.symm

theorem of_same (h : Rooted k subsidy genesisTxs l) (hsame : SameParameters l l') :
    Rooted k subsidy genesisTxs l' where
  k_eq := hsame.k_eq.symm.trans h.k_eq
  subsidy_eq := hsame.subsidy_eq.symm.trans h.subsidy_eq
  genesis_eq := hsame.genesis_eq.symm.trans h.genesis_eq

end Rooted

end Ledger

namespace Node

variable [Crypto]

/-- The node holds nothing but the genesis, its proof of work switched once. -/
def AtGenesis (k : KParam) (subsidy : U64) (genesisTxs : TxList) (pow : Bool) (n : Node) : Prop :=
  ∃ ord l, Ledger.new ord k subsidy genesisTxs = .ok l ∧ n.ledger = some (l.setProofOfWork pow)

/-- The node has a ledger of that genesis, healthy.  Two such nodes take each other's blocks,
parents first, whatever else they hold. -/
structure Sound (k : KParam) (subsidy : U64) (genesisTxs : TxList) (pow : Bool) (n : Node)
    (l : Ledger) : Prop where
  ledger_eq : n.ledger = some l
  healthy : l.Healthy pow
  rooted : l.Rooted k subsidy genesisTxs

/-- The node has one block more; its clock is the same. -/
def Produced (n n' : Node) (id : BlockId) : Prop :=
  n'.clock = n.clock ∧ ∃ l l' o, n.ledger = some l ∧ l.offer o = .ok (id, l') ∧
    n'.ledger = some l'

/-- The call has left ledger and clock alone. -/
def Kept (n n' : Node) : Prop := n'.ledger = n.ledger ∧ n'.clock = n.clock

/-! ## What each operation does to the ledger -/

section Operations

variable {env : Env} {n n' : Node}

omit [Crypto] in
theorem ledger?_eq_ok {l : Ledger} : n.ledger? = .ok l ↔ n.ledger = some l := by
  rw [ledger?]
  cases n.ledger with
  | none => simp
  | some l' => simp

omit [Crypto] in
theorem orPanic_eq_ok {ε α : Type} {site : String} {x : Option α} {a : α} :
    (orPanic site x : Outcome ε α) = .ok a ↔ x = some a := by
  cases x with
  | none => simp [orPanic]
  | some b => simp [orPanic]

theorem stateOf_eq_ok {l : Ledger} {state : UtxoSet} :
    stateOf env l = .ok state ↔ l.ledgerState env.ord = some state := orPanic_eq_ok

/-- The call of `insert` a record stands for. -/
def offerOf (env : Env) (record : BlockRecord) : Offer :=
  ⟨env.ord, record.parents, record.work, record.timestampMs, record.nonce, record.txs⟩

theorem insertBlock_eq_ok {l : Ledger} {record : BlockRecord} {id : BlockId} :
    n.insertBlock env l record = .ok (id, n') ↔
      ∃ l', l.offer (offerOf env record) = .ok (id, l') ∧ n' = { n with ledger := some l' } := by
  have hoffer : l.insert env.ord record.parents record.work record.timestampMs record.nonce
      record.txs = l.offer (offerOf env record) := rfl
  rw [insertBlock, hoffer]
  cases l.offer (offerOf env record) with
  | error e => cases e <;> simp
  | ok r =>
      simp only [Except.ok.injEq, Prod.mk.injEq]
      constructor
      · rintro ⟨rfl, rfl⟩
        exact ⟨r.2, rfl, rfl⟩
      · rintro ⟨l', rfl, rfl⟩
        exact ⟨rfl, rfl⟩

/-- What `evict_mempool` leaves: the pending spends of unspent outputs. -/
theorem evictMempool_eq_ok (h : n.evictMempool env = .ok n') :
    n' = n ∨ ∃ utxo, n' = { n with mempool := n.mempool.evictInvalid env.ord utxo } := by
  rw [evictMempool] at h
  split at h
  · exact .inl (Except.ok.inj h).symm
  · obtain ⟨utxo, _, hret⟩ := Outcome.bind_eq_ok.1 h
    exact .inr ⟨utxo, (Except.ok.inj hret).symm⟩

/-- Where the ledger state is stored, evicting does not fail. -/
theorem exists_evictMempool {l : Ledger} (hl : n.ledger = some l) {state : UtxoSet}
    (hstate : l.ledgerState env.ord = some state) : ∃ n', n.evictMempool env = .ok n' := by
  rw [evictMempool, hl]
  simp only [stateOf_eq_ok.2 hstate]
  exact ⟨_, rfl⟩

theorem evictMempool_kept (h : n.evictMempool env = .ok n') : Kept n n' := by
  rcases evictMempool_eq_ok h with rfl | ⟨utxo, rfl⟩
  · exact ⟨rfl, rfl⟩
  · exact ⟨rfl, rfl⟩

/-- What the three producing calls have in common: one insert on the tips. -/
theorem extendTips_eq_ok {l : Ledger} {txsAt : U64 → List Transaction} {included : List TxId}
    {id : BlockId} (h : n.extendTips env l txsAt included = .ok (id, n')) :
    ∃ parents txs nonce l', Vec.ofList? l.dag.tipList = some parents ∧
      TxList.ofList? (txsAt (n.nextTimestamp env l.dag parents.val)) = some txs ∧
      mineNonce l.dag parents ((l.dag.nextWorkTarget parents.val).getD 1)
        (n.nextTimestamp env l.dag parents.val) txs = .ok nonce ∧
      l.offer ⟨env.ord, parents, (l.dag.nextWorkTarget parents.val).getD 1,
        n.nextTimestamp env l.dag parents.val, nonce, txs⟩ = .ok (id, l') ∧
      evictMempool env
        { n with ledger := some l', mempool := n.mempool.removeAll included } = .ok n' := by
  obtain ⟨parents, hparents, h⟩ := Outcome.bind_eq_ok.1 h
  obtain ⟨txs, htxs, h⟩ := Outcome.bind_eq_ok.1 h
  obtain ⟨nonce, hnonce, h⟩ := Outcome.bind_eq_ok.1 h
  obtain ⟨⟨block, n₁⟩, hinsert, h⟩ := Outcome.bind_eq_ok.1 h
  obtain ⟨n₂, hevict, hret⟩ := Outcome.bind_eq_ok.1 h
  obtain ⟨l', hoffer, rfl⟩ := insertBlock_eq_ok.1 hinsert
  obtain ⟨rfl, rfl⟩ := Prod.mk.inj (Except.ok.inj hret)
  exact ⟨parents, txs, nonce, l', orPanic_eq_ok.1 hparents, orPanic_eq_ok.1 htxs, hnonce, hoffer,
    hevict⟩

theorem extendTips_produced {l : Ledger} {txsAt : U64 → List Transaction} {included : List TxId}
    {id : BlockId} (hledger : n.ledger = some l)
    (h : n.extendTips env l txsAt included = .ok (id, n')) : Produced n n' id := by
  obtain ⟨_, _, _, l', _, _, _, hoffer, hevict⟩ := extendTips_eq_ok h
  obtain ⟨hkeep, hclock⟩ := evictMempool_kept hevict
  exact ⟨hclock, l, l', _, hledger, hoffer, hkeep⟩

theorem sendTo_produced {fromSeed amount : U64} {recipient : Address} {sent : Sent}
    (h : n.sendTo env fromSeed amount recipient = .ok (sent, n')) : Produced n n' sent.block := by
  obtain ⟨tx, _, h⟩ := Outcome.bind_eq_ok.1 h
  obtain ⟨l, hledger, h⟩ := Outcome.bind_eq_ok.1 h
  obtain ⟨⟨block, n₁⟩, hextend, hret⟩ := Outcome.bind_eq_ok.1 h
  obtain ⟨rfl, rfl⟩ := Prod.mk.inj (Except.ok.inj hret)
  exact extendTips_produced (ledger?_eq_ok.1 hledger) hextend

theorem produceEmpty_produced {id : BlockId} (h : n.produceEmpty env = .ok (id, n')) :
    Produced n n' id := by
  obtain ⟨l, hledger, hextend⟩ := Outcome.bind_eq_ok.1 h
  exact extendTips_produced (ledger?_eq_ok.1 hledger) hextend

/-- `produce_block` makes one block or changes nothing. -/
theorem produceBlock_cases {produced : Option BlockId}
    (h : n.produceBlock env = .ok (produced, n')) :
    match produced with
    | none => n' = n
    | some id => Produced n n' id := by
  obtain ⟨l, hledger, h⟩ := Outcome.bind_eq_ok.1 h
  split at h
  · obtain ⟨rfl, rfl⟩ := Prod.mk.inj (Except.ok.inj h)
    rfl
  obtain ⟨state, _, h⟩ := Outcome.bind_eq_ok.1 h
  simp only at h
  split at h
  · obtain ⟨rfl, rfl⟩ := Prod.mk.inj (Except.ok.inj h)
    rfl
  obtain ⟨⟨block, n₁⟩, hextend, hret⟩ := Outcome.bind_eq_ok.1 h
  obtain ⟨rfl, rfl⟩ := Prod.mk.inj (Except.ok.inj hret)
  exact extendTips_produced (ledger?_eq_ok.1 hledger) hextend

theorem submitTx_kept {tx : Transaction} {id : TxId} (h : n.submitTx tx = .ok (id, n')) :
    Kept n n' := by
  rw [submitTx] at h
  split at h
  · cases h
  · obtain ⟨_, rfl⟩ := Prod.mk.inj (Except.ok.inj h)
    exact ⟨rfl, rfl⟩

/-- A spend is always taken into the mempool. -/
theorem submitTx_pending {tx : Transaction} (hspend : tx.isCoinbase = false) :
    ∃ n', n.submitTx tx = .ok (tx.id, n') ∧ tx.id ∈ n'.mempool.pending := by
  refine ⟨{ n with mempool := n.mempool.add tx }, ?_, ?_⟩
  · rw [submitTx, hspend]
    rfl
  · show tx.id ∈ (n.mempool.add tx).pending
    unfold Mempool.add
    split
    · assumption
    · exact Finmap.mem_insert.2 (.inl rfl)

theorem submitSigned_kept {sender recipient : Address} {amount : U64} {signature : Bytes 64}
    {id : TxId} (h : n.submitSigned env sender amount recipient signature = .ok (id, n')) :
    Kept n n' := by
  obtain ⟨prepared, _, h⟩ := Outcome.bind_eq_ok.1 h
  simp only at h
  split at h
  · cases h
  · exact submitTx_kept h

theorem pool_kept {fromSeed amount toSeed : U64} {id : TxId}
    (h : n.pool env fromSeed amount toSeed = .ok (id, n')) : Kept n n' := by
  obtain ⟨tx, _, hret⟩ := Outcome.bind_eq_ok.1 h
  obtain ⟨_, rfl⟩ := Prod.mk.inj (Except.ok.inj hret)
  exact ⟨rfl, rfl⟩

/-- A received block is inserted or was there. -/
theorem receiveBlock_eq_ok {record : BlockRecord} {id : BlockId}
    (h : n.receiveBlock env record = .ok (id, n')) : ∃ l, n.ledger = some l ∧
      ((l.offer (offerOf env record) = .error (.error (.dag (.duplicateBlock id))) ∧ n' = n) ∨
        ∃ l', l.offer (offerOf env record) = .ok (id, l') ∧
          evictMempool env { n with ledger := some l' } = .ok n') := by
  have hcall : ∀ l : Ledger, l.insert env.ord record.parents record.work record.timestampMs
      record.nonce record.txs = l.offer (offerOf env record) := fun _ => rfl
  rw [receiveBlock] at h
  split at h
  · cases h
  split at h
  · cases h
  rename_i l hledger
  refine ⟨l, hledger, ?_⟩
  split at h
  · rename_i id₁ n₁ hinsert
    obtain ⟨n₂, hevict, hret⟩ := Outcome.bind_eq_ok.1 h
    obtain ⟨l', hoffer, rfl⟩ := insertBlock_eq_ok.1 hinsert
    obtain ⟨rfl, rfl⟩ := Prod.mk.inj (Except.ok.inj hret)
    exact .inr ⟨l', hoffer, hevict⟩
  · rename_i id₁ hdup
    obtain ⟨rfl, rfl⟩ := Prod.mk.inj (Except.ok.inj h)
    refine .inl ⟨?_, rfl⟩
    rw [insertBlock, hcall] at hdup
    split at hdup
    · cases hdup
    · rename_i e he
      simp only [Except.error.injEq, Fault.error.injEq, NodeError.insert.injEq] at hdup
      rw [← hdup]
      exact he
    · cases hdup
  · cases h

theorem receiveBlock_cases {record : BlockRecord} {id : BlockId}
    (h : n.receiveBlock env record = .ok (id, n')) : n' = n ∨ Produced n n' id := by
  obtain ⟨l, hledger, ⟨_, rfl⟩ | ⟨l', hoffer, hevict⟩⟩ := receiveBlock_eq_ok h
  · exact .inl rfl
  · obtain ⟨hkeep, hclock⟩ := evictMempool_kept hevict
    exact .inr ⟨hclock, l, l', _, hledger, hoffer, hkeep⟩

/-- A received block is stored. -/
theorem receiveBlock_stored {record : BlockRecord} {id : BlockId}
    (h : n.receiveBlock env record = .ok (id, n')) :
    ∃ l, n'.ledger = some l ∧ record.block.id ∈ l.dag.nodes := by
  obtain ⟨l, hledger, ⟨hdup, rfl⟩ | ⟨l', hoffer, hevict⟩⟩ := receiveBlock_eq_ok h
  · have hblock : (offerOf env record).block = record.block := rfl
    exact ⟨l, hledger, hblock ▸ Ledger.mem_of_offer_duplicate hdup⟩
  · obtain ⟨sp, g, state, applied, _, heq⟩ := Ledger.insert_eq_ok_iff.1 hoffer
    refine ⟨l', (evictMempool_kept hevict).1, ?_⟩
    rw [(Prod.mk.inj heq).2, Ledger.prune_dag]
    exact Finmap.mem_of_lookup_eq_some Dag.lookup_wire_self

end Operations

/-! ## Records -/

/-- Every stored block has a record, which stands for it. -/
theorem exists_blockRecord {n : Node} {l : Ledger} (hledger : n.ledger = some l)
    (hl : l.WellFormed) {x : BlockId} (hx : x ∈ l.dag.nodes) :
    ∃ record, n.blockRecord x = some record ∧ record.block = (l.dag.node x).block := by
  obtain ⟨txs, hpayload⟩ := hl.encoded x hx
  have hfit : TxList.ofList? txs.val = some txs := by
    rw [TxList.ofList?, dif_pos txs.property]
  have hdecode : (decodeBlockPayload (l.dag.node x).block.payload.val).toOption = some txs.val := by
    rw [hpayload]
    exact congrArg Except.toOption (decode_encode txs)
  refine ⟨⟨⟨(l.dag.node x).block.parents, (l.dag.node x).block.parents_fit⟩,
    (l.dag.node x).block.work, (l.dag.node x).block.timestampMs, (l.dag.node x).block.nonce, txs⟩,
    ?_, ?_⟩
  · rw [Node.blockRecord, hledger]
    simp only [Option.bind_eq_bind, Option.bind_some, DagView.block, DagView.lookup_node hx,
      Option.map_some, hdecode, hfit]
    rfl
  · refine Block.ext ?_ rfl rfl rfl hpayload.symm
    exact ascending_toFinset (l.dag.node x).block.parents_sorted

/-- The record is not dated too far ahead of the clock. -/
def InTime (env : Env) (n : Node) (record : BlockRecord) : Prop :=
  record.timestampMs.val ≤ (n.nowMs env).val + maxFutureDriftMs.val

omit [Crypto] in
theorem inTime_iff {env : Env} {n : Node} {record : BlockRecord} : n.InTime env record ↔
    ¬ Word.saturatingAdd maxFutureDriftMs (n.nowMs env) < record.timestampMs := by
  rw [Fin.lt_def, Word.saturatingAdd_val, InTime]
  have := record.timestampMs.isLt
  omega

instance (env : Env) (n : Node) (record : BlockRecord) : Decidable (n.InTime env record) :=
  inferInstanceAs (Decidable (_ ≤ _))

/-- A record dated too far ahead is refused, whatever it holds. -/
theorem receiveBlock_of_not_inTime {env : Env} {n : Node} {record : BlockRecord}
    (htime : ¬ n.InTime env record) : n.receiveBlock env record =
      .error (.error (.timestampTooFarInFuture record.timestampMs (n.nowMs env))) := by
  rw [inTime_iff, not_not] at htime
  rw [receiveBlock, if_pos htime]

/-- A record of a stored block is known. -/
theorem receiveBlock_of_stored {env : Env} {n : Node} {l : Ledger} {record : BlockRecord}
    (hledger : n.ledger = some l) (hmem : record.block.id ∈ l.dag.nodes)
    (htime : n.InTime env record) : n.receiveBlock env record = .ok (record.block.id, n) := by
  have hdup : l.offer (offerOf env record) =
      .error (.error (.dag (.duplicateBlock record.block.id))) := by
    apply Ledger.offer_eq_of_structure
    have hblock : (offerOf env record).block = record.block := rfl
    rw [hblock, DagView.checkStructure, if_pos hmem]
  have hcall : l.insert env.ord record.parents record.work record.timestampMs record.nonce
      record.txs = l.offer (offerOf env record) := rfl
  rw [Node.receiveBlock, if_neg (inTime_iff.1 htime)]
  simp only [hledger, insertBlock, hcall, hdup]

/-- A record in time that the ledger accepts is taken. -/
theorem receiveBlock_of_accepted {env : Env} {n : Node} {l l' : Ledger} {record : BlockRecord}
    {id : BlockId} {state : UtxoSet} (hledger : n.ledger = some l) (htime : n.InTime env record)
    (hoffer : l.offer (offerOf env record) = .ok (id, l'))
    (hstate : l'.ledgerState env.ord = some state) :
    ∃ n', n.receiveBlock env record = .ok (id, n') ∧ Kept { n with ledger := some l' } n' := by
  have hinsert : n.insertBlock env l record = .ok (id, { n with ledger := some l' }) :=
    insertBlock_eq_ok.2 ⟨l', hoffer, rfl⟩
  obtain ⟨n', hevict⟩ := exists_evictMempool (n := { n with ledger := some l' }) rfl hstate
  refine ⟨n', ?_, evictMempool_kept hevict⟩
  rw [Node.receiveBlock, if_neg (inTime_iff.1 htime)]
  simp only [hledger, hinsert, hevict]
  rfl

/-! ## Sound nodes -/

namespace Sound

variable {k : KParam} {subsidy : U64} {genesisTxs : TxList} {pow : Bool} {n n' : Node}
  {l m : Ledger}

theorem of_atGenesis (h : AtGenesis k subsidy genesisTxs pow n) :
    ∃ l, Sound k subsidy genesisTxs pow n l ∧ ∀ x, x ∈ l.dag.nodes ↔ x = l.dag.genesis := by
  obtain ⟨ord, l, hnew, hledger⟩ := h
  have hhealthy := Ledger.Healthy.of_new hnew pow
  obtain ⟨applied, _, rfl⟩ := Ledger.new_eq_ok_iff.1 hnew
  exact ⟨_, ⟨hledger, hhealthy, rfl, rfl, rfl⟩, fun x => Finmap.mem_singleton _ _ _⟩

theorem kept (h : Sound k subsidy genesisTxs pow n l) (hkept : Kept n n') :
    Sound k subsidy genesisTxs pow n' l where
  ledger_eq := hkept.1.trans h.ledger_eq
  healthy := h.healthy
  rooted := h.rooted

theorem produced (h : Sound k subsidy genesisTxs pow n l) {id : BlockId}
    (hproduced : Produced n n' id) :
    ∃ l' block, Sound k subsidy genesisTxs pow n' l' ∧ Ledger.Grew l l' block ∧ id = block.id := by
  obtain ⟨_, l₁, l', o, hledger, hoffer, hledger'⟩ := hproduced
  obtain rfl := Option.some.inj (h.ledger_eq.symm.trans hledger)
  obtain ⟨hid, hhealthy, hgrew⟩ := h.healthy.offer hoffer
  exact ⟨l', o.block, ⟨hledger', hhealthy, h.rooted.of_same hgrew.same⟩, hgrew, hid⟩

/-- A record of a block stored elsewhere, its parents stored here and its
timestamp within bounds: known already, inserted, or the node map is full. -/
theorem receiveBlock (h : Sound k subsidy genesisTxs pow n l) (hm : m.Healthy pow)
    (hcompat : Ledger.Compatible m l) {record : BlockRecord} (hblock : record.block ∈ m.blocks)
    (hgenesis : record.block.id ≠ m.dag.genesis)
    (hparents : ∀ p ∈ record.block.parents, p ∈ l.dag.nodes) {env : Env}
    (htime : record.timestampMs.val ≤ (n.nowMs env).val + maxFutureDriftMs.val) :
    (record.block.id ∈ l.dag.nodes ∧ n.receiveBlock env record = .ok (record.block.id, n)) ∨
      (record.block.id ∉ l.dag.nodes ∧
        if l.dag.len + 1 < mapCapacity then
          ∃ n' l', n.receiveBlock env record = .ok (record.block.id, n') ∧
            Sound k subsidy genesisTxs pow n' l' ∧ Ledger.Grew l l' record.block ∧
            n'.clock = n.clock
        else ∃ site, n.receiveBlock env record = .error (.panic site)) := by
  have hclock := inTime_iff.1 htime
  have hcall : l.insert env.ord record.parents record.work record.timestampMs record.nonce
      record.txs = l.offer (offerOf env record) := rfl
  rcases hm.offer_stored h.healthy hcompat (o := offerOf env record) hblock hgenesis hparents with
    ⟨hin, _⟩ | ⟨hnot, hcases⟩
  · exact .inl ⟨hin, receiveBlock_of_stored h.ledger_eq hin htime⟩
  · refine .inr ⟨hnot, ?_⟩
    split at hcases
    · rename_i hroom
      rw [if_pos hroom]
      obtain ⟨l', hok⟩ := hcases
      obtain ⟨_, hhealthy, hgrew⟩ := h.healthy.offer hok
      have hsound : Sound k subsidy genesisTxs pow { n with ledger := some l' } l' :=
        ⟨rfl, hhealthy, h.rooted.of_same hgrew.same⟩
      obtain ⟨n', hreceive, hkept⟩ :=
        receiveBlock_of_accepted h.ledger_eq htime hok (hhealthy.ledgerState env.ord)
      exact ⟨n', l', hreceive, hsound.kept hkept, hgrew, hkept.2⟩
    · rename_i hroom
      rw [if_neg hroom]
      obtain ⟨site, hpanic⟩ := hcases
      refine ⟨site, ?_⟩
      rw [Node.receiveBlock, if_neg hclock]
      simp only [h.ledger_eq, insertBlock, hcall, hpanic]

/-- Every stored block has a record, which stands for it. -/
theorem blockRecord (h : Sound k subsidy genesisTxs pow n l) {x : BlockId}
    (hx : x ∈ l.dag.nodes) :
    ∃ record, n.blockRecord x = some record ∧ record.block = (l.dag.node x).block :=
  exists_blockRecord h.ledger_eq h.healthy.wellFormed hx

end Sound

end Node

end Kovanica
