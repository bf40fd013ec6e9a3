import Kovanica.Node.Endings
import Kovanica.Node.Wallet
import Kovanica.State.Mirror

/-!
# Nodes that cannot be told apart

Two ledgers over the same blocks answer every call alike and stay two ledgers over the same
blocks, whatever order the blocks came in and whatever order their maps are iterated in.
So do two nodes over such ledgers with the same mempool, clock and miner.

## Main results

* `offer`, `grew`: one insert into both ledgers.
* `readSnapshot_ord`, `new_ord`: a new ledger and a restored one are the same in every order
  their maps are iterated in.
* `genesis`, `receiveBlock`, `prepareTransfer`: the calls of a node.
-/

namespace Kovanica

open Lib

variable [Crypto]

namespace Ledger

/-- Two ledgers over the same blocks, which may have come in another order, and whose oracles may
have other labels for them. -/
structure Twin (pow : Bool) (l m : Ledger) : Prop where
  left : l.Healthy pow
  right : m.Healthy pow
  compatible : Compatible l m
  mem_iff : ∀ x, x ∈ l.dag.nodes ↔ x ∈ m.dag.nodes

namespace Twin

variable {pow : Bool} {l m l' m' : Ledger}

theorem refl (h : l.Healthy pow) : Twin pow l l where
  left := h
  right := h
  compatible := ⟨rfl, rfl, rfl, fun _ _ _ => rfl⟩
  mem_iff := fun _ => Iff.rfl

theorem block_eq (h : Twin pow l m) (x : BlockId) :
    (l.dag.node x).block = (m.dag.node x).block := by
  by_cases hx : x ∈ l.dag.nodes
  · exact h.compatible.block_eq x hx ((h.mem_iff x).1 hx)
  · rw [DagView.node, DagView.node, valueAt, valueAt, Finmap.lookup_eq_none.2 hx,
      Finmap.lookup_eq_none.2 (mt (h.mem_iff x).2 hx)]

theorem consensus (h : Twin pow l m) : DagView.SameConsensus l.dag.toDagView m.dag.toDagView :=
  (h.compatible.same_of_mem_iff h.left.wellFormed h.right.wellFormed h.mem_iff).1

theorem ledgerState (h : Twin pow l m) (ord ord' : HashOrder) :
    l.ledgerState ord = m.ledgerState ord' := by
  have hsame := h.compatible.same_of_mem_iff h.left.wellFormed h.right.wellFormed h.mem_iff
  rw [h.left.ledgerState, h.right.ledgerState, hsame.2.2.2]

theorem checkStructure_eq (h : Twin pow l m) (block : Block) :
    l.dag.checkStructure block = m.dag.checkStructure block := by
  have hcontains : ∀ p, l.dag.contains p = m.dag.contains p := by
    intro p
    simp only [DagView.contains, h.mem_iff]
  unfold DagView.checkStructure
  simp only [h.mem_iff, hcontains]

theorem len_eq (h : Twin pow l m) : l.dag.len = m.dag.len := by
  have hkeys : l.dag.nodes.keys = m.dag.nodes.keys := by
    ext x
    rw [Finmap.mem_keys, Finmap.mem_keys, h.mem_iff]
  rw [DagView.len, DagView.len, hkeys]

theorem checkPolicy_eq (h : Twin pow l m) (block : Block) (sp : BlockId) :
    l.dag.checkPolicy block sp = m.dag.checkPolicy block sp := by
  rw [Dag.checkPolicy, Dag.checkPolicy, h.left.difficulty_eq, h.left.requirePow_eq,
    h.right.difficulty_eq, h.right.requirePow_eq]

theorem runValidator_eq (h : Twin pow l m) (block : Block) :
    l.dag.runValidator block = m.dag.runValidator block := by
  rw [Dag.runValidator, Dag.runValidator, h.left.wellFormed.validator,
    h.right.wellFormed.validator]
  rfl

/-- Both ledgers grow by the same block. -/
theorem grew (h : Twin pow l m) {block : Block} (hl : l'.Healthy pow) (hm : m'.Healthy pow)
    (hgrew : Grew l l' block) (hgrew' : Grew m m' block) : Twin pow l' m' where
  left := hl
  right := hm
  compatible := by
    refine ⟨hgrew.same.k_eq.symm.trans (h.compatible.k_eq.trans hgrew'.same.k_eq),
      hgrew.same.genesis_eq.symm.trans (h.compatible.genesis_eq.trans hgrew'.same.genesis_eq),
      hgrew.same.subsidy_eq.symm.trans (h.compatible.subsidy_eq.trans hgrew'.same.subsidy_eq), ?_⟩
    intro x hx _
    rcases (hgrew.mem_iff x).1 hx with hold | rfl
    · rw [hgrew.keep x hold, hgrew'.keep x ((h.mem_iff x).1 hold), h.block_eq]
    · rw [hgrew.self, hgrew'.self]
  mem_iff := fun x => by rw [hgrew.mem_iff, hgrew'.mem_iff, h.mem_iff]

theorem agreeOn (h : Twin pow l m) :
    DagView.AgreeOn (DagView.common l.dag.toDagView m.dag.toDagView) l.dag.toDagView
      m.dag.toDagView :=
  h.compatible.agreeOn h.left.wellFormed h.right.wellFormed

theorem mem_common (h : Twin pow l m) {x : BlockId} (hx : x ∈ l.dag.nodes) :
    x ∈ DagView.common l.dag.toDagView m.dag.toDagView :=
  ⟨hx, (h.mem_iff x).1 hx⟩

theorem selectParent_eq (h : Twin pow l m) {parents : List BlockId}
    (hmem : ∀ p ∈ parents, p ∈ l.dag.nodes) :
    l.dag.selectParent parents = m.dag.selectParent parents :=
  h.agreeOn.selectParent_eq (fun p hp => h.mem_common (hmem p hp)) fun _ => Iff.rfl

/-- A block would get the same view in both. -/
theorem view_eq (h : Twin pow l m) {sp : BlockId} (hsp : sp ∈ l.dag.nodes)
    {parents : List BlockId} (hmem : ∀ p ∈ parents, p ∈ l.dag.nodes) (state : UtxoSet) :
    (l.dag.mergesetOrdered sp parents).foldl (applyStored l.dag.toDagView l.subsidy) state =
      (m.dag.mergesetOrdered sp parents).foldl (applyStored m.dag.toDagView m.subsidy) state := by
  have hmerge : l.dag.mergesetOrdered sp parents = m.dag.mergesetOrdered sp parents :=
    h.agreeOn.mergesetOrdered_eq h.left.wellFormed.dag.exact h.right.wellFormed.dag.exact
      (h.mem_common hsp) (fun p hp => h.mem_common (hmem p hp)) fun _ => Iff.rfl
  rw [hmerge, h.compatible.subsidy_eq]
  exact DagView.foldl_applyStored_congr (fun x _ => h.block_eq x) state

theorem lookup_state_eq (h : Twin pow l m) {x : BlockId} (hx : x ∈ l.dag.nodes) :
    l.states.lookup x = m.states.lookup x := by
  have hsame := h.compatible.same_of_mem_iff h.left.wellFormed h.right.wellFormed h.mem_iff
  have hl := h.left.state_eq hx
  have hm := h.right.state_eq ((h.mem_iff x).1 hx)
  rw [← hsame.2.2.1 x hx] at hm
  exact hl.trans hm.symm

/-- The DAGs of both take the same blocks, under the same ids. -/
theorem insert_id (h : Twin pow l m) (ord ord' : HashOrder) {block : Block}
    (hstruct : l.dag.checkStructure block = .ok ()) :
    Outcome.Agree (fun r s => r.1 = s.1) (l.dag.insert ord block) (m.dag.insert ord' block) := by
  obtain ⟨_, hne, hmem⟩ := Dag.checkStructure_ok_iff.1 hstruct
  have hstruct' : m.dag.checkStructure block = .ok () := by
    rw [← h.checkStructure_eq, hstruct]
  obtain ⟨sp, g, hdata, hsel, hsp⟩ := Dag.exists_data (d := l.dag) ord hne
  obtain ⟨sp', g', hdata', hsel', hsp'⟩ := Dag.exists_data (d := m.dag) ord' hne
  obtain rfl : sp' = sp := by
    rw [← h.selectParent_eq hmem, hsp] at hsp'
    exact (Option.some.inj hsp').symm
  rw [Dag.insert_eq hstruct hdata hsel, Dag.insert_eq hstruct' hdata' hsel', h.runValidator_eq,
    h.checkPolicy_eq, h.len_eq]
  cases m.dag.runValidator block with
  | error e => exact rfl
  | ok u =>
      dsimp only
      cases m.dag.checkPolicy block sp' with
      | error e => exact rfl
      | ok u =>
          by_cases hroom : mapCapacity ≤ m.dag.len + 1
          · simp only [if_pos hroom]
            exact rfl
          · simp only [if_neg hroom]
            exact rfl

/-- The verdicts on a block are the same, and so is the id it is stored under. -/
theorem offer_id (h : Twin pow l m) (o o' : Offer) (hblock : o.block = o'.block)
    (htxs : o.txs = o'.txs) :
    Outcome.Agree (fun r s => r.1 = s.1) (l.offer o) (m.offer o') := by
  have hcheck : l.dag.checkStructure o.block = m.dag.checkStructure o'.block := by
    rw [h.checkStructure_eq, hblock]
  cases hstruct : l.dag.checkStructure o.block with
  | error e =>
      rw [offer_eq_of_structure hstruct, offer_eq_of_structure (hcheck.symm.trans hstruct)]
      exact rfl
  | ok u =>
      obtain ⟨_, hne, hmem⟩ := Dag.checkStructure_ok_iff.1 hstruct
      obtain ⟨sp, hsp⟩ := exists_maxByKey l.dag.chainKey hne
      have hspMem := hmem sp (maxByKey_mem hsp)
      have hsp' : m.dag.selectParent o'.block.parents = some sp := by
        rw [← hblock, ← h.selectParent_eq hmem]
        exact hsp
      rw [offer_eq hstruct hsp, offer_eq (hcheck.symm.trans hstruct) hsp',
        h.left.finalityScore_eq_zero, h.right.finalityScore_eq_zero, if_neg (Nat.not_lt_zero _),
        if_neg (Nat.not_lt_zero _), h.lookup_state_eq hspMem, ← hblock]
      cases m.states.lookup sp with
      | none => exact rfl
      | some state =>
          dsimp only
          rw [h.view_eq hspMem hmem, htxs, h.compatible.subsidy_eq]
          cases applyBlock ((m.dag.mergesetOrdered sp o.block.parents).foldl
            (applyStored m.dag.toDagView m.subsidy) state) o'.txs.val m.subsidy with
          | error e => exact rfl
          | ok applied =>
              have hinsert := h.insert_id o.ord o'.ord hstruct
              dsimp only
              cases hcall : l.dag.insert o.ord o.block with
              | error e =>
                  cases hcall' : m.dag.insert o'.ord o.block with
                  | error e' =>
                      rw [hcall, hcall'] at hinsert
                      obtain rfl : e = e' := hinsert
                      cases e <;> exact rfl
                  | ok s =>
                      rw [hcall, hcall'] at hinsert
                      exact hinsert.elim
              | ok r =>
                  cases hcall' : m.dag.insert o'.ord o.block with
                  | error e' =>
                      rw [hcall, hcall'] at hinsert
                      exact hinsert.elim
                  | ok s =>
                      rw [hcall, hcall'] at hinsert
                      exact hinsert

/-- A call that only differs in the order maps are iterated in ends alike. -/
theorem offer (h : Twin pow l m) (o o' : Offer) (hblock : o.block = o'.block)
    (htxs : o.txs = o'.txs) :
    Outcome.Agree (fun r s => r.1 = s.1 ∧ Twin pow r.2 s.2) (l.offer o) (m.offer o') := by
  refine (h.offer_id o o' hblock htxs).imp fun r s hcall hcall' hid => ?_
  obtain ⟨_, hl, hgrew⟩ := h.left.offer hcall
  obtain ⟨_, hm, hgrew'⟩ := h.right.offer hcall'
  rw [← hblock] at hgrew'
  exact ⟨hid, h.grew hl hm hgrew hgrew'⟩

end Twin

namespace Twin

variable {pow : Bool} {l m l' m' : Ledger}

theorem restoreBlock (h : Twin pow l m) (ord ord' : HashOrder) (block : Block) :
    Outcome.Agree (Twin pow) (l.restoreBlock ord block) (m.restoreBlock ord' block) := by
  unfold Ledger.restoreBlock
  cases decodePayload block.payload with
  | error e => exact rfl
  | ok txs =>
      have hoffer := h.offer
        ⟨ord, ⟨block.parents, block.parents_fit⟩, block.work, block.timestampMs, block.nonce, txs⟩
        ⟨ord', ⟨block.parents, block.parents_fit⟩, block.work, block.timestampMs, block.nonce, txs⟩
        rfl rfl
      unfold Ledger.offer at hoffer
      dsimp only at hoffer ⊢
      revert hoffer
      generalize l.insert ord _ _ _ _ _ = x
      generalize m.insert ord' _ _ _ _ _ = y
      intro hoffer
      cases x with
      | error e =>
          cases y with
          | error e' =>
              obtain rfl : e = e' := hoffer
              cases e <;> exact rfl
          | ok s => exact absurd hoffer id
      | ok r =>
          cases y with
          | error e' => exact absurd hoffer id
          | ok s => exact hoffer.2

theorem restoreBlocks (h : Twin pow l m) (ord ord' : HashOrder) (blocks : List Block) :
    Outcome.Agree (Twin pow) (l.restoreBlocks ord blocks) (m.restoreBlocks ord' blocks) := by
  induction blocks generalizing l m with
  | nil => exact h
  | cons block rest ih =>
      have hblock := h.restoreBlock ord ord' block
      rw [Ledger.restoreBlocks, Ledger.restoreBlocks]
      revert hblock
      generalize l.restoreBlock ord block = x
      generalize m.restoreBlock ord' block = y
      intro hblock
      cases x with
      | error e =>
          cases y with
          | error e' => exact hblock
          | ok s => exact absurd hblock id
      | ok r =>
          cases y with
          | error e' => exact absurd hblock id
          | ok s => exact ih hblock

end Twin

/-- A new ledger is the same in every order its maps are iterated in. -/
theorem new_ord (ord ord' : HashOrder) (k : KParam) (subsidy : U64) (genesisTxs : TxList) :
    Ledger.new ord k subsidy genesisTxs = Ledger.new ord' k subsidy genesisTxs := by
  have hparents : (Block.genesis 1 0 0 genesisTxs.payload).parents = [] := rfl
  have hdag := Dag.withValidator_ord ord ord' k hparents txStructureValidator
  simp only [Ledger.new, hdag]

theorem Quiet.healthy {l : Ledger} (h : l.Quiet) : l.Healthy false where
  wellFormed := h.plain.unbounded.reachable.wellFormed
  depth_eq := h.plain.unbounded.depth
  difficulty_eq := h.plain.difficulty_eq
  requirePow_eq := h.requirePow_eq
  stored := h.plain.unbounded.stored
  mined := fun hpow => by cases hpow

/-- The same bytes are restored alike. -/
theorem readSnapshot_ord (ord ord' : HashOrder) (bytes : List U8) :
    Outcome.Agree (Twin false) (readSnapshot ord bytes) (readSnapshot ord' bytes) := by
  unfold readSnapshot
  split
  · exact rfl
  split
  · exact rfl
  dsimp only
  split
  · exact rfl
  cases decodeSnapshot (bytes.drop 14) with
  | error e => exact rfl
  | ok snapshot =>
      dsimp only
      cases snapshot.blocks with
      | nil => exact rfl
      | cons genesis blocks =>
          have hsame : ∀ subsidy, restoreGenesis ord' snapshot.k subsidy genesis =
              restoreGenesis ord snapshot.k subsidy genesis := by
            intro subsidy
            unfold restoreGenesis
            cases decodePayload genesis.payload with
            | error e => rfl
            | ok txs =>
                dsimp only
                rw [new_ord ord' ord]
          dsimp only
          rw [hsame]
          cases hgenesis : restoreGenesis ord snapshot.k
              (Word.cast 64 (ofLeBytes ((bytes.drop 6).take 8))) genesis with
          | error e => exact rfl
          | ok l =>
              exact (Twin.refl (Quiet.of_restoreGenesis hgenesis).healthy).restoreBlocks
                ord ord' blocks

end Ledger

namespace Node

/-! ## Nodes -/

/-- Two nodes over the same blocks, with the same mempool, clock and miner.  No sequence of calls
tells them apart. -/
structure Twin (pow : Bool) (n m : Node) : Prop where
  ledger : Option.Rel (Ledger.Twin pow) n.ledger m.ledger
  mempool_eq : n.mempool = m.mempool
  clock_eq : n.clock = m.clock
  miner_eq : n.miner = m.miner
  filed : n.mempool.Filed

/-- The calls end alike, and leave such nodes. -/
def Follow {ε α : Type} (pow : Bool) : Outcome ε (α × Node) → Outcome ε (α × Node) → Prop :=
  Outcome.Agree fun r s => r.1 = s.1 ∧ Twin pow r.2 s.2

namespace Twin

variable {pow : Bool} {n m : Node} {env env' : Env}

theorem nowMs_eq (h : Twin pow n m) (henv : env.wallMs = env'.wallMs) :
    n.nowMs env = m.nowMs env' := by
  rw [nowMs, nowMs, h.clock_eq, henv]

theorem ledger_cases (h : Twin pow n m) : (n.ledger = none ∧ m.ledger = none) ∨
    ∃ l l', n.ledger = some l ∧ m.ledger = some l' ∧ Ledger.Twin pow l l' := by
  have hrel := h.ledger
  generalize n.ledger = q at hrel ⊢
  generalize m.ledger = r at hrel ⊢
  cases hrel with
  | none => exact .inl ⟨rfl, rfl⟩
  | some hl => exact .inr ⟨_, _, rfl, rfl, hl⟩

theorem subsidy_eq (h : Twin pow n m) : n.ledger.map Ledger.subsidy =
    m.ledger.map Ledger.subsidy := by
  rcases h.ledger_cases with ⟨hn, hm⟩ | ⟨l, l', hn, hm, hl⟩
  · rw [hn, hm]
  · rw [hn, hm]
    exact congrArg some hl.compatible.subsidy_eq

theorem minFee_eq (h : Twin pow n m) : n.minFee = m.minFee := by
  rw [minFee, minFee, h.subsidy_eq]

theorem ledger? (h : Twin pow n m) : Outcome.Agree (Ledger.Twin pow) n.ledger? m.ledger? := by
  rw [Node.ledger?, Node.ledger?]
  rcases h.ledger_cases with ⟨hn, hm⟩ | ⟨l, l', hn, hm, hl⟩
  · rw [hn, hm]
    exact rfl
  · rw [hn, hm]
    exact hl

theorem stateOf (env env' : Env) {l l' : Ledger} (h : Ledger.Twin pow l l') :
    stateOf env l = Node.stateOf env' l' := by
  rw [Node.stateOf, Node.stateOf, h.ledgerState env.ord env'.ord]

theorem balance (h : Twin pow n m) (owner : Address) :
    n.balance env owner = m.balance env' owner := by
  apply Outcome.Agree.eq
  apply h.ledger?.bind
  intro l l' hl
  rw [stateOf env env' hl]
  exact .of_eq rfl

/-- The same output is picked. -/
theorem prepareTransfer (h : Twin pow n m) (env env' : Env) (sender : Address) (amount : U64)
    (recipient : Address) :
    n.prepareTransfer env sender amount recipient =
      m.prepareTransfer env' sender amount recipient := by
  by_cases hamount : amount = 0
  · unfold Node.prepareTransfer
    rw [if_pos hamount, if_pos hamount]
    rfl
  cases hneed : Word.checkedAdd amount m.minFee with
  | none => simp [Node.prepareTransfer, hamount, h.minFee_eq, hneed]
  | some need =>
      have hneed' : Word.checkedAdd amount n.minFee = some need := h.minFee_eq ▸ hneed
      rcases h.ledger_cases with ⟨hn, hm⟩ | ⟨l, l', hn, hm, hl⟩
      · simp [Node.prepareTransfer, hamount, hneed, hneed', Node.ledger?, hn, hm,
          Outcome.error_bind]
      have hstate := hl.left.ledgerState env.ord
      have hstate' := hl.ledgerState env.ord env'.ord
      rw [hstate] at hstate'
      generalize l.dag.replay l.subsidy (l.dag.linearize env.ord) = state at hstate hstate'
      have hhead : (sortByKey coverKey (coverings env.ord state sender need)).head? =
          (sortByKey coverKey (coverings env'.ord state sender need)).head? := by
        apply Option.ext
        rintro ⟨op, value⟩
        rw [head?_coverings_iff, head?_coverings_iff]
      cases hc : (sortByKey coverKey (coverings env'.ord state sender need)).head? with
      | none =>
          rw [prepareTransfer_of_head? hn hstate hamount hneed' (hhead.trans hc),
            prepareTransfer_of_head? hm hstate'.symm hamount hneed hc]
      | some c =>
          rw [prepareTransfer_of_head? hn hstate hamount hneed' (hhead.trans hc),
            prepareTransfer_of_head? hm hstate'.symm hamount hneed hc]
          simp only [preparedOf, h.minFee_eq]

theorem buildTransferTo (h : Twin pow n m) (env env' : Env) (fromSeed amount : U64) (recipient : Address) :
    n.buildTransferTo env fromSeed amount recipient =
      m.buildTransferTo env' fromSeed amount recipient := by
  rw [Node.buildTransferTo, Node.buildTransferTo]
  simp only [h.prepareTransfer env env']

theorem pool (h : Twin pow n m) (fromSeed amount toSeed : U64) :
    Follow pow (n.pool env fromSeed amount toSeed) (m.pool env' fromSeed amount toSeed) := by
  unfold Node.pool
  rw [h.buildTransferTo env env']
  cases hbuild : m.buildTransferTo env' fromSeed amount (address toSeed) with
  | error e => exact rfl
  | ok tx =>
      have hspend := buildTransferTo_spend hbuild
      refine ⟨rfl, ⟨h.ledger, ?_, h.clock_eq, h.miner_eq, h.filed.add hspend⟩⟩
      exact congrArg (fun pool => Mempool.add pool tx) h.mempool_eq

/-! ## Blocks -/

theorem insertBlock (h : Twin pow n m) (env env' : Env) {l l' : Ledger} (hl : Ledger.Twin pow l l')
    (record : BlockRecord) :
    Follow pow (n.insertBlock env l record) (m.insertBlock env' l' record) := by
  have hoffer := hl.offer (offerOf env record) (offerOf env' record) rfl rfl
  unfold Ledger.offer offerOf at hoffer
  dsimp only at hoffer
  unfold Node.insertBlock
  revert hoffer
  generalize l.insert env.ord _ _ _ _ _ = x
  generalize l'.insert env'.ord _ _ _ _ _ = y
  intro hoffer
  cases x with
  | error e =>
      cases y with
      | error e' =>
          obtain rfl : e = e' := hoffer
          cases e <;> exact rfl
      | ok s => exact absurd hoffer id
  | ok r =>
      cases y with
      | error e' => exact absurd hoffer id
      | ok s => exact ⟨hoffer.1, ⟨.some hoffer.2, h.mempool_eq, h.clock_eq, h.miner_eq, h.filed⟩⟩

theorem evictMempool (h : Twin pow n m) :
    Outcome.Agree (Twin pow) (n.evictMempool env) (m.evictMempool env') := by
  rw [Node.evictMempool, Node.evictMempool]
  rcases h.ledger_cases with ⟨hn, hm⟩ | ⟨l, l', hn, hm, hl⟩
  · rw [hn, hm]
    exact h
  · rw [hn, hm]
    dsimp only
    rw [stateOf env env' hl]
    cases Node.stateOf env' l' with
    | error e => exact rfl
    | ok utxo =>
        refine ⟨.some hl, ?_, h.clock_eq, h.miner_eq, h.filed.evictInvalid _ _⟩
        · show n.mempool.evictInvalid env.ord utxo = m.mempool.evictInvalid env'.ord utxo
          rw [h.mempool_eq, Mempool.evictInvalid_ord env.ord env'.ord]

theorem nextTimestamp (h : Twin pow n m) (henv : env.wallMs = env'.wallMs) {l l' : Ledger}
    (hl : Ledger.Twin pow l l') (parents : List BlockId) :
    n.nextTimestamp env l.dag parents = m.nextTimestamp env' l'.dag parents := by
  have hblock : ∀ p, l.dag.block p = l'.dag.block p := hl.consensus.block
  simp only [Node.nextTimestamp, hblock, h.nowMs_eq henv]

omit [Crypto] in
theorem nextWorkTarget_eq_none {d : DagView} (h : d.difficulty = none) (parents : List BlockId) :
    d.nextWorkTarget parents = none := by
  rw [DagView.nextWorkTarget, h]
  rfl

theorem extendTips (h : Twin pow n m) (henv : env.wallMs = env'.wallMs) {l l' : Ledger}
    (hl : Ledger.Twin pow l l') {txsAt txsAt' : U64 → List Transaction} (htxs : txsAt = txsAt')
    (included : List TxId) :
    Follow pow (n.extendTips env l txsAt included) (m.extendTips env' l' txsAt' included) := by
  subst htxs
  unfold Node.extendTips
  rw [hl.consensus.tips]
  apply (Outcome.Agree.of_eq rfl).bind
  rintro parents _ rfl
  rw [h.nextTimestamp henv hl]
  apply (Outcome.Agree.of_eq rfl).bind
  rintro txs _ rfl
  have hwork : l.dag.nextWorkTarget parents.val = l'.dag.nextWorkTarget parents.val := by
    rw [nextWorkTarget_eq_none hl.left.difficulty_eq, nextWorkTarget_eq_none hl.right.difficulty_eq]
  have hnonce : ∀ work timestamp, mineNonce l.dag parents work timestamp txs =
      mineNonce l'.dag parents work timestamp txs := by
    intro work timestamp
    rw [mineNonce, mineNonce, hl.left.requirePow_eq, hl.right.requirePow_eq]
  rw [hwork, hnonce]
  apply (Outcome.Agree.of_eq rfl).bind
  rintro nonce _ rfl
  apply (h.insertBlock env env' hl _).bind
  rintro ⟨block, n₁⟩ ⟨block', m₁⟩ ⟨hid, h₁⟩
  have hremoved : Twin pow { n₁ with mempool := n₁.mempool.removeAll included }
      { m₁ with mempool := m₁.mempool.removeAll included } :=
    ⟨h₁.ledger, congrArg (fun pool => Mempool.removeAll pool included) h₁.mempool_eq, h₁.clock_eq,
      h₁.miner_eq, h₁.filed.removeAll included⟩
  apply hremoved.evictMempool.bind
  intro n₂ m₂ h₂
  exact ⟨hid, h₂⟩

theorem sendTo (h : Twin pow n m) (henv : env.wallMs = env'.wallMs) (fromSeed amount : U64)
    (recipient : Address) : Follow pow (n.sendTo env fromSeed amount recipient)
      (m.sendTo env' fromSeed amount recipient) := by
  unfold Node.sendTo
  rw [h.buildTransferTo env env']
  apply (Outcome.Agree.of_eq rfl).bind
  rintro tx _ rfl
  apply h.ledger?.bind
  intro l l' hl
  apply (h.extendTips henv hl rfl []).bind
  rintro ⟨block, n'⟩ ⟨block', m'⟩ ⟨hid, h'⟩
  exact ⟨congrArg (fun block => (⟨block, tx.id⟩ : Sent)) hid, h'⟩

theorem issuanceTxs (h : Twin pow n m) (timestampMs extraFees : U64) :
    n.issuanceTxs timestampMs extraFees = m.issuanceTxs timestampMs extraFees := by
  have hissuance : n.issuance = m.issuance := by
    rw [issuance, issuance]
    rcases h.ledger_cases with ⟨hn, hm⟩ | ⟨l, l', hn, hm, hl⟩
    · rw [hn, hm]
    · rw [hn, hm]
      simp only [hl.compatible.subsidy_eq, hl.len_eq]
  rw [Node.issuanceTxs, Node.issuanceTxs, h.miner_eq, hissuance]

theorem produceBlock (h : Twin pow n m) (henv : env.wallMs = env'.wallMs) :
    Follow pow (n.produceBlock env) (m.produceBlock env') := by
  unfold Node.produceBlock
  apply h.ledger?.bind
  intro l l' hl
  rw [h.mempool_eq]
  split
  · exact ⟨rfl, h⟩
  rw [stateOf env env' hl]
  apply (Outcome.Agree.of_eq rfl).bind
  rintro state _ rfl
  have hfiled : m.mempool.Filed := h.mempool_eq ▸ h.filed
  dsimp only
  rw [hfiled.ordered_ord env.ord env'.ord, hl.compatible.subsidy_eq]
  split
  · exact ⟨rfl, h⟩
  apply (h.extendTips henv hl (funext fun timestamp => ?_) _).bind
  · rintro ⟨block, n'⟩ ⟨block', m'⟩ ⟨hid, h'⟩
    exact ⟨congrArg some hid, h'⟩
  · rw [h.issuanceTxs]

theorem produceEmpty (h : Twin pow n m) (henv : env.wallMs = env'.wallMs) :
    Follow pow (n.produceEmpty env) (m.produceEmpty env') := by
  unfold Node.produceEmpty
  apply h.ledger?.bind
  intro l l' hl
  exact h.extendTips henv hl (funext fun timestamp => h.issuanceTxs timestamp 0) []

/-- Both nodes are brought up, or neither. -/
theorem genesis {n m : Node} (h : Twin false n m) (k : KParam) (subsidy amount founderSeed : U64) :
    Follow false ((n.genesis env k subsidy amount founderSeed).mapError Fault.error)
      ((m.genesis env' k subsidy amount founderSeed).mapError Fault.error) := by
  unfold Node.genesis
  rcases h.ledger_cases with ⟨hn, hm⟩ | ⟨l, l', hn, hm, hl⟩
  · rw [hn, hm, Ledger.new_ord env.ord env'.ord]
    cases hnew : Ledger.new env'.ord k subsidy (genesisTxs amount founderSeed) with
    | error e => exact rfl
    | ok l =>
        have hl := Ledger.Twin.refl (Ledger.Quiet.of_new hnew).healthy
        exact ⟨rfl, ⟨.some hl, h.mempool_eq, h.clock_eq, rfl, h.filed⟩⟩
  · rw [hn, hm]
    exact rfl

theorem load {n m : Node} (h : Twin false n m) (env env' : Env) (bytes : List U8) :
    Outcome.Agree (Twin false) (n.load env bytes) (m.load env' bytes) := by
  have hread := Ledger.readSnapshot_ord env.ord env'.ord bytes
  unfold Node.load
  revert hread
  generalize Ledger.readSnapshot env.ord bytes = x
  generalize Ledger.readSnapshot env'.ord bytes = y
  intro hread
  cases x with
  | error e =>
      cases y with
      | error e' => exact hread
      | ok s => exact absurd hread id
  | ok r =>
      cases y with
      | error e' => exact absurd hread id
      | ok s => exact ⟨.some hread, h.mempool_eq, h.clock_eq, h.miner_eq, h.filed⟩

/-- A peer's block is received alike. -/
theorem receiveBlock (h : Twin pow n m) (henv : env.wallMs = env'.wallMs) (record : BlockRecord) :
    Follow pow (n.receiveBlock env record) (m.receiveBlock env' record) := by
  unfold Node.receiveBlock
  dsimp only
  rw [h.nowMs_eq henv]
  split
  · exact rfl
  rcases h.ledger_cases with ⟨hn, hm⟩ | ⟨l, l', hn, hm, hl⟩
  · rw [hn, hm]
    exact rfl
  · rw [hn, hm]
    dsimp only
    have hinsert := h.insertBlock env env' hl record
    revert hinsert
    generalize n.insertBlock env l record = x
    generalize m.insertBlock env' l' record = y
    intro hinsert
    cases x with
    | error e =>
        cases y with
        | error e' =>
            obtain rfl : e = e' := hinsert
            split
            · rename_i hok
              cases hok
            · exact ⟨rfl, h⟩
            · exact rfl
        | ok s => exact absurd hinsert id
    | ok r =>
        cases y with
        | error e' => exact absurd hinsert id
        | ok s =>
            obtain ⟨hid, h₁⟩ := hinsert
            apply h₁.evictMempool.bind
            intro n₂ m₂ h₂
            exact ⟨hid, h₂⟩

end Twin

end Node

end Kovanica
