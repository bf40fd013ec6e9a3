import Kovanica.Node.Reachable
import Kovanica.State.Assembly
import Kovanica.State.Packing

/-!
# Blocks on the tips

`send_to`, `produce_block` and `produce_empty` put a block on all tips.  What it is
checked against is the ledger state, so whether one is accepted is decided by its
transactions, as long as a nonce can be found, its id is new and there is room.
`produce_block` picks the transactions one by one, each on what the ones before leave.

## Main results

* `selectValid_packs`: what is picked packs, on the state it is picked from.
* `extendTips_built`: the block that is built and what is checked of it.
* `extendTips_ok_iff`: when it is stored.
-/

namespace Kovanica

open Lib

namespace Node

variable [Crypto]

/-! ## The transactions picked -/

section Select

variable {subsidy : U64}

theorem selectValid_sublist (subsidy : U64) (w : UtxoSet) (candidates : List Transaction) :
    (selectValid subsidy w candidates).Sublist candidates := by
  induction candidates generalizing w with
  | nil => exact .slnil
  | cons tx rest ih =>
      rw [selectValid]
      split
      · exact (ih _).cons_cons tx
      · exact (ih w).cons tx

/-- Picked spends pack. -/
theorem selectValid_packs {candidates : List Transaction}
    (hspends : ∀ tx ∈ candidates, tx.isCoinbase = false) (w : UtxoSet) :
    ∃ fees mid, Packs w (selectValid subsidy w candidates) fees mid := by
  induction candidates generalizing w with
  | nil => exact ⟨[], w, .nil⟩
  | cons tx rest ih =>
      have hrest := fun tx htx => hspends tx (List.mem_cons_of_mem _ htx)
      rw [selectValid]
      split
      · rename_i applied happly
        obtain ⟨next, summary⟩ := applied
        obtain ⟨fee, hfirst, _⟩ :=
          (applyBlock_single_iff (hspends tx (List.mem_cons_self ..))).1 happly
        obtain ⟨fees, mid, hpacks⟩ := ih hrest next
        exact ⟨fee :: fees, mid, .cons hfirst hpacks⟩
      · exact ih hrest w

/-- Something is picked exactly when one of the candidates applies on its own. -/
theorem selectValid_ne_nil_iff {w : UtxoSet} {candidates : List Transaction} :
    selectValid subsidy w candidates ≠ [] ↔
      ∃ tx ∈ candidates, ∃ applied, applyBlock w [tx] subsidy = .ok applied := by
  induction candidates with
  | nil => simp [selectValid]
  | cons tx rest ih =>
      rw [selectValid]
      cases happly : applyBlock w [tx] subsidy with
      | ok applied =>
          have happlies : ∃ tx' ∈ tx :: rest, ∃ applied, applyBlock w [tx'] subsidy = .ok applied :=
            ⟨tx, List.mem_cons_self .., applied, happly⟩
          exact iff_of_true (List.cons_ne_nil tx _) happlies
      | error e => simpa [happly] using ih

end Select

variable {n n' : Node} {env : Env} {l : Ledger} {state : UtxoSet}

/-- The transactions `produce_block` picks from what is pending: by id, each on the state that the
ones picked before it leave. -/
def selected (env : Env) (n : Node) (l : Ledger) (state : UtxoSet) : List Transaction :=
  selectValid l.subsidy state (n.mempool.ordered env.ord)

/-- What it takes their fees for. -/
def selectedFees (env : Env) (n : Node) (l : Ledger) (state : UtxoSet) : U64 :=
  (n.selected env l state).foldl (fun acc tx => acc + feeOf state tx) 0

theorem produceBlock_some_iff (hl : n.ledger = some l)
    (hstate : l.ledgerState env.ord = some state) {id : BlockId} :
    n.produceBlock env = .ok (some id, n') ↔ n.selected env l state ≠ [] ∧
      n.extendTips env l (fun timestamp =>
          n.issuanceTxs timestamp (n.selectedFees env l state) ++ n.selected env l state)
        ((n.selected env l state).map Transaction.id) = .ok (id, n') := by
  have hledger : n.ledger? = .ok l := ledger?_eq_ok.2 hl
  have hstateOf : stateOf env l = .ok state := stateOf_eq_ok.2 hstate
  by_cases hempty : n.mempool.isEmpty = true
  · have hnone : n.selected env l state = [] := by
      have hkeys : n.mempool.pending.keys = ∅ := of_decide_eq_true hempty
      simp [selected, Mempool.ordered, HashOrder.entries, hkeys, sortByKey, selectValid]
    simp [produceBlock, hledger, Outcome.ok_bind, hempty, hnone, pure, Except.pure]
  · by_cases hnil : n.selected env l state = []
    · have hnil' := hnil
      rw [selected] at hnil'
      simp [produceBlock, hledger, hstateOf, Outcome.ok_bind, hempty, hnil, hnil', pure,
        Except.pure]
    · have hnil' := hnil
      rw [selected] at hnil'
      constructor
      · intro h
        refine ⟨hnil, ?_⟩
        simp [produceBlock, hledger, hstateOf, Outcome.ok_bind, hempty, hnil'] at h
        obtain ⟨⟨block, n₁⟩, hextend, hret⟩ := Outcome.bind_eq_ok.1 h
        obtain ⟨hid, hn⟩ := Prod.mk.inj (Except.ok.inj hret)
        rw [← Option.some.inj hid, ← hn]
        exact hextend
      · rintro ⟨_, h⟩
        have h' : extendTips env n l (fun timestamp => n.issuanceTxs timestamp
            ((selectValid l.subsidy state (n.mempool.ordered env.ord)).foldl
              (fun acc tx => acc + feeOf state tx) 0) ++
            selectValid l.subsidy state (n.mempool.ordered env.ord))
          ((selectValid l.subsidy state (n.mempool.ordered env.ord)).map Transaction.id) =
            .ok (id, n') := h
        simp [produceBlock, hledger, hstateOf, Outcome.ok_bind, hempty, hnil', h', pure,
          Except.pure]

/-! ## The block on the tips -/

/-- The timestamp of the block on the tips. -/
def tipsTimestamp (env : Env) (n : Node) (l : Ledger) : U64 :=
  n.nextTimestamp env l.dag l.dag.tipList

/-- The block on the tips with these transactions and this nonce. -/
def tipsBlock (env : Env) (n : Node) (l : Ledger) (parents : Vec BlockId) (txs : TxList)
    (nonce : U64) : Block :=
  Ledger.blockOf parents ((l.dag.nextWorkTarget parents.val).getD 1)
    (n.nextTimestamp env l.dag parents.val) nonce txs

/-- Where proof of work is on, some nonce wins for the block with these transactions.  Whether one
does is up to BLAKE3, so it is a hypothesis. -/
def Minable (env : Env) (n : Node) (l : Ledger) (txs : List Transaction) : Prop :=
  l.dag.requirePow = true → ∀ parents txs', Vec.ofList? l.dag.tipList = some parents →
    TxList.ofList? txs = some txs' → ∃ nonce, Pow.isMined (n.tipsBlock env l parents txs' nonce) = true

/-- The block that is mined with these transactions has the id of no other block. -/
def IdApart (env : Env) (n : Node) (l : Ledger) (txs : List Transaction) : Prop :=
  ∀ parents txs' nonce, Vec.ofList? l.dag.tipList = some parents →
    TxList.ofList? txs = some txs' →
      mineNonce l.dag parents ((l.dag.nextWorkTarget parents.val).getD 1)
        (n.nextTimestamp env l.dag parents.val) txs' = .ok nonce →
      ∀ x ∈ l.dag.nodes, (n.tipsBlock env l parents txs' nonce).id = x →
        (l.dag.node x).block = n.tipsBlock env l parents txs' nonce

/-- A call has stored a block with these transactions, whose view is this state: it applied there,
and the node has the grown ledger. -/
def Built (l : Ledger) (n' : Node) (state : UtxoSet) (id : BlockId) (txs : List Transaction)
    (applied : UtxoSet × BlockSummary) : Prop :=
  ∃ l' block preview, n'.ledger = some l' ∧ l'.dag.block id = some block ∧
    decodeBlockPayload block.payload.val = .ok txs ∧ l.dag.preview block = .ok preview ∧
      l.viewState preview = some state ∧ applyBlock state txs l.subsidy = .ok applied

theorem Built.applies {id : BlockId} {txs : List Transaction} {applied : UtxoSet × BlockSummary}
    (h : Built l n' state id txs applied) : applyBlock state txs l.subsidy = .ok applied := by
  obtain ⟨_, _, _, _, _, _, _, _, happly⟩ := h
  exact happly

/-! ## Mining -/

/-- The search finds a winning nonce where there is one. -/
theorem exists_mineLoop (template : Block) (count : Nat) {start nonce : Nat} (hstart : start ≤ nonce)
    (hlt : nonce < start + count)
    (hwins : Pow.isMined (template.withNonce (Word.cast 64 nonce)) = true) :
    ∃ found, Pow.mineLoop template count start = some (template.withNonce found) ∧
      Pow.isMined (template.withNonce found) = true := by
  induction count generalizing start with
  | zero => omega
  | succ count ih =>
      have hwork : ∀ found, (template.withNonce found).work = template.work := fun _ => rfl
      rw [Pow.mineLoop]
      split
      · rename_i hmeets
        refine ⟨Word.cast 64 start, rfl, ?_⟩
        rw [Pow.isMined, hwork]
        exact hmeets
      · rename_i hfails
        have hne : start ≠ nonce := by
          intro heq
          rw [heq] at hfails
          exact hfails hwins
        exact ih (by omega) (by omega)

theorem exists_mineNonce {d : Dag} {parents : Vec BlockId} (work : U128) (timestampMs : U64)
    {txs : TxList} (h : d.requirePow = true → ∃ nonce, Pow.isMined
      (Ledger.blockOf parents work timestampMs nonce txs) = true) :
    ∃ nonce, mineNonce d parents work timestampMs txs = .ok nonce ∧ (d.requirePow = true →
      Pow.isMined (Ledger.blockOf parents work timestampMs nonce txs) = true) := by
  cases hpow : d.requirePow with
  | false => exact ⟨0, by simp [mineNonce, hpow], by simp⟩
  | true =>
      obtain ⟨nonce, hwins⟩ := h hpow
      have hcast : (Word.cast 64 nonce.val : U64) = nonce :=
        Fin.ext (Word.cast_of_lt nonce.isLt)
      obtain ⟨found, hmine, hmined⟩ := exists_mineLoop
        (Block.new parents work timestampMs 0 txs.payload) (2 ^ 64)
        (Nat.zero_le nonce.val) (by omega) (by rw [hcast]; exact hwins)
      have hfound : Pow.mine (Block.new parents work timestampMs 0 txs.payload) =
          some ((Block.new parents work timestampMs 0 txs.payload).withNonce found) := hmine
      refine ⟨found, ?_, fun _ => hmined⟩
      rw [mineNonce, hpow, hfound]
      rfl

/-! ## What decides whether it is stored -/

omit [Crypto] in
theorem tips_val {parents : Vec BlockId} (h : Vec.ofList? l.dag.tipList = some parents) :
    parents.val = l.dag.tipList := by
  unfold Vec.ofList? at h
  split at h
  · rw [← Option.some.inj h]
  · cases h

omit [Crypto] in
theorem onTips {parents : Vec BlockId} (h : Vec.ofList? l.dag.tipList = some parents) :
    l.OnTips parents := by
  intro p
  rw [tips_val h, DagView.tipList, mem_ascending]

theorem exists_tips (hl : l.WellFormed) : ∃ parents, Vec.ofList? l.dag.tipList = some parents := by
  have hsub : l.dag.tips ⊆ l.dag.nodes.keys := by
    intro p hp
    rw [Finmap.mem_keys]
    exact ((hl.dag.tips_iff p).1 hp).1
  have hlen : l.dag.tipList.length = l.dag.tips.card := by
    rw [← Multiset.coe_card, DagView.tipList, coe_ascending, Finset.card_val]
  have hcard : l.dag.tips.card ≤ l.dag.len := Finset.card_le_card hsub
  have hlt := hl.dag.len_lt
  have hfit : l.dag.tipList.length < 2 ^ 64 := by
    rw [mapCapacity] at hlt
    omega
  exact ⟨⟨_, hfit⟩, dif_pos hfit⟩

omit [Crypto] in
theorem val_of_ofList? {txs : List Transaction} {txs' : TxList}
    (h : TxList.ofList? txs = some txs') : txs'.val = txs := by
  unfold TxList.ofList? at h
  split at h
  · rw [← Option.some.inj h]
  · cases h

/-- A block on the tips is stored only if it was stored before, which its parents
exclude. -/
theorem IdApart.fresh {txs : List Transaction} (h : n.IdApart env l txs) (hl : l.WellFormed)
    {parents : Vec BlockId} {txs' : TxList} {nonce : U64}
    (hparents : Vec.ofList? l.dag.tipList = some parents) (htxs : TxList.ofList? txs = some txs')
    (hnonce : mineNonce l.dag parents ((l.dag.nextWorkTarget parents.val).getD 1)
      (n.nextTimestamp env l.dag parents.val) txs' = .ok nonce) :
    (n.tipsBlock env l parents txs' nonce).id ∉ l.dag.nodes := by
  intro hmem
  have hsame := h parents txs' nonce hparents htxs hnonce _ hmem rfl
  have htip := hl.dag.selectedTip_spec.1
  have hparent : l.dag.selectedTip ∈ (n.tipsBlock env l parents txs' nonce).parents :=
    ((onTips hparents).block _ _ _ _ _).2 htip
  have hedge : l.dag.Edge l.dag.selectedTip (n.tipsBlock env l parents txs' nonce).id := by
    refine ⟨_, DagView.lookup_node hmem, ?_⟩
    rw [hsame]
    exact hparent
  exact ((hl.dag.tips_iff _).1 htip).2 _ hedge

/-- What is put on the tips is checked against the ledger state. -/
theorem extendTips_built (hl : l.Unbounded) (hstate : l.ledgerState env.ord = some state)
    {txsAt : U64 → List Transaction} {included : List TxId} {id : BlockId}
    (h : n.extendTips env l txsAt included = .ok (id, n')) :
    ∃ applied, Built l n' state id (txsAt (n.tipsTimestamp env l)) applied := by
  obtain ⟨parents, txs, nonce, l', hparents, htxs, _, hoffer, hevict⟩ := extendTips_eq_ok h
  have hval := val_of_ofList? htxs
  rw [tips_val hparents] at hval
  have hwf := hl.reachable.wellFormed
  obtain ⟨g, applied, hdata, happly, hfresh, _, _, hr⟩ :=
    (hwf.insert_tips_iff hstate (onTips hparents) rfl).1 hoffer
  obtain ⟨rfl, rfl⟩ := Prod.mk.inj hr
  have hedges := (onTips hparents).block ((l.dag.nextWorkTarget parents.val).getD 1)
    (n.nextTimestamp env l.dag parents.val) nonce txs
  have hstruct : l.dag.checkStructure (n.tipsBlock env l parents txs nonce) = .ok () := by
    rw [Dag.checkStructure_ok_iff]
    refine ⟨hfresh, List.ne_nil_of_mem ((hedges _).2 hwf.dag.selectedTip_spec.1), ?_⟩
    intro p hp
    exact ((hwf.dag.tips_iff p).1 ((hedges p).1 hp)).1
  have hpreview := Ledger.preview_eq_ok hstruct (hwf.dag.selectParent_tips hedges)
  refine ⟨applied, _, n.tipsBlock env l parents txs nonce, _, (evictMempool_kept hevict).1, ?_, ?_,
    hpreview, ?_, ?_⟩
  · rw [Ledger.prune_dag]
    exact congrArg (Option.map Dag.Node.block) Dag.lookup_wire_self
  · rw [tipsTimestamp, ← hval]
    exact decode_encode txs
  · rw [← hstate]
    exact hwf.viewState_tips env.ord hedges
  · rw [tipsTimestamp, ← hval]
    exact happly

/-- On all tips there is consensus data. -/
theorem exists_ghostdag (hl : l.dag.WellFormed) (ord : HashOrder) {parents : List BlockId}
    (hparents : ∀ p, p ∈ parents ↔ p ∈ l.dag.tips) :
    ∃ g, l.dag.computeGhostdag ord parents = some g := by
  rw [DagView.computeGhostdag, hl.selectParent_tips hparents]
  exact ⟨_, rfl⟩

/-- A mined block passes the policies of a ledger without retargeting. -/
theorem checkPolicy_of_mined (hl : l.Plain) {block : Block} (sp : BlockId)
    (hmined : l.dag.requirePow = true → Pow.isMined block = true) :
    l.dag.checkPolicy block sp = .ok () := by
  rw [Dag.checkPolicy, hl.difficulty_eq]
  cases hpow : l.dag.requirePow with
  | false => rfl
  | true =>
      have hmeets := hmined hpow
      rw [Pow.isMined] at hmeets
      simp [hmeets]

/-- An accepted block is stored: a ledger without finality always has a state to evict
by. -/
theorem exists_extendTips (hl : l.Plain) {txsAt : U64 → List Transaction} {included : List TxId}
    {parents : Vec BlockId} {txs : TxList} {nonce : U64} {id : BlockId} {l' : Ledger}
    (hparents : Vec.ofList? l.dag.tipList = some parents)
    (htxs : TxList.ofList? (txsAt (n.nextTimestamp env l.dag parents.val)) = some txs)
    (hnonce : mineNonce l.dag parents ((l.dag.nextWorkTarget parents.val).getD 1)
      (n.nextTimestamp env l.dag parents.val) txs = .ok nonce)
    (hoffer : l.offer ⟨env.ord, parents, (l.dag.nextWorkTarget parents.val).getD 1,
      n.nextTimestamp env l.dag parents.val, nonce, txs⟩ = .ok (id, l')) :
    ∃ id n', n.extendTips env l txsAt included = .ok (id, n') := by
  have hinsert : n.insertBlock env l ⟨parents, (l.dag.nextWorkTarget parents.val).getD 1,
      n.nextTimestamp env l.dag parents.val, nonce, txs⟩ =
        .ok (id, { n with ledger := some l' }) := insertBlock_eq_ok.2 ⟨l', hoffer, rfl⟩
  have hstate := (hl.offer hoffer).unbounded.ledgerState env.ord
  have hevict : ∃ n', evictMempool env
      { n with ledger := some l', mempool := n.mempool.removeAll included } = .ok n' :=
    exists_evictMempool rfl hstate
  obtain ⟨n', hevict⟩ := hevict
  refine ⟨id, n', ?_⟩
  simp [extendTips, hparents, orPanic, Outcome.ok_bind, htxs, hnonce, hinsert, hevict, pure,
    Except.pure]

/-- Where a nonce can be found and no id collides, it is a matter of room and of the
transactions. -/
theorem extendTips_ok_iff (hl : l.Plain) (hstate : l.ledgerState env.ord = some state)
    (txsAt : U64 → List Transaction) (included : List TxId)
    (hmine : n.Minable env l (txsAt (n.tipsTimestamp env l)))
    (hid : n.IdApart env l (txsAt (n.tipsTimestamp env l))) :
    (∃ id n', n.extendTips env l txsAt included = .ok (id, n')) ↔ l.dag.len + 1 < mapCapacity ∧
      (encodeBlockPayload (txsAt (n.tipsTimestamp env l))).length < 2 ^ 64 ∧
        ∃ applied, applyBlock state (txsAt (n.tipsTimestamp env l)) l.subsidy = .ok applied := by
  have hwf := hl.unbounded.reachable.wellFormed
  constructor
  · intro ⟨id, n', h⟩
    obtain ⟨parents, txs, nonce, l', hparents, htxs, _, hoffer, _⟩ := extendTips_eq_ok h
    have hval := val_of_ofList? htxs
    rw [tips_val hparents] at hval
    obtain ⟨_, applied, _, happly, _, _, hroom, _⟩ :=
      (hwf.insert_tips_iff hstate (onTips hparents) rfl).1 hoffer
    rw [tipsTimestamp, ← hval]
    exact ⟨hroom, txs.property, applied, happly⟩
  · intro ⟨hroom, hfit, applied, happly⟩
    obtain ⟨parents, hparents⟩ := exists_tips hwf
    have htxs : TxList.ofList? (txsAt (n.tipsTimestamp env l)) =
        some ⟨txsAt (n.tipsTimestamp env l), hfit⟩ := dif_pos hfit
    obtain ⟨nonce, hnonce, hmined⟩ := exists_mineNonce
      ((l.dag.nextWorkTarget parents.val).getD 1) (n.nextTimestamp env l.dag parents.val)
      fun hpow => hmine hpow parents _ hparents htxs
    obtain ⟨g, hdata⟩ := exists_ghostdag hwf.dag env.ord
      ((onTips hparents).block ((l.dag.nextWorkTarget parents.val).getD 1)
        (n.nextTimestamp env l.dag parents.val) nonce ⟨txsAt (n.tipsTimestamp env l), hfit⟩)
    have hoffer : l.offer ⟨env.ord, parents, (l.dag.nextWorkTarget parents.val).getD 1,
        n.nextTimestamp env l.dag parents.val, nonce, ⟨txsAt (n.tipsTimestamp env l), hfit⟩⟩ =
          .ok _ := (hwf.insert_tips_iff hstate (onTips hparents) rfl).2 ⟨g, applied, hdata, happly,
      hid.fresh hwf hparents htxs hnonce, checkPolicy_of_mined hl _ hmined, hroom, rfl⟩
    have hts : n.nextTimestamp env l.dag parents.val = n.tipsTimestamp env l := by
      rw [tips_val hparents, tipsTimestamp]
    have htxs' : TxList.ofList? (txsAt (n.nextTimestamp env l.dag parents.val)) =
        some ⟨txsAt (n.tipsTimestamp env l), hfit⟩ := by
      rw [hts]
      exact htxs
    exact exists_extendTips hl hparents htxs' hnonce hoffer

end Node

end Kovanica
