import Kovanica.Dag.Snapshot
import Kovanica.State.Agreement

/-!
# Restoring a ledger from its blocks

A snapshot and a log both store blocks and rebuild the ledger by inserting them
into a new one, of unbounded finality and without policies.  Whether a block is
accepted depends on its past alone, so the blocks of any ledger, in any order
that puts parents first, are accepted again, and the rebuilt ledger has the
states of the stored one.

## Main results

* `Rebuilds.restoreBlocks_ok`, `Reachable.restoreGenesis_ok`: the replay is accepted, block by
  block.
* `Rebuilds.restores`, `Reachable.restore_ok`: and it ends with the states of the ledger.
-/

namespace Kovanica

open Lib Relation

/-- Why a stored ledger could not be rebuilt. -/
inductive LedgerSnapshotError where
  | badMagic
  | unsupportedVersion (version : U16)
  | dag (e : SnapshotError)
  | payload (e : DecodeError)
  | genesis (e : LedgerError)
  | rebuild (e : LedgerInsertError)
  | empty

namespace LedgerSnapshotError

def display : LedgerSnapshotError → String
  | badMagic => "not a kovanica ledger snapshot"
  | unsupportedVersion version => s!"unsupported ledger snapshot version {version.val}"
  | dag e => s!"dag snapshot: {e.display}"
  | payload e => s!"payload decode: {e.display}"
  | genesis e => s!"genesis: {e.display}"
  | rebuild e => s!"replaying block: {e.display}"
  | empty => "snapshot has no genesis block"

end LedgerSnapshotError

/-! ## Stored payloads -/

/-- The transactions of a stored payload, which are no longer than it. -/
def decodePayload (payload : Vec U8) : Except DecodeError TxList :=
  match h : decodeBlockPayload payload.val with
  | .error e => .error e
  | .ok txs => .ok ⟨txs, by rw [encode_of_decode h]; exact payload.property⟩

theorem decodePayload_payload (txs : TxList) : decodePayload txs.payload = .ok txs := by
  have h : decodeBlockPayload txs.payload.val = .ok txs.val := decode_encode txs
  unfold decodePayload
  split
  · rename_i e herror
    rw [herror] at h
    cases h
  · rename_i txs' hok
    rw [hok] at h
    exact congrArg Except.ok (Subtype.ext (Except.ok.inj h))

theorem payload_of_decodePayload {payload : Vec U8} {txs : TxList}
    (h : decodePayload payload = .ok txs) : txs.payload = payload := by
  unfold decodePayload at h
  split at h
  · cases h
  · rename_i txs' hok
    rw [← Except.ok.inj h]
    exact Subtype.ext (encode_of_decode hok)

namespace Ledger

/-! ## The loop over the stored blocks -/

/-- One stored block: its payload is decoded and it is inserted, with all the checks of a block
that is new. -/
def restoreBlock [Crypto] (ord : HashOrder) (l : Ledger) (block : Block) :
    Outcome LedgerSnapshotError Ledger :=
  match decodePayload block.payload with
  | .error e => .error (.error (.payload e))
  | .ok txs =>
      match l.insert ord ⟨block.parents, block.parents_fit⟩ block.work block.timestampMs
          block.nonce txs with
      | .error (.error e) => .error (.error (.rebuild e))
      | .error (.panic site) => .error (.panic site)
      | .ok (_, l) => .ok l

def restoreBlocks [Crypto] (ord : HashOrder) (l : Ledger) :
    List Block → Outcome LedgerSnapshotError Ledger
  | [] => .ok l
  | block :: rest =>
      match restoreBlock ord l block with
      | .error e => .error e
      | .ok l => restoreBlocks ord l rest

/-- The new ledger of a stored genesis: its payload is decoded and applied.  Of its header nothing
is looked at. -/
def restoreGenesis [Crypto] (ord : HashOrder) (k : KParam) (subsidy : U64) (genesis : Block) :
    Outcome LedgerSnapshotError Ledger :=
  match decodePayload genesis.payload with
  | .error e => .error (.error (.payload e))
  | .ok txs =>
      match Ledger.new ord k subsidy txs with
      | .error e => .error (.error (.genesis e))
      | .ok l => .ok l

variable [Crypto]

/-! ## Unbounded ledgers -/

/-- A ledger that was never given a finality depth.  It has dropped no state, so it holds one for
every block of its DAG. -/
structure Unbounded (l : Ledger) : Prop where
  reachable : l.Reachable
  depth : l.finalityDepth = Word.maxValue 64

theorem Unbounded.finalityScore {l : Ledger} (h : Unbounded l) : l.finalityScore = 0 := by
  rw [finalityScore_eq, if_pos h.depth]

omit [Crypto] in
theorem prune_of_depth {l : Ledger} (h : l.finalityDepth = Word.maxValue 64) (ord : HashOrder) :
    l.prune ord = l := by
  have hzero : l.finalityScore = 0 := by rw [finalityScore_eq, if_pos h]
  unfold Ledger.prune
  simp only [hzero, if_true]

theorem Reachable.step {l l' : Ledger} {a : Action} (h : l.Reachable) (hstep : Step l a l') :
    l'.Reachable := by
  obtain ⟨l₀, trace, h₀, hrun⟩ := h
  exact ⟨l₀, _, h₀, hrun.step hstep⟩

theorem Unbounded.step {l l' : Ledger} {a : Action} (h : Unbounded l) (hstep : Step l a l') :
    Unbounded l' where
  reachable := h.reachable.step hstep
  depth := (hstep.agreeOn h.reachable.wellFormed).2.trans h.depth

/-- An unbounded ledger keeps the state of every block. -/
theorem Unbounded.stored {l : Ledger} (h : Unbounded l) : ∀ x ∈ l.dag.nodes, x ∈ l.states := by
  obtain ⟨⟨l₀, trace, h₀, hrun⟩, hdepth⟩ := h
  induction hrun with
  | start =>
      obtain ⟨ord, k, genesisTxs, applied, _, hgenesis, hdag, hstates⟩ := h₀.cases
      intro x hx
      rw [hdag] at hx
      rw [hstates, Finmap.mem_singleton, hgenesis]
      exact (Finmap.mem_singleton _ _ _).1 hx
  | @step trace l l' a hrun hstep ih =>
      have hl := hrun.wellFormed h₀.wellFormed
      have hsame := (hstep.agreeOn hl).2
      have hold := ih (hsame.symm.trans hdepth)
      cases hstep with
      | accepted hinsert =>
          obtain ⟨sp, g, state, applied, haccepts, _, rfl⟩ := offer_eq_ok_iff.1 hinsert
          rw [prune_finalityDepth] at hdepth
          rw [prune_of_depth hdepth]
          intro x hx
          rcases (Dag.mem_wire haccepts.admits).1 hx with rfl | hx
          · exact Finmap.mem_insert.2 (.inl rfl)
          · exact Finmap.mem_insert.2 (.inr (hold x hx))
      | refused _ => exact hold
      | difficulty _ => exact hold
      | proofOfWork _ => exact hold

/-- `ledger_state` always answers, with the replay of the linearization. -/
theorem Unbounded.ledgerState {l : Ledger} (h : Unbounded l) (ord : HashOrder) :
    l.ledgerState ord = some (l.dag.replay l.subsidy (l.dag.linearize ord)) := by
  have hl := h.reachable.wellFormed
  obtain ⟨state, hstate⟩ := Finmap.mem_iff.1 (h.stored _ hl.dag.selectedTip_mem)
  rw [ledgerState_eq hl, hstate, Option.map_some]

/-- The order its maps are iterated in does not show. -/
theorem Unbounded.ledgerState_ord {l : Ledger} (h : Unbounded l) (ord ord' : HashOrder) :
    l.ledgerState ord = l.ledgerState ord' := by
  rw [h.ledgerState, h.ledgerState, h.reachable.wellFormed.dag.linearize_ord ord ord']

theorem Unbounded.of_new {ord : HashOrder} {k : KParam} {subsidy : U64} {genesisTxs : TxList}
    {l : Ledger} (h : Ledger.new ord k subsidy genesisTxs = .ok l) : Unbounded l := by
  refine ⟨⟨l, [], ⟨ord, k, subsidy, genesisTxs, .inl h⟩, .start⟩, ?_⟩
  obtain ⟨applied, _, rfl⟩ := new_eq_ok_iff.1 h
  rfl

/-! ## Rebuilding -/

/-- `m` is an unbounded ledger without policies, over some of the blocks of `l`.  It is what a
replay has arrived at, and it takes any further block of `l` whose parents it has. -/
structure Rebuilds (l m : Ledger) : Prop where
  compatible : Compatible l m
  sub : ∀ x ∈ m.dag.nodes, x ∈ l.dag.nodes
  unbounded : m.Unbounded
  difficulty : m.dag.difficulty = none
  requirePow : m.dag.requirePow = false

omit [Crypto] in
/-- Without policies nothing is refused for one. -/
theorem checkPolicy_of_none [Crypto] {d : Dag} (hdifficulty : d.difficulty = none)
    (hpow : d.requirePow = false) (block : Block) (sp : BlockId) :
    d.checkPolicy block sp = .ok () := by
  simp [Dag.checkPolicy, hdifficulty, hpow]

/-- The blocks after an accepted call: the old ones and the new one. -/
theorem offer_nodes {l l' : Ledger} {o : Offer} {id : BlockId} (h : l.offer o = .ok (id, l')) :
    (∀ x, x ∈ l'.dag.nodes ↔ x = o.block.id ∨ x ∈ l.dag.nodes) ∧
      (l'.dag.node o.block.id).block = o.block := by
  obtain ⟨sp, g, state, applied, haccepts, _, rfl⟩ := offer_eq_ok_iff.1 h
  rw [prune_dag]
  exact ⟨fun x => Dag.mem_wire haccepts.admits,
    congrArg Dag.Node.block (DagView.node_of_lookup Dag.lookup_wire_self)⟩

/-- A restored block was inserted by a call. -/
theorem restoreBlock_offer {m m' : Ledger} {ord : HashOrder} {block : Block}
    (h : m.restoreBlock ord block = .ok m') :
    ∃ o id, o.block = block ∧ m.offer o = .ok (id, m') := by
  unfold restoreBlock at h
  split at h
  · cases h
  rename_i txs hdecode
  split at h
  · cases h
  · cases h
  rename_i id m₁ hinsert
  obtain rfl := Except.ok.inj h
  refine ⟨⟨ord, ⟨block.parents, block.parents_fit⟩, block.work, block.timestampMs, block.nonce,
    txs⟩, id, ?_, hinsert⟩
  show Block.new ⟨block.parents, block.parents_fit⟩ block.work block.timestampMs block.nonce
    txs.payload = block
  rw [payload_of_decodePayload hdecode, SnapshotReader.new_parents]

/-- A stored block whose parents are there already is taken again. -/
theorem Rebuilds.restoreBlock_ok {l m : Ledger} (hl : l.WellFormed) (h : Rebuilds l m)
    {block : Block} (hstored : l.dag.block block.id = some block) (hfresh : block.id ∉ m.dag.nodes)
    (hne : block.parents ≠ []) (hparents : ∀ p ∈ block.parents, p ∈ m.dag.nodes)
    (ord : HashOrder) :
    ∃ m', m.restoreBlock ord block = .ok m' ∧ Rebuilds l m' ∧
      ∀ x, x ∈ m'.dag.nodes ↔ x = block.id ∨ x ∈ m.dag.nodes := by
  have hm := h.unbounded.reachable.wellFormed
  obtain ⟨n, hn, hnb⟩ := Option.map_eq_some_iff.1 hstored
  have hmem : block.id ∈ l.dag.nodes := Finmap.mem_of_lookup_eq_some hn
  have hnode : (l.dag.node block.id).block = block := by
    rw [DagView.node_of_lookup hn, hnb]
  obtain ⟨txs, htxs⟩ := hl.encoded block.id hmem
  rw [hnode] at htxs
  -- the call that inserts it
  let o : Offer := ⟨ord, ⟨block.parents, block.parents_fit⟩, block.work, block.timestampMs,
    block.nonce, txs⟩
  have hblock : o.block = block := by
    show Block.new ⟨block.parents, block.parents_fit⟩ block.work block.timestampMs block.nonce
      txs.payload = block
    rw [← htxs, SnapshotReader.new_parents]
  have hstruct : m.dag.checkStructure o.block = .ok () := by
    rw [hblock]
    exact Dag.checkStructure_ok_iff.2 ⟨hfresh, hne, hparents⟩
  obtain ⟨sp, hsp⟩ := exists_maxByKey m.dag.chainKey (Dag.checkStructure_ok_iff.1 hstruct).2.1
  have hcases := h.compatible.offer_cases hl hm (o := o) (by rw [hblock]; exact hmem)
    (by rw [hblock]; exact hnode) hstruct
    (fun sp => checkPolicy_of_none h.difficulty h.requirePow _ sp) hsp
  have hspMem : sp ∈ m.dag.nodes := by
    apply hparents
    rw [← hblock]
    exact maxByKey_mem hsp
  have hroom : m.dag.len + 1 < mapCapacity := by
    have hlt := hl.dag.len_lt
    have hcard : (Insert.insert block.id m.dag.nodes.keys).card ≤ l.dag.len := by
      apply Finset.card_le_card
      intro x hx
      rcases Finset.mem_insert.1 hx with rfl | hx
      · exact Finmap.mem_keys.2 hmem
      · exact Finmap.mem_keys.2 (h.sub x (Finmap.mem_keys.1 hx))
    rw [Finset.card_insert_of_notMem (mt Finmap.mem_keys.1 hfresh)] at hcard
    exact lt_of_le_of_lt hcard hlt
  rw [if_neg (by rw [h.unbounded.finalityScore]; exact Nat.not_lt_zero _),
    if_pos ⟨h.unbounded.stored sp hspMem, hroom⟩] at hcases
  obtain ⟨id, m', haccepted⟩ := hcases
  have hstep : Step m (.offer o) m' := .accepted haccepted
  have hpolicy := hstep.policy_eq
  have hparameters := hstep.sameParameters
  have hkeep := (hstep.agreeOn hm).1
  obtain ⟨hnodes, hself⟩ := offer_nodes haccepted
  rw [hblock] at hnodes hself
  refine ⟨m', ?_, ⟨⟨?_, ?_, ?_, ?_⟩, ?_, h.unbounded.step hstep, ?_, ?_⟩, hnodes⟩
  · have hinsert : m.insert ord ⟨block.parents, block.parents_fit⟩ block.work block.timestampMs
        block.nonce txs = .ok (id, m') := haccepted
    have hdecode : decodePayload block.payload = .ok txs := htxs ▸ decodePayload_payload txs
    simp only [restoreBlock, hdecode, hinsert]
  · exact h.compatible.k_eq.trans hparameters.k_eq
  · exact h.compatible.genesis_eq.trans hparameters.genesis_eq
  · exact h.compatible.subsidy_eq.trans hparameters.subsidy_eq
  · intro x hx hx'
    rcases (hnodes x).1 hx' with rfl | hold
    · rw [hnode, hself]
    · rw [h.compatible.block_eq x hx hold, (hkeep.sameCore hold).block]
  · intro x hx
    rcases (hnodes x).1 hx with rfl | hold
    · exact hmem
    · exact h.sub x hold
  · rw [hpolicy.1, h.difficulty]
  · rw [hpolicy.2, h.requirePow]

/-- Stored blocks in an order that puts parents first are taken again, one after
the other. -/
theorem Rebuilds.restoreBlocks_ok {l m : Ledger} (hl : l.WellFormed) (h : Rebuilds l m)
    {blocks : List Block} (hstored : ∀ b ∈ blocks, l.dag.block b.id = some b)
    (hnodup : (blocks.map Block.id).Nodup) (hfresh : ∀ b ∈ blocks, b.id ∉ m.dag.nodes)
    (hne : ∀ b ∈ blocks, b.parents ≠ [])
    (hparents : ∀ before b after, blocks = before ++ b :: after →
      ∀ p ∈ b.parents, p ∈ m.dag.nodes ∨ p ∈ before.map Block.id) (ord : HashOrder) :
    ∃ m', m.restoreBlocks ord blocks = .ok m' ∧ Rebuilds l m' ∧
      ∀ x, x ∈ m'.dag.nodes ↔ x ∈ m.dag.nodes ∨ x ∈ blocks.map Block.id := by
  induction blocks generalizing m with
  | nil => exact ⟨m, rfl, h, fun x => by simp⟩
  | cons block rest ih =>
      rw [List.map_cons, List.nodup_cons] at hnodup
      have hfirst := hparents [] block rest rfl
      obtain ⟨m₁, hblock, h₁, hnodes⟩ := h.restoreBlock_ok hl
        (hstored block (List.mem_cons_self ..)) (hfresh block (List.mem_cons_self ..))
        (hne block (List.mem_cons_self ..))
        (fun p hp => (hfirst p hp).resolve_right List.not_mem_nil) ord
      have hrest : ∃ m', m₁.restoreBlocks ord rest = .ok m' ∧ Rebuilds l m' ∧
          ∀ x, x ∈ m'.dag.nodes ↔ x ∈ m₁.dag.nodes ∨ x ∈ rest.map Block.id := by
        apply ih h₁ (fun b hb => hstored b (List.mem_cons_of_mem _ hb)) hnodup.2
        · intro b hb hin
          rcases (hnodes b.id).1 hin with heq | hold
          · exact hnodup.1 (heq ▸ List.mem_map_of_mem hb)
          · exact hfresh b (List.mem_cons_of_mem _ hb) hold
        · exact fun b hb => hne b (List.mem_cons_of_mem _ hb)
        · intro before b after hsplit p hp
          rcases hparents (block :: before) b after (by rw [hsplit]; rfl) p hp with hold | hnew
          · exact .inl ((hnodes p).2 (.inr hold))
          · rcases List.mem_cons.1 hnew with rfl | hnew
            · exact .inl ((hnodes block.id).2 (.inl rfl))
            · exact .inr hnew
      obtain ⟨m', hrestore, hrebuilds, hnodes'⟩ := hrest
      refine ⟨m', ?_, hrebuilds, fun x => ?_⟩
      · rw [restoreBlocks, hblock]
        exact hrestore
      · rw [hnodes', hnodes, List.map_cons, List.mem_cons]
        tauto

/-- The genesis of a reachable ledger is the one its transactions determine, and
these apply to the empty set. -/
theorem Reachable.genesis_block {l : Ledger} (h : l.Reachable) :
    ∃ (genesisTxs : TxList) (applied : UtxoSet × BlockSummary),
      (l.dag.node l.dag.genesis).block = Block.genesis 1 0 0 genesisTxs.payload ∧
        l.dag.genesis = (Block.genesis 1 0 0 genesisTxs.payload).id ∧
        applyBlock ∅ genesisTxs.val l.subsidy = .ok applied := by
  obtain ⟨l₀, trace, h₀, hrun⟩ := h
  obtain ⟨ord, k, genesisTxs, applied, happly, hgenesis, hdag, _⟩ := h₀.cases
  have hl₀ := h₀.wellFormed
  have hsame := hrun.sameParameters
  have hlookup : l₀.dag.nodes.lookup l₀.dag.genesis =
      some ⟨Block.genesis 1 0 0 genesisTxs.payload, 0, ∅, .genesis⟩ := by
    rw [hdag]
    exact Finmap.lookup_singleton_eq
  have hcore := (hrun.agreeOn_start hl₀).sameCore hl₀.dag.genesis_mem
  refine ⟨genesisTxs, applied, ?_, ?_, ?_⟩
  · rw [← hsame.genesis_eq, ← hcore.block, DagView.node_of_lookup hlookup]
  · rw [← hsame.genesis_eq, hl₀.genesis_eq, hgenesis]
  · rw [← hsame.subsidy_eq]
    exact happly

/-- The stored genesis starts a rebuilding. -/
theorem Reachable.restoreGenesis_ok {l : Ledger} (h : l.Reachable) (ord : HashOrder) :
    ∃ m, restoreGenesis ord l.dag.k l.subsidy (l.dag.node l.dag.genesis).block = .ok m ∧
      Rebuilds l m ∧ ∀ x, x ∈ m.dag.nodes ↔ x = l.dag.genesis := by
  obtain ⟨genesisTxs, applied, hblock, hgenesis, happly⟩ := h.genesis_block
  have hl := h.wellFormed
  have hdecode : decodePayload (Block.genesis 1 0 0 genesisTxs.payload).payload =
      .ok genesisTxs := decodePayload_payload genesisTxs
  obtain ⟨m, hm⟩ : ∃ m, Ledger.new ord l.dag.k l.subsidy genesisTxs = .ok m :=
    ⟨_, new_eq_ok_iff.2 ⟨applied, happly, rfl⟩⟩
  have hstarted : Started m := ⟨ord, l.dag.k, l.subsidy, genesisTxs, .inl hm⟩
  obtain ⟨applied', _, hnew⟩ := new_eq_ok_iff.1 hm
  have hlookup : m.dag.nodes.lookup (Block.genesis 1 0 0 genesisTxs.payload).id =
      some ⟨Block.genesis 1 0 0 genesisTxs.payload, 0, ∅, .genesis⟩ := by
    rw [hnew]
    exact Finmap.lookup_singleton_eq
  have hnodes : ∀ x, x ∈ m.dag.nodes ↔ x = l.dag.genesis := by
    intro x
    rw [hnew, hgenesis]
    exact Finmap.mem_singleton _ _ _
  refine ⟨m, by simp only [restoreGenesis, hblock, hdecode, hm], ?_, hnodes⟩
  constructor
  · constructor
    · rw [hnew]
      rfl
    · rw [hnew]
      exact hgenesis
    · rw [hnew]
    · intro x _ hx
      rw [(hnodes x).1 hx, hblock, hgenesis, DagView.node_of_lookup hlookup]
  · intro x hx
    rw [(hnodes x).1 hx]
    exact hl.dag.genesis_mem
  · exact ⟨⟨m, [], hstarted, .start⟩, by rw [hnew]⟩
  · rw [hnew]
    rfl
  · rw [hnew]
    rfl

/-- What a rebuilt ledger shares with the one it was stored from: parameters, blocks, consensus
data and all states that both have.  Policies and depth are not among it. -/
structure Restores (l m : Ledger) : Prop where
  k_eq : m.dag.k = l.dag.k
  subsidy_eq : m.subsidy = l.subsidy
  genesis_eq : m.genesis = l.genesis
  mem_iff : ∀ x, x ∈ m.dag.nodes ↔ x ∈ l.dag.nodes
  consensus : DagView.SameConsensus l.dag.toDagView m.dag.toDagView
  state : ∀ x state, l.state x = some state → m.state x = some state
  ledgerState : ∀ ord ord' state, l.ledgerState ord = some state →
    m.ledgerState ord' = some state
  ledgerState_isSome : ∀ ord, (m.ledgerState ord).isSome

/-- A ledger rebuilt from all blocks restores the stored one. -/
theorem Rebuilds.restores {l m : Ledger} (hl : l.WellFormed) (h : Rebuilds l m)
    (hall : ∀ x ∈ l.dag.nodes, x ∈ m.dag.nodes) : Restores l m := by
  have hm := h.unbounded.reachable.wellFormed
  have hmem : ∀ x, x ∈ l.dag.nodes ↔ x ∈ m.dag.nodes := fun x => ⟨hall x, h.sub x⟩
  obtain ⟨hsame, _, hreplay, hlin⟩ := h.compatible.same_of_mem_iff hl hm hmem
  obtain ⟨tipState, htip⟩ := Finmap.mem_iff.1
    (h.unbounded.stored m.dag.selectedTip hm.dag.selectedTip_mem)
  refine ⟨h.compatible.k_eq.symm, h.compatible.subsidy_eq.symm, ?_, fun x => (hmem x).symm, hsame,
    ?_, ?_, ?_⟩
  · rw [← hm.genesis_eq, ← hl.genesis_eq, h.compatible.genesis_eq]
  · intro x state hstate
    obtain ⟨hx, heq⟩ := hl.state_eq x state hstate
    obtain ⟨state', hstate'⟩ := Finmap.mem_iff.1 (h.unbounded.stored x (hall x hx))
    have heq' := (hm.state_eq x state' hstate').2
    show m.states.lookup x = some state
    rw [hstate', heq', heq, hreplay x hx]
  · intro ord ord' state hstate
    rw [ledgerState_eq hl, Option.map_eq_some_iff] at hstate
    obtain ⟨_, _, rfl⟩ := hstate
    rw [ledgerState_eq hm, htip, Option.map_some, hlin ord ord']
  · intro ord
    rw [ledgerState_eq hm, htip]
    rfl

/-- All blocks of a ledger, genesis first and parents first, rebuild it. -/
theorem Reachable.restore_ok {l : Ledger} (h : l.Reachable) {blocks : List Block}
    (hblocks : l.dag.Replayable blocks) (hall : ∀ x ∈ l.dag.nodes, x ∈ blocks.map Block.id)
    (ord : HashOrder) :
    ∃ rest m₀ m, blocks = (l.dag.node l.dag.genesis).block :: rest ∧
      restoreGenesis ord l.dag.k l.subsidy (l.dag.node l.dag.genesis).block = .ok m₀ ∧
      m₀.restoreBlocks ord rest = .ok m ∧ m.Unbounded ∧ m.dag.difficulty = none ∧
      m.dag.requirePow = false ∧ Restores l m := by
  have hl := h.wellFormed
  obtain ⟨rest, rfl⟩ := hblocks.head
  have hgenesis : (l.dag.node l.dag.genesis).block.id = l.dag.genesis :=
    hl.dag.id_eq _ _ (DagView.lookup_node hl.dag.genesis_mem)
  obtain ⟨m₀, hm₀, hstart, hnodes₀⟩ := h.restoreGenesis_ok ord
  have hnodup := hblocks.nodup
  rw [List.map_cons, List.nodup_cons, hgenesis] at hnodup
  have hrestore : ∃ m, m₀.restoreBlocks ord rest = .ok m ∧ Rebuilds l m ∧
      ∀ x, x ∈ m.dag.nodes ↔ x ∈ m₀.dag.nodes ∨ x ∈ rest.map Block.id := by
    apply hstart.restoreBlocks_ok hl
      (fun b hb => hblocks.stored b (List.mem_cons_of_mem _ hb)) hnodup.2
    · intro b hb hin
      exact hnodup.1 ((hnodes₀ b.id).1 hin ▸ List.mem_map_of_mem hb)
    · intro b hb
      apply hblocks.parents_ne hl.dag (List.mem_cons_of_mem _ hb)
      intro heq
      exact hnodup.1 (heq ▸ List.mem_map_of_mem hb)
    · intro before b after hsplit p hp
      have hbefore := hblocks.parents (_ :: before) b after (by rw [hsplit]; rfl) p hp
      rw [List.map_cons, List.mem_cons, hgenesis] at hbefore
      rwa [hnodes₀]
  obtain ⟨m, hm, hrebuilds, hnodes⟩ := hrestore
  refine ⟨rest, m₀, m, rfl, hm₀, hm, hrebuilds.unbounded, hrebuilds.difficulty,
    hrebuilds.requirePow, hrebuilds.restores hl fun x hx => ?_⟩
  rw [hnodes, hnodes₀]
  have hlisted := hall x hx
  rwa [List.map_cons, List.mem_cons, hgenesis] at hlisted

end Ledger

end Kovanica
