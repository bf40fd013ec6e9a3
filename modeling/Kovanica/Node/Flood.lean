import Kovanica.Lib.Flood
import Kovanica.Node.Trace

/-!
# Floods lose no block

Nodes of one genesis, connected with each other, that announce the blocks they
produce and relay those they receive.  The mesh is then a causal flood: a site
holds the genesis and what it has seen, a letter is a queued block, and it needs the
block's parents.  So every block is delivered after its parents and taken, and
once the queue is empty the nodes hold the same.

## Main results

* `relays_letters`: the letters that a block coming in puts in the queue.
* `receive`, `not_refused`, `taken`: the next letter of the queue at its node.
* `deliver`, `deliverAll`, `advance`, `announce`: the flood invariant, call by call.
-/

namespace Kovanica

open Lib Relation

open Lib.Flood (Causal Gains Letter Relays)

open Node (Sound Produced)

/-! ## The blocks of a mesh -/

namespace Mesh

/-- `s` announces to `t`. -/
def Peer (m : Mesh) (s t : String) : Prop := t ∈ m.peerSet s

/-- The ids of the blocks of all nodes. -/
def ids (m : Mesh) : Finset BlockId :=
  m.nodes.keys.biUnion fun name => ((m.nodes.lookup name).map Node.ids).getD ∅

theorem mem_ids {m : Mesh} {name : String} {node : Node} {x : BlockId}
    (hnode : m.nodes.lookup name = some node) (hx : x ∈ node.ids) : x ∈ m.ids := by
  refine Finset.mem_biUnion.2 ⟨name, Finmap.mem_keys.2 (Finmap.mem_of_lookup_eq_some hnode), ?_⟩
  rw [hnode]
  exact hx

variable [Crypto]

/-- The blocks of all nodes. -/
def blocks (m : Mesh) : Set Block :=
  {b | ∃ name node, m.nodes.lookup name = some node ∧ b ∈ node.blocks}

/-- What a call does to the nodes: at most one of them changes, and its ledger at most
gains a block. -/
inductive OneNode (m m' : Mesh) : Prop
  | same : m'.nodes = m.nodes → OneNode m m'
  | kept {name : String} {node node' : Node} : m.nodes.lookup name = some node →
      m'.nodes = m.nodes.insert name node' → Node.Kept node node' → OneNode m m'
  | produced {name : String} {node node' : Node} {id : BlockId} :
      m.nodes.lookup name = some node → m'.nodes = m.nodes.insert name node' →
      Produced node node' id → OneNode m m'

/-- Every node has a sound ledger of that genesis. -/
def AllSound (k : KParam) (subsidy : U64) (genesisTxs : TxList) (pow : Bool) (m : Mesh) : Prop :=
  ∀ name node, m.nodes.lookup name = some node → ∃ l, Sound k subsidy genesisTxs pow node l

variable {k : KParam} {subsidy : U64} {genesisTxs : TxList} {pow : Bool} {m m' : Mesh}

/-- From `m` to `m'` the nodes stay sound, none is lost, and no block is lost.  Room is counted
over the blocks of a whole run, and what there is room for at its end there was all along. -/
structure Onward (k : KParam) (subsidy : U64) (genesisTxs : TxList) (pow : Bool) (m m' : Mesh) :
    Prop where
  allSound : m'.AllSound k subsidy genesisTxs pow
  blocks : m.blocks ⊆ m'.blocks
  names : ∀ name, name ∈ m'.nodes ↔ name ∈ m.nodes

theorem AllSound.onward (h : m.AllSound k subsidy genesisTxs pow) (hnodes : m'.nodes = m.nodes) :
    Onward k subsidy genesisTxs pow m m' := by
  refine ⟨?_, ?_, fun name => by rw [hnodes]⟩
  · unfold AllSound
    rw [hnodes]
    exact h
  · unfold Mesh.blocks
    rw [hnodes]

theorem Onward.trans {m₁ : Mesh} (h : Onward k subsidy genesisTxs pow m m₁)
    (h' : Onward k subsidy genesisTxs pow m₁ m') : Onward k subsidy genesisTxs pow m m' where
  allSound := h'.allSound
  blocks := h.blocks.trans h'.blocks
  names := fun name => (h'.names name).trans (h.names name)

theorem OneNode.onward (h : OneNode m m') (hsound : m.AllSound k subsidy genesisTxs pow) :
    Onward k subsidy genesisTxs pow m m' := by
  have hreplaced : ∀ {name : String} {node node' : Node} {l' : Ledger},
      m.nodes.lookup name = some node → m'.nodes = m.nodes.insert name node' →
      Sound k subsidy genesisTxs pow node' l' → node.blocks ⊆ l'.blocks →
      Onward k subsidy genesisTxs pow m m' := by
    intro name node node' l' hnode hnodes hsound' hkeep
    refine ⟨fun other n hn => ?_, ?_, fun other => ?_⟩
    · rw [hnodes, lookup_insert_eq] at hn
      split at hn
      · obtain rfl := Option.some.inj hn
        exact ⟨l', hsound'⟩
      · exact hsound other n hn
    · rintro b ⟨other, n, hn, hb⟩
      by_cases hother : other = name
      · rw [hother] at hn
        obtain rfl := Option.some.inj (hnode.symm.trans hn)
        refine ⟨name, node', ?_, Node.blocks_eq hsound'.ledger_eq ▸ hkeep hb⟩
        rw [hnodes, Finmap.lookup_insert]
      · refine ⟨other, n, ?_, hb⟩
        rw [hnodes, Finmap.lookup_insert_of_ne _ hother]
        exact hn
    · rw [hnodes, Finmap.mem_insert]
      refine ⟨?_, .inr⟩
      rintro (rfl | hold)
      · exact Finmap.mem_of_lookup_eq_some hnode
      · exact hold
  cases h with
  | same hnodes => exact hsound.onward hnodes
  | kept hnode hnodes hkept =>
      obtain ⟨l, hl⟩ := hsound _ _ hnode
      exact hreplaced hnode hnodes (hl.kept hkept) (Node.blocks_eq hl.ledger_eq).le
  | produced hnode hnodes hproduced =>
      obtain ⟨l, hl⟩ := hsound _ _ hnode
      obtain ⟨l', block, hl', hgrew, _⟩ := hl.produced hproduced
      refine hreplaced hnode hnodes hl' fun b hb => hgrew.blocks_iff.2 (.inl ?_)
      rwa [← Node.blocks_eq hl.ledger_eq]

theorem oneNode_deliver {env : Env} {q : Queued} (h : m.deliver env q = .ok m') : OneNode m m' := by
  cases hq : q.envelope with
  | hello advertised => exact .same (deliver_hello hq h).nodes
  | block record =>
      cases deliver_block hq h with
      | seen _ => exact .same rfl
      | unregistered _ _ =>
          rw [relay_eq]
          exact .same rfl
      | @accepted node node' id _ hnode hcall =>
          rw [relay_eq]
          rcases Node.receiveBlock_cases hcall with heq | hproduced
          · exact .kept hnode rfl (heq ▸ ⟨rfl, rfl⟩)
          · exact .produced hnode rfl hproduced
      | refused _ _ _ => exact .same rfl
  | tx t =>
      cases deliver_tx hq h with
      | seen _ => exact .same rfl
      | unregistered _ _ =>
          rw [relay_eq]
          exact .same rfl
      | @accepted node node' id _ hnode hcall =>
          rw [relay_eq]
          exact .kept hnode rfl (Node.submitTx_kept hcall)
      | refused _ _ _ => exact .same rfl

theorem onward_deliverAll {envs : Nat → Env} {i : Nat} {due : List Queued}
    (hsound : m.AllSound k subsidy genesisTxs pow) (h : deliverAll envs i due m = .ok m') :
    Onward k subsidy genesisTxs pow m m' := by
  induction due generalizing i m with
  | nil =>
      rw [deliverAll] at h
      exact hsound.onward (congrArg Mesh.nodes (Except.ok.inj h).symm)
  | cons q rest ih =>
      rw [deliverAll] at h
      cases hdeliver : m.deliver (envs i) q with
      | error e =>
          rw [hdeliver] at h
          cases h
      | ok m₁ =>
          rw [hdeliver] at h
          have hfirst := (oneNode_deliver hdeliver).onward hsound
          exact hfirst.trans (ih hfirst.allSound h)

/-- A block announced changes no node. -/
theorem announceStored_nodes (m : Mesh) (name : String) (id : BlockId) :
    (m.announceStored name id).nodes = m.nodes := by
  cases hrecord : m.storedRecord name id with
  | none => rw [announceStored_none hrecord]
  | some record => rw [announceStored_some hrecord]; rfl

end Mesh

/-! ## The mesh as a flood -/

/-- What a block needs: its parents. -/
def BlockRecord.needs (record : BlockRecord) : Set BlockId := {p | p ∈ record.block.parents}

namespace Mesh

/-- The block that a queued envelope brings. -/
def blockLetter (q : Queued) : Option (Letter String BlockRecord) :=
  match q.envelope with
  | .hello _ => none
  | .block record => some ⟨q.sender, q.recipient, record⟩
  | .tx _ => none

/-- A site holds the genesis and what it has seen; what is due is delivered before
what is queued. -/
def flood (m : Mesh) (genesis : BlockId) (due : List Queued) :
    Flood.State String BlockRecord BlockId where
  holds name := {x | x = genesis ∨ x ∈ m.blocksSeen name}
  queue := (due ++ m.queue).filterMap blockLetter

variable {m m' : Mesh} {genesis : BlockId} {record : BlockRecord}

theorem blockLetter_block {q : Queued} (hq : q.envelope = .block record) :
    blockLetter q = some ⟨q.sender, q.recipient, record⟩ := by
  rw [blockLetter, hq]

theorem filterMap_letters (m : Mesh) (sender : String) (recipients : List String)
    (record : BlockRecord) :
    (m.letters sender recipients (.block record)).filterMap blockLetter =
      (recipients.filter fun t => t != sender).map fun t => ⟨sender, t, record⟩ := by
  rw [letters, List.filterMap_map, ← List.filterMap_eq_map]
  rfl

/-- The letters to the peers that are not spared. -/
theorem relays_letters {sender : String} {recipients : List String} {spared : String → Prop}
    (hmem : ∀ t, t ∈ recipients ↔ m.Peer sender t ∧ ¬ spared t) (m₁ : Mesh) :
    Relays m.Peer sender record spared
      ((m₁.letters sender recipients (.block record)).filterMap blockLetter) := by
  rw [filterMap_letters]
  constructor
  · intro q hq
    obtain ⟨t, ht, rfl⟩ := List.mem_map.1 hq
    rw [List.mem_filter, bne_iff_ne] at ht
    exact ⟨rfl, rfl, ((hmem t).1 ht.1).1, ht.2⟩
  · intro t hpeer hne hspared
    have ht : t ∈ recipients.filter fun t => t != sender :=
      List.mem_filter.2 ⟨(hmem t).2 ⟨hpeer, hspared⟩, bne_iff_ne.2 hne⟩
    exact ⟨_, List.mem_map_of_mem ht, rfl⟩

theorem flood_head {q : Queued} {rest : List Queued} (hq : q.envelope = .block record) :
    (m.flood genesis (q :: rest)).queue =
      ⟨q.sender, q.recipient, record⟩ :: (m.flood genesis rest).queue := by
  show ((q :: rest) ++ m.queue).filterMap blockLetter = _
  rw [List.cons_append, List.filterMap_cons_some (blockLetter_block hq)]
  rfl

variable [Crypto]

theorem mem_blocksSeen_deliver {env : Env} {q : Queued} (hq : q.envelope = .block record)
    (h : m.deliver env q = .ok m') (name : String) (x : BlockId) :
    x ∈ m'.blocksSeen name ↔ x ∈ m.blocksSeen name ∨ name = q.recipient ∧ x = record.id := by
  have hkey : m'.HasSeen name (.block x) ↔
      m.HasSeen name (.block x) ∨ name = q.recipient ∧ q.envelope.key = some (.block x) :=
    hasSeen_deliver h
  rw [hq] at hkey
  simpa [HasSeen, Envelope.key, eq_comm] using hkey

/-- What has not been refused is a step of the flood. -/
theorem flood_deliver {env : Env} {q : Queued} {rest : List Queued}
    (hq : q.envelope = .block record) (h : m.deliver env q = .ok m')
    (htaken : ∀ node e, m.nodes.lookup q.recipient = some node →
      node.receiveBlock env record ≠ .error (.error e)) :
    Flood.Step BlockRecord.id BlockRecord.needs m.Peer (m.flood genesis (q :: rest))
      (m'.flood genesis rest) := by
  have hhead : (m.flood genesis (q :: rest)).queue =
      ⟨q.sender, q.recipient, record⟩ :: (m.flood genesis rest).queue := flood_head hq
  have hgains : Gains (m.flood genesis (q :: rest)) (m'.flood genesis rest) q.recipient
      record.id := by
    intro t x
    show (x = genesis ∨ x ∈ m'.blocksSeen t) ↔
      (x = genesis ∨ x ∈ m.blocksSeen t) ∨ t = q.recipient ∧ x = record.id
    rw [mem_blocksSeen_deliver hq h, or_assoc]
  have hrelayed : ∀ m₁ : Mesh, m' = m₁.relay q.recipient q.sender (.block record) →
      m₁.peers = m.peers → m₁.queue = m.queue →
      Flood.Step BlockRecord.id BlockRecord.needs m.Peer (m.flood genesis (q :: rest))
        (m'.flood genesis rest) := by
    intro m₁ hm' hpeers hqueue
    have hmem : ∀ t, t ∈ (m₁.peersOf q.recipient).filter (fun next => next != q.sender) ↔
        m.Peer q.recipient t ∧ ¬ t = q.sender := by
      intro t
      rw [List.mem_filter, bne_iff_ne, peersOf, mem_ascending, peerSet, hpeers]
      rfl
    refine .accept hhead hgains (relays_letters hmem m₁) ?_
    show (rest ++ m'.queue).filterMap blockLetter = (rest ++ m.queue).filterMap blockLetter ++ _
    rw [hm', relay_eq, ← hqueue, ← List.filterMap_append, List.append_assoc]
  cases deliver_block hq h with
  | seen hseen =>
      refine .drop hhead (.inr hseen) (fun t => Set.ext fun x => ?_) rfl
      rw [hgains t x]
      constructor
      · rintro (hold | ⟨rfl, rfl⟩)
        · exact hold
        · exact .inr hseen
      · exact .inl
  | unregistered _ _ => exact hrelayed _ rfl rfl rfl
  | accepted _ _ _ => exact hrelayed _ rfl rfl rfl
  | refused _ hnode hcall => exact absurd hcall (htaken _ _ hnode)

/-- Delivering a block leaves peers and time alone and queues nothing but that block again, due
at the next tick. -/
structure Quiet (m : Mesh) (record : BlockRecord) (m' : Mesh) : Prop where
  peers : m'.peers = m.peers
  now : m'.now = m.now
  queue : ∃ letters, m'.queue = m.queue ++ letters ∧
    ∀ r ∈ letters, r.due = Word.saturatingAdd m.now 1 ∧ r.envelope = .block record

theorem deliver_quiet {env : Env} {q : Queued} (hq : q.envelope = .block record)
    (h : m.deliver env q = .ok m') : Quiet m record m' := by
  have hrelay : ∀ m₁ : Mesh, m' = m₁.relay q.recipient q.sender (.block record) →
      m₁.peers = m.peers → m₁.now = m.now → m₁.queue = m.queue → Quiet m record m' := by
    intro m₁ hm' hpeers hnow hqueue
    rw [hm', relay_eq]
    refine ⟨hpeers, hnow, _, by rw [← hqueue], fun r hr => ?_⟩
    obtain ⟨x, _, _, rfl⟩ := mem_letters.1 hr
    exact ⟨by rw [← hnow], rfl⟩
  have hnothing : ∀ r : Queued, r ∈ ([] : List Queued) →
      r.due = Word.saturatingAdd m.now 1 ∧ r.envelope = .block record :=
    fun r hr => absurd hr List.not_mem_nil
  cases deliver_block hq h with
  | seen _ => exact ⟨rfl, rfl, [], (List.append_nil _).symm, hnothing⟩
  | unregistered _ _ => exact hrelay _ rfl rfl rfl rfl
  | accepted _ _ _ => exact hrelay _ rfl rfl rfl rfl
  | refused _ _ _ => exact ⟨rfl, rfl, [], (List.append_nil _).symm, hnothing⟩

/-- A node has become `node'` and has announced a block: it has seen the block, and there is a
letter to each of its peers behind those that were under way. -/
structure Announced (m : Mesh) (name : String) (node' : Node) (record : BlockRecord) (m' : Mesh) :
    Prop where
  nodes : m'.nodes = m.nodes.insert name node'
  peers : m'.peers = m.peers
  now : m'.now = m.now
  queue : m'.queue = m.queue ++ m.letters name (m.peersOf name) (.block record)
  seen : ∀ s x, x ∈ m'.blocksSeen s ↔ x ∈ m.blocksSeen s ∨ s = name ∧ x = record.id

theorem announced_of_stored {name : String} {node' : Node} {id : BlockId}
    (h : (m.withNode name node').storedRecord name id = some record) :
    Announced m name node' record ((m.withNode name node').announceStored name id) := by
  rw [announceStored_some h]
  refine ⟨rfl, rfl, rfl, rfl, fun s x => ?_⟩
  have hkey : ((m.withNode name node').markBlock name record.id).HasSeen s (.block x) ↔
      (m.withNode name node').HasSeen s (.block x) ∨
        s = name ∧ GossipKey.block x = .block record.id := hasSeen_markBlock _ s
  rw [GossipKey.block.injEq] at hkey
  exact hkey

/-- An announcement is a step of the flood. -/
theorem Announced.step {name : String} {node' : Node} (h : Announced m name node' record m')
    (hneeds : ∀ p ∈ record.needs, p ∈ (m.flood genesis []).holds name) :
    Flood.Step BlockRecord.id BlockRecord.needs m.Peer (m.flood genesis [])
      (m'.flood genesis []) := by
  have hgains : Gains (m.flood genesis []) (m'.flood genesis []) name record.id := by
    intro t x
    show (x = genesis ∨ x ∈ m'.blocksSeen t) ↔
      (x = genesis ∨ x ∈ m.blocksSeen t) ∨ t = name ∧ x = record.id
    rw [h.seen, or_assoc]
  have hmem : ∀ t, t ∈ m.peersOf name ↔ m.Peer name t ∧ ¬ False := by
    intro t
    rw [peersOf, mem_ascending]
    exact (and_iff_left id).symm
  refine .announce hneeds hgains (relays_letters hmem m) ?_
  show ([] ++ m'.queue).filterMap blockLetter = ([] ++ m.queue).filterMap blockLetter ++ _
  rw [h.queue, List.nil_append, List.nil_append, List.filterMap_append]

end Mesh

/-- The node that the block is delivered to holds its parents, takes it, and holds it
afterwards. -/
def Delivery.Accepted [Crypto] (delivery : Delivery) : Prop :=
  ∃ record, delivery.letter.envelope = .block record ∧ ∀ node,
    delivery.before.nodes.lookup delivery.letter.recipient = some node →
    (∀ p ∈ record.block.parents, p ∈ node.ids) ∧
      (∃ r, node.receiveBlock delivery.env record = .ok r) ∧
      delivery.after.HoldsBlock delivery.letter.recipient record.id

namespace Mesh

variable [Crypto]

/-- The id of the genesis. -/
def genesisId (genesisTxs : TxList) : BlockId := (Block.genesis 1 0 0 genesisTxs.payload).id

/-- Every block of the mesh is within the future bound of every node, so that no delivery is
refused for the clock. -/
def InTime (m : Mesh) (env : Env) : Prop :=
  ∀ name node, m.nodes.lookup name = some node → ∀ b ∈ m.blocks,
    b.timestampMs.val ≤ (node.nowMs env).val + maxFutureDriftMs.val

/-- The invariant of the calls, while these letters are due: a node holds the genesis
and what it has seen, the letters are blocks that some node holds, and none is ahead
of its parents. -/
structure Flooding (k : KParam) (subsidy : U64) (genesisTxs : TxList) (pow : Bool) (m : Mesh)
    (due : List Queued) : Prop where
  nodes : ∀ name node, m.nodes.lookup name = some node →
    ∃ l, Sound k subsidy genesisTxs pow node l ∧
      ∀ x, x ∈ l.dag.nodes ↔ x = genesisId genesisTxs ∨ x ∈ m.blocksSeen name
  letters : ∀ q ∈ due ++ m.queue, ∃ record, q.envelope = .block record ∧
    record.block ∈ m.blocks ∧ record.id ≠ genesisId genesisTxs
  prompt : ∀ q ∈ m.queue, q.due ≤ Word.saturatingAdd m.now 1
  causal : Causal BlockRecord.id BlockRecord.needs m.Peer (m.flood (genesisId genesisTxs) due)

namespace Flooding

variable {k : KParam} {subsidy : U64} {genesisTxs : TxList} {pow : Bool} {m m' : Mesh}
  {q : Queued} {rest due : List Queued} {record : BlockRecord} {env : Env}

theorem allSound (h : Flooding k subsidy genesisTxs pow m due) :
    m.AllSound k subsidy genesisTxs pow := fun name node hnode =>
  (h.nodes name node hnode).imp fun _ hl => hl.1

section NextLetter

variable (h : Flooding k subsidy genesisTxs pow m (q :: rest))
  (hS : Set.InjOn Crypto.blake3 (Block.preimage '' m.blocks)) (htime : m.InTime env)
  (hq : q.envelope = .block record)

include h hq

theorem letter : record.block ∈ m.blocks ∧ record.id ≠ genesisId genesisTxs := by
  obtain ⟨record', hq', hblock, hne⟩ := h.letters q (List.mem_append_left _ (List.mem_cons_self ..))
  obtain rfl : record = record' := Envelope.block.inj (hq.symm.trans hq')
  exact ⟨hblock, hne⟩

include hS htime

/-- The recipient of the next letter holds the block's parents, and takes the block as
far as it has room. -/
theorem receive {node : Node} (hnode : m.nodes.lookup q.recipient = some node) :
    ∃ l, Sound k subsidy genesisTxs pow node l ∧ (∀ p ∈ record.block.parents, p ∈ l.dag.nodes) ∧
      (∀ x, x ∈ l.dag.nodes ↔ x = genesisId genesisTxs ∨ x ∈ m.blocksSeen q.recipient) ∧
      ((record.id ∈ l.dag.nodes ∧ node.receiveBlock env record = .ok (record.id, node)) ∨
        (record.id ∉ l.dag.nodes ∧
          if l.dag.len + 1 < mapCapacity then
            ∃ n' l', node.receiveBlock env record = .ok (record.id, n') ∧
              Sound k subsidy genesisTxs pow n' l' ∧ Ledger.Grew l l' record.block ∧
              n'.clock = node.clock
          else ∃ site, node.receiveBlock env record = .error (.panic site))) := by
  obtain ⟨hblock, hne⟩ := h.letter hq
  obtain ⟨l, hl, hmem⟩ := h.nodes _ _ hnode
  -- the block is stored by the node it was produced by, or by one it went through
  obtain ⟨holder, n, hn, hstored⟩ := hblock
  obtain ⟨held, hheld, _⟩ := h.nodes _ _ hn
  rw [Node.blocks_eq hheld.ledger_eq] at hstored
  have hcompat : Ledger.Compatible held l := hheld.healthy.compatible hl.healthy
    (hheld.rooted.same hl.rooted) hS
    (fun b hb => ⟨holder, n, hn, Node.blocks_eq hheld.ledger_eq ▸ hb⟩)
    (fun b hb => ⟨_, node, hnode, Node.blocks_eq hl.ledger_eq ▸ hb⟩)
  have hparents : ∀ p ∈ record.block.parents, p ∈ l.dag.nodes := fun p hp =>
    (hmem p).2 (h.causal.needs_held (flood_head hq) hp)
  refine ⟨l, hl, hparents, hmem, hl.receiveBlock hheld.healthy hcompat hstored ?_ hparents ?_⟩
  · rw [hheld.rooted.genesis_eq]
    exact hne
  · exact htime _ _ hnode _ ⟨holder, n, hn, Node.blocks_eq hheld.ledger_eq ▸ hstored⟩

/-- No node refuses the block. -/
theorem not_refused {node : Node} (hnode : m.nodes.lookup q.recipient = some node)
    (e : NodeError) : node.receiveBlock env record ≠ .error (.error e) := by
  intro hrefused
  obtain ⟨l, _, _, _, ⟨_, hcall⟩ | ⟨_, hcases⟩⟩ := h.receive hS htime hq hnode
  · rw [hrefused] at hcall
    cases hcall
  · split at hcases
    · obtain ⟨_, _, hcall, _⟩ := hcases
      rw [hrefused] at hcall
      cases hcall
    · obtain ⟨site, hcall⟩ := hcases
      rw [hrefused] at hcall
      cases hcall

/-- A node that sees the block for the first time and takes it has one block more. -/
theorem taken {node node' : Node} {id : BlockId} (hnode : m.nodes.lookup q.recipient = some node)
    (hnew : record.id ∉ m.blocksSeen q.recipient)
    (hcall : node.receiveBlock env record = .ok (id, node')) :
    ∃ l l', Sound k subsidy genesisTxs pow node l ∧ Sound k subsidy genesisTxs pow node' l' ∧
      Ledger.Grew l l' record.block ∧ node'.clock = node.clock ∧
      ∀ x, x ∈ l.dag.nodes ↔ x = genesisId genesisTxs ∨ x ∈ m.blocksSeen q.recipient := by
  obtain ⟨l, hl, _, hmem, ⟨hin, _⟩ | ⟨_, hcases⟩⟩ := h.receive hS htime hq hnode
  · exact absurd ((hmem _).1 hin) (not_or.2 ⟨(h.letter hq).2, hnew⟩)
  · split at hcases
    · obtain ⟨n', l', hcall', hl', hgrew, hclock⟩ := hcases
      obtain ⟨_, rfl⟩ := Prod.mk.inj (Except.ok.inj (hcall.symm.trans hcall'))
      exact ⟨l, l', hl, hl', hgrew, hclock, hmem⟩
    · obtain ⟨site, hpanic⟩ := hcases
      rw [hcall] at hpanic
      cases hpanic

/-- With room for the blocks of the mesh the delivery returns. -/
theorem exists_deliver {U : Finset BlockId} (hU : ∀ b ∈ m.blocks, b.id ∈ U)
    (hroom : U.card < mapCapacity) : ∃ m', m.deliver env q = .ok m' := by
  refine Mesh.exists_deliver fun node record' hnode hq' _ => .inl ?_
  obtain rfl : record = record' := Envelope.block.inj (hq.symm.trans hq')
  obtain ⟨l, hl, _, _, ⟨_, hcall⟩ | ⟨hnot, hcases⟩⟩ := h.receive hS htime hq hnode
  · exact ⟨_, hcall⟩
  · have hsub : insert record.id l.dag.nodes.keys ⊆ U := by
      refine Finset.insert_subset (hU _ (h.letter hq).1) fun x hx => ?_
      have hx := Finmap.mem_keys.1 hx
      have hin : (l.dag.node x).block ∈ m.blocks :=
        ⟨_, node, hnode, Node.blocks_eq hl.ledger_eq ▸ Ledger.mem_blocks hx⟩
      rw [← hl.healthy.wellFormed.dag.id_eq x _ (DagView.lookup_node hx)]
      exact hU _ hin
    have hcard := Finset.card_le_card hsub
    rw [Finset.card_insert_of_notMem (mt Finmap.mem_keys.1 hnot)] at hcard
    have hlen : l.dag.len + 1 < mapCapacity := lt_of_le_of_lt hcard hroom
    rw [if_pos hlen] at hcases
    obtain ⟨_, _, hcall, _⟩ := hcases
    exact ⟨_, hcall⟩

variable (hdeliver : m.deliver env q = .ok m')

include hdeliver

/-- The nodes after the delivery: they hold what they have seen by then, and only
blocks that were in the mesh. -/
theorem nodes_deliver {name : String} {node' : Node} (hnode' : m'.nodes.lookup name = some node') :
    ∃ node l, m.nodes.lookup name = some node ∧ node'.clock = node.clock ∧
      Sound k subsidy genesisTxs pow node' l ∧
      (∀ x, x ∈ l.dag.nodes ↔ x = genesisId genesisTxs ∨ x ∈ m'.blocksSeen name) ∧
      l.blocks ⊆ m.blocks := by
  have hseen : ∀ name x, x ∈ m'.blocksSeen name ↔
      x ∈ m.blocksSeen name ∨ name = q.recipient ∧ x = record.id :=
    mem_blocksSeen_deliver hq hdeliver
  -- a node that has not changed had seen the block, or it is another one
  have hunchanged : ∀ node, m.nodes.lookup name = some node →
      (name = q.recipient → record.id ∈ m.blocksSeen name) →
      ∃ l, Sound k subsidy genesisTxs pow node l ∧
        (∀ x, x ∈ l.dag.nodes ↔ x = genesisId genesisTxs ∨ x ∈ m'.blocksSeen name) ∧
        l.blocks ⊆ m.blocks := by
    intro node hnode hold
    obtain ⟨l, hl, hmem⟩ := h.nodes name node hnode
    refine ⟨l, hl, fun x => ?_, fun b hb => ⟨name, node, hnode, ?_⟩⟩
    · rw [hmem, hseen]
      constructor
      · exact Or.imp_right .inl
      · rintro (hgenesis | hsaw | ⟨hname, rfl⟩)
        · exact .inl hgenesis
        · exact .inr hsaw
        · exact .inr (hold hname)
    · rwa [Node.blocks_eq hl.ledger_eq]
  cases deliver_block hq hdeliver with
  | seen hsaw =>
      obtain ⟨l, hl⟩ := hunchanged node' hnode' fun hname => hname ▸ hsaw
      exact ⟨node', l, hnode', rfl, hl⟩
  | unregistered _ hnone =>
      rw [relay_eq] at hnode'
      obtain ⟨l, hl⟩ := hunchanged node' hnode' fun hname => by
        rw [hname] at hnode'
        exact absurd (hnode'.symm.trans hnone) (Option.some_ne_none _)
      exact ⟨node', l, hnode', rfl, hl⟩
  | @accepted node _ id hnot hnode hcall =>
      rw [relay_eq] at hnode'
      simp only [lookup_insert_eq] at hnode'
      split at hnode'
      · rename_i hname
        subst hname
        obtain rfl := Option.some.inj hnode'
        obtain ⟨l, l', hl, hl', hgrew, hclock, hmem⟩ := h.taken hS htime hq hnode hnot hcall
        refine ⟨node, l', hnode, hclock, hl', fun x => ?_, fun b hb => ?_⟩
        · rw [hgrew.mem_iff, hmem, or_assoc]
          refine or_congr_right ((hseen q.recipient x).trans ?_).symm
          exact or_congr_right (and_iff_right rfl)
        · rcases hgrew.blocks_iff.1 hb with hold | rfl
          · exact ⟨q.recipient, node, hnode, Node.blocks_eq hl.ledger_eq ▸ hold⟩
          · exact (h.letter hq).1
      · rename_i hname
        obtain ⟨l, hl⟩ := hunchanged node' hnode' fun hsame => absurd hsame hname
        exact ⟨node', l, hnode', rfl, hl⟩
  | refused _ hnode hcall => exact absurd hcall (h.not_refused hS htime hq hnode _)

theorem accepted : Delivery.Accepted ⟨env, m, q, m'⟩ := by
  refine ⟨record, hq, fun node hnode => ?_⟩
  obtain ⟨l, hl, hparents, hmem, hcases⟩ := h.receive hS htime hq hnode
  have hids : ∀ {n : Node} {l : Ledger}, n.ledger = some l → ∀ x, x ∈ n.ids ↔ x ∈ l.dag.nodes :=
    fun heq x => by rw [Node.ids_eq heq, Finmap.mem_keys]
  have hholds : ∀ node', m'.nodes.lookup q.recipient = some node' →
      m'.HoldsBlock q.recipient record.id := by
    intro node' hnode'
    obtain ⟨_, l', _, _, hl', hmem', _⟩ := h.nodes_deliver hS htime hq hdeliver hnode'
    have hsaw := (mem_blocksSeen_deliver hq hdeliver q.recipient record.id).2 (.inr ⟨rfl, rfl⟩)
    exact ⟨node', hnode', (hids hl'.ledger_eq _).2 ((hmem' _).2 (.inr hsaw))⟩
  refine ⟨fun p hp => (hids hl.ledger_eq p).2 (hparents p hp), ?_⟩
  cases deliver_block hq hdeliver with
  | seen hold =>
      rcases hcases with ⟨_, hcall⟩ | ⟨hnot, _⟩
      · exact ⟨⟨_, hcall⟩, hholds node hnode⟩
      · exact absurd ((hmem _).2 (.inr hold)) hnot
  | unregistered _ hnone => exact absurd (hnode.symm.trans hnone) (Option.some_ne_none _)
  | @accepted node₁ node' id _ hnode₁ hcall =>
      obtain rfl := Option.some.inj (hnode.symm.trans hnode₁)
      refine ⟨⟨_, hcall⟩, hholds node' ?_⟩
      rw [relay_eq]
      exact Finmap.lookup_insert _
  | refused _ hnode₁ hcall => exact absurd hcall (h.not_refused hS htime hq hnode₁ _)

theorem blocks_deliver : m'.blocks = m.blocks := by
  refine Set.Subset.antisymm ?_ ((oneNode_deliver hdeliver).onward h.allSound).blocks
  rintro b ⟨name, node', hnode', hb⟩
  obtain ⟨_, l, _, _, hl, _, hsub⟩ := h.nodes_deliver hS htime hq hdeliver hnode'
  rw [Node.blocks_eq hl.ledger_eq] at hb
  exact hsub hb

/-- One delivery keeps the invariant. -/
theorem deliver : Flooding k subsidy genesisTxs pow m' rest := by
  have hquiet := deliver_quiet hq hdeliver
  have hpeer : m'.Peer = m.Peer := by
    funext s t
    rw [Peer, Peer, peerSet, peerSet, hquiet.peers]
  obtain ⟨letters, hqueue, hletters⟩ := hquiet.queue
  refine ⟨fun name node' hnode' => ?_, fun r hr => ?_, fun r hr => ?_, ?_⟩
  · obtain ⟨_, l, _, _, hl, hmem, _⟩ := h.nodes_deliver hS htime hq hdeliver hnode'
    exact ⟨l, hl, hmem⟩
  · rw [h.blocks_deliver hS htime hq hdeliver]
    rw [hqueue, ← List.append_assoc] at hr
    rcases List.mem_append.1 hr with hold | hnew
    · exact h.letters r (List.mem_cons_of_mem _ hold)
    · exact ⟨record, (hletters r hnew).2, h.letter hq⟩
  · rw [hquiet.now]
    rw [hqueue] at hr
    rcases List.mem_append.1 hr with hold | hnew
    · exact h.prompt r hold
    · exact (hletters r hnew).1.le
  · rw [hpeer]
    refine h.causal.step (flood_deliver hq hdeliver fun node e hnode => ?_)
    exact h.not_refused hS htime hq hnode e

end NextLetter

/-- The deliveries of a tick are accepted, and they return as long as there is room. -/
theorem deliverAll {envs : Nat → Env} (h : Flooding k subsidy genesisTxs pow m due)
    (hS : Set.InjOn Crypto.blake3 (Block.preimage '' m.blocks)) (htime : ∀ i, m.InTime (envs i))
    (i : Nat) :
    (∀ delivery ∈ deliveriesOf envs i due m, delivery.Accepted) ∧
      (∀ m', Mesh.deliverAll envs i due m = .ok m' →
        Flooding k subsidy genesisTxs pow m' [] ∧ m'.peers = m.peers) ∧
      ∀ U : Finset BlockId, (∀ b ∈ m.blocks, b.id ∈ U) → U.card < mapCapacity →
        ∃ m', Mesh.deliverAll envs i due m = .ok m' := by
  induction due generalizing i m with
  | nil =>
      refine ⟨fun δ hδ => absurd hδ List.not_mem_nil, fun m' hall => ?_, fun _ _ _ => ⟨m, rfl⟩⟩
      rw [Mesh.deliverAll] at hall
      rw [← Except.ok.inj hall]
      exact ⟨h, rfl⟩
  | cons q rest ih =>
      obtain ⟨record, hq, _⟩ := h.letters q (List.mem_append_left _ (List.mem_cons_self ..))
      rw [deliveriesOf, Mesh.deliverAll]
      cases hdeliver : m.deliver (envs i) q with
      | error e =>
          refine ⟨fun δ hδ => absurd hδ List.not_mem_nil, fun m' hall => ?_, fun U hU hroom => ?_⟩
          · cases hall
          · obtain ⟨m', hok⟩ := h.exists_deliver hS (htime i) hq hU hroom
            rw [hdeliver] at hok
            cases hok
      | ok m₁ =>
          have hblocks := h.blocks_deliver hS (htime i) hq hdeliver
          have htime₁ : ∀ i, m₁.InTime (envs i) := by
            intro j name node' hnode' b hb
            obtain ⟨node, _, hnode, hclock, _⟩ := h.nodes_deliver hS (htime i) hq hdeliver hnode'
            have hnow : node'.nowMs (envs j) = node.nowMs (envs j) := by
              rw [Node.nowMs, Node.nowMs, hclock]
            rw [hnow]
            exact htime j name node hnode b (hblocks ▸ hb)
          obtain ⟨haccepted, hflooding, hreturns⟩ := ih (h.deliver hS (htime i) hq hdeliver)
            (hblocks ▸ hS) htime₁ (i + 1)
          refine ⟨fun δ hδ => ?_, fun m' hall => ?_, fun U hU => hreturns U (hblocks ▸ hU)⟩
          · rcases List.mem_cons.1 hδ with rfl | hδ
            · exact h.accepted hS (htime i) hq hdeliver
            · exact haccepted δ hδ
          · obtain ⟨h', hpeers⟩ := hflooding m' hall
            exact ⟨h', hpeers.trans (deliver_quiet hq hdeliver).peers⟩

/-- When a tick begins, all that is queued is due. -/
theorem advance (h : Flooding k subsidy genesisTxs pow m []) :
    Flooding k subsidy genesisTxs pow m.advance m.dueNow := by
  have hall : m.dueNow = m.queue := by
    rw [dueNow, List.filter_eq_self]
    exact fun q hq => decide_eq_true (h.prompt q hq)
  have hrest : m.advance.queue = [] := by
    rw [Mesh.advance, List.filter_eq_nil_iff]
    intro q hq
    rw [decide_eq_true (h.prompt q hq)]
    simp
  refine ⟨h.nodes, fun q hq => ?_, fun q hq => ?_, ?_⟩
  · rw [hall, hrest, List.append_nil] at hq
    exact h.letters q hq
  · rw [hrest] at hq
    exact absurd hq List.not_mem_nil
  · have hflood : m.advance.flood (genesisId genesisTxs) m.dueNow =
        m.flood (genesisId genesisTxs) [] := by
      rw [flood, flood, hall, hrest, List.append_nil, List.nil_append]
      rfl
    rw [hflood]
    exact h.causal

/-- A block produced and announced. -/
theorem announce (h : Flooding k subsidy genesisTxs pow m []) {name : String} {node node' : Node}
    {id : BlockId} (hnode : m.nodes.lookup name = some node)
    (hproduced : Produced node node' id) :
    Flooding k subsidy genesisTxs pow ((m.withNode name node').announceStored name id) [] ∧
      ((m.withNode name node').announceStored name id).peers = m.peers := by
  obtain ⟨l, hl, hmem⟩ := h.nodes name node hnode
  obtain ⟨l', block, hl', hgrew, rfl⟩ := hl.produced hproduced
  obtain ⟨record, hrecord, hblock⟩ := hl'.blockRecord ((hgrew.mem_iff _).2 (.inr rfl))
  rw [hgrew.self] at hblock
  have hid : record.id = block.id := congrArg Block.id hblock
  have hnode' : (m.withNode name node').nodes.lookup name = some node' := Finmap.lookup_insert _
  have hstored : (m.withNode name node').storedRecord name block.id = some record := by
    rw [storedRecord, hnode']
    exact hrecord
  have hannounced := announced_of_stored hstored
  generalize (m.withNode name node').announceStored name block.id = m' at hannounced
  have hseen := hannounced.seen
  have hblocks := ((OneNode.produced hnode hannounced.nodes hproduced).onward h.allSound).blocks
  have hpeer : m'.Peer = m.Peer := by
    funext s t
    rw [Peer, Peer, peerSet, peerSet, hannounced.peers]
  refine ⟨⟨fun other n hn => ?_, fun q hq => ?_, fun q hq => ?_, ?_⟩, hannounced.peers⟩
  · rw [hannounced.nodes, lookup_insert_eq] at hn
    split at hn
    · rename_i hother
      subst hother
      obtain rfl := Option.some.inj hn
      refine ⟨l', hl', fun x => ?_⟩
      rw [hgrew.mem_iff, hmem, hseen, hid, or_assoc]
      exact or_congr_right (or_congr_right (and_iff_right rfl).symm)
    · rename_i hother
      obtain ⟨lo, hlo, hmemo⟩ := h.nodes other n hn
      refine ⟨lo, hlo, fun x => ?_⟩
      rw [hmemo, hseen]
      exact or_congr_right (or_iff_left fun hself => hother hself.1).symm
  · rw [List.nil_append, hannounced.queue] at hq
    rcases List.mem_append.1 hq with hold | hnew
    · obtain ⟨r, hr, hin, hne⟩ := h.letters q hold
      exact ⟨r, hr, hblocks hin, hne⟩
    · obtain ⟨x, _, _, rfl⟩ := mem_letters.1 hnew
      refine ⟨record, rfl, ⟨name, node', ?_, ?_⟩, fun heq => ?_⟩
      · rw [hannounced.nodes, Finmap.lookup_insert]
      · rw [Node.blocks_eq hl'.ledger_eq, hblock]
        exact hgrew.blocks_iff.2 (.inr rfl)
      · -- the genesis is no new block
        refine hgrew.fresh (hid ▸ ?_)
        rw [heq]
        exact (hmem _).2 (.inl rfl)
  · rw [hannounced.now]
    rw [hannounced.queue] at hq
    rcases List.mem_append.1 hq with hold | hnew
    · exact h.prompt q hold
    · obtain ⟨x, _, _, rfl⟩ := mem_letters.1 hnew
      exact le_rfl
  · rw [hpeer]
    refine h.causal.step (hannounced.step fun p hp => ?_)
    rw [BlockRecord.needs, Set.mem_ofPred_eq, hblock] at hp
    exact (hmem p).1 (hgrew.parents_mem p hp)

end Flooding

/-! ## Runs -/

/-- One call that returns.  A call that fails changes nothing.  The calls come in any order and at
any node, with ticks in between. -/
inductive Called (m : Mesh) : Mesh → Prop
  | produce {m' : Mesh} {env : Env} {name : String} {produced : Option BlockId} :
      m.produce env name = .ok (produced, m') → Called m m'
  | produceEmpty {m' : Mesh} {env : Env} {name : String} {id : BlockId} :
      m.produceEmpty env name = .ok (id, m') → Called m m'
  | send {m' : Mesh} {env : Env} {name : String} {fromSeed amount toSeed : U64} {id : BlockId} :
      m.send env name fromSeed amount toSeed = .ok (id, m') → Called m m'
  | tick {m' : Mesh} {envs : Nat → Env} {n : Nat} :
      (∀ i, m.InTime (envs i)) → m.tick envs = .ok (n, m') → Called m m'

/-- The nodes hold one genesis only, nothing is under way, and the peers are symmetric
and connect all nodes. -/
structure Founded (k : KParam) (subsidy : U64) (genesisTxs : TxList) (pow : Bool) (m : Mesh) :
    Prop where
  atGenesis : ∀ name node, m.nodes.lookup name = some node →
    node.AtGenesis k subsidy genesisTxs pow
  queue_eq : m.queue = []
  unseen : ∀ name, m.blocksSeen name = ∅
  symmetric : ∀ s t, m.Peer s t → m.Peer t s
  connected : ∀ s ∈ m.nodes, ∀ t ∈ m.nodes, EqvGen m.Peer s t

variable {k : KParam} {subsidy : U64} {genesisTxs : TxList} {pow : Bool} {m₀ m m' : Mesh}

theorem Founded.flooding (h : Founded k subsidy genesisTxs pow m) :
    Flooding k subsidy genesisTxs pow m [] := by
  have hholds : ∀ s, (m.flood (genesisId genesisTxs) []).holds s = {genesisId genesisTxs} := by
    intro s
    ext x
    show x = genesisId genesisTxs ∨ x ∈ m.blocksSeen s ↔ x = genesisId genesisTxs
    rw [h.unseen]
    exact or_iff_left (Finset.notMem_empty x)
  refine ⟨fun name node hnode => ?_, fun q hq => ?_, fun q hq => ?_, ?_⟩
  · obtain ⟨l, hl, hmem⟩ := Sound.of_atGenesis (h.atGenesis name node hnode)
    refine ⟨l, hl, fun x => ?_⟩
    rw [hmem, h.unseen, hl.rooted.genesis_eq]
    exact (or_iff_left (Finset.notMem_empty x)).symm
  · rw [h.queue_eq] at hq
    exact absurd hq List.not_mem_nil
  · rw [h.queue_eq] at hq
    exact absurd hq List.not_mem_nil
  · refine Flood.causal_of_queue_nil ?_ fun s t _ => ?_
    · rw [flood, h.queue_eq]
      rfl
    · rw [hholds, hholds]

omit [Crypto] in
theorem withNode_self {name : String} {node : Node} (h : m.nodes.lookup name = some node) :
    m.withNode name node = m := by
  have hnodes : m.nodes.insert name node = m.nodes := by
    refine Finmap.ext_lookup fun other => ?_
    rw [lookup_insert_eq]
    split
    · rename_i hother
      rw [hother, h]
    · rfl
  rw [withNode, hnodes]

/-- What a call that is no tick does: nothing, or a block is produced and announced. -/
theorem Called.cases (h : Called m m') :
    m' = m ∨ (∃ name node node' id, m.nodes.lookup name = some node ∧ Produced node node' id ∧
        m' = (m.withNode name node').announceStored name id) ∨
      ∃ envs n, (∀ i, m.InTime (envs i)) ∧ m.tick envs = .ok (n, m') := by
  cases h with
  | @produce env name produced hcall =>
      obtain ⟨node, node', hnode, hproduce, heq⟩ := produce_eq_ok hcall
      have hcases := Node.produceBlock_cases hproduce
      cases produced with
      | none =>
          obtain rfl : node' = node := hcases
          exact .inl (heq.trans (withNode_self hnode))
      | some id => exact .inr (.inl ⟨name, node, node', id, hnode, hcases, heq⟩)
  | @produceEmpty env name id hcall =>
      obtain ⟨node, node', hnode, hproduce, heq⟩ := produceEmpty_eq_ok hcall
      exact .inr (.inl ⟨name, node, node', id, hnode, Node.produceEmpty_produced hproduce, heq⟩)
  | @send env name fromSeed amount toSeed id hcall =>
      rw [send_eq] at hcall
      obtain ⟨node, node', tx, hnode, hsend, heq⟩ := sendTo_eq_ok hcall
      exact .inr (.inl ⟨name, node, node', id, hnode, Node.sendTo_produced hsend, heq⟩)
  | tick htime hcall => exact .inr (.inr ⟨_, _, htime, hcall⟩)

theorem tick_eq_ok {envs : Nat → Env} {n : Nat} (h : m.tick envs = .ok (n, m')) :
    deliverAll envs 0 m.dueNow m.advance = .ok m' := by
  obtain ⟨after, hall, hret⟩ := Outcome.bind_eq_ok.1 h
  obtain ⟨_, rfl⟩ := Prod.mk.inj (Except.ok.inj hret)
  exact hall

theorem Called.onward (h : Called m m') (hsound : m.AllSound k subsidy genesisTxs pow) :
    Onward k subsidy genesisTxs pow m m' := by
  rcases h.cases with rfl | ⟨name, node, node', id, hnode, hproduced, rfl⟩ | ⟨envs, n, _, htick⟩
  · exact hsound.onward rfl
  · exact (OneNode.produced hnode (announceStored_nodes _ name id) hproduced).onward hsound
  · have hadvance : Onward k subsidy genesisTxs pow m m.advance := hsound.onward rfl
    exact hadvance.trans (onward_deliverAll hadvance.allSound (tick_eq_ok htick))

/-- A call keeps the invariant and the peers. -/
theorem Called.flooding (h : Called m m') (hm : Flooding k subsidy genesisTxs pow m [])
    (hS : Set.InjOn Crypto.blake3 (Block.preimage '' m.blocks)) :
    Flooding k subsidy genesisTxs pow m' [] ∧ m'.peers = m.peers := by
  rcases h.cases with rfl | ⟨name, node, node', id, hnode, hproduced, rfl⟩ | ⟨envs, n, htime, htick⟩
  · exact ⟨hm, rfl⟩
  · exact hm.announce hnode hproduced
  · exact (hm.advance.deliverAll hS htime 0).2.1 m' (tick_eq_ok htick)

/-- In every run the nodes stay sound, and the invariant holds as long as no two blocks
collide. -/
theorem flooding_of_run (h₀ : Founded k subsidy genesisTxs pow m₀)
    (h : ReflTransGen Called m₀ m) : Onward k subsidy genesisTxs pow m₀ m ∧
      (Set.InjOn Crypto.blake3 (Block.preimage '' m.blocks) →
        Flooding k subsidy genesisTxs pow m [] ∧ m.peers = m₀.peers) := by
  induction h with
  | refl => exact ⟨h₀.flooding.allSound.onward rfl, fun _ => ⟨h₀.flooding, rfl⟩⟩
  | tail _ hcall ih =>
      obtain ⟨honward, hflooding⟩ := ih
      have hstep := hcall.onward honward.allSound
      refine ⟨honward.trans hstep, fun hS => ?_⟩
      have hold := hS.mono (Set.image_mono hstep.blocks)
      obtain ⟨hm, hpeers⟩ := hflooding hold
      obtain ⟨hm', hpeers'⟩ := hcall.flooding hm hold
      exact ⟨hm', hpeers'.trans hpeers⟩

theorem mem_ids_of_mem_blocks (h : m.AllSound k subsidy genesisTxs pow) {b : Block}
    (hb : b ∈ m.blocks) : b.id ∈ m.ids := by
  obtain ⟨name, node, hnode, hb⟩ := hb
  obtain ⟨l, hl⟩ := h name node hnode
  rw [Node.blocks_eq hl.ledger_eq] at hb
  refine mem_ids hnode ?_
  rw [Node.ids_eq hl.ledger_eq, Finmap.mem_keys]
  exact (hl.healthy.wellFormed.mem_blocks_iff.1 hb).1

/-- On a settled overlay floods lose no block.  Whatever is produced, sent and ticked,
every block is delivered after its parents and taken, and as long as there is room
ticks return; and whenever the queue is empty, all nodes hold the same blocks and
have the same ledger state. -/
theorem floods_lose_nothing (h₀ : Founded k subsidy genesisTxs pow m₀)
    (hrun : ReflTransGen Called m₀ m)
    (hcollision : Set.InjOn Crypto.blake3 (Block.preimage '' m.blocks)) :
    (∀ envs : Nat → Env, (∀ i, m.InTime (envs i)) →
      (∀ delivery ∈ m.deliveries envs, delivery.Accepted) ∧
        (m.ids.card < mapCapacity → ∃ r, m.tick envs = .ok r)) ∧
      (m.queue = [] → ∀ name name' node node', m.nodes.lookup name = some node →
        m.nodes.lookup name' = some node' → node.blocks = node'.blocks ∧
          ∃ l l', node.ledger = some l ∧ node'.ledger = some l' ∧
            ∀ ord ord', l.ledgerState ord = l'.ledgerState ord' ∧ (l.ledgerState ord).isSome) := by
  obtain ⟨honward, hflooding⟩ := flooding_of_run h₀ hrun
  obtain ⟨h, hpeers⟩ := hflooding hcollision
  constructor
  · intro envs htime
    obtain ⟨haccepted, _, hreturns⟩ := h.advance.deliverAll hcollision htime 0
    refine ⟨haccepted, fun hroom => ?_⟩
    obtain ⟨m', hall⟩ := hreturns m.ids (fun b hb => mem_ids_of_mem_blocks honward.allSound hb) hroom
    exact ⟨_, Outcome.bind_eq_ok.2 ⟨m', hall, rfl⟩⟩
  · intro hqueue name name' node node' hnode hnode'
    obtain ⟨l, hl, hmem⟩ := h.nodes name node hnode
    obtain ⟨l', hl', hmem'⟩ := h.nodes name' node' hnode'
    have hnames : ∀ {s n}, m.nodes.lookup s = some n → s ∈ m₀.nodes := fun hs =>
      (honward.names _).1 (Finmap.mem_of_lookup_eq_some hs)
    have hpeer : m.Peer = m₀.Peer := by
      funext s t
      rw [Peer, Peer, peerSet, peerSet, hpeers]
    have hempty : (m.flood (genesisId genesisTxs) []).queue = [] := by
      rw [flood, hqueue]
      rfl
    have hheld : ∀ {s t : String}, s ∈ m₀.nodes → t ∈ m₀.nodes → ∀ x,
        x = genesisId genesisTxs ∨ x ∈ m.blocksSeen s → x = genesisId genesisTxs ∨
          x ∈ m.blocksSeen t := by
      intro s t hs ht x hx
      have hsymm : Std.Symm m₀.Peer := ⟨h₀.symmetric⟩
      refine h.causal.settled hempty ?_ hx
      rw [hpeer, ← Relation.EqvGen.eqvGen_eq_reflTransGen]
      exact h₀.connected s hs t ht
    have hsame : ∀ x, x ∈ l.dag.nodes ↔ x ∈ l'.dag.nodes := fun x => by
      rw [hmem, hmem']
      exact ⟨hheld (hnames hnode) (hnames hnode') x, hheld (hnames hnode') (hnames hnode) x⟩
    have hS : l.blocks ⊆ m.blocks := fun b hb =>
      ⟨name, node, hnode, Node.blocks_eq hl.ledger_eq ▸ hb⟩
    have hS' : l'.blocks ⊆ m.blocks := fun b hb =>
      ⟨name', node', hnode', Node.blocks_eq hl'.ledger_eq ▸ hb⟩
    obtain ⟨_, _, hstate⟩ := Net.same_of_mem_iff hcollision hl hl' hS hS' hsame
    refine ⟨?_, l, l', hl.ledger_eq, hl'.ledger_eq, hstate⟩
    have hcompat := hl.healthy.compatible hl'.healthy (hl.rooted.same hl'.rooted) hcollision hS hS'
    rw [Node.blocks_eq hl.ledger_eq, Node.blocks_eq hl'.ledger_eq]
    ext b
    constructor
    · rintro ⟨x, hx, rfl⟩
      exact ⟨x, (hsame x).1 hx, (hcompat.block_eq x hx ((hsame x).1 hx)).symm⟩
    · rintro ⟨x, hx, rfl⟩
      exact ⟨x, (hsame x).2 hx, hcompat.block_eq x ((hsame x).2 hx) hx⟩

end Mesh

namespace Mesh

/-- The blocks of all nodes, one node after the other. -/
def blockList (m : Mesh) : List Block :=
  (ascending m.nodes.keys).flatMap fun name =>
    match (m.nodes.lookup name).bind Node.ledger with
    | none => []
    | some l => (ascending l.dag.nodes.keys).map fun x => (l.dag.node x).block

theorem mem_blockList {m : Mesh} {b : Block} (h : b ∈ m.blocks) : b ∈ m.blockList := by
  obtain ⟨name, node, hnode, l, hl, x, hx, rfl⟩ := h
  refine List.mem_flatMap.2 ⟨name, mem_ascending.2 (Finmap.mem_keys.2
    (Finmap.mem_of_lookup_eq_some hnode)), ?_⟩
  rw [hnode, Option.bind_some, hl]
  exact List.mem_map_of_mem (mem_ascending.2 (Finmap.mem_keys.2 hx))

open scoped Reference

/-- Three nodes in a row. -/
def row (node : Node) : Mesh :=
  { ((new.add "alpha" node).add "beta" node).add "gamma" node with
    peers := (((∅ : Finmap fun _ : String => Finset String).insert "alpha" {"beta"}).insert "beta"
      {"alpha", "gamma"}).insert "gamma" {"beta"} }

theorem peer_row {node : Node} {s t : String} : (row node).Peer s t ↔
    s = "beta" ∧ (t = "alpha" ∨ t = "gamma") ∨ (s = "alpha" ∨ s = "gamma") ∧ t = "beta" := by
  unfold Peer peerSet row
  simp only [lookup_insert_eq]
  by_cases hg : s = "gamma"
  · simp [hg]
  by_cases hb : s = "beta"
  · simp [hb]
  by_cases ha : s = "alpha"
  · simp [ha]
  · simp [ha, hb, hg]

theorem blocksSeen_row (node : Node) (name : String) : (row node).blocksSeen name = ∅ := by
  refine Finset.eq_empty_of_forall_notMem fun x hx => ?_
  have hseen : (((new.add "alpha" node).add "beta" node).add "gamma" node).HasSeen name
    (.block x) := hx
  rw [hasSeen_add, hasSeen_add, hasSeen_add] at hseen
  exact absurd hseen (Finset.notMem_empty x)

theorem founded_row {node : Node} (h : atGenesis = some node) :
    Founded 3 1 (Node.genesisTxs 1 1) false (row node) := by
  have hnodes : ∀ name, (row node).nodes.lookup name =
      if name = "gamma" ∨ name = "beta" ∨ name = "alpha" then some node else none := by
    intro name
    show ((((new.add "alpha" node).add "beta" node).add "gamma" node).nodes).lookup name = _
    simp only [add, lookup_insert_eq]
    by_cases hg : name = "gamma"
    · simp [hg]
    by_cases hb : name = "beta"
    · simp [hb]
    by_cases ha : name = "alpha"
    · simp [ha]
    · simp [ha, hb, hg, new]
  have hmem : ∀ name ∈ (row node).nodes, name = "gamma" ∨ name = "beta" ∨ name = "alpha" := by
    intro name hname
    obtain ⟨n, hn⟩ := Finmap.mem_iff.1 hname
    rw [hnodes] at hn
    split at hn
    · assumption
    · cases hn
  obtain ⟨r, hgenesis, rfl⟩ := Option.map_eq_some_iff.1 h
  obtain ⟨l, hnew, hledger⟩ := Node.genesis_eq_ok (ok_of_toOption hgenesis)
  refine ⟨fun name n hn => ?_, rfl, fun name => ?_, fun s t hst => ?_, fun s hs t ht => ?_⟩
  · rw [hnodes] at hn
    split at hn
    · rw [← Option.some.inj hn]
      exact ⟨_, l, hnew, by rw [Ledger.Healthy.setProofOfWork_new hnew]; exact hledger⟩
    · cases hn
  · exact blocksSeen_row _ name
  · rw [peer_row] at hst ⊢
    tauto
  · -- everybody is connected to the node in the middle
    have hbeta : ∀ s ∈ (row (r.2.setNowMs 1)).nodes, EqvGen (row (r.2.setNowMs 1)).Peer s "beta" := by
      intro s hs
      rcases hmem s hs with rfl | rfl | rfl
      · exact .rel _ _ (peer_row.2 (by simp))
      · exact .refl _
      · exact .rel _ _ (peer_row.2 (by simp))
    exact .trans _ _ _ (hbeta s hs) (.symm _ _ (hbeta t ht))

/-- The first node produces a block, and two ticks bring it to the last one. -/
theorem floods_lose_nothing_row : ∃ m₀ m, Founded 3 1 (Node.genesisTxs 1 1) false m₀ ∧
    ReflTransGen Called m₀ m ∧ m.queue = [] ∧ ∃ first last, m.nodes.lookup "alpha" = some first ∧
      m.nodes.lookup "gamma" = some last ∧ first.ids.card = 2 ∧ first.blocks = last.blocks := by
  have hplay : (atGenesis.bind fun node =>
      ((row node).produceEmpty ⟨.sorted, 1⟩ "alpha").toOption.bind fun produced =>
        (produced.2.tick atOne).toOption.bind fun once =>
          (once.2.tick atOne).toOption.bind fun twice =>
            (twice.2.nodes.lookup "alpha").bind fun first =>
              (twice.2.nodes.lookup "gamma").map fun last => decide (
                (∀ b ∈ produced.2.blockList, b.timestampMs.val ≤ maxFutureDriftMs.val) ∧
                (∀ b ∈ once.2.blockList, b.timestampMs.val ≤ maxFutureDriftMs.val) ∧
                (∀ x ∈ twice.2.blockList.map Block.preimage,
                  ∀ y ∈ twice.2.blockList.map Block.preimage,
                    Crypto.blake3 x = Crypto.blake3 y → x = y) ∧
                twice.2.queue.isEmpty ∧ first.ids.card = 2)) = some true := by
    decide +kernel
  obtain ⟨node, hnode, hplay⟩ := Option.bind_eq_some_iff.1 hplay
  obtain ⟨produced, hproduced, hplay⟩ := Option.bind_eq_some_iff.1 hplay
  obtain ⟨once, honce, hplay⟩ := Option.bind_eq_some_iff.1 hplay
  obtain ⟨twice, htwice, hplay⟩ := Option.bind_eq_some_iff.1 hplay
  obtain ⟨first, hfirst, hplay⟩ := Option.bind_eq_some_iff.1 hplay
  obtain ⟨last, hlast, hplay⟩ := Option.map_eq_some_iff.1 hplay
  obtain ⟨htime, htime', hhash, hempty, hcard⟩ := of_decide_eq_true hplay
  have hintime : ∀ m : Mesh, (∀ b ∈ m.blockList, b.timestampMs.val ≤ maxFutureDriftMs.val) →
      ∀ i, m.InTime (atOne i) := fun m hm i name n hn b hb =>
    (hm b (mem_blockList hb)).trans (Nat.le_add_left _ _)
  have hrun : ReflTransGen Called (row node) twice.2 :=
    ((ReflTransGen.single (.produceEmpty (ok_of_toOption hproduced))).tail
      (.tick (hintime _ htime) (ok_of_toOption honce))).tail
        (.tick (hintime _ htime') (ok_of_toOption htwice))
  have hcollision : Set.InjOn Crypto.blake3 (Block.preimage '' twice.2.blocks) :=
    Block.injOn_blake3 (fun c hc => List.mem_map_of_mem (mem_blockList hc)) hhash
  have hqueue := List.isEmpty_iff.1 hempty
  obtain ⟨hblocks, _⟩ := (floods_lose_nothing (founded_row hnode) hrun hcollision).2 hqueue
    "alpha" "gamma" first last hfirst hlast
  exact ⟨_, _, founded_row hnode, hrun, hqueue, first, last, hfirst, hlast, hcard, hblocks⟩

end Mesh

end Kovanica
