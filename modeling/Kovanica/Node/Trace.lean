import Kovanica.Node.Convergence
import Kovanica.Node.Frame

/-!
# Deliveries in the runs of a mesh

A run of a mesh is any interleaving of its calls.  Its history lists what each
node has announced and what has been delivered to it, and the seen-sets of the
mesh are exactly that history.  An envelope is marked before the node is asked to
take it, so of all the envelopes of a block or a transaction only the first one at
a node can bring it there.

## Main results

* `Run.remembers`: the seen-sets are the history, along any run.
* `Remembers.split`: the first delivery of a key, set apart from all others.
* `BlockDelivered.holds_iff`, `TxDelivered.pending_iff`: what one delivery leaves at the node.
-/

namespace Kovanica

open Lib

/-- An envelope delivered, with the mesh before and after.  The history of a run is the list of
these, so what was delivered earlier can be asked for. -/
structure Delivery where
  env : Env
  before : Mesh
  letter : Queued
  after : Mesh

namespace Mesh

/-- The node holds the block. -/
def HoldsBlock (m : Mesh) (name : String) (id : BlockId) : Prop :=
  ∃ node, m.nodes.lookup name = some node ∧ id ∈ node.ids

/-- The transaction is pending at the node. -/
def IsPending (m : Mesh) (name : String) (id : TxId) : Prop :=
  ∃ node, m.nodes.lookup name = some node ∧ id ∈ node.mempool.pending

section Holdings

variable {m m' : Mesh} {name : String}

instance holdsBlockDecidable (m : Mesh) (name : String) (id : BlockId) :
    Decidable (m.HoldsBlock name id) :=
  decidable_of_iff (((m.nodes.lookup name).any fun node => decide (id ∈ node.ids)) = true) <| by
    simp [HoldsBlock, Option.any_eq_true]

theorem holdsBlock_congr {id : BlockId} (h : m'.nodes = m.nodes) :
    m'.HoldsBlock name id ↔ m.HoldsBlock name id := by
  unfold HoldsBlock
  rw [h]

theorem holdsBlock_insert {node : Node} {id : BlockId} (h : m'.nodes = m.nodes.insert name node) :
    m'.HoldsBlock name id ↔ id ∈ node.ids := by
  unfold HoldsBlock
  rw [h, Finmap.lookup_insert]
  simp only [Option.some.injEq, exists_eq_left']

theorem isPending_insert {node : Node} {id : TxId} (h : m'.nodes = m.nodes.insert name node) :
    m'.IsPending name id ↔ id ∈ node.mempool.pending := by
  unfold IsPending
  rw [h, Finmap.lookup_insert]
  simp only [Option.some.injEq, exists_eq_left']

end Holdings

/-- The deliveries of `deliverAll`, up to a panic. -/
def deliveriesOf [Crypto] (envs : Nat → Env) : (i : Nat) → List Queued → Mesh → List Delivery
  | _, [], _ => []
  | i, q :: rest, m =>
      match m.deliver (envs i) q with
      | .error _ => []
      | .ok m' => ⟨envs i, m, q, m'⟩ :: deliveriesOf envs (i + 1) rest m'

/-- The deliveries of a tick. -/
def deliveries [Crypto] (envs : Nat → Env) (m : Mesh) : List Delivery :=
  deliveriesOf envs 0 m.dueNow m.advance

end Mesh

/-- What happens to a node: it announces a key, or an envelope is delivered to it.  The history of
a run is the list of these, in their order. -/
inductive MeshEvent where
  | announced (name : String) (key : GossipKey)
  | delivered (delivery : Delivery)

/-- The event shows the key to the node. -/
def MeshEvent.Shows [Crypto] (event : MeshEvent) (name : String) (key : GossipKey) : Prop :=
  match event with
  | .announced sender shown => name = sender ∧ shown = key
  | .delivered delivery =>
      name = delivery.letter.recipient ∧ delivery.letter.envelope.key = some key

/-- The key has gone by at the node. -/
def WentBy [Crypto] (events : List MeshEvent) (name : String) (key : GossipKey) : Prop :=
  ∃ event ∈ events, event.Shows name key

namespace Delivery

variable [Crypto]

/-- The delivery should bring something: the node would take the block, or the
spend is new and its inputs are unspent. -/
def Due (delivery : Delivery) : Prop :=
  match delivery.letter.envelope with
  | .hello _ => False
  | .block record => ∃ node r,
      delivery.before.nodes.lookup delivery.letter.recipient = some node ∧
      node.receiveBlock delivery.env record = .ok r
  | .tx tx => ∃ node l utxo,
      delivery.before.nodes.lookup delivery.letter.recipient = some node ∧
      tx.isCoinbase = false ∧ tx.id ∉ node.mempool.pending ∧ node.ledger = some l ∧
      l.ledgerState delivery.env.ord = some utxo ∧ ∀ input ∈ tx.inputs, input.outpoint ∈ utxo

/-- The block that the recipient would take. -/
def takenRecord (delivery : Delivery) : Option BlockRecord :=
  match delivery.letter.envelope with
  | .hello _ => none
  | .block record =>
      if (delivery.before.nodes.lookup delivery.letter.recipient).any fun node =>
        (node.receiveBlock delivery.env record).toOption.isSome
      then some record else none
  | .tx _ => none

theorem due_of_takenRecord {delivery : Delivery} {record : BlockRecord}
    (h : delivery.takenRecord = some record) :
    delivery.letter.envelope = .block record ∧ delivery.Due := by
  unfold takenRecord at h
  unfold Due
  cases hq : delivery.letter.envelope with
  | hello advertised =>
      rw [hq] at h
      cases h
  | block record' =>
      simp only [hq] at h ⊢
      split at h
      · rename_i htakes
        obtain rfl := Option.some.inj h
        obtain ⟨node, hnode, hcall⟩ := (Option.any_eq_true _ _).1 htakes
        obtain ⟨r, hr⟩ := Option.isSome_iff_exists.1 hcall
        exact ⟨rfl, node, r, hnode, ok_of_toOption hr⟩
      · cases h
  | tx t =>
      rw [hq] at h
      cases h

/-- It has been brought: the node holds the block, the transaction is pending.  This is read off
the mesh right after the delivery. -/
def Kept (delivery : Delivery) : Prop :=
  match delivery.letter.envelope with
  | .hello _ => True
  | .block record => delivery.after.HoldsBlock delivery.letter.recipient record.id
  | .tx tx => delivery.after.IsPending delivery.letter.recipient tx.id

/-- It is the first of its key at the node, or it brings a block that is there.  Both are read off
what had happened before the delivery. -/
def First (delivery : Delivery) (history : List MeshEvent) : Prop :=
  match delivery.letter.envelope with
  | .hello _ => True
  | .block record => ¬ WentBy history delivery.letter.recipient (.block record.id) ∨
      delivery.before.HoldsBlock delivery.letter.recipient record.id
  | .tx tx => ¬ WentBy history delivery.letter.recipient (.tx tx.id)

end Delivery

namespace Mesh

variable [Crypto]

/-! ## Runs -/

/-- The announcement of a block, if the node has a record of it. -/
def announcedBlock (m : Mesh) (name : String) (id : BlockId) : List MeshEvent :=
  (m.storedRecord name id).toList.map fun record => .announced name (.block record.id)

/-- The announcement of a transaction, if it is pending. -/
def announcedTx (m : Mesh) (name : String) (id : TxId) : List MeshEvent :=
  (m.pendingTx name id).toList.map fun tx => .announced name (.tx tx.id)

/-- Any interleaving of calls on a mesh, with the history it leaves.  A call that
fails changes nothing. -/
inductive Run : List MeshEvent → Mesh → Prop
  | start : Run [] new
  | add {history : List MeshEvent} {m : Mesh} (name : String) (node : Node) :
      Run history m → Run history (m.add name node)
  | connect {history : List MeshEvent} {m m' : Mesh} {sender recipient : String} :
      Run history m → m.connect sender recipient = .ok m' → Run history m'
  | produce {history : List MeshEvent} {m m' : Mesh} {env : Env} {name : String}
      {produced : Option BlockId} : Run history m → m.produce env name = .ok (produced, m') →
      Run (history ++ produced.toList.flatMap (m'.announcedBlock name)) m'
  | produceEmpty {history : List MeshEvent} {m m' : Mesh} {env : Env} {name : String}
      {id : BlockId} : Run history m → m.produceEmpty env name = .ok (id, m') →
      Run (history ++ m'.announcedBlock name id) m'
  | sendTo {history : List MeshEvent} {m m' : Mesh} {env : Env} {name : String}
      {fromSeed amount : U64} {recipient : Address} {id : BlockId} : Run history m →
      m.sendTo env name fromSeed amount recipient = .ok (id, m') →
      Run (history ++ m'.announcedBlock name id) m'
  | send {history : List MeshEvent} {m m' : Mesh} {env : Env} {name : String}
      {fromSeed amount toSeed : U64} {id : BlockId} : Run history m →
      m.send env name fromSeed amount toSeed = .ok (id, m') →
      Run (history ++ m'.announcedBlock name id) m'
  | pool {history : List MeshEvent} {m m' : Mesh} {env : Env} {name : String}
      {fromSeed amount toSeed : U64} {id : TxId} : Run history m →
      m.pool env name fromSeed amount toSeed = .ok (id, m') →
      Run (history ++ m'.announcedTx name id) m'
  | submitSigned {history : List MeshEvent} {m m' : Mesh} {env : Env} {name : String}
      {sender recipient : Address} {amount : U64} {signature : Bytes 64} {id : TxId} :
      Run history m → m.submitSigned env name sender amount recipient signature = .ok (id, m') →
      Run (history ++ m'.announcedTx name id) m'
  | tick {history : List MeshEvent} {m m' : Mesh} {envs : Nat → Env} {n : Nat} :
      Run history m → m.tick envs = .ok (n, m') →
      Run (history ++ (m.deliveries envs).map .delivered) m'

/-! ## The seen-sets are the history -/

/-- The nodes have seen what the history has shown them, and nothing else: the seen-sets of the
mesh carry no other information. -/
def Remembers (m : Mesh) (history : List MeshEvent) : Prop :=
  ∀ name key, m.HasSeen name key ↔ WentBy history name key

variable {m m' : Mesh} {history : List MeshEvent} {name : String} {key : GossipKey}

theorem wentBy_append {before after : List MeshEvent} :
    WentBy (before ++ after) name key ↔ WentBy before name key ∨ WentBy after name key := by
  unfold WentBy
  simp only [List.mem_append, or_and_right, exists_or]

theorem Remembers.congr (h : m.Remembers history)
    (hseen : ∀ name key, m'.HasSeen name key ↔ m.HasSeen name key) : m'.Remembers history := by
  intro name key
  rw [hseen]
  exact h name key

/-- A block announced is shown to its node. -/
theorem Remembers.announceStored (h : m.Remembers history) (name : String) (id : BlockId) :
    (m.announceStored name id).Remembers
      (history ++ (m.announceStored name id).announcedBlock name id) := by
  intro other key
  cases hrecord : m.storedRecord name id with
  | none =>
      rw [announceStored_none hrecord, announcedBlock, hrecord, Option.toList_none, List.map_nil,
        List.append_nil]
      exact h other key
  | some record =>
      have hstored : (m.announceStored name id).storedRecord name id = some record := by
        rw [← hrecord, announceStored_some hrecord]
        rfl
      have hseen : (m.announceStored name id).HasSeen other key ↔
          (m.markBlock name record.id).HasSeen other key := by
        rw [announceStored_some hrecord]
        exact hasSeen_congr rfl rfl
      rw [hseen, hasSeen_markBlock, h, announcedBlock, hstored, wentBy_append]
      simp [WentBy, MeshEvent.Shows, eq_comm]

/-- A transaction announced is shown to its node. -/
theorem Remembers.announcePending (h : m.Remembers history) (name : String) (id : TxId) :
    (m.announcePending name id).Remembers
      (history ++ (m.announcePending name id).announcedTx name id) := by
  intro other key
  cases hpending : m.pendingTx name id with
  | none =>
      rw [announcePending_none hpending, announcedTx, hpending, Option.toList_none, List.map_nil,
        List.append_nil]
      exact h other key
  | some t =>
      have hstored : (m.announcePending name id).pendingTx name id = some t := by
        rw [← hpending, announcePending_some hpending]
        rfl
      have hseen : (m.announcePending name id).HasSeen other key ↔
          (m.markTx name t.id).HasSeen other key := by
        rw [announcePending_some hpending]
        exact hasSeen_congr rfl rfl
      rw [hseen, hasSeen_markTx, h, announcedTx, hstored, wentBy_append]
      simp [WentBy, MeshEvent.Shows, eq_comm]

theorem Remembers.withNode (h : m.Remembers history) (name : String) (node : Node) :
    (m.withNode name node).Remembers history :=
  h.congr fun _ _ => hasSeen_congr rfl rfl

theorem Remembers.deliver {env : Env} {q : Queued} (h : m.Remembers history)
    (hdeliver : m.deliver env q = .ok m') :
    m'.Remembers (history ++ [.delivered ⟨env, m, q, m'⟩]) := by
  intro name key
  rw [hasSeen_deliver hdeliver, h, wentBy_append]
  simp [WentBy, MeshEvent.Shows]

/-- The deliveries of a queue, one after the other. -/
theorem Remembers.deliverAll {envs : Nat → Env} {i : Nat} {queue : List Queued}
    (h : m.Remembers history) (hall : deliverAll envs i queue m = .ok m') :
    m'.Remembers (history ++ (deliveriesOf envs i queue m).map .delivered) := by
  induction queue generalizing i m history with
  | nil =>
      rw [Mesh.deliverAll] at hall
      rw [← Except.ok.inj hall, deliveriesOf, List.map_nil, List.append_nil]
      exact h
  | cons q rest ih =>
      rw [Mesh.deliverAll] at hall
      rw [deliveriesOf]
      cases hdeliver : m.deliver (envs i) q with
      | error e =>
          rw [hdeliver] at hall
          cases hall
      | ok m₁ =>
          rw [hdeliver] at hall
          have hrest := ih (h.deliver hdeliver) hall
          rwa [List.append_assoc] at hrest

theorem Remembers.advance (h : m.Remembers history) : m.advance.Remembers history :=
  h.congr fun _ _ => hasSeen_congr rfl rfl

/-- The mesh before a delivery remembers all that came earlier. -/
theorem Remembers.split {envs : Nat → Env} {i : Nat} {queue : List Queued}
    {before after : List Delivery} {delivery : Delivery} (h : m.Remembers history)
    (hsplit : deliveriesOf envs i queue m = before ++ delivery :: after) :
    delivery.before.Remembers (history ++ before.map .delivered) ∧
      delivery.before.deliver delivery.env delivery.letter = .ok delivery.after := by
  induction queue generalizing i m history before with
  | nil =>
      rw [deliveriesOf] at hsplit
      exact absurd hsplit.symm (by simp)
  | cons q rest ih =>
      rw [deliveriesOf] at hsplit
      cases hdeliver : m.deliver (envs i) q with
      | error e =>
          rw [hdeliver] at hsplit
          exact absurd hsplit.symm (by simp)
      | ok m₁ =>
          rw [hdeliver] at hsplit
          cases before with
          | nil =>
              obtain ⟨rfl, _⟩ := List.cons.inj hsplit
              rw [List.map_nil, List.append_nil]
              exact ⟨h, hdeliver⟩
          | cons first before =>
              obtain ⟨rfl, hrest⟩ := List.cons.inj hsplit
              obtain ⟨hremembers, hcall⟩ := ih (h.deliver hdeliver) hrest
              rw [List.append_assoc] at hremembers
              exact ⟨hremembers, hcall⟩

/-- In every run the seen-sets are the history. -/
theorem Run.remembers (h : Run history m) : m.Remembers history := by
  induction h with
  | start =>
      intro name key
      cases key <;> simp [HasSeen, blocksSeen, txsSeen, new, WentBy]
  | add name node _ ih => exact ih.congr fun _ _ => hasSeen_add _ node
  | connect _ hcall ih => exact ih.congr fun _ _ => (sameNodes_connect hcall).hasSeen
  | @produce _ _ _ _ name produced _ hcall ih =>
      obtain ⟨node, node', _, _, heq⟩ := produce_eq_ok hcall
      cases produced with
      | none =>
          rw [heq, Option.toList_none, List.flatMap_nil, List.append_nil]
          exact ih.withNode name node'
      | some id =>
          rw [heq, Option.toList_some, List.flatMap_singleton]
          exact (ih.withNode name node').announceStored name id
  | produceEmpty _ hcall ih =>
      obtain ⟨node, node', _, _, rfl⟩ := produceEmpty_eq_ok hcall
      exact (ih.withNode _ node').announceStored _ _
  | sendTo _ hcall ih =>
      obtain ⟨node, node', _, _, _, rfl⟩ := sendTo_eq_ok hcall
      exact (ih.withNode _ node').announceStored _ _
  | send _ hcall ih =>
      rw [send_eq] at hcall
      obtain ⟨node, node', _, _, _, rfl⟩ := sendTo_eq_ok hcall
      exact (ih.withNode _ node').announceStored _ _
  | pool _ hcall ih =>
      obtain ⟨node, node', _, _, rfl⟩ := pool_eq_ok hcall
      exact (ih.withNode _ node').announcePending _ _
  | submitSigned _ hcall ih =>
      obtain ⟨node, node', _, _, rfl⟩ := submitSigned_eq_ok hcall
      exact (ih.withNode _ node').announcePending _ _
  | tick _ hcall ih =>
      obtain ⟨after, hall, hret⟩ := Outcome.bind_eq_ok.1 hcall
      obtain ⟨_, rfl⟩ := Prod.mk.inj (Except.ok.inj hret)
      exact ih.advance.deliverAll hall

/-! ## What a delivery brings -/

variable {env : Env} {sender : String}

/-- A block the node would take: it is there afterwards if it was, or if this is
the first the node sees of it. -/
theorem BlockDelivered.holds_iff {record : BlockRecord} {node : Node} {r : BlockId × Node}
    (h : BlockDelivered env m name sender record m') (hnode : m.nodes.lookup name = some node)
    (hdue : node.receiveBlock env record = .ok r) :
    m'.HoldsBlock name record.id ↔
      ¬ m.HasSeen name (.block record.id) ∨ m.HoldsBlock name record.id := by
  have hseenIff : m.HasSeen name (.block record.id) ↔ record.id ∈ m.blocksSeen name := Iff.rfl
  cases h with
  | seen hseen =>
      constructor
      · exact .inr
      · exact fun h => h.resolve_left fun hnot => hnot (hseenIff.2 hseen)
  | unregistered _ hnone =>
      rw [hnone] at hnode
      cases hnode
  | @accepted node₁ node' id hnot hnode' hcall =>
      refine ⟨fun _ => .inl fun hseen => hnot (hseenIff.1 hseen), fun _ => ?_⟩
      rw [relay_eq, holdsBlock_insert rfl, Node.mem_ids]
      exact Node.receiveBlock_stored hcall
  | refused _ hnode' hcall =>
      obtain rfl := Option.some.inj (hnode.symm.trans hnode')
      rw [hdue] at hcall
      cases hcall

/-- A new spend: it is pending afterwards if this is the first the node sees of
it. -/
theorem TxDelivered.pending_iff {t : Transaction} {node : Node}
    (h : TxDelivered m name sender t m') (hnode : m.nodes.lookup name = some node)
    (hspend : t.isCoinbase = false) (hnew : t.id ∉ node.mempool.pending) :
    m'.IsPending name t.id ↔ ¬ m.HasSeen name (.tx t.id) := by
  have hseenIff : m.HasSeen name (.tx t.id) ↔ t.id ∈ m.txsSeen name := Iff.rfl
  cases h with
  | seen hseen =>
      constructor
      · rintro ⟨node', hnode', hpending⟩ _
        obtain rfl := Option.some.inj (hnode.symm.trans hnode')
        exact hnew hpending
      · exact fun hnot => absurd (hseenIff.2 hseen) hnot
  | unregistered _ hnone =>
      rw [hnone] at hnode
      cases hnode
  | @accepted node₁ node' id hnot hnode' hcall =>
      obtain ⟨n, hsubmit, hpending⟩ := Node.submitTx_pending (n := node₁) hspend
      obtain ⟨_, rfl⟩ := Prod.mk.inj (Except.ok.inj (hsubmit.symm.trans hcall))
      refine ⟨fun _ hseen => hnot (hseenIff.1 hseen), fun _ => ?_⟩
      rw [relay_eq, isPending_insert rfl]
      exact hpending
  | @refused node₁ e _ hnode' hcall =>
      obtain ⟨n, hsubmit, _⟩ := Node.submitTx_pending (n := node₁) hspend
      rw [hsubmit] at hcall
      cases hcall

/-- In every run, a delivery that should bring a block or a transaction does so if
and only if nothing of that key has gone by at the node before, or the block is
there already. -/
theorem delivery_kept_iff (h : Run history m) {envs : Nat → Env} {before after : List Delivery}
    {delivery : Delivery} (hsplit : m.deliveries envs = before ++ delivery :: after)
    (hdue : delivery.Due) :
    delivery.Kept ↔ delivery.First (history ++ before.map .delivered) := by
  obtain ⟨hremembers, hdeliver⟩ := h.remembers.advance.split hsplit
  unfold Delivery.Due at hdue
  unfold Delivery.Kept Delivery.First
  cases hq : delivery.letter.envelope with
  | hello advertised => exact Iff.rfl
  | block record =>
      simp only [hq] at hdue ⊢
      obtain ⟨node, r, hnode, hcall⟩ := hdue
      have hnoted : (delivery.before.noted delivery.letter).HasSeen delivery.letter.recipient
          (.block record.id) ↔ delivery.before.HasSeen delivery.letter.recipient
            (.block record.id) := hasSeen_congr rfl rfl
      rw [(deliver_block hq hdeliver).holds_iff hnode hcall, hnoted, hremembers]
      exact or_congr_right (holdsBlock_congr rfl)
  | tx t =>
      simp only [hq] at hdue ⊢
      obtain ⟨node, _, _, hnode, hspend, hnew, _⟩ := hdue
      have hnoted : (delivery.before.noted delivery.letter).HasSeen delivery.letter.recipient
          (.tx t.id) ↔ delivery.before.HasSeen delivery.letter.recipient (.tx t.id) :=
        hasSeen_congr rfl rfl
      rw [(deliver_tx hq hdeliver).pending_iff hnode hspend hnew, hnoted, hremembers]

end Mesh

namespace Mesh

open scoped Reference

/-- A node at the genesis, at time 1. -/
def atGenesis : Option Node :=
  (Node.new.genesis ⟨.sorted, 1⟩ 3 1 1 1).toOption.map fun r => r.2.setNowMs 1

/-- A mesh in which a child overtakes its parent: alpha announces the parent to
gamma, gamma has beta for a peer, and alpha announces the child to beta as well. -/
def overtaking : Option Mesh := do
  let node ← atGenesis
  let m := ((new.add "alpha" node).add "beta" node).add "gamma" node
  let m ← (m.connect "alpha" "gamma").toOption
  let m ← (m.connect "gamma" "beta").toOption
  let m ← (m.produceEmpty ⟨.sorted, 1⟩ "alpha").toOption.map Prod.snd
  let m ← (m.connect "alpha" "beta").toOption
  (m.produceEmpty ⟨.sorted, 1⟩ "alpha").toOption.map Prod.snd

theorem run_overtaking {m : Mesh} (h : overtaking = some m) : ∃ history, Run history m := by
  unfold overtaking at h
  simp only [Option.bind_eq_bind, Option.bind_eq_some_iff, Option.map_eq_some_iff] at h
  obtain ⟨node, _, m₁, h₁, m₂, h₂, m₃, ⟨⟨_, m₃'⟩, h₃, rfl⟩, m₄, h₄, ⟨_, m₅⟩, h₅, rfl⟩ := h
  have hrun : Run [] (((new.add "alpha" node).add "beta" node).add "gamma" node) :=
    .add _ _ (.add _ _ (.add _ _ .start))
  exact ⟨_, .produceEmpty (.connect (.produceEmpty (.connect (.connect hrun
    (ok_of_toOption h₁)) (ok_of_toOption h₂)) (ok_of_toOption h₃)) (ok_of_toOption h₄))
    (ok_of_toOption h₅)⟩

/-- The surroundings of the ticks. -/
def atOne (_ : Nat) : Env := ⟨.sorted, 1⟩

/-- The parent is delivered to gamma and kept there. -/
theorem delivery_kept_iff_overtaking : ∃ history m, Run history m ∧
    ∃ delivery ∈ m.deliveries atOne, delivery.Due ∧ delivery.Kept := by
  have hplay : (overtaking.map fun m => (m.deliveries atOne).any fun delivery =>
      delivery.takenRecord.any fun record =>
        decide (record.id ∉ delivery.before.blocksSeen delivery.letter.recipient)) = some true := by
    decide +kernel
  obtain ⟨m, hm, hany⟩ := Option.map_eq_some_iff.1 hplay
  obtain ⟨history, hrun⟩ := run_overtaking hm
  obtain ⟨delivery, hmem, htaken⟩ := List.any_eq_true.1 hany
  obtain ⟨record, hrecord, hnew⟩ := (Option.any_eq_true _ _).1 htaken
  obtain ⟨henvelope, hdue⟩ := Delivery.due_of_takenRecord hrecord
  obtain ⟨before, after, hsplit⟩ := List.append_of_mem hmem
  refine ⟨history, m, hrun, delivery, hmem, hdue, (delivery_kept_iff hrun hsplit hdue).2 ?_⟩
  have hremembers := (hrun.remembers.advance.split hsplit).1
  unfold Delivery.First
  rw [henvelope]
  exact .inl fun hwent => of_decide_eq_true hnew ((hremembers _ (.block record.id)).2 hwent)

/-- A run in which beta would take a block delivered to it and does not hold it
afterwards: it was delivered once before, ahead of its parent. -/
theorem delivery_wasted : ∃ history m, Run history m ∧
    ∃ delivery ∈ m.deliveries atOne, delivery.letter.envelope.kind = .block ∧ delivery.Due ∧
      ¬ delivery.Kept := by
  have hplay : (overtaking.bind fun m => (m.tick atOne).toOption.map fun r =>
      (r.2.deliveries atOne).any fun delivery => delivery.takenRecord.any fun record =>
        !decide (delivery.after.HoldsBlock delivery.letter.recipient record.id)) = some true := by
    decide +kernel
  obtain ⟨m, hm, hmap⟩ := Option.bind_eq_some_iff.1 hplay
  obtain ⟨⟨n, m'⟩, htick, hany⟩ := Option.map_eq_some_iff.1 hmap
  obtain ⟨history, hrun⟩ := run_overtaking hm
  obtain ⟨delivery, hmem, htaken⟩ := List.any_eq_true.1 hany
  obtain ⟨record, hrecord, hlost⟩ := (Option.any_eq_true _ _).1 htaken
  obtain ⟨henvelope, hdue⟩ := Delivery.due_of_takenRecord hrecord
  refine ⟨_, m', hrun.tick (ok_of_toOption htick), delivery, hmem, ?_, hdue, fun hkept => ?_⟩
  · rw [henvelope]
    rfl
  · unfold Delivery.Kept at hkept
    rw [henvelope] at hkept
    simp [hkept] at hlost

end Mesh

end Kovanica
