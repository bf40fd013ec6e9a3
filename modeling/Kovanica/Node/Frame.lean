import Kovanica.Node.P2p
import Kovanica.Node.Growth

/-!
# What a mesh operation changes

One lemma for each operation says what its result is, so that nothing later
unfolds it.  A key names what the nodes of a mesh see go by: a block or a
transaction.

## Main results

* `deliverTo_eq_ok`, `exists_deliver`: how a delivery at a node ends.
* `learn_spec`, `enqueueHellos_eq`: what is learnt of a hello, and the hellos that follow.
* `hasSeen_add`, `hasSeen_deliver`: what is seen afterwards, by the recipient and by others.
-/

namespace Kovanica

open Lib

/-- What is remembered of a block or a transaction that has gone by. -/
inductive GossipKey where
  | block (id : BlockId)
  | tx (id : TxId)
deriving DecidableEq

/-- What a node remembers of an envelope; nothing of a hello. -/
def Envelope.key [Crypto] : Envelope → Option GossipKey
  | .hello _ => none
  | .block record => some (.block record.id)
  | .tx t => some (.tx t.id)

namespace Mesh

/-- The node has seen the block or the transaction go by, and drops every later envelope of it,
whether or not it took the first. -/
def HasSeen (m : Mesh) (name : String) : GossipKey → Prop
  | .block id => id ∈ m.blocksSeen name
  | .tx id => id ∈ m.txsSeen name

instance hasSeenDecidable (m : Mesh) (name : String) (key : GossipKey) :
    Decidable (m.HasSeen name key) :=
  match key with
  | .block id => inferInstanceAs (Decidable (id ∈ m.blocksSeen name))
  | .tx id => inferInstanceAs (Decidable (id ∈ m.txsSeen name))

/-- The envelopes to the recipients other than the sender. -/
def letters (m : Mesh) (sender : String) (recipients : List String) (envelope : Envelope) :
    List Queued :=
  (recipients.filter fun recipient => recipient != sender).map fun recipient =>
    ⟨Word.saturatingAdd m.now 1, sender, recipient, envelope⟩

variable {m m' : Mesh} {name sender recipient : String} {envelope : Envelope} {key : GossipKey}

/-! ## Sending -/

theorem enqueueAll_eq (m : Mesh) (sender : String) (recipients : List String)
    (envelope : Envelope) :
    m.enqueueAll sender recipients envelope =
      { m with queue := m.queue ++ m.letters sender recipients envelope } := by
  induction recipients generalizing m with
  | nil => simp [enqueueAll, letters]
  | cons recipient recipients ih =>
      have hstep : m.enqueueAll sender (recipient :: recipients) envelope =
          (m.enqueue sender recipient envelope).enqueueAll sender recipients envelope := rfl
      rw [hstep, ih]
      unfold enqueue
      by_cases h : sender = recipient
      · rw [if_pos h]
        simp [letters, h]
      · have hne : (recipient != sender) = true := bne_iff_ne.2 fun heq => h heq.symm
        rw [if_neg h]
        simp [letters, hne]

theorem enqueue_eq (m : Mesh) (sender recipient : String) (envelope : Envelope) :
    m.enqueue sender recipient envelope =
      { m with queue := m.queue ++ m.letters sender [recipient] envelope } :=
  m.enqueueAll_eq sender [recipient] envelope

/-- Hellos to several recipients change nothing but the queue. -/
theorem enqueueHellos_eq (m : Mesh) (sender : String) (recipients : List String) :
    recipients.foldl (fun m recipient => m.enqueueHello sender recipient) m =
      { m with queue := m.queue ++ m.letters sender recipients (.hello (m.peersOf sender)) } := by
  induction recipients generalizing m with
  | nil => simp [letters]
  | cons recipient recipients ih =>
      have hpeers : (m.enqueueHello sender recipient).peersOf sender = m.peersOf sender := by
        rw [enqueueHello, enqueue_eq]
        rfl
      rw [List.foldl_cons, ih, hpeers, enqueueHello, enqueue_eq]
      simp only [letters, List.append_assoc, ← List.map_append, ← List.filter_append,
        List.singleton_append]

/-! ## What has been seen -/

theorem hasSeen_congr (hblocks : m'.seenBlocks = m.seenBlocks) (htxs : m'.seenTxs = m.seenTxs) :
    m'.HasSeen name key ↔ m.HasSeen name key := by
  cases key with
  | block id => rw [HasSeen, HasSeen, blocksSeen, blocksSeen, hblocks]
  | tx id => rw [HasSeen, HasSeen, txsSeen, txsSeen, htxs]

/-- Adding to the entry of one name adds to what is seen under that name. -/
private theorem mem_getD_insert {κ : Type} [DecidableEq κ]
    (seen : Finmap fun _ : String => Finset κ) (name other : String) (x y : κ) :
    y ∈ ((seen.insert name (insert x ((seen.lookup name).getD ∅))).lookup other).getD ∅ ↔
      y ∈ (seen.lookup other).getD ∅ ∨ other = name ∧ y = x := by
  rw [lookup_insert_eq]
  by_cases h : other = name
  · rw [if_pos h, Option.getD_some, Finset.mem_insert, h]
    simp only [true_and]
    rw [or_comm]
  · rw [if_neg h]
    simp only [h, false_and, or_false]

theorem hasSeen_markBlock {id : BlockId} (m : Mesh) (other : String) :
    (m.markBlock name id).HasSeen other key ↔
      m.HasSeen other key ∨ other = name ∧ key = .block id := by
  cases key with
  | block id' =>
      rw [GossipKey.block.injEq]
      exact mem_getD_insert m.seenBlocks name other id id'
  | tx id' =>
      simp only [reduceCtorEq, and_false, or_false]
      rfl

theorem hasSeen_markTx {id : TxId} (m : Mesh) (other : String) :
    (m.markTx name id).HasSeen other key ↔
      m.HasSeen other key ∨ other = name ∧ key = .tx id := by
  cases key with
  | block id' =>
      simp only [reduceCtorEq, and_false, or_false]
      rfl
  | tx id' =>
      rw [GossipKey.tx.injEq]
      exact mem_getD_insert m.seenTxs name other id id'

/-- Registering a node forgets nothing. -/
theorem hasSeen_add (m : Mesh) (node : Node) :
    (m.add name node).HasSeen recipient key ↔ m.HasSeen recipient key := by
  have hkeep : ∀ {κ : Type} [DecidableEq κ] (seen : Finmap fun _ : String => Finset κ),
      ((seen.insert name ((seen.lookup name).getD ∅)).lookup recipient).getD ∅ =
        (seen.lookup recipient).getD ∅ := by
    intro κ _ seen
    rw [lookup_insert_eq]
    by_cases h : recipient = name
    · rw [if_pos h, Option.getD_some, h]
    · rw [if_neg h]
  cases key with
  | block id =>
      rw [HasSeen, HasSeen, blocksSeen, blocksSeen]
      exact iff_of_eq (congrArg (id ∈ ·) (hkeep m.seenBlocks))
  | tx id =>
      rw [HasSeen, HasSeen, txsSeen, txsSeen]
      exact iff_of_eq (congrArg (id ∈ ·) (hkeep m.seenTxs))

/-! ## Steps of one node -/

theorem onNode_eq_ok {α : Type} {step : Node → Outcome NodeError (α × Node)} {a : α} :
    m.onNode name step = .ok (a, m') ↔ ∃ node node', m.nodes.lookup name = some node ∧
      step node = .ok (a, node') ∧ m' = { m with nodes := m.nodes.insert name node' } := by
  unfold onNode
  cases hnode : m.nodes.lookup name with
  | none => simp
  | some node =>
      cases hstep : step node with
      | error e => cases e <;> simp [hstep]
      | ok r =>
          obtain ⟨b, node'⟩ := r
          simp only [hstep, Except.ok.injEq, Prod.mk.injEq, Option.some.injEq]
          constructor
          · rintro ⟨rfl, rfl⟩
            exact ⟨node, node', rfl, hstep, rfl⟩
          · rintro ⟨n, n', rfl, hstep', rfl⟩
            obtain ⟨rfl, rfl⟩ := Prod.mk.inj (Except.ok.inj (hstep.symm.trans hstep'))
            exact ⟨rfl, rfl⟩

/-- A delivery finds no node, is accepted or is refused. -/
theorem deliverTo_eq_ok {α : Type} {step : Node → Outcome NodeError (α × Node)}
    {r : Option Mesh} (h : m.deliverTo name step = .ok r) :
    (m.nodes.lookup name = none ∧ r = some m) ∨
      (∃ node a node', m.nodes.lookup name = some node ∧ step node = .ok (a, node') ∧
        r = some { m with nodes := m.nodes.insert name node' }) ∨
      ∃ node e, m.nodes.lookup name = some node ∧ step node = .error (.error e) ∧ r = none := by
  unfold deliverTo at h
  cases hnode : m.nodes.lookup name with
  | none =>
      rw [hnode] at h
      exact .inl ⟨rfl, (Except.ok.inj h).symm⟩
  | some node =>
      rw [hnode] at h
      cases hstep : step node with
      | error e =>
          simp only [hstep] at h
          cases e with
          | error e => exact .inr (.inr ⟨node, e, rfl, hstep, (Except.ok.inj h).symm⟩)
          | panic site => cases h
      | ok a =>
          simp only [hstep] at h
          exact .inr (.inl ⟨node, a.1, a.2, rfl, hstep, (Except.ok.inj h).symm⟩)

/-! ## Peers -/

/-- Connecting and learning of peers leave the nodes and what they have seen.  Only peers, letters
and the time may differ. -/
structure SameNodes (m m' : Mesh) : Prop where
  nodes : m'.nodes = m.nodes
  seenBlocks : m'.seenBlocks = m.seenBlocks
  seenTxs : m'.seenTxs = m.seenTxs

theorem sameNodes_connect (h : m.connect sender recipient = .ok m') : m.SameNodes m' := by
  obtain ⟨_, _, h⟩ := Outcome.bind_eq_ok.1 h
  obtain ⟨_, _, h⟩ := Outcome.bind_eq_ok.1 h
  split at h
  · rw [← Except.ok.inj h]
    exact ⟨rfl, rfl, rfl⟩
  simp only at h
  split at h
  · rw [← Except.ok.inj h]
    exact ⟨rfl, rfl, rfl⟩
  · rw [← Except.ok.inj h, enqueueHello, enqueue_eq]
    exact ⟨rfl, rfl, rfl⟩

theorem sameNodes_onHello (m : Mesh) (name sender : String) (advertised : List String) :
    m.SameNodes (m.onHello name sender advertised) := by
  unfold onHello
  split
  · exact ⟨rfl, rfl, rfl⟩
  · simp only [enqueueHellos_eq]
    split
    · exact ⟨rfl, rfl, rfl⟩
    · rw [enqueueHello, enqueue_eq]
      exact ⟨rfl, rfl, rfl⟩

theorem SameNodes.hasSeen (h : m.SameNodes m') :
    m'.HasSeen name key ↔ m.HasSeen name key :=
  hasSeen_congr h.seenBlocks h.seenTxs

theorem connect_eq_ok (h : m.connect sender recipient = .ok m') :
    sender ∈ m.nodes ∧ recipient ∈ m.nodes ∧
      ((sender = recipient ∨ recipient ∈ m.peerSet sender) ∧ m' = m ∨
        sender ≠ recipient ∧ recipient ∉ m.peerSet sender ∧
        m' = { m with
          peers := m.peers.insert sender (insert recipient (m.peerSet sender))
          queue := m.queue ++ [⟨Word.saturatingAdd m.now 1, sender, recipient,
            .hello (ascending (insert recipient (m.peerSet sender)))⟩] }) := by
  have hrequire : ∀ {name : String} {u : Unit}, m.require name = .ok u → name ∈ m.nodes := by
    intro name u hok
    unfold require at hok
    split at hok
    · assumption
    · cases hok
  obtain ⟨_, hsender, h⟩ := Outcome.bind_eq_ok.1 h
  obtain ⟨_, hrecipient, h⟩ := Outcome.bind_eq_ok.1 h
  refine ⟨hrequire hsender, hrequire hrecipient, ?_⟩
  split at h
  · rename_i heq
    exact .inl ⟨.inl heq, (Except.ok.inj h).symm⟩
  rename_i hne
  simp only at h
  split at h
  · rename_i hknown
    exact .inl ⟨.inr hknown, (Except.ok.inj h).symm⟩
  · rename_i hnew
    refine .inr ⟨hne, hnew, ?_⟩
    have hpeers : ∀ known, ({ m with peers := m.peers.insert sender known } : Mesh).peersOf sender =
        ascending known := by
      intro known
      rw [peersOf, peerSet, Finmap.lookup_insert, Option.getD_some]
    rw [← Except.ok.inj h, enqueueHello, hpeers, enqueue, if_neg hne]

/-- What is learnt of a hello: the names that are registered and are neither the
hearer's nor the sender's. -/
theorem learn_spec (m : Mesh) (name sender : String) (advertised : List String)
    (known : Finset String) (fresh : List String) :
    (∀ x, x ∈ (m.learn name sender advertised known fresh).1 ↔
      x ∈ known ∨ x ∈ advertised ∧ x ≠ name ∧ x ≠ sender ∧ x ∈ m.nodes) ∧
    ∀ x, x ∈ (m.learn name sender advertised known fresh).2 ↔
      x ∈ fresh ∨ x ∉ known ∧ x ∈ advertised ∧ x ≠ name ∧ x ≠ sender ∧ x ∈ m.nodes := by
  induction advertised generalizing known fresh with
  | nil => simp [learn]
  | cons p rest ih =>
      rw [learn]
      by_cases hp : p ≠ name ∧ p ≠ sender ∧ p ∈ m.nodes ∧ p ∉ known
      · obtain ⟨hknown, hfresh⟩ := ih (insert p known) (fresh ++ [p])
        rw [if_pos hp]
        refine ⟨fun x => ?_, fun x => ?_⟩
        · rw [hknown, Finset.mem_insert, List.mem_cons]
          by_cases hx : x = p
          · subst hx
            simp [hp]
          · simp [hx]
        · rw [hfresh, Finset.mem_insert, List.mem_append, List.mem_singleton, List.mem_cons]
          by_cases hx : x = p
          · subst hx
            simp [hp]
          · simp [hx]
      · obtain ⟨hknown, hfresh⟩ := ih known fresh
        rw [if_neg hp]
        refine ⟨fun x => ?_, fun x => ?_⟩
        · rw [hknown, List.mem_cons]
          by_cases hx : x = p
          · subst hx
            tauto
          · simp [hx]
        · rw [hfresh, List.mem_cons]
          by_cases hx : x = p
          · subst hx
            tauto
          · simp [hx]

/-- A hello heard by a registered node: it knows the sender and the registered names
the hello advertises, and has greeted those it did not know. -/
structure HelloHeard (m : Mesh) (name sender : String) (advertised : List String) (m' : Mesh) :
    Prop where
  same : m.SameNodes m'
  now : m'.now = m.now
  mem_peerSet : ∀ x, x ∈ m'.peerSet name ↔ x ∈ m.peerSet name ∨ x = sender ∨
    x ∈ advertised ∧ x ≠ name ∧ x ≠ sender ∧ x ∈ m.nodes
  peerSet_other : ∀ s, s ≠ name → m'.peerSet s = m.peerSet s
  queue : ∃ letters, m'.queue = m.queue ++ letters ∧ ∀ q, q ∈ letters ↔
    ∃ x, x ∈ m'.peerSet name ∧ x ∉ m.peerSet name ∧ x ≠ name ∧
      q = ⟨Word.saturatingAdd m.now 1, name, x, .hello (m'.peersOf name)⟩

theorem mem_letters {q : Queued} {recipients : List String} :
    q ∈ m.letters sender recipients envelope ↔ ∃ x, x ∈ recipients ∧ x ≠ sender ∧
      q = ⟨Word.saturatingAdd m.now 1, sender, x, envelope⟩ := by
  rw [letters, List.mem_map]
  constructor
  · rintro ⟨x, hx, rfl⟩
    rw [List.mem_filter, bne_iff_ne] at hx
    exact ⟨x, hx.1, hx.2, rfl⟩
  · rintro ⟨x, hx, hne, rfl⟩
    exact ⟨x, List.mem_filter.2 ⟨hx, bne_iff_ne.2 hne⟩, rfl⟩

theorem onHello_heard (m : Mesh) (name sender : String) (advertised : List String)
    (h : name ∈ m.nodes) :
    HelloHeard m name sender advertised (m.onHello name sender advertised) := by
  have hsame := m.sameNodes_onHello name sender advertised
  obtain ⟨hlearnt, hfresh⟩ :=
    m.learn_spec name sender advertised (insert sender (m.peerSet name)) []
  generalize hlearn : m.learn name sender advertised (insert sender (m.peerSet name)) [] = r
    at hlearnt hfresh
  obtain ⟨learnt, fresh⟩ := r
  -- the reply to the sender and the greetings go out together
  have heq : m.onHello name sender advertised =
      { m with
        peers := m.peers.insert name learnt
        queue := m.queue ++ m.letters name ((if sender ∈ m.peerSet name then [] else [sender]) ++
          fresh) (.hello (ascending learnt)) } := by
    have hpeers : ∀ queue, ({ m with
        peers := m.peers.insert name learnt
        queue := queue } : Mesh).peersOf name = ascending learnt := by
      intro queue
      rw [peersOf, peerSet, Finmap.lookup_insert, Option.getD_some]
    unfold onHello
    rw [if_neg (not_not.2 h)]
    simp only [hlearn, enqueueHellos_eq]
    by_cases hknown : sender ∈ m.peerSet name
    · simp only [if_pos hknown, List.nil_append]
      rw [hpeers m.queue]
      rfl
    · simp only [if_neg hknown]
      rw [enqueueHello, hpeers m.queue, enqueue_eq]
      simp only [hpeers, letters, List.append_assoc, ← List.map_append, ← List.filter_append]
  have hself : (m.onHello name sender advertised).peerSet name = learnt := by
    rw [heq, peerSet, Finmap.lookup_insert, Option.getD_some]
  refine ⟨hsame, by rw [heq], fun x => ?_, fun s hs => ?_, _, by rw [heq], fun q => ?_⟩
  · rw [hself, hlearnt, Finset.mem_insert]
    tauto
  · rw [heq, peerSet, Finmap.lookup_insert_of_ne _ hs]
    rfl
  · rw [mem_letters, peersOf, hself]
    refine exists_congr fun x => ?_
    have hnew : x ∈ (if sender ∈ m.peerSet name then [] else [sender]) ++ fresh ↔
        x ∈ learnt ∧ x ∉ m.peerSet name := by
      rw [List.mem_append, hfresh, hlearnt, Finset.mem_insert]
      by_cases hx : x = sender
      · subst hx
        by_cases hknown : x ∈ m.peerSet name <;> simp [hknown]
      · have hnot : x ∉ (if sender ∈ m.peerSet name then [] else [sender]) := by
          split
          · exact List.not_mem_nil
          · exact fun hin => hx (List.mem_singleton.1 hin)
        have hnil : x ∉ ([] : List String) := List.not_mem_nil
        tauto
    rw [hnew]
    tauto

/-! ## Deliveries -/

theorem relay_eq (m : Mesh) (name sender : String) (envelope : Envelope) :
    m.relay name sender envelope =
      { m with queue := m.queue ++
          m.letters name ((m.peersOf name).filter fun next => next != sender) envelope } :=
  m.enqueueAll_eq name _ envelope

section Deliveries

variable [Crypto] {env : Env}

/-- A block delivered: seen before, or marked and, unless it is refused, relayed.  A
delivery of a block does nothing else. -/
inductive BlockDelivered (env : Env) (m : Mesh) (name sender : String) (record : BlockRecord) :
    Mesh → Prop
  | seen : record.id ∈ m.blocksSeen name → BlockDelivered env m name sender record m
  | unregistered : record.id ∉ m.blocksSeen name → m.nodes.lookup name = none →
      BlockDelivered env m name sender record
        ((m.markBlock name record.id).relay name sender (.block record))
  | accepted {node node' : Node} {id : BlockId} : record.id ∉ m.blocksSeen name →
      m.nodes.lookup name = some node → node.receiveBlock env record = .ok (id, node') →
      BlockDelivered env m name sender record
        ({ m.markBlock name record.id with nodes := m.nodes.insert name node' }.relay name sender
          (.block record))
  | refused {node : Node} {e : NodeError} : record.id ∉ m.blocksSeen name →
      m.nodes.lookup name = some node → node.receiveBlock env record = .error (.error e) →
      BlockDelivered env m name sender record (m.markBlock name record.id)

theorem onBlock_delivered {record : BlockRecord} (h : m.onBlock env name sender record = .ok m') :
    BlockDelivered env m name sender record m' := by
  unfold onBlock at h
  by_cases hseen : record.id ∈ m.blocksSeen name
  · rw [if_pos hseen] at h
    rw [← Except.ok.inj h]
    exact .seen hseen
  rw [if_neg hseen] at h
  obtain ⟨r, hdeliver, h⟩ := Outcome.bind_eq_ok.1 h
  rcases deliverTo_eq_ok hdeliver with ⟨hnone, rfl⟩ | ⟨node, id, node', hnode, hstep, rfl⟩ |
    ⟨node, e, hnode, hstep, rfl⟩
  · rw [← Except.ok.inj h]
    exact .unregistered hseen hnone
  · rw [← Except.ok.inj h]
    exact .accepted hseen hnode hstep
  · rw [← Except.ok.inj h]
    exact .refused hseen hnode hstep

/-- A transaction delivered: seen before, or marked and, unless it is refused,
relayed. -/
inductive TxDelivered (m : Mesh) (name sender : String) (tx : Transaction) : Mesh → Prop
  | seen : tx.id ∈ m.txsSeen name → TxDelivered m name sender tx m
  | unregistered : tx.id ∉ m.txsSeen name → m.nodes.lookup name = none →
      TxDelivered m name sender tx ((m.markTx name tx.id).relay name sender (.tx tx))
  | accepted {node node' : Node} {id : TxId} : tx.id ∉ m.txsSeen name →
      m.nodes.lookup name = some node → node.submitTx tx = .ok (id, node') →
      TxDelivered m name sender tx
        ({ m.markTx name tx.id with nodes := m.nodes.insert name node' }.relay name sender (.tx tx))
  | refused {node : Node} {e : NodeError} : tx.id ∉ m.txsSeen name →
      m.nodes.lookup name = some node → node.submitTx tx = .error (.error e) →
      TxDelivered m name sender tx (m.markTx name tx.id)

theorem onTx_delivered {tx : Transaction} (h : m.onTx name sender tx = .ok m') :
    TxDelivered m name sender tx m' := by
  unfold onTx at h
  by_cases hseen : tx.id ∈ m.txsSeen name
  · rw [if_pos hseen] at h
    rw [← Except.ok.inj h]
    exact .seen hseen
  rw [if_neg hseen] at h
  obtain ⟨r, hdeliver, h⟩ := Outcome.bind_eq_ok.1 h
  rcases deliverTo_eq_ok hdeliver with ⟨hnone, rfl⟩ | ⟨node, id, node', hnode, hstep, rfl⟩ |
    ⟨node, e, hnode, hstep, rfl⟩
  · rw [← Except.ok.inj h]
    exact .unregistered hseen hnone
  · rw [← Except.ok.inj h]
    exact .accepted hseen hnode hstep
  · rw [← Except.ok.inj h]
    exact .refused hseen hnode hstep

theorem BlockDelivered.hasSeen {record : BlockRecord}
    (h : BlockDelivered env m name sender record m') (other : String) :
    m'.HasSeen other key ↔ m.HasSeen other key ∨ other = name ∧ key = .block record.id := by
  cases h with
  | seen hseen =>
      constructor
      · exact .inl
      · rintro (hold | ⟨rfl, rfl⟩)
        · exact hold
        · exact hseen
  | unregistered =>
      rw [relay_eq, ← hasSeen_markBlock m other]
      exact hasSeen_congr rfl rfl
  | accepted =>
      rw [relay_eq, ← hasSeen_markBlock m other]
      exact hasSeen_congr rfl rfl
  | refused => exact hasSeen_markBlock m other

theorem TxDelivered.hasSeen {tx : Transaction} (h : TxDelivered m name sender tx m')
    (other : String) :
    m'.HasSeen other key ↔ m.HasSeen other key ∨ other = name ∧ key = .tx tx.id := by
  cases h with
  | seen hseen =>
      constructor
      · exact .inl
      · rintro (hold | ⟨rfl, rfl⟩)
        · exact hold
        · exact hseen
  | unregistered =>
      rw [relay_eq, ← hasSeen_markTx m other]
      exact hasSeen_congr rfl rfl
  | accepted =>
      rw [relay_eq, ← hasSeen_markTx m other]
      exact hasSeen_congr rfl rfl
  | refused => exact hasSeen_markTx m other

/-- The mesh with the delivery of the envelope noted. -/
def noted (m : Mesh) (q : Queued) : Mesh :=
  { m with events := m.events ++ [⟨m.now, q.sender, q.recipient, q.envelope.kind⟩] }

theorem deliver_block {q : Queued} {record : BlockRecord} (hq : q.envelope = .block record)
    (h : m.deliver env q = .ok m') :
    BlockDelivered env (m.noted q) q.recipient q.sender record m' := by
  unfold deliver at h
  simp only [hq] at h
  have hcall : (m.noted q).onBlock env q.recipient q.sender record = .ok m' := by
    rw [noted, hq]
    exact h
  exact onBlock_delivered hcall

theorem deliver_tx {q : Queued} {t : Transaction} (hq : q.envelope = .tx t)
    (h : m.deliver env q = .ok m') : TxDelivered (m.noted q) q.recipient q.sender t m' := by
  unfold deliver at h
  simp only [hq] at h
  have hcall : (m.noted q).onTx q.recipient q.sender t = .ok m' := by
    rw [noted, hq]
    exact h
  exact onTx_delivered hcall

theorem deliver_hello {q : Queued} {advertised : List String}
    (hq : q.envelope = .hello advertised) (h : m.deliver env q = .ok m') : m.SameNodes m' := by
  unfold deliver at h
  simp only [hq] at h
  have hsame := sameNodes_onHello (m.noted q) q.recipient q.sender advertised
  have hresult : m' = (m.noted q).onHello q.recipient q.sender advertised := by
    rw [noted, hq]
    exact (Except.ok.inj h).symm
  rw [hresult]
  exact ⟨hsame.nodes, hsame.seenBlocks, hsame.seenTxs⟩

/-- A delivery returns, where the node that sees a block for the first time takes it
or refuses it. -/
theorem exists_deliver {q : Queued} (h : ∀ node record, m.nodes.lookup q.recipient = some node →
    q.envelope = .block record → record.id ∉ m.blocksSeen q.recipient →
    (∃ r, node.receiveBlock env record = .ok r) ∨
      ∃ e, node.receiveBlock env record = .error (.error e)) :
    ∃ m', m.deliver env q = .ok m' := by
  unfold deliver
  cases hq : q.envelope with
  | hello advertised => exact ⟨_, rfl⟩
  | block record =>
      simp only [onBlock]
      split
      · exact ⟨_, rfl⟩
      rename_i hnew
      simp only [deliverTo, markBlock]
      cases hnode : m.nodes.lookup q.recipient with
      | none => exact ⟨_, rfl⟩
      | some node =>
          rcases h node record hnode hq hnew with ⟨r, hr⟩ | ⟨e, he⟩
          · simp only [hr]
            exact ⟨_, rfl⟩
          · simp only [he]
            exact ⟨_, rfl⟩
  | tx t =>
      simp only [onTx]
      split
      · exact ⟨_, rfl⟩
      simp only [deliverTo, markTx]
      cases hnode : m.nodes.lookup q.recipient with
      | none => exact ⟨_, rfl⟩
      | some node =>
          unfold Node.submitTx
          cases t.isCoinbase <;> exact ⟨_, rfl⟩

/-- A delivery shows the recipient the key of the envelope, and nobody anything
else. -/
theorem hasSeen_deliver {q : Queued} (h : m.deliver env q = .ok m') :
    m'.HasSeen name key ↔
      m.HasSeen name key ∨ name = q.recipient ∧ q.envelope.key = some key := by
  have hnoted : (m.noted q).HasSeen name key ↔ m.HasSeen name key := hasSeen_congr rfl rfl
  cases hq : q.envelope with
  | hello advertised =>
      rw [(deliver_hello hq h).hasSeen]
      simp [Envelope.key]
  | block record =>
      rw [(deliver_block hq h).hasSeen, hnoted]
      simp [Envelope.key, eq_comm]
  | tx t =>
      rw [(deliver_tx hq h).hasSeen, hnoted]
      simp [Envelope.key, eq_comm]

end Deliveries

/-! ## Calls on a node -/

section Calls

variable [Crypto] {env : Env}

/-- The mesh with the node of that name replaced. -/
def withNode (m : Mesh) (name : String) (node : Node) : Mesh :=
  { m with nodes := m.nodes.insert name node }

theorem produce_eq_ok {produced : Option BlockId} (h : m.produce env name = .ok (produced, m')) :
    ∃ node node', m.nodes.lookup name = some node ∧
      node.produceBlock env = .ok (produced, node') ∧
      m' = match produced with
        | none => m.withNode name node'
        | some id => (m.withNode name node').announceStored name id := by
  obtain ⟨⟨a, m₁⟩, hstep, hret⟩ := Outcome.bind_eq_ok.1 h
  obtain ⟨node, node', hnode, hcall, rfl⟩ := onNode_eq_ok.1 hstep
  cases a with
  | none =>
      obtain ⟨rfl, rfl⟩ := Prod.mk.inj (Except.ok.inj hret)
      exact ⟨node, node', hnode, hcall, rfl⟩
  | some id =>
      obtain ⟨rfl, rfl⟩ := Prod.mk.inj (Except.ok.inj hret)
      exact ⟨node, node', hnode, hcall, rfl⟩

theorem produceEmpty_eq_ok {id : BlockId} (h : m.produceEmpty env name = .ok (id, m')) :
    ∃ node node', m.nodes.lookup name = some node ∧ node.produceEmpty env = .ok (id, node') ∧
      m' = (m.withNode name node').announceStored name id := by
  obtain ⟨⟨a, m₁⟩, hstep, hret⟩ := Outcome.bind_eq_ok.1 h
  obtain ⟨node, node', hnode, hcall, rfl⟩ := onNode_eq_ok.1 hstep
  obtain ⟨rfl, rfl⟩ := Prod.mk.inj (Except.ok.inj hret)
  exact ⟨node, node', hnode, hcall, rfl⟩

theorem sendTo_eq_ok {fromSeed amount : U64} {target : Address} {id : BlockId}
    (h : m.sendTo env name fromSeed amount target = .ok (id, m')) :
    ∃ node node' tx, m.nodes.lookup name = some node ∧
      node.sendTo env fromSeed amount target = .ok (⟨id, tx⟩, node') ∧
      m' = (m.withNode name node').announceStored name id := by
  obtain ⟨⟨a, m₁⟩, hstep, hret⟩ := Outcome.bind_eq_ok.1 h
  obtain ⟨node, node', hnode, hcall, rfl⟩ := onNode_eq_ok.1 hstep
  obtain ⟨rfl, rfl⟩ := Prod.mk.inj (Except.ok.inj hret)
  exact ⟨node, node', a.tx, hnode, hcall, rfl⟩

/-- A send to a seed is a send to its address. -/
theorem send_eq (m : Mesh) (env : Env) (name : String) (fromSeed amount toSeed : U64) :
    m.send env name fromSeed amount toSeed =
      m.sendTo env name fromSeed amount (Node.address toSeed) := rfl

theorem pool_eq_ok {fromSeed amount toSeed : U64} {id : TxId}
    (h : m.pool env name fromSeed amount toSeed = .ok (id, m')) :
    ∃ node node', m.nodes.lookup name = some node ∧
      node.pool env fromSeed amount toSeed = .ok (id, node') ∧
      m' = (m.withNode name node').announcePending name id := by
  obtain ⟨⟨a, m₁⟩, hstep, hret⟩ := Outcome.bind_eq_ok.1 h
  obtain ⟨node, node', hnode, hcall, rfl⟩ := onNode_eq_ok.1 hstep
  obtain ⟨rfl, rfl⟩ := Prod.mk.inj (Except.ok.inj hret)
  exact ⟨node, node', hnode, hcall, rfl⟩

theorem submitSigned_eq_ok {sender target : Address} {amount : U64} {signature : Bytes 64}
    {id : TxId} (h : m.submitSigned env name sender amount target signature = .ok (id, m')) :
    ∃ node node', m.nodes.lookup name = some node ∧
      node.submitSigned env sender amount target signature = .ok (id, node') ∧
      m' = (m.withNode name node').announcePending name id := by
  obtain ⟨⟨a, m₁⟩, hstep, hret⟩ := Outcome.bind_eq_ok.1 h
  obtain ⟨node, node', hnode, hcall, rfl⟩ := onNode_eq_ok.1 hstep
  obtain ⟨rfl, rfl⟩ := Prod.mk.inj (Except.ok.inj hret)
  exact ⟨node, node', hnode, hcall, rfl⟩

/-- The record of a block that a node stores. -/
def storedRecord (m : Mesh) (name : String) (id : BlockId) : Option BlockRecord :=
  (m.nodes.lookup name).bind fun node => node.blockRecord id

/-- The transaction that is pending at a node. -/
def pendingTx (m : Mesh) (name : String) (id : TxId) : Option Transaction :=
  (m.nodes.lookup name).bind fun node => node.mempool.get id

theorem announceStored_none {id : BlockId} (h : m.storedRecord name id = none) :
    m.announceStored name id = m := by
  unfold storedRecord at h
  rw [announceStored, h]

theorem announceStored_some {id : BlockId} {record : BlockRecord}
    (h : m.storedRecord name id = some record) :
    m.announceStored name id =
      { m.markBlock name record.id with
        queue := m.queue ++ m.letters name (m.peersOf name) (.block record) } := by
  unfold storedRecord at h
  rw [announceStored, h]
  exact (m.markBlock name record.id).enqueueAll_eq name (m.peersOf name) (.block record)

theorem announcePending_none {id : TxId} (h : m.pendingTx name id = none) :
    m.announcePending name id = m := by
  unfold pendingTx at h
  rw [announcePending, h]

theorem announcePending_some {id : TxId} {t : Transaction}
    (h : m.pendingTx name id = some t) :
    m.announcePending name id =
      { m.markTx name t.id with
        queue := m.queue ++ m.letters name (m.peersOf name) (.tx t) } := by
  unfold pendingTx at h
  rw [announcePending, h]
  exact (m.markTx name t.id).enqueueAll_eq name (m.peersOf name) (.tx t)

end Calls

end Mesh

end Kovanica
