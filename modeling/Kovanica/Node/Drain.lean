import Kovanica.Node.Trace
import Kovanica.State.Enforcement

/-!
# Floods end

Ticks of a mesh with no other call in between.  A letter makes its recipient send
letters only where the recipient sees a block or a transaction for the first time
or comes to know a new peer, and only so much can be seen and known.  So the queue
runs empty, whatever was queued and however the peers are connected.

## Main results

* `card_unseen_deliver`: a key that goes by for the first time is one less to see.
* `Contained.tick`, `Contained.exists_ticks`: a tick returns and leaves fewer ticks to go, until
  the queue is empty.
* `Track.relays_once`: no node relays what it had seen before, nor anything twice.
-/

namespace Kovanica

open Lib

namespace Node

variable [Crypto] {env : Env}

/-- A node with an unbounded ledger that has room takes a block or refuses it. -/
theorem receiveBlock_returns {n : Node} {record : BlockRecord}
    (h : ∀ l, n.ledger = some l → l.Unbounded ∧ l.dag.len + 1 < mapCapacity) :
    (∃ r, n.receiveBlock env record = .ok r) ∨
      ∃ e, n.receiveBlock env record = .error (.error e) := by
  unfold receiveBlock
  simp only
  split
  · exact .inr ⟨_, rfl⟩
  cases hledger : n.ledger with
  | none => exact .inr ⟨_, rfl⟩
  | some l =>
      obtain ⟨hl, hroom⟩ := h l hledger
      rcases hl.accepted_or_refused hroom (offerOf env record) with
        ⟨id, l', haccepted⟩ | ⟨e, hrefused⟩
      · -- what is evicted is decided by the state of the grown ledger
        have hinsert : n.insertBlock env l record = .ok (id, { n with ledger := some l' }) :=
          insertBlock_eq_ok.2 ⟨l', haccepted, rfl⟩
        have hutxo := (hl.step (.accepted haccepted)).ledgerState env.ord
        left
        obtain ⟨n', hevict⟩ := exists_evictMempool (n := { n with ledger := some l' }) rfl hutxo
        simp only [hinsert, hevict]
        exact ⟨_, rfl⟩
      · have hinsert : n.insertBlock env l record = .error (.error (.insert e)) := by
          have hcall : l.insert env.ord record.parents record.work record.timestampMs record.nonce
              record.txs = l.offer (offerOf env record) := rfl
          rw [insertBlock, hcall, hrefused]
        simp only [hinsert]
        split
        · rename_i heq
          cases heq
        · exact .inl ⟨_, rfl⟩
        · rename_i e' _ heq
          cases heq
          exact .inr ⟨_, rfl⟩

end Node

namespace Mesh

variable [Crypto] {m m' : Mesh} {q : Queued} {env : Env}

/-! ## What a delivery can do -/

/-- What comes of a delivery.  Only the recipient's peers, node and sending change:
it comes to know the sender and what a hello advertises; its ledger takes a block
that it sees for the first time; and it sends on a block or a transaction that it
sees for the first time, and hellos to peers it did not know. -/
structure Effect (m : Mesh) (q : Queued) (m' : Mesh) : Prop where
  now : m'.now = m.now
  peers_mono : ∀ s, m.peerSet s ⊆ m'.peerSet s
  peers_new : ∀ s, ∀ x ∈ m'.peerSet s, x ∈ m.peerSet s ∨ x = q.sender ∨
    ∃ advertised, q.envelope = .hello advertised ∧ x ∈ advertised
  queue : ∃ letters, m'.queue = m.queue ++ letters ∧ ∀ r ∈ letters,
    r.sender = q.recipient ∧ r.recipient ∈ m'.peerSet q.recipient ∧
      ((∃ key, q.envelope.key = some key ∧ ¬ m.HasSeen q.recipient key ∧
          r.envelope = q.envelope) ∨
        r.envelope = .hello (m'.peersOf q.recipient) ∧ r.recipient ∉ m.peerSet q.recipient)
  nodes : ∀ name node', m'.nodes.lookup name = some node' →
    ∃ node, m.nodes.lookup name = some node ∧ (node'.ledger = node.ledger ∨
      name = q.recipient ∧ (∃ key, q.envelope.key = some key ∧ ¬ m.HasSeen name key) ∧
        ∃ id, Node.Produced node node' id)

/-- What a block or a transaction brings about, once it is marked and the recipient's
node may have changed, whether or not it is then sent on. -/
private theorem effect_of_marked {key : GossipKey} (marked : Mesh)
    (hkey : q.envelope.key = some key) (hnew : ¬ (m.noted q).HasSeen q.recipient key)
    (hnow : marked.now = m.now) (hpeers : marked.peers = m.peers) (hqueue : marked.queue = m.queue)
    (hnodes : marked.nodes = m.nodes ∨ ∃ node node', m.nodes.lookup q.recipient = some node ∧
      marked.nodes = m.nodes.insert q.recipient node' ∧
      (node'.ledger = node.ledger ∨ ∃ id, Node.Produced node node' id)) :
    Effect m q marked ∧ Effect m q (marked.relay q.recipient q.sender q.envelope) := by
  have hnew : ¬ m.HasSeen q.recipient key := fun hseen => hnew ((hasSeen_congr rfl rfl).2 hseen)
  have hsame : ∀ s, marked.peerSet s = m.peerSet s := fun s => by rw [peerSet, hpeers]; rfl
  have hledgers : ∀ name node', marked.nodes.lookup name = some node' →
      ∃ node, m.nodes.lookup name = some node ∧ (node'.ledger = node.ledger ∨
        name = q.recipient ∧ (∃ key, q.envelope.key = some key ∧ ¬ m.HasSeen name key) ∧
          ∃ id, Node.Produced node node' id) := by
    intro name node' hnode'
    rcases hnodes with heq | ⟨node, n, hnode, heq, hcases⟩
    · rw [heq] at hnode'
      exact ⟨node', hnode', .inl rfl⟩
    · rw [heq, lookup_insert_eq] at hnode'
      split at hnode'
      · rename_i hname
        subst hname
        obtain rfl := Option.some.inj hnode'
        exact ⟨node, hnode, hcases.imp_right fun hstep => ⟨rfl, ⟨key, hkey, hnew⟩, hstep⟩⟩
      · exact ⟨node', hnode', .inl rfl⟩
  constructor
  · refine ⟨hnow, fun s => (hsame s).ge, fun s x hx => .inl (hsame s ▸ hx), ⟨[], ?_, ?_⟩, hledgers⟩
    · rw [hqueue, List.append_nil]
    · exact fun r hr => absurd hr List.not_mem_nil
  · rw [relay_eq]
    refine ⟨hnow, fun s => (hsame s).ge, fun s x hx => .inl (hsame s ▸ hx),
      ⟨marked.letters q.recipient ((marked.peersOf q.recipient).filter fun next =>
        next != q.sender) q.envelope, ?_, fun r hr => ?_⟩, hledgers⟩
    · rw [← hqueue]
    · obtain ⟨x, hx, _, rfl⟩ := mem_letters.1 hr
      exact ⟨rfl, mem_ascending.1 (List.mem_of_mem_filter hx), .inl ⟨key, hkey, hnew, rfl⟩⟩

/-- Nothing but the log of deliveries has changed. -/
private theorem effect_of_noted (h : m' = m.noted q) : Effect m q m' := by
  have hsame : ∀ s, m'.peerSet s = m.peerSet s := fun s => by rw [h]; rfl
  refine ⟨by rw [h]; rfl, fun s => (hsame s).ge, fun s x hx => .inl (hsame s ▸ hx),
    ⟨[], by rw [h]; exact (List.append_nil _).symm, fun r hr => absurd hr List.not_mem_nil⟩, ?_⟩
  intro name node' hnode'
  rw [h] at hnode'
  exact ⟨node', hnode', .inl rfl⟩

theorem deliver_effect (h : m.deliver env q = .ok m') : Effect m q m' := by
  cases hq : q.envelope with
  | hello advertised =>
      have hm' : m' = (m.noted q).onHello q.recipient q.sender advertised := by
        unfold deliver at h
        simp only [hq] at h
        rw [noted, hq]
        exact (Except.ok.inj h).symm
      by_cases hname : q.recipient ∈ (m.noted q).nodes
      · have hheard := (m.noted q).onHello_heard q.recipient q.sender advertised hname
        rw [← hm'] at hheard
        obtain ⟨letters, hqueue, hletters⟩ := hheard.queue
        refine ⟨hheard.now, fun s x hx => ?_, fun s x hx => ?_, ⟨letters, hqueue, fun r hr => ?_⟩,
          fun name node' hnode' => ⟨node', ?_, .inl rfl⟩⟩
        · by_cases hs : s = q.recipient
          · rw [hs] at hx ⊢
            exact (hheard.mem_peerSet x).2 (.inl hx)
          · rw [hheard.peerSet_other s hs]
            exact hx
        · by_cases hs : s = q.recipient
          · rw [hs] at hx ⊢
            rcases (hheard.mem_peerSet x).1 hx with hold | hsender | ⟨hin, _⟩
            · exact .inl hold
            · exact .inr (.inl hsender)
            · exact .inr (.inr ⟨advertised, hq, hin⟩)
          · rw [hheard.peerSet_other s hs] at hx
            exact .inl hx
        · obtain ⟨x, hx, hnew, _, rfl⟩ := (hletters r).1 hr
          exact ⟨rfl, hx, .inr ⟨rfl, hnew⟩⟩
        · rw [hheard.same.nodes] at hnode'
          exact hnode'
      · refine effect_of_noted ?_
        rw [hm', onHello, if_pos hname]
  | block record =>
      have hkey : q.envelope.key = some (.block record.id) := by rw [hq]; rfl
      generalize hmarked : (m.noted q).markBlock q.recipient record.id = marked
      have hfields : marked.now = m.now ∧ marked.peers = m.peers ∧ marked.queue = m.queue ∧
          marked.nodes = m.nodes := by
        rw [← hmarked]
        exact ⟨rfl, rfl, rfl, rfl⟩
      obtain ⟨hnow, hpeers, hqueue, hnodes⟩ := hfields
      cases deliver_block hq h with
      | seen _ => exact effect_of_noted rfl
      | unregistered hnew _ =>
          rw [← hq, hmarked]
          exact (effect_of_marked marked hkey hnew hnow hpeers hqueue (.inl hnodes)).2
      | @accepted node node' id hnew hnode hcall =>
          rw [← hq, hmarked]
          refine (effect_of_marked { marked with nodes := m.nodes.insert q.recipient node' } hkey
            hnew hnow hpeers hqueue (.inr ⟨node, node', hnode, rfl, ?_⟩)).2
          rcases Node.receiveBlock_cases hcall with heq | hstep
          · exact .inl (heq ▸ rfl)
          · exact .inr ⟨id, hstep⟩
      | refused hnew _ _ =>
          rw [hmarked]
          exact (effect_of_marked marked hkey hnew hnow hpeers hqueue (.inl hnodes)).1
  | tx t =>
      have hkey : q.envelope.key = some (.tx t.id) := by rw [hq]; rfl
      generalize hmarked : (m.noted q).markTx q.recipient t.id = marked
      have hfields : marked.now = m.now ∧ marked.peers = m.peers ∧ marked.queue = m.queue ∧
          marked.nodes = m.nodes := by
        rw [← hmarked]
        exact ⟨rfl, rfl, rfl, rfl⟩
      obtain ⟨hnow, hpeers, hqueue, hnodes⟩ := hfields
      cases deliver_tx hq h with
      | seen _ => exact effect_of_noted rfl
      | unregistered hnew _ =>
          rw [← hq, hmarked]
          exact (effect_of_marked marked hkey hnew hnow hpeers hqueue (.inl hnodes)).2
      | @accepted node node' id hnew hnode hcall =>
          rw [← hq, hmarked]
          exact (effect_of_marked { marked with nodes := m.nodes.insert q.recipient node' } hkey
            hnew hnow hpeers hqueue
            (.inr ⟨node, node', hnode, rfl, .inl (Node.submitTx_kept hcall).1⟩)).2
      | refused hnew _ _ =>
          rw [hmarked]
          exact (effect_of_marked marked hkey hnew hnow hpeers hqueue (.inl hnodes)).1

/-! ## What is left to see and to know -/

omit [Crypto] in
/-- The keys that have not gone by at a node. -/
def unseen (m : Mesh) (keys : Finset GossipKey) (name : String) : Finset GossipKey :=
  keys.filter fun key => ¬ m.HasSeen name key

omit [Crypto] in
/-- The names that a node does not have among its peers. -/
def strangers (m : Mesh) (names : Finset String) (name : String) : Finset String :=
  names \ m.peerSet name

omit [Crypto] in
/-- What all nodes together have left to see and to know.  A delivery that sends letters lowers
it, and no delivery raises it. -/
def potential (m : Mesh) (names : Finset String) (keys : Finset GossipKey) : Nat :=
  ∑ name ∈ names, ((m.unseen keys name).card + (m.strangers names name).card)

variable {names : Finset String} {keys : Finset GossipKey}

theorem unseen_deliver (h : m.deliver env q = .ok m') (name : String) :
    m'.unseen keys name ⊆ m.unseen keys name := by
  intro key hkey
  rw [unseen, Finset.mem_filter, hasSeen_deliver h] at hkey
  exact Finset.mem_filter.2 ⟨hkey.1, fun hseen => hkey.2 (.inl hseen)⟩

/-- A key that goes by for the first time is one less to see. -/
theorem card_unseen_deliver (h : m.deliver env q = .ok m') {key : GossipKey} (hkeys : key ∈ keys)
    (hkey : q.envelope.key = some key) (hnew : ¬ m.HasSeen q.recipient key) :
    (m'.unseen keys q.recipient).card < (m.unseen keys q.recipient).card := by
  refine Finset.card_lt_card ⟨unseen_deliver h _, fun hsub => ?_⟩
  have hin := hsub (Finset.mem_filter.2 ⟨hkeys, hnew⟩)
  exact (Finset.mem_filter.1 hin).2 ((hasSeen_deliver h).2 (.inr ⟨rfl, hkey⟩))

/-- A letter between these names, about one of these keys or advertising only these
names. -/
structure Within (names : Finset String) (keys : Finset GossipKey) (q : Queued) : Prop where
  sender : q.sender ∈ names
  recipient : q.recipient ∈ names
  advertised : ∀ advertised, q.envelope = .hello advertised → ∀ x ∈ advertised, x ∈ names
  key : ∀ key, q.envelope.key = some key → key ∈ keys

/-- The invariant of ticks, while these letters are still to be delivered: nothing
but these names and keys is on its way, and the ledgers have room for what their
nodes have not seen. -/
structure Contained (names : Finset String) (keys : Finset GossipKey) (m : Mesh)
    (due : List Queued) : Prop where
  letters : ∀ q ∈ due ++ m.queue, Within names keys q
  peers : ∀ s, m.peerSet s ⊆ names
  ledgers : ∀ name node l, m.nodes.lookup name = some node → node.ledger = some l →
    l.Unbounded ∧ l.dag.len + (m.unseen keys name).card + 1 < mapCapacity

/-- One delivery: it returns, keeps the invariant, and sends letters only as it
lowers the potential. -/
theorem Contained.deliver {rest : List Queued} (h : Contained names keys m (q :: rest))
    (env : Env) : ∃ m', m.deliver env q = .ok m' ∧ Contained names keys m' rest ∧
      m'.now = m.now ∧ m'.potential names keys ≤ m.potential names keys ∧
      (m'.queue = m.queue ∨ m'.potential names keys < m.potential names keys) := by
  have hq := h.letters q (List.mem_append_left _ (List.mem_cons_self ..))
  have hunseen : (∃ key, q.envelope.key = some key ∧ ¬ m.HasSeen q.recipient key) →
      0 < (m.unseen keys q.recipient).card := by
    rintro ⟨key, hkey, hnew⟩
    exact Finset.card_pos.2 ⟨key, Finset.mem_filter.2 ⟨hq.key key hkey, hnew⟩⟩
  obtain ⟨m', hdeliver⟩ : ∃ m', m.deliver env q = .ok m' :=
    exists_deliver fun node record hnode hrecord hnew => Node.receiveBlock_returns fun l hl => by
      obtain ⟨hunbounded, hroom⟩ := h.ledgers _ node l hnode hl
      have hpos := hunseen ⟨.block record.id, by rw [hrecord]; rfl, hnew⟩
      exact ⟨hunbounded, by omega⟩
  have heffect := deliver_effect hdeliver
  obtain ⟨letters, hqueue, hletters⟩ := heffect.queue
  have hpeers : ∀ s, m'.peerSet s ⊆ names := by
    intro s x hx
    rcases heffect.peers_new s x hx with hold | rfl | ⟨advertised, henvelope, hin⟩
    · exact h.peers s hold
    · exact hq.sender
    · exact hq.advertised advertised henvelope x hin
  have hstrangers : ∀ s, m'.strangers names s ⊆ m.strangers names s :=
    fun s => Finset.sdiff_subset_sdiff subset_rfl (heffect.peers_mono s)
  have hle : ∀ s ∈ names, (m'.unseen keys s).card + (m'.strangers names s).card ≤
      (m.unseen keys s).card + (m.strangers names s).card := fun s _ =>
    Nat.add_le_add (Finset.card_le_card (unseen_deliver hdeliver s))
      (Finset.card_le_card (hstrangers s))
  refine ⟨m', hdeliver, ⟨fun r hr => ?_, hpeers, fun name node' l' hnode' hl' => ?_⟩, heffect.now,
    Finset.sum_le_sum hle, ?_⟩
  · rw [hqueue, ← List.append_assoc] at hr
    rcases List.mem_append.1 hr with hold | hnew
    · exact h.letters r (List.mem_cons_of_mem _ hold)
    · obtain ⟨hsender, hrecipient, hcases⟩ := hletters r hnew
      refine ⟨hsender ▸ hq.recipient, hpeers _ hrecipient, ?_, ?_⟩
      · rcases hcases with ⟨_, _, _, henvelope⟩ | ⟨henvelope, _⟩
        · rw [henvelope]
          exact hq.advertised
        · intro advertised hsays x hx
          rw [henvelope] at hsays
          rw [← Envelope.hello.inj hsays] at hx
          exact hpeers _ (mem_ascending.1 hx)
      · rcases hcases with ⟨_, _, _, henvelope⟩ | ⟨henvelope, _⟩
        · rw [henvelope]
          exact hq.key
        · intro key hkey
          rw [henvelope] at hkey
          cases hkey
  · have hsub : (m'.unseen keys name).card ≤ (m.unseen keys name).card :=
      Finset.card_le_card (unseen_deliver hdeliver name)
    obtain ⟨node, hnode, hsame | ⟨rfl, ⟨key, hkey, hnew⟩, id, hproduced⟩⟩ :=
      heffect.nodes name node' hnode'
    · rw [hsame] at hl'
      obtain ⟨hl, hroom⟩ := h.ledgers name node l' hnode hl'
      exact ⟨hl, by omega⟩
    · obtain ⟨_, l, l₁, o, hledger, hoffer, hledger'⟩ := hproduced
      obtain rfl := Option.some.inj (hledger'.symm.trans hl')
      obtain ⟨hl, hroom⟩ := h.ledgers _ node l hnode hledger
      have hlen := Ledger.len_offer hoffer
      have hless := card_unseen_deliver hdeliver (hq.key key hkey) hkey hnew
      exact ⟨hl.step (.accepted hoffer), by omega⟩
  · cases letters with
    | nil => exact .inl (hqueue.trans (List.append_nil _))
    | cons r letters =>
        right
        refine Finset.sum_lt_sum hle ⟨q.recipient, hq.recipient, ?_⟩
        obtain ⟨_, hrecipient, hcases⟩ := hletters r (List.mem_cons_self ..)
        rcases hcases with ⟨key, hkey, hnew, _⟩ | ⟨_, hnew⟩
        · exact Nat.add_lt_add_of_lt_of_le
            (card_unseen_deliver hdeliver (hq.key key hkey) hkey hnew)
            (Finset.card_le_card (hstrangers _))
        · refine Nat.add_lt_add_of_le_of_lt (Finset.card_le_card (unseen_deliver hdeliver _))
            (Finset.card_lt_card ⟨hstrangers _, fun hsub => ?_⟩)
          have hin := hsub (Finset.mem_sdiff.2 ⟨hpeers _ hrecipient, hnew⟩)
          exact (Finset.mem_sdiff.1 hin).2 hrecipient

/-- All deliveries of a tick. -/
theorem Contained.deliverAll {due : List Queued} (h : Contained names keys m due)
    (envs : Nat → Env) (i : Nat) : ∃ m', deliverAll envs i due m = .ok m' ∧
      Contained names keys m' [] ∧ m'.now = m.now ∧
      m'.potential names keys ≤ m.potential names keys ∧
      (m'.queue = m.queue ∨ m'.potential names keys < m.potential names keys) := by
  induction due generalizing i m with
  | nil => exact ⟨m, rfl, h, rfl, le_rfl, .inl rfl⟩
  | cons q rest ih =>
      obtain ⟨m₁, hdeliver, h₁, hnow₁, hle₁, hcases₁⟩ := h.deliver (envs i)
      obtain ⟨m', hall, h', hnow', hle', hcases'⟩ := ih h₁ (i + 1)
      refine ⟨m', ?_, h', hnow'.trans hnow₁, hle'.trans hle₁, ?_⟩
      · rw [Mesh.deliverAll, hdeliver]
        exact hall
      · rcases hcases₁ with hqueue₁ | hlt₁
        · rcases hcases' with hqueue' | hlt'
          · exact .inl (hqueue'.trans hqueue₁)
          · exact .inr (hlt'.trans_le hle₁)
        · exact .inr (hle'.trans_lt hlt₁)

/-- How many more ticks there can be: one for each thing left to see or to know, and
those until everything is due. -/
def ticksLeft (m : Mesh) (names : Finset String) (keys : Finset GossipKey) : Nat :=
  m.potential names keys + (2 ^ 64 - 1 - m.now.val)

/-- One tick: it returns and keeps the invariant, and either the queue is empty or
fewer ticks are left. -/
theorem Contained.tick (h : Contained names keys m []) (envs : Nat → Env) :
    ∃ n m', m.tick envs = .ok (n, m') ∧ Contained names keys m' [] ∧
      (m'.queue = [] ∨ m'.ticksLeft names keys < m.ticksLeft names keys) := by
  have hadvanced : Contained names keys m.advance m.dueNow := by
    refine ⟨fun q hq => h.letters q ?_, h.peers, h.ledgers⟩
    exact (List.mem_append.1 hq).elim List.mem_of_mem_filter List.mem_of_mem_filter
  obtain ⟨m', hall, h', hnow, hle, hcases⟩ := hadvanced.deliverAll envs 0
  refine ⟨_, m', Outcome.bind_eq_ok.2 ⟨m', hall, rfl⟩, h', ?_⟩
  have hsame : m.advance.potential names keys = m.potential names keys := rfl
  have hone : (1 : U64).val = 1 := rfl
  have hclock : (Word.saturatingAdd m.now 1).val = min (m.now.val + 1) (2 ^ 64 - 1) := by
    rw [Word.saturatingAdd_val, hone]
  have hnow : m'.now.val = min (m.now.val + 1) (2 ^ 64 - 1) := by
    rw [hnow, ← hclock]
    rfl
  rw [hsame] at hle hcases
  unfold ticksLeft
  by_cases hlast : m.now.val < 2 ^ 64 - 1
  · exact .inr (by omega)
  · rcases hcases with hqueue | hlt
    · -- at the end of time everything is due
      left
      rw [hqueue, Mesh.advance, List.filter_eq_nil_iff]
      intro q _
      have hdue : q.due ≤ Word.saturatingAdd m.now 1 := by
        rw [Fin.le_def, hclock]
        have hlt := q.due.isLt
        omega
      simp [hdue]
    · exact .inr (by omega)

/-- `n` ticks in a row, the first of them in the surroundings `envs 0`. -/
def ticks : (envs : Nat → Nat → Env) → Nat → Mesh → Outcome Empty Mesh
  | _, 0, m => .ok m
  | envs, n + 1, m => do
      let (_, m) ← m.tick (envs 0)
      ticks (fun i => envs (i + 1)) n m

/-- After finitely many ticks the queue is empty. -/
theorem Contained.exists_ticks (h : Contained names keys m []) (envs : Nat → Nat → Env) :
    ∃ n m', m.ticks envs n = .ok m' ∧ m'.queue = [] := by
  induction hleft : m.ticksLeft names keys using Nat.strong_induction_on generalizing m envs with
  | _ left ih =>
      obtain ⟨count, m₁, htick, h₁, hcases⟩ := h.tick (envs 0)
      rcases hcases with hempty | hlt
      · exact ⟨1, m₁, Outcome.bind_eq_ok.2 ⟨_, htick, rfl⟩, hempty⟩
      · obtain ⟨n, m', hticks, hempty⟩ := ih _ (hleft ▸ hlt) h₁ (fun i => envs (i + 1)) rfl
        exact ⟨n + 1, m', Outcome.bind_eq_ok.2 ⟨_, htick, hticks⟩, hempty⟩

/-! ## What is relayed -/

/-- The deliveries of `n` ticks in a row. -/
def deliveriesIn : (envs : Nat → Nat → Env) → Nat → Mesh → List Delivery
  | _, 0, _ => []
  | envs, n + 1, m => m.deliveries (envs 0) ++
      match m.tick (envs 0) with
      | .error _ => []
      | .ok (_, m) => deliveriesIn (fun i => envs (i + 1)) n m

/-- Deliveries one after the other, from a mesh on; in between nothing that has been
seen is forgotten. -/
inductive Track : Mesh → List Delivery → Prop
  | stop (m : Mesh) : Track m []
  | deliver {m m' : Mesh} {env : Env} {q : Queued} {rest : List Delivery} :
      m.deliver env q = .ok m' → Track m' rest → Track m (⟨env, m, q, m'⟩ :: rest)
  | skip {m m' : Mesh} {rest : List Delivery} :
      (∀ name key, m.HasSeen name key → m'.HasSeen name key) → Track m' rest → Track m rest

/-- The deliveries of a queue, and those that follow it. -/
theorem track_deliveriesOf {following : Mesh → List Delivery}
    (h : ∀ m, Track m (following m)) (envs : Nat → Env) (i : Nat) (due : List Queued) (m : Mesh) :
    Track m (deliveriesOf envs i due m ++
      match deliverAll envs i due m with
      | .error _ => []
      | .ok m' => following m') := by
  induction due generalizing i m with
  | nil => exact h m
  | cons q rest ih =>
      rw [deliveriesOf, deliverAll]
      cases hdeliver : m.deliver (envs i) q with
      | error e => exact .stop m
      | ok m₁ => exact .deliver hdeliver (ih (i + 1) m₁)

theorem track_deliveriesIn (envs : Nat → Nat → Env) (n : Nat) (m : Mesh) :
    Track m (m.deliveriesIn envs n) := by
  induction n generalizing envs m with
  | zero => exact .stop m
  | succ n ih =>
      have htrack := track_deliveriesOf (fun m' => ih (fun i => envs (i + 1)) m') (envs 0) 0
        m.dueNow m.advance
      rw [deliveriesIn, tick]
      have hseen : ∀ name key, m.HasSeen name key → m.advance.HasSeen name key :=
        fun _ _ => (hasSeen_congr rfl rfl).2
      refine .skip hseen ?_
      cases hall : Mesh.deliverAll (envs 0) 0 m.dueNow m.advance with
      | error e =>
          rw [hall] at htrack
          exact htrack
      | ok m' =>
          rw [hall] at htrack
          exact htrack

end Mesh

namespace Delivery

variable [Crypto]

/-- In this delivery the node sends on a block or a transaction: among the
letters it has queued there is one of that key. -/
def Relays (delivery : Delivery) (name : String) (key : GossipKey) : Prop :=
  ∃ r ∈ delivery.after.queue.drop delivery.before.queue.length,
    r.sender = name ∧ r.envelope.key = some key

/-- What is relayed goes by at the node for the first time. -/
theorem Relays.first {delivery : Delivery} {name : String} {key : GossipKey}
    (h : delivery.Relays name key)
    (hdeliver : delivery.before.deliver delivery.env delivery.letter = .ok delivery.after) :
    ¬ delivery.before.HasSeen name key ∧ delivery.after.HasSeen name key := by
  obtain ⟨r, hr, hsender, hkey⟩ := h
  obtain ⟨letters, hqueue, hletters⟩ := (Mesh.deliver_effect hdeliver).queue
  rw [hqueue, List.drop_left] at hr
  obtain ⟨hfrom, _, hcases⟩ := hletters r hr
  rw [hsender] at hfrom
  rcases hcases with ⟨key', hkey', hnew, henvelope⟩ | ⟨henvelope, _⟩
  · rw [henvelope] at hkey
    obtain rfl := Option.some.inj (hkey.symm.trans hkey')
    rw [hfrom]
    exact ⟨hnew, (Mesh.hasSeen_deliver hdeliver).2 (.inr ⟨rfl, hkey⟩)⟩
  · rw [henvelope] at hkey
    cases hkey

end Delivery

namespace Mesh

variable [Crypto]

/-- Along a track no node relays what it had seen before, nor anything twice. -/
theorem Track.relays_once {m : Mesh} {deliveries : List Delivery} (h : Track m deliveries)
    (name : String) (key : GossipKey) :
    (m.HasSeen name key → ∀ δ ∈ deliveries, ¬ δ.Relays name key) ∧
      deliveries.Pairwise fun δ δ' => ¬ (δ.Relays name key ∧ δ'.Relays name key) := by
  induction h with
  | stop m => exact ⟨fun _ δ hδ => absurd hδ List.not_mem_nil, .nil⟩
  | @deliver m m' env q rest hdeliver _ ih =>
      obtain ⟨hnever, hpairs⟩ := ih
      refine ⟨fun hseen δ hδ => ?_, List.pairwise_cons.2 ⟨fun δ hδ => ?_, hpairs⟩⟩
      · rcases List.mem_cons.1 hδ with rfl | hδ
        · exact fun hrelays => (hrelays.first hdeliver).1 hseen
        · exact hnever ((hasSeen_deliver hdeliver).2 (.inl hseen)) δ hδ
      · rintro ⟨hrelays, hagain⟩
        exact hnever (hrelays.first hdeliver).2 δ hδ hagain
  | skip hseen _ ih => exact ⟨fun h => ih.1 (hseen name key h), ih.2⟩

/-! ## Every flood ends -/

/-- The nodes of a mesh as they come: a node's ledger has no finality, and a process
has room for far fewer than `mapCapacity` blocks and letters. -/
structure Grounded (m : Mesh) : Prop where
  unbounded : ∀ name node l, m.nodes.lookup name = some node → node.ledger = some l → l.Unbounded
  room : ∀ name node l, m.nodes.lookup name = some node → node.ledger = some l →
    l.dag.len + m.queue.length + 1 < mapCapacity

omit [Crypto] in
/-- The names that a letter says. -/
def namesOf (q : Queued) : List String :=
  q.sender :: q.recipient ::
    match q.envelope with
    | .hello advertised => advertised
    | .block _ => []
    | .tx _ => []

/-- Nothing but the names and the keys that are stored or queued in a mesh is on its
way there. -/
theorem Grounded.contained {m : Mesh} (h : m.Grounded) :
    ∃ names keys, Contained names keys m [] := by
  let names := (m.queue.flatMap namesOf).toFinset ∪ m.peers.keys.biUnion m.peerSet
  let keys := (m.queue.filterMap fun q => q.envelope.key).toFinset
  have hsaid : ∀ q ∈ m.queue, ∀ x ∈ namesOf q, x ∈ names := by
    intro q hq x hx
    exact Finset.mem_union_left _ (List.mem_toFinset.2 (List.mem_flatMap.2 ⟨q, hq, hx⟩))
  have hcount : ∀ name, (m.unseen keys name).card ≤ m.queue.length := by
    intro name
    calc (m.unseen keys name).card ≤ keys.card := Finset.card_filter_le _ _
      _ ≤ (m.queue.filterMap fun q => q.envelope.key).length := List.toFinset_card_le _
      _ ≤ m.queue.length := List.length_filterMap_le _ _
  refine ⟨names, keys, fun q hq => ⟨?_, ?_, ?_, ?_⟩, fun s x hx => ?_,
    fun name node l hnode hl => ⟨h.unbounded name node l hnode hl, ?_⟩⟩
  · exact hsaid q hq _ (List.mem_cons_self ..)
  · exact hsaid q hq _ (List.mem_cons_of_mem _ (List.mem_cons_self ..))
  · intro advertised henvelope x hx
    refine hsaid q hq x (List.mem_cons_of_mem _ (List.mem_cons_of_mem _ ?_))
    rw [henvelope]
    exact hx
  · intro key hkey
    exact List.mem_toFinset.2 (List.mem_filterMap.2 ⟨q, hq, hkey⟩)
  · refine Finset.mem_union_right _ (Finset.mem_biUnion.2 ⟨s, ?_, hx⟩)
    rw [Finmap.mem_keys]
    by_contra hnone
    rw [peerSet, Finmap.lookup_eq_none.2 hnone] at hx
    exact absurd hx (Finset.notMem_empty x)
  · have hroom := h.room name node l hnode hl
    have hle := hcount name
    omega

/-- Every flood ends: repeated ticks return and empty the queue, and along the way no
node relays the same block or the same transaction more than once. -/
theorem floods_end {m : Mesh} (h : m.Grounded) (envs : Nat → Nat → Env) :
    (∃ n m', m.ticks envs n = .ok m' ∧ m'.queue = []) ∧
      ∀ n name key, (m.deliveriesIn envs n).Pairwise fun δ δ' =>
        ¬ (δ.Relays name key ∧ δ'.Relays name key) := by
  obtain ⟨names, keys, hcontained⟩ := h.contained
  exact ⟨hcontained.exists_ticks envs,
    fun n name key => ((track_deliveriesIn envs n m).relays_once name key).2⟩

end Mesh

namespace Mesh

open scoped Reference

/-- A block on the genesis. -/
def childRecord : BlockRecord :=
  ⟨⟨[(Block.genesis 1 0 0 (Node.genesisTxs 1 1).payload).id], by decide⟩, 1, 1, 0, Reference.noTxs⟩

/-- A ring of three nodes at the genesis, the block announced by one of them. -/
def ring : Option Mesh := do
  let node ← atGenesis
  let m := ((new.add "alpha" node).add "beta" node).add "gamma" node
  let m ← (m.connect "alpha" "beta").toOption
  let m ← (m.connect "beta" "gamma").toOption
  let m ← (m.connect "gamma" "alpha").toOption
  return m.announceBlock "alpha" childRecord

theorem grounded_ring {m : Mesh} (h : ring = some m) (hqueue : m.queue.length = 4) :
    m.Grounded := by
  unfold ring at h
  simp only [Option.bind_eq_bind, Option.bind_eq_some_iff] at h
  obtain ⟨node, hnode, m₁, h₁, m₂, h₂, m₃, h₃, heq⟩ := h
  -- every node of the ring is the one at the genesis
  have hnodes : m.nodes = ((new.add "alpha" node).add "beta" node |>.add "gamma" node).nodes := by
    rw [← Option.some.inj heq, announceBlock, enqueueAll_eq]
    show m₃.nodes = _
    rw [(sameNodes_connect (ok_of_toOption h₃)).nodes, (sameNodes_connect (ok_of_toOption h₂)).nodes,
      (sameNodes_connect (ok_of_toOption h₁)).nodes]
  have hsame : ∀ name n, m.nodes.lookup name = some n → n = node := by
    intro name n hn
    rw [hnodes] at hn
    simp only [add, lookup_insert_eq] at hn
    split at hn
    · exact (Option.some.inj hn).symm
    split at hn
    · exact (Option.some.inj hn).symm
    split at hn
    · exact (Option.some.inj hn).symm
    · cases hn
  obtain ⟨r, hgenesis, rfl⟩ := Option.map_eq_some_iff.1 hnode
  obtain ⟨l, hnew, hledger⟩ := Node.genesis_eq_ok (ok_of_toOption hgenesis)
  have hstarted : Ledger.Started l := ⟨_, _, _, _, .inl hnew⟩
  obtain ⟨applied, _, hl⟩ := Ledger.new_eq_ok_iff.1 hnew
  have hledgers : ∀ name n l', m.nodes.lookup name = some n → n.ledger = some l' → l' = l := by
    intro name n l' hn hl'
    rw [hsame name n hn] at hl'
    exact Option.some.inj (hl'.symm.trans hledger)
  refine ⟨fun name n l' hn hl' => ?_, fun name n l' hn hl' => ?_⟩
  · rw [hledgers name n l' hn hl']
    exact ⟨⟨l, [], hstarted, .start⟩, by rw [hl]⟩
  · have hlen : l.dag.len = 1 := by
      rw [hl]
      rfl
    rw [hledgers name n l' hn hl', hlen, hqueue]
    decide

/-- The block and the hellos go round, and the ring falls silent. -/
theorem floods_end_ring : ∃ m, ring = some m ∧ m.queue.length = 4 ∧
    ∃ n m', m.ticks (fun _ => atOne) n = .ok m' ∧ m'.queue = [] := by
  have hplay : ring.map (fun m => m.queue.length) = some 4 := by
    decide +kernel
  obtain ⟨m, hm, hqueue⟩ := Option.map_eq_some_iff.1 hplay
  exact ⟨m, hm, hqueue, (floods_end (grounded_ring hm hqueue) _).1⟩

end Mesh

end Kovanica
