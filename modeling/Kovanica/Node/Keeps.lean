import Kovanica.Node.Endings
import Kovanica.Node.Frame

/-!
# What every node of a mesh keeps

A property of nodes and one of letters that the calls of a node keep are kept by every
call of a mesh: by deliveries, ticks and drains, and by the calls that run one node and
announce what came of it.  Rules of this kind also say that a call ends: in a mesh with
the property or in an error, unless the process halts.

## Main results

* `Node.Calm.leaves`: a call that halts at worst leaves what its values are shown to have.
* `Holds.insert`: one node changes, to one with the property.
* `Holds.congr`: what has been seen plays no part.
-/

namespace Kovanica

open Lib

/-- The call gives a value of which this holds or an error, unless it halts.  It is the form of
every rule below, and composes along a sequence of calls. -/
def Leaves {ε α : Type} (value : α → Prop) (call : Outcome ε α) : Prop :=
  Outcome.Ends value (fun _ => True) (Halts true) call

namespace Leaves

variable {ε α β : Type} {value : α → Prop} {value' : β → Prop} {x : Outcome ε α}
  {f : α → Outcome ε β}

theorem bind (hx : Leaves value x) (hf : ∀ a, value a → Leaves value' (f a)) :
    Leaves value' (x >>= f) := Outcome.Ends.bind hx hf

theorem value_of (h : Leaves value x) {after : α → Prop}
    (hafter : ∀ a, x = .ok a → value a → after a) : Leaves after x :=
  Outcome.Ends.value_of h hafter

theorem map {g : α → β} (h : Leaves (fun a => value' (g a)) x) : Leaves value' (x.map g) := by
  cases x with
  | ok a => exact h
  | error e => cases e <;> exact h

theorem mapM {l : List α} {f : α → Outcome ε β} (h : ∀ a ∈ l, Leaves value' (f a)) :
    Leaves (fun bs => ∀ b ∈ bs, value' b) (l.mapM f) := by
  induction l with
  | nil => exact fun _ hb => absurd hb List.not_mem_nil
  | cons a rest ih =>
      obtain ⟨ha, hrest⟩ := List.forall_mem_cons.1 h
      rw [List.mapM_cons]
      apply ha.bind
      intro b hb
      apply (ih hrest).bind
      intro bs hbs
      exact List.forall_mem_cons.2 ⟨hb, hbs⟩

end Leaves

theorem halts_true {pow : Bool} {site : String} (h : Halts pow site) : Halts true site := by
  rcases h with hroom | ⟨_, hnonce⟩
  · exact .inl hroom
  · exact .inr ⟨rfl, hnonce⟩

variable [Crypto]

omit [Crypto] in
/-- A calm call leaves what it is shown to leave. -/
theorem Node.Calm.leaves {α : Type} {n : Node} {call : Outcome NodeError α} (h : n.Calm call)
    {value : α → Prop} (hvalue : ∀ a, call = .ok a → value a) : Leaves value call :=
  (Outcome.Ends.imp h (fun _ _ => trivial) fun _ => halts_true).value_of fun a ha _ => hvalue a ha

/-- Properties of named nodes and of envelopes that the calls of a mesh keep.  The two go together:
what a node takes was in an envelope, and what it gives out becomes one. -/
structure Keeps (P : String → Node → Prop) (E : Envelope → Prop) : Prop where
  plain : ∀ {name n}, P name n → n.Plain
  hello : ∀ advertised, E (.hello advertised)
  receive : ∀ {name n n'} {env : Env} {record : BlockRecord} {id : BlockId}, P name n →
    E (.block record) → n.receiveBlock env record = .ok (id, n') → P name n'
  submit : ∀ {name n n'} {tx : Transaction} {id : TxId}, P name n → E (.tx tx) →
    n.submitTx tx = .ok (id, n') → P name n'
  produce : ∀ {name n n'} {env : Env} {id : Option BlockId}, P name n →
    n.produceBlock env = .ok (id, n') → P name n'
  produceEmpty : ∀ {name n n'} {env : Env} {id : BlockId}, P name n →
    n.produceEmpty env = .ok (id, n') → P name n'
  record : ∀ {name n} {id : BlockId} {record : BlockRecord}, P name n →
    n.blockRecord id = some record → E (.block record)
  pending : ∀ {name n} {id : TxId} {tx : Transaction}, P name n →
    n.mempool.get id = some tx → E (.tx tx)

namespace Mesh

/-- The nodes of these names have the property of nodes, the letters between them that of
envelopes, and no other names are known or logged. -/
structure Holds (N : Finset String) (P : String → Node → Prop) (E : Envelope → Prop)
    (m : Mesh) : Prop where
  keys : m.nodes.keys = N
  nodes : ∀ {name n}, m.nodes.lookup name = some n → P name n
  peers : ∀ s, m.peerSet s ⊆ N
  letters : ∀ q ∈ m.queue, q.sender ∈ N ∧ q.recipient ∈ N ∧ E q.envelope
  events : ∀ e ∈ m.events, e.sender ∈ N ∧ e.recipient ∈ N

variable {N : Finset String} {P : String → Node → Prop} {E : Envelope → Prop} {m m' : Mesh}
  {name sender recipient : String}

omit [Crypto] in
theorem Holds.mem_iff (h : m.Holds N P E) : name ∈ m.nodes ↔ name ∈ N := by
  rw [← Finmap.mem_keys, h.keys]

omit [Crypto] in
theorem Holds.of_lookup (h : m.Holds N P E) {n : Node} (hn : m.nodes.lookup name = some n) :
    name ∈ N := h.mem_iff.1 (Finmap.mem_of_lookup_eq_some hn)

omit [Crypto] in
theorem Holds.new : Mesh.new.Holds ∅ P E where
  keys := Finmap.keys_empty
  nodes := by
    intro name n hn
    cases hn
  peers := fun _ _ hx => hx
  letters := fun _ hq => absurd hq List.not_mem_nil
  events := fun _ he => absurd he List.not_mem_nil

omit [Crypto] in
theorem Holds.add (h : m.Holds N P E) (name : String) {n : Node} (hn : P name n) :
    (m.add name n).Holds (insert name N) P E where
  keys := by
    rw [Mesh.add, keys_insert, h.keys]
  nodes := by
    intro other n' hlookup
    rw [Mesh.add, lookup_insert_eq] at hlookup
    split at hlookup
    · rename_i heq
      obtain rfl := Option.some.inj hlookup
      exact heq ▸ hn
    · exact h.nodes hlookup
  peers := by
    intro s x hx
    rw [peerSet, Mesh.add, lookup_insert_eq] at hx
    split at hx
    · exact Finset.mem_insert_of_mem (h.peers name hx)
    · exact Finset.mem_insert_of_mem (h.peers s hx)
  letters := by
    intro q hq
    obtain ⟨hsender, hrecipient, henvelope⟩ := h.letters q hq
    exact ⟨Finset.mem_insert_of_mem hsender, Finset.mem_insert_of_mem hrecipient, henvelope⟩
  events := by
    intro e he
    obtain ⟨hsender, hrecipient⟩ := h.events e he
    exact ⟨Finset.mem_insert_of_mem hsender, Finset.mem_insert_of_mem hrecipient⟩

/-! ## Sending -/

omit [Crypto] in
theorem Holds.connect (h : m.Holds N P E) (hkeeps : ∀ advertised, E (.hello advertised))
    (hok : m.connect sender recipient = .ok m') : m'.Holds N P E := by
  obtain ⟨hsender, hrecipient, ⟨_, rfl⟩ | ⟨_, _, rfl⟩⟩ := connect_eq_ok hok
  · exact h
  have hsenderN := h.mem_iff.1 hsender
  have hrecipientN := h.mem_iff.1 hrecipient
  refine ⟨h.keys, h.nodes, fun s x hx => ?_, fun q hq => ?_, h.events⟩
  · rw [peerSet, lookup_insert_eq] at hx
    split at hx
    · rcases Finset.mem_insert.1 hx with rfl | hold
      · exact hrecipientN
      · exact h.peers sender hold
    · exact h.peers s hx
  · rcases List.mem_append.1 hq with hold | hnew
    · exact h.letters q hold
    · obtain rfl := List.mem_singleton.1 hnew
      exact ⟨hsenderN, hrecipientN, hkeeps _⟩

omit [Crypto] in
theorem Holds.connect_leaves (h : m.Holds N P E) (hkeeps : ∀ advertised, E (.hello advertised)) :
    Leaves (fun m' => m'.Holds N P E) (m.connect sender recipient) := by
  refine .intro (fun m' hok => h.connect hkeeps hok) (fun _ _ => trivial) fun site hpanic => ?_
  unfold Mesh.connect Mesh.require at hpanic
  split at hpanic
  · split at hpanic
    · dsimp only [Outcome.ok_bind] at hpanic
      split at hpanic
      · cases hpanic
      · split at hpanic <;> cases hpanic
    · cases hpanic
  · cases hpanic

omit [Crypto] in
theorem Holds.send (h : m.Holds N P E) (hsender : sender ∈ N) {recipients : List String}
    (hrecipients : ∀ x ∈ recipients, x ∈ N) {envelope : Envelope} (henvelope : E envelope) :
    (m.enqueueAll sender recipients envelope).Holds N P E := by
  rw [enqueueAll_eq]
  refine ⟨h.keys, h.nodes, h.peers, fun q hq => ?_, h.events⟩
  rcases List.mem_append.1 hq with hold | hnew
  · exact h.letters q hold
  · obtain ⟨x, hx, _, rfl⟩ := mem_letters.1 hnew
    exact ⟨hsender, hrecipients x hx, henvelope⟩

omit [Crypto] in
theorem Holds.peersOf (h : m.Holds N P E) (s : String) : ∀ x ∈ m.peersOf s, x ∈ N :=
  fun _ hx => h.peers s (mem_ascending.1 hx)

omit [Crypto] in
/-- Nothing but what has been seen differs. -/
theorem Holds.congr (h : m.Holds N P E) (hnodes : m'.nodes = m.nodes) (hpeers : m'.peers = m.peers)
    (hqueue : m'.queue = m.queue) (hevents : m'.events = m.events) : m'.Holds N P E where
  keys := hnodes ▸ h.keys
  nodes := hnodes ▸ h.nodes
  peers := fun s => by
    rw [peerSet, hpeers]
    exact h.peers s
  letters := hqueue ▸ h.letters
  events := hevents ▸ h.events

omit [Crypto] in
/-- One node changes. -/
theorem Holds.insert (h : m.Holds N P E) (hname : name ∈ N) {n : Node} (hn : P name n) :
    { m with nodes := m.nodes.insert name n }.Holds N P E where
  keys := by
    rw [keys_insert, h.keys]
    exact Finset.insert_eq_of_mem hname
  nodes := by
    intro other n' hlookup
    rw [lookup_insert_eq] at hlookup
    split at hlookup
    · rename_i heq
      obtain rfl := Option.some.inj hlookup
      exact heq ▸ hn
    · exact h.nodes hlookup
  peers := h.peers
  letters := h.letters
  events := h.events

theorem Holds.announceBlock (h : m.Holds N P E) (hsender : sender ∈ N) {record : BlockRecord}
    (hrecord : E (.block record)) : (m.announceBlock sender record).Holds N P E := by
  have hmarked : (m.markBlock sender record.id).Holds N P E := h.congr rfl rfl rfl rfl
  exact hmarked.send hsender (h.peersOf sender) hrecord

theorem Holds.announceTx (h : m.Holds N P E) (hsender : sender ∈ N) {tx : Transaction}
    (htx : E (.tx tx)) : (m.announceTx sender tx).Holds N P E := by
  have hmarked : (m.markTx sender tx.id).Holds N P E := h.congr rfl rfl rfl rfl
  exact hmarked.send hsender (h.peersOf sender) htx

omit [Crypto] in
theorem Holds.relay (h : m.Holds N P E) (hname : name ∈ N) {envelope : Envelope}
    (henvelope : E envelope) : (m.relay name sender envelope).Holds N P E :=
  h.send hname (fun x hx => h.peersOf name x (List.mem_of_mem_filter hx)) henvelope

/-! ## Delivery -/

omit [Crypto] in
theorem events_onHello (m : Mesh) (name sender : String) (advertised : List String) :
    (m.onHello name sender advertised).events = m.events := by
  unfold onHello
  split
  · rfl
  dsimp only
  rw [enqueueHellos_eq]
  split
  · rfl
  · rw [enqueueHello, enqueue_eq]

omit [Crypto] in
theorem Holds.onHello (h : m.Holds N P E) (hkeeps : ∀ advertised, E (.hello advertised))
    (hname : name ∈ N) (hsender : sender ∈ N) (advertised : List String) :
    (m.onHello name sender advertised).Holds N P E := by
  have hheard := m.onHello_heard name sender advertised (h.mem_iff.2 hname)
  have hpeers : ∀ s, (m.onHello name sender advertised).peerSet s ⊆ N := by
    intro s x hx
    by_cases hs : s = name
    · subst hs
      rcases (hheard.mem_peerSet x).1 hx with hold | rfl | ⟨_, _, _, hmem⟩
      · exact h.peers _ hold
      · exact hsender
      · exact h.mem_iff.1 hmem
    · rw [hheard.peerSet_other s hs] at hx
      exact h.peers s hx
  obtain ⟨letters, hqueue, hletters⟩ := hheard.queue
  refine ⟨hheard.same.nodes ▸ h.keys, hheard.same.nodes ▸ h.nodes, hpeers, fun q hq => ?_, ?_⟩
  · rw [hqueue] at hq
    rcases List.mem_append.1 hq with hold | hnew
    · exact h.letters q hold
    · obtain ⟨x, hx, _, _, rfl⟩ := (hletters q).1 hnew
      exact ⟨hname, hpeers _ hx, hkeeps _⟩
  · rw [events_onHello]
    exact h.events

omit [Crypto] in
theorem Holds.deliverTo (h : m.Holds N P E) (hname : name ∈ N) {α : Type}
    {step : Node → Outcome NodeError (α × Node)}
    (hstep : ∀ n, P name n → Leaves (fun r => P name r.2) (step n)) :
    Leaves (fun r => ∀ m', r = some m' → m'.Holds N P E) (m.deliverTo name step) := by
  unfold Mesh.deliverTo
  cases hlookup : m.nodes.lookup name with
  | none =>
      intro m' hm'
      exact Option.some.inj hm' ▸ h
  | some n =>
      have hn := hstep n (h.nodes hlookup)
      dsimp only
      cases hcall : step n with
      | ok r =>
          rw [hcall] at hn
          obtain ⟨a, n'⟩ := r
          intro m' hm'
          exact Option.some.inj hm' ▸ h.insert hname hn
      | error e =>
          rw [hcall] at hn
          cases e with
          | error e =>
              intro m' hm'
              cases hm'
          | panic site => exact hn

theorem Holds.onBlock (h : m.Holds N P E) (hkeeps : Keeps P E) (env : Env) (hname : name ∈ N)
    (sender : String) {record : BlockRecord} (hrecord : E (.block record)) :
    Leaves (fun m' => m'.Holds N P E) (m.onBlock env name sender record) := by
  unfold Mesh.onBlock
  split
  · exact h
  have hmarked : (m.markBlock name record.id).Holds N P E := h.congr rfl rfl rfl rfl
  apply (hmarked.deliverTo hname fun n hn => (Node.receiveBlock_calm (hkeeps.plain hn)
    record).leaves fun r hr => hkeeps.receive hn hrecord hr).bind
  intro r hr
  cases r with
  | none => exact hmarked
  | some m' => exact (hr m' rfl).relay hname hrecord

theorem Holds.onTx (h : m.Holds N P E) (hkeeps : Keeps P E) (hname : name ∈ N)
    (sender : String) {tx : Transaction} (htx : E (.tx tx)) :
    Leaves (fun m' => m'.Holds N P E) (m.onTx name sender tx) := by
  unfold Mesh.onTx
  split
  · exact h
  have hmarked : (m.markTx name tx.id).Holds N P E := h.congr rfl rfl rfl rfl
  apply (hmarked.deliverTo hname fun n hn => (Node.submitTx_calm n tx).leaves
    fun r hr => hkeeps.submit hn htx hr).bind
  intro r hr
  cases r with
  | none => exact hmarked
  | some m' => exact (hr m' rfl).relay hname htx

theorem Holds.deliver (h : m.Holds N P E) (hkeeps : Keeps P E) (env : Env) {q : Queued}
    (hq : q.sender ∈ N ∧ q.recipient ∈ N ∧ E q.envelope) :
    Leaves (fun m' => m'.Holds N P E) (m.deliver env q) := by
  obtain ⟨hsender, hrecipient, henvelope⟩ := hq
  have hnoted : (m.noted q).Holds N P E := by
    refine ⟨h.keys, h.nodes, h.peers, h.letters, fun e he => ?_⟩
    rcases List.mem_append.1 he with hold | hnew
    · exact h.events e hold
    · obtain rfl := List.mem_singleton.1 hnew
      exact ⟨hsender, hrecipient⟩
  unfold Mesh.deliver
  cases hcase : q.envelope with
  | hello advertised =>
      have heard := hnoted.onHello hkeeps.hello hrecipient hsender advertised
      rw [noted, hcase] at heard
      exact heard
  | block record =>
      rw [hcase] at henvelope
      have hblock := hnoted.onBlock hkeeps env hrecipient q.sender henvelope
      rw [noted, hcase] at hblock
      exact hblock
  | tx tx =>
      rw [hcase] at henvelope
      have htx := hnoted.onTx hkeeps hrecipient q.sender henvelope
      rw [noted, hcase] at htx
      exact htx

theorem Holds.deliverAll (hkeeps : Keeps P E) (envs : Nat → Env) {due : List Queued} (i : Nat)
    (h : m.Holds N P E) (hdue : ∀ q ∈ due, q.sender ∈ N ∧ q.recipient ∈ N ∧ E q.envelope) :
    Leaves (fun m' => m'.Holds N P E) (Mesh.deliverAll envs i due m) := by
  induction due generalizing i m with
  | nil => exact h
  | cons q rest ih =>
      obtain ⟨hq, hrest⟩ := List.forall_mem_cons.1 hdue
      have hstep := h.deliver hkeeps (envs i) hq
      rw [Mesh.deliverAll]
      cases hcall : m.deliver (envs i) q with
      | error e =>
          rw [hcall] at hstep
          cases e <;> exact hstep
      | ok m' =>
          rw [hcall] at hstep
          exact ih (i + 1) hstep hrest

theorem Holds.tick (h : m.Holds N P E) (hkeeps : Keeps P E) (envs : Nat → Env) :
    Leaves (fun r => r.2.Holds N P E) (m.tick envs) := by
  have hadvance : m.advance.Holds N P E :=
    ⟨h.keys, h.nodes, h.peers, fun q hq => h.letters q (List.mem_of_mem_filter hq), h.events⟩
  unfold Mesh.tick
  apply (hadvance.deliverAll hkeeps envs 0 fun q hq =>
    h.letters q (List.mem_of_mem_filter hq)).bind
  intro m' hm'
  exact hm'

theorem Holds.drain (hkeeps : Keeps P E) (limit : Nat) (envs : Nat → Nat → Env)
    (h : m.Holds N P E) : Leaves (fun r => r.2.Holds N P E) (m.drain envs limit) := by
  induction limit generalizing m envs with
  | zero => exact h
  | succ limit ih =>
      rw [Mesh.drain]
      split
      · exact h
      apply (h.tick hkeeps (envs 0)).bind
      rintro ⟨delivered, m₁⟩ hm₁
      apply (ih (fun i => envs (i + 1)) hm₁).bind
      rintro ⟨total, m₂⟩ hm₂
      exact hm₂

/-! ## Calls of one node -/

omit [Crypto] in
theorem Holds.onNode (h : m.Holds N P E) (name : String) {α : Type}
    {step : Node → Outcome NodeError (α × Node)}
    {Q : α → Node → Prop}
    (hstep : ∀ n, P name n → Leaves (fun r => P name r.2 ∧ Q r.1 r.2) (step n)) :
    Leaves (fun r => r.2.Holds N P E ∧ name ∈ N ∧
      ∃ n', r.2.nodes.lookup name = some n' ∧ P name n' ∧ Q r.1 n') (m.onNode name step) := by
  unfold Mesh.onNode
  cases hlookup : m.nodes.lookup name with
  | none => exact trivial
  | some n =>
      have hname := h.of_lookup hlookup
      have hn := hstep n (h.nodes hlookup)
      dsimp only
      cases hcall : step n with
      | ok r =>
          rw [hcall] at hn
          obtain ⟨a, n'⟩ := r
          obtain ⟨hkept, hq⟩ := hn
          exact ⟨h.insert hname hkept, hname, n', Finmap.lookup_insert .., hkept, hq⟩
      | error e =>
          rw [hcall] at hn
          cases e <;> exact hn

theorem Holds.announceStored (h : m.Holds N P E) (hkeeps : Keeps P E) (hname : name ∈ N)
    (id : BlockId) : (m.announceStored name id).Holds N P E := by
  unfold Mesh.announceStored
  cases hrecord : (m.nodes.lookup name).bind fun node => node.blockRecord id with
  | none => exact h
  | some record =>
      obtain ⟨n, hn, hrecord⟩ := Option.bind_eq_some_iff.1 hrecord
      exact h.announceBlock hname (hkeeps.record (h.nodes hn) hrecord)

theorem Holds.announcePending (h : m.Holds N P E) (hkeeps : Keeps P E) (hname : name ∈ N)
    (id : TxId) : (m.announcePending name id).Holds N P E := by
  unfold Mesh.announcePending
  cases hpending : (m.nodes.lookup name).bind fun node => node.mempool.get id with
  | none => exact h
  | some tx =>
      obtain ⟨n, hn, hpending⟩ := Option.bind_eq_some_iff.1 hpending
      exact h.announceTx hname (hkeeps.pending (h.nodes hn) hpending)

theorem Holds.produce (h : m.Holds N P E) (hkeeps : Keeps P E) (env : Env) (name : String) :
    Leaves (fun r => r.2.Holds N P E) (m.produce env name) := by
  unfold Mesh.produce
  apply (h.onNode name (Q := fun _ _ => True) fun n hn =>
    (Node.produceBlock_calm (hkeeps.plain hn)).leaves fun r hr =>
      ⟨hkeeps.produce hn hr, trivial⟩).bind
  rintro ⟨produced, m'⟩ ⟨hm', hname, _⟩
  cases produced with
  | none => exact hm'
  | some id => exact hm'.announceStored hkeeps hname id

theorem Holds.produceEmpty (h : m.Holds N P E) (hkeeps : Keeps P E) (env : Env)
    (name : String) : Leaves (fun r => r.2.Holds N P E) (m.produceEmpty env name) := by
  unfold Mesh.produceEmpty
  apply (h.onNode name (Q := fun _ _ => True) fun n hn =>
    (Node.produceEmpty_calm (hkeeps.plain hn)).leaves fun r hr =>
      ⟨hkeeps.produceEmpty hn hr, trivial⟩).bind
  rintro ⟨id, m'⟩ ⟨hm', hname, _⟩
  exact hm'.announceStored hkeeps hname id

theorem Holds.sendTo (h : m.Holds N P E) (hkeeps : Keeps P E) {env : Env} {fromSeed amount : U64}
    {target : Address} (hcall : ∀ n sent n', P name n →
      n.sendTo env fromSeed amount target = .ok (sent, n') → P name n') :
    Leaves (fun r => r.2.Holds N P E) (m.sendTo env name fromSeed amount target) := by
  unfold Mesh.sendTo
  apply (h.onNode name (Q := fun _ _ => True) fun n hn =>
    (Node.sendTo_calm (hkeeps.plain hn) fromSeed amount target).leaves fun r hr =>
      ⟨hcall n r.1 r.2 hn hr, trivial⟩).bind
  rintro ⟨sent, m'⟩ ⟨hm', hname, _⟩
  exact hm'.announceStored hkeeps hname sent.block

theorem Holds.pool (h : m.Holds N P E) (hkeeps : Keeps P E) {env : Env}
    {fromSeed amount toSeed : U64} (hcall : ∀ n id n', P name n →
      n.pool env fromSeed amount toSeed = .ok (id, n') → P name n') :
    Leaves (fun r => r.2.Holds N P E) (m.pool env name fromSeed amount toSeed) := by
  unfold Mesh.pool
  apply (h.onNode name (Q := fun _ _ => True) fun n hn =>
    (Node.pool_calm (hkeeps.plain hn) fromSeed amount toSeed).leaves fun r hr =>
      ⟨hcall n r.1 r.2 hn hr, trivial⟩).bind
  rintro ⟨id, m'⟩ ⟨hm', hname, _⟩
  exact hm'.announcePending hkeeps hname id

theorem Holds.submitSigned (h : m.Holds N P E) (hkeeps : Keeps P E) {env : Env}
    {source target : Address} {amount : U64} {signature : Bytes 64}
    (hcall : ∀ n id n', P name n →
      n.submitSigned env source amount target signature = .ok (id, n') → P name n') :
    Leaves (fun r => r.2.Holds N P E)
      (m.submitSigned env name source amount target signature) := by
  unfold Mesh.submitSigned
  apply (h.onNode name (Q := fun _ _ => True) fun n hn =>
    (Node.submitSigned_calm (hkeeps.plain hn) source amount target signature).leaves fun r hr =>
      ⟨hcall n r.1 r.2 hn hr, trivial⟩).bind
  rintro ⟨id, m'⟩ ⟨hm', hname, _⟩
  exact hm'.announcePending hkeeps hname id

end Mesh

end Kovanica
