import Kovanica.Node.Keeps
import Kovanica.Node.Service

/-!
# The explorer stays up

What the nodes of the explorer keep is kept by everything the process does: booting, a
tick, a request, whatever it says.  Of the calls that sign or that change the miner only
those are made that the flags of the process allow.  In particular no request and no file
brings the process down, as long as sockets return and sums wrap: `Service` says what a
connection is, and a build with overflow checks stops where a sum of works does not fit.

## Main results

* `upholds_running`: no call of the process takes its ledger from a node.
* `serve_served`: a whole run, for any property that booting establishes and the calls keep.
-/

namespace Kovanica

open Lib

variable {F : Type} [Crypto]

section Rules

variable {ε α : Type} {value : α → Prop}

omit [Crypto] in
theorem Leaves.said {display : ε → String} {x : Outcome ε α} (h : Leaves value x) :
    Leaves value (Rpc.said display x) := by
  cases x with
  | ok a => exact h
  | error e =>
      cases e with
      | error e => exact trivial
      | panic site => exact h

omit [Crypto] in
theorem Leaves.infallible {x : Outcome Empty α} (h : Leaves value x) :
    Leaves value (infallible x : Outcome ε α) := by
  cases x with
  | ok a => exact h
  | error e =>
      cases e with
      | error e => exact e.elim
      | panic site => exact h

omit [Crypto] in
theorem leaves_lift (x : Except ε α) : Leaves (fun a => x = .ok a) (Rpc.lift x) := by
  cases x with
  | ok a => exact rfl
  | error e => exact trivial

omit [Crypto] in
theorem Mesh.attempt_leaves {Q : Mesh → Prop} {m : Mesh} (hm : Q m) {x : Outcome ε (α × Mesh)}
    (h : Leaves (fun r => Q r.2) x) : Leaves Q (m.attempt x) := by
  cases x with
  | ok r => exact h
  | error e =>
      cases e with
      | error e => exact hm
      | panic site => exact h

end Rules

namespace Explorer

variable {host : Host F} {P : String → Node → Prop} {E : Envelope → Prop} {app : Explorer}
  {envs : Nat → Nat → Env} {files : F} {q : Query}

/-! ## Booting -/

/-- A premine that the subsidy allows. -/
theorem exists_premine (subsidy amount : U64) (hne : amount ≠ 0) (hle : amount ≤ subsidy)
    (founderSeed : U64) :
    ∃ applied, applyBlock ∅ (Node.genesisTxs amount founderSeed).val subsidy = .ok applied := by
  have htxs : applyTxs 0 (Node.genesisTxs amount founderSeed).val ∅ none 0 =
      .ok (∅, some (Node.genesisCoinbase amount founderSeed), 0) := rfl
  have hsubsidy : Word.checkedAdd subsidy 0 = some subsidy := by
    simp [Word.checkedAdd]
  have hfree : (⟨(Node.genesisCoinbase amount founderSeed).id, 0⟩ : OutPoint) ∉ (∅ : UtxoSet) :=
    Finmap.notMem_empty
  have hcb : Node.genesisCoinbase amount founderSeed =
      .coinbase [⟨amount, Node.address founderSeed⟩] [103, 101, 110, 101, 115, 105, 115] := rfl
  have hlast := (applyLast_reward_iff hcb).2 ⟨hne, hle, hfree, rfl, rfl⟩
  rw [applyBlock, htxs]
  dsimp only
  rw [hsubsidy]
  dsimp only
  rw [hlast]
  exact ⟨_, rfl⟩

/-- A node with a ledger, which calls have led to.  Every node of the process is one: it is only
registered with a ledger, and no call takes that away. -/
structure Running (n : Node) : Prop where
  reachable : n.Reachable
  ledger : ∃ l, n.ledger = some l

theorem Running.enforced {n : Node} (h : Running n) (host : Host F) :
    Running (enforced host n) := by
  obtain ⟨l, hl⟩ := h.ledger
  unfold Explorer.enforced
  split
  · have hset : n.setProofOfWork true = .ok { n with ledger := some (l.setProofOfWork true) } := by
      rw [Node.setProofOfWork, hl]
    rw [hset]
    exact ⟨h.reachable.setProofOfWork hset, _, rfl⟩
  · exact h

theorem genesisNode_leaves (host : Host F) (env : Env) :
    Leaves Running (genesisNode host env) := by
  obtain ⟨applied, happlied⟩ := exists_premine (50 * atom) (50 * atom) (by decide) le_rfl 1
  have hreach : (Node.new.setNowMs (1700000000000 + 1000)).Reachable :=
    Node.Reachable.new.setNowMs _
  unfold genesisNode
  cases hgenesis : (Node.new.setNowMs (1700000000000 + 1000)).genesis env 3 (50 * atom)
      (50 * atom) 1 with
  | ok r =>
      obtain ⟨r, n⟩ := r
      have hrunning : Running n := by
        refine ⟨hreach.genesis hgenesis, ?_⟩
        unfold Node.genesis at hgenesis
        split at hgenesis
        · cases hgenesis
        split at hgenesis
        · cases hgenesis
        · obtain ⟨_, rfl⟩ := Prod.mk.inj (Except.ok.inj hgenesis)
          exact ⟨_, rfl⟩
      exact hrunning.enforced host
  | error e =>
      exfalso
      unfold Node.genesis at hgenesis
      split at hgenesis
      · rename_i hsome
        cases hsome
      · rw [Ledger.new, happlied] at hgenesis
        cases hgenesis

theorem Running.restoreMiner {n : Node} (h : Running n) (dir : DataDir F) (files : F)
    (name : String) : Running (restoreMiner dir files name n) := by
  have hset : ∀ addr, Running (n.setMiner addr) := fun addr =>
    ⟨h.reachable.setMiner addr, h.ledger⟩
  unfold Explorer.restoreMiner
  split
  · exact hset _
  · split
    · exact hset _
    · exact h

theorem loadFile_leaves (fs : FileSystem F) (env : Env) (files : F) (path : String) :
    Leaves Running (Node.new.loadFile fs env files path) := by
  unfold Node.loadFile
  split
  · exact trivial
  rename_i bytes _
  have hload := Node.load_ends Node.Quiet.new env bytes
  cases hcall : Node.new.load env bytes with
  | error e =>
      rw [hcall] at hload
      cases e with
      | error e => exact trivial
      | panic site => exact .inl hload
  | ok n =>
      rw [hcall] at hload
      refine ⟨hload.reachable, ?_⟩
      unfold Node.load at hcall
      split at hcall
      · cases hcall
      · rw [← Except.ok.inj hcall]
        exact ⟨_, rfl⟩

theorem loadOrGenesis_leaves (host : Host F) (env : Env) (files : F) (name : String) :
    Leaves Running (loadOrGenesis host env files name) := by
  unfold loadOrGenesis
  split
  · have hload := loadFile_leaves host.dir.toFileSystem env files (snapPath name)
    cases hcall : Node.new.loadFile host.dir.toFileSystem env files (snapPath name) with
    | ok n =>
        rw [hcall] at hload
        exact (Running.restoreMiner hload host.dir files name).enforced host
    | error e =>
        rw [hcall] at hload
        cases e with
        | error e => exact genesisNode_leaves host env
        | panic site => exact hload
  · exact genesisNode_leaves host env

/-! ## What the process upholds -/

/-- The names of the nodes of the mesh. -/
def meshNames (host : Host F) : Finset String :=
  if host.flag "KOVANICA_DEMO_MESH" false then
    insert "gamma" (insert "beta" (insert "alpha" ∅))
  else insert "alpha" ∅

omit [Crypto] in
theorem alpha_mem (host : Host F) : "alpha" ∈ meshNames host := by
  unfold meshNames
  split <;> decide

/-- The process between two rounds: its nodes and what is queued are as they should be, and
its flags are those of the host. -/
structure Up (host : Host F) (P : String → Node → Prop) (E : Envelope → Prop)
    (app : Explorer) : Prop where
  mesh : app.mesh.Holds (meshNames host) P E
  selected : app.selected ∈ meshNames host
  faucet : app.faucet = host.flag "KOVANICA_FAUCET" false
  allowReset : app.allowReset = host.flag "KOVANICA_ALLOW_RESET" false
  operator : app.operator = host.flag "KOVANICA_OPERATOR" false

/-- A property of nodes and one of letters that are kept by the calls of a mesh and by what
the flags of the host allow a request to do besides. -/
structure Upholds (host : Host F) (P : String → Node → Prop) (E : Envelope → Prop) : Prop
    extends Keeps P E where
  sendTo : host.flag "KOVANICA_OPERATOR" false = true ∨ host.flag "KOVANICA_FAUCET" false = true →
    ∀ {name n n'} {env : Env} {fromSeed amount : U64} {target : Address} {sent : Sent}, P name n →
      n.sendTo env fromSeed amount target = .ok (sent, n') → P name n'
  pool : host.flag "KOVANICA_OPERATOR" false = true →
    ∀ {name n n'} {env : Env} {fromSeed amount toSeed : U64} {id : TxId}, P name n →
      n.pool env fromSeed amount toSeed = .ok (id, n') → P name n'
  setMiner : host.flag "KOVANICA_OPERATOR" false = true →
    ∀ {name n} (addr : Address), P name n → P name (n.setMiner addr)
  boots : host.flag "KOVANICA_ALLOW_RESET" false = true →
    ∀ env files name, Leaves (P name) (loadOrGenesis host env files name)

/-- The arguments of a transfer that the request submits.  All four are in the query, so what is
submitted is determined by the text of the request. -/
structure Submits (q : Query) (sender : Address) (amount : U64) (recipient : Address)
    (sig : Bytes 64) : Prop where
  sender_eq : (q.lookup "from").map parseAddr = some (.ok sender)
  recipient_eq : (q.lookup "to").map parseAddr = some (.ok recipient)
  amount_eq : parseU64 q "amount" 0 = .ok amount
  sig_eq : (q.lookup "sig").map parseSig = some (.ok sig)

/-- The request is for this action. -/
structure Request.Asks (r : Request) (action : String) : Prop where
  method_eq : r.method = "POST"
  isApi : isApi r.path = true
  action_eq : String.ofList (trimApi r.path.toList) = action

/-- A node with the property still has it when it takes a transfer that is submitted with
these arguments. -/
def Takes (P : String → Node → Prop) (q : Query) : Prop :=
  ∀ {sender : Address} {amount : U64} {recipient : Address} {sig : Bytes 64},
    Submits q sender amount recipient sig → ∀ {name n n'} {env : Env} {id : TxId}, P name n →
      n.submitSigned env sender amount recipient sig = .ok (id, n') → P name n'

/-- What the event brings in from outside is kept too. -/
def Event.Suits (P : String → Node → Prop) (E : Envelope → Prop) : Event → Prop
  | .request text => (readRequest text).Asks "submit" → Takes P (readRequest text).query
  | .tick traffic => ∀ i bytes records, traffic.streams i = .ok bytes →
      decodeRecords bytes = .ok records → ∀ r ∈ records, E (.block r)

omit [Crypto] in
theorem Up.of_mesh (h : Up host P E app) {m : Mesh} (hm : m.Holds (meshNames host) P E) :
    Up host P E { app with mesh := m } :=
  { h with mesh := hm }

/-! ## Booting a mesh -/

omit [Crypto] in
theorem attempt_connect_leaves (hhello : ∀ advertised, E (.hello advertised)) {N : Finset String}
    {m : Mesh} (hm : m.Holds N P E) {a b : String} :
    Leaves (fun m' => m'.Holds N P E) (m.attempt ((m.connect a b).map fun m => ((), m))) := by
  apply Mesh.attempt_leaves hm
  apply Leaves.map
  exact hm.connect_leaves hhello

theorem bootMesh_leaves (hkeeps : Keeps P E) (hboots : ∀ env files name,
    Leaves (P name) (loadOrGenesis host env files name)) (envs : Nat → Env) (files : F) :
    Leaves (fun m => m.Holds (meshNames host) P E) (bootMesh host envs files) := by
  unfold bootMesh meshNames
  apply (hboots (envs 0) files "alpha").bind
  intro alpha halpha
  have hone : (Mesh.new.add "alpha" alpha).Holds (insert "alpha" ∅) P E :=
    Mesh.Holds.new.add "alpha" halpha
  by_cases hdemo : host.flag "KOVANICA_DEMO_MESH" false
  · simp only [hdemo, if_true]
    apply (hboots (envs 1) files "beta").bind
    intro beta hbeta
    apply (hboots (envs 2) files "gamma").bind
    intro gamma hgamma
    have hthree := (hone.add "beta" hbeta).add "gamma" hgamma
    apply (attempt_connect_leaves hkeeps.hello hthree).bind
    intro m hm
    exact attempt_connect_leaves hkeeps.hello hm
  · simp only [hdemo]
    exact hone

theorem bootPersist_leaves (hkeeps : Keeps P E) (hboots : ∀ env files name,
    Leaves (P name) (loadOrGenesis host env files name)) (held : Bool)
    (envs : Nat → Nat → Env) (files : F) :
    Leaves (fun r => Up host P E r.1) (bootPersist host held envs files) := by
  unfold bootPersist
  apply (bootMesh_leaves hkeeps hboots (envs 0) _).bind
  intro m hm
  apply (Mesh.Holds.drain hkeeps 16 _ hm).bind
  rintro ⟨_, m'⟩ hm'
  exact ⟨hm', alpha_mem host, rfl, rfl, rfl⟩

/-! ## Ticking -/

theorem gossipLoop_leaves (hkeeps : Keeps P E) {name : String} (envs : Nat → Env)
    {records : List BlockRecord} (hrecords : ∀ r ∈ records, E (.block r)) {n : Node} (hn : P name n)
    (applied : Nat) :
    Leaves (fun _ => True) (Net.gossipLoop envs applied records n).1 ∧
      P name (Net.gossipLoop envs applied records n).2 := by
  induction records generalizing applied n with
  | nil => exact ⟨trivial, hn⟩
  | cons record rest ih =>
      obtain ⟨hrecord, hrest⟩ := List.forall_mem_cons.1 hrecords
      have hcalm : n.Calm (n.receiveBlock (envs applied) record) :=
        Node.receiveBlock_calm (hkeeps.plain hn) record
      have hleaves : Leaves (fun r => P name r.2) (n.receiveBlock (envs applied) record) :=
        hcalm.leaves fun r hr => hkeeps.receive hn hrecord hr
      rw [Net.gossipLoop]
      cases hcall : n.receiveBlock (envs applied) record with
      | ok r =>
          rw [hcall] at hleaves
          exact ih hrest hleaves (applied + 1)
      | error e =>
          rw [hcall] at hleaves
          cases e with
          | error e => exact ⟨trivial, hn⟩
          | panic site => exact ⟨hleaves, hn⟩

theorem pullBlocks_leaves (hkeeps : Keeps P E) {name : String} (envs : Nat → Env)
    {stream : Except String (List U8)}
    (hstream : ∀ bytes records, stream = .ok bytes → decodeRecords bytes = .ok records →
      ∀ r ∈ records, E (.block r)) {n : Node} (hn : P name n) :
    Leaves (fun _ => True) (Net.pullBlocks envs stream n).1 ∧
      P name (Net.pullBlocks envs stream n).2 := by
  cases stream with
  | error reason => exact ⟨trivial, hn⟩
  | ok bytes =>
      rw [Net.pullBlocks]
      cases hdecode : decodeRecords bytes with
      | ok records => exact gossipLoop_leaves hkeeps envs (hstream _ _ rfl hdecode) hn 0
      | error e => exact ⟨trivial, hn⟩

theorem pullAll_leaves (hkeeps : Keeps P E) {name : String}
    {streams : Nat → Except String (List U8)}
    (hstreams : ∀ i bytes records, streams i = .ok bytes → decodeRecords bytes = .ok records →
      ∀ r ∈ records, E (.block r)) (peers : List String) {n : Node} (hn : P name n) (i : Nat) :
    Leaves (P name) (pullAll envs streams i peers n) := by
  induction peers generalizing i n with
  | nil => exact hn
  | cons peer rest ih =>
      obtain ⟨hcall, hkept⟩ := pullBlocks_leaves hkeeps (envs i) (hstreams i) hn
      rw [pullAll]
      split
      · rename_i site n' heq
        rw [heq] at hcall
        exact hcall
      · rename_i result n' _ heq
        rw [heq] at hkept
        exact ih hkept (i + 1)

theorem tickP2p_leaves (hkeeps : Keeps P E) (h : Up host P E app) {traffic : Traffic}
    (htraffic : ∀ i bytes records, traffic.streams i = .ok bytes →
      decodeRecords bytes = .ok records → ∀ r ∈ records, E (.block r)) (files : F) :
    Leaves (fun r => Up host P E r.1) (app.tickP2p host envs files traffic) := by
  unfold tickP2p
  split
  · exact h
  cases hlookup : app.mesh.nodes.lookup "alpha" with
  | none => exact h
  | some n =>
      dsimp only
      apply (pullAll_leaves hkeeps htraffic app.peers (h.mesh.nodes hlookup) 0).bind
      intro n' hn'
      exact h.of_mesh (h.mesh.insert (alpha_mem host) hn')

theorem tickMine_leaves (hkeeps : Keeps P E) (h : Up host P E app) (envs : Nat → Env) (files : F) :
    Leaves (fun r => Up host P E r.1) (app.tickMine host envs files) := by
  unfold tickMine
  split
  · exact h
  dsimp only
  split
  · exact h
  rename_i name _
  apply (Mesh.attempt_leaves h.mesh (h.mesh.produceEmpty hkeeps (envs 0) name)).bind
  intro m hm
  exact { h with mesh := hm }

theorem tick_leaves (hkeeps : Keeps P E) (h : Up host P E app) {traffic : Traffic}
    (htraffic : ∀ i bytes records, traffic.streams i = .ok bytes →
      decodeRecords bytes = .ok records → ∀ r ∈ records, E (.block r)) (files : F) :
    Leaves (fun r => Up host P E r.2.1) (app.tick host envs files traffic) := by
  unfold tick
  apply (h.mesh.tick hkeeps (envs 0)).bind
  rintro ⟨_, m⟩ hm
  have hticked : Up host P E { app with mesh := m, ticks := app.ticks + 1 } :=
    { h with mesh := hm }
  apply (tickP2p_leaves hkeeps hticked htraffic files).bind
  rintro ⟨app₁, files₁⟩ hpulled
  apply (tickMine_leaves hkeeps hpulled (envs 2) files₁).bind
  rintro ⟨app₂, files₂⟩ hmined
  exact hmined

/-! ## Requests -/

omit [Crypto] in
theorem Up.selectIn (h : Up host P E app) (q : Query) : Up host P E (app.selectIn q) := by
  unfold Explorer.selectIn
  cases q.lookup "node" with
  | none => exact h
  | some name =>
      dsimp only
      unfold select
      split
      · rename_i hname
        exact { h with selected := h.mesh.mem_iff.1 hname }
      · exact h

theorem drained_leaves (hkeeps : Keeps P E) (h : Up host P E app) :
    Leaves (fun app' => Up host P E app') (app.drained envs) := by
  unfold drained
  apply (Mesh.Holds.drain hkeeps 8 envs h.mesh).infallible.bind
  rintro ⟨_, m⟩ hm
  exact h.of_mesh hm

theorem forkAll_leaves (hkeeps : Keeps P E) {N : Finset String} (envs : Nat → Env)
    (names : List String) {m : Mesh} (hm : m.Holds N P E) (i : Nat) :
    Leaves (fun m' => m'.Holds N P E) (forkAll envs i names m) := by
  induction names generalizing i m with
  | nil => exact hm
  | cons name rest ih =>
      rw [forkAll]
      apply (Mesh.attempt_leaves hm (hm.produceEmpty hkeeps (envs i) name)).bind
      intro m' hm'
      exact ih hm' (i + 1)

theorem operate_leaves (hupholds : Upholds host P E)
    (hoperator : host.flag "KOVANICA_OPERATOR" false = true) (h : Up host P E app)
    (envs : Nat → Env) (action : String) (q : Query) :
    Leaves (fun r => Up host P E r.2) (app.operate envs action q) := by
  have hkeeps := hupholds.toKeeps
  have hsend : ∀ {m : Mesh} (env : Env) (name : String) (fromSeed amount toSeed : U64),
      m.Holds (meshNames host) P E → Leaves (fun r => r.2.Holds (meshNames host) P E)
        (m.send env name fromSeed amount toSeed) := by
    intro m env name fromSeed amount toSeed hm
    rw [Mesh.send_eq]
    exact hm.sendTo hkeeps fun _ _ _ hn hcall => hupholds.sendTo (.inl hoperator) hn hcall
  unfold operate
  dsimp only
  split
  · apply (h.mesh.produceEmpty hkeeps (envs 0) (app.nodeIn q)).said.bind
    rintro ⟨_, m⟩ hm
    exact h.of_mesh hm
  · apply (leaves_lift (parseU64 q "from" 1)).bind
    intro fromSeed _
    apply (leaves_lift (parseU64 q "amount" 50)).bind
    intro amount _
    apply (leaves_lift (parseU64 q "to" 2)).bind
    intro toSeed _
    apply (hsend (envs 0) (app.nodeIn q) fromSeed amount toSeed h.mesh).said.bind
    rintro ⟨_, m⟩ hm
    exact h.of_mesh hm
  · apply (leaves_lift (parseU64 q "from" 1)).bind
    intro fromSeed _
    apply (leaves_lift (parseU64 q "amount" 50)).bind
    intro amount _
    apply (leaves_lift (parseU64 q "to" 2)).bind
    intro toSeed _
    apply (h.mesh.pool hkeeps fun _ _ _ hn hcall =>
      hupholds.pool hoperator hn hcall).said.bind
    rintro ⟨_, m⟩ hm
    exact h.of_mesh hm
  · apply (Mesh.attempt_leaves h.mesh (hsend (envs 0) "alpha" 1 atom 2 h.mesh)).infallible.bind
    intro m hm
    apply (Mesh.attempt_leaves hm (hsend (envs 1) "beta" 1 atom 3 hm)).infallible.bind
    intro m' hm'
    exact h.of_mesh hm'
  · apply (forkAll_leaves hkeeps envs app.mesh.names h.mesh 0).infallible.bind
    intro m hm
    exact h.of_mesh hm
  · exact { h with }
  · apply (leaves_lift (required q "addr" "addr required")).bind
    intro text _
    apply (leaves_lift (parseAddr text)).bind
    intro addr _
    cases hlookup : app.mesh.nodes.lookup (app.nodeIn q) with
    | none => exact trivial
    | some n =>
        have hn := hupholds.setMiner hoperator addr (h.mesh.nodes hlookup)
        exact h.of_mesh (h.mesh.insert (h.mesh.of_lookup hlookup) hn)
  · exact h

omit [Crypto] in
theorem submits_of {q : Query} {a b c : String} {sender recipient : Address} {amount : U64}
    {sig : Bytes 64} (ha : required q "from" "from address required" = .ok a)
    (hsender : parseAddr a = .ok sender) (hb : required q "to" "to address required" = .ok b)
    (hrecipient : parseAddr b = .ok recipient) (hamount : parseU64 q "amount" 0 = .ok amount)
    (hc : required q "sig" "sig required" = .ok c) (hsig : parseSig c = .ok sig) :
    Submits q sender amount recipient sig := by
  have hlookup : ∀ {key message s : String}, required q key message = .ok s →
      q.lookup key = some s := by
    intro key message s h
    unfold required at h
    split at h
    · cases h
    · rename_i heq
      rw [heq, Except.ok.inj h]
  refine ⟨?_, ?_, hamount, ?_⟩
  · rw [hlookup ha, Option.map_some, hsender]
  · rw [hlookup hb, Option.map_some, hrecipient]
  · rw [hlookup hc, Option.map_some, hsig]

/-- The end of an action whose work is done. -/
theorem return_drained_leaves (hkeeps : Keeps P E) (h : Up host P E app) (body : String)
    (files : F) : Leaves (fun r => Up host P E r.2.1)
      ((do return (body, ← app.drained envs, files)) : Outcome String (String × Explorer × F)) := by
  apply (drained_leaves hkeeps h).bind
  intro app' happ'
  exact happ'

theorem produceAction_leaves (hkeeps : Keeps P E) (h : Up host P E app) (files : F) (q : Query) :
    Leaves (fun r => Up host P E r.2.1) (app.produceAction envs files q) := by
  unfold produceAction
  apply (h.mesh.produce hkeeps (envs 0 0) (app.nodeIn q)).said.bind
  rintro ⟨produced, m⟩ hm
  cases produced with
  | some id => exact return_drained_leaves hkeeps (h.of_mesh hm) okBody files
  | none =>
      dsimp only
      split
      · exact trivial
      apply (hm.produceEmpty hkeeps (envs 0 1) (app.nodeIn q)).said.bind
      rintro ⟨_, m'⟩ hm'
      exact return_drained_leaves hkeeps (h.of_mesh hm') okBody files

theorem resetAction_leaves (hupholds : Upholds host P E) (h : Up host P E app) (files : F) :
    Leaves (fun r => Up host P E r.2.1) (app.resetAction host envs files) := by
  have hkeeps := hupholds.toKeeps
  unfold resetAction
  split
  · exact trivial
  rename_i hreset
  have hflag : host.flag "KOVANICA_ALLOW_RESET" false = true := by
    rw [← h.allowReset]
    simpa using hreset
  apply (bootPersist_leaves hkeeps (hupholds.boots hflag) app.listen _ _).infallible.bind
  rintro ⟨app', files'⟩ happ'
  exact return_drained_leaves hkeeps happ' okBody files'

theorem prepareAction_leaves (hkeeps : Keeps P E) (h : Up host P E app) (env : Env) (q : Query) :
    Leaves (fun _ => True) (app.prepareAction env q) := by
  unfold prepareAction
  apply (leaves_lift _).bind
  intro a _
  apply (leaves_lift _).bind
  intro sender _
  apply (leaves_lift _).bind
  intro b _
  apply (leaves_lift _).bind
  intro recipient _
  apply (leaves_lift _).bind
  intro amount _
  cases hlookup : app.mesh.nodes.lookup (app.nodeIn q) with
  | none => exact trivial
  | some n =>
      have hends : Outcome.Ends (fun _ => True) (fun e => OneLine e.display) OutOfRoom
          (n.prepareTransfer env sender amount recipient) :=
        Node.prepareTransfer_ends (hkeeps.plain (h.mesh.nodes hlookup)) sender amount recipient
      have hleaves : Leaves (fun _ => True) (n.prepareTransfer env sender amount recipient) :=
        hends.imp (fun _ _ => trivial) fun _ => Or.inl
      apply hleaves.said.bind
      intro p _
      exact trivial

theorem submitAction_leaves (hkeeps : Keeps P E) (h : Up host P E app) (files : F) {q : Query}
    (htakes : Takes P q) :
    Leaves (fun r => Up host P E r.2.1) (app.submitAction envs files q) := by
  unfold submitAction
  apply (leaves_lift _).bind
  intro a ha
  apply (leaves_lift _).bind
  intro sender hsender
  apply (leaves_lift _).bind
  intro b hb
  apply (leaves_lift _).bind
  intro recipient hrecipient
  apply (leaves_lift _).bind
  intro amount hamount
  apply (leaves_lift _).bind
  intro c hc
  apply (leaves_lift _).bind
  intro sig hsig
  have hsubmits := submits_of ha hsender hb hrecipient hamount hc hsig
  apply (h.mesh.submitSigned hkeeps fun _ _ _ hn hcall => htakes hsubmits hn hcall).said.bind
  rintro ⟨id, m⟩ hm
  apply (drained_leaves hkeeps (h.of_mesh hm)).bind
  intro app' happ'
  exact happ'

theorem faucetAction_leaves (hupholds : Upholds host P E) (h : Up host P E app) (files : F)
    (q : Query) : Leaves (fun r => Up host P E r.2.1) (app.faucetAction envs files q) := by
  have hkeeps := hupholds.toKeeps
  unfold faucetAction
  split
  · exact trivial
  rename_i hfaucet
  have hflag : host.flag "KOVANICA_FAUCET" false = true := by
    rw [← h.faucet]
    simpa using hfaucet
  apply (leaves_lift _).bind
  intro b _
  apply (leaves_lift _).bind
  intro recipient _
  apply (leaves_lift _).bind
  intro amount _
  apply (h.mesh.sendTo hkeeps fun _ _ _ hn hcall =>
    hupholds.sendTo (.inr hflag) hn hcall).said.bind
  rintro ⟨block, m⟩ hm
  apply (drained_leaves hkeeps (h.of_mesh hm)).bind
  intro app' happ'
  exact happ'

theorem dispatch_leaves (hupholds : Upholds host P E) (h : Up host P E app) (files : F)
    (action : String) (q : Query) (htakes : action = "submit" → Takes P q) :
    Leaves (fun r => Up host P E r.2.1) (app.dispatch host envs files action q) := by
  have hkeeps := hupholds.toKeeps
  unfold dispatch
  split
  · split
    · exact trivial
    rename_i hoperator
    have hflag : host.flag "KOVANICA_OPERATOR" false = true := by
      rw [← h.operator]
      simpa using hoperator
    apply (operate_leaves hupholds hflag h (envs 0) action q).bind
    rintro ⟨body, app'⟩ happ'
    cases body with
    | some body => exact happ'
    | none => exact return_drained_leaves hkeeps happ' okBody files
  split
  · exact produceAction_leaves hkeeps h files q
  · exact resetAction_leaves hupholds h files
  · apply (prepareAction_leaves hkeeps h (envs 0 0) q).bind
    intro body _
    exact h
  · exact submitAction_leaves hkeeps h files (htakes rfl)
  · exact faucetAction_leaves hupholds h files q
  · exact trivial

/-! ## Answers -/

theorem nodeJson_leaves {n : Node} (hn : n.Plain) (env : Env) :
    Leaves (fun _ => True) (nodeJson env n) := by
  unfold nodeJson
  cases hl : n.ledger with
  | none => exact trivial
  | some l =>
      dsimp only
      rw [(hn l hl).unbounded.ledgerState]
      exact trivial

theorem walletsJson_leaves {n : Node} (hn : n.Plain) (env : Env) :
    Leaves (fun _ => True) (walletsJson env n) := by
  have hwallet : ∀ seed ∈ actors, Leaves (fun _ => True) (walletJson env n seed) := by
    intro seed _
    have hbalance : Outcome.Ends (fun _ => True) (fun e => OneLine e.display) OutOfRoom
        (n.balance env (Node.address seed)) := Node.balance_ends hn (Node.address seed)
    unfold walletJson
    dsimp only
    cases hcall : n.balance env (Node.address seed) with
    | ok balance => exact trivial
    | error e =>
        rw [hcall] at hbalance
        cases e with
        | error e => exact trivial
        | panic site => exact .inl hbalance
  apply (Leaves.mapM hwallet).bind
  intro rows _
  exact trivial

theorem snapshotBody_leaves (hkeeps : Keeps P E) (h : Up host P E app) (env : Env) :
    Leaves (fun _ => True) (app.snapshotBody env) := by
  obtain ⟨n, hn⟩ := Finmap.mem_iff.1 (h.mesh.mem_iff.2 h.selected)
  have hplain := hkeeps.plain (h.mesh.nodes hn)
  unfold snapshotBody
  rw [hn]
  dsimp only
  apply (nodeJson_leaves hplain env).bind
  intro node _
  apply (walletsJson_leaves hplain env).bind
  intro wallets _
  exact trivial

theorem history_leaves {n : Node} (hn : n.Plain) (env : Env) (addr : Address) :
    Leaves (fun _ => True) (history env n addr) := by
  have hends : Outcome.Ends (fun _ => True) (fun e : NodeError => OneLine e.display) OutOfRoom
      (history env n addr) := by
    unfold history
    apply n.ledger?_ends.bind
    intro l hl
    apply (Node.balance_ends hn addr).bind
    intro balance _
    exact trivial
  exact hends.imp (fun _ _ => trivial) fun _ => Or.inl

theorem nodeFor_leaves (hkeeps : Keeps P E) (h : Up host P E app) (q : Query) :
    Leaves (fun n => n.Plain) (Rpc.lift (app.nodeFor q)) := by
  unfold nodeFor
  cases hlookup : app.mesh.nodes.lookup (app.nodeIn q) with
  | none => exact trivial
  | some n => exact hkeeps.plain (h.mesh.nodes hlookup)

theorem historyBody_leaves (hkeeps : Keeps P E) (h : Up host P E app) (env : Env) (q : Query) :
    Leaves (fun _ => True) (app.historyBody env q) := by
  unfold historyBody
  apply (leaves_lift _).bind
  intro a _
  apply (leaves_lift _).bind
  intro addr _
  apply (nodeFor_leaves hkeeps h q).bind
  intro n hn
  apply (history_leaves hn env addr).said.bind
  intro history _
  exact trivial

theorem utxosBody_leaves (hkeeps : Keeps P E) (h : Up host P E app) (env : Env) (q : Query) :
    Leaves (fun _ => True) (app.utxosBody env q) := by
  have hroom : ∀ {α : Type} {call : Outcome NodeError α},
      Outcome.Ends (fun _ => True) (fun e => OneLine e.display) OutOfRoom call →
      Leaves (fun _ => True) call :=
    fun hends => hends.imp (fun _ _ => trivial) fun _ => Or.inl
  unfold utxosBody
  apply (leaves_lift _).bind
  intro a _
  apply (leaves_lift _).bind
  intro addr _
  apply (nodeFor_leaves hkeeps h q).bind
  intro n hn
  apply (hroom (Node.balance_ends hn addr)).said.bind
  intro balance _
  apply (hroom (Node.utxosOf_ends hn addr)).said.bind
  intro rows _
  exact trivial

/-- The statuses the process answers with. -/
def Response.Coded (r : Response) : Prop := r.code = 200 ∨ r.code = 400 ∨ r.code = 404

/-- A request is answered, and leaves the process as it should be. -/
def Answers (host : Host F) (P : String → Node → Prop) (E : Envelope → Prop)
    (handled : Handled F) : Prop :=
  handled.response.Coded ∧ Up host P E handled.app

omit [Crypto] in
theorem answer_leaves (h : Up host P E app) (files : F) {body : Outcome String String}
    (hbody : Leaves (fun _ => True) body) :
    Leaves (Answers host P E) (answer app files body) := by
  cases body with
  | ok text => exact ⟨.inl rfl, h⟩
  | error e =>
      cases e with
      | error e => exact ⟨.inr (.inl rfl), h⟩
      | panic site => exact hbody

omit [Crypto] in
theorem page_coded {method path : String} {r : Response} (h : page host method path = some r) :
    r.Coded := by
  unfold page at h
  repeat' split at h
  all_goals cases h
  all_goals exact .inl rfl

theorem ask_leaves (hkeeps : Keeps P E) (h : Up host P E app) (env : Env) (files : F)
    (path : String) (q : Query) : Leaves (Answers host P E) (app.ask env files path q) := by
  unfold ask
  split
  · exact ⟨.inl rfl, h⟩
  · have hselected := h.selectIn q
    apply (snapshotBody_leaves hkeeps hselected env).bind
    intro body _
    exact ⟨.inl rfl, hselected⟩
  · split
    · exact ⟨.inr (.inr rfl), h⟩
    · exact ⟨.inl rfl, h⟩
  · exact answer_leaves h files (historyBody_leaves hkeeps h env q)
  · exact answer_leaves h files (utxosBody_leaves hkeeps h env q)
  · exact ⟨.inr (.inr rfl), h⟩

theorem act_leaves (hupholds : Upholds host P E) (h : Up host P E app) (files : F)
    (path : String) (q : Query)
    (htakes : String.ofList (trimApi path.toList) = "submit" → Takes P q) :
    Leaves (Answers host P E) (app.act host envs files path q) := by
  have hselected := h.selectIn q
  have hdispatch : Leaves (fun r => Up host P E r.2.1) ((app.selectIn q).dispatch host
      (fun i => envs (i + 1)) files (String.ofList (trimApi path.toList)) q) :=
    dispatch_leaves hupholds hselected files _ q htakes
  unfold act
  dsimp only
  split
  · rename_i body app' files' heq
    rw [heq] at hdispatch
    exact ⟨.inl rfl, hdispatch⟩
  · exact ⟨.inr (.inl rfl), hselected⟩
  · rename_i site heq
    rw [heq] at hdispatch
    exact hdispatch

theorem handle_leaves (hupholds : Upholds host P E) (h : Up host P E app) (files : F)
    (req : String) (hsuits : Event.Suits P E (.request req)) :
    Leaves (Answers host P E) (app.handle host envs files req) := by
  have hsubmit : (readRequest req).Asks "submit" → Takes P (readRequest req).query := hsuits
  unfold handle
  rcases hread : readRequest req with ⟨method, path, q⟩
  rw [hread] at hsubmit
  dsimp only at hsubmit ⊢
  cases hpage : page host method path with
  | some response => exact ⟨page_coded hpage, h⟩
  | none =>
      dsimp only
      by_cases hget : method = "GET"
      · rw [if_pos hget]
        exact ask_leaves hupholds.toKeeps h (envs 0 0) files path q
      rw [if_neg hget]
      by_cases hpost : method = "POST" ∧ isApi path = true
      · rw [if_pos hpost]
        obtain ⟨hmethod, hapi⟩ := hpost
        exact act_leaves hupholds h files path q fun haction => hsubmit ⟨hmethod, hapi, haction⟩
      · rw [if_neg hpost]
        exact ⟨.inr (.inr rfl), h⟩

/-! ## Rounds -/

/-- What a round leaves: an answer to a request, and none to a tick. -/
def Event.Answered : Event → Option Response → Prop
  | .request _, some r => r.Coded
  | .tick _, none => True
  | _, _ => False

theorem round_leaves (hupholds : Upholds host P E) (h : Up host P E app) (files : F)
    {event : Event} (hsuits : event.Suits P E) :
    Leaves (fun r => event.Answered r.1 ∧ Up host P E r.2.1) (app.round host envs files event) := by
  cases event with
  | request text =>
      unfold round
      apply (handle_leaves hupholds h files text hsuits).bind
      rintro ⟨response, app', files'⟩ ⟨hcoded, happ'⟩
      exact ⟨hcoded, happ'⟩
  | tick traffic =>
      unfold round
      apply (tick_leaves hupholds.toKeeps h hsuits files).bind
      rintro ⟨written, app', files'⟩ happ'
      exact ⟨trivial, happ'⟩

/-- How many answers the events ask for: one for each request. -/
def requests (events : List ((Nat → Nat → Env) × Event)) : Nat :=
  events.countP fun e => match e.2 with
    | .request _ => true
    | .tick _ => false

/-- The answers given to some events, and how the loop was left.  A loop that was not left early
has gone through all events, with one answer for each request among them. -/
structure Served (host : Host F) (P : String → Node → Prop) (E : Envelope → Prop)
    (events : List ((Nat → Nat → Env) × Event))
    (run : List Response × Outcome Empty (Explorer × F)) : Prop where
  coded : ∀ r ∈ run.1, r.Coded
  left : Leaves (fun after => Up host P E after.1) run.2
  answered : ∃ served rest, events = served ++ rest ∧ run.1.length = requests served ∧
    ∀ after, run.2 = .ok after → rest = []

omit [Crypto] in
theorem Event.Answered.count {event : Event} {response : Option Response}
    (h : event.Answered response) (e : Nat → Nat → Env) :
    response.toList.length = requests [(e, event)] ∧ ∀ r ∈ response.toList, r.Coded := by
  cases event with
  | request text =>
      cases response with
      | none => exact h.elim
      | some r =>
          refine ⟨rfl, fun r' hr' => ?_⟩
          obtain rfl := List.mem_singleton.1 hr'
          exact h
  | tick traffic =>
      cases response with
      | none => exact ⟨rfl, fun _ hr => absurd hr List.not_mem_nil⟩
      | some r => exact h.elim

theorem rounds_served (hupholds : Upholds host P E) {events : List ((Nat → Nat → Env) × Event)}
    (hsuits : ∀ e ∈ events, e.2.Suits P E) (h : Up host P E app) (files : F) :
    Served host P E events (rounds host events app files) := by
  induction events generalizing app files with
  | nil =>
      refine ⟨fun _ hr => absurd hr List.not_mem_nil, h, [], [], rfl, rfl, fun _ _ => rfl⟩
  | cons event rest ih =>
      obtain ⟨envs, event⟩ := event
      obtain ⟨hsuit, hrest⟩ := List.forall_mem_cons.1 hsuits
      have hround : Leaves _ (app.round host envs files event) :=
        round_leaves hupholds h files hsuit
      rw [rounds]
      cases hcall : app.round host envs files event with
      | error e =>
          rw [hcall] at hround
          refine ⟨fun _ hr => absurd hr List.not_mem_nil, ?_, [], (envs, event) :: rest, rfl, rfl,
            fun _ hok => by cases hok⟩
          cases e with
          | error e => exact e.elim
          | panic site => exact hround
      | ok r =>
          rw [hcall] at hround
          obtain ⟨response, app', files'⟩ := r
          obtain ⟨hanswered, happ'⟩ := hround
          obtain ⟨hcount, hcoded⟩ := hanswered.count envs
          obtain ⟨hcodes, hleft, served, unserved, hsplit, hlength, hall⟩ := ih hrest happ' files'
          refine ⟨fun r hr => ?_, hleft, (envs, event) :: served, unserved, ?_, ?_, hall⟩
          · rcases List.mem_append.1 hr with hfirst | hlater
            · exact hcoded r hfirst
            · exact hcodes r hlater
          · rw [hsplit, List.cons_append]
          · show (response.toList ++ _).length = _
            rw [List.length_append, hcount, hlength]
            unfold requests
            rw [← List.countP_append]
            rfl

/-! ## The process -/

theorem Running.of_ledger {n n' : Node} (h : Running n) (hreach : n'.Reachable)
    (hkept : n'.ledger = n.ledger) : Running n' :=
  ⟨hreach, hkept ▸ h.ledger⟩

theorem Running.of_produced {n n' : Node} (hreach : n'.Reachable) {id : BlockId}
    (h : Node.Produced n n' id) : Running n' := by
  obtain ⟨_, _, l', _, _, _, hledger⟩ := h
  exact ⟨hreach, l', hledger⟩

theorem Running.receiveBlock {n n' : Node} (h : Running n) {env : Env} {record : BlockRecord}
    {id : BlockId} (hcall : n.receiveBlock env record = .ok (id, n')) : Running n' := by
  rcases Node.receiveBlock_cases hcall with rfl | hproduced
  · exact h
  · exact .of_produced (h.reachable.receiveBlock hcall) hproduced

theorem Running.submitTx {n n' : Node} (h : Running n) {tx : Transaction} {id : TxId}
    (hcall : n.submitTx tx = .ok (id, n')) : Running n' :=
  h.of_ledger (h.reachable.submitTx hcall) (Node.submitTx_kept hcall).1

theorem Running.submitSigned {n n' : Node} (h : Running n) {env : Env} {sender : Address}
    {amount : U64} {recipient : Address} {sig : Bytes 64} {id : TxId}
    (hcall : n.submitSigned env sender amount recipient sig = .ok (id, n')) : Running n' :=
  h.of_ledger (h.reachable.submitSigned hcall) (Node.submitSigned_kept hcall).1

theorem Running.pool {n n' : Node} (h : Running n) {env : Env} {fromSeed amount toSeed : U64}
    {id : TxId} (hcall : n.pool env fromSeed amount toSeed = .ok (id, n')) : Running n' :=
  h.of_ledger (h.reachable.pool hcall) (Node.pool_kept hcall).1

theorem Running.setMiner {n : Node} (h : Running n) (addr : Address) : Running (n.setMiner addr) :=
  h.of_ledger (h.reachable.setMiner addr) rfl

theorem Running.produceBlock {n n' : Node} (h : Running n) {env : Env} {id : Option BlockId}
    (hcall : n.produceBlock env = .ok (id, n')) : Running n' := by
  have hcases := Node.produceBlock_cases hcall
  cases id with
  | none =>
      obtain rfl : n' = n := hcases
      exact h
  | some id => exact .of_produced (h.reachable.produceBlock hcall) hcases

theorem Running.produceEmpty {n n' : Node} (h : Running n) {env : Env} {id : BlockId}
    (hcall : n.produceEmpty env = .ok (id, n')) : Running n' :=
  .of_produced (h.reachable.produceEmpty hcall) (Node.produceEmpty_produced hcall)

theorem Running.sendTo {n n' : Node} (h : Running n) {env : Env} {fromSeed amount : U64}
    {target : Address} {sent : Sent}
    (hcall : n.sendTo env fromSeed amount target = .ok (sent, n')) : Running n' :=
  .of_produced (h.reachable.sendTo hcall) (Node.sendTo_produced hcall)

/-- Nodes that run are upheld whatever the flags of the host allow. -/
theorem upholds_running (host : Host F) : Upholds host (fun _ => Running) fun _ => True where
  plain := fun h => h.reachable.isPlain
  hello := fun _ => trivial
  receive := fun h _ hcall => h.receiveBlock hcall
  submit := fun h _ hcall => h.submitTx hcall
  produce := fun h hcall => h.produceBlock hcall
  produceEmpty := fun h hcall => h.produceEmpty hcall
  record := fun _ _ => trivial
  pending := fun _ _ => trivial
  sendTo := fun _ _ _ _ _ _ _ _ _ h hcall => h.sendTo hcall
  pool := fun _ _ _ _ _ _ _ _ _ h hcall => h.pool hcall
  setMiner := fun _ _ _ addr h => h.setMiner addr
  boots := fun _ env files name => loadOrGenesis_leaves host env files name

theorem suits_running (event : Event) : event.Suits (fun _ => Running) fun _ => True := by
  cases event with
  | request text =>
      intro _ sender amount recipient sig _ name n n' env id h hcall
      exact h.submitSigned hcall
  | tick traffic => exact fun _ _ _ _ _ _ _ => trivial

/-- Any run of the process, if booting gives nodes that are upheld. -/
theorem serve_served (hupholds : Upholds host P E) (hboots : ∀ env files name,
    Leaves (P name) (loadOrGenesis host env files name))
    {events : List ((Nat → Nat → Env) × Event)} (hsuits : ∀ e ∈ events, e.2.Suits P E)
    (envs : Nat → Nat → Env) (files : F) :
    Served host P E events (serve host envs files events) := by
  have hboot := bootPersist_leaves hupholds.toKeeps hboots false envs files
  unfold serve
  cases hcall : bootPersist host false envs files with
  | error e =>
      rw [hcall] at hboot
      refine ⟨fun _ hr => absurd hr List.not_mem_nil, ?_, [], events, rfl, rfl, fun _ hok => by
        cases hok⟩
      cases e with
      | error e => exact e.elim
      | panic site => exact hboot
  | ok r =>
      rw [hcall] at hboot
      exact rounds_served hupholds hsuits hboot r.2

theorem serve_running (host : Host F) (envs : Nat → Nat → Env) (files : F)
    (events : List ((Nat → Nat → Env) × Event)) :
    Served host (fun _ => Running) (fun _ => True) events (serve host envs files events) :=
  serve_served (upholds_running host) (loadOrGenesis_leaves host)
    (fun e _ => suits_running e.2) envs files

/-- Whatever is in the files, whatever is asked and whatever peers send before they close, every
request is answered, and the process stops only for want of room or of a nonce.  Where it goes
on, every node of the mesh has a ledger, and the selected one is among them.  This is so in a
build without overflow checks. -/
theorem serve_stays_up (host : Host F) (envs : Nat → Nat → Env) (files : F)
    (events : List ((Nat → Nat → Env) × Event)) :
    (∀ r ∈ (serve host envs files events).1, r.Coded) ∧
      Leaves (fun after => Up host (fun _ => Running) (fun _ => True) after.1)
        (serve host envs files events).2 ∧
      ∃ served rest, events = served ++ rest ∧
        (serve host envs files events).1.length = requests served ∧
        ∀ after, (serve host envs files events).2 = .ok after → rest = [] := by
  have hserved := serve_running host envs files events
  exact ⟨hserved.coded, hserved.left, hserved.answered⟩

end Explorer

end Kovanica
