import Kovanica.Node.Retention
import Kovanica.Node.Wallet

/-!
# How transactions come in

A transaction that a node of the explorer holds was there when the process had booted, or
is the reward of a block that a node produced, or a peer sent it, or a request submitted
it with a signature that the sender's key verifies.  Only the flags of the process add to
this: an operator or a faucet has it sign with the keys of seeds, and a reset loads what
the files hold.

## Main results

* `Has.of_offer`, `Has.of_kept`, `Has.of_produceBlock`: where the transactions of a node come
  from, call by call.
* `up_admitted`, `rounds_admitted`: the booted process, and its rounds.
-/

namespace Kovanica

open Lib

variable {F : Type} [Crypto]

/-! ## What is held -/

/-- The node stores the transaction in a block or has it pending. -/
def Node.Has (n : Node) (tx : Transaction) : Prop :=
  (∃ id record, n.blockRecord id = some record ∧ tx ∈ record.txs.val) ∨
    ∃ id, n.mempool.get id = some tx

def Envelope.Has (held : Transaction) : Envelope → Prop
  | .hello _ => False
  | .block record => held ∈ record.txs.val
  | .tx sent => held = sent

/-- A node of the mesh has the transaction, or a letter that is under way. -/
def Mesh.Has (m : Mesh) (tx : Transaction) : Prop :=
  (∃ name n, m.nodes.lookup name = some n ∧ n.Has tx) ∨ ∃ q ∈ m.queue, q.envelope.Has tx

/-- A payment out of one output that the sender's key signs. -/
def Transfer (sender : Address) (amount : U64) (recipient : Address) (sig : Bytes 64)
    (tx : Transaction) : Prop :=
  ∃ op change, tx = (payment op amount recipient change sender).attachSignature 0 sig ∧
    verify sender (payment op amount recipient change sender).sighash sig = true

namespace Node

variable {env : Env} {n n' : Node} {l l' : Ledger} {tx : Transaction}

/-- What a node with a ledger has is in a stored block of it or pending. -/
theorem has_iff (hl : l.WellFormed) (hledger : n.ledger = some l) : n.Has tx ↔
    (∃ x ∈ l.dag.nodes, tx ∈ l.dag.blockTxs x) ∨ ∃ id, n.mempool.get id = some tx := by
  refine or_congr_left ⟨?_, ?_⟩
  · rintro ⟨id, record, hrecord, htx⟩
    have hstored := stored_of_blockRecord hledger hrecord
    obtain ⟨found, hfound, htxs⟩ := Explorer.exists_record hledger hl hstored
    obtain rfl := Option.some.inj (hrecord.symm.trans hfound)
    exact ⟨id, hstored, htxs ▸ htx⟩
  · rintro ⟨x, hx, htx⟩
    obtain ⟨record, hrecord, htxs⟩ := Explorer.exists_record hledger hl hx
    exact ⟨x, record, hrecord, htxs ▸ htx⟩

/-- A block more gives a node the transactions of the block. -/
theorem Has.of_offer (hl : l.WellFormed) (hledger : n.ledger = some l) {o : Offer} {id : BlockId}
    (hoffer : l.offer o = .ok (id, l')) (hledger' : n'.ledger = some l')
    (hpending : ∀ id tx, n'.mempool.get id = some tx → n.mempool.get id = some tx)
    (h : n'.Has tx) : n.Has tx ∨ tx ∈ o.txs.val := by
  have hstep : Ledger.Step l (.offer o) l' := .accepted hoffer
  obtain ⟨hnodes, hblock⟩ := Ledger.offer_nodes hoffer
  rcases (has_iff (hstep.wellFormed hl) hledger').1 h with ⟨x, hx, htx⟩ | ⟨id, hid⟩
  · rcases (hnodes x).1 hx with rfl | hold
    · have htxs : l'.dag.blockTxs o.block.id = o.txs.val := by
        apply Ledger.blockTxs_of_payload
        rw [hblock]
        rfl
      exact .inr (htxs ▸ htx)
    · obtain ⟨_, htxs, _⟩ := hstep.keeps hl hold
      exact .inl ((has_iff hl hledger).2 (.inl ⟨x, hold, htxs ▸ htx⟩))
  · exact .inl (.inr ⟨id, hpending id tx hid⟩)

omit [Crypto] in
/-- A node that only gains pending transactions has them besides. -/
theorem Has.of_kept (hledger : n'.ledger = n.ledger) {S : Set Transaction}
    (hpending : ∀ id tx, n'.mempool.get id = some tx → n.mempool.get id = some tx ∨ tx ∈ S)
    (h : n'.Has tx) : n.Has tx ∨ tx ∈ S := by
  rcases h with ⟨id, record, hrecord, htx⟩ | ⟨id, hid⟩
  · have hsame : n'.blockRecord id = n.blockRecord id := by
      rw [blockRecord, blockRecord, hledger]
    exact .inl (.inl ⟨id, record, hsame ▸ hrecord, htx⟩)
  · exact (hpending id tx hid).imp_left fun hold => .inr ⟨id, hold⟩

/-! ## What a call adds -/

theorem Has.of_receiveBlock (hn : n.Reachable) {record : BlockRecord} {id : BlockId}
    (hcall : n.receiveBlock env record = .ok (id, n')) (h : n'.Has tx) :
    n.Has tx ∨ tx ∈ record.txs.val := by
  obtain ⟨l, hledger, ⟨_, rfl⟩ | ⟨l', hoffer, hevict⟩⟩ := receiveBlock_eq_ok hcall
  · exact .inl h
  · obtain ⟨hledger', _, _, hpending⟩ := evictMempool_mempool hevict
    exact h.of_offer (hn.wellFormed hledger) hledger hoffer hledger' hpending

theorem Has.of_extendTips (hn : n.Reachable) (hledger : n.ledger = some l)
    {txsAt : U64 → List Transaction} {included : List TxId} {id : BlockId}
    (hcall : n.extendTips env l txsAt included = .ok (id, n')) (h : n'.Has tx) :
    n.Has tx ∨ ∃ timestamp, tx ∈ txsAt timestamp := by
  obtain ⟨parents, txs, nonce, l', _, htxs, _, hoffer, hevict⟩ := extendTips_eq_ok hcall
  obtain ⟨hledger', _, _, hpending⟩ := evictMempool_mempool hevict
  have hold : ∀ id tx, n'.mempool.get id = some tx → n.mempool.get id = some tx := by
    intro id tx hid
    have hleft := hpending id tx hid
    rw [Mempool.get_removeAll] at hleft
    split at hleft
    · cases hleft
    · exact hleft
  refine (h.of_offer (hn.wellFormed hledger) hledger hoffer hledger' hold).imp_right fun htx => ?_
  exact ⟨_, val_of_ofList? htxs ▸ htx⟩

theorem Has.of_produceEmpty (hn : n.Reachable) {id : BlockId}
    (hcall : n.produceEmpty env = .ok (id, n')) (h : n'.Has tx) :
    n.Has tx ∨ ∃ timestamp, tx ∈ n.issuanceTxs timestamp 0 := by
  obtain ⟨l, hledger, hextend⟩ := Outcome.bind_eq_ok.1 hcall
  exact h.of_extendTips hn (ledger?_eq_ok.1 hledger) hextend

/-- A produced block holds its coinbase and what was pending. -/
theorem Has.of_produceBlock (hn : n.Reachable) {id : Option BlockId}
    (hcall : n.produceBlock env = .ok (id, n')) (h : n'.Has tx) :
    n.Has tx ∨ ∃ timestamp fees, tx ∈ n.issuanceTxs timestamp fees := by
  obtain ⟨l, hledger, hcall⟩ := Outcome.bind_eq_ok.1 hcall
  split at hcall
  · obtain ⟨rfl, rfl⟩ := Prod.mk.inj (Except.ok.inj hcall)
    exact .inl h
  obtain ⟨state, _, hcall⟩ := Outcome.bind_eq_ok.1 hcall
  simp only at hcall
  split at hcall
  · obtain ⟨rfl, rfl⟩ := Prod.mk.inj (Except.ok.inj hcall)
    exact .inl h
  obtain ⟨⟨block, n₁⟩, hextend, hret⟩ := Outcome.bind_eq_ok.1 hcall
  obtain ⟨rfl, rfl⟩ := Prod.mk.inj (Except.ok.inj hret)
  rcases h.of_extendTips hn (ledger?_eq_ok.1 hledger) hextend with hold | ⟨timestamp, htx⟩
  · exact .inl hold
  · rcases List.mem_append.1 htx with hcb | hselected
    · exact .inr ⟨timestamp, _, hcb⟩
    · have hpending := (selectValid_sublist _ _ _).subset hselected
      exact .inl (.inr (Mempool.mem_ordered.1 hpending))

theorem Has.of_submitTx {sent : Transaction} {id : TxId} (hcall : n.submitTx sent = .ok (id, n'))
    (h : n'.Has tx) : n.Has tx ∨ tx = sent := by
  refine h.of_kept (S := {tx | tx = sent}) (submitTx_kept hcall).1 fun id tx hid => ?_
  rw [submitTx] at hcall
  split at hcall
  · cases hcall
  obtain ⟨_, rfl⟩ := Prod.mk.inj (Except.ok.inj hcall)
  exact (Mempool.get_add hid).imp_right fun hnew => hnew.2.symm

theorem Has.of_sendTo (hn : n.Reachable) {fromSeed amount : U64} {target : Address} {sent : Sent}
    (hcall : n.sendTo env fromSeed amount target = .ok (sent, n')) (h : n'.Has tx) :
    n.Has tx ∨ n.buildTransferTo env fromSeed amount target = .ok tx := by
  obtain ⟨built, hbuilt, hcall⟩ := Outcome.bind_eq_ok.1 hcall
  obtain ⟨l, hledger, hcall⟩ := Outcome.bind_eq_ok.1 hcall
  obtain ⟨⟨block, n₁⟩, hextend, hret⟩ := Outcome.bind_eq_ok.1 hcall
  obtain ⟨rfl, rfl⟩ := Prod.mk.inj (Except.ok.inj hret)
  refine (h.of_extendTips hn (ledger?_eq_ok.1 hledger) hextend).imp_right ?_
  rintro ⟨_, htx⟩
  exact List.mem_singleton.1 htx ▸ hbuilt

theorem Has.of_pool {fromSeed amount toSeed : U64} {id : TxId}
    (hcall : n.pool env fromSeed amount toSeed = .ok (id, n')) (h : n'.Has tx) :
    n.Has tx ∨ n.buildTransferTo env fromSeed amount (address toSeed) = .ok tx := by
  refine h.of_kept (S := {tx | n.buildTransferTo env fromSeed amount (address toSeed) = .ok tx})
    (pool_kept hcall).1 fun id tx hid => ?_
  obtain ⟨built, hbuilt, hret⟩ := Outcome.bind_eq_ok.1 hcall
  obtain ⟨_, rfl⟩ := Prod.mk.inj (Except.ok.inj hret)
  rcases Mempool.get_add hid with hold | ⟨_, rfl⟩
  · exact .inl hold
  · exact .inr hbuilt

theorem prepareTransfer_payment {sender recipient : Address} {amount : U64} {prepared : Prepared}
    (h : n.prepareTransfer env sender amount recipient = .ok prepared) :
    ∃ op change, prepared.tx = payment op amount recipient change sender ∧
      prepared.sighash = prepared.tx.sighash := by
  unfold prepareTransfer at h
  simp only at h
  split at h
  · cases h
  split at h
  · obtain ⟨l, _, h⟩ := Outcome.bind_eq_ok.1 h
    obtain ⟨state, _, h⟩ := Outcome.bind_eq_ok.1 h
    split at h
    · rw [← Except.ok.inj h]
      exact ⟨_, _, rfl, rfl⟩
    · cases h
  · cases h

theorem Has.of_submitSigned {sender : Address} {amount : U64} {recipient : Address}
    {sig : Bytes 64} {id : TxId}
    (hcall : n.submitSigned env sender amount recipient sig = .ok (id, n')) (h : n'.Has tx) :
    n.Has tx ∨ Transfer sender amount recipient sig tx := by
  obtain ⟨prepared, hprepared, hcall⟩ := Outcome.bind_eq_ok.1 hcall
  simp only at hcall
  split at hcall
  · cases hcall
  rename_i hverify
  obtain ⟨op, change, htx, hsighash⟩ := prepareTransfer_payment hprepared
  rw [hsighash, htx] at hverify
  refine (h.of_submitTx hcall).imp_right fun hsent => ⟨op, change, ?_, ?_⟩
  · rw [hsent, htx]
  · simpa using hverify

end Node

namespace Explorer

/-! ## Admission -/

/-- The event brings the transaction from outside: in a block that a peer sends, or as a
transfer that is submitted with its signature. -/
def Event.Brings (tx : Transaction) : Event → Prop
  | .request text => (readRequest text).Asks "submit" ∧ ∃ sender amount recipient sig,
      Submits (readRequest text).query sender amount recipient sig ∧
        Transfer sender amount recipient sig tx
  | .tick traffic => ∃ i bytes records, traffic.streams i = .ok bytes ∧
      decodeRecords bytes = .ok records ∧ ∃ record ∈ records, tx ∈ record.txs.val

section Lived

variable (host : Host F) (booted : Explorer) (events : List ((Nat → Nat → Env) × Event))

mutual

/-- The nodes that a process which had booted to this state has under a name while it meets
these events: those of the mesh it had booted with, and what the calls of a mesh make of
them, each with a letter of the run, an argument of its requests or a flag of its host. -/
inductive Lived : String → Node → Prop
  | booted {name : String} {n : Node} : booted.mesh.nodes.lookup name = some n → Lived name n
  | receive {name : String} {n n' : Node} {env : Env} {record : BlockRecord} {id : BlockId} :
      Lived name n → Posted (.block record) → n.receiveBlock env record = .ok (id, n') →
      Lived name n'
  | submit {name : String} {n n' : Node} {tx : Transaction} {id : TxId} : Lived name n →
      Posted (.tx tx) → n.submitTx tx = .ok (id, n') → Lived name n'
  | submitSigned {name : String} {n n' : Node} {env : Env} {envs : Nat → Nat → Env}
      {text : String} {sender recipient : Address} {amount : U64} {sig : Bytes 64} {id : TxId} :
      Lived name n → (envs, .request text) ∈ events → (readRequest text).Asks "submit" →
      Submits (readRequest text).query sender amount recipient sig →
      n.submitSigned env sender amount recipient sig = .ok (id, n') → Lived name n'
  | produce {name : String} {n n' : Node} {env : Env} {id : Option BlockId} : Lived name n →
      n.produceBlock env = .ok (id, n') → Lived name n'
  | produceEmpty {name : String} {n n' : Node} {env : Env} {id : BlockId} : Lived name n →
      n.produceEmpty env = .ok (id, n') → Lived name n'
  | sendTo {name : String} {n n' : Node} {env : Env} {fromSeed amount : U64} {target : Address}
      {sent : Sent} :
      host.flag "KOVANICA_OPERATOR" false = true ∨ host.flag "KOVANICA_FAUCET" false = true →
      Lived name n → n.sendTo env fromSeed amount target = .ok (sent, n') → Lived name n'
  | pool {name : String} {n n' : Node} {env : Env} {fromSeed amount toSeed : U64} {id : TxId} :
      host.flag "KOVANICA_OPERATOR" false = true → Lived name n →
      n.pool env fromSeed amount toSeed = .ok (id, n') → Lived name n'
  | setMiner {name : String} {n : Node} (addr : Address) :
      host.flag "KOVANICA_OPERATOR" false = true → Lived name n → Lived name (n.setMiner addr)
  | reset {name : String} {n : Node} {env : Env} {files : F} :
      host.flag "KOVANICA_ALLOW_RESET" false = true →
      loadOrGenesis host env files name = .ok n → Lived name n

/-- The letters of the same run: those under way when the process had booted, what its nodes
give out, and the blocks of its peers' streams. -/
inductive Posted : Envelope → Prop
  | booted {q : Queued} : q ∈ booted.mesh.queue → Posted q.envelope
  | hello (advertised : List String) : Posted (.hello advertised)
  | record {name : String} {n : Node} {id : BlockId} {record : BlockRecord} : Lived name n →
      n.blockRecord id = some record → Posted (.block record)
  | pending {name : String} {n : Node} {id : TxId} {tx : Transaction} : Lived name n →
      n.mempool.get id = some tx → Posted (.tx tx)
  | streamed {envs : Nat → Nat → Env} {traffic : Traffic} {i : Nat} {bytes : List U8}
      {records : List BlockRecord} {record : BlockRecord} : (envs, .tick traffic) ∈ events →
      traffic.streams i = .ok bytes → decodeRecords bytes = .ok records → record ∈ records →
      Posted (.block record)

end

/-- How a transaction may get to a process that had booted to this state and met these
events. -/
inductive Admitted (tx : Transaction) : Prop
  | minted {env : Env} {name : String} {n n' : Node} {timestamp fees : U64} :
      Lived host booted events name n →
      (∃ id, n.produceBlock env = .ok (id, n')) ∨ (∃ id, n.produceEmpty env = .ok (id, n')) →
      n'.Has tx → tx ∈ n.issuanceTxs timestamp fees → Admitted tx
  | booted : booted.mesh.Has tx → Admitted tx
  | brought {e : (Nat → Nat → Env) × Event} : e ∈ events → e.2.Brings tx → Admitted tx
  | signed {env : Env} {name : String} {n : Node} {fromSeed amount : U64} {target : Address} :
      host.flag "KOVANICA_OPERATOR" false = true ∨ host.flag "KOVANICA_FAUCET" false = true →
      Lived host booted events name n → n.buildTransferTo env fromSeed amount target = .ok tx →
      Admitted tx
  | reset {env : Env} {files : F} {name : String} {n : Node} :
      host.flag "KOVANICA_ALLOW_RESET" false = true →
      loadOrGenesis host env files name = .ok n → n.Has tx → Admitted tx

/-- A node of the run, and all it has was admitted: the invariant of the nodes, which refers to
the run so that a reward counts only if a node of this run produced it. -/
structure Confined (name : String) (n : Node) : Prop where
  running : Running n
  lived : Lived host booted events name n
  has : ∀ tx, n.Has tx → Admitted host booted events tx

/-- A letter of the run, and all that it carries was admitted: the invariant of the letters, kept
together with that of the nodes since either feeds the other. -/
structure Carries (e : Envelope) : Prop where
  posted : Posted host booted events e
  has : ∀ tx, e.Has tx → Admitted host booted events tx

end Lived

variable {host : Host F} {booted : Explorer} {events : List ((Nat → Nat → Env) × Event)}

theorem upholds_admitted :
    Upholds host (Confined host booted events) (Carries host booted events) where
  plain := fun h => h.running.reachable.isPlain
  hello := fun advertised => ⟨.hello advertised, fun _ htx => htx.elim⟩
  receive := by
    intro name n n' env record id h hrecord hcall
    refine ⟨h.running.receiveBlock hcall, .receive h.lived hrecord.posted hcall, fun tx htx => ?_⟩
    exact (htx.of_receiveBlock h.running.reachable hcall).elim (h.has tx) (hrecord.has tx)
  submit := by
    intro name n n' sent id h hsent hcall
    refine ⟨h.running.submitTx hcall, .submit h.lived hsent.posted hcall, fun tx htx => ?_⟩
    exact (htx.of_submitTx hcall).elim (h.has tx) (hsent.has tx)
  produce := by
    intro name n n' env id h hcall
    refine ⟨h.running.produceBlock hcall, .produce h.lived hcall, fun tx htx => ?_⟩
    rcases htx.of_produceBlock h.running.reachable hcall with hold | ⟨timestamp, fees, hminted⟩
    · exact h.has tx hold
    · exact .minted h.lived (.inl ⟨id, hcall⟩) htx hminted
  produceEmpty := by
    intro name n n' env id h hcall
    refine ⟨h.running.produceEmpty hcall, .produceEmpty h.lived hcall, fun tx htx => ?_⟩
    rcases htx.of_produceEmpty h.running.reachable hcall with hold | ⟨timestamp, hminted⟩
    · exact h.has tx hold
    · exact .minted h.lived (.inr ⟨id, hcall⟩) htx hminted
  record := fun h hrecord =>
    ⟨.record h.lived hrecord, fun tx htx => h.has tx (.inl ⟨_, _, hrecord, htx⟩)⟩
  pending := by
    intro name n id sent h hpending
    refine ⟨.pending h.lived hpending, fun tx htx => ?_⟩
    obtain rfl : tx = sent := htx
    exact h.has tx (.inr ⟨id, hpending⟩)
  sendTo := by
    intro hflag name n n' env fromSeed amount target sent h hcall
    refine ⟨h.running.sendTo hcall, .sendTo hflag h.lived hcall, fun tx htx => ?_⟩
    exact (htx.of_sendTo h.running.reachable hcall).elim (h.has tx) (.signed hflag h.lived)
  pool := by
    intro hflag name n n' env fromSeed amount toSeed id h hcall
    refine ⟨h.running.pool hcall, .pool hflag h.lived hcall, fun tx htx => ?_⟩
    exact (htx.of_pool hcall).elim (h.has tx) (.signed (.inl hflag) h.lived)
  setMiner := fun hflag _ _ addr h =>
    ⟨h.running.setMiner addr, .setMiner addr hflag h.lived, fun tx htx => h.has tx htx⟩
  boots := by
    intro hflag env files name
    have hrunning := loadOrGenesis_leaves host env files name
    exact hrunning.value_of fun n hn h =>
      ⟨h, .reset hflag hn, fun tx htx => .reset hflag hn htx⟩

theorem suits_admitted {e : (Nat → Nat → Env) × Event} (he : e ∈ events) :
    e.2.Suits (Confined host booted events) (Carries host booted events) := by
  have hbrought : ∀ tx, e.2.Brings tx → Admitted host booted events tx :=
    fun tx hbrings => .brought he hbrings
  obtain ⟨envs, event⟩ := e
  cases event with
  | request text =>
      intro hasks sender amount recipient sig hsubmits name n n' env id h hcall
      refine ⟨h.running.submitSigned hcall, .submitSigned h.lived he hasks hsubmits hcall,
        fun tx htx => ?_⟩
      rcases htx.of_submitSigned hcall with hold | htransfer
      · exact h.has tx hold
      · exact hbrought tx ⟨hasks, sender, amount, recipient, sig, hsubmits, htransfer⟩
  | tick traffic =>
      intro i bytes records hstream hdecode record hrecord
      refine ⟨.streamed he hstream hdecode hrecord, fun tx htx => ?_⟩
      exact hbrought tx ⟨i, bytes, records, hstream, hdecode, record, hrecord, htx⟩

/-- What the process has after it has booted is as it should be for any run from there. -/
theorem up_admitted (h : Up host (fun _ => Running) (fun _ => True) booted)
    (events : List ((Nat → Nat → Env) × Event)) :
    Up host (Confined host booted events) (Carries host booted events) booted where
  mesh := by
    refine ⟨h.mesh.keys, fun hn => ⟨h.mesh.nodes hn, .booted hn, fun tx htx => ?_⟩, h.mesh.peers,
      fun q hq => ?_, h.mesh.events⟩
    · exact .booted (.inl ⟨_, _, hn, htx⟩)
    · obtain ⟨hsender, hrecipient, _⟩ := h.mesh.letters q hq
      exact ⟨hsender, hrecipient, .booted hq, fun tx htx => .booted (.inr ⟨q, hq, htx⟩)⟩
  selected := h.selected
  faucet := h.faucet
  allowReset := h.allowReset
  operator := h.operator

/-- So after any events all nodes and letters are of the run, with what was admitted. -/
theorem rounds_admitted (host : Host F) (envs : Nat → Nat → Env) (files : F)
    (events : List ((Nat → Nat → Env) × Event)) :
    Leaves (fun start => Leaves (fun after => after.1.mesh.Holds (meshNames host)
          (Confined host start.1 events) (Carries host start.1 events))
        (rounds host events start.1 start.2).2)
      (bootPersist host false envs files) := by
  have hboot := bootPersist_leaves (upholds_running host).toKeeps (loadOrGenesis_leaves host)
    false envs files
  refine hboot.value_of fun start _ hstart => ?_
  have hserved := rounds_served upholds_admitted (fun e he => suits_admitted he)
    (up_admitted hstart events) start.2
  exact hserved.left.value_of fun after _ hafter => hafter.mesh

/-- Whatever events the process meets, all that its nodes have in the end was admitted, and so
was all that the letters under way carry. -/
theorem transactions_admitted (host : Host F) (envs : Nat → Nat → Env) (files : F)
    (events : List ((Nat → Nat → Env) × Event)) :
    Leaves (fun start =>
        Leaves (fun after => ∀ tx, after.1.mesh.Has tx → Admitted host start.1 events tx)
          (rounds host events start.1 start.2).2)
      (bootPersist host false envs files) := by
  refine (rounds_admitted host envs files events).value_of fun start _ hrounds => ?_
  refine hrounds.value_of fun after _ hafter tx htx => ?_
  rcases htx with ⟨name, n, hn, htx⟩ | ⟨q, hq, htx⟩
  · exact (hafter.nodes hn).has tx htx
  · exact (hafter.letters q hq).2.2.has tx htx

end Explorer

end Kovanica
