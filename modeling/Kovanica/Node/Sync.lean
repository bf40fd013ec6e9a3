import Kovanica.Node.Idempotence
import Kovanica.Node.Relay

/-!
# Blocks over TCP

A node serves all its records on a connection and closes it, or sends them one by one
over a relay session; the peer feeds what it reads to its own node.  Both come to the
same as `gossip` in one process, and whatever bytes a peer sends, a node only ever gains
blocks by them.

## Main results

* `gossipLoop_gained`, `Reachable.receiveBlock_gained`, `Reachable.submitTx_gained`: what a call
  adds, with every stored block left as it was.
* `applyAll_block`: a relay session of blocks is a loop of receptions.
* `received_of_fit`: what fits a frame arrives.
-/

namespace Kovanica

open Lib

namespace Net

/-- `serve_records(listener, records)`: what it writes before it closes. -/
def serveRecords (records : List BlockRecord) : List U8 := encodeRecords records

/-- `serve_blocks(listener, node)`: all records of the node, in the order it exports them. -/
def serveBlocks (env : Env) (n : Node) : List U8 := serveRecords (n.exportBlocks env)

/-- `pull_blocks(addr, node)`, on what dialling the peer and reading the connection to
its end came to.  `pull_blocks_timeout` only dials in another way. -/
def pullBlocks [Crypto] (envs : Nat → Env) (stream : Except String (List U8)) (n : Node) :
    Outcome NetError Nat × Node :=
  match stream with
  | .error reason => (.error (.error (.io reason)), n)
  | .ok bytes =>
      match decodeRecords bytes with
      | .error e => (.error (.error e), n)
      | .ok records => gossipLoop envs 0 records n

end Net

namespace Relay

/-- `apply_relay(node, msg)`: a hello goes back to the caller; a block is received and a transaction
submitted, as if they had come from anywhere else. -/
def apply [Crypto] (env : Env) (n : Node) : RelayMsg → Outcome NetError (Option RelayMsg × Node)
  | .hello sender advertised => .ok (some (.hello sender advertised), n)
  | .block record =>
      match n.receiveBlock env record with
      | .ok (_, n) => .ok (none, n)
      | .error (.error e) => .error (.error (.apply e.display))
      | .error (.panic site) => .error (.panic site)
  | .tx transaction =>
      match n.submitTx transaction with
      | .ok (_, n) => .ok (none, n)
      | .error (.error e) => .error (.error (.apply e.display))
      | .error (.panic site) => .error (.panic site)

/-- The messages of a session applied in turn, as long as none is refused. -/
def applyAll [Crypto] (envs : Nat → Env) : (i : Nat) → List RelayMsg → Node → Outcome NetError Node
  | _, [], n => .ok n
  | i, msg :: rest, n =>
      match apply (envs i) n msg with
      | .error e => .error e
      | .ok (_, n) => applyAll envs (i + 1) rest n

end Relay

/-! ## What a message brings -/

section Gained

variable [Crypto] {blocks blocks' : Set BlockId} {txs txs' : Set Transaction} {n n' n'' : Node}

/-- `n'` is `n` with some of these blocks and pending transactions.  Every block that `n` has
a record or GHOSTDAG data of has the same in `n'`; transactions may have left the mempool, and
nothing else has changed. -/
structure Gained (blocks : Set BlockId) (txs : Set Transaction) (n n' : Node) : Prop where
  reachable : n'.Reachable
  kept : n.ids ⊆ n'.ids
  retains : n.Retains n'
  gained : ∀ x ∈ n'.ids, x ∈ n.ids ∨ x ∈ blocks
  pending : ∀ id tx, n'.mempool.get id = some tx → n.mempool.get id = some tx ∨ tx ∈ txs
  miner_eq : n'.miner = n.miner
  clock_eq : n'.clock = n.clock

namespace Gained

theorem refl (hn : n.Reachable) : Gained blocks txs n n where
  reachable := hn
  kept := Finset.Subset.refl _
  retains := .refl n
  gained := fun _ hx => .inl hx
  pending := fun _ _ htx => .inl htx
  miner_eq := rfl
  clock_eq := rfl

theorem trans (h : Gained blocks txs n n') (h' : Gained blocks txs n' n'') :
    Gained blocks txs n n'' where
  reachable := h'.reachable
  kept := h.kept.trans h'.kept
  retains := h.retains.trans h'.retains
  gained := fun x hx => (h'.gained x hx).elim (h.gained x) .inr
  pending := fun id tx htx => (h'.pending id tx htx).elim (h.pending id tx) .inr
  miner_eq := h'.miner_eq.trans h.miner_eq
  clock_eq := h'.clock_eq.trans h.clock_eq

theorem mono (h : Gained blocks txs n n') (hblocks : blocks ⊆ blocks') (htxs : txs ⊆ txs') :
    Gained blocks' txs' n n' :=
  { h with
    gained := fun x hx => (h.gained x hx).imp_right fun hx => hblocks hx
    pending := fun id tx htx => (h.pending id tx htx).imp_right fun htx => htxs htx }

end Gained

namespace Node

variable {env : Env}

/-- Evicting changes the mempool, which only gets smaller. -/
theorem evictMempool_mempool (h : n.evictMempool env = .ok n') :
    n'.ledger = n.ledger ∧ n'.miner = n.miner ∧ n'.clock = n.clock ∧
      ∀ id tx, n'.mempool.get id = some tx → n.mempool.get id = some tx := by
  rcases evictMempool_eq_ok h with rfl | ⟨utxo, rfl⟩
  · exact ⟨rfl, rfl, rfl, fun _ _ h => h⟩
  · refine ⟨rfl, rfl, rfl, fun id tx htx => ?_⟩
    dsimp only [Mempool.evictInvalid] at htx
    rw [Mempool.get_removeAll] at htx
    split at htx
    · cases htx
    · exact htx

/-- A node that took a record holds its block, and has gained nothing else. -/
theorem Reachable.receiveBlock_gained (hn : n.Reachable) {record : BlockRecord} {id : BlockId}
    (h : n.receiveBlock env record = .ok (id, n')) :
    Gained {record.block.id} ∅ n n' ∧ record.block.id ∈ n'.ids := by
  have hstored : record.block.id ∈ n'.ids := mem_ids.2 (receiveBlock_stored h)
  refine ⟨?_, hstored⟩
  have hreach := hn.receiveBlock h
  obtain ⟨l, hledger, ⟨_, rfl⟩ | ⟨l', hoffer, hevict⟩⟩ := receiveBlock_eq_ok h
  · exact .refl hn
  obtain ⟨hledger', hminer, hclock, hpending⟩ := evictMempool_mempool hevict
  have hids : ∀ x, x ∈ n'.ids ↔ x = record.block.id ∨ x ∈ n.ids := by
    intro x
    obtain ⟨sp, g, state, applied, haccepts, _, rfl⟩ := Ledger.offer_eq_ok_iff.1 hoffer
    rw [ids_eq hledger, ids_eq hledger', Finmap.mem_keys, Finmap.mem_keys, Ledger.prune_dag]
    exact Dag.mem_wire haccepts.admits
  constructor
  · exact hreach
  · exact fun x hx => (hids x).2 (.inr hx)
  · exact .receiveBlock hn h
  · exact fun x hx => ((hids x).1 hx).symm
  · exact fun id tx htx => .inl (hpending id tx htx)
  · exact hminer
  · exact hclock

/-- A node that took a transaction has it pending, and has gained nothing else. -/
theorem Reachable.submitTx_gained (hn : n.Reachable) {tx : Transaction} {id : TxId}
    (h : n.submitTx tx = .ok (id, n')) : Gained ∅ {tx} n n' := by
  have hreach := hn.submitTx h
  have hretains : n.Retains n' := .of_kept (submitTx_kept h)
  rw [Node.submitTx] at h
  split at h
  · cases h
  obtain ⟨_, rfl⟩ := Prod.mk.inj (Except.ok.inj h)
  refine ⟨hreach, Finset.Subset.refl _, hretains, fun x hx => .inl hx, fun id found hfound => ?_,
    rfl, rfl⟩
  rcases Mempool.get_add hfound with hold | ⟨_, rfl⟩
  · exact .inl hold
  · exact .inr rfl

end Node

end Gained

/-! ## Runs of records and messages -/

namespace Net

variable [Crypto] {envs : Nat → Env}

/-- A node fed records gains their blocks at most, and all of them if none is refused. -/
theorem gossipLoop_gained (envs : Nat → Env) (records : List BlockRecord) {n : Node} (hn : n.Reachable)
    (applied : Nat) :
    Gained {x | ∃ r ∈ records, r.block.id = x} ∅ n (gossipLoop envs applied records n).2 ∧
      ∀ count, (gossipLoop envs applied records n).1 = .ok count →
        count = applied + records.length ∧
          ∀ r ∈ records, r.block.id ∈ (gossipLoop envs applied records n).2.ids := by
  induction records generalizing applied n with
  | nil =>
      refine ⟨.refl hn, fun count hcount => ⟨(Except.ok.inj hcount).symm, ?_⟩⟩
      exact fun r hr => absurd hr List.not_mem_nil
  | cons record rest ih =>
      unfold gossipLoop
      cases hcall : n.receiveBlock (envs applied) record with
      | error e =>
          cases e with
          | error e => exact ⟨.refl hn, fun count hcount => by cases hcount⟩
          | panic site => exact ⟨.refl hn, fun count hcount => by cases hcount⟩
      | ok r =>
          obtain ⟨id, n'⟩ := r
          obtain ⟨hfirst, hstored⟩ := hn.receiveBlock_gained hcall
          obtain ⟨hrest, hall⟩ := ih hfirst.reachable (applied + 1)
          have hone : ({record.block.id} : Set BlockId) ⊆
              {x | ∃ r ∈ record :: rest, r.block.id = x} := by
            rintro x rfl
            exact ⟨record, List.mem_cons_self .., rfl⟩
          have hmore : {x | ∃ r ∈ rest, r.block.id = x} ⊆
              {x | ∃ r ∈ record :: rest, r.block.id = x} := by
            rintro x ⟨r, hr, hx⟩
            exact ⟨r, List.mem_cons_of_mem _ hr, hx⟩
          have hrest' := hrest.mono hmore (Set.Subset.refl _)
          refine ⟨(hfirst.mono hone (Set.Subset.refl _)).trans hrest', fun count hcount => ?_⟩
          obtain ⟨hlen, hheld⟩ := hall count hcount
          refine ⟨?_, List.forall_mem_cons.2 ⟨hrest.kept hstored, hheld⟩⟩
          rw [hlen, List.length_cons]
          omega

/-- The records of a relay session do what they do in `gossip`. -/
theorem applyAll_block (records : List BlockRecord) (n : Node) (i : Nat) :
    Relay.applyAll envs i (records.map RelayMsg.block) n =
      match gossipLoop envs i records n with
      | (.ok _, n') => .ok n'
      | (.error e, _) => .error e := by
  induction records generalizing i n with
  | nil => rfl
  | cons record rest ih =>
      rw [List.map_cons, Relay.applyAll, Relay.apply, gossipLoop]
      cases hcall : n.receiveBlock (envs i) record with
      | error e =>
          cases e with
          | error e => rfl
          | panic site => rfl
      | ok r => exact ih r.2 (i + 1)

end Net

namespace Relay

variable [Crypto] {envs : Nat → Env}

/-- The ids of the blocks among some messages. -/
def blocksOf (msgs : List RelayMsg) : Set BlockId :=
  {x | ∃ record, RelayMsg.block record ∈ msgs ∧ record.block.id = x}

/-- The transactions among some messages. -/
def txsOf (msgs : List RelayMsg) : Set Transaction := {tx | RelayMsg.tx tx ∈ msgs}

theorem apply_gained {env : Env} {n n' : Node} (hn : n.Reachable) {msg : RelayMsg}
    {reply : Option RelayMsg} (h : apply env n msg = .ok (reply, n')) :
    Gained (blocksOf [msg]) (txsOf [msg]) n n' := by
  cases msg with
  | hello sender advertised =>
      obtain ⟨_, rfl⟩ := Prod.mk.inj (Except.ok.inj h)
      exact .refl hn
  | block record =>
      rw [apply] at h
      split at h
      · rename_i id n₁ hcall
        obtain ⟨_, rfl⟩ := Prod.mk.inj (Except.ok.inj h)
        apply (hn.receiveBlock_gained hcall).1.mono
        · rintro x rfl
          exact ⟨record, List.mem_singleton.2 rfl, rfl⟩
        · exact Set.empty_subset _
      · cases h
      · cases h
  | tx transaction =>
      rw [apply] at h
      split at h
      · rename_i id n₁ hcall
        obtain ⟨_, rfl⟩ := Prod.mk.inj (Except.ok.inj h)
        apply (hn.submitTx_gained hcall).mono
        · exact Set.empty_subset _
        · rintro tx rfl
          exact List.mem_singleton.2 rfl
      · cases h
      · cases h

theorem applyAll_gained {msgs : List RelayMsg} {n n' : Node} (hn : n.Reachable) {i : Nat}
    (h : applyAll envs i msgs n = .ok n') : Gained (blocksOf msgs) (txsOf msgs) n n' := by
  induction msgs generalizing n i with
  | nil =>
      obtain rfl := Except.ok.inj h
      exact .refl hn
  | cons msg rest ih =>
      rw [applyAll] at h
      split at h
      · cases h
      rename_i reply n₁ hcall
      have hfirst := apply_gained hn hcall
      have hrest := ih hfirst.reachable h
      have hblocks : blocksOf [msg] ⊆ blocksOf (msg :: rest) := by
        rintro x ⟨record, hrecord, hx⟩
        exact ⟨record, List.mem_cons.2 (.inl (List.mem_singleton.1 hrecord)), hx⟩
      have htxs : txsOf [msg] ⊆ txsOf (msg :: rest) := fun tx htx =>
        List.mem_cons.2 (.inl (List.mem_singleton.1 htx))
      have hblocks' : blocksOf rest ⊆ blocksOf (msg :: rest) := by
        rintro x ⟨record, hrecord, hx⟩
        exact ⟨record, List.mem_cons_of_mem _ hrecord, hx⟩
      have htxs' : txsOf rest ⊆ txsOf (msg :: rest) := fun tx htx => List.mem_cons_of_mem _ htx
      exact (hfirst.mono hblocks htxs).trans (hrest.mono hblocks' htxs')

end Relay

/-! ## Transports -/

namespace Relay

/-- Messages whose lengths fit their fields and the cap come through a session. -/
theorem received_of_fit {msgs : List RelayMsg}
    (h : ∀ msg ∈ msgs, msg.Narrow ∧ msg.size ≤ maxFrame) :
    ∃ rest, Reader.readMany recv msgs.length (sendAll msgs) = .ok (msgs, rest) := by
  have hcap : maxFrame < 2 ^ 32 := by decide
  have hiff := Reader.received_iff (.io "failed to fill whole buffer") (.decode "frame too large")
    hcap (fun _ _ => encode_of_decodeMsg)
    (fun msg hnarrow hlen => decode_encodeMsg hnarrow (length_encodeMsg msg ▸ hlen)) msgs []
  simp only [length_encodeMsg, List.append_nil] at hiff
  rw [sendAll_eq]
  exact hiff.2 h

end Relay

namespace Net

variable [Crypto]

/-- The transports agree: a node that pulls the blocks of another, and a node that is sent
them over a relay session in frames that are not too large, ends as after `gossip` in one
process, with the same refusal if there is one; and what a connection brings that broke
off before its end changes nothing. -/
theorem transports_agree (a b : Node) (env : Env) (envs : Nat → Env)
    (hlen : (a.exportBlocks env).length < 2 ^ 64) :
    pullBlocks envs (.ok (serveBlocks env a)) b = gossip env envs a b ∧
    (∀ cut ext, serveBlocks env a = cut ++ ext → ext ≠ [] →
      ∃ e, pullBlocks envs (.ok cut) b = (.error (.error e), b)) ∧
    ((∀ record ∈ a.exportBlocks env, (RelayMsg.block record).size ≤ Relay.maxFrame) →
      ∃ msgs rest, Reader.readMany Relay.recv (a.exportBlocks env).length
          (Relay.sendAll ((a.exportBlocks env).map .block)) = .ok (msgs, rest) ∧
        Relay.applyAll envs 0 msgs b = match gossip env envs a b with
          | (.ok _, b') => .ok b'
          | (.error e, _) => .error e) := by
  have hdecode : decodeRecords (serveBlocks env a) = .ok (a.exportBlocks env) :=
    decode_encodeRecords ⟨a.exportBlocks env, hlen⟩
  refine ⟨?_, ?_, ?_⟩
  · simp only [pullBlocks, hdecode, gossip]
  · intro cut ext hcut hext
    obtain ⟨e, he⟩ := decodeRecords_cut ⟨a.exportBlocks env, hlen⟩ hcut hext
    refine ⟨e, ?_⟩
    simp only [pullBlocks, he]
  · intro hsize
    have hfit : ∀ msg ∈ (a.exportBlocks env).map RelayMsg.block,
        msg.Narrow ∧ msg.size ≤ Relay.maxFrame := by
      intro msg hmsg
      obtain ⟨record, hrecord, rfl⟩ := List.mem_map.1 hmsg
      exact ⟨trivial, hsize record hrecord⟩
    obtain ⟨rest, hrest⟩ := Relay.received_of_fit hfit
    rw [List.length_map] at hrest
    exact ⟨_, rest, hrest, applyAll_block _ b 0⟩

/-- Peers only add: whatever the bytes on a connection, pulling from it leaves a reachable
node with its blocks, each with the record and the data it had, and with its settings, with no
new transaction and with no new block but those of the records these bytes are, all of which
it holds if none was refused; and the messages of a relay session add the blocks and
transactions they carry at most. -/
theorem peers_only_add {n : Node} (hn : n.Reachable) (envs : Nat → Env) :
    (∀ stream, ∃ records, (records = [] ∨ stream = .ok (encodeRecords records)) ∧
      Gained {x | ∃ r ∈ records, r.block.id = x} ∅ n (pullBlocks envs stream n).2 ∧
      ∀ count, (pullBlocks envs stream n).1 = .ok count → count = records.length ∧
        ∀ r ∈ records, r.block.id ∈ (pullBlocks envs stream n).2.ids) ∧
    ∀ msgs i n', Relay.applyAll envs i msgs n = .ok n' →
      Gained (Relay.blocksOf msgs) (Relay.txsOf msgs) n n' := by
  refine ⟨fun stream => ?_, fun msgs i n' h => Relay.applyAll_gained hn h⟩
  cases stream with
  | error reason => exact ⟨[], .inl rfl, .refl hn, fun count hcount => by cases hcount⟩
  | ok bytes =>
      cases hdecode : decodeRecords bytes with
      | error e =>
          refine ⟨[], .inl rfl, ?_, fun count hcount => ?_⟩
          · simp only [pullBlocks, hdecode]
            exact .refl hn
          · simp only [pullBlocks, hdecode] at hcount
            cases hcount
      | ok records =>
          obtain ⟨hgained, hall⟩ := gossipLoop_gained envs records hn 0
          rw [Nat.zero_add] at hall
          refine ⟨records, .inr ?_, ?_, ?_⟩
          · rw [encode_of_decodeRecords hdecode]
          · simp only [pullBlocks, hdecode]
            exact hgained
          · simp only [pullBlocks, hdecode]
            exact hall

end Net

namespace Net

open scoped Reference

/-- A node with one block of its own, its peer with another. -/
theorem transports_agree_pair : ∃ a b b', Node.producedAt 5 = .ok a ∧ Node.producedAt 7 = .ok b ∧
    gossip ⟨.sorted, 0⟩ (fun _ => ⟨.sorted, 0⟩) a b = (.ok 1, b') ∧
    pullBlocks (fun _ => ⟨.sorted, 0⟩) (.ok (serveBlocks ⟨.sorted, 0⟩ a)) b = (.ok 1, b') := by
  have hcheck : (Node.producedAt 5).toOption.any (fun a => (Node.producedAt 7).toOption.any fun b =>
      decide ((a.exportBlocks ⟨.sorted, 0⟩).length < 2 ^ 64) &&
        (gossip ⟨.sorted, 0⟩ (fun _ => ⟨.sorted, 0⟩) a b).1.toOption.any fun applied =>
          decide (applied = 1)) = true := by
    decide +kernel
  obtain ⟨a, ha, hany⟩ := Option.any_eq_true _ _ |>.1 hcheck
  obtain ⟨b, hb, hboth⟩ := Option.any_eq_true _ _ |>.1 hany
  obtain ⟨hlen, hgossip⟩ := Bool.and_eq_true_iff.1 hboth
  obtain ⟨applied, happlied, hone⟩ := Option.any_eq_true _ _ |>.1 hgossip
  obtain rfl := of_decide_eq_true hone
  have hresult : gossip ⟨.sorted, 0⟩ (fun _ => ⟨.sorted, 0⟩) a b = (.ok 1, _) :=
    Prod.ext (ok_of_toOption happlied) rfl
  have hagree := (transports_agree a b ⟨.sorted, 0⟩ (fun _ => ⟨.sorted, 0⟩)
    (of_decide_eq_true hlen)).1
  exact ⟨a, b, _, ok_of_toOption ha, ok_of_toOption hb, hresult, hagree.trans hresult⟩

/-- A node with a block of its own pulls the block of its peer, and is sent it over a relay
session: the pull stores it, and either way its own block keeps its record. -/
theorem peers_only_add_pair : ∃ a b records x record, Node.producedAt 5 = .ok a ∧
    Node.producedAt 7 = .ok b ∧ records = a.exportBlocks ⟨.sorted, 0⟩ ∧ records.length = 1 ∧
    (∀ r ∈ records, r.block.id ∉ b.ids) ∧ x ∉ a.ids ∧ b.blockRecord x = some record ∧
    (∃ b', pullBlocks (fun _ => ⟨.sorted, 0⟩) (.ok (encodeRecords records)) b = (.ok 1, b') ∧
      (∀ r ∈ records, r.block.id ∈ b'.ids) ∧ b'.blockRecord x = some record) ∧
    ∃ b', Relay.applyAll (fun _ => ⟨.sorted, 0⟩) 0 (records.map .block) b = .ok b' ∧
      b'.blockRecord x = some record := by
  have hcheck : (Node.producedAt 5).toOption.any (fun a => (Node.producedAt 7).toOption.any fun b =>
      decide ((a.exportBlocks ⟨.sorted, 0⟩).length = 1) &&
        decide (∀ r ∈ a.exportBlocks ⟨.sorted, 0⟩, r.block.id ∉ b.ids) &&
        decide (∃ x ∈ b.ids, x ∉ a.ids ∧ (b.blockRecord x).isSome) &&
        ((pullBlocks (fun _ => ⟨.sorted, 0⟩)
          (.ok (encodeRecords (a.exportBlocks ⟨.sorted, 0⟩))) b).1.toOption.any fun count =>
            decide (count = 1)) &&
        (Relay.applyAll (fun _ => ⟨.sorted, 0⟩) 0
          ((a.exportBlocks ⟨.sorted, 0⟩).map .block) b).toOption.isSome) = true := by
    decide +kernel
  obtain ⟨a, ha, hany⟩ := Option.any_eq_true _ _ |>.1 hcheck
  obtain ⟨b, hb, hall⟩ := Option.any_eq_true _ _ |>.1 hany
  simp only [Bool.and_eq_true, decide_eq_true_eq] at hall
  obtain ⟨⟨⟨⟨hone, hnew⟩, x, _, hother, hsome⟩, hpull⟩, hrelay⟩ := hall
  obtain ⟨record, hrecord⟩ := Option.isSome_iff_exists.1 hsome
  obtain ⟨count, hcount, hdec⟩ := Option.any_eq_true _ _ |>.1 hpull
  obtain rfl := of_decide_eq_true hdec
  obtain ⟨b', hb'⟩ := Option.isSome_iff_exists.1 hrelay
  obtain ⟨hadds, hsession⟩ := peers_only_add (Node.reachable_of_producedAt (ok_of_toOption hb))
    fun _ => ⟨.sorted, 0⟩
  refine ⟨a, b, _, x, record, ok_of_toOption ha, ok_of_toOption hb, rfl, hone, hnew, hother,
    hrecord, ?_, b', ok_of_toOption hb',
    (hsession _ 0 b' (ok_of_toOption hb')).retains.record x record hrecord⟩
  have hpulled := hadds (.ok (encodeRecords (a.exportBlocks ⟨.sorted, 0⟩)))
  clear hadds hsession hb' hnew
  generalize a.exportBlocks ⟨.sorted, 0⟩ = exported at hpulled hcount hone ⊢
  generalize pullBlocks (fun _ => ⟨.sorted, 0⟩) (.ok (encodeRecords exported)) b = pulled
    at hpulled hcount ⊢
  obtain ⟨records, hstream, hgained, hheld⟩ := hpulled
  obtain ⟨hlength, hin⟩ := hheld 1 (ok_of_toOption hcount)
  -- the records of the stream are those of the peer
  have hsame : exported = records := by
    rcases hstream with rfl | heq
    · cases hlength
    · have hdecode := decode_encodeRecords ⟨records, by omega⟩
      have hdecode' := decode_encodeRecords ⟨exported, by omega⟩
      rw [Except.ok.inj heq] at hdecode'
      exact Except.ok.inj (hdecode'.symm.trans hdecode)
  subst hsame
  exact ⟨pulled.2, Prod.ext (ok_of_toOption hcount) rfl, hin,
    hgained.retains.record x record hrecord⟩

end Net

end Kovanica
