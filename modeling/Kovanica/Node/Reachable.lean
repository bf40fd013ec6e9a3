import Kovanica.Node.Growth
import Kovanica.State.Snapshot
import Kovanica.State.Store

/-!
# The states of a node

A node is brought up at a genesis or loaded from a file, and then used.  Whatever is
called, its ledger has neither finality nor retargeting and its mempool holds spends
under their ids.

## Main results

* `of_kept`, `of_produced`: what the calls leave alone, and what they add.
* `blockRecord_congr`, `stored_of_blockRecord`: the record of an id is a matter of the stored
  blocks.
-/

namespace Kovanica

open Lib

namespace Ledger

/-- A ledger that was never given a finality depth or a retargeting, as the ledgers of nodes are:
they come from a genesis or from a snapshot, which stores neither. -/
structure Plain [Crypto] (l : Ledger) : Prop where
  unbounded : l.Unbounded
  difficulty_eq : l.dag.difficulty = none

variable [Crypto] {l l' : Ledger}

namespace Plain

theorem of_new {ord : HashOrder} {k : KParam} {subsidy : U64} {genesisTxs : TxList}
    (h : Ledger.new ord k subsidy genesisTxs = .ok l) : l.Plain := by
  refine ⟨.of_new h, ?_⟩
  obtain ⟨applied, _, rfl⟩ := new_eq_ok_iff.1 h
  rfl

theorem offer (h : l.Plain) {o : Offer} {id : BlockId} (hoffer : l.offer o = .ok (id, l')) :
    l'.Plain := by
  have hstep : Step l (.offer o) l' := .accepted hoffer
  exact ⟨h.unbounded.step hstep, hstep.policy_eq.1.trans h.difficulty_eq⟩

theorem setProofOfWork (h : l.Plain) (enabled : Bool) : (l.setProofOfWork enabled).Plain where
  unbounded := h.unbounded.step (.proofOfWork enabled)
  difficulty_eq := h.difficulty_eq

/-! ## Rebuilt from a file -/

theorem restoreBlock (h : l.Plain) {ord : HashOrder} {block : Block}
    (hrestore : l.restoreBlock ord block = .ok l') : l'.Plain := by
  obtain ⟨_, _, _, hoffer⟩ := restoreBlock_offer hrestore
  exact h.offer hoffer

theorem restoreBlocks (h : l.Plain) {ord : HashOrder} {blocks : List Block}
    (hrestore : l.restoreBlocks ord blocks = .ok l') : l'.Plain := by
  induction blocks generalizing l with
  | nil => exact Except.ok.inj hrestore ▸ h
  | cons block rest ih =>
      unfold Ledger.restoreBlocks at hrestore
      split at hrestore
      · cases hrestore
      · rename_i l₁ hblock
        exact ih (h.restoreBlock hblock) hrestore

theorem of_restoreGenesis {ord : HashOrder} {k : KParam} {subsidy : U64} {genesis : Block}
    (h : restoreGenesis ord k subsidy genesis = .ok l) : l.Plain := by
  unfold restoreGenesis at h
  split at h
  · cases h
  split at h
  · cases h
  rename_i hnew
  rw [← Except.ok.inj h]
  exact .of_new hnew

theorem of_readSnapshot {ord : HashOrder} {bytes : List U8}
    (h : readSnapshot ord bytes = .ok l) : l.Plain := by
  unfold readSnapshot at h
  split at h
  · cases h
  split at h
  · cases h
  simp only at h
  split at h
  · cases h
  split at h
  · cases h
  split at h
  · cases h
  split at h
  · cases h
  rename_i hgenesis
  exact (of_restoreGenesis hgenesis).restoreBlocks h

theorem replayRecords (h : l.Plain) {ord : HashOrder} {fuel : Nat} {file : File}
    {store : LedgerStore}
    (hreplay : LedgerStore.replayRecords ord fuel file l = .ok (store, l')) : l'.Plain := by
  induction fuel generalizing file l with
  | zero => cases hreplay
  | succ fuel ih =>
      unfold LedgerStore.replayRecords at hreplay
      split at hreplay
      · cases hreplay
      · exact (Prod.mk.inj (Except.ok.inj hreplay)).2 ▸ h
      split at hreplay
      · cases hreplay
      rename_i l₁ hlift
      exact ih (h.restoreBlock (LedgerStore.liftReplay_eq_ok.1 hlift)) hreplay

theorem of_openLog {ord : HashOrder} {bytes : List U8} {store : LedgerStore}
    (h : LedgerStore.openLog ord bytes = .ok (store, l)) : l.Plain := by
  unfold LedgerStore.openLog at h
  split at h
  · cases h
  split at h
  · cases h
  · cases h
  split at h
  · cases h
  rename_i l₁ hlift
  exact (of_restoreGenesis (LedgerStore.liftReplay_eq_ok.1 hlift)).replayRecords h

end Plain

end Ledger

namespace Node

/-! ## Loading -/

/-- `load(path)`, on the bytes of the file: their ledger replaces the node's. -/
def load [Crypto] (env : Env) (n : Node) (bytes : List U8) : Outcome LedgerSnapshotError Node :=
  match Ledger.readSnapshot env.ord bytes with
  | .error e => .error e
  | .ok ledger => .ok { n with ledger := some ledger }

/-- `load_log(path)`, on the bytes of the file. -/
def loadLog [Crypto] (env : Env) (bytes : List U8) : Outcome StoreError (Node × LedgerStore) :=
  match LedgerStore.openLog env.ord bytes with
  | .error e => .error e
  | .ok (store, ledger) => .ok (⟨some ledger, .empty, .wall, none⟩, store)

variable [Crypto]

/-! ## Calls -/

/-- A node that calls have led to, from a new node or from a log.  Every public call that changes
a node is among these. -/
inductive Reachable : Node → Prop
  | new : Reachable .new
  | loadLog {env : Env} {bytes : List U8} {n : Node} {store : LedgerStore} :
      Node.loadLog env bytes = .ok (n, store) → Reachable n
  | load {env : Env} {n n' : Node} {bytes : List U8} :
      Reachable n → n.load env bytes = .ok n' → Reachable n'
  | genesis {env : Env} {n n' : Node} {k : KParam} {subsidy amount founderSeed : U64}
      {r : BlockId × Address} : Reachable n →
      n.genesis env k subsidy amount founderSeed = .ok (r, n') → Reachable n'
  | setProofOfWork {n n' : Node} {enabled : Bool} :
      Reachable n → n.setProofOfWork enabled = .ok n' → Reachable n'
  | setMiner {n : Node} (miner : Address) : Reachable n → Reachable (n.setMiner miner)
  | setNowMs {n : Node} (now : U64) : Reachable n → Reachable (n.setNowMs now)
  | submitTx {n n' : Node} {tx : Transaction} {id : TxId} :
      Reachable n → n.submitTx tx = .ok (id, n') → Reachable n'
  | submitSigned {env : Env} {n n' : Node} {sender recipient : Address} {value : U64}
      {signature : Bytes 64} {id : TxId} : Reachable n →
      n.submitSigned env sender value recipient signature = .ok (id, n') → Reachable n'
  | pool {env : Env} {n n' : Node} {fromSeed value toSeed : U64} {id : TxId} :
      Reachable n → n.pool env fromSeed value toSeed = .ok (id, n') → Reachable n'
  | sendTo {env : Env} {n n' : Node} {fromSeed value : U64} {recipient : Address} {sent : Sent} :
      Reachable n → n.sendTo env fromSeed value recipient = .ok (sent, n') → Reachable n'
  | produceBlock {env : Env} {n n' : Node} {produced : Option BlockId} :
      Reachable n → n.produceBlock env = .ok (produced, n') → Reachable n'
  | produceEmpty {env : Env} {n n' : Node} {id : BlockId} :
      Reachable n → n.produceEmpty env = .ok (id, n') → Reachable n'
  | receiveBlock {env : Env} {n n' : Node} {record : BlockRecord} {id : BlockId} :
      Reachable n → n.receiveBlock env record = .ok (id, n') → Reachable n'

/-- What every call keeps: the ledger, if there is one, is plain, and every pending transaction
is under its own id. -/
structure Invariant (n : Node) : Prop where
  ledger : ∀ l, n.ledger = some l → l.Plain
  mempool : n.mempool.Filed

namespace Invariant

variable {env : Env} {n n' : Node}

/-- The call changes nothing but the mempool, and adds at most a spend to it. -/
theorem of_kept (h : n.Invariant) (hkept : Kept n n') (hpool : n'.mempool.Filed) :
    n'.Invariant where
  ledger := fun l hl => h.ledger l (hkept.1 ▸ hl)
  mempool := hpool

theorem of_produced (h : n.Invariant) {id : BlockId} (hproduced : Produced n n' id)
    (hpool : n'.mempool.Filed) : n'.Invariant where
  ledger := by
    intro l' hl'
    obtain ⟨_, l, l₁, o, hledger, hoffer, hledger'⟩ := hproduced
    obtain rfl := Option.some.inj (hledger'.symm.trans hl')
    exact (h.ledger l hledger).offer hoffer
  mempool := hpool

end Invariant

/-! ## The mempool -/

section Mempool

variable {env : Env} {n n' : Node}

theorem evictMempool_filed (h : n.evictMempool env = .ok n') (hpool : n.mempool.Filed) :
    n'.mempool.Filed := by
  rcases evictMempool_eq_ok h with rfl | ⟨utxo, rfl⟩
  · exact hpool
  · exact hpool.evictInvalid env.ord utxo

theorem extendTips_filed (hpool : n.mempool.Filed) {l : Ledger}
    {txsAt : U64 → List Transaction} {included : List TxId} {id : BlockId}
    (h : n.extendTips env l txsAt included = .ok (id, n')) : n'.mempool.Filed := by
  obtain ⟨_, _, _, l', _, _, _, _, hevict⟩ := extendTips_eq_ok h
  exact evictMempool_filed hevict (hpool.removeAll included)

theorem submitTx_filed (hpool : n.mempool.Filed) {tx : Transaction} {id : TxId}
    (h : n.submitTx tx = .ok (id, n')) : n'.mempool.Filed := by
  unfold submitTx at h
  split at h
  · cases h
  · rename_i hspend
    obtain ⟨_, rfl⟩ := Prod.mk.inj (Except.ok.inj h)
    exact hpool.add (Bool.eq_false_iff.2 hspend)

theorem submitSigned_filed (hpool : n.mempool.Filed) {sender recipient : Address} {amount : U64}
    {signature : Bytes 64} {id : TxId}
    (h : n.submitSigned env sender amount recipient signature = .ok (id, n')) :
    n'.mempool.Filed := by
  obtain ⟨prepared, _, h⟩ := Outcome.bind_eq_ok.1 h
  simp only at h
  split at h
  · cases h
  · exact submitTx_filed hpool h

/-- A prepared transfer spends an output. -/
theorem prepareTransfer_spend {sender recipient : Address} {amount : U64} {prepared : Prepared}
    (h : n.prepareTransfer env sender amount recipient = .ok prepared) :
    prepared.tx.isCoinbase = false := by
  unfold prepareTransfer at h
  simp only at h
  split at h
  · cases h
  split at h
  · obtain ⟨l, _, h⟩ := Outcome.bind_eq_ok.1 h
    obtain ⟨state, _, h⟩ := Outcome.bind_eq_ok.1 h
    split at h
    · rw [← Except.ok.inj h]
      rfl
    · cases h
  · cases h

omit [Crypto] in
theorem isCoinbase_attachSignature (tx : Transaction) (i : Nat) (signature : Bytes 64) :
    (tx.attachSignature i signature).isCoinbase = tx.isCoinbase := by
  unfold Transaction.isCoinbase Transaction.attachSignature
  cases tx.inputs with
  | nil => simp
  | cons input rest => cases i <;> simp

theorem buildTransferTo_spend {fromSeed amount : U64} {recipient : Address} {tx : Transaction}
    (h : n.buildTransferTo env fromSeed amount recipient = .ok tx) : tx.isCoinbase = false := by
  unfold buildTransferTo at h
  simp only at h
  split at h
  · cases h
  obtain ⟨prepared, hprepared, hret⟩ := Outcome.bind_eq_ok.1 h
  rw [← Except.ok.inj hret, isCoinbase_attachSignature]
  exact prepareTransfer_spend hprepared

theorem pool_filed (hpool : n.mempool.Filed) {fromSeed amount toSeed : U64} {id : TxId}
    (h : n.pool env fromSeed amount toSeed = .ok (id, n')) : n'.mempool.Filed := by
  obtain ⟨tx, hbuild, hret⟩ := Outcome.bind_eq_ok.1 h
  obtain ⟨_, rfl⟩ := Prod.mk.inj (Except.ok.inj hret)
  exact hpool.add (buildTransferTo_spend hbuild)

theorem sendTo_filed (hpool : n.mempool.Filed) {fromSeed amount : U64} {recipient : Address}
    {sent : Sent} (h : n.sendTo env fromSeed amount recipient = .ok (sent, n')) :
    n'.mempool.Filed := by
  obtain ⟨tx, _, h⟩ := Outcome.bind_eq_ok.1 h
  obtain ⟨l, _, h⟩ := Outcome.bind_eq_ok.1 h
  obtain ⟨⟨block, n₁⟩, hextend, hret⟩ := Outcome.bind_eq_ok.1 h
  obtain ⟨_, rfl⟩ := Prod.mk.inj (Except.ok.inj hret)
  exact extendTips_filed hpool hextend

theorem produceEmpty_filed (hpool : n.mempool.Filed) {id : BlockId}
    (h : n.produceEmpty env = .ok (id, n')) : n'.mempool.Filed := by
  obtain ⟨l, _, hextend⟩ := Outcome.bind_eq_ok.1 h
  exact extendTips_filed hpool hextend

theorem produceBlock_filed (hpool : n.mempool.Filed) {produced : Option BlockId}
    (h : n.produceBlock env = .ok (produced, n')) : n'.mempool.Filed := by
  obtain ⟨l, _, h⟩ := Outcome.bind_eq_ok.1 h
  split at h
  · rw [← (Prod.mk.inj (Except.ok.inj h)).2]
    exact hpool
  obtain ⟨state, _, h⟩ := Outcome.bind_eq_ok.1 h
  simp only at h
  split at h
  · rw [← (Prod.mk.inj (Except.ok.inj h)).2]
    exact hpool
  obtain ⟨⟨block, n₁⟩, hextend, hret⟩ := Outcome.bind_eq_ok.1 h
  obtain ⟨_, rfl⟩ := Prod.mk.inj (Except.ok.inj hret)
  exact extendTips_filed hpool hextend

theorem receiveBlock_filed (hpool : n.mempool.Filed) {record : BlockRecord} {id : BlockId}
    (h : n.receiveBlock env record = .ok (id, n')) : n'.mempool.Filed := by
  obtain ⟨l, _, ⟨_, rfl⟩ | ⟨l', _, hevict⟩⟩ := receiveBlock_eq_ok h
  · exact hpool
  · exact evictMempool_filed hevict hpool

end Mempool

/-! ## The invariant -/

theorem Reachable.invariant {n : Node} (h : n.Reachable) : n.Invariant := by
  induction h with
  | new =>
      constructor
      · intro l hl
        cases hl
      · exact .empty
  | @loadLog env bytes n store hload =>
      unfold Node.loadLog at hload
      split at hload
      · cases hload
      rename_i store' l hopen
      obtain ⟨rfl, _⟩ := Prod.mk.inj (Except.ok.inj hload)
      exact ⟨fun m hm => Option.some.inj hm ▸ .of_openLog hopen, .empty⟩
  | @load env n n' bytes _ hload ih =>
      unfold Node.load at hload
      split at hload
      · cases hload
      rename_i l hread
      rw [← Except.ok.inj hload]
      exact ⟨fun m hm => Option.some.inj hm ▸ .of_readSnapshot hread, ih.mempool⟩
  | @genesis env n n' k subsidy amount founderSeed r _ hcall ih =>
      unfold Node.genesis at hcall
      split at hcall
      · cases hcall
      split at hcall
      · cases hcall
      rename_i l hnew
      obtain ⟨_, rfl⟩ := Prod.mk.inj (Except.ok.inj hcall)
      exact ⟨fun m hm => Option.some.inj hm ▸ .of_new hnew, ih.mempool⟩
  | @setProofOfWork n n' enabled _ hcall ih =>
      unfold Node.setProofOfWork at hcall
      split at hcall
      · cases hcall
      rename_i l hledger
      rw [← Except.ok.inj hcall]
      exact ⟨fun m hm => Option.some.inj hm ▸ (ih.ledger l hledger).setProofOfWork enabled,
        ih.mempool⟩
  | setMiner miner _ ih => exact ⟨ih.ledger, ih.mempool⟩
  | setNowMs now _ ih => exact ⟨ih.ledger, ih.mempool⟩
  | submitTx _ hcall ih => exact ih.of_kept (submitTx_kept hcall) (submitTx_filed ih.mempool hcall)
  | submitSigned _ hcall ih =>
      exact ih.of_kept (submitSigned_kept hcall) (submitSigned_filed ih.mempool hcall)
  | pool _ hcall ih => exact ih.of_kept (pool_kept hcall) (pool_filed ih.mempool hcall)
  | sendTo _ hcall ih => exact ih.of_produced (sendTo_produced hcall) (sendTo_filed ih.mempool hcall)
  | @produceBlock env n n' produced _ hcall ih =>
      have hcases := produceBlock_cases hcall
      cases produced with
      | none =>
          obtain rfl : _ = _ := hcases
          exact ih
      | some id => exact ih.of_produced hcases (produceBlock_filed ih.mempool hcall)
  | produceEmpty _ hcall ih =>
      exact ih.of_produced (produceEmpty_produced hcall) (produceEmpty_filed ih.mempool hcall)
  | receiveBlock _ hcall ih =>
      have hpool := receiveBlock_filed ih.mempool hcall
      rcases receiveBlock_cases hcall with rfl | hstep
      · exact ih
      · exact ih.of_produced hstep hpool

theorem Reachable.plain {n : Node} (h : n.Reachable) {l : Ledger} (hledger : n.ledger = some l) :
    l.Plain := h.invariant.ledger l hledger

theorem Reachable.wellFormed {n : Node} (h : n.Reachable) {l : Ledger}
    (hledger : n.ledger = some l) : l.WellFormed :=
  (h.plain hledger).unbounded.reachable.wellFormed

/-! ## Blocks that stay -/

section Retains

variable {env : Env} {n n' n'' : Node} {l l' : Ledger}

omit [Crypto] in
/-- A record is read off the block that is stored. -/
theorem blockRecord_congr (hledger : n.ledger = some l) (hledger' : n'.ledger = some l')
    {x : BlockId} (hblock : l'.dag.block x = l.dag.block x) :
    n'.blockRecord x = n.blockRecord x := by
  rw [blockRecord, blockRecord, hledger, hledger']
  simp only [Option.bind_eq_bind, Option.bind_some, hblock]

omit [Crypto] in
/-- Only stored blocks have a record. -/
theorem stored_of_blockRecord (hledger : n.ledger = some l) {x : BlockId} {record : BlockRecord}
    (h : n.blockRecord x = some record) : x ∈ l.dag.nodes := by
  rw [blockRecord, hledger] at h
  obtain ⟨_, hself, h⟩ := Option.bind_eq_some_iff.1 h
  obtain rfl := Option.some.inj hself
  obtain ⟨block, hblock, _⟩ := Option.bind_eq_some_iff.1 h
  obtain ⟨node, hnode, _⟩ := Option.map_eq_some_iff.1 hblock
  exact Finmap.mem_of_lookup_eq_some hnode

/-- `dag().ghostdag(id)` of the node's ledger. -/
def ghostdag (n : Node) (x : BlockId) : Option GhostdagData :=
  n.ledger.bind fun l => l.dag.ghostdag x

/-- The second node gives every record that the first one gives, and the GHOSTDAG data of
every block that the first one has data of: no block is lost and none is changed. -/
structure Retains (n n' : Node) : Prop where
  record : ∀ x record, n.blockRecord x = some record → n'.blockRecord x = some record
  data : ∀ x g, n.ghostdag x = some g → n'.ghostdag x = some g

namespace Retains

omit [Crypto] in
theorem refl (n : Node) : n.Retains n where
  record := fun _ _ h => h
  data := fun _ _ h => h

omit [Crypto] in
theorem trans (h : n.Retains n') (h' : n'.Retains n'') : n.Retains n'' where
  record := fun x record hrecord => h'.record x record (h.record x record hrecord)
  data := fun x g hg => h'.data x g (h.data x g hg)

omit [Crypto] in
theorem of_kept (h : Kept n n') : n.Retains n' where
  record := by
    intro x record hrecord
    rw [blockRecord] at hrecord ⊢
    rw [h.1]
    exact hrecord
  data := by
    intro x g hg
    rw [ghostdag] at hg ⊢
    rw [h.1]
    exact hg

/-- A block more leaves the stored ones as they are. -/
theorem of_produced (hn : n.Reachable) {id : BlockId} (h : Produced n n' id) : n.Retains n' := by
  obtain ⟨_, l, l', o, hledger, hoffer, hledger'⟩ := h
  have hl := hn.wellFormed hledger
  have hstep : Ledger.Step l (.offer o) l' := .accepted hoffer
  have hagree := (hstep.agreeOn hl).1
  have hnode : ∀ x ∈ l.dag.nodes, x ∈ l'.dag.nodes := fun x hx => hagree.symm.mem hx
  refine ⟨fun x record hrecord => ?_, fun x g hg => ?_⟩
  · have hx := stored_of_blockRecord hledger hrecord
    have hblock : l'.dag.block x = l.dag.block x := by
      rw [DagView.block, DagView.block, DagView.lookup_node hx, DagView.lookup_node (hnode x hx),
        Option.map_some, Option.map_some, (hagree.sameCore hx).block]
    rw [blockRecord_congr hledger hledger' hblock]
    exact hrecord
  · rw [ghostdag, hledger, Option.bind_some, DagView.ghostdag] at hg
    obtain ⟨node, hlookup, _⟩ := Option.map_eq_some_iff.1 hg
    have hx := Finmap.mem_of_lookup_eq_some hlookup
    rw [DagView.lookup_node hx, Option.map_some] at hg
    rw [ghostdag, hledger', Option.bind_some, DagView.ghostdag, DagView.lookup_node (hnode x hx),
      Option.map_some, ← (hagree.sameCore hx).ghostdag]
    exact hg

theorem receiveBlock (hn : n.Reachable) {record : BlockRecord} {id : BlockId}
    (h : n.receiveBlock env record = .ok (id, n')) : n.Retains n' := by
  rcases receiveBlock_cases h with rfl | hproduced
  · exact .refl n'
  · exact .of_produced hn hproduced

end Retains

end Retains

end Node

end Kovanica
