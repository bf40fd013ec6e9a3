import Kovanica.Node.Text

/-!
# How the calls of a node end

A ledger without finality keeps every state.  The calls of a node give a value or an error
whose text is one line, unless a collection outgrows the address space or, with proof of
work on, no nonce meets the target.

## Main results

* `Plain.insert_ends`, `readSnapshot_ends`: the ledger.
* `extendTips_ends`: the calls of a node that make a block, on which the others rest.
-/

namespace Kovanica

open Lib

/-- A collection outgrew the address space.  On a machine memory would have run out long before;
no call of a node ends the process for any other reason but proof of work. -/
def OutOfRoom (site : String) : Prop := site = "capacity overflow"

/-- A collection outgrew the address space or, with proof of work on, there was no nonce. -/
def Halts (pow : Bool) (site : String) : Prop :=
  OutOfRoom site ∨ pow = true ∧ site = "a nonce meeting the target exists in the u64 range"

theorem halts_false {site : String} (h : Halts false site) : OutOfRoom site := by
  rcases h with h | ⟨hpow, _⟩
  · exact h
  · cases hpow

theorem orPanic_ends {ε α : Type} {error : ε → Prop} (x : Option α) :
    Outcome.Ends (fun a => x = some a) error OutOfRoom (orPanic "capacity overflow" x) := by
  cases x with
  | none => exact rfl
  | some a => exact rfl

variable [Crypto]

namespace Ledger

variable {l l' : Ledger} {ord : HashOrder}

/-- A ledger without finality, retargeting or proof of work, as the sessions of the line protocol
have it. -/
structure Quiet (l : Ledger) : Prop where
  plain : l.Plain
  requirePow_eq : l.dag.requirePow = false

namespace Quiet

theorem of_new {k : KParam} {subsidy : U64} {genesisTxs : TxList}
    (h : Ledger.new ord k subsidy genesisTxs = .ok l) : l.Quiet := by
  refine ⟨.of_new h, ?_⟩
  obtain ⟨applied, _, rfl⟩ := new_eq_ok_iff.1 h
  rfl

theorem offer (h : l.Quiet) {o : Offer} {id : BlockId} (hoffer : l.offer o = .ok (id, l')) :
    l'.Quiet where
  plain := h.plain.offer hoffer
  requirePow_eq := (Step.accepted hoffer).policy_eq.2.trans h.requirePow_eq

theorem restoreBlock (h : l.Quiet) {block : Block} (hrestore : l.restoreBlock ord block = .ok l') :
    l'.Quiet := by
  obtain ⟨_, _, _, hoffer⟩ := restoreBlock_offer hrestore
  exact h.offer hoffer

end Quiet

/-- The only panic of an insert that keeps every state is a full block map. -/
theorem Plain.insert_ends (hl : l.Plain) (ord : HashOrder) (parents : Vec BlockId)
    (work : U128) (timestampMs nonce : U64) (txs : TxList) :
    Outcome.Ends (fun _ => True) (fun e => OneLine e.display) OutOfRoom
      (l.insert ord parents work timestampMs nonce txs) := by
  refine .intro (fun _ _ => trivial)
    (fun e h => oneLine_ledgerInsert hl.unbounded.reachable.wellFormed h) fun site h => ?_
  have hpanic : l.offer ⟨ord, parents, work, timestampMs, nonce, txs⟩ = .error (.panic site) := h
  cases hstruct : l.dag.checkStructure (Offer.block ⟨ord, parents, work, timestampMs, nonce, txs⟩)
  with
  | error e =>
      rw [offer_eq_of_structure hstruct] at hpanic
      cases hpanic
  | ok u =>
      obtain ⟨_, hne, hmem⟩ := Dag.checkStructure_ok_iff.1 hstruct
      obtain ⟨sp, hsp⟩ := exists_maxByKey l.dag.chainKey hne
      obtain ⟨state, hstate⟩ :=
        Finmap.mem_iff.1 (hl.unbounded.stored sp (hmem sp (maxByKey_mem hsp)))
      rw [offer_eq hstruct hsp] at hpanic
      split at hpanic
      · cases hpanic
      simp only [hstate] at hpanic
      split at hpanic
      · cases hpanic
      split at hpanic
      · cases hpanic
      · rename_i hinsert
        obtain rfl := Fault.panic.inj (Except.error.inj hpanic)
        exact (Dag.insert_panic hstruct hinsert).1
      · cases hpanic

theorem Plain.restoreBlock_ends (hl : l.Plain) (ord : HashOrder) (block : Block) :
    Outcome.Ends (fun _ => True) (fun _ => True) OutOfRoom (l.restoreBlock ord block) := by
  refine .intro (fun _ _ => trivial) (fun _ _ => trivial) fun site h => ?_
  unfold Ledger.restoreBlock at h
  split at h
  · cases h
  rename_i txs _
  have hinsert := hl.insert_ends ord ⟨block.parents, block.parents_fit⟩ block.work
    block.timestampMs block.nonce txs
  split at h
  · cases h
  · rename_i hpanic
    rw [hpanic] at hinsert
    obtain rfl := Fault.panic.inj (Except.error.inj h)
    exact hinsert
  · cases h

theorem Quiet.restoreBlocks_ends (hl : l.Quiet) (blocks : List Block) :
    Outcome.Ends Ledger.Quiet (fun _ => True) OutOfRoom (l.restoreBlocks ord blocks) := by
  induction blocks generalizing l with
  | nil => exact hl
  | cons block rest ih =>
      rw [Ledger.restoreBlocks]
      have hblock := hl.plain.restoreBlock_ends ord block
      split
      · rename_i e heq
        rw [heq] at hblock
        cases e <;> exact hblock
      · rename_i l' heq
        exact ih (hl.restoreBlock heq)

theorem Quiet.of_restoreGenesis {k : KParam} {subsidy : U64} {genesis : Block}
    (h : restoreGenesis ord k subsidy genesis = .ok l) : l.Quiet := by
  unfold restoreGenesis at h
  split at h
  · cases h
  split at h
  · cases h
  rename_i hnew
  rw [← Except.ok.inj h]
  exact .of_new hnew

/-- Reading a stored ledger. -/
theorem readSnapshot_ends (ord : HashOrder) (bytes : List U8) :
    Outcome.Ends Ledger.Quiet (fun e => OneLine e.display) OutOfRoom (readSnapshot ord bytes) := by
  have hcalm : Outcome.Ends Ledger.Quiet (fun _ => True) OutOfRoom (readSnapshot ord bytes) := by
    unfold readSnapshot
    split
    · exact trivial
    split
    · exact trivial
    dsimp only
    split
    · exact trivial
    split
    · exact trivial
    split
    · exact trivial
    split
    · rename_i e hgenesis
      unfold restoreGenesis at hgenesis
      split at hgenesis
      · obtain rfl := Except.error.inj hgenesis
        exact trivial
      split at hgenesis
      · obtain rfl := Except.error.inj hgenesis
        exact trivial
      · cases hgenesis
    · rename_i hgenesis
      exact (Quiet.of_restoreGenesis hgenesis).restoreBlocks_ends _
  refine .intro (fun l h => ?_) (fun e h => oneLine_readSnapshot h) fun site h => ?_
  · rw [h] at hcalm
    exact hcalm
  · rw [h] at hcalm
    exact hcalm

end Ledger

namespace Node

variable {n n' : Node} {env : Env}

/-- A node that calls have led to and that never asked for proof of work.  The line protocol has
no command that would, so its sessions never leave these nodes. -/
structure Quiet (n : Node) : Prop where
  reachable : n.Reachable
  ledger : ∀ l, n.ledger = some l → l.Quiet

/-- The call leaves such a node, or says on one line why it did not work. -/
def Serves {α : Type} (call : Outcome NodeError (α × Node)) : Prop :=
  Outcome.Ends (fun r => r.2.Quiet) (fun e => OneLine e.display) OutOfRoom call

theorem Quiet.new : Node.new.Quiet where
  reachable := .new
  ledger := by
    intro l hl
    cases hl

/-- The calls whose ledger is the one before. -/
theorem Quiet.of_ledger (h : n.Quiet) (hreach : n'.Reachable) (hledger : n'.ledger = n.ledger) :
    n'.Quiet where
  reachable := hreach
  ledger := fun l hl => h.ledger l (hledger ▸ hl)

theorem Quiet.of_produced (h : n.Quiet) (hreach : n'.Reachable) {id : BlockId}
    (hproduced : Produced n n' id) : n'.Quiet where
  reachable := hreach
  ledger := by
    intro l' hl'
    obtain ⟨_, l, l₁, o, hledger, hoffer, hledger'⟩ := hproduced
    obtain rfl := Option.some.inj (hledger'.symm.trans hl')
    exact (h.ledger l hledger).offer hoffer

theorem Quiet.genesis (h : n.Quiet) {k : KParam} {subsidy amount founderSeed : U64}
    {r : BlockId × Address} (hcall : n.genesis env k subsidy amount founderSeed = .ok (r, n')) :
    n'.Quiet where
  reachable := h.reachable.genesis hcall
  ledger := by
    intro l hl
    unfold Node.genesis at hcall
    split at hcall
    · cases hcall
    split at hcall
    · cases hcall
    rename_i hnew
    obtain ⟨_, rfl⟩ := Prod.mk.inj (Except.ok.inj hcall)
    obtain rfl := Option.some.inj hl
    exact .of_new hnew

theorem Quiet.load (h : n.Quiet) {bytes : List U8} (hcall : n.load env bytes = .ok n') :
    n'.Quiet where
  reachable := h.reachable.load hcall
  ledger := by
    intro l hl
    unfold Node.load at hcall
    have hends := Ledger.readSnapshot_ends env.ord bytes
    split at hcall
    · cases hcall
    · rename_i hread
      rw [hread] at hends
      obtain rfl := Except.ok.inj hcall
      obtain rfl := Option.some.inj hl
      exact hends

/-! ## The parts of a call -/

/-- The ledger of the node, if it has one, is without finality and retargeting. -/
def Plain (n : Node) : Prop := ∀ l, n.ledger = some l → l.Plain

theorem Quiet.plain (h : n.Quiet) : n.Plain := fun l hl => (h.ledger l hl).plain

theorem Reachable.isPlain (h : n.Reachable) : n.Plain := fun _ hl => h.plain hl

theorem Quiet.proofOfWork_eq (h : n.Quiet) : n.proofOfWork = false := by
  rw [proofOfWork]
  cases hl : n.ledger with
  | none => rfl
  | some l => exact (h.ledger l hl).requirePow_eq

omit [Crypto] in
theorem proofOfWork_of_ledger {l : Ledger} (hl : n.ledger = some l) :
    n.proofOfWork = l.dag.requirePow := by
  rw [proofOfWork, hl]
  rfl

omit [Crypto] in
theorem ledger?_ends (n : Node) :
    Outcome.Ends (fun l => n.ledger = some l) (fun e => OneLine e.display) OutOfRoom n.ledger? := by
  rw [ledger?]
  cases n.ledger with
  | none => exact oneLine_nodeError fun _ h => by cases h
  | some l => exact rfl

theorem stateOf_ends {l : Ledger} (hl : l.Plain) (env : Env) {error : NodeError → Prop}
    {panic : String → Prop} :
    Outcome.Ends (fun _ => True) error panic (stateOf env l) := by
  rw [stateOf, hl.unbounded.ledgerState]
  exact trivial

theorem balance_ends (h : n.Plain) (owner : Address) :
    Outcome.Ends (fun _ => True) (fun e => OneLine e.display) OutOfRoom (n.balance env owner) := by
  unfold balance
  apply n.ledger?_ends.bind
  intro l hl
  apply (stateOf_ends (h l hl) env).bind
  intro state _
  exact trivial

theorem utxosOf_ends (h : n.Plain) (owner : Address) :
    Outcome.Ends (fun _ => True) (fun e => OneLine e.display) OutOfRoom
      (n.utxosOf env owner) := by
  unfold utxosOf
  apply n.ledger?_ends.bind
  intro l hl
  apply (stateOf_ends (h l hl) env).bind
  intro state _
  exact trivial

theorem prepareTransfer_ends (h : n.Plain) (sender : Address) (amount : U64)
    (recipient : Address) : Outcome.Ends (fun _ => True) (fun e => OneLine e.display) OutOfRoom
      (n.prepareTransfer env sender amount recipient) := by
  unfold prepareTransfer
  dsimp only
  split
  · exact oneLine_nodeError fun _ h => by cases h
  split
  · apply n.ledger?_ends.bind
    intro l hl
    apply (stateOf_ends (h l hl) env).bind
    intro state _
    split
    · exact trivial
    · exact oneLine_nodeError fun _ h => by cases h
  · exact oneLine_nodeError fun _ h => by cases h

theorem buildTransferTo_ends (h : n.Plain) (fromSeed amount : U64) (recipient : Address) :
    Outcome.Ends (fun _ => True) (fun e => OneLine e.display) OutOfRoom
      (n.buildTransferTo env fromSeed amount recipient) := by
  unfold buildTransferTo
  dsimp only
  split
  · exact oneLine_nodeError fun _ h => by cases h
  apply (prepareTransfer_ends h _ amount recipient).bind
  intro prepared _
  exact trivial

theorem insertBlock_ends {l : Ledger} (hl : l.Plain) (record : BlockRecord) :
    Outcome.Ends (fun r => ∃ l' : Ledger, l'.Plain ∧ r.2 = { n with ledger := some l' })
      (fun e => OneLine e.display) OutOfRoom (n.insertBlock env l record) := by
  have hends := hl.insert_ends env.ord record.parents record.work
    record.timestampMs record.nonce record.txs
  refine .intro ?_ (fun e h => ?_) fun site h => ?_
  · rintro ⟨id, n'⟩ h
    obtain ⟨l', hoffer, rfl⟩ := insertBlock_eq_ok.1 h
    exact ⟨l', hl.offer hoffer, rfl⟩
  all_goals
    unfold insertBlock at h
    split at h
  · cases h
  · rename_i hinsert
    rw [hinsert] at hends
    obtain rfl := Fault.error.inj (Except.error.inj h)
    refine oneLine_nodeError fun d heq => ?_
    obtain rfl := NodeError.insert.inj heq
    exact hends
  · cases h
  · rename_i hinsert
    rw [hinsert] at hends
    obtain rfl := Fault.panic.inj (Except.error.inj h)
    exact hends
  · cases h
  · cases h

theorem evictMempool_ends (h : n.Plain) {error : NodeError → Prop} {panic : String → Prop} :
    Outcome.Ends (fun _ => True) error panic (n.evictMempool env) := by
  unfold evictMempool
  split
  · exact trivial
  · rename_i l hl
    apply (stateOf_ends (h l hl) env).bind
    intro state _
    exact trivial

/-- Making a block on the tips. -/
theorem extendTips_ends {l : Ledger} (hl : l.Plain) (txsAt : U64 → List Transaction)
    (included : List TxId) : Outcome.Ends (fun _ => True) (fun e => OneLine e.display)
      (Halts l.dag.requirePow) (n.extendTips env l txsAt included) := by
  unfold extendTips
  apply ((orPanic_ends _).imp (fun _ h => h) fun _ => Or.inl).bind
  intro parents _
  apply ((orPanic_ends _).imp (fun _ h => h) fun _ => Or.inl).bind
  intro txs _
  have hnonce : ∀ work timestamp, Outcome.Ends (fun _ => True)
      (fun e : NodeError => OneLine e.display) (Halts l.dag.requirePow)
      (mineNonce l.dag parents work timestamp txs) := by
    intro work timestamp
    rw [mineNonce]
    cases l.dag.requirePow with
    | false => exact trivial
    | true =>
        rw [if_neg (by decide)]
        cases (Pow.mine (Block.new parents work timestamp 0 txs.payload)).map Block.nonce with
        | none => exact .inr ⟨rfl, rfl⟩
        | some nonce => exact trivial
  apply (hnonce _ _).bind
  intro nonce _
  apply ((insertBlock_ends hl _).imp (fun _ h => h) fun _ => Or.inl).bind
  rintro ⟨block, n₁⟩ ⟨l', hl', rfl⟩
  have hplain : Plain { n with ledger := some l', mempool := n.mempool.removeAll included } := by
    intro m hm
    obtain rfl := Option.some.inj hm
    exact hl'
  apply (evictMempool_ends hplain).bind
  intro n₂ _
  exact trivial

/-! ## The calls -/

/-- The call gives a value or an error whose text is one line, or halts.  A caller that handles
errors goes on after it, with a text it can print. -/
def Calm {α : Type} (n : Node) (call : Outcome NodeError α) : Prop :=
  Outcome.Ends (fun _ => True) (fun e => OneLine e.display) (Halts n.proofOfWork) call

omit [Crypto] in
theorem calm_of_room {α : Type} {call : Outcome NodeError α}
    (h : Outcome.Ends (fun _ => True) (fun e => OneLine e.display) OutOfRoom call) :
    n.Calm call := h.imp (fun _ h => h) fun _ => Or.inl

theorem submitTx_calm (n : Node) (tx : Transaction) : n.Calm (n.submitTx tx) := by
  unfold submitTx
  split
  · exact oneLine_nodeError fun _ h => by cases h
  · exact trivial

theorem submitSigned_calm (h : n.Plain) (sender : Address) (amount : U64) (recipient : Address)
    (signature : Bytes 64) : n.Calm (n.submitSigned env sender amount recipient signature) := by
  unfold submitSigned
  apply (calm_of_room (prepareTransfer_ends h sender amount recipient)).bind
  intro prepared _
  dsimp only
  split
  · exact oneLine_nodeError fun _ h => by cases h
  · exact n.submitTx_calm _

theorem pool_calm (h : n.Plain) (fromSeed amount toSeed : U64) :
    n.Calm (n.pool env fromSeed amount toSeed) := by
  unfold pool
  apply (calm_of_room (buildTransferTo_ends h fromSeed amount (address toSeed))).bind
  intro tx _
  exact trivial

theorem sendTo_calm (h : n.Plain) (fromSeed amount : U64) (recipient : Address) :
    n.Calm (n.sendTo env fromSeed amount recipient) := by
  unfold sendTo
  apply (calm_of_room (buildTransferTo_ends h fromSeed amount recipient)).bind
  intro tx _
  apply (n.ledger?_ends.imp (fun _ h => h) fun _ => Or.inl).bind
  intro l hl
  rw [proofOfWork_of_ledger hl]
  apply (extendTips_ends (h l hl) _ _).bind
  intro r _
  exact trivial

theorem produceBlock_calm (h : n.Plain) : n.Calm (n.produceBlock env) := by
  unfold produceBlock
  apply (n.ledger?_ends.imp (fun _ h => h) fun _ => Or.inl).bind
  intro l hl
  split
  · exact trivial
  apply (stateOf_ends (h l hl) env).bind
  intro state _
  dsimp only
  split
  · exact trivial
  rw [proofOfWork_of_ledger hl]
  apply (extendTips_ends (h l hl) _ _).bind
  intro r _
  exact trivial

theorem produceEmpty_calm (h : n.Plain) : n.Calm (n.produceEmpty env) := by
  unfold produceEmpty
  apply (n.ledger?_ends.imp (fun _ h => h) fun _ => Or.inl).bind
  intro l hl
  rw [proofOfWork_of_ledger hl]
  exact extendTips_ends (h l hl) _ _

theorem receiveBlock_calm (h : n.Plain) (record : BlockRecord) :
    n.Calm (n.receiveBlock env record) := by
  unfold receiveBlock
  dsimp only
  split
  · exact oneLine_nodeError fun _ h => by cases h
  split
  · exact oneLine_nodeError fun _ h => by cases h
  rename_i l hl
  have hinsert : Outcome.Ends (fun r => ∃ l' : Ledger, l'.Plain ∧
      r.2 = { n with ledger := some l' }) (fun e => OneLine e.display) OutOfRoom
      (n.insertBlock env l record) := insertBlock_ends (h l hl) record
  split
  · rename_i id n' heq
    rw [heq] at hinsert
    obtain ⟨l', hl', rfl⟩ := hinsert
    have hplain : Plain { n with ledger := some l' } := by
      intro m hm
      obtain rfl := Option.some.inj hm
      exact hl'
    apply (evictMempool_ends hplain).bind
    intro n₂ _
    exact trivial
  · exact trivial
  · rename_i e _ heq
    rw [heq] at hinsert
    exact calm_of_room (hinsert.value_of fun _ _ _ => trivial)

/-! ## The calls without proof of work -/

theorem Quiet.serves (h : n.Quiet) {α : Type} {call : Outcome NodeError (α × Node)}
    (hcalm : n.Calm call) (hafter : ∀ a n', call = .ok (a, n') → n'.Quiet) : Serves call := by
  rw [Calm, h.proofOfWork_eq] at hcalm
  apply (hcalm.imp (fun _ h => h) fun _ => halts_false).value_of
  rintro ⟨a, n'⟩ hcall _
  exact hafter a n' hcall

theorem pool_serves (h : n.Quiet) (fromSeed amount toSeed : U64) :
    Serves (n.pool env fromSeed amount toSeed) :=
  h.serves (pool_calm h.plain fromSeed amount toSeed) fun _ _ hcall =>
    h.of_ledger (h.reachable.pool hcall) (pool_kept hcall).1

theorem sendTo_serves (h : n.Quiet) (fromSeed amount : U64) (recipient : Address) :
    Serves (n.sendTo env fromSeed amount recipient) :=
  h.serves (sendTo_calm h.plain fromSeed amount recipient) fun _ _ hcall =>
    h.of_produced (h.reachable.sendTo hcall) (sendTo_produced hcall)

theorem produceBlock_serves (h : n.Quiet) : Serves (n.produceBlock env) := by
  apply h.serves (produceBlock_calm h.plain)
  intro produced n' hcall
  have hreach := h.reachable.produceBlock hcall
  have hcases := produceBlock_cases hcall
  cases produced with
  | none =>
      obtain rfl : _ = _ := hcases
      exact h
  | some id => exact h.of_produced hreach hcases

theorem genesis_serves (h : n.Quiet) (k : KParam) (subsidy amount founderSeed : U64) :
    Outcome.Ends (fun r => r.2.Quiet) (fun e => OneLine e.display) OutOfRoom
      ((n.genesis env k subsidy amount founderSeed).mapError Fault.error) := by
  cases hcall : n.genesis env k subsidy amount founderSeed with
  | ok r =>
      obtain ⟨r, n'⟩ := r
      exact h.genesis hcall
  | error e =>
      unfold Node.genesis at hcall
      split at hcall
      · obtain rfl := Except.error.inj hcall
        exact oneLine_nodeError fun _ h => by cases h
      split at hcall
      · obtain rfl := Except.error.inj hcall
        exact oneLine_nodeError fun _ h => by cases h
      · cases hcall

theorem load_ends (h : n.Quiet) (env : Env) (bytes : List U8) :
    Outcome.Ends Quiet (fun e => OneLine e.display) OutOfRoom (n.load env bytes) := by
  have hread := Ledger.readSnapshot_ends env.ord bytes
  refine .intro (fun n' hcall => h.load hcall) (fun e hcall => ?_) fun site hcall => ?_
  all_goals
    unfold Node.load at hcall
    split at hcall
  · rename_i heq
    rw [heq, Except.error.inj hcall] at hread
    exact hread
  · cases hcall
  · rename_i heq
    rw [heq, Except.error.inj hcall] at hread
    exact hread
  · cases hcall

end Node

end Kovanica
