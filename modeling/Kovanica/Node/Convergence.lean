import Kovanica.Node.Net
import Kovanica.Node.Growth

/-!
# Two-way gossip converges

A node exports its blocks parents first, and a node of the same genesis takes
each of them, whatever else it holds.  After `gossip(a, b)` and `gossip(b, a)`
both hold the blocks of both, and with them the same order and states.

## Main results

* `Sound.mem_exportBlocks`, `Sound.parents_exportBlocks`: stored blocks are exported, parents
  first.
* `gossipLoop_sound`, `gossip_sound`: what the receiver holds afterwards.
* `same_of_mem_iff`: two nodes that hold the same blocks agree on everything.
-/

namespace Kovanica

open Lib

namespace Node

variable [Crypto]

/-- The blocks of a node, none without a ledger.  Ids are compared elsewhere; these are the blocks
with all their fields. -/
def blocks (n : Node) : Set Block := {b | ∃ l, n.ledger = some l ∧ b ∈ l.blocks}

/-- The ids of a node's blocks. -/
def ids (n : Node) : Finset BlockId :=
  match n.ledger with
  | none => ∅
  | some l => l.dag.nodes.keys

omit [Crypto] in
theorem mem_ids {n : Node} {id : BlockId} :
    id ∈ n.ids ↔ ∃ l, n.ledger = some l ∧ id ∈ l.dag.nodes := by
  unfold ids
  cases n.ledger with
  | none => simp
  | some l => simp [Finmap.mem_keys]

omit [Crypto] in
theorem blocks_eq {n : Node} {l : Ledger} (h : n.ledger = some l) : n.blocks = l.blocks :=
  Set.ext fun _ => ⟨fun ⟨_, hl', hb⟩ => Option.some.inj (hl'.symm.trans h) ▸ hb,
    fun hb => ⟨l, h, hb⟩⟩

omit [Crypto] in
theorem ids_eq {n : Node} {l : Ledger} (h : n.ledger = some l) : n.ids = l.dag.nodes.keys := by
  rw [ids, h]

/-- The hashed bytes of a node's blocks. -/
def preimages (n : Node) : List (List U8) :=
  match n.ledger with
  | none => []
  | some l => (ascending l.dag.nodes.keys).map fun x => (l.dag.node x).block.preimage

omit [Crypto] in
theorem preimage_mem_preimages {n : Node} {b : Block} (h : b ∈ n.blocks) :
    b.preimage ∈ n.preimages := by
  obtain ⟨l, hl, x, hx, rfl⟩ := h
  rw [preimages, hl]
  exact List.mem_map_of_mem (mem_ascending.2 (Finmap.mem_keys.2 hx))

/-- A node brought up at a genesis, its proof of work switched on right then or
never, and used in any way since. -/
inductive Grown (k : KParam) (subsidy amount founderSeed : U64) (pow : Bool) : Node → Prop
  | genesis {env : Env} {n₀ n : Node} {r : BlockId × Address} :
      n₀.genesis env k subsidy amount founderSeed = .ok (r, n) → pow = false →
      Grown k subsidy amount founderSeed pow n
  | genesisPow {env : Env} {n₀ n n' : Node} {r : BlockId × Address} :
      n₀.genesis env k subsidy amount founderSeed = .ok (r, n) → pow = true →
      n.setProofOfWork true = .ok n' → Grown k subsidy amount founderSeed pow n'
  | setMiner {n : Node} (miner : Address) : Grown k subsidy amount founderSeed pow n →
      Grown k subsidy amount founderSeed pow (n.setMiner miner)
  | setNowMs {n : Node} (now : U64) : Grown k subsidy amount founderSeed pow n →
      Grown k subsidy amount founderSeed pow (n.setNowMs now)
  | submitTx {n n' : Node} {tx : Transaction} {id : TxId} :
      Grown k subsidy amount founderSeed pow n → n.submitTx tx = .ok (id, n') →
      Grown k subsidy amount founderSeed pow n'
  | submitSigned {env : Env} {n n' : Node} {sender recipient : Address} {value : U64}
      {signature : Bytes 64} {id : TxId} : Grown k subsidy amount founderSeed pow n →
      n.submitSigned env sender value recipient signature = .ok (id, n') →
      Grown k subsidy amount founderSeed pow n'
  | pool {env : Env} {n n' : Node} {fromSeed value toSeed : U64} {id : TxId} :
      Grown k subsidy amount founderSeed pow n →
      n.pool env fromSeed value toSeed = .ok (id, n') →
      Grown k subsidy amount founderSeed pow n'
  | sendTo {env : Env} {n n' : Node} {fromSeed value : U64} {recipient : Address} {sent : Sent} :
      Grown k subsidy amount founderSeed pow n →
      n.sendTo env fromSeed value recipient = .ok (sent, n') →
      Grown k subsidy amount founderSeed pow n'
  | produceBlock {env : Env} {n n' : Node} {produced : Option BlockId} :
      Grown k subsidy amount founderSeed pow n → n.produceBlock env = .ok (produced, n') →
      Grown k subsidy amount founderSeed pow n'
  | produceEmpty {env : Env} {n n' : Node} {id : BlockId} :
      Grown k subsidy amount founderSeed pow n → n.produceEmpty env = .ok (id, n') →
      Grown k subsidy amount founderSeed pow n'
  | receiveBlock {env : Env} {n n' : Node} {record : BlockRecord} {id : BlockId} :
      Grown k subsidy amount founderSeed pow n → n.receiveBlock env record = .ok (id, n') →
      Grown k subsidy amount founderSeed pow n'

theorem genesis_eq_ok {env : Env} {n n' : Node} {k : KParam} {subsidy amount founderSeed : U64}
    {r : BlockId × Address} (h : n.genesis env k subsidy amount founderSeed = .ok (r, n')) :
    ∃ l, Ledger.new env.ord k subsidy (genesisTxs amount founderSeed) = .ok l ∧
      n'.ledger = some l := by
  rw [genesis] at h
  split at h
  · cases h
  split at h
  · cases h
  rename_i l hnew
  obtain ⟨_, rfl⟩ := Prod.mk.inj (Except.ok.inj h)
  exact ⟨l, hnew, rfl⟩

/-- Any use leaves the node sound. -/
theorem Grown.sound {k : KParam} {subsidy amount founderSeed : U64} {pow : Bool} {n : Node}
    (h : Grown k subsidy amount founderSeed pow n) :
    ∃ l, Sound k subsidy (genesisTxs amount founderSeed) pow n l := by
  have hproduced : ∀ {n n' : Node} {id : BlockId},
      (∃ l, Sound k subsidy (genesisTxs amount founderSeed) pow n l) → Produced n n' id →
      ∃ l, Sound k subsidy (genesisTxs amount founderSeed) pow n' l := by
    rintro n n' id ⟨l, hl⟩ hstep
    obtain ⟨l', _, hl', _⟩ := hl.produced hstep
    exact ⟨l', hl'⟩
  induction h with
  | genesis hgenesis hpow =>
      obtain ⟨l, hnew, hledger⟩ := genesis_eq_ok hgenesis
      have hoff := Ledger.Healthy.setProofOfWork_new hnew
      have hstart : AtGenesis k subsidy (genesisTxs amount founderSeed) pow _ :=
        ⟨_, l, hnew, by rw [hledger, hpow, hoff]⟩
      obtain ⟨l', hl', _⟩ := Sound.of_atGenesis hstart
      exact ⟨l', hl'⟩
  | genesisPow hgenesis hpow hset =>
      obtain ⟨l, hnew, hledger⟩ := genesis_eq_ok hgenesis
      rw [setProofOfWork, hledger] at hset
      have hledger' := congrArg Node.ledger (Except.ok.inj hset)
      have hstart : AtGenesis k subsidy (genesisTxs amount founderSeed) pow _ :=
        ⟨_, l, hnew, by rw [hpow]; exact hledger'.symm⟩
      obtain ⟨l', hl', _⟩ := Sound.of_atGenesis hstart
      exact ⟨l', hl'⟩
  | setMiner _ _ ih => exact ih.imp fun _ hl => hl.kept ⟨rfl, rfl⟩
  | setNowMs _ _ ih => exact ih.imp fun _ hl => ⟨hl.ledger_eq, hl.healthy, hl.rooted⟩
  | submitTx _ hcall ih => exact ih.imp fun _ hl => hl.kept (submitTx_kept hcall)
  | submitSigned _ hcall ih => exact ih.imp fun _ hl => hl.kept (submitSigned_kept hcall)
  | pool _ hcall ih => exact ih.imp fun _ hl => hl.kept (pool_kept hcall)
  | sendTo _ hcall ih => exact hproduced ih (sendTo_produced hcall)
  | @produceBlock _ _ _ produced _ hcall ih =>
      have hcases := produceBlock_cases hcall
      cases produced with
      | none =>
          obtain rfl : _ = _ := hcases
          exact ih
      | some id => exact hproduced ih hcases
  | produceEmpty _ hcall ih => exact hproduced ih (produceEmpty_produced hcall)
  | receiveBlock _ hcall ih =>
      rcases receiveBlock_cases hcall with rfl | hstep
      · exact ih
      · exact hproduced ih hstep

/-! ## What is exported -/

omit [Crypto] in
private theorem map_filterMap {α β : Type} {f : α → Option β} {g : β → α} :
    ∀ {xs : List α}, (∀ x ∈ xs, ∃ y, f x = some y ∧ g y = x) → (xs.filterMap f).map g = xs
  | [], _ => rfl
  | x :: xs, h => by
      obtain ⟨y, hy, hgy⟩ := h x (List.mem_cons_self ..)
      rw [List.filterMap_cons_some hy, List.map_cons, hgy,
        map_filterMap fun x hx => h x (List.mem_cons_of_mem _ hx)]

section Export

variable {k : KParam} {subsidy : U64} {genesisTxs : TxList} {pow : Bool} {n : Node} {l : Ledger}

theorem Sound.exportBlocks_eq (h : Sound k subsidy genesisTxs pow n l) (env : Env) :
    n.exportBlocks env = ((l.dag.linearize env.ord).filter fun id => id != l.dag.genesis).filterMap
      n.blockRecord := by
  rw [exportBlocks, h.ledger_eq, h.healthy.wellFormed.genesis_eq]

/-- The exported ids are the linearization without genesis. -/
theorem Sound.exportBlocks_ids (h : Sound k subsidy genesisTxs pow n l) (env : Env) :
    (n.exportBlocks env).map (fun r => r.block.id) =
      (l.dag.linearize env.ord).filter fun id => id != l.dag.genesis := by
  rw [h.exportBlocks_eq]
  refine map_filterMap fun x hx => ?_
  have hmem := (h.healthy.wellFormed.dag.mem_linearize env.ord x).1 (List.mem_of_mem_filter hx)
  obtain ⟨record, hrecord, hblock⟩ := h.blockRecord hmem
  refine ⟨record, hrecord, ?_⟩
  rw [hblock]
  exact h.healthy.wellFormed.dag.id_eq x _ (DagView.lookup_node hmem)

/-- Every exported record stands for a stored block that is not genesis. -/
theorem Sound.mem_exportBlocks (h : Sound k subsidy genesisTxs pow n l) {env : Env}
    {record : BlockRecord} (hrecord : record ∈ n.exportBlocks env) :
    record.block ∈ l.blocks ∧ record.block.id ≠ l.dag.genesis := by
  have hid := List.mem_map_of_mem (f := fun r : BlockRecord => r.block.id) hrecord
  rw [h.exportBlocks_ids, List.mem_filter, bne_iff_ne] at hid
  refine ⟨?_, hid.2⟩
  rw [h.exportBlocks_eq, List.mem_filterMap] at hrecord
  obtain ⟨x, hx, heq⟩ := hrecord
  have hmem := (h.healthy.wellFormed.dag.mem_linearize env.ord x).1 (List.mem_of_mem_filter hx)
  obtain ⟨record', hrecord', hblock⟩ := h.blockRecord hmem
  rw [← Option.some.inj (hrecord'.symm.trans heq), hblock]
  exact Ledger.mem_blocks hmem

/-- Every block but genesis is exported. -/
theorem Sound.exists_exportBlocks (h : Sound k subsidy genesisTxs pow n l) (env : Env) {b : Block}
    (hb : b ∈ l.blocks) (hne : b.id ≠ l.dag.genesis) :
    ∃ record ∈ n.exportBlocks env, record.block = b := by
  obtain ⟨hmem, hstored⟩ := h.healthy.wellFormed.mem_blocks_iff.1 hb
  obtain ⟨record, hrecord, hblock⟩ := h.blockRecord hmem
  refine ⟨record, ?_, hblock.trans hstored⟩
  rw [h.exportBlocks_eq, List.mem_filterMap]
  refine ⟨b.id, List.mem_filter.2 ⟨?_, bne_iff_ne.2 hne⟩, hrecord⟩
  exact (h.healthy.wellFormed.dag.mem_linearize env.ord _).2 hmem

/-- Records come after the records of their parents. -/
theorem Sound.parents_exportBlocks (h : Sound k subsidy genesisTxs pow n l) {env : Env}
    {before after : List BlockRecord} {record : BlockRecord}
    (hsplit : n.exportBlocks env = before ++ record :: after) {p : BlockId}
    (hp : p ∈ record.block.parents) :
    p = l.dag.genesis ∨ ∃ r ∈ before, r.block.id = p := by
  have hd := h.healthy.wellFormed.dag
  have hrecord : record ∈ n.exportBlocks env := by
    rw [hsplit]
    exact List.mem_append_right _ (List.mem_cons_self ..)
  obtain ⟨hblock, _⟩ := h.mem_exportBlocks hrecord
  obtain ⟨hmem, hstored⟩ := h.healthy.wellFormed.mem_blocks_iff.1 hblock
  have hedge : l.dag.Edge p record.block.id := by
    rw [← DagView.mem_parentsOf, DagView.parentsOf, hstored]
    exact hp
  refine or_iff_not_imp_left.2 fun hne => ?_
  have hids := h.exportBlocks_ids env
  rw [hsplit, List.map_append, List.map_cons] at hids
  have hin : p ∈ before.map (fun r => r.block.id) ++
      record.block.id :: after.map (fun r => r.block.id) := by
    rw [hids, List.mem_filter, bne_iff_ne]
    exact ⟨(hd.mem_linearize env.ord p).2 (hd.parents_mem _ _ hedge), hne⟩
  have hpairs : (before.map (fun r => r.block.id) ++
      record.block.id :: after.map (fun r => r.block.id)).Pairwise
        fun a b => ¬ l.dag.Anc b a := by
    rw [hids]
    exact (hd.pairwise_linearize env.ord).filter _
  -- an ancestor is not the record itself and not after it
  rcases List.mem_append.1 hin with hbefore | hrest
  · obtain ⟨r, hr, hid⟩ := List.mem_map.1 hbefore
    exact ⟨r, hr, hid⟩
  · rcases List.mem_cons.1 hrest with rfl | hafter
    · exact absurd (.single hedge) (hd.acyclic _)
    · exact absurd (.single hedge) ((List.pairwise_cons.1 (List.pairwise_append.1 hpairs).2.1).1
        p hafter)

end Export

end Node

/-! ## One direction -/

namespace Net

variable [Crypto] {k : KParam} {subsidy : U64} {genesisTxs : TxList} {pow : Bool}

open Node (Sound)

/-- A sound node takes records of stored blocks, each after its parents. -/
theorem gossipLoop_sound {m : Ledger} (hm : m.Healthy pow) (hmroot : m.Rooted k subsidy genesisTxs)
    {S : Set Block} (hS : Set.InjOn Crypto.blake3 (Block.preimage '' S)) (hmS : m.blocks ⊆ S)
    {U : Finset BlockId} (hU : U.card < mapCapacity) (hmU : m.dag.nodes.keys ⊆ U)
    {envs : Nat → Env} {records : List BlockRecord} {n : Node} {l : Ledger}
    (hn : Sound k subsidy genesisTxs pow n l) (hlS : l.blocks ⊆ S) (hlU : l.dag.nodes.keys ⊆ U)
    (hblocks : ∀ r ∈ records, r.block ∈ m.blocks ∧ r.block.id ≠ m.dag.genesis)
    (hparents : ∀ before r after, records = before ++ r :: after → ∀ p ∈ r.block.parents,
      p ∈ l.dag.nodes ∨ ∃ r' ∈ before, r'.block.id = p)
    (htime : ∀ r ∈ records, ∀ i,
      r.timestampMs.val ≤ (n.nowMs (envs i)).val + maxFutureDriftMs.val) (applied : Nat) :
    ∃ n' l', gossipLoop envs applied records n = (.ok (applied + records.length), n') ∧
      Sound k subsidy genesisTxs pow n' l' ∧
      ∀ b, b ∈ l'.blocks ↔ b ∈ l.blocks ∨ ∃ r ∈ records, r.block = b := by
  induction records generalizing n l applied with
  | nil => exact ⟨n, l, rfl, hn, fun b => by simp⟩
  | cons r rest ih =>
      obtain ⟨hblock, hne⟩ := hblocks r (List.mem_cons_self ..)
      have hcompat := hm.compatible hn.healthy (hmroot.same hn.rooted) hS hmS hlS
      have hheld : ∀ p ∈ r.block.parents, p ∈ l.dag.nodes := by
        intro p hp
        rcases hparents [] r rest rfl p hp with hin | ⟨r', hr', _⟩
        · exact hin
        · exact absurd hr' List.not_mem_nil
      have hstep := hn.receiveBlock hm hcompat hblock hne hheld (htime r (List.mem_cons_self ..)
        applied)
      have hlen : applied + (r :: rest).length = applied + 1 + rest.length := by
        rw [List.length_cons]
        omega
      have hrestBlocks : ∀ r' ∈ rest, r'.block ∈ m.blocks ∧ r'.block.id ≠ m.dag.genesis :=
        fun r' hr' => hblocks r' (List.mem_cons_of_mem _ hr')
      have hsplit : ∀ before r' after, rest = before ++ r' :: after → ∀ p ∈ r'.block.parents,
          p ∈ l.dag.nodes ∨ p = r.block.id ∨ ∃ r'' ∈ before, r''.block.id = p := by
        rintro before r' after rfl p hp
        rcases hparents (r :: before) r' after rfl p hp with hin | ⟨r'', hr'', rfl⟩
        · exact .inl hin
        · rcases List.mem_cons.1 hr'' with rfl | hr''
          · exact .inr (.inl rfl)
          · exact .inr (.inr ⟨r'', hr'', rfl⟩)
      obtain ⟨hmem, hstored⟩ := hm.wellFormed.mem_blocks_iff.1 hblock
      rcases hstep with ⟨hin, hcall⟩ | ⟨hnot, hcases⟩
      · -- known already
        have hself : r.block ∈ l.blocks :=
          ⟨_, hin, (hcompat.block_eq _ hmem hin).symm.trans hstored⟩
        obtain ⟨n', l', hloop, hn', hiff⟩ := ih hn hlS hlU hrestBlocks
          (fun before r' after heq p hp => by
            rcases hsplit before r' after heq p hp with hold | rfl | hearlier
            · exact .inl hold
            · exact .inl hin
            · exact .inr hearlier)
          (fun r' hr' => htime r' (List.mem_cons_of_mem _ hr')) (applied + 1)
        refine ⟨n', l', ?_, hn', fun b => ?_⟩
        · rw [gossipLoop, hcall, hlen]
          exact hloop
        · rw [hiff, List.exists_mem_cons_iff]
          constructor
          · exact fun h => h.imp id .inr
          · rintro (hold | rfl | hlater)
            · exact .inl hold
            · exact .inl hself
            · exact .inr hlater
      · have hroom : l.dag.len + 1 < mapCapacity := by
          refine lt_of_le_of_lt ?_ hU
          have hsub : insert r.block.id l.dag.nodes.keys ⊆ U :=
            Finset.insert_subset (hmU (Finmap.mem_keys.2 hmem)) hlU
          have hcard := Finset.card_le_card hsub
          rwa [Finset.card_insert_of_notMem (mt Finmap.mem_keys.1 hnot)] at hcard
        rw [if_pos hroom] at hcases
        obtain ⟨n₁, l₁, hcall, hn₁, hgrew, hclock⟩ := hcases
        have hnow : ∀ env, n₁.nowMs env = n.nowMs env := fun env => by
          rw [Node.nowMs, Node.nowMs, hclock]
        obtain ⟨n', l', hloop, hn', hiff⟩ := ih hn₁
          (fun b hb => ((hgrew.blocks_iff).1 hb).elim (fun h => hlS h) fun h => h ▸ hmS hblock)
          (fun x hx => by
            rcases (hgrew.mem_iff x).1 (Finmap.mem_keys.1 hx) with hold | rfl
            · exact hlU (Finmap.mem_keys.2 hold)
            · exact hmU (Finmap.mem_keys.2 hmem)) hrestBlocks
          (fun before r' after heq p hp => by
            rcases hsplit before r' after heq p hp with hold | rfl | hearlier
            · exact .inl ((hgrew.mem_iff p).2 (.inl hold))
            · exact .inl ((hgrew.mem_iff _).2 (.inr rfl))
            · exact .inr hearlier)
          (fun r' hr' i => by
            rw [hnow]
            exact htime r' (List.mem_cons_of_mem _ hr') i) (applied + 1)
        refine ⟨n', l', ?_, hn', fun b => ?_⟩
        · rw [gossipLoop, hcall, hlen]
          exact hloop
        · rw [hiff, hgrew.blocks_iff, List.exists_mem_cons_iff, or_assoc, eq_comm (a := b)]

/-- `gossip` brings every block of the source to the target. -/
theorem gossip_sound {S : Set Block} (hS : Set.InjOn Crypto.blake3 (Block.preimage '' S))
    {U : Finset BlockId} (hU : U.card < mapCapacity) {source target : Node} {m l : Ledger}
    (hsource : Sound k subsidy genesisTxs pow source m)
    (htarget : Sound k subsidy genesisTxs pow target l) (hmS : m.blocks ⊆ S) (hlS : l.blocks ⊆ S)
    (hmU : m.dag.nodes.keys ⊆ U) (hlU : l.dag.nodes.keys ⊆ U) {env : Env} {envs : Nat → Env}
    (htime : ∀ r ∈ source.exportBlocks env, ∀ i,
      r.timestampMs.val ≤ (target.nowMs (envs i)).val + maxFutureDriftMs.val) :
    ∃ n' l' applied, gossip env envs source target = (.ok applied, n') ∧
      Sound k subsidy genesisTxs pow n' l' ∧ l'.blocks = m.blocks ∪ l.blocks := by
  have hgenesis : m.dag.genesis ∈ l.dag.nodes :=
    (hsource.rooted.same htarget.rooted).genesis_eq ▸ htarget.healthy.wellFormed.dag.genesis_mem
  obtain ⟨n', l', hloop, hn', hiff⟩ := gossipLoop_sound hsource.healthy hsource.rooted hS hmS hU hmU
    htarget hlS hlU (fun r hr => hsource.mem_exportBlocks hr)
    (fun before r after hsplit p hp => by
      rcases hsource.parents_exportBlocks hsplit hp with rfl | hearlier
      · exact .inl hgenesis
      · exact .inr hearlier) htime 0
  refine ⟨n', l', _, hloop, hn', Set.ext fun b => ?_⟩
  rw [hiff, Set.mem_union, or_comm]
  refine or_congr_left' fun hnot => ⟨?_, fun hb => ?_⟩
  · rintro ⟨r, hr, rfl⟩
    exact (hsource.mem_exportBlocks hr).1
  · refine hsource.exists_exportBlocks env hb fun hid => hnot ?_
    -- the genesis block is at the target already
    have hcompat := hsource.healthy.compatible htarget.healthy
      (hsource.rooted.same htarget.rooted) hS hmS hlS
    obtain ⟨hmem, hstored⟩ := hsource.healthy.wellFormed.mem_blocks_iff.1 hb
    have hin : b.id ∈ l.dag.nodes := hid ▸ hgenesis
    exact ⟨_, hin, (hcompat.block_eq _ hmem hin).symm.trans hstored⟩

/-! ## Both directions -/

/-- Sound nodes that hold the same ids have the same consensus and states. -/
theorem same_of_mem_iff {S : Set Block} (hS : Set.InjOn Crypto.blake3 (Block.preimage '' S))
    {a b : Node} {la lb : Ledger} (ha : Sound k subsidy genesisTxs pow a la)
    (hb : Sound k subsidy genesisTxs pow b lb) (haS : la.blocks ⊆ S) (hbS : lb.blocks ⊆ S)
    (hmem : ∀ x, x ∈ la.dag.nodes ↔ x ∈ lb.dag.nodes) :
    DagView.SameConsensus la.dag.toDagView lb.dag.toDagView ∧
      (∀ x, la.state x = lb.state x) ∧
      ∀ ord ord', la.ledgerState ord = lb.ledgerState ord' ∧ (la.ledgerState ord).isSome := by
  have hcompat := ha.healthy.compatible hb.healthy (ha.rooted.same hb.rooted) hS haS hbS
  obtain ⟨hsame, _, hstates, hreplay⟩ := hcompat.same_of_mem_iff ha.healthy.wellFormed
    hb.healthy.wellFormed hmem
  refine ⟨hsame, fun x => ?_, fun ord ord' => ?_⟩
  · by_cases hx : x ∈ la.dag.nodes
    · rw [ha.healthy.state_eq hx, hb.healthy.state_eq ((hmem x).1 hx), hstates x hx]
    · have hnone : ∀ {l : Ledger}, l.WellFormed → x ∉ l.dag.nodes → l.state x = none :=
        fun hl hnot => Option.eq_none_iff_forall_ne_some.2 fun state hstate =>
          hnot (hl.state_eq x state hstate).1
      rw [hnone ha.healthy.wellFormed hx,
        hnone hb.healthy.wellFormed (mt (hmem x).2 hx)]
  · rw [ha.healthy.ledgerState, hb.healthy.ledgerState, hreplay ord ord']
    exact ⟨rfl, rfl⟩

/-- Sound nodes that hold the same blocks hold the same ids. -/
theorem mem_iff_of_blocks_eq {a b : Node} {la lb : Ledger}
    (ha : Sound k subsidy genesisTxs pow a la) (hb : Sound k subsidy genesisTxs pow b lb)
    (hblocks : la.blocks = lb.blocks) (x : BlockId) : x ∈ la.dag.nodes ↔ x ∈ lb.dag.nodes :=
  ⟨fun hx => ha.healthy.wellFormed.mem_of_mem_blocks hb.healthy.wellFormed hx
      (hblocks ▸ Ledger.mem_blocks hx),
    fun hx => hb.healthy.wellFormed.mem_of_mem_blocks ha.healthy.wellFormed hx
      (hblocks ▸ Ledger.mem_blocks hx)⟩

/-- Gossip in both directions succeeds and leaves both nodes with the blocks of
both, the same tips, linearization and states, and the same ledger state. -/
theorem gossip_converges {subsidy amount founderSeed : U64} {a b : Node}
    (ha : Node.Grown k subsidy amount founderSeed pow a)
    (hb : Node.Grown k subsidy amount founderSeed pow b)
    (hcollision : Set.InjOn Crypto.blake3 (Block.preimage '' (a.blocks ∪ b.blocks)))
    (hroom : (a.ids ∪ b.ids).card < mapCapacity) {env env' : Env} {envs envs' : Nat → Env}
    (htime : ∀ r ∈ a.exportBlocks env, ∀ i,
      r.timestampMs.val ≤ (b.nowMs (envs i)).val + maxFutureDriftMs.val)
    (htime' : ∀ r ∈ (gossip env envs a b).2.exportBlocks env', ∀ i,
      r.timestampMs.val ≤ (a.nowMs (envs' i)).val + maxFutureDriftMs.val) :
    ∃ applied applied' a' b' la lb, gossip env envs a b = (.ok applied, b') ∧
      gossip env' envs' b' a = (.ok applied', a') ∧ a'.ledger = some la ∧ b'.ledger = some lb ∧
      (∀ x, x ∈ la.dag.nodes ↔ x ∈ lb.dag.nodes) ∧ la.dag.tipList = lb.dag.tipList ∧
      (∀ ord ord', la.dag.linearize ord = lb.dag.linearize ord') ∧
      (∀ x, la.state x = lb.state x) ∧
      ∀ ord ord', la.ledgerState ord = lb.ledgerState ord' ∧ (la.ledgerState ord).isSome := by
  obtain ⟨la, hla⟩ := ha.sound
  obtain ⟨lb, hlb⟩ := hb.sound
  rw [Node.blocks_eq hla.ledger_eq, Node.blocks_eq hlb.ledger_eq] at hcollision
  rw [Node.ids_eq hla.ledger_eq, Node.ids_eq hlb.ledger_eq] at hroom
  obtain ⟨b', lb', applied, hgossip, hb', hunion⟩ := gossip_sound hcollision hroom hla hlb
    Set.subset_union_left Set.subset_union_right Finset.subset_union_left
    Finset.subset_union_right htime
  rw [hgossip] at htime'
  have hids' : lb'.dag.nodes.keys ⊆ la.dag.nodes.keys ∪ lb.dag.nodes.keys := by
    intro x hx
    have hmem := Finmap.mem_keys.1 hx
    have hin := Ledger.mem_blocks hmem
    rw [hunion] at hin
    rw [Finset.mem_union, Finmap.mem_keys, Finmap.mem_keys]
    exact hin.imp (hb'.healthy.wellFormed.mem_of_mem_blocks hla.healthy.wellFormed hmem)
      (hb'.healthy.wellFormed.mem_of_mem_blocks hlb.healthy.wellFormed hmem)
  obtain ⟨a', la', applied', hgossip', ha', hunion'⟩ := gossip_sound hcollision hroom hb' hla
    hunion.le Set.subset_union_left hids' Finset.subset_union_left htime'
  have hsame : la'.blocks = lb'.blocks := by
    rw [hunion', hunion]
    exact Set.union_eq_left.2 Set.subset_union_left
  have hmem := mem_iff_of_blocks_eq ha' hb' hsame
  obtain ⟨hconsensus, hstate, hledger⟩ := same_of_mem_iff hcollision ha' hb'
    (hsame ▸ hunion.le) hunion.le hmem
  exact ⟨applied, applied', a', b', la', lb', hgossip, hgossip', ha'.ledger_eq, hb'.ledger_eq, hmem,
    hconsensus.tips, hconsensus.linearize, hstate, hledger⟩

end Net

namespace Node

open scoped Reference

/-- A node brought up at a genesis that has produced one block, at this time. -/
def producedAt (now : U64) : Outcome NodeError Node := do
  match Node.new.genesis ⟨.sorted, now⟩ 3 1 1 1 with
  | .error e => .error (.error e)
  | .ok (_, n) =>
      let (_, n) ← (n.setNowMs now).produceEmpty ⟨.sorted, now⟩
      return n

theorem grown_of_producedAt {now : U64} {n : Node} (h : producedAt now = .ok n) :
    Grown 3 1 1 1 false n := by
  rw [producedAt] at h
  split at h
  · cases h
  · rename_i hgenesis
    obtain ⟨⟨id, n'⟩, hproduce, hret⟩ := Outcome.bind_eq_ok.1 h
    obtain rfl := Except.ok.inj hret
    exact (Grown.setNowMs now (.genesis hgenesis rfl)).produceEmpty hproduce

end Node

namespace Net

open scoped Reference

/-- Two nodes with a block of their own each. -/
theorem gossip_converges_pair : ∃ a b, Node.producedAt 5 = .ok a ∧ Node.producedAt 7 = .ok b ∧
    ∃ applied applied' a' b' la lb,
      gossip ⟨.sorted, 0⟩ (fun _ => ⟨.sorted, 0⟩) a b = (.ok applied, b') ∧
      gossip ⟨.sorted, 0⟩ (fun _ => ⟨.sorted, 0⟩) b' a = (.ok applied', a') ∧
      a'.ledger = some la ∧ b'.ledger = some lb ∧ la.dag.tipList = lb.dag.tipList := by
  have hcheck : (match Node.producedAt 5, Node.producedAt 7 with
      | .ok a, .ok b => decide (
          (∀ x ∈ a.preimages ++ b.preimages, ∀ y ∈ a.preimages ++ b.preimages,
            Crypto.blake3 x = Crypto.blake3 y → x = y) ∧
          (a.ids ∪ b.ids).card < mapCapacity ∧
          (∀ r ∈ a.exportBlocks ⟨.sorted, 0⟩,
            r.timestampMs.val ≤ (b.nowMs ⟨.sorted, 0⟩).val + maxFutureDriftMs.val) ∧
          ∀ r ∈ (gossip ⟨.sorted, 0⟩ (fun _ => ⟨.sorted, 0⟩) a b).2.exportBlocks ⟨.sorted, 0⟩,
            r.timestampMs.val ≤ (a.nowMs ⟨.sorted, 0⟩).val + maxFutureDriftMs.val)
      | _, _ => false) = true := by
    decide +kernel
  split at hcheck
  · rename_i a b ha hb
    obtain ⟨hhash, hroom, htime, htime'⟩ := of_decide_eq_true hcheck
    have hcollision : Set.InjOn Crypto.blake3 (Block.preimage '' (a.blocks ∪ b.blocks)) :=
      Block.injOn_blake3 (fun c hc => List.mem_append.2
        (hc.imp Node.preimage_mem_preimages Node.preimage_mem_preimages)) hhash
    obtain ⟨applied, applied', a', b', la, lb, hab, hba, hla, hlb, _, htips, _⟩ :=
      gossip_converges (Node.grown_of_producedAt ha) (Node.grown_of_producedAt hb) hcollision hroom
        (fun r hr _ => htime r hr) (fun r hr _ => htime' r hr)
    exact ⟨a, b, ha, hb, applied, applied', a', b', la, lb, hab, hba, hla, hlb, htips⟩
  · cases hcheck

end Net

end Kovanica
