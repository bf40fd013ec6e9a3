import Kovanica.State.Snapshot

/-!
# The two readers of a snapshot

A ledger snapshot holds the snapshot of a DAG, and either can be read.  The reader of
DAGs keeps every block as it is stored.  The reader of ledgers does so for every block
but the first: of the genesis it takes the transactions, and puts them under a header of
its own.

## Main results

* `readSnapshot_eq_ok`: what a ledger read from a snapshot was rebuilt from.
* `genesis_of_restoreGenesis`: it has the stored payload of the genesis and no other part of it.
* `exists_readDag`: under the header that ledgers write, the reader of DAGs follows.
-/

namespace Kovanica

open Lib

namespace Ledger

variable [Crypto] {m m' : Ledger} {ord : HashOrder} {blocks : List Block}

/-! ## What the loop over the blocks leaves -/

/-- What is in a ledger after these blocks were replayed into another: the blocks of both, each
under its id, and nothing else. -/
structure Replayed (m : Ledger) (blocks : List Block) (m' : Ledger) : Prop where
  unbounded : m'.Unbounded
  sameParameters : m.SameParameters m'
  mem_iff : ∀ x, x ∈ m'.dag.nodes ↔ x ∈ m.dag.nodes ∨ x ∈ blocks.map Block.id
  kept : ∀ x b, m.dag.block x = some b → m'.dag.block x = some b
  stored : ∀ b ∈ blocks, m'.dag.block b.id = some b
  nodup : (blocks.map Block.id).Nodup
  fresh : ∀ b ∈ blocks, b.id ∉ m.dag.nodes
  parents : ∀ before b after, blocks = before ++ b :: after →
    ∀ p ∈ b.parents, p ∈ m.dag.nodes ∨ p ∈ before.map Block.id

theorem Step.block_kept {l l' : Ledger} {a : Action} (h : Step l a l') (hl : l.WellFormed)
    {x : BlockId} {b : Block} (hb : l.dag.block x = some b) : l'.dag.block x = some b := by
  obtain ⟨n, hn, rfl⟩ := Option.map_eq_some_iff.1 hb
  have hmem : x ∈ l.dag.nodes := Finmap.mem_of_lookup_eq_some hn
  have hagree := (h.agreeOn hl).1
  have hcore := hagree.sameCore hmem
  rw [DagView.block, DagView.lookup_node (hagree.symm.mem hmem), Option.map_some, ← hcore.block,
    DagView.node_of_lookup hn]

theorem replayed_of_restoreBlocks (hm : m.Unbounded) (h : m.restoreBlocks ord blocks = .ok m') :
    Replayed m blocks m' := by
  induction blocks generalizing m with
  | nil =>
      obtain rfl := Except.ok.inj h
      exact ⟨hm, ⟨rfl, rfl, rfl⟩, by simp, fun _ _ hb => hb, by simp, List.nodup_nil, by simp,
        by simp⟩
  | cons block rest ih =>
      unfold restoreBlocks at h
      split at h
      · cases h
      rename_i m₁ hblock
      obtain ⟨o, id, rfl, hoffer⟩ := restoreBlock_offer hblock
      have hstep : Step m (.offer o) m₁ := .accepted hoffer
      have hm₁ := hm.step hstep
      have hrest := ih hm₁ h
      obtain ⟨hnodes, hself⟩ := offer_nodes hoffer
      obtain ⟨_, _, _, _, haccepts, _⟩ := offer_eq_ok_iff.1 hoffer
      have hfresh := haccepts.admits.fresh
      have hparents := haccepts.admits.parents_mem
      have hmem : o.block.id ∈ m₁.dag.nodes := (hnodes o.block.id).2 (.inl rfl)
      have hnew : m₁.dag.block o.block.id = some o.block := by
        rw [DagView.block, DagView.lookup_node hmem, Option.map_some, hself]
      have hlater : ∀ b ∈ rest, b.id ∉ m.dag.nodes := fun b hb hold =>
        hrest.fresh b hb ((hnodes _).2 (.inr hold))
      refine ⟨hrest.unbounded, ?_, ?_, ?_, ?_, ?_, ?_, ?_⟩
      · have hfirst := hstep.sameParameters
        have hlast := hrest.sameParameters
        exact ⟨hfirst.k_eq.trans hlast.k_eq, hfirst.genesis_eq.trans hlast.genesis_eq,
          hfirst.subsidy_eq.trans hlast.subsidy_eq⟩
      · intro x
        rw [hrest.mem_iff, hnodes, List.map_cons, List.mem_cons, or_assoc, or_left_comm]
      · exact fun x b hb => hrest.kept x b (hstep.block_kept hm.reachable.wellFormed hb)
      · exact List.forall_mem_cons.2 ⟨hrest.kept o.block.id o.block hnew, hrest.stored⟩
      · rw [List.map_cons, List.nodup_cons]
        refine ⟨fun hmem => ?_, hrest.nodup⟩
        obtain ⟨b, hb, heq⟩ := List.mem_map.1 hmem
        exact hrest.fresh b hb ((hnodes _).2 (.inl heq))
      · exact List.forall_mem_cons.2 ⟨hfresh, hlater⟩
      · intro before b after hsplit p hp
        cases before with
        | nil =>
            obtain ⟨rfl, _⟩ := List.cons.inj hsplit
            exact .inl (hparents p hp)
        | cons first before =>
            obtain ⟨rfl, htail⟩ := List.cons.inj hsplit
            rw [List.map_cons, List.mem_cons]
            rcases hrest.parents before b after htail p hp with hold | hbefore
            · rcases (hnodes p).1 hold with heq | hold
              · exact .inr (.inl heq)
              · exact .inl hold
            · exact .inr (.inr hbefore)

/-! ## The stored genesis -/

/-- The first block stored behind the header of a ledger snapshot, as the reader of DAGs takes it,
with the header it was written with. -/
def storedGenesis (bytes : List U8) : Option Block :=
  (decodeSnapshot (bytes.drop 14)).toOption.bind fun snapshot => snapshot.blocks.head?

/-- What a ledger read from a snapshot was rebuilt from. -/
theorem readSnapshot_eq_ok {bytes : List U8} {l : Ledger} (h : readSnapshot ord bytes = .ok l) :
    ∃ k genesis blocks m, decodeSnapshot (bytes.drop 14) = .ok ⟨k, genesis :: blocks⟩ ∧
      restoreGenesis ord k (Word.cast 64 (ofLeBytes ((bytes.drop 6).take 8))) genesis = .ok m ∧
      m.restoreBlocks ord blocks = .ok l := by
  unfold readSnapshot at h
  split at h
  · cases h
  split at h
  · cases h
  dsimp only at h
  split at h
  · cases h
  split at h
  · cases h
  rename_i snapshot hdecode
  obtain ⟨k, stored⟩ := snapshot
  split at h
  · cases h
  rename_i genesis blocks hblocks
  split at h
  · cases h
  rename_i m hm
  obtain rfl : stored = genesis :: blocks := hblocks
  exact ⟨k, genesis, blocks, m, hdecode, hm, h⟩

/-- The genesis of a ledger rebuilt from a stored one has its payload, and no other part
of it. -/
theorem genesis_of_restoreGenesis {k : KParam} {subsidy : U64} {genesis : Block}
    (h : restoreGenesis ord k subsidy genesis = .ok m) :
    m.Unbounded ∧ m.dag.k = k ∧ m.dag.genesis = (Block.genesis 1 0 0 genesis.payload).id ∧
      (∀ x, x ∈ m.dag.nodes ↔ x = (Block.genesis 1 0 0 genesis.payload).id) ∧
      m.dag.block (Block.genesis 1 0 0 genesis.payload).id =
        some (Block.genesis 1 0 0 genesis.payload) := by
  unfold restoreGenesis at h
  split at h
  · cases h
  rename_i txs hdecode
  split at h
  · cases h
  rename_i m₁ hnew
  obtain rfl := Except.ok.inj h
  obtain ⟨applied, _, heq⟩ := new_eq_ok_iff.1 hnew
  rw [← payload_of_decodePayload hdecode]
  refine ⟨.of_new hnew, ?_, ?_, fun x => ?_, ?_⟩
  · rw [heq]
    rfl
  · rw [heq]
    rfl
  · rw [heq]
    exact Finmap.mem_singleton _ _ _
  · have hlookup : m₁.dag.nodes.lookup (Block.genesis 1 0 0 txs.payload).id =
        some ⟨.genesis 1 0 0 txs.payload, 0, ∅, .genesis⟩ := by
      rw [heq]
      exact Finmap.lookup_singleton_eq
    rw [DagView.block, hlookup]
    rfl

/-- The ledger and the DAG hold the same blocks under the same genesis, in the same
order. -/
def SameBlocks (l : Ledger) (d : Dag) : Prop :=
  d.genesis = l.dag.genesis ∧ (∀ x, x ∈ d.nodes ↔ x ∈ l.dag.nodes) ∧
    ∀ ord ord', d.linearize ord = l.dag.linearize ord'

/-- Under the header that ledgers give it, the stored genesis is the ledger's, and the
blocks of the ledger rebuild the DAG. -/
theorem exists_readDag {bytes : List U8} {l : Ledger} (h : readSnapshot ord bytes = .ok l)
    {genesis : Block} (hgenesis : storedGenesis bytes = some genesis)
    (hheader : genesis = Block.genesis 1 0 0 genesis.payload) (ord' : HashOrder) :
    ∃ d, Dag.readSnapshot ord' (bytes.drop 14) = .ok d ∧ SameBlocks l d := by
  obtain ⟨k, stored, blocks, m, hdecode, hm, hl⟩ := readSnapshot_eq_ok h
  obtain rfl : stored = genesis := by
    rw [storedGenesis, hdecode] at hgenesis
    exact Option.some.inj hgenesis
  obtain ⟨hunbounded, hk, hgen, hnodes, hblock⟩ := genesis_of_restoreGenesis hm
  rw [← hheader] at hgen hnodes hblock
  have hreplayed := replayed_of_restoreBlocks hunbounded hl
  have hwf := hreplayed.unbounded.reachable.wellFormed.dag
  have hsame := hreplayed.sameParameters
  have hid : l.dag.genesis = stored.id := hsame.genesis_eq.symm.trans hgen
  have hnode : (l.dag.node l.dag.genesis).block = stored := by
    obtain ⟨n, hn, heq⟩ := Option.map_eq_some_iff.1 (hreplayed.kept _ _ hblock)
    rw [hid, DagView.node_of_lookup hn, heq]
  have hreplayable : l.dag.Replayable (stored :: blocks) := by
    refine ⟨⟨blocks, by rw [hnode]⟩, ?_, ?_, ?_⟩
    · rw [List.map_cons, List.nodup_cons]
      refine ⟨fun hmem => ?_, hreplayed.nodup⟩
      obtain ⟨b, hb, heq⟩ := List.mem_map.1 hmem
      exact hreplayed.fresh b hb ((hnodes _).2 heq)
    · exact List.forall_mem_cons.2 ⟨hreplayed.kept _ _ hblock, hreplayed.stored⟩
    · intro before b after hsplit p hp
      cases before with
      | nil =>
          obtain ⟨rfl, _⟩ := List.cons.inj hsplit
          rw [hheader] at hp
          exact absurd hp List.not_mem_nil
      | cons first before =>
          obtain ⟨rfl, htail⟩ := List.cons.inj hsplit
          rw [List.map_cons, List.mem_cons, ← hnodes]
          exact hreplayed.parents before b after htail p hp
  have hall : ∀ x b, l.dag.block x = some b → b ∈ stored :: blocks := by
    intro x b hb
    have hx : x ∈ l.dag.nodes := by
      rw [DagView.mem_nodes_iff, hb]
      rfl
    rcases (hreplayed.mem_iff x).1 hx with hold | hnew
    · rw [(hnodes x).1 hold, hreplayed.kept _ _ hblock] at hb
      exact List.mem_cons.2 (.inl (Option.some.inj hb).symm)
    · obtain ⟨b', hb', rfl⟩ := List.mem_map.1 hnew
      rw [hreplayed.stored b' hb'] at hb
      exact List.mem_cons_of_mem _ (Option.some.inj hb ▸ hb')
  obtain ⟨rest, d, hlist, hrebuild, hd, hdk, hdgen, hdblock⟩ :=
    Dag.exists_rebuild hwf hreplayable hall ord'
  obtain ⟨-, rfl⟩ := List.cons.inj hlist
  have hconsensus := DagView.sameConsensus_of_block hd hwf hdk hdgen hdblock
  refine ⟨d, ?_, hdgen, fun x => ?_, hconsensus.linearize⟩
  · rw [hnode, ← hsame.k_eq, hk] at hrebuild
    simp only [Dag.readSnapshot, hdecode]
    exact hrebuild
  · rw [DagView.mem_nodes_iff, DagView.mem_nodes_iff, hdblock]

/-- A ledger read from a snapshot holds what a DAG read from the same bytes holds exactly
if the stored genesis has the header that ledgers give it.  With another header the two
readers end with different ids for the genesis, and so for every block above it. -/
theorem readers_agree_iff {bytes : List U8} {l : Ledger} (h : readSnapshot ord bytes = .ok l)
    (hcollision : ∀ genesis, storedGenesis bytes = some genesis →
      Crypto.blake3 genesis.preimage =
        Crypto.blake3 (Block.genesis 1 0 0 genesis.payload).preimage →
          genesis.preimage = (Block.genesis 1 0 0 genesis.payload).preimage) (ord' : HashOrder) :
    (∃ d, Dag.readSnapshot ord' (bytes.drop 14) = .ok d ∧ SameBlocks l d) ↔
      ∃ genesis, storedGenesis bytes = some genesis ∧ genesis.parents = [] ∧ genesis.work = 1 ∧
        genesis.timestampMs = 0 ∧ genesis.nonce = 0 := by
  constructor
  · rintro ⟨d, hd, hsame⟩
    obtain ⟨k, stored, blocks, m, hdecode, hm, hl⟩ := readSnapshot_eq_ok h
    have hstored : storedGenesis bytes = some stored := by
      rw [storedGenesis, hdecode]
      rfl
    refine ⟨stored, hstored, ?_⟩
    obtain ⟨hunbounded, _, hgen, _⟩ := genesis_of_restoreGenesis hm
    have hparameters := (replayed_of_restoreBlocks hunbounded hl).sameParameters
    simp only [Dag.readSnapshot, hdecode] at hd
    have hrebuilt := (Dag.Run.start.rebuild hd).block_iff.2.1
    have hids : stored.id = (Block.genesis 1 0 0 stored.payload).id := by
      rw [← hgen, hparameters.genesis_eq, ← hsame.1, hrebuilt]
      rfl
    have hpreimage := hcollision stored hstored (congrArg BlockId.bytes hids)
    have heq := Block.preimage_injective hpreimage
    rw [heq]
    exact ⟨rfl, rfl, rfl, rfl⟩
  · rintro ⟨genesis, hgenesis, hparents, hwork, htime, hnonce⟩
    exact exists_readDag h hgenesis (Block.ext hparents hwork htime hnonce rfl) ord'

end Ledger

namespace Ledger

open scoped Reference
open Reference (premineTxs)

/-- The snapshot of a ledger with only its genesis, where that was made at this time. -/
def snapshotAt (timestampMs : U64) : List U8 :=
  snapshotMagic.val ++ toLeBytes 2 snapshotVersion.val ++ toLeBytes 8 1 ++
    (DagSnapshot.magic.val ++ toLeBytes 2 DagSnapshot.version.val ++ toLeBytes 2 3 ++
      (toLeBytes 8 1 ++ encodeBlock (.genesis 1 timestampMs 0 premineTxs.payload)))

theorem storedGenesis_snapshotAt (timestampMs : U64) :
    storedGenesis (snapshotAt timestampMs) = some (.genesis 1 timestampMs 0 premineTxs.payload) := by
  have hlen : [Block.genesis 1 timestampMs 0 premineTxs.payload].length < 2 ^ 64 := by
    rw [List.length_singleton]
    decide
  have hread := SnapshotReader.reads_readFraming 3 hlen []
  have hdrop : (snapshotAt timestampMs).drop 14 = _ := List.drop_left' rfl
  rw [List.append_nil, List.flatMap_singleton] at hread
  have hframing : SnapshotReader.readFraming ((snapshotAt timestampMs).drop 14) =
      .ok (⟨3, [.genesis 1 timestampMs 0 premineTxs.payload]⟩, []) := by
    rw [hdrop]
    exact hread
  rw [storedGenesis, decodeSnapshot, hframing]
  rfl

/-- At the time ledgers give their genesis, the readers agree. -/
theorem readers_agree_zero : ∃ l d, readSnapshot .sorted (snapshotAt 0) = .ok l ∧
    Dag.readSnapshot .sorted ((snapshotAt 0).drop 14) = .ok d ∧ SameBlocks l d := by
  have hcheck : (readSnapshot .sorted (snapshotAt 0)).toOption.isSome = true := by
    decide +kernel
  have hstored := storedGenesis_snapshotAt 0
  obtain ⟨l, hl⟩ := Option.isSome_iff_exists.1 hcheck
  have hcollision : ∀ genesis, storedGenesis (snapshotAt 0) = some genesis →
      Crypto.blake3 genesis.preimage =
        Crypto.blake3 (Block.genesis 1 0 0 genesis.payload).preimage →
          genesis.preimage = (Block.genesis 1 0 0 genesis.payload).preimage := by
    intro genesis hgenesis _
    rw [← Option.some.inj (hstored.symm.trans hgenesis)]
    rfl
  obtain ⟨d, hd, hsame⟩ := (readers_agree_iff (ok_of_toOption hl) hcollision .sorted).2
    ⟨_, hstored, rfl, rfl, rfl, rfl⟩
  exact ⟨l, d, ok_of_toOption hl, hd, hsame⟩

/-- A genesis made later is stored, and is not in the ledger that is read. -/
theorem readers_disagree : ∃ bytes l, readSnapshot .sorted bytes = .ok l ∧
    ¬ ∃ d, Dag.readSnapshot .sorted (bytes.drop 14) = .ok d ∧ SameBlocks l d := by
  have hcheck : (readSnapshot .sorted (snapshotAt 5)).toOption.any (fun l =>
      (Dag.readSnapshot .sorted ((snapshotAt 5).drop 14)).toOption.all fun d =>
        decide (d.genesis ≠ l.dag.genesis)) = true := by
    decide +kernel
  obtain ⟨l, hl, hall⟩ := Option.any_eq_true _ _ |>.1 hcheck
  refine ⟨snapshotAt 5, l, ok_of_toOption hl, ?_⟩
  rintro ⟨d, hd, hsame⟩
  rw [hd] at hall
  exact of_decide_eq_true hall hsame.1

end Ledger

end Kovanica
