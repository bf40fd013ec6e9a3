import Kovanica.Dag.Linearization
import Kovanica.Lib.Codec

/-!
# Snapshots of a DAG

A snapshot stores `k` and the blocks in linearized order; reading one replays
the blocks into a fresh DAG without validator or policies.  Nothing derived is
stored, and the replay derives it all again.

## Main results

* `decode_writeSnapshot_of_lt`: the blocks are read back, in the order they were written.
* `Unchecked.insert_ok`, `Unchecked.rebuild_ok`: a DAG without policies takes every new block
  whose parents it holds, and so a list in which parents come first.
* `exists_rebuild`: the blocks of a DAG rebuild it.
-/

namespace Kovanica

open Lib

/-! ## The format -/

/-- Why a snapshot could not be decoded or replayed. -/
inductive SnapshotError where
  | badMagic
  | unsupportedVersion (version : U16)
  | unexpectedEof
  | trailingBytes
  | rebuild (e : DagError)

namespace SnapshotError

def display : SnapshotError → String
  | badMagic => "not a kovanica DAG snapshot"
  | unsupportedVersion version => s!"unsupported snapshot version {version.val}"
  | unexpectedEof => "unexpected end of snapshot"
  | trailingBytes => "trailing bytes after snapshot"
  | rebuild e => s!"replaying snapshot failed: {e.display}"

end SnapshotError

/-- A decoded snapshot: the first block is genesis.  Nothing that can be derived from the blocks
is stored with them. -/
structure DagSnapshot where
  k : KParam
  blocks : List Block

namespace DagSnapshot

/-- The magic prefix, `"KVDG"`. -/
def magic : Bytes 4 := ⟨[75, 86, 68, 71], rfl⟩

def version : U16 := 3

end DagSnapshot

/-- `encode_block(block)`: what rebuilds the block.  Counts are 64 bits wide, and the id is left to
the reader. -/
def encodeBlock (block : Block) : List U8 :=
  toLeBytes 8 block.parents.length ++ block.parents.flatMap (fun p => p.bytes.val) ++
    toLeBytes 16 block.work.val ++ toLeBytes 8 block.timestampMs.val ++
    toLeBytes 8 block.nonce.val ++ (toLeBytes 8 block.payload.val.length ++ block.payload.val)

/-- `write_snapshot()`: the header, the number of blocks, and the blocks with parents first. -/
def DagView.writeSnapshot (ord : HashOrder) (d : DagView) : List U8 :=
  let order := d.linearize ord
  DagSnapshot.magic.val ++ toLeBytes 2 DagSnapshot.version.val ++ toLeBytes 2 d.k.val ++
    (toLeBytes 8 order.length ++ order.flatMap fun id => encodeBlock (d.node id).block)

/-- The snapshot decoder's cursor. -/
abbrev SnapshotReader (α : Type) : Type := Reader SnapshotError α

namespace SnapshotReader

def readBlockId : SnapshotReader BlockId := do
  let bytes ← Reader.readArray .unexpectedEof 32
  return ⟨bytes⟩

/-- `read_block`: `Block::new` sorts and de-duplicates the parents it reads. -/
def readBlock : SnapshotReader Block := do
  let parents ← Reader.readCount .unexpectedEof 32 >>= Reader.readMany readBlockId
  let parents ← Reader.toVec .unexpectedEof parents
  let work ← Reader.readWord .unexpectedEof 16 128
  let timestampMs ← Reader.readWord .unexpectedEof 8 64
  let nonce ← Reader.readWord .unexpectedEof 8 64
  let payload ← Reader.readCount .unexpectedEof 1 >>= Reader.readSlice .unexpectedEof
  let payload ← Reader.toVec .unexpectedEof payload
  return Block.new parents work timestampMs nonce payload

/-- The framing: the smallest block takes 48 bytes. -/
def readFraming : SnapshotReader DagSnapshot := do
  let magic ← Reader.readArray .unexpectedEof 4
  if magic ≠ DagSnapshot.magic then Reader.fail .badMagic
  else
    let version ← Reader.readWord .unexpectedEof 2 16
    if version ≠ DagSnapshot.version then Reader.fail (.unsupportedVersion version)
    else
      let k ← Reader.readWord .unexpectedEof 2 16
      let blocks ← Reader.readCount .unexpectedEof 48 >>= Reader.readMany readBlock
      return ⟨k, blocks⟩

end SnapshotReader

/-- `decode_snapshot(bytes)`: nothing may follow the last block.  Nothing is inserted here, so a
block may still turn out to have parents that are not there. -/
def decodeSnapshot (bytes : List U8) : Except SnapshotError DagSnapshot :=
  match SnapshotReader.readFraming bytes with
  | .error e => .error e
  | .ok (snapshot, rest) => if rest.isEmpty then .ok snapshot else .error .trailingBytes

/-- `decode_block(bytes)`. -/
def decodeBlock (bytes : List U8) : Except SnapshotError Block :=
  match SnapshotReader.readBlock bytes with
  | .error e => .error e
  | .ok (block, rest) => if rest.isEmpty then .ok block else .error .trailingBytes

namespace Dag

/-- The loop of `read_snapshot`: the blocks inserted in turn, up to the first that is refused. -/
def rebuild [Crypto] (ord : HashOrder) (d : Dag) : List Block → Outcome SnapshotError Dag
  | [] => .ok d
  | block :: rest =>
      match d.insert ord block with
      | .error (.error e) => .error (.error (.rebuild e))
      | .error (.panic site) => .error (.panic site)
      | .ok (_, d) => rebuild ord d rest

/-- `Dag::read_snapshot(bytes)`: the genesis makes a new DAG, and the other blocks are inserted
into it in the order they were written in. -/
def readSnapshot [Crypto] (ord : HashOrder) (bytes : List U8) : Outcome SnapshotError Dag :=
  match decodeSnapshot bytes with
  | .error e => .error (.error e)
  | .ok snapshot =>
      match snapshot.blocks with
      | [] => .error (.error .unexpectedEof)
      | genesis :: blocks => rebuild ord (Dag.new ord snapshot.k genesis) blocks

end Dag

/-! ## Reading back what was written -/

namespace SnapshotReader

open Reader

theorem reads_readBlockId (id : BlockId) : Reads readBlockId id.bytes.val id :=
  (reads_readArray _ id.bytes).map BlockId.mk

/-- A block with its own parents: they are sorted already. -/
theorem new_parents (block : Block) :
    Block.new ⟨block.parents, block.parents_fit⟩ block.work block.timestampMs block.nonce
      block.payload = block := by
  apply Block.ext
  · exact ascending_toFinset block.parents_sorted
  all_goals rfl

theorem reads_readBlock (block : Block) : Reads readBlock (encodeBlock block) block := by
  have hparents := reads_counted SnapshotError.unexpectedEof 32 block.parents_fit
    (fun p _ => p.bytes.property.ge) (fun p _ => reads_readBlockId p)
  have hparentsVec := reads_toVec SnapshotError.unexpectedEof ⟨block.parents, block.parents_fit⟩
  have hwork := reads_readWord SnapshotError.unexpectedEof (n := 16) (by decide) block.work
  have htime := reads_readWord SnapshotError.unexpectedEof (n := 8) (by decide) block.timestampMs
  have hnonce := reads_readWord SnapshotError.unexpectedEof (n := 8) (by decide) block.nonce
  have hpayload := reads_countedSlice SnapshotError.unexpectedEof block.payload.val
    block.payload.property
  have hpayloadVec := reads_toVec SnapshotError.unexpectedEof block.payload
  have henc : encodeBlock block = toLeBytes 8 block.parents.length ++
      block.parents.flatMap (fun p => p.bytes.val) ++ ([] ++ (toLeBytes 16 block.work.val ++
        (toLeBytes 8 block.timestampMs.val ++ (toLeBytes 8 block.nonce.val ++
          (toLeBytes 8 block.payload.val.length ++ block.payload.val ++ []))))) := by
    simp [encodeBlock]
  rw [henc]
  have hnew := new_parents block
  refine hparents.bind (hparentsVec.bind (hwork.bind (htime.bind (hnonce.bind ?_))))
  refine hpayload.bind ?_
  have hmap := hpayloadVec.map (Block.new ⟨block.parents, block.parents_fit⟩ block.work
    block.timestampMs block.nonce)
  rwa [hnew] at hmap

theorem length_encodeBlock_ge (block : Block) : 48 ≤ (encodeBlock block).length := by
  simp only [encodeBlock, List.length_append, length_toLeBytes]
  omega

/-- The framing of a list of blocks. -/
theorem reads_readFraming (k : KParam) {blocks : List Block} (hlen : blocks.length < 2 ^ 64) :
    Reads readFraming (DagSnapshot.magic.val ++ toLeBytes 2 DagSnapshot.version.val ++
      toLeBytes 2 k.val ++ (toLeBytes 8 blocks.length ++ blocks.flatMap encodeBlock))
      ⟨k, blocks⟩ := by
  have hmagic := reads_readArray SnapshotError.unexpectedEof DagSnapshot.magic
  have hversion := reads_readWord SnapshotError.unexpectedEof (n := 2) (w := 16) (by decide)
    DagSnapshot.version
  have hk := reads_readWord SnapshotError.unexpectedEof (n := 2) (by decide) k
  have hblocks := reads_counted SnapshotError.unexpectedEof 48 hlen
    (fun b _ => length_encodeBlock_ge b) (fun b _ => reads_readBlock b)
  rw [List.append_assoc, List.append_assoc]
  apply hmagic.bind
  rw [if_neg (not_not.2 rfl)]
  apply hversion.bind
  rw [if_neg (not_not.2 rfl)]
  exact hk.bind (hblocks.map (DagSnapshot.mk k))

end SnapshotReader

theorem decode_encodeBlock (block : Block) : decodeBlock (encodeBlock block) = .ok block := by
  have hread := SnapshotReader.reads_readBlock block []
  rw [List.append_nil] at hread
  rw [decodeBlock, hread]
  rfl

namespace DagView

/-- The blocks in linearized order. -/
def orderedBlocks (ord : HashOrder) (d : DagView) : List Block :=
  (d.linearize ord).map fun id => (d.node id).block

variable [Crypto] {d : DagView}

theorem WellFormed.length_linearize (h : d.WellFormed) (ord : HashOrder) :
    (d.linearize ord).length = d.len := by
  have hset : (d.linearize ord).toFinset = d.nodes.keys := by
    ext x
    rw [List.mem_toFinset, h.mem_linearize, Finmap.mem_keys]
  rw [len, ← hset, List.toFinset_card_of_nodup (h.nodup_linearize ord)]

omit [Crypto] in
/-- What was written is read back, as long as its blocks can be counted. -/
theorem decode_writeSnapshot_of_lt {ord : HashOrder} (hlen : (d.linearize ord).length < 2 ^ 64) :
    decodeSnapshot (d.writeSnapshot ord) = .ok ⟨d.k, d.orderedBlocks ord⟩ := by
  have hcount : (d.orderedBlocks ord).length < 2 ^ 64 := by
    rwa [orderedBlocks, List.length_map]
  have hread := SnapshotReader.reads_readFraming d.k hcount []
  have hbytes : d.writeSnapshot ord = DagSnapshot.magic.val ++
      toLeBytes 2 DagSnapshot.version.val ++ toLeBytes 2 d.k.val ++
        (toLeBytes 8 (d.orderedBlocks ord).length ++
          (d.orderedBlocks ord).flatMap encodeBlock) ++ [] := by
    rw [List.append_nil, orderedBlocks, List.length_map, List.flatMap_map]
    rfl
  rw [decodeSnapshot, hbytes, hread]
  rfl

theorem WellFormed.decode_writeSnapshot (h : d.WellFormed) (ord : HashOrder) :
    decodeSnapshot (d.writeSnapshot ord) = .ok ⟨d.k, d.orderedBlocks ord⟩ := by
  apply decode_writeSnapshot_of_lt
  have hlt := h.len_lt
  rw [h.length_linearize]
  unfold mapCapacity at hlt
  omega

/-- The snapshot of a DAG reads only `k` and the linearized blocks. -/
theorem writeSnapshot_congr {d' : DagView} (h : d.WellFormed) (h' : d'.WellFormed)
    (hk : d.k = d'.k) (hblock : ∀ x, d.block x = d'.block x) {ord ord' : HashOrder}
    (hlin : d.linearize ord = d'.linearize ord') : d.writeSnapshot ord = d'.writeSnapshot ord' := by
  have hbody : (d.linearize ord).flatMap (fun id => encodeBlock (d.node id).block) =
      (d'.linearize ord').flatMap fun id => encodeBlock (d'.node id).block := by
    rw [← hlin]
    apply List.flatMap_congr
    intro x hx
    have hmem := (h.mem_linearize ord x).1 hx
    have hmem' := (h'.mem_linearize ord' x).1 (hlin ▸ hx)
    have heq := hblock x
    rw [block, block, lookup_node hmem, lookup_node hmem'] at heq
    rw [Option.some.inj heq]
  rw [writeSnapshot, writeSnapshot, hbody, hlin, hk]

theorem WellFormed.map_id_orderedBlocks (h : d.WellFormed) (ord : HashOrder) :
    (d.orderedBlocks ord).map Block.id = d.linearize ord := by
  rw [orderedBlocks, List.map_map]
  refine (List.map_congr_left fun x hx => ?_).trans (List.map_id _)
  exact h.id_eq x _ (lookup_node ((h.mem_linearize ord x).1 hx))

theorem WellFormed.mem_orderedBlocks (h : d.WellFormed) (ord : HashOrder) {b : Block} :
    b ∈ d.orderedBlocks ord ↔ d.block b.id = some b := by
  rw [orderedBlocks, List.mem_map]
  constructor
  · rintro ⟨x, hx, rfl⟩
    have hn := lookup_node ((h.mem_linearize ord x).1 hx)
    rw [h.id_eq x _ hn, block, hn]
    rfl
  · intro hb
    obtain ⟨n, hn, rfl⟩ := Option.map_eq_some_iff.1 hb
    refine ⟨n.block.id, ?_, by rw [node_of_lookup hn]⟩
    exact (h.mem_linearize ord _).2 (Finmap.mem_of_lookup_eq_some hn)

/-- A block comes after its parents. -/
theorem WellFormed.orderedBlocks_parents (h : d.WellFormed) {ord : HashOrder} {b : Block}
    {before after : List Block} (hsplit : d.orderedBlocks ord = before ++ b :: after) :
    ∀ p ∈ b.parents, p ∈ before.map Block.id := by
  intro p hp
  have hlin := h.map_id_orderedBlocks ord
  rw [hsplit, List.map_append, List.map_cons] at hlin
  have hb : d.block b.id = some b := by
    rw [← h.mem_orderedBlocks ord, hsplit]
    exact List.mem_append_right _ (List.mem_cons_self ..)
  obtain ⟨n, hn, hblock⟩ := Option.map_eq_some_iff.1 hb
  apply h.parents_before hlin.symm
  rwa [parentsOf, node_of_lookup hn, hblock]

/-- The list starts with genesis and holds blocks of the DAG, each once and each
after its parents. -/
structure Replayable (d : DagView) (blocks : List Block) : Prop where
  head : ∃ rest, blocks = (d.node d.genesis).block :: rest
  nodup : (blocks.map Block.id).Nodup
  stored : ∀ b ∈ blocks, d.block b.id = some b
  parents : ∀ before b after, blocks = before ++ b :: after →
    ∀ p ∈ b.parents, p ∈ before.map Block.id

namespace Replayable

variable {blocks : List Block} (h : d.Replayable blocks) (hd : d.WellFormed)

include h

theorem mem_nodes {b : Block} (hb : b ∈ blocks) : b.id ∈ d.nodes := by
  obtain ⟨n, hn, _⟩ := Option.map_eq_some_iff.1 (h.stored b hb)
  exact Finmap.mem_of_lookup_eq_some hn

theorem node_block {b : Block} (hb : b ∈ blocks) : (d.node b.id).block = b := by
  obtain ⟨n, hn, hnb⟩ := Option.map_eq_some_iff.1 (h.stored b hb)
  rw [node_of_lookup hn, hnb]

include hd

theorem parents_ne {b : Block} (hb : b ∈ blocks) (hne : b.id ≠ d.genesis) : b.parents ≠ [] := by
  have hparents := hd.parents_ne b.id _ (lookup_node (h.mem_nodes hb)) hne
  rwa [h.node_block hb] at hparents

omit hd in
/-- The list is no longer than the DAG. -/
theorem length_le : blocks.length ≤ d.len := by
  have hsub : (blocks.map Block.id).toFinset ⊆ d.nodes.keys := by
    intro x hx
    obtain ⟨b, hb, rfl⟩ := List.mem_map.1 (List.mem_toFinset.1 hx)
    exact Finmap.mem_keys.2 (h.mem_nodes hb)
  have hcard := Finset.card_le_card hsub
  rwa [List.toFinset_card_of_nodup h.nodup, List.length_map] at hcard

end Replayable

/-- The linearized blocks. -/
theorem WellFormed.replayable_orderedBlocks (h : d.WellFormed) (ord : HashOrder) :
    d.Replayable (d.orderedBlocks ord) where
  head := by
    have hids := h.map_id_orderedBlocks ord
    cases hlist : d.orderedBlocks ord with
    | nil =>
        have hmem := (h.mem_linearize ord d.genesis).2 h.genesis_mem
        rw [← hids, hlist] at hmem
        exact absurd hmem List.not_mem_nil
    | cons b rest =>
        have hb : d.block b.id = some b := by
          rw [← h.mem_orderedBlocks ord, hlist]
          exact List.mem_cons_self ..
        obtain ⟨n, hn, hnb⟩ := Option.map_eq_some_iff.1 hb
        -- the parents of the first block would come before it
        have hfirst : b.id = d.genesis := by
          by_contra hne
          obtain ⟨p, hp⟩ := List.exists_mem_of_ne_nil _ (h.parents_ne b.id n hn hne)
          rw [hnb] at hp
          have hbefore : p ∈ ([] : List Block).map Block.id := h.orderedBlocks_parents hlist p hp
          exact List.not_mem_nil hbefore
        rw [hfirst] at hn
        exact ⟨rest, by rw [node_of_lookup hn, hnb]⟩
  nodup := by
    rw [h.map_id_orderedBlocks]
    exact h.nodup_linearize ord
  stored := fun b hb => (h.mem_orderedBlocks ord).1 hb
  parents := fun _ _ _ hsplit => h.orderedBlocks_parents hsplit

end DagView

/-! ## Replaying the blocks -/

namespace Dag

variable [Crypto] {d d' : Dag} {ord : HashOrder}

/-- Replayed blocks extend a run. -/
theorem Run.rebuild {d₀ : Dag} {before blocks : List Block} (h : Run d₀ before d)
    (hrebuild : d.rebuild ord blocks = .ok d') : Run d₀ (before ++ blocks) d' := by
  induction blocks generalizing d before with
  | nil =>
      rw [List.append_nil, ← Except.ok.inj hrebuild]
      exact h
  | cons block rest ih =>
      unfold Dag.rebuild at hrebuild
      split at hrebuild
      · cases hrebuild
      · cases hrebuild
      · rename_i hinsert
        rw [List.append_cons]
        exact ih (h.insert hinsert) hrebuild

/-- Neither a validator nor a policy is installed, as in a DAG that was just read from a snapshot.
Such a DAG takes every block that is well formed and new. -/
structure Unchecked (d : Dag) : Prop where
  validator : d.validator = none
  difficulty : d.difficulty = none
  requirePow : d.requirePow = false

/-- An unchecked DAG takes every new block whose parents it holds. -/
theorem Unchecked.insert_ok (h : Unchecked d) (ord : HashOrder) {block : Block}
    (hfresh : block.id ∉ d.nodes) (hne : block.parents ≠ [])
    (hparents : ∀ p ∈ block.parents, p ∈ d.nodes) (hroom : d.len + 1 < mapCapacity) :
    ∃ d', d.insert ord block = .ok (block.id, d') ∧ Unchecked d' ∧ d'.len = d.len + 1 ∧
      ∀ x, x ∈ d'.nodes ↔ x = block.id ∨ x ∈ d.nodes := by
  obtain ⟨sp, g, hdata, hsp, _⟩ := exists_data (d := d) ord hne
  have hvalid : d.runValidator block = .ok () := by
    rw [runValidator, h.validator]
  have hpolicy : d.checkPolicy block sp = .ok () := by
    simp [checkPolicy, h.difficulty, h.requirePow]
  have hadmits : Admits ord d block sp g :=
    ⟨hfresh, hne, hparents, hvalid, hdata, hsp, hpolicy, hroom⟩
  refine ⟨d.wire block sp g, insert_eq_ok_iff.2 ⟨sp, g, hadmits, rfl⟩, ?_, len_wire hadmits,
    fun x => mem_wire hadmits⟩
  exact ⟨h.validator, h.difficulty, h.requirePow⟩

/-- An unchecked DAG takes the blocks of a list in which each one is new and comes
after its parents. -/
theorem Unchecked.rebuild_ok (h : Unchecked d) {blocks : List Block}
    (hnodup : (blocks.map Block.id).Nodup) (hfresh : ∀ b ∈ blocks, b.id ∉ d.nodes)
    (hne : ∀ b ∈ blocks, b.parents ≠ [])
    (hparents : ∀ before b after, blocks = before ++ b :: after →
      ∀ p ∈ b.parents, p ∈ d.nodes ∨ p ∈ before.map Block.id)
    (hroom : d.len + blocks.length < mapCapacity) :
    ∃ d', d.rebuild ord blocks = .ok d' := by
  -- the induction inserts the first block and leaves its id among the stored ones
  induction blocks generalizing d with
  | nil => exact ⟨d, rfl⟩
  | cons block rest ih =>
      rw [List.map_cons, List.nodup_cons] at hnodup
      rw [List.length_cons] at hroom
      have hfirst := hparents [] block rest rfl
      obtain ⟨d₁, hinsert, h₁, hlen, hmem⟩ := h.insert_ok ord
        (hfresh block (List.mem_cons_self ..)) (hne block (List.mem_cons_self ..))
        (fun p hp => (hfirst p hp).resolve_right List.not_mem_nil) (by omega)
      rw [rebuild, hinsert]
      apply ih h₁ hnodup.2
      · intro b hb hin
        rcases (hmem b.id).1 hin with heq | hold
        · exact hnodup.1 (heq ▸ List.mem_map_of_mem hb)
        · exact hfresh b (List.mem_cons_of_mem _ hb) hold
      · exact fun b hb => hne b (List.mem_cons_of_mem _ hb)
      · intro before b after hsplit p hp
        rcases hparents (block :: before) b after (by rw [hsplit]; rfl) p hp with hold | hnew
        · exact .inl ((hmem p).2 (.inr hold))
        · rcases List.mem_cons.1 hnew with rfl | hnew
          · exact .inl ((hmem block.id).2 (.inl rfl))
          · exact .inr hnew
      · omega

/-- The blocks of a list that holds all of a DAG rebuild it. -/
theorem exists_rebuild (hd : d.WellFormed) {blocks : List Block} (h : d.Replayable blocks)
    (hall : ∀ x b, d.block x = some b → b ∈ blocks) (ord : HashOrder) :
    ∃ rest d', blocks = (d.node d.genesis).block :: rest ∧
      rebuild ord (Dag.new ord d.k (d.node d.genesis).block) rest = .ok d' ∧ d'.WellFormed ∧
      d'.k = d.k ∧ d'.genesis = d.genesis ∧ ∀ x, d'.block x = d.block x := by
  obtain ⟨rest, rfl⟩ := h.head
  have hnodup := h.nodup
  rw [List.map_cons, List.nodup_cons] at hnodup
  have hgenesis : (d.node d.genesis).block.id = d.genesis :=
    hd.id_eq _ _ (DagView.lookup_node hd.genesis_mem)
  have hroot : (d.node d.genesis).block.parents = [] := by
    obtain ⟨n, hn, hparents, _⟩ := hd.genesis_node
    rw [DagView.node_of_lookup hn, hparents]
  have hnew := DagView.wellFormed_new ord d.k (d.node d.genesis).block hroot
  have hstart : ∀ x, x ∈ (Dag.new ord d.k (d.node d.genesis).block).nodes ↔
      x = (d.node d.genesis).block.id := fun x => Finmap.mem_singleton x _ _
  have hexists : ∃ d', rebuild ord (Dag.new ord d.k (d.node d.genesis).block) rest = .ok d' := by
    have hunchecked : Unchecked (Dag.new ord d.k (d.node d.genesis).block) := ⟨rfl, rfl, rfl⟩
    refine hunchecked.rebuild_ok hnodup.2 ?_ ?_ ?_ ?_
    · intro b hb hin
      rw [hstart] at hin
      exact hnodup.1 (hin ▸ List.mem_map_of_mem hb)
    · intro b hb
      apply h.parents_ne hd (List.mem_cons_of_mem _ hb)
      intro heq
      exact hnodup.1 (hgenesis.trans heq.symm ▸ List.mem_map_of_mem hb)
    · intro before b after hsplit p hp
      have hbefore := h.parents ((d.node d.genesis).block :: before) b after
        (by rw [hsplit]; rfl) p hp
      rw [List.map_cons, List.mem_cons] at hbefore
      rwa [hstart]
    · have hlength := h.length_le
      have hlt := hd.len_lt
      have hone : (Dag.new ord d.k (d.node d.genesis).block).len = 1 := rfl
      rw [List.length_cons] at hlength
      omega
  obtain ⟨d', hrebuild⟩ := hexists
  have hrun := Run.start.rebuild hrebuild
  obtain ⟨hk, hgen, hblock⟩ := hrun.block_iff
  refine ⟨rest, d', rfl, hrebuild, hrun.wellFormed hnew, hk, hgen.trans hgenesis, fun x => ?_⟩
  apply Option.ext
  intro b
  -- the start holds the first block of the list, the replay the others
  have hfirst : (Dag.new ord d.k (d.node d.genesis).block).block x = some b ↔
      b = (d.node d.genesis).block ∧ b.id = x := by
    rw [DagView.block, Option.map_eq_some_iff]
    constructor
    · rintro ⟨m, hm, rfl⟩
      have hx := (hstart x).1 (Finmap.mem_of_lookup_eq_some hm)
      subst hx
      have hself := hm.symm.trans (Finmap.lookup_singleton_eq (a := (d.node d.genesis).block.id))
      rw [Option.some.inj hself]
      exact ⟨rfl, rfl⟩
    · rintro ⟨rfl, rfl⟩
      exact ⟨_, Finmap.lookup_singleton_eq, rfl⟩
  have hlisted : d.block x = some b ↔
      b ∈ (d.node d.genesis).block :: rest ∧ b.id = x := by
    constructor
    · intro hb
      obtain ⟨m, hm, hmb⟩ := Option.map_eq_some_iff.1 hb
      exact ⟨hall x b hb, by rw [← hmb, hd.id_eq x m hm]⟩
    · rintro ⟨hb, rfl⟩
      exact h.stored b hb
  rw [hblock, List.nil_append, hfirst, hlisted, List.mem_cons]
  tauto

/-- A snapshot restores the DAG, whatever validator and policies it had: the same
`k`, genesis, blocks, tips, consensus data and linearization, and the same
snapshot again. -/
theorem snapshot_roundtrip (h : Reachable d) (ord ord' ord'' : HashOrder) :
    ∃ d', readSnapshot ord' (d.writeSnapshot ord) = .ok d' ∧ d'.k = d.k ∧
      d'.genesis = d.genesis ∧ DagView.SameConsensus d.toDagView d'.toDagView ∧
      d'.writeSnapshot ord'' = d.writeSnapshot ord := by
  have hd := h.wellFormed
  have hall : ∀ x b, d.block x = some b → b ∈ d.orderedBlocks ord := by
    intro x b hb
    obtain ⟨n, hn, rfl⟩ := Option.map_eq_some_iff.1 hb
    rw [hd.mem_orderedBlocks, hd.id_eq x n hn]
    exact hb
  obtain ⟨rest, d', hlist, hrebuild, hd', hk, hgenesis, hblock⟩ :=
    exists_rebuild hd (hd.replayable_orderedBlocks ord) hall ord'
  have hsame := DagView.sameConsensus_of_block hd hd' hk.symm hgenesis.symm fun x =>
    (hblock x).symm
  refine ⟨d', ?_, hk, hgenesis, hsame, ?_⟩
  · simp only [readSnapshot, hd.decode_writeSnapshot ord, hlist]
    exact hrebuild
  · exact DagView.writeSnapshot_congr hd' hd hk hblock (hsame.linearize ord ord'').symm

end Dag

namespace Dag

open scoped Reference

/-- Two blocks and one that merges them, saved after proof of work was switched on. -/
theorem snapshot_roundtrip_merge : ∃ d d' : Dag, d.len = 4 ∧ d.requirePow = true ∧
    readSnapshot .sorted (d.writeSnapshot .sorted) = .ok d' ∧
    DagView.SameConsensus d.toDagView d'.toDagView := by
  have hplay : ((Dag.new .sorted 1 Reference.genesis).insertAll .sorted
      [Reference.left, Reference.right, Reference.merge]).map (fun d => d.len) = some 4 := by
    decide +kernel
  obtain ⟨d, hd, hlen⟩ := Option.map_eq_some_iff.1 hplay
  have hreach : Reachable (d.setProofOfWork true) := ⟨.sorted, 1, 1, 0, 0,
    Reference.noTxs.payload, _, (Run.start.insertAll hd).policy d.validator d.difficulty true⟩
  obtain ⟨d', hread, _, _, hsame, _⟩ := snapshot_roundtrip hreach .sorted .sorted .sorted
  exact ⟨d.setProofOfWork true, d', hlen, rfl, hread, hsame⟩

end Dag

end Kovanica
