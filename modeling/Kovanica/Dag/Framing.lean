import Kovanica.Dag.Snapshot
import Kovanica.Lib.Cursor

/-!
# The framing of stored blocks

The decoders of `Dag.Snapshot` read a list of bytes.  Here are the code's, which
keep the buffer and a position in it: they do the same and never leave the buffer.
What a snapshot decoder accepts ends where its bytes end: cut off anywhere it is
too short, and whatever follows it is left over.

## Main results

* `decodeSnapshot_eq`, `decodeBlock_eq`: over the buffer the decoders do what they do over the
  list of bytes.
-/

namespace Kovanica

open Lib

namespace SnapshotCursor

def readBlockId : Cursor SnapshotError BlockId := do
  let bytes ← Cursor.readArray .unexpectedEof 32
  return ⟨bytes⟩

/-- `read_block`. -/
def readBlock : Cursor SnapshotError Block := do
  let parents ← Cursor.readCount .unexpectedEof 32 >>= Cursor.readMany readBlockId
  let parents ← Cursor.toVec .unexpectedEof parents
  let work ← Cursor.readWord .unexpectedEof 16 128
  let timestampMs ← Cursor.readWord .unexpectedEof 8 64
  let nonce ← Cursor.readWord .unexpectedEof 8 64
  let payload ← Cursor.readCount .unexpectedEof 1 >>= Cursor.readSlice .unexpectedEof
  let payload ← Cursor.toVec .unexpectedEof payload
  return Block.new parents work timestampMs nonce payload

def readFraming : Cursor SnapshotError DagSnapshot := do
  let magic ← Cursor.readArray .unexpectedEof 4
  if magic ≠ DagSnapshot.magic then Cursor.fail .badMagic
  else
    let version ← Cursor.readWord .unexpectedEof 2 16
    if version ≠ DagSnapshot.version then Cursor.fail (.unsupportedVersion version)
    else
      let k ← Cursor.readWord .unexpectedEof 2 16
      let blocks ← Cursor.readCount .unexpectedEof 48 >>= Cursor.readMany readBlock
      return ⟨k, blocks⟩

/-- `decode_snapshot(bytes)`. -/
def decodeSnapshot (bytes : Vec U8) : Except (ReadFailure SnapshotError) DagSnapshot :=
  Cursor.decodeAll .trailingBytes readFraming bytes

/-- `decode_block(bytes)`. -/
def decodeBlock (bytes : Vec U8) : Except (ReadFailure SnapshotError) Block :=
  Cursor.decodeAll .trailingBytes readBlock bytes

/-! ## The two decoders agree -/

open Cursor

theorem follows_readBlockId : Follows readBlockId SnapshotReader.readBlockId :=
  (follows_readArray _ 32).bind fun _ => .pure _

theorem follows_readBlock : Follows readBlock SnapshotReader.readBlock := by
  apply (follows_counted follows_readBlockId _ 32).bind
  intro parents
  apply (follows_toVec _ parents).bind
  intro parents
  apply (follows_readWord _ 16 128).bind
  intro work
  apply (follows_readWord _ 8 64).bind
  intro timestampMs
  apply (follows_readWord _ 8 64).bind
  intro nonce
  apply ((follows_readCount _ 1).bind (follows_readSlice _)).bind
  intro payload
  apply (follows_toVec _ payload).bind
  intro payload
  exact .pure _

theorem follows_readFraming : Follows readFraming SnapshotReader.readFraming := by
  apply (follows_readArray _ 4).bind
  intro magic
  split
  · exact .fail _
  apply (follows_readWord _ 2 16).bind
  intro version
  split
  · exact .fail _
  apply (follows_readWord _ 2 16).bind
  intro k
  apply (follows_counted follows_readBlock _ 48).bind
  intro blocks
  exact .pure _

end SnapshotCursor

/-! ## Cut off and extended -/

namespace SnapshotReader

open Reader

theorem incremental_readBlockId : Incremental .unexpectedEof readBlockId :=
  (incremental_readArray _ 32).bind fun _ => .pure _ _

theorem incremental_readBlock : Incremental .unexpectedEof readBlock := by
  apply (incremental_counted incremental_readBlockId 32).bind
  intro parents
  apply (incremental_toVec _ parents).bind
  intro parents
  apply (incremental_readWord _ 16 128).bind
  intro work
  apply (incremental_readWord _ 8 64).bind
  intro timestampMs
  apply (incremental_readWord _ 8 64).bind
  intro nonce
  apply ((incremental_readCount _ 1).bind (incremental_readSlice _)).bind
  intro payload
  apply (incremental_toVec _ payload).bind
  intro payload
  exact .pure _ _

theorem incremental_readFraming : Incremental .unexpectedEof readFraming := by
  apply (incremental_readArray _ 4).bind
  intro magic
  split
  · exact .fail _ _
  apply (incremental_readWord _ 2 16).bind
  intro version
  split
  · exact .fail _ _
  apply (incremental_readWord _ 2 16).bind
  intro k
  apply (incremental_counted incremental_readBlock 48).bind
  intro blocks
  exact .pure _ _

end SnapshotReader

theorem decodeSnapshot_eq_decodeAll (bytes : List U8) :
    decodeSnapshot bytes = Reader.decodeAll .trailingBytes SnapshotReader.readFraming bytes := by
  unfold decodeSnapshot Reader.decodeAll
  cases SnapshotReader.readFraming bytes with
  | error e => rfl
  | ok out => rfl

theorem decodeBlock_eq_decodeAll (bytes : List U8) :
    decodeBlock bytes = Reader.decodeAll .trailingBytes SnapshotReader.readBlock bytes := by
  unfold decodeBlock Reader.decodeAll
  cases SnapshotReader.readBlock bytes with
  | error e => rfl
  | ok out => rfl

namespace SnapshotCursor

/-- Over a buffer, every snapshot ends as the list decoder says. -/
theorem decodeSnapshot_eq (bytes : Vec U8) :
    decodeSnapshot bytes = (Kovanica.decodeSnapshot bytes.val).mapError ReadFailure.error := by
  rw [decodeSnapshot_eq_decodeAll]
  exact follows_readFraming.decodeAll_eq .trailingBytes bytes

theorem accepted {bytes : Vec U8} {snapshot : DagSnapshot}
    (h : decodeSnapshot bytes = .ok snapshot) :
    Reader.decodeAll .trailingBytes SnapshotReader.readFraming bytes.val = .ok snapshot := by
  rw [decodeSnapshot_eq, decodeSnapshot_eq_decodeAll] at h
  cases hread : Reader.decodeAll .trailingBytes SnapshotReader.readFraming bytes.val with
  | error e =>
      rw [hread] at h
      cases h
  | ok snapshot' =>
      rw [hread] at h
      exact congrArg Except.ok (Except.ok.inj h)

/-- The same for a single block. -/
theorem decodeBlock_eq (bytes : Vec U8) :
    decodeBlock bytes = (Kovanica.decodeBlock bytes.val).mapError ReadFailure.error := by
  rw [decodeBlock_eq_decodeAll]
  exact follows_readBlock.decodeAll_eq .trailingBytes bytes

end SnapshotCursor

/-- The snapshot counts no more blocks than it has bytes. -/
theorem DagView.length_linearize_le (ord : HashOrder) (d : DagView) :
    (d.linearize ord).length ≤ (d.writeSnapshot ord).length := by
  have hblocks : _ ≤ ((d.linearize ord).flatMap fun id => encodeBlock (d.node id).block).length :=
    Reader.mul_le_length_flatMap fun id _ => SnapshotReader.length_encodeBlock_ge (d.node id).block
  show _ ≤ (_ ++ (toLeBytes 8 (d.linearize ord).length ++ (d.linearize ord).flatMap fun id =>
    encodeBlock (d.node id).block)).length
  simp only [List.length_append]
  omega

/-- Block framing is exact.  A stored block, and with it its id, and a stored DAG are
read back as they were; an accepted snapshot is accepted at its full length only, being
too short when it is cut off and followed by trailing bytes when it is extended; and
neither decoder reads outside its buffer, whatever the buffer holds. -/
theorem block_framing_exact :
    (∀ (block : Block) (bytes : Vec U8), bytes.val = encodeBlock block →
      SnapshotCursor.decodeBlock bytes = .ok block) ∧
    (∀ (ord : HashOrder) (d : DagView) (bytes : Vec U8), bytes.val = d.writeSnapshot ord →
      SnapshotCursor.decodeSnapshot bytes =
        .ok ⟨d.k, (d.linearize ord).map fun id => (d.node id).block⟩) ∧
    (∀ (bytes : Vec U8) (snapshot : DagSnapshot),
      SnapshotCursor.decodeSnapshot bytes = .ok snapshot →
        (∀ (short : Vec U8) (rest : List U8), bytes.val = short.val ++ rest → rest ≠ [] →
          SnapshotCursor.decodeSnapshot short = .error (.error .unexpectedEof)) ∧
        ∀ (long : Vec U8) (rest : List U8), long.val = bytes.val ++ rest → rest ≠ [] →
          SnapshotCursor.decodeSnapshot long = .error (.error .trailingBytes)) ∧
    ∀ bytes : Vec U8, SnapshotCursor.decodeSnapshot bytes ≠ .error .outOfRange ∧
      SnapshotCursor.decodeBlock bytes ≠ .error .outOfRange := by
  refine ⟨fun block bytes hbytes => ?_, fun ord d bytes hbytes => ?_,
    fun bytes snapshot hok => ⟨fun short rest hsplit hrest => ?_,
    fun long rest hlong hrest => ?_⟩, fun bytes => ⟨?_, ?_⟩⟩
  · rw [SnapshotCursor.decodeBlock_eq, hbytes, decode_encodeBlock]
    rfl
  · have hcount := d.length_linearize_le ord
    have hfit := bytes.property
    rw [hbytes] at hfit
    rw [SnapshotCursor.decodeSnapshot_eq, hbytes, DagView.decode_writeSnapshot_of_lt (by omega)]
    rfl
  · have hall := SnapshotCursor.accepted hok
    rw [hsplit] at hall
    rw [SnapshotCursor.decodeSnapshot_eq, decodeSnapshot_eq_decodeAll,
      SnapshotReader.incremental_readFraming.decodeAll_cut hall hrest]
    rfl
  · have hall := SnapshotCursor.accepted hok
    rw [SnapshotCursor.decodeSnapshot_eq, decodeSnapshot_eq_decodeAll, hlong,
      SnapshotReader.incremental_readFraming.decodeAll_extend hall hrest]
    rfl
  · exact SnapshotCursor.follows_readFraming.decodeAll_ne_outOfRange .trailingBytes bytes
  · exact SnapshotCursor.follows_readBlock.decodeAll_ne_outOfRange .trailingBytes bytes

open scoped Reference

/-- Two blocks and one that merges them.  The merging block is read back, and so is the
snapshot of the three; without its last byte it is too short, and with another byte behind
it too long. -/
theorem block_framing_exact_merge : ∃ (d : Dag) (block bytes short long : Vec U8),
    block.val = encodeBlock Reference.merge ∧
    SnapshotCursor.decodeBlock block = .ok Reference.merge ∧
    d.len = 4 ∧ bytes.val = d.writeSnapshot .sorted ∧
    SnapshotCursor.decodeSnapshot bytes =
      .ok ⟨d.k, (d.linearize .sorted).map fun id => (d.node id).block⟩ ∧
    short.val = bytes.val.dropLast ∧
    SnapshotCursor.decodeSnapshot short = .error (.error .unexpectedEof) ∧
    long.val = bytes.val ++ [0] ∧
    SnapshotCursor.decodeSnapshot long = .error (.error .trailingBytes) ∧
    SnapshotCursor.decodeBlock long ≠ .error .outOfRange := by
  have hblock : (encodeBlock Reference.merge).length < 2 ^ 64 := by
    decide +kernel
  have hplay : ((Dag.new .sorted 1 Reference.genesis).insertAll .sorted
      [Reference.left, Reference.right, Reference.merge]).any (fun d => decide (d.len = 4 ∧
        d.writeSnapshot .sorted ≠ [] ∧ (d.writeSnapshot .sorted).length + 1 < 2 ^ 64)) = true := by
    decide +kernel
  obtain ⟨d, _, hdec⟩ := Option.any_eq_true _ _ |>.1 hplay
  obtain ⟨hlen, hne, hfit⟩ := of_decide_eq_true hdec
  obtain ⟨hdecodes, hreads, hexact, hinside⟩ := block_framing_exact
  let bytes : Vec U8 := ⟨d.writeSnapshot .sorted, by omega⟩
  let short : Vec U8 := ⟨bytes.val.dropLast, by
    rw [List.length_dropLast]
    exact lt_of_le_of_lt (Nat.sub_le _ _) bytes.property⟩
  let long : Vec U8 := ⟨bytes.val ++ [0], by
    rw [List.length_append]
    exact hfit⟩
  have hread := hreads .sorted d.toDagView bytes rfl
  obtain ⟨hshort, hlong⟩ := hexact bytes _ hread
  exact ⟨d, ⟨encodeBlock Reference.merge, hblock⟩, bytes, short, long, rfl, hdecodes _ _ rfl, hlen,
    rfl, hread, rfl, hshort short [bytes.val.getLast hne] (List.dropLast_append_getLast hne).symm
      (List.cons_ne_nil _ _), rfl, hlong long [0] rfl (List.cons_ne_nil _ _), (hinside long).2⟩

end Kovanica
