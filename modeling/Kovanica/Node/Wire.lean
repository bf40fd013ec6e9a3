import Kovanica.Node.Net
import Kovanica.Node.Reachable

/-!
# The wire format of records

A list of records is its count and the records one after the other, each with its
parents and its payload under counts of their own.  The decoder takes exactly what
the encoder writes, record by record as well as for a whole list.

## Main results

* `decodeRecords_cut`: a list of records that is cut off is not one.
* `id_of_insert`: a record that is taken has the id it was exported under.
-/

namespace Kovanica

open Lib

/-! ## The format -/

/-- `encode_record(record)`. -/
def encodeRecord (record : BlockRecord) : List U8 :=
  let payload := encodeBlockPayload record.txs.val
  toLeBytes 8 record.parents.val.length ++ record.parents.val.flatMap (fun p => p.bytes.val) ++
    toLeBytes 16 record.work.val ++ toLeBytes 8 record.timestampMs.val ++
    toLeBytes 8 record.nonce.val ++ (toLeBytes 8 payload.length ++ payload)

/-- `encode_records(records)`. -/
def encodeRecords (records : List BlockRecord) : List U8 :=
  toLeBytes 8 records.length ++ records.flatMap encodeRecord

/-- The cursor over received bytes. -/
abbrev NetReader (α : Type) : Type := Reader NetError α

namespace NetReader

/-- `read_array` past the end of the bytes. -/
def unexpectedEnd : NetError := .decode "unexpected end"

def countTooLarge : NetError := .decode "count too large"

def trailingBytes : NetError := .decode "trailing bytes"

def readBlockId : NetReader BlockId := do
  let bytes ← Reader.readArray unexpectedEnd 32
  return ⟨bytes⟩

/-- `decode_record`. -/
def readRecord : NetReader BlockRecord := do
  let parents ← Reader.readCountOr unexpectedEnd countTooLarge 32 >>= Reader.readMany readBlockId
  let parents ← Reader.toVec unexpectedEnd parents
  let work ← Reader.readWord unexpectedEnd 16 128
  let timestampMs ← Reader.readWord unexpectedEnd 8 64
  let nonce ← Reader.readWord unexpectedEnd 8 64
  let payload ← Reader.readCountOr unexpectedEnd countTooLarge 1 >>=
    Reader.readSlice unexpectedEnd
  let payload ← Reader.toVec unexpectedEnd payload
  let txs ← Reader.lift ((decodePayload payload).mapError fun e => .decode e.display)
  return ⟨parents, work, timestampMs, nonce, txs⟩

end NetReader

/-- `decode_records(bytes)`: a record takes at least 48 bytes, by which the count is checked before
anything is allocated. -/
def decodeRecords (bytes : List U8) : Except NetError (List BlockRecord) :=
  Reader.decodeAll NetReader.trailingBytes
    (Reader.readCountOr NetReader.unexpectedEnd NetReader.countTooLarge 48 >>=
      Reader.readMany NetReader.readRecord) bytes

/-- `decode_one_record(bytes)`. -/
def decodeOneRecord (bytes : List U8) : Except NetError BlockRecord :=
  Reader.decodeAll NetReader.trailingBytes NetReader.readRecord bytes

/-! ## Reading back what was written -/

namespace NetReader

open Reader

theorem reads_readBlockId (id : BlockId) : Reads readBlockId id.bytes.val id :=
  (reads_readArray _ id.bytes).map BlockId.mk

theorem canonical_readBlockId : Canonical readBlockId fun id => id.bytes.val := by
  intro bytes id rest h
  obtain ⟨array, mid, harray, h⟩ := bind_eq_ok.1 h
  obtain ⟨rfl, rfl⟩ := pure_eq_ok.1 h
  exact canonical_readArray _ _ _ _ _ harray

theorem reads_readRecord (record : BlockRecord) :
    Reads readRecord (encodeRecord record) record := by
  have hparents := ((agree_readCountOr unexpectedEnd countTooLarge 32).bind _).reads
    (reads_counted unexpectedEnd 32 record.parents.property (fun p _ => p.bytes.property.ge)
      (fun p _ => reads_readBlockId p))
  have hparentsVec := reads_toVec unexpectedEnd record.parents
  have hwork := reads_readWord unexpectedEnd (n := 16) (by decide) record.work
  have htime := reads_readWord unexpectedEnd (n := 8) (by decide) record.timestampMs
  have hnonce := reads_readWord unexpectedEnd (n := 8) (by decide) record.nonce
  have hpayload := ((agree_readCountOr unexpectedEnd countTooLarge 1).bind _).reads
    (reads_countedSlice unexpectedEnd record.txs.payload.val record.txs.payload.property)
  have hpayloadVec := reads_toVec unexpectedEnd record.txs.payload
  have henc : encodeRecord record = toLeBytes 8 record.parents.val.length ++
      record.parents.val.flatMap (fun p => p.bytes.val) ++ ([] ++ (toLeBytes 16 record.work.val ++
        (toLeBytes 8 record.timestampMs.val ++ (toLeBytes 8 record.nonce.val ++
          (toLeBytes 8 record.txs.payload.val.length ++ record.txs.payload.val ++
            ([] ++ [])))))) := by
    simp [encodeRecord, TxList.payload]
  have htxs : Reads (lift ((decodePayload record.txs.payload).mapError fun e =>
      NetError.decode e.display)) [] record.txs := by
    apply reads_lift
    rw [decodePayload_payload]
    rfl
  rw [henc]
  refine hparents.bind (hparentsVec.bind (hwork.bind (htime.bind (hnonce.bind ?_))))
  exact hpayload.bind (hpayloadVec.bind (htxs.map _))

theorem canonical_readRecord : Canonical readRecord encodeRecord := by
  intro bytes record rest h
  obtain ⟨parents, _, hparents, h⟩ := bind_eq_ok.1 h
  obtain ⟨parents', _, hparentsVec, h⟩ := bind_eq_ok.1 h
  obtain ⟨work, _, hwork, h⟩ := bind_eq_ok.1 h
  obtain ⟨timestampMs, _, htime, h⟩ := bind_eq_ok.1 h
  obtain ⟨nonce, _, hnonce, h⟩ := bind_eq_ok.1 h
  obtain ⟨payload, _, hpayload, h⟩ := bind_eq_ok.1 h
  obtain ⟨payload', _, hpayloadVec, h⟩ := bind_eq_ok.1 h
  have hbytes := ((agree_readCountOr _ countTooLarge 32).bind _).canonical
    (canonical_counted canonical_readBlockId unexpectedEnd 32) _ _ _ hparents
  obtain ⟨rfl, rfl⟩ := toVec_eq_ok hparentsVec
  have hbytes₁ := canonical_readWord _ (by decide) _ _ _ hwork
  have hbytes₂ := canonical_readWord _ (by decide) _ _ _ htime
  have hbytes₃ := canonical_readWord _ (by decide) _ _ _ hnonce
  have hbytes₄ := ((agree_readCountOr _ countTooLarge 1).bind _).canonical
    (canonical_countedSlice unexpectedEnd) _ _ _ hpayload
  obtain ⟨rfl, rfl⟩ := toVec_eq_ok hpayloadVec
  obtain ⟨txs, _, htxs, h⟩ := bind_eq_ok.1 h
  obtain ⟨hdecode, rfl⟩ := lift_eq_ok.1 htxs
  obtain ⟨rfl, rfl⟩ := pure_eq_ok.1 h
  have hpayload' : encodeBlockPayload txs.val = payload'.val :=
    congrArg Subtype.val (payload_of_decodePayload (ok_of_mapError hdecode))
  rw [hbytes, hbytes₁, hbytes₂, hbytes₃, hbytes₄]
  simp [encodeRecord, hpayload']

theorem length_encodeRecord_ge (record : BlockRecord) : 48 ≤ (encodeRecord record).length := by
  simp only [encodeRecord, List.length_append, length_toLeBytes]
  omega

end NetReader

open Reader NetReader

theorem decode_encodeRecord (record : BlockRecord) :
    decodeOneRecord (encodeRecord record) = .ok record := by
  have hread := reads_readRecord record []
  rw [List.append_nil] at hread
  exact decodeAll_eq_ok.2 hread

theorem encode_of_decodeOneRecord {bytes : List U8} {record : BlockRecord}
    (h : decodeOneRecord bytes = .ok record) : encodeRecord record = bytes := by
  have hbytes := canonical_readRecord _ _ _ (decodeAll_eq_ok.1 h)
  rw [hbytes, List.append_nil]

theorem decode_encodeRecords (records : Vec BlockRecord) :
    decodeRecords (encodeRecords records.val) = .ok records.val := by
  have hread := ((agree_readCountOr unexpectedEnd countTooLarge 48).bind _).reads
    (reads_counted unexpectedEnd 48 records.property (fun r _ => length_encodeRecord_ge r)
      (fun r _ => reads_readRecord r)) []
  rw [List.append_nil] at hread
  exact decodeAll_eq_ok.2 hread

theorem encode_of_decodeRecords {bytes : List U8} {records : List BlockRecord}
    (h : decodeRecords bytes = .ok records) : encodeRecords records = bytes := by
  have hbytes := ((agree_readCountOr unexpectedEnd countTooLarge 48).bind _).canonical
    (canonical_counted canonical_readRecord unexpectedEnd 48) _ _ _ (decodeAll_eq_ok.1 h)
  rw [hbytes, List.append_nil]
  rfl

theorem length_of_decodeRecords {bytes : List U8} {records : List BlockRecord}
    (h : decodeRecords bytes = .ok records) : records.length < 2 ^ 64 := by
  have hcount := (agree_readCountOr unexpectedEnd countTooLarge 48).bind (readMany readRecord)
  obtain ⟨n, mid, hn, hmany⟩ := bind_eq_ok.1 ((hcount _ _).2 (decodeAll_eq_ok.1 h))
  rw [(readMany_eq_ok canonical_readRecord hmany).1]
  exact (readCount_eq_ok hn).2.1

/-- Records that are cut off anywhere are refused. -/
theorem decodeRecords_cut (records : Vec BlockRecord) {cut ext : List U8}
    (h : encodeRecords records.val = cut ++ ext) (hext : ext ≠ []) :
    ∃ e, decodeRecords cut = .error e := by
  have hwhole := decode_encodeRecords records
  rw [h] at hwhole
  have hcount := agree_readCountOr unexpectedEnd countTooLarge 48
  apply Canonical.decodeAll_cut
    ((hcount.bind _).canonical (canonical_counted canonical_readRecord unexpectedEnd 48)) _ hwhole
    hext
  intro bytes a ha
  exact (hcount.bind _).reads (reads_counted unexpectedEnd 48 (length_of_decodeRecords ha)
    (fun r _ => length_encodeRecord_ge r) (fun r _ => reads_readRecord r))

/-! ## The id of a block that was sent -/

section Received

variable [Crypto]

/-- A ledger gives a record it accepts the id of the block it stands for. -/
theorem id_of_insert {ord : HashOrder} {m m' : Ledger} {record : BlockRecord} {id : BlockId}
    (h : m.insert ord record.parents record.work record.timestampMs record.nonce record.txs =
      .ok (id, m')) : id = record.block.id := by
  have hoffer : m.offer ⟨ord, record.parents, record.work, record.timestampMs, record.nonce,
      record.txs⟩ = .ok (id, m') := h
  obtain ⟨_, _, _, _, _, rfl, _⟩ := Ledger.offer_eq_ok_iff.1 hoffer
  rfl

/-- The record codec is exact: records survive it, alone and in a list, every list of
records that is accepted was written from its result, and a stored block that is sent as
its record keeps its id in every ledger that accepts it. -/
theorem record_codec_exact :
    (∀ records : Vec BlockRecord, decodeRecords (encodeRecords records.val) = .ok records.val) ∧
    (∀ record, decodeOneRecord (encodeRecord record) = .ok record) ∧
    (∀ bytes records, decodeRecords bytes = .ok records → bytes = encodeRecords records) ∧
    ∀ (n : Node) (l : Ledger), n.ledger = some l → l.Reachable → ∀ x ∈ l.dag.nodes,
      ∃ record, n.blockRecord x = some record ∧
        ∃ received, decodeOneRecord (encodeRecord record) = .ok received ∧
          ∀ ord (m m' : Ledger) id, m.insert ord received.parents received.work
            received.timestampMs received.nonce received.txs = .ok (id, m') → id = x := by
  refine ⟨decode_encodeRecords, decode_encodeRecord,
    fun bytes records h => (encode_of_decodeRecords h).symm, ?_⟩
  intro n l hledger hl x hx
  obtain ⟨record, hrecord, hblock⟩ := Node.exists_blockRecord hledger hl.wellFormed hx
  refine ⟨record, hrecord, record, decode_encodeRecord record, ?_⟩
  intro ord m m' id hinsert
  rw [id_of_insert hinsert, hblock]
  exact hl.wellFormed.dag.id_eq x _ (DagView.lookup_node hx)

end Received

section

open scoped Reference

/-- The first block of a node, sent to a ledger that has only its genesis. -/
theorem record_codec_exact_first : ∃ (n : Node) (m m' : Ledger) (x : BlockId)
    (record received : BlockRecord), n.blockRecord x = some record ∧
      decodeOneRecord (encodeRecord record) = .ok received ∧
      m.insert .sorted received.parents received.work received.timestampMs received.nonce
        received.txs = .ok (x, m') := by
  have hcheck : (Node.new.genesis ⟨.sorted, 0⟩ 3 10 10 1).toOption.any (fun founded =>
      (founded.2.produceEmpty ⟨.sorted, 0⟩).toOption.any fun produced =>
        founded.2.ledger.any fun m => produced.2.ledger.any fun l =>
          decide (produced.1 ∈ l.dag.nodes) && (produced.2.blockRecord produced.1).any fun r =>
            (m.insert .sorted r.parents r.work r.timestampMs r.nonce r.txs).toOption.isSome) =
      true := by
    decide +kernel
  obtain ⟨⟨_, n₀⟩, hgenesis, hproduces⟩ := Option.any_eq_true _ _ |>.1 hcheck
  obtain ⟨⟨x, n⟩, hproduce, hledgers⟩ := Option.any_eq_true _ _ |>.1 hproduces
  obtain ⟨m, _, hledger⟩ := Option.any_eq_true _ _ |>.1 hledgers
  obtain ⟨l, hl, hboth⟩ := Option.any_eq_true _ _ |>.1 hledger
  obtain ⟨hmem, hrecords⟩ := Bool.and_eq_true_iff.1 hboth
  obtain ⟨r, hr, hinserts⟩ := Option.any_eq_true _ _ |>.1 hrecords
  obtain ⟨⟨id, m'⟩, hinsert⟩ := Option.isSome_iff_exists.1 hinserts
  have hn : n.Reachable :=
    (Node.Reachable.genesis .new (ok_of_toOption hgenesis)).produceEmpty (ok_of_toOption hproduce)
  obtain ⟨record, hrecord, received, hreceived, hsame⟩ := record_codec_exact.2.2.2 n l hl
    (hn.plain hl).unbounded.reachable x (of_decide_eq_true hmem)
  obtain rfl := Option.some.inj (hr.symm.trans hrecord)
  obtain rfl := Except.ok.inj ((decode_encodeRecord r).symm.trans hreceived)
  have hid := hsame .sorted m m' id (ok_of_toOption hinsert)
  exact ⟨n, m, m', x, r, r, hrecord, hreceived, hid ▸ ok_of_toOption hinsert⟩

end

end Kovanica
