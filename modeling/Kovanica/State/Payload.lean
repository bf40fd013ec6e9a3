import Kovanica.Lib.Cursor
import Kovanica.State.Tx

/-!
# The payload decoder over its buffer

The decoder of `State.Tx` reads a list of bytes.  The code's `Reader` keeps the
payload and a position, slices the one at the other, and would panic on a slice
out of range.  Here is that reader, which does what the list decoder does and
never leaves its buffer.

That the two agree is `decodeBlockPayload_eq`, from one lemma for each field of a transaction.
-/

namespace Kovanica

open Lib

namespace TxCursor

def readInput : Cursor DecodeError TxInput := do
  let tx ← Cursor.readArray .unexpectedEof 32
  let index ← Cursor.readWord .unexpectedEof 4 32
  let signature ← Cursor.readArray .unexpectedEof 64
  return ⟨⟨⟨tx⟩, index⟩, signature⟩

def readOutput : Cursor DecodeError TxOutput := do
  let value ← Cursor.readWord .unexpectedEof 8 64
  let owner ← Cursor.readArray .unexpectedEof 32
  return ⟨value, ⟨owner⟩⟩

/-- `read_transaction`. -/
def readTransaction : Cursor DecodeError Transaction := do
  let inputs ← Cursor.readCount .unexpectedEof 100 >>= Cursor.readMany readInput
  let outputs ← Cursor.readCount .unexpectedEof 40 >>= Cursor.readMany readOutput
  let tag ← Cursor.readCount .unexpectedEof 1 >>= Cursor.readSlice .unexpectedEof
  return ⟨inputs, outputs, tag⟩

/-- The body of `decode_block_payload`. -/
def readPayload : Cursor DecodeError (List Transaction) := do
  let txs ← Cursor.readCount .unexpectedEof 24 >>= Cursor.readMany readTransaction
  let left ← Cursor.remaining
  if left ≠ 0 then Cursor.fail .trailingBytes else return txs

/-- `decode_block_payload(bytes)`: the reader starts at the first byte. -/
def decodeBlockPayload (bytes : Vec U8) : Except (ReadFailure DecodeError) (List Transaction) :=
  match readPayload bytes 0 with
  | .error e => .error e
  | .ok (txs, _) => .ok txs

/-! ## The two decoders agree -/

open Cursor

theorem follows_readInput : Follows readInput TxReader.readInput :=
  (follows_readArray _ 32).bind fun _ => (follows_readWord _ 4 32).bind fun _ =>
    (follows_readArray _ 64).bind fun _ => .pure _

theorem follows_readOutput : Follows readOutput TxReader.readOutput :=
  (follows_readWord _ 8 64).bind fun _ => (follows_readArray _ 32).bind fun _ => .pure _

theorem follows_readTransaction : Follows readTransaction TxReader.readTransaction :=
  (follows_counted follows_readInput _ 100).bind fun _ =>
    (follows_counted follows_readOutput _ 40).bind fun _ =>
      ((follows_readCount _ 1).bind (follows_readSlice _)).bind fun _ => .pure _

theorem decodeBlockPayload_eq_decodeAll (bytes : Vec U8) :
    decodeBlockPayload bytes = Cursor.decodeAll .trailingBytes
      (Cursor.readCount .unexpectedEof 24 >>= Cursor.readMany readTransaction) bytes := by
  have hread : readPayload = Cursor.toEnd .trailingBytes
      (Cursor.readCount .unexpectedEof 24 >>= Cursor.readMany readTransaction) := rfl
  unfold decodeBlockPayload Cursor.decodeAll
  rw [hread]
  cases Cursor.toEnd .trailingBytes
      (Cursor.readCount .unexpectedEof 24 >>= Cursor.readMany readTransaction) bytes 0 with
  | error e => rfl
  | ok out => rfl

/-- Over a buffer, every payload ends as the list decoder says. -/
theorem decodeBlockPayload_eq (bytes : Vec U8) :
    decodeBlockPayload bytes =
      (Kovanica.decodeBlockPayload bytes.val).mapError ReadFailure.error := by
  have htxs := follows_counted follows_readTransaction DecodeError.unexpectedEof 24
  rw [decodeBlockPayload_eq_decodeAll, htxs.decodeAll_eq]
  congr 1
  unfold Reader.decodeAll Kovanica.decodeBlockPayload
  cases (Reader.readCount DecodeError.unexpectedEof 24 >>=
      Reader.readMany TxReader.readTransaction) bytes.val with
  | error e => rfl
  | ok out => rfl

end TxCursor

/-- The payload codec is a bijection onto what it accepts: transactions survive
it, every byte string either is refused with an error of the decoder, without a
read outside the buffer, or is the encoding of what it decodes to, and two
accepted byte strings never decode alike. -/
theorem payload_codec_bijective :
    (∀ txs : TxList, TxCursor.decodeBlockPayload txs.payload = .ok txs.val) ∧
      (∀ bytes : Vec U8,
        (∃ e, TxCursor.decodeBlockPayload bytes = .error (.error e)) ∨
          ∃ txs, TxCursor.decodeBlockPayload bytes = .ok txs ∧
            encodeBlockPayload txs = bytes.val) ∧
      Set.InjOn TxCursor.decodeBlockPayload
        {bytes | ∃ txs, TxCursor.decodeBlockPayload bytes = .ok txs} := by
  have hencode : ∀ (bytes : Vec U8) txs, TxCursor.decodeBlockPayload bytes = .ok txs →
      encodeBlockPayload txs = bytes.val := by
    intro bytes txs h
    rw [TxCursor.decodeBlockPayload_eq] at h
    apply encode_of_decode
    cases hdecode : decodeBlockPayload bytes.val with
    | error e =>
        rw [hdecode] at h
        cases h
    | ok txs' =>
        rw [hdecode] at h
        exact congrArg Except.ok (Except.ok.inj h)
  refine ⟨?_, ?_, ?_⟩
  · intro txs
    rw [TxCursor.decodeBlockPayload_eq]
    show (decodeBlockPayload (encodeBlockPayload txs.val)).mapError _ = _
    rw [decode_encode]
    rfl
  · intro bytes
    cases hdecode : decodeBlockPayload bytes.val with
    | error e =>
        left
        refine ⟨e, ?_⟩
        rw [TxCursor.decodeBlockPayload_eq, hdecode]
        rfl
    | ok txs =>
        right
        have hok : TxCursor.decodeBlockPayload bytes = .ok txs := by
          rw [TxCursor.decodeBlockPayload_eq, hdecode]
          rfl
        exact ⟨txs, hok, hencode bytes txs hok⟩
  · rintro bytes ⟨txs, htxs⟩ bytes' _ heq
    apply Subtype.ext
    rw [← hencode bytes txs htxs, hencode bytes' txs (heq ▸ htxs)]

end Kovanica
