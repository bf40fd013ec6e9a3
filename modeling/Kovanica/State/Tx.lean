import Kovanica.Dag.Block
import Kovanica.Lib.Codec

/-!
# Keys, transactions and the payload codec

A transaction spends outputs by reference and creates new ones; without inputs
it is a coinbase.  Its canonical encoding is length-prefixed and little-endian,
with the signatures for the id and without them for the signature hash.
A block's payload is a length-prefixed list of transactions, and
`decode_encode` is its round trip.

## Main results

* `decode_encode`, `encode_of_decode`: what is written is read back, and what is accepted was
  written so.
-/

namespace Kovanica

open Lib

/-! ## Keys -/

/-- The raw bytes of an ed25519 public key. -/
structure Address where
  bytes : Bytes 32

namespace Address

theorem bytes_injective : Function.Injective Address.bytes := by
  rintro ⟨a⟩ ⟨b⟩ h
  exact congrArg Address.mk h

instance : LinearOrder Address := LinearOrder.lift' Address.bytes bytes_injective

end Address

/-- A signing key, by its seed. -/
structure KeyPair where
  seed : Bytes 32

namespace KeyPair

/-- `KeyPair::from_u64`: the seed's first eight bytes, the rest zero. -/
def fromU64 (seed : U64) : KeyPair :=
  ⟨⟨toLeBytes 8 seed.val ++ List.replicate 24 0, by simp⟩⟩

def address [Crypto] (key : KeyPair) : Address := ⟨Crypto.publicKey key.seed⟩

def sign [Crypto] (key : KeyPair) (message : List U8) : Bytes 64 := Crypto.sign key.seed message

end KeyPair

/-- `verify(address, message, signature)`: false on an address that is no key. -/
def verify [Crypto] (address : Address) (message : List U8) (signature : Bytes 64) : Bool :=
  Crypto.validKey address.bytes && Crypto.verifyStrict address.bytes message signature

/-! ## Transactions -/

/-- 32-byte digest identifying a transaction, ordered by its raw bytes. -/
structure TxId where
  bytes : Bytes 32

namespace TxId

theorem bytes_injective : Function.Injective TxId.bytes := by
  rintro ⟨a⟩ ⟨b⟩ h
  exact congrArg TxId.mk h

instance : LinearOrder TxId := LinearOrder.lift' TxId.bytes bytes_injective

def display (id : TxId) : String := hexEncode id.bytes.val

end TxId

/-- One output of a previous transaction. -/
structure OutPoint where
  tx : TxId
  index : U32

namespace OutPoint

/-- The key the derived order compares: the transaction, then the index. -/
def key (op : OutPoint) : TxId ×ₗ U32 := toLex (op.tx, op.index)

theorem key_injective : Function.Injective OutPoint.key := by
  rintro ⟨tx, index⟩ ⟨tx', index'⟩ h
  obtain ⟨htx, hindex⟩ := Prod.mk.inj (toLex.injective h)
  exact congrArg₂ OutPoint.mk htx hindex

instance : LinearOrder OutPoint := LinearOrder.lift' OutPoint.key key_injective

/-- The derived `Debug` rendering. -/
def debug (op : OutPoint) : String :=
  "OutPoint \x7b tx: TxId(" ++ hexPrefix op.tx.bytes.val ++ "), index: " ++
    toString op.index.val ++ " \x7d"

end OutPoint

/-- A spend: the output consumed and the signature authorising it. -/
structure TxInput where
  outpoint : OutPoint
  signature : Bytes 64

/-- A created output: an amount and its owner. -/
structure TxOutput where
  value : U64
  owner : Address

instance : DecidableEq TxInput := fun a b =>
  decidable_of_iff (a.outpoint = b.outpoint ∧ a.signature = b.signature)
    ⟨fun ⟨h, h'⟩ => by cases a; cases b; simp_all, fun h => by simp [h]⟩

instance : DecidableEq TxOutput := fun a b =>
  decidable_of_iff (a.value = b.value ∧ a.owner = b.owner)
    ⟨fun ⟨h, h'⟩ => by cases a; cases b; simp_all, fun h => by simp [h]⟩

/-- The output the empty map entry stands for; never read. -/
instance : Inhabited TxOutput := ⟨⟨0, ⟨default⟩⟩⟩

/-- A transaction.  `tag` is extra committed bytes; for a coinbase it
disambiguates the id. -/
@[ext] structure Transaction where
  inputs : List TxInput
  outputs : List TxOutput
  tag : List U8
deriving DecidableEq

namespace Transaction

def coinbase (outputs : List TxOutput) (tag : List U8) : Transaction := ⟨[], outputs, tag⟩

def isCoinbase (tx : Transaction) : Bool := tx.inputs.isEmpty

/-- The all-zero placeholder signature. -/
def zeroSig : Bytes 64 := ⟨List.replicate 64 0, List.length_replicate⟩

/-- A spend whose signatures are still zero. -/
def unsigned (outpoints : List OutPoint) (outputs : List TxOutput) (tag : List U8) :
    Transaction :=
  ⟨outpoints.map fun op => ⟨op, zeroSig⟩, outputs, tag⟩

/-- `attach_signature(index, signature)`: nothing on an index out of range. -/
def attachSignature (tx : Transaction) (index : Nat) (signature : Bytes 64) : Transaction :=
  { tx with inputs := tx.inputs.modify index fun input => { input with signature := signature } }

def encodeInput (withSignatures : Bool) (input : TxInput) : List U8 :=
  input.outpoint.tx.bytes.val ++ toLeBytes 4 input.outpoint.index.val ++
    if withSignatures then input.signature.val else []

def encodeOutput (output : TxOutput) : List U8 :=
  toLeBytes 8 output.value.val ++ output.owner.bytes.val

/-- `encode_into`, as the bytes it appends.  With the signatures it is the encoding that is stored
and hashed for the id, without them the one that is signed. -/
def encodeInto (tx : Transaction) (withSignatures : Bool) : List U8 :=
  toLeBytes 8 tx.inputs.length ++ tx.inputs.flatMap (encodeInput withSignatures) ++
    (toLeBytes 8 tx.outputs.length ++ tx.outputs.flatMap encodeOutput) ++
      (toLeBytes 8 tx.tag.length ++ tx.tag)

def encode (tx : Transaction) : List U8 := tx.encodeInto true

/-- The hash every input signs: the encoding without signatures.  All inputs of a transaction
sign the same hash, and so commit to all of its outputs. -/
def sighash [Crypto] (tx : Transaction) : List U8 := (Crypto.blake3 (tx.encodeInto false)).val

def id [Crypto] (tx : Transaction) : TxId := ⟨Crypto.blake3 tx.encode⟩

end Transaction

/-! ## Block payloads -/

/-- `encode_block_payload(txs)`. -/
def encodeBlockPayload (txs : List Transaction) : List U8 :=
  toLeBytes 8 txs.length ++ txs.flatMap Transaction.encode

/-- A transaction list small enough for its payload to exist: the payload of a block is a `Vec`,
whose length is a `usize`. -/
abbrev TxList : Type := { txs : List Transaction // (encodeBlockPayload txs).length < 2 ^ 64 }

namespace TxList

/-- The payload of the list. -/
def payload (txs : TxList) : Vec U8 := ⟨encodeBlockPayload txs.val, txs.property⟩

/-- The list, if its payload is not too long to allocate. -/
def ofList? (txs : List Transaction) : Option TxList :=
  if h : (encodeBlockPayload txs).length < 2 ^ 64 then some ⟨txs, h⟩ else none

end TxList

inductive DecodeError where
  | unexpectedEof
  | trailingBytes
deriving DecidableEq

def DecodeError.display : DecodeError → String
  | unexpectedEof => "unexpected end of payload"
  | trailingBytes => "trailing bytes after payload"

/-- The payload decoder's cursor. -/
abbrev TxReader (α : Type) : Type := Reader DecodeError α

namespace TxReader

def readInput : TxReader TxInput := do
  let tx ← Reader.readArray .unexpectedEof 32
  let index ← Reader.readWord .unexpectedEof 4 32
  let signature ← Reader.readArray .unexpectedEof 64
  return ⟨⟨⟨tx⟩, index⟩, signature⟩

def readOutput : TxReader TxOutput := do
  let value ← Reader.readWord .unexpectedEof 8 64
  let owner ← Reader.readArray .unexpectedEof 32
  return ⟨value, ⟨owner⟩⟩

/-- `read_transaction`: an input takes 100 bytes, an output 40, a tag byte one. -/
def readTransaction : TxReader Transaction := do
  let inputs ← Reader.readCount .unexpectedEof 100 >>= Reader.readMany readInput
  let outputs ← Reader.readCount .unexpectedEof 40 >>= Reader.readMany readOutput
  let tag ← Reader.readCount .unexpectedEof 1 >>= Reader.readSlice .unexpectedEof
  return ⟨inputs, outputs, tag⟩

end TxReader

/-- `decode_block_payload(bytes)`: the smallest transaction takes 24 bytes, and
nothing may follow the last one. -/
def decodeBlockPayload (bytes : List U8) : Except DecodeError (List Transaction) :=
  match (Reader.readCount .unexpectedEof 24 >>= Reader.readMany TxReader.readTransaction) bytes with
  | .error e => .error e
  | .ok (txs, rest) => if rest.isEmpty then .ok txs else .error .trailingBytes

/-! ## Round trip -/

namespace TxReader

open Reader

theorem reads_readInput (input : TxInput) :
    Reads readInput (Transaction.encodeInput true input) input := by
  have hindex := reads_readWord DecodeError.unexpectedEof (n := 4) (by decide)
    input.outpoint.index
  rw [Transaction.encodeInput, if_pos rfl, List.append_assoc]
  refine (reads_readArray _ input.outpoint.tx.bytes).bind (hindex.bind ?_)
  exact (reads_readArray _ input.signature).map _

theorem reads_readOutput (output : TxOutput) :
    Reads readOutput (Transaction.encodeOutput output) output := by
  have hvalue := reads_readWord DecodeError.unexpectedEof (n := 8) (by decide) output.value
  exact hvalue.bind ((reads_readArray _ output.owner.bytes).map _)

theorem reads_readTransaction (tx : Transaction) (hfit : tx.encode.length < 2 ^ 64) :
    Reads readTransaction tx.encode tx := by
  have hlen : tx.encode.length = 24 + (tx.inputs.flatMap (Transaction.encodeInput true)).length +
      (tx.outputs.flatMap Transaction.encodeOutput).length + tx.tag.length := by
    simp only [Transaction.encode, Transaction.encodeInto, List.length_append, length_toLeBytes]
    omega
  have hin : ∀ input : TxInput, (Transaction.encodeInput true input).length = 100 := by
    intro input
    simp only [Transaction.encodeInput, if_true, List.length_append, length_toLeBytes,
      input.outpoint.tx.bytes.property, input.signature.property]
  have hout : ∀ output : TxOutput, (Transaction.encodeOutput output).length = 40 := by
    intro output
    simp only [Transaction.encodeOutput, List.length_append, length_toLeBytes,
      output.owner.bytes.property]
  have hlenIn : (tx.inputs.flatMap (Transaction.encodeInput true)).length =
      tx.inputs.length * 100 := by
    rw [List.length_flatMap, List.map_congr_left fun input _ => hin input, List.map_const',
      List.sum_replicate, Nat.nsmul_eq_mul]
  have hlenOut : (tx.outputs.flatMap Transaction.encodeOutput).length =
      tx.outputs.length * 40 := by
    rw [List.length_flatMap, List.map_congr_left fun output _ => hout output, List.map_const',
      List.sum_replicate, Nat.nsmul_eq_mul]
  have hinputs := reads_counted DecodeError.unexpectedEof 100 (l := tx.inputs)
    (by omega) (fun a _ => (hin a).ge) (fun a _ => reads_readInput a)
  have houtputs := reads_counted DecodeError.unexpectedEof 40 (l := tx.outputs)
    (by omega) (fun a _ => (hout a).ge) (fun a _ => reads_readOutput a)
  have htag := reads_countedSlice DecodeError.unexpectedEof tx.tag (by omega)
  rw [Transaction.encode, Transaction.encodeInto, List.append_assoc (_ ++ _)]
  exact hinputs.bind (houtputs.bind (htag.map _))

end TxReader

theorem length_encode_ge (tx : Transaction) : 24 ≤ tx.encode.length := by
  simp only [Transaction.encode, Transaction.encodeInto, List.length_append, length_toLeBytes]
  omega

theorem TxReader.canonical_readInput :
    Reader.Canonical TxReader.readInput (Transaction.encodeInput true) := by
  intro bytes input rest h
  obtain ⟨tx, mid, htx, h⟩ := Reader.bind_eq_ok.1 h
  obtain ⟨index, mid', hindex, h⟩ := Reader.bind_eq_ok.1 h
  obtain ⟨signature, mid'', hsignature, h⟩ := Reader.bind_eq_ok.1 h
  obtain ⟨rfl, rfl⟩ := Reader.pure_eq_ok.1 h
  rw [Reader.canonical_readArray _ _ _ _ _ htx,
    Reader.canonical_readWord _ (by decide) _ _ _ hindex,
    Reader.canonical_readArray _ _ _ _ _ hsignature]
  simp [Transaction.encodeInput]

theorem TxReader.canonical_readOutput :
    Reader.Canonical TxReader.readOutput Transaction.encodeOutput := by
  intro bytes output rest h
  obtain ⟨value, mid, hvalue, h⟩ := Reader.bind_eq_ok.1 h
  obtain ⟨owner, mid', howner, h⟩ := Reader.bind_eq_ok.1 h
  obtain ⟨rfl, rfl⟩ := Reader.pure_eq_ok.1 h
  rw [Reader.canonical_readWord _ (by decide) _ _ _ hvalue,
    Reader.canonical_readArray _ _ _ _ _ howner]
  simp [Transaction.encodeOutput]

theorem TxReader.canonical_readTransaction :
    Reader.Canonical TxReader.readTransaction Transaction.encode := by
  intro bytes tx rest h
  obtain ⟨inputs, mid, hinputs, h⟩ := Reader.bind_eq_ok.1 h
  obtain ⟨outputs, mid', houtputs, h⟩ := Reader.bind_eq_ok.1 h
  obtain ⟨tag, mid'', htag, h⟩ := Reader.bind_eq_ok.1 h
  obtain ⟨rfl, rfl⟩ := Reader.pure_eq_ok.1 h
  rw [Reader.canonical_counted canonical_readInput _ _ _ _ _ hinputs,
    Reader.canonical_counted canonical_readOutput _ _ _ _ _ houtputs,
    Reader.canonical_countedSlice _ _ _ _ htag]
  simp [Transaction.encode, Transaction.encodeInto]

/-- A payload that decodes is the encoding of what it decodes to. -/
theorem encode_of_decode {bytes : List U8} {txs : List Transaction}
    (h : decodeBlockPayload bytes = .ok txs) : encodeBlockPayload txs = bytes := by
  unfold decodeBlockPayload at h
  split at h
  · cases h
  · rename_i txs' rest hread
    have hbytes := Reader.canonical_counted TxReader.canonical_readTransaction _ _ _ _ _ hread
    split at h
    · rename_i hempty
      rw [List.isEmpty_iff.1 hempty, List.append_nil, Except.ok.inj h] at hbytes
      exact hbytes.symm
    · cases h

/-- A payload decodes to the transactions it was encoded from. -/
theorem decode_encode (txs : TxList) :
    decodeBlockPayload (encodeBlockPayload txs.val) = .ok txs.val := by
  obtain ⟨txs, hfit⟩ := txs
  have hlen : (encodeBlockPayload txs).length = 8 + (txs.flatMap Transaction.encode).length := by
    rw [encodeBlockPayload, List.length_append, length_toLeBytes]
  have hmem : ∀ tx ∈ txs, tx.encode.length ≤ (txs.flatMap Transaction.encode).length := by
    intro tx htx
    exact (List.sublist_flatten_of_mem (List.mem_map_of_mem htx)).length_le
  have hcount : txs.length ≤ (txs.flatMap Transaction.encode).length := by
    rw [List.length_flatMap]
    have hsum := List.length_le_sum_of_one_le (txs.map fun tx => tx.encode.length) (by
      intro n hn
      obtain ⟨tx, _, rfl⟩ := List.mem_map.1 hn
      have := length_encode_ge tx
      omega)
    rwa [List.length_map] at hsum
  have h := Reader.reads_counted DecodeError.unexpectedEof 24 (l := txs)
    (by omega) (fun tx _ => length_encode_ge tx)
    (fun tx htx => TxReader.reads_readTransaction tx (by have := hmem tx htx; omega)) []
  rw [List.append_nil] at h
  rw [decodeBlockPayload, encodeBlockPayload, h]
  rfl

end Kovanica
