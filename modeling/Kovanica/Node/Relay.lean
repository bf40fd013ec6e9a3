import Kovanica.Lib.Frames
import Kovanica.Lib.Utf8
import Kovanica.Node.Wire

/-!
# The relay session

A persistent connection carries hellos, blocks and transactions, one frame a message.
The sender narrows every length to the field it has for it and knows no limit; the
receiver reads these fields, and refuses a frame of more than four mebibytes.  What is
sent comes through if and only if nothing was narrowed and no frame is over the limit.

## Main results

* `encode_of_decodeMsg`: what the receiver decodes is what was encoded.
-/

namespace Kovanica

open Lib

/-- One message of a session: a hello with a name and a list of names, a block as its record, or a
transaction. -/
inductive RelayMsg where
  | hello (sender : String) (advertised : Vec String)
  | block (record : BlockRecord)
  | tx (transaction : Transaction)

namespace Relay

def tagHello : U8 := 0

def tagBlock : U8 := 1

def tagTx : U8 := 2

/-- `MAX_FRAME`: four mebibytes. -/
def maxFrame : Nat := 4 * 1024 * 1024

/-! ## The format -/

/-- `push_str(buf, s)`: `bytes.len() as u16` and the bytes. -/
def pushStr (s : String) : List U8 :=
  toLeBytes 2 (Word.cast 16 (utf8 s).length).val ++ utf8 s

/-- `encode_msg(msg)`. -/
def encodeMsg : RelayMsg → List U8
  | .hello sender advertised =>
      tagHello :: (pushStr sender ++ toLeBytes 2 (Word.cast 16 advertised.val.length).val ++
        advertised.val.flatMap pushStr)
  | .block record => tagBlock :: encodeRecord record
  | .tx transaction =>
      let payload := encodeBlockPayload [transaction]
      tagTx :: (toLeBytes 4 (Word.cast 32 payload.length).val ++ payload)

/-- `read_str`. -/
def readStr : NetReader String := do
  let n ← Reader.readWord NetReader.unexpectedEnd 2 16
  let bytes ← Reader.readSlice (.decode "string truncated") n.val
  Reader.lift (match ofUtf8? bytes with
    | none => .error (.decode "name not utf-8")
    | some s => .ok s)

/-- `remaining() < n` is an error. -/
def require (e : NetError) (n : Nat) : NetReader Unit := fun rest =>
  if rest.length < n then .error e else .ok ((), rest)

/-- The body of a hello. -/
def readHello : NetReader RelayMsg := do
  let sender ← readStr
  require (.decode "hello truncated") 2
  let n ← Reader.readWord NetReader.unexpectedEnd 2 16
  let advertised ← Reader.readMany readStr n.val
  let advertised ← Reader.toVec NetReader.unexpectedEnd advertised
  return .hello sender advertised

/-- The body of a transaction. -/
def decodeTx (rest : List U8) : Except NetError RelayMsg :=
  if rest.length < 4 then .error (.decode "tx truncated")
  else
    let n : U32 := Word.cast 32 (ofLeBytes (rest.take 4))
    if rest.length ≠ 4 + n.val then .error (.decode "tx length mismatch")
    else
      match decodeBlockPayload (rest.drop 4) with
      | .error e => .error (.decode e.display)
      | .ok [tx] => .ok (.tx tx)
      | .ok _ => .error (.decode "tx frame must hold one transaction")

/-- `decode_msg(bytes)`: the first byte is the kind, and the rest has to be one body of that
kind. -/
def decodeMsg : List U8 → Except NetError RelayMsg
  | [] => .error (.decode "empty frame")
  | tag :: rest =>
      if tag = tagHello then Reader.decodeAll (.decode "hello trailing bytes") readHello rest
      else if tag = tagBlock then (decodeOneRecord rest).map .block
      else if tag = tagTx then decodeTx rest
      else .error (.decode s!"unknown tag {tag.val}")

/-- `send(msg)`, onto the bytes written before.  The length in front is narrowed to 32 bits, and
nothing is refused. -/
def send (stream : List U8) (msg : RelayMsg) : List U8 := stream ++ frame encodeMsg msg

/-- `recv()`, from the bytes not read yet.  A frame over the limit is refused before its body is
read. -/
def recv : NetReader RelayMsg :=
  Reader.readFrame (.io "failed to fill whole buffer") (.decode "frame too large") maxFrame
    decodeMsg

/-! ## What fits -/

end Relay

/-- The bytes of a transaction. -/
def Transaction.size (tx : Transaction) : Nat :=
  24 + 100 * tx.inputs.length + 40 * tx.outputs.length + tx.tag.length

/-- The bytes of a payload. -/
def payloadSize (txs : List Transaction) : Nat := 8 + (txs.map Transaction.size).sum

namespace RelayMsg

/-- The bytes of a message. -/
def size : RelayMsg → Nat
  | hello sender advertised =>
      5 + (utf8 sender).length + (advertised.val.map fun name => 2 + (utf8 name).length).sum
  | block record => 49 + 32 * record.parents.val.length + payloadSize record.txs.val
  | tx transaction => 5 + payloadSize [transaction]

/-- The names in a message, and their number, fit the fields they are written to.  The sender does
not check it: a length that does not fit is narrowed, and the bytes follow in full. -/
def Narrow : RelayMsg → Prop
  | hello sender advertised => (utf8 sender).length < 2 ^ 16 ∧ advertised.val.length < 2 ^ 16 ∧
      ∀ name ∈ advertised.val, (utf8 name).length < 2 ^ 16
  | block _ => True
  | tx _ => True

end RelayMsg

theorem Transaction.length_encode (tx : Transaction) : tx.encode.length = tx.size := by
  have hin : ∀ input ∈ tx.inputs, (Transaction.encodeInput true input).length = 100 := by
    intro input _
    simp only [Transaction.encodeInput, if_true, List.length_append, length_toLeBytes,
      input.outpoint.tx.bytes.property, input.signature.property]
  have hout : ∀ output ∈ tx.outputs, (Transaction.encodeOutput output).length = 40 := by
    intro output _
    simp only [Transaction.encodeOutput, List.length_append, length_toLeBytes,
      output.owner.bytes.property]
  simp only [Transaction.encode, Transaction.encodeInto, List.length_append, length_toLeBytes,
    List.length_flatMap, List.map_congr_left hin, List.map_congr_left hout, List.map_const',
    List.sum_replicate, Nat.nsmul_eq_mul, size]
  omega

theorem length_encodeBlockPayload (txs : List Transaction) :
    (encodeBlockPayload txs).length = payloadSize txs := by
  rw [encodeBlockPayload, List.length_append, length_toLeBytes, List.length_flatMap, payloadSize,
    List.map_congr_left fun tx _ => Transaction.length_encode tx]

namespace Relay

open Reader

theorem length_pushStr (s : String) : (pushStr s).length = 2 + (utf8 s).length := by
  rw [pushStr, List.length_append, length_toLeBytes]

theorem length_encodeMsg (msg : RelayMsg) : (encodeMsg msg).length = msg.size := by
  cases msg with
  | hello sender advertised =>
      simp only [encodeMsg, List.length_cons, List.length_append, length_toLeBytes, length_pushStr,
        List.length_flatMap, RelayMsg.size]
      omega
  | block record =>
      have hid : ∀ p ∈ record.parents.val, p.bytes.val.length = 32 := fun p _ => p.bytes.property
      simp only [encodeMsg, encodeRecord, List.length_cons, List.length_append, length_toLeBytes,
        List.length_flatMap, List.map_congr_left hid, List.map_const', List.sum_replicate,
        Nat.nsmul_eq_mul, length_encodeBlockPayload, RelayMsg.size]
      omega
  | tx transaction =>
      simp only [encodeMsg, List.length_cons, List.length_append, length_toLeBytes,
        length_encodeBlockPayload, RelayMsg.size]
      omega

/-! ## The codec on messages that fit -/

theorem reads_readStr {s : String} (hs : (utf8 s).length < 2 ^ 16) :
    Reads readStr (pushStr s) s := by
  have hcast : (Word.cast 16 (utf8 s).length).val = (utf8 s).length := Word.cast_of_lt hs
  have hword := reads_readWord NetReader.unexpectedEnd (n := 2) (by decide)
    (Word.cast 16 (utf8 s).length)
  rw [pushStr]
  apply hword.bind
  rw [hcast]
  have hslice := reads_readSlice (NetError.decode "string truncated") (utf8 s)
  apply hslice.bind_nil
  apply reads_lift
  rw [ofUtf8?_eq_some.2 rfl]

theorem readStr_eq_ok {bytes rest : List U8} {s : String} (h : readStr bytes = .ok (s, rest)) :
    bytes = pushStr s ++ rest ∧ (utf8 s).length < 2 ^ 16 := by
  obtain ⟨n, mid, hn, h⟩ := bind_eq_ok.1 h
  obtain ⟨slice, mid', hslice, h⟩ := bind_eq_ok.1 h
  obtain ⟨hs, rfl⟩ := lift_eq_ok.1 h
  have hbytes := canonical_readWord _ (by decide) _ _ _ hn
  obtain ⟨hlen, rfl⟩ := readSlice_eq_ok hslice
  cases hutf : ofUtf8? slice with
  | none =>
      rw [hutf] at hs
      cases hs
  | some s' =>
      rw [hutf] at hs
      obtain rfl := Except.ok.inj hs
      have hutf8 := ofUtf8?_eq_some.1 hutf
      have hcast : Word.cast 16 n.val = n := Fin.ext (Word.cast_of_lt n.isLt)
      rw [hbytes, pushStr, hutf8, hlen, hcast, List.append_assoc]
      exact ⟨rfl, n.isLt⟩

theorem readStrs_eq_ok {n : Nat} {bytes rest : List U8} {names : List String}
    (h : readMany readStr n bytes = .ok (names, rest)) :
    names.length = n ∧ bytes = names.flatMap pushStr ++ rest ∧
      ∀ name ∈ names, (utf8 name).length < 2 ^ 16 := by
  have hcanonical : Canonical readStr pushStr := fun _ _ _ h => (readStr_eq_ok h).1
  obtain ⟨hlen, hbytes⟩ := readMany_eq_ok hcanonical h
  refine ⟨hlen, hbytes, ?_⟩
  clear hlen hbytes
  induction n generalizing bytes names with
  | zero =>
      obtain ⟨rfl, rfl⟩ := pure_eq_ok.1 h
      exact fun _ h => absurd h List.not_mem_nil
  | succ n ih =>
      obtain ⟨name, mid, hname, h⟩ := bind_eq_ok.1 h
      obtain ⟨names', mid', hnames, h⟩ := bind_eq_ok.1 h
      obtain ⟨rfl, rfl⟩ := pure_eq_ok.1 h
      exact List.forall_mem_cons.2 ⟨(readStr_eq_ok hname).2, ih hnames⟩

theorem reads_readHello {sender : String} {advertised : Vec String}
    (h : (RelayMsg.hello sender advertised).Narrow) :
    Reads readHello (pushStr sender ++ toLeBytes 2 (Word.cast 16 advertised.val.length).val ++
      advertised.val.flatMap pushStr) (.hello sender advertised) := by
  obtain ⟨hsender, hcount, hnames⟩ := h
  have hcast : (Word.cast 16 advertised.val.length).val = advertised.val.length :=
    Word.cast_of_lt hcount
  have hword := reads_readWord NetReader.unexpectedEnd (n := 2) (by decide)
    (Word.cast 16 advertised.val.length)
  have hmany := reads_readMany (l := advertised.val) fun name hname =>
    reads_readStr (hnames name hname)
  have hvec := reads_toVec NetReader.unexpectedEnd advertised
  rw [List.append_assoc]
  apply (reads_readStr hsender).bind
  intro rest
  have hroom : ¬ (toLeBytes 2 (Word.cast 16 advertised.val.length).val ++
      advertised.val.flatMap pushStr ++ rest).length < 2 := by
    simp only [List.length_append, length_toLeBytes]
    omega
  have hrequire : require (.decode "hello truncated") 2
      (toLeBytes 2 (Word.cast 16 advertised.val.length).val ++ advertised.val.flatMap pushStr ++
        rest) = .ok ((), _) := if_neg hroom
  rw [bind_ok hrequire]
  have hbody : Reads (readWord NetReader.unexpectedEnd 2 16 >>= fun n =>
      readMany readStr n.val >>= fun names => toVec NetReader.unexpectedEnd names >>= fun names =>
        Pure.pure (RelayMsg.hello sender names))
      (toLeBytes 2 (Word.cast 16 advertised.val.length).val ++ advertised.val.flatMap pushStr)
      (.hello sender advertised) := by
    apply hword.bind
    rw [hcast]
    exact hmany.bind_nil (hvec.map _)
  exact hbody rest

theorem canonical_readHello {bytes rest : List U8} {msg : RelayMsg}
    (h : readHello bytes = .ok (msg, rest)) :
    tagHello :: bytes = encodeMsg msg ++ rest ∧ msg.Narrow := by
  obtain ⟨sender, _, hsender, h⟩ := bind_eq_ok.1 h
  obtain ⟨_, mid, hrequire, h⟩ := bind_eq_ok.1 h
  obtain ⟨n, _, hn, h⟩ := bind_eq_ok.1 h
  obtain ⟨names, _, hnames, h⟩ := bind_eq_ok.1 h
  obtain ⟨advertised, _, hvec, h⟩ := bind_eq_ok.1 h
  obtain ⟨rfl, rfl⟩ := pure_eq_ok.1 h
  obtain ⟨rfl, rfl⟩ := toVec_eq_ok hvec
  obtain ⟨hbytes, hnarrow⟩ := readStr_eq_ok hsender
  obtain ⟨hlen, hmid, hnames⟩ := readStrs_eq_ok hnames
  have hword := canonical_readWord _ (by decide) _ _ _ hn
  have hcast : Word.cast 16 n.val = n := Fin.ext (Word.cast_of_lt n.isLt)
  unfold require at hrequire
  split at hrequire
  · cases hrequire
  obtain ⟨_, rfl⟩ := Prod.mk.inj (Except.ok.inj hrequire)
  refine ⟨?_, hnarrow, hlen ▸ n.isLt, hnames⟩
  rw [hbytes, hword, hmid, encodeMsg, hlen, hcast]
  simp

theorem decodeTx_eq_ok {rest : List U8} {msg : RelayMsg} (h : decodeTx rest = .ok msg) :
    tagTx :: rest = encodeMsg msg ∧ msg.Narrow := by
  unfold decodeTx at h
  split at h
  · cases h
  rename_i hlong
  dsimp only at h
  split at h
  · cases h
  rename_i hlen
  split at h
  · cases h
  · rename_i transaction hdecode
    obtain rfl := Except.ok.inj h
    refine ⟨?_, trivial⟩
    have hpayload := encode_of_decode hdecode
    have htake : (rest.take 4).length = 4 := by
      rw [List.length_take]
      omega
    have hlt := ofLeBytes_lt (rest.take 4)
    rw [htake] at hlt
    have hcast : (Word.cast 32 (ofLeBytes (rest.take 4)) : U32).val = ofLeBytes (rest.take 4) :=
      Word.cast_of_lt hlt
    have hdrop : (rest.drop 4).length = ofLeBytes (rest.take 4) := by
      rw [List.length_drop]
      omega
    have hdigits := toLeBytes_ofLeBytes (rest.take 4)
    rw [htake] at hdigits
    show _ = tagTx :: (toLeBytes 4 (Word.cast 32 (encodeBlockPayload [transaction]).length).val ++
      encodeBlockPayload [transaction])
    rw [hpayload, hdrop, hcast, hdigits, List.take_append_drop]
  · cases h

theorem decodeTx_encode {transaction : Transaction} (h : payloadSize [transaction] < 2 ^ 32) :
    decodeTx (toLeBytes 4 (Word.cast 32 (encodeBlockPayload [transaction]).length).val ++
      encodeBlockPayload [transaction]) = .ok (.tx transaction) := by
  have hlen := length_encodeBlockPayload [transaction]
  have hcast : (Word.cast 32 (encodeBlockPayload [transaction]).length : U32).val =
      (encodeBlockPayload [transaction]).length := Word.cast_of_lt (by omega)
  have hdigits := ofLeBytes_toLeBytes 4 (encodeBlockPayload [transaction]).length (by omega)
  have htake := length_toLeBytes 4 (encodeBlockPayload [transaction]).length
  have hdecode := decode_encode ⟨[transaction], by omega⟩
  rw [hcast, decodeTx, List.take_left' htake, List.drop_left' htake, hdigits, List.length_append,
    htake, if_neg (by omega)]
  dsimp only
  rw [hcast, if_neg (by omega), hdecode]

/-- What the receiver decodes is what the sender encoded, and nothing was narrowed. -/
theorem encode_of_decodeMsg {bytes : List U8} {msg : RelayMsg} (h : decodeMsg bytes = .ok msg) :
    encodeMsg msg = bytes ∧ msg.Narrow := by
  cases bytes with
  | nil => cases h
  | cons tag rest =>
      rw [decodeMsg] at h
      split at h
      · rename_i htag
        obtain ⟨hbytes, hnarrow⟩ := canonical_readHello (decodeAll_eq_ok.1 h)
        rw [htag, hbytes, List.append_nil]
        exact ⟨rfl, hnarrow⟩
      split at h
      · rename_i htag
        cases hrecord : decodeOneRecord rest with
        | error e =>
            rw [hrecord] at h
            cases h
        | ok record =>
            rw [hrecord] at h
            obtain rfl := Except.ok.inj h
            rw [htag, ← encode_of_decodeOneRecord hrecord]
            exact ⟨rfl, trivial⟩
      split at h
      · rename_i htag
        obtain ⟨hbytes, hnarrow⟩ := decodeTx_eq_ok h
        rw [htag]
        exact ⟨hbytes.symm, hnarrow⟩
      · cases h

theorem decode_encodeMsg {msg : RelayMsg} (h : msg.Narrow) (hsize : msg.size ≤ maxFrame) :
    decodeMsg (encodeMsg msg) = .ok msg := by
  cases msg with
  | hello sender advertised =>
      have hread := reads_readHello h []
      rw [List.append_nil] at hread
      rw [encodeMsg, decodeMsg, if_pos rfl]
      exact decodeAll_eq_ok.2 hread
  | block record =>
      rw [encodeMsg, decodeMsg, if_neg (by decide), if_pos rfl, decode_encodeRecord]
      rfl
  | tx transaction =>
      rw [RelayMsg.size, maxFrame] at hsize
      rw [encodeMsg, decodeMsg, if_neg (by decide), if_neg (by decide), if_pos rfl]
      exact decodeTx_encode (by omega)

/-! ## What comes through -/

/-- Everything that is sent, onto a new stream. -/
def sendAll (msgs : List RelayMsg) : List U8 := msgs.foldl send []

theorem sendAll_eq (msgs : List RelayMsg) : sendAll msgs = msgs.flatMap (frame encodeMsg) := by
  have hsend : ∀ stream, msgs.foldl send stream = stream ++ msgs.flatMap (frame encodeMsg) := by
    induction msgs with
    | nil => simp
    | cons msg msgs ih => simp [send, ih]
  exact hsend []

/-- As many calls of `recv` as messages were sent return these messages, in order.  The
receiver tells the messages apart by the lengths in front of them alone. -/
def Lossless (msgs : List RelayMsg) : Prop :=
  ∃ rest, Reader.readMany recv msgs.length (sendAll msgs) = .ok (msgs, rest)

/-- What is sent comes through exactly if no name and no list of names is longer than its
field can say and no message is longer than a frame may be. -/
theorem relay_lossless_iff (msgs : List RelayMsg) :
    Lossless msgs ↔ ∀ msg ∈ msgs, msg.Narrow ∧ msg.size ≤ maxFrame := by
  have hcap : maxFrame < 2 ^ 32 := by decide
  have hiff := received_iff (.io "failed to fill whole buffer") (.decode "frame too large") hcap
    (fun _ _ => encode_of_decodeMsg)
    (fun msg hnarrow hlen => decode_encodeMsg hnarrow (length_encodeMsg msg ▸ hlen)) msgs []
  simp only [length_encodeMsg, List.append_nil] at hiff
  rw [Lossless, sendAll_eq]
  exact hiff

/-- A hello that advertises 65536 peers is written with a count of none, and refused. -/
theorem relay_loses_hello : ¬ Lossless [.hello ""
    ⟨List.replicate (2 ^ 16) "", by rw [List.length_replicate]; decide⟩] := by
  rintro ⟨rest, h⟩
  rw [sendAll_eq, List.flatMap_singleton, ← List.append_nil (frame _ _)] at h
  obtain ⟨msg, _, hrecv, h⟩ := bind_eq_ok.1 h
  obtain ⟨msgs, _, _, h⟩ := bind_eq_ok.1 h
  obtain ⟨heq, _⟩ := pure_eq_ok.1 h
  obtain ⟨rfl, _⟩ := List.cons.inj heq
  have hnarrow := (good_of_readFrame (fun _ _ => encode_of_decodeMsg) hrecv).1
  have hcount : (List.replicate (2 ^ 16) "").length < 2 ^ 16 := hnarrow.2.1
  rw [List.length_replicate] at hcount
  exact absurd hcount (lt_irrefl _)

end Relay

end Kovanica
