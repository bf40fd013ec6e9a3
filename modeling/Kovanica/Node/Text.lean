import Kovanica.Lib.Text
import Kovanica.Node.Reachable

/-!
# Ids, addresses and errors as text

Rendered bytes are read back, and no error a node answers with has a line break: its text
can stand on one line of a protocol.

## Main results

* `hexDecode_hexEncode`: rendered bytes are read back.
* `oneLine_dagError`: only a validator can put a line break into an error of the DAG.
* `oneLine_dagInsert`, `oneLine_ledgerInsert`: and the validator of a ledger does not.
-/

namespace Kovanica

open Lib

/-- `Address::to_hex()`, also its `Display`. -/
def Address.toHex (addr : Address) : String := hexEncode addr.bytes.val

/-! ## Rendered bytes -/

theorem hexValue_hexDigit : ∀ n < 16, hexValue (hexDigit n) = some n := by decide

theorem toList_hexEncode_cons (b : U8) (bytes : List U8) : (hexEncode (b :: bytes)).toList =
    hexDigit (b.val / 16) :: hexDigit (b.val % 16) :: (hexEncode bytes).toList := by
  simp [hexEncode]

/-- `hex::decode` reads back what `hex::encode` writes. -/
theorem hexDecode_hexEncode (bytes : List U8) : hexDecode (hexEncode bytes) = some bytes := by
  rw [hexDecode]
  induction bytes with
  | nil => rfl
  | cons b bytes ih =>
      have hb := b.isLt
      have hhigh := hexValue_hexDigit (b.val / 16) (by omega)
      have hlow := hexValue_hexDigit (b.val % 16) (by omega)
      have hbyte : Word.cast 8 (16 * (b.val / 16) + b.val % 16) = b := by
        rw [Nat.div_add_mod]
        exact Fin.ext (Word.cast_of_lt hb)
      rw [toList_hexEncode_cons, hexBytes, hhigh, hlow, ih]
      exact congrArg (fun byte => some (byte :: bytes)) hbyte

theorem mem_hexEncode {bytes : List U8} {c : Char} (hc : c ∈ (hexEncode bytes).toList) :
    ∃ n < 16, c = hexDigit n := by
  rw [hexEncode, String.toList_ofList, List.mem_flatMap] at hc
  obtain ⟨b, _, hc⟩ := hc
  have hb := b.isLt
  rcases List.mem_cons.1 hc with rfl | hc
  · exact ⟨_, by omega, rfl⟩
  · exact ⟨_, by omega, List.mem_singleton.1 hc⟩

theorem hexDigit_text : ∀ n < 16, isWhitespace (hexDigit n) = false ∧ (hexDigit n).utf8Size = 1 ∧
    hexDigit n ≠ '\n' := by
  decide

@[simp] theorem oneLine_hexEncode (bytes : List U8) : OneLine (hexEncode bytes) := by
  intro h
  obtain ⟨n, hn, heq⟩ := mem_hexEncode h
  exact (hexDigit_text n hn).2.2 heq.symm

@[simp] theorem oneLine_hexPrefix (bytes : List U8) : OneLine (hexPrefix bytes) := by
  have hdigits : hexPrefix bytes = hexEncode (bytes.take 4) ++ "…" := rfl
  rw [hdigits, oneLine_append]
  exact ⟨oneLine_hexEncode _, by decide⟩

theorem isWord_hexEncode {bytes : List U8} (h : bytes ≠ []) : IsWord (hexEncode bytes) := by
  refine ⟨fun heq => ?_, fun c hc => ?_⟩
  · cases bytes with
    | nil => exact h rfl
    | cons b bytes =>
        have hcons := toList_hexEncode_cons b bytes
        rw [heq] at hcons
        cases hcons
  · obtain ⟨n, hn, rfl⟩ := mem_hexEncode hc
    exact (hexDigit_text n hn).1

theorem utf8ByteSize_hexEncode (bytes : List U8) :
    (hexEncode bytes).utf8ByteSize = 2 * bytes.length := by
  rw [hexEncode, utf8ByteSize_ofList]
  induction bytes with
  | nil => rfl
  | cons b bytes ih =>
      have hb := b.isLt
      have hhigh := (hexDigit_text (b.val / 16) (by omega)).2.1
      have hlow := (hexDigit_text (b.val % 16) (by omega)).2.1
      simp only [List.flatMap_cons, List.cons_append, List.nil_append, List.map_cons,
        List.sum_cons, hhigh, hlow, ih, List.length_cons]
      omega

/-! ## Errors on one line -/

@[simp] theorem oneLine_blockId (id : BlockId) : OneLine id.display := oneLine_hexEncode _

@[simp] theorem oneLine_txId (id : TxId) : OneLine id.display := oneLine_hexEncode _

@[simp] theorem oneLine_address (addr : Address) : OneLine addr.toHex := oneLine_hexEncode _

@[simp] theorem oneLine_outPoint (op : OutPoint) : OneLine op.debug := by
  unfold OutPoint.debug
  simp

@[simp] theorem oneLine_decodeError (e : DecodeError) : OneLine e.display := by
  cases e <;> simp [DecodeError.display]

@[simp] theorem oneLine_ledgerError (e : LedgerError) : OneLine e.display := by
  unfold LedgerError.display
  cases e <;> simp

theorem oneLine_validationError (e : BlockValidationError) : OneLine e.display := by
  unfold BlockValidationError.display
  cases e <;> simp

/-- Only a validator can put a line break into an error of the DAG. -/
theorem oneLine_dagError {e : DagError} (h : ∀ id reason, e = .invalidBlock id reason →
    OneLine reason) : OneLine e.display := by
  unfold DagError.display
  cases e with
  | invalidBlock id reason =>
      have hreason := h id reason rfl
      simp [hreason]
  | _ => simp

theorem oneLine_insertError {e : LedgerInsertError} (h : ∀ d, e = .dag d → OneLine d.display) :
    OneLine e.display := by
  unfold LedgerInsertError.display
  cases e with
  | dag d =>
      have hd := h d rfl
      simp [hd]
  | _ => simp

theorem oneLine_snapshotError {e : SnapshotError} (h : ∀ d, e ≠ .rebuild d) :
    OneLine e.display := by
  unfold SnapshotError.display
  cases e with
  | rebuild d => exact absurd rfl (h d)
  | _ => simp

theorem oneLine_ledgerSnapshotError {e : LedgerSnapshotError}
    (hdag : ∀ d, e = .dag d → OneLine d.display)
    (hrebuild : ∀ d, e = .rebuild d → OneLine d.display) : OneLine e.display := by
  unfold LedgerSnapshotError.display
  cases e with
  | dag d =>
      have hd := hdag d rfl
      simp [hd]
  | rebuild d =>
      have hd := hrebuild d rfl
      simp [hd]
  | _ => simp

theorem oneLine_nodeError {e : NodeError} (h : ∀ d, e = .insert d → OneLine d.display) :
    OneLine e.display := by
  unfold NodeError.display
  cases e with
  | insert d => exact h d rfl
  | _ => simp

/-! ## Refusals of a ledger -/

section Ledgers

variable [Crypto] {ord : HashOrder} {l : Ledger}

theorem checkPolicy_ne_invalidBlock {d : Dag} {block : Block} {sp id : BlockId}
    {reason : String} : d.checkPolicy block sp ≠ .error (.invalidBlock id reason) := by
  intro h
  unfold Dag.checkPolicy at h
  dsimp only at h
  split at h
  · rename_i hdifficulty
    obtain rfl := Except.error.inj h
    split at hdifficulty
    · cases hdifficulty
    · unfold DagView.checkDifficulty at hdifficulty
      split at hdifficulty
      · cases hdifficulty
      · dsimp only at hdifficulty
        split at hdifficulty <;> cases hdifficulty
  · split at h <;> cases h

theorem checkStructure_ne_invalidBlock {d : DagView} {block : Block} {id : BlockId}
    {reason : String} : d.checkStructure block ≠ .error (.invalidBlock id reason) := by
  intro h
  unfold DagView.checkStructure at h
  split at h
  · cases h
  split at h
  · cases h
  · split at h <;> cases h

/-- The structural validator gives its reasons on one line. -/
theorem oneLine_runValidator {d : Dag} (hvalidator : d.validator = some txStructureValidator)
    {block : Block} {id : BlockId} {reason : String}
    (h : d.runValidator block = .error (.invalidBlock id reason)) : OneLine reason := by
  rw [Dag.runValidator, hvalidator] at h
  dsimp only [txStructureValidator] at h
  cases hpayload : validateBlockPayload block.payload.val with
  | ok _ =>
      rw [hpayload] at h
      cases h
  | error e =>
      rw [hpayload] at h
      obtain ⟨_, rfl⟩ := DagError.invalidBlock.inj (Except.error.inj h)
      exact oneLine_validationError e

/-- Every refusal of a block by the DAG of a ledger is one line. -/
theorem oneLine_dagInsert (hvalidator : l.dag.validator = some txStructureValidator)
    {block : Block} {e : DagError} (h : l.dag.insert ord block = .error (.error e)) :
    OneLine e.display := by
  apply oneLine_dagError
  rintro id reason rfl
  unfold Dag.insert at h
  split at h
  · rename_i hcheck
    obtain rfl := Fault.error.inj (Except.error.inj h)
    exact absurd hcheck checkStructure_ne_invalidBlock
  split at h
  · rename_i hrun
    obtain rfl := Fault.error.inj (Except.error.inj h)
    exact oneLine_runValidator hvalidator hrun
  split at h
  · cases h
  dsimp only at h
  split at h
  · rename_i hpolicy
    obtain rfl := Fault.error.inj (Except.error.inj h)
    exact absurd hpolicy checkPolicy_ne_invalidBlock
  · split at h <;> cases h

/-- Every refusal of a call of `insert` is one line. -/
theorem oneLine_ledgerInsert (hl : l.WellFormed) {parents : Vec BlockId} {work : U128}
    {timestampMs nonce : U64} {txs : TxList} {e : LedgerInsertError}
    (h : l.insert ord parents work timestampMs nonce txs = .error (.error e)) :
    OneLine e.display := by
  apply oneLine_insertError
  rintro d rfl
  unfold Ledger.insert at h
  dsimp only at h
  split at h
  · rename_i hpreview
    obtain rfl := LedgerInsertError.dag.inj (Fault.error.inj (Except.error.inj h))
    unfold DagView.preview at hpreview
    split at hpreview
    · rename_i hcheck
      obtain rfl := Except.error.inj hpreview
      refine oneLine_dagError fun id reason heq => ?_
      exact absurd (heq ▸ hcheck) checkStructure_ne_invalidBlock
    · cases hpreview
  split at h
  · cases h
  split at h
  · cases h
  split at h
  · cases h
  split at h
  · rename_i hinsert
    obtain rfl := LedgerInsertError.dag.inj (Fault.error.inj (Except.error.inj h))
    exact oneLine_dagInsert hl.validator hinsert
  · cases h
  · cases h

/-! ## Refusals of a stored ledger -/

/-- An error of decoding, before any block is inserted again. -/
def SnapshotError.Decoding (e : SnapshotError) : Prop := ∀ d, e ≠ .rebuild d

omit [Crypto] in
/-- Decoding alone does not rebuild anything. -/
theorem decodeSnapshot_ne_rebuild {bytes : List U8} {e : SnapshotError}
    (h : decodeSnapshot bytes = .error e) : e.Decoding := by
  have heof : SnapshotError.Decoding .unexpectedEof := fun _ h => by cases h
  have harray : ∀ n, Reader.FailsWith SnapshotError.Decoding (Reader.readArray .unexpectedEof n) :=
    fun n => Reader.FailsWith.readArray heof n
  have hword : ∀ n w,
      Reader.FailsWith SnapshotError.Decoding (Reader.readWord .unexpectedEof n w) :=
    fun n w => Reader.FailsWith.readWord heof n w
  have hcount : ∀ min,
      Reader.FailsWith SnapshotError.Decoding (Reader.readCount .unexpectedEof min) :=
    fun min => Reader.FailsWith.readCount heof min
  have hid : Reader.FailsWith SnapshotError.Decoding SnapshotReader.readBlockId :=
    (harray 32).bind fun _ => .pure _
  have hblock : Reader.FailsWith SnapshotError.Decoding SnapshotReader.readBlock := by
    apply ((hcount 32).bind fun n => hid.readMany n).bind
    intro parents
    apply (Reader.FailsWith.toVec heof parents).bind fun _ => ?_
    apply (hword 16 128).bind fun _ => ?_
    apply (hword 8 64).bind fun _ => ?_
    apply (hword 8 64).bind fun _ => ?_
    apply ((hcount 1).bind fun n => Reader.FailsWith.readSlice heof n).bind fun payload => ?_
    exact (Reader.FailsWith.toVec heof payload).bind fun _ => .pure _
  have hframing : Reader.FailsWith SnapshotError.Decoding SnapshotReader.readFraming := by
    apply (harray 4).bind
    intro magic
    split
    · exact .fail fun _ h => by cases h
    apply (hword 2 16).bind
    intro version
    split
    · exact .fail fun _ h => by cases h
    apply (hword 2 16).bind
    intro k
    exact ((hcount 48).bind fun n => hblock.readMany n).bind fun _ => .pure _
  unfold decodeSnapshot at h
  split at h
  · rename_i hread
    obtain rfl := Except.error.inj h
    exact hframing _ _ hread
  · split at h
    · cases h
    · obtain rfl := Except.error.inj h
      exact fun _ h => by cases h

theorem oneLine_restoreBlocks (hl : l.Plain) {blocks : List Block} {e : LedgerSnapshotError}
    (h : Ledger.restoreBlocks ord l blocks = .error (.error e)) : OneLine e.display := by
  induction blocks generalizing l with
  | nil => cases h
  | cons block rest ih =>
      rw [Ledger.restoreBlocks] at h
      split at h
      · rename_i hblock
        obtain rfl := Except.error.inj h
        unfold Ledger.restoreBlock at hblock
        split at hblock
        · obtain rfl := Fault.error.inj (Except.error.inj hblock)
          exact oneLine_ledgerSnapshotError (fun _ h => by cases h) (fun _ h => by cases h)
        split at hblock
        · rename_i hinsert
          obtain rfl := Fault.error.inj (Except.error.inj hblock)
          refine oneLine_ledgerSnapshotError (fun _ h => by cases h) fun d heq => ?_
          obtain rfl := LedgerSnapshotError.rebuild.inj heq
          exact oneLine_ledgerInsert hl.unbounded.reachable.wellFormed hinsert
        · cases hblock
        · cases hblock
      · rename_i l' hblock
        exact ih (hl.restoreBlock hblock) h

theorem oneLine_readSnapshot {bytes : List U8} {e : LedgerSnapshotError}
    (h : Ledger.readSnapshot ord bytes = .error (.error e)) : OneLine e.display := by
  have hplain : ∀ {e : LedgerSnapshotError}, (∀ d, e ≠ .dag d) → (∀ d, e ≠ .rebuild d) →
      OneLine e.display := fun hdag hrebuild =>
    oneLine_ledgerSnapshotError (fun d h => absurd h (hdag d)) (fun d h => absurd h (hrebuild d))
  unfold Ledger.readSnapshot at h
  split at h
  · obtain rfl := Fault.error.inj (Except.error.inj h)
    exact hplain (fun _ h => by cases h) (fun _ h => by cases h)
  split at h
  · obtain rfl := Fault.error.inj (Except.error.inj h)
    refine oneLine_ledgerSnapshotError (fun d heq => ?_) (fun _ h => by cases h)
    obtain rfl := LedgerSnapshotError.dag.inj heq
    exact oneLine_snapshotError fun _ h => by cases h
  dsimp only at h
  split at h
  · obtain rfl := Fault.error.inj (Except.error.inj h)
    exact hplain (fun _ h => by cases h) (fun _ h => by cases h)
  split at h
  · rename_i hdecode
    obtain rfl := Fault.error.inj (Except.error.inj h)
    refine oneLine_ledgerSnapshotError (fun d heq => ?_) (fun _ h => by cases h)
    obtain rfl := LedgerSnapshotError.dag.inj heq
    exact oneLine_snapshotError (decodeSnapshot_ne_rebuild hdecode)
  split at h
  · obtain rfl := Fault.error.inj (Except.error.inj h)
    exact hplain (fun _ h => by cases h) (fun _ h => by cases h)
  split at h
  · rename_i hgenesis
    obtain rfl := Except.error.inj h
    unfold Ledger.restoreGenesis at hgenesis
    split at hgenesis
    · obtain rfl := Fault.error.inj (Except.error.inj hgenesis)
      exact hplain (fun _ h => by cases h) (fun _ h => by cases h)
    split at hgenesis
    · obtain rfl := Fault.error.inj (Except.error.inj hgenesis)
      exact hplain (fun _ h => by cases h) (fun _ h => by cases h)
    · cases hgenesis
  · rename_i hgenesis
    exact oneLine_restoreBlocks (Ledger.Plain.of_restoreGenesis hgenesis) h

end Ledgers

end Kovanica
