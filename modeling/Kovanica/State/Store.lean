import Kovanica.Lib.File
import Kovanica.State.Restore

/-!
# The append-only log

A log is a header and one length-prefixed record for each block: those the
ledger held when the log was created, in linearized order, then those appended.
Opening a log replays its records and leaves the cursor at the end, so that a
log can be appended to over any number of sessions.

## Main results

* `readRecord_of_unread`, `readRecord_of_atEnd`, `readRecord_of_short`: a record by what is left
  of the file.
* `replayRecords_ok`, `openLog_ok`: opening a whole log.
* `LogOf.append`, `LogOf.insert`, `LogOf.open_ok`: what keeps a file the log of its ledger.
-/

namespace Kovanica

open Lib

/-- Why a log could not be created, opened or appended to. -/
inductive StoreError where
  | io (e : String)
  | badMagic
  | unsupportedVersion (version : U16)
  | truncated
  | block (e : SnapshotError)
  | replay (e : LedgerSnapshotError)

namespace StoreError

def display : StoreError → String
  | io e => s!"io: {e}"
  | badMagic => "not a kovanica ledger log"
  | unsupportedVersion version => s!"unsupported log version {version.val}"
  | truncated => "truncated ledger log"
  | block e => s!"block: {e.display}"
  | replay e => s!"replay: {e.display}"

end StoreError

/-- An open log: the file, with its cursor where the next record will be written.  The ledger it
follows is not part of it. -/
structure LedgerStore where
  file : File

namespace LedgerStore

/-- The magic prefix, `"KVLF"`. -/
def magic : Bytes 4 := ⟨[75, 86, 76, 70], rfl⟩

def version : U16 := 1

/-- `MAX_RECORD`: 16 MiB. -/
def maxRecord : Nat := 16 * 1024 * 1024

/-- `write_record(file, block)`: the length in eight bytes and then the encoding.  The two are
written one after the other, so a crash can come between them. -/
def writeRecord (file : File) (block : Block) : Except StoreError File :=
  let body := encodeBlock block
  if maxRecord < body.length then .error (.io "record too large")
  else .ok ((file.writeAll (toLeBytes 8 body.length)).writeAll body)

def writeRecords (file : File) : List Block → Except StoreError File
  | [] => .ok file
  | block :: rest =>
      match writeRecord file block with
      | .error e => .error e
      | .ok file => writeRecords file rest

/-- `create(path, ledger)`, on a file that is replaced: the header, and a record for every block
the ledger has, in linearized order. -/
def create (ord : HashOrder) (l : Ledger) : Except StoreError LedgerStore :=
  let file := ((((File.empty.writeAll magic.val).writeAll (toLeBytes 2 version.val)).writeAll
    (toLeBytes 8 l.subsidy.val)).writeAll (toLeBytes 2 l.dag.k.val))
  match writeRecords file (l.dag.orderedBlocks ord) with
  | .error e => .error e
  | .ok file => .ok ⟨file⟩

/-- `append(block)`: a record at the cursor.  Nothing checks that the ledger has accepted the
block. -/
def append (store : LedgerStore) (block : Block) : Except StoreError LedgerStore :=
  match writeRecord store.file block with
  | .error e => .error e
  | .ok file => .ok ⟨file⟩

/-- A field of the header. -/
def readHeader (file : File) (n : Nat) : Except StoreError (List U8 × File) :=
  match file.readExact n with
  | (some bytes, file) => .ok (bytes, file)
  | (none, _) => .error .truncated

/-- `read_record(file)`: no record where the length itself is cut short.  Such a cut reads
as the end of the log, one inside the block as a log that is truncated. -/
def readRecord (file : File) : Except StoreError (Option Block × File) :=
  match file.readExact 8 with
  | (none, file) => .ok (none, file)
  | (some bytes, file) =>
      let len := ofLeBytes bytes
      if len = 0 ∨ maxRecord < len then .error .truncated
      else
        match file.readExact len with
        | (none, _) => .error .truncated
        | (some body, file) =>
            match decodeBlock body with
            | .error e => .error (.block e)
            | .ok block => .ok (some block, file)

/-- The errors of a replay, as those of the store. -/
def liftReplay {α : Type} : Outcome LedgerSnapshotError α → Outcome StoreError α
  | .ok a => .ok a
  | .error (.error e) => .error (.error (.replay e))
  | .error (.panic site) => .error (.panic site)

theorem liftReplay_eq_ok {α : Type} {x : Outcome LedgerSnapshotError α} {a : α} :
    liftReplay x = .ok a ↔ x = .ok a := by
  cases x with
  | error e => cases e <;> simp [liftReplay]
  | ok b => simp [liftReplay]

/-- The loop of `open`.  A record takes at least eight bytes, so there are fewer
rounds than bytes. -/
def replayRecords [Crypto] (ord : HashOrder) :
    (fuel : Nat) → File → Ledger → Outcome StoreError (LedgerStore × Ledger)
  | 0, _, _ => .error (.error .truncated)
  | fuel + 1, file, l =>
      match readRecord file with
      | .error e => .error (.error e)
      | .ok (none, file) => .ok (⟨file⟩, l)
      | .ok (some block, file) =>
          match liftReplay (l.restoreBlock ord block) with
          | .error e => .error e
          | .ok l => replayRecords ord fuel file l

/-- The header of a log: `subsidy` and `k`, and the file behind it. -/
def readHeaders (file : File) : Except StoreError (U64 × KParam × File) := do
  let (bytes, file) ← readHeader file 4
  if bytes ≠ magic.val then throw .badMagic
  let (bytes, file) ← readHeader file 2
  let version' : U16 := Word.cast 16 (ofLeBytes bytes)
  if version' ≠ version then throw (.unsupportedVersion version')
  let (subsidy, file) ← readHeader file 8
  let (k, file) ← readHeader file 2
  return (Word.cast 64 (ofLeBytes subsidy), Word.cast 16 (ofLeBytes k), file)

/-- `open(path)`, on the bytes of the file: the header, the genesis record, and then the records
one by one until none is left. -/
def openLog [Crypto] (ord : HashOrder) (bytes : List U8) :
    Outcome StoreError (LedgerStore × Ledger) :=
  match readHeaders (File.ofBytes bytes) with
  | .error e => .error (.error e)
  | .ok (subsidy, k, file) =>
      match readRecord file with
      | .error e => .error (.error e)
      | .ok (none, _) => .error (.error .truncated)
      | .ok (some genesis, file) =>
          match liftReplay (Ledger.restoreGenesis ord k subsidy genesis) with
          | .error e => .error e
          | .ok l => replayRecords ord bytes.length file l

/-! ## What a log holds -/

/-- One record: the length of the block's encoding, and the encoding. -/
def record (block : Block) : List U8 :=
  toLeBytes 8 (encodeBlock block).length ++ encodeBlock block

def header (subsidy : U64) (k : KParam) : List U8 :=
  magic.val ++ toLeBytes 2 version.val ++ toLeBytes 8 subsidy.val ++ toLeBytes 2 k.val

/-- The block is small enough for a record. -/
def Fits (block : Block) : Prop := (encodeBlock block).length ≤ maxRecord

theorem writeRecord_eq_ok {file file' : File} {block : Block} (hend : file.AtEnd)
    (h : writeRecord file block = .ok file') :
    Fits block ∧ file'.bytes = file.bytes ++ record block ∧ file'.AtEnd := by
  simp only [writeRecord] at h
  split at h
  · cases h
  · rename_i hfits
    obtain ⟨hbytes, hend'⟩ := hend.writeAll (toLeBytes 8 (encodeBlock block).length)
    obtain ⟨hbytes', hend''⟩ := hend'.writeAll (encodeBlock block)
    rw [← Except.ok.inj h]
    refine ⟨not_lt.1 hfits, ?_, hend''⟩
    rw [hbytes', hbytes, record, List.append_assoc]

theorem writeRecords_eq_ok {file file' : File} {blocks : List Block} (hend : file.AtEnd)
    (h : writeRecords file blocks = .ok file') :
    (∀ b ∈ blocks, Fits b) ∧ file'.bytes = file.bytes ++ blocks.flatMap record ∧
      file'.AtEnd := by
  induction blocks generalizing file with
  | nil =>
      rw [← Except.ok.inj h]
      simp [hend]
  | cons block rest ih =>
      unfold writeRecords at h
      split at h
      · cases h
      · rename_i file₁ hfirst
        obtain ⟨hfits, hbytes, hend₁⟩ := writeRecord_eq_ok hend hfirst
        obtain ⟨hrest, hbytes', hend'⟩ := ih hend₁ h
        refine ⟨List.forall_mem_cons.2 ⟨hfits, hrest⟩, ?_, hend'⟩
        rw [hbytes', hbytes, List.flatMap_cons, List.append_assoc]

theorem create_eq_ok {ord : HashOrder} {l : Ledger} {store : LedgerStore}
    (h : create ord l = .ok store) :
    (∀ b ∈ l.dag.orderedBlocks ord, Fits b) ∧
      store.file.bytes = header l.subsidy l.dag.k ++ (l.dag.orderedBlocks ord).flatMap record ∧
      store.file.AtEnd := by
  obtain ⟨hmagic, hend₁⟩ := File.atEnd_empty.writeAll magic.val
  obtain ⟨hversion, hend₂⟩ := hend₁.writeAll (toLeBytes 2 version.val)
  obtain ⟨hsubsidy, hend₃⟩ := hend₂.writeAll (toLeBytes 8 l.subsidy.val)
  obtain ⟨hk, hend₄⟩ := hend₃.writeAll (toLeBytes 2 l.dag.k.val)
  simp only [create] at h
  split at h
  · cases h
  · rename_i file hwrite
    obtain ⟨hfits, hbytes, hend⟩ := writeRecords_eq_ok hend₄ hwrite
    rw [← Except.ok.inj h]
    refine ⟨hfits, ?_, hend⟩
    show file.bytes = _
    rw [hbytes, hk, hsubsidy, hversion, hmagic]
    rfl

/-! ## Reading records back -/

/-- A record in front of the cursor is read. -/
theorem readRecord_of_unread {file : File} {block : Block} {rest : List U8} (hfits : Fits block)
    (h : file.unread = record block ++ rest) :
    ∃ file', readRecord file = .ok (some block, file') ∧ file'.unread = rest ∧
      file'.bytes = file.bytes := by
  have hlen : (toLeBytes 8 (encodeBlock block).length).length = 8 := length_toLeBytes _ _
  rw [record, List.append_assoc] at h
  obtain ⟨file₁, hread₁, hunread₁, hbytes₁⟩ := File.readExact_of_unread h
  obtain ⟨file₂, hread₂, hunread₂, hbytes₂⟩ := File.readExact_of_unread hunread₁
  rw [hlen] at hread₁
  have hmin := SnapshotReader.length_encodeBlock_ge block
  have hmax : (encodeBlock block).length ≤ 16 * 1024 * 1024 := hfits
  have hvalue : ofLeBytes (toLeBytes 8 (encodeBlock block).length) = (encodeBlock block).length := by
    apply ofLeBytes_toLeBytes
    omega
  have hok : ¬ ((encodeBlock block).length = 0 ∨ maxRecord < (encodeBlock block).length) := by
    unfold maxRecord
    omega
  refine ⟨file₂, ?_, hunread₂, hbytes₂.trans hbytes₁⟩
  simp only [readRecord, hread₁, hvalue, if_neg hok, hread₂, decode_encodeBlock]

/-- At the end of the log there is no record. -/
theorem readRecord_of_atEnd {file : File} (h : file.unread = []) :
    ∃ file', readRecord file = .ok (none, file') ∧ file'.AtEnd ∧ file'.bytes = file.bytes := by
  obtain ⟨file', hread, hend, hbytes⟩ := File.readExact_of_atEnd h (n := 8) (by omega)
  exact ⟨file', by simp only [readRecord, hread], hend, hbytes⟩

theorem length_record_ge (block : Block) : 8 ≤ (record block).length := by
  rw [record, List.length_append, length_toLeBytes]
  omega

/-- Where fewer bytes are left than a length takes there is no record either. -/
theorem readRecord_of_short {file : File} (h : file.unread.length < 8) :
    ∃ file', readRecord file = .ok (none, file') ∧ file'.AtEnd ∧ file'.bytes = file.bytes := by
  obtain ⟨file', hread, hend, hbytes⟩ := File.readExact_of_short h
  exact ⟨file', by simp only [readRecord, hread], hend, hbytes⟩

/-- Records that are accepted are replayed one after the other. -/
theorem replayRecords_of_ok [Crypto] {ord : HashOrder} {file : File} {l m : Ledger}
    {blocks : List Block} {tail : List U8} (fuel : Nat) (hfits : ∀ b ∈ blocks, Fits b)
    (hunread : file.unread = blocks.flatMap record ++ tail)
    (hrestore : l.restoreBlocks ord blocks = .ok m) :
    ∃ file', file'.unread = tail ∧ file'.bytes = file.bytes ∧
      replayRecords ord (blocks.length + fuel) file l = replayRecords ord fuel file' m := by
  induction blocks generalizing file l with
  | nil =>
      rw [← Except.ok.inj hrestore, List.length_nil, Nat.zero_add]
      exact ⟨file, hunread, rfl, rfl⟩
  | cons block rest ih =>
      rw [List.forall_mem_cons] at hfits
      rw [List.flatMap_cons, List.append_assoc] at hunread
      obtain ⟨file₁, hread, hunread₁, hbytes₁⟩ := readRecord_of_unread hfits.1 hunread
      unfold Ledger.restoreBlocks at hrestore
      split at hrestore
      · cases hrestore
      · rename_i l₁ hblock
        obtain ⟨file', htail, hbytes, hreplay⟩ := ih hfits.2 hunread₁ hrestore
        refine ⟨file', htail, hbytes.trans hbytes₁, ?_⟩
        rw [List.length_cons, Nat.add_right_comm]
        simp only [replayRecords, hread, hblock, liftReplay]
        exact hreplay

/-- The records are replayed one after the other, and the cursor stops at the end. -/
theorem replayRecords_ok [Crypto] {ord : HashOrder} {file : File} {l m : Ledger}
    {blocks : List Block} {fuel : Nat} (hfits : ∀ b ∈ blocks, Fits b)
    (hunread : file.unread = blocks.flatMap record) (hfuel : blocks.length < fuel)
    (hrestore : l.restoreBlocks ord blocks = .ok m) :
    ∃ file', replayRecords ord fuel file l = .ok (⟨file'⟩, m) ∧ file'.AtEnd ∧
      file'.bytes = file.bytes := by
  obtain ⟨left, rfl⟩ := Nat.exists_eq_add_of_lt hfuel
  rw [← List.append_nil (blocks.flatMap record)] at hunread
  obtain ⟨file₁, hempty, hbytes₁, hreplay⟩ :=
    replayRecords_of_ok (left + 1) hfits hunread hrestore
  obtain ⟨file', hread, hend, hbytes⟩ := readRecord_of_atEnd hempty
  refine ⟨file', ?_, hend, hbytes.trans hbytes₁⟩
  rw [Nat.add_assoc, hreplay]
  simp only [replayRecords, hread]

/-- A field of the header in front of the cursor is read. -/
theorem readHeader_of_unread {file : File} {data rest : List U8} {n : Nat}
    (hn : data.length = n) (h : file.unread = data ++ rest) :
    ∃ file', readHeader file n = .ok (data, file') ∧ file'.unread = rest ∧
      file'.bytes = file.bytes := by
  obtain ⟨file', hread, hunread, hbytes⟩ := File.readExact_of_unread h
  rw [hn] at hread
  exact ⟨file', by simp only [readHeader, hread], hunread, hbytes⟩

/-- The header of a log is read back. -/
theorem readHeaders_of_unread {file : File} {subsidy : U64} {k : KParam} {rest : List U8}
    (h : file.unread = header subsidy k ++ rest) :
    ∃ file', readHeaders file = .ok (subsidy, k, file') ∧ file'.unread = rest ∧
      file'.bytes = file.bytes := by
  simp only [header, List.append_assoc] at h
  obtain ⟨file₁, hmagic, h₁, hbytes₁⟩ := readHeader_of_unread (n := 4) rfl h
  obtain ⟨file₂, hversion, h₂, hbytes₂⟩ := readHeader_of_unread (length_toLeBytes 2 _) h₁
  obtain ⟨file₃, hsubsidy, h₃, hbytes₃⟩ := readHeader_of_unread (length_toLeBytes 8 _) h₂
  obtain ⟨file₄, hk, h₄, hbytes₄⟩ := readHeader_of_unread (length_toLeBytes 2 _) h₃
  have hsub : (Word.cast 64 (ofLeBytes (toLeBytes 8 subsidy.val)) : U64) = subsidy := by
    rw [ofLeBytes_toLeBytes 8 subsidy.val subsidy.isLt]
    exact Fin.ext (Word.cast_of_lt subsidy.isLt)
  have hkval : (Word.cast 16 (ofLeBytes (toLeBytes 2 k.val)) : U16) = k := by
    rw [ofLeBytes_toLeBytes 2 k.val k.isLt]
    exact Fin.ext (Word.cast_of_lt k.isLt)
  have hver : (Word.cast 16 (ofLeBytes (toLeBytes 2 version.val)) : U16) = version := by decide
  refine ⟨file₄, ?_, h₄, ((hbytes₄.trans hbytes₃).trans hbytes₂).trans hbytes₁⟩
  simp only [readHeaders, hmagic, hversion, hsubsidy, hk, hsub, hkval, hver, bind, Except.bind,
    pure, Except.pure, ne_eq, not_true_eq_false, if_false]

/-- A log of all blocks of a ledger, in an order that puts parents first, opens to a
ledger that restores it, with the cursor at the end. -/
theorem openLog_ok [Crypto] {l : Ledger} (h : l.Reachable) {bytes : List U8}
    {blocks : List Block} (hbytes : bytes = header l.subsidy l.dag.k ++ blocks.flatMap record)
    (hfits : ∀ b ∈ blocks, Fits b) (hblocks : l.dag.Replayable blocks)
    (hall : ∀ x ∈ l.dag.nodes, x ∈ blocks.map Block.id) (ord : HashOrder) :
    ∃ file m, openLog ord bytes = .ok (⟨file⟩, m) ∧ file.AtEnd ∧ file.bytes = bytes ∧
      m.Unbounded ∧ Ledger.Restores l m := by
  obtain ⟨rest, m₀, m, rfl, hgenesis, hrestore, hunbounded, _, _, hrestores⟩ :=
    h.restore_ok hblocks hall ord
  rw [List.forall_mem_cons] at hfits
  have hunread : (File.ofBytes bytes).unread = header l.subsidy l.dag.k ++
      (record (l.dag.node l.dag.genesis).block ++ rest.flatMap record) := by
    rw [File.unread_ofBytes, hbytes, List.flatMap_cons]
  obtain ⟨file₁, hheaders, h₁, hbytes₁⟩ := readHeaders_of_unread hunread
  obtain ⟨file₂, hfirst, h₂, hbytes₂⟩ := readRecord_of_unread hfits.1 h₁
  have hfuel : rest.length < bytes.length := by
    have hrest : rest.length ≤ (rest.flatMap record).length := by
      rw [List.length_flatMap]
      have hsum := List.length_le_sum_of_one_le (rest.map fun b => (record b).length) (by
        intro n hn
        obtain ⟨b, _, rfl⟩ := List.mem_map.1 hn
        have := length_record_ge b
        omega)
      rwa [List.length_map] at hsum
    have hlen := congrArg List.length hbytes
    have hpos := length_record_ge (l.dag.node l.dag.genesis).block
    rw [List.flatMap_cons, List.length_append, List.length_append] at hlen
    omega
  obtain ⟨file₃, hreplay, hend, hbytes₃⟩ := replayRecords_ok hfits.2 h₂ hfuel hrestore
  refine ⟨file₃, m, ?_, hend, ?_, hunbounded, hrestores⟩
  · simp only [openLog, hheaders, hfirst, hgenesis, liftReplay]
    exact hreplay
  · rw [hbytes₃, hbytes₂, hbytes₁, File.bytes_ofBytes]

/-! ## Sessions -/

/-- `Session store l pending`: the log `store` was created from a ledger and appended
to, possibly over several openings, `l` is the ledger it follows now, and
`pending` lists the blocks inserted but not yet appended. -/
inductive Session [Crypto] : LedgerStore → Ledger → List Block → Prop
  | create {ord : HashOrder} {l : Ledger} {store : LedgerStore} :
      l.Reachable → create ord l = .ok store → Session store l []
  | insert {store : LedgerStore} {l l' : Ledger} {pending : List Block} {o : Offer}
      {id : BlockId} : Session store l pending → l.offer o = .ok (id, l') →
      Session store l' (pending ++ [o.block])
  | setDifficulty {store : LedgerStore} {l : Ledger} {pending : List Block}
      (retarget : Retarget) : Session store l pending →
      Session store (l.setDifficulty retarget) pending
  | setProofOfWork {store : LedgerStore} {l : Ledger} {pending : List Block} (enabled : Bool) :
      Session store l pending → Session store (l.setProofOfWork enabled) pending
  | append {store store' : LedgerStore} {l : Ledger} {block : Block} {pending : List Block} :
      Session store l (block :: pending) → store.append block = .ok store' →
      Session store' l pending
  | reopen {ord : HashOrder} {store store' : LedgerStore} {l l' : Ledger} :
      Session store l [] → openLog ord store.file.bytes = .ok (store', l') →
      Session store' l' []

/-- The log holds the blocks of the ledger up to the pending ones, in an order that
puts parents first, and its cursor is at the end. -/
structure LogOf [Crypto] (store : LedgerStore) (l : Ledger) (written pending : List Block) :
    Prop where
  bytes : store.file.bytes = header l.subsidy l.dag.k ++ written.flatMap record
  atEnd : store.file.AtEnd
  fits : ∀ b ∈ written, Fits b
  replayable : l.dag.Replayable (written ++ pending)
  all : ∀ x ∈ l.dag.nodes, x ∈ (written ++ pending).map Block.id

variable [Crypto]

/-- An accepted block joins the pending ones. -/
theorem LogOf.insert {store : LedgerStore} {l l' : Ledger} {written pending : List Block}
    {o : Offer} {id : BlockId} (h : LogOf store l written pending) (hl : l.WellFormed)
    (hoffer : l.offer o = .ok (id, l')) : LogOf store l' written (pending ++ [o.block]) := by
  have hstep : Ledger.Step l (.offer o) l' := .accepted hoffer
  have hparameters := hstep.sameParameters
  have hkeep := (hstep.agreeOn hl).1
  obtain ⟨sp, g, state, applied, haccepts, _, _⟩ := Ledger.offer_eq_ok_iff.1 hoffer
  obtain ⟨hnodes, hself⟩ := Ledger.offer_nodes hoffer
  have hold : ∀ b ∈ written ++ pending, b.id ∈ l.dag.nodes := fun b hb => h.replayable.mem_nodes hb
  have hlist : written ++ (pending ++ [o.block]) = (written ++ pending) ++ [o.block] :=
    (List.append_assoc ..).symm
  refine ⟨?_, h.atEnd, h.fits, ?_, ?_⟩
  · rw [← hparameters.subsidy_eq, ← hparameters.k_eq]
    exact h.bytes
  · rw [hlist]
    constructor
    · obtain ⟨rest, hrest⟩ := h.replayable.head
      rw [hrest, ← hparameters.genesis_eq, (hkeep.sameCore hl.dag.genesis_mem).block]
      exact ⟨rest ++ [o.block], rfl⟩
    · rw [List.map_append, List.nodup_append]
      refine ⟨h.replayable.nodup, List.nodup_singleton _, ?_⟩
      intro x hx y hy heq
      obtain ⟨b, hb, rfl⟩ := List.mem_map.1 hx
      rw [List.map_singleton, List.mem_singleton] at hy
      exact haccepts.admits.fresh (hy ▸ heq ▸ hold b hb)
    · intro b hb
      rcases List.mem_append.1 hb with hb | hb
      · have hin : b.id ∈ l'.dag.nodes := (hnodes b.id).2 (.inr (hold b hb))
        rw [DagView.block, DagView.lookup_node hin, Option.map_some,
          ← (hkeep.sameCore (hold b hb)).block, h.replayable.node_block hb]
      · rw [List.mem_singleton.1 hb]
        have hin : o.block.id ∈ l'.dag.nodes := (hnodes _).2 (.inl rfl)
        rw [DagView.block, DagView.lookup_node hin, Option.map_some, hself]
    · intro before b after hsplit p hp
      rcases List.eq_nil_or_concat' after with rfl | ⟨after', c, rfl⟩
      · -- the new block: its parents are stored, so they are listed
        obtain ⟨rfl, hlast⟩ := List.append_inj' hsplit rfl
        rw [← (List.cons.inj hlast).1] at hp
        exact h.all p (haccepts.admits.parents_mem p hp)
      · rw [← List.cons_append, ← List.append_assoc] at hsplit
        obtain ⟨hinit, _⟩ := List.append_inj' hsplit rfl
        exact h.replayable.parents before b after' hinit p hp
  · intro x hx
    rw [hlist, List.map_append, List.mem_append]
    rcases (hnodes x).1 hx with rfl | hx
    · exact .inr (List.mem_singleton.2 rfl)
    · exact .inl (h.all x hx)

/-- A pending block that is appended is written. -/
theorem LogOf.append {store store' : LedgerStore} {l : Ledger} {block : Block}
    {written pending : List Block} (h : LogOf store l written (block :: pending))
    (happend : store.append block = .ok store') :
    LogOf store' l (written ++ [block]) pending := by
  unfold LedgerStore.append at happend
  split at happend
  · cases happend
  · rename_i file hwrite
    obtain ⟨hfits, hbytes, hend⟩ := writeRecord_eq_ok h.atEnd hwrite
    have hlist : written ++ [block] ++ pending = written ++ block :: pending := by
      rw [List.append_assoc, List.singleton_append]
    rw [← Except.ok.inj happend]
    refine ⟨?_, hend, ?_, hlist ▸ h.replayable, hlist ▸ h.all⟩
    · show file.bytes = _
      rw [hbytes, h.bytes, List.flatMap_append, List.append_assoc, List.flatMap_singleton]
    · intro b hb
      rcases List.mem_append.1 hb with hb | hb
      · exact h.fits b hb
      · rw [List.mem_singleton.1 hb]
        exact hfits

/-- A log whose blocks are all written opens to a ledger that restores the one it
follows, and follows that one from then on. -/
theorem LogOf.open_ok {store : LedgerStore} {l : Ledger} {written : List Block}
    (h : LogOf store l written []) (hl : l.Reachable) (ord : HashOrder) :
    ∃ store' m, openLog ord store.file.bytes = .ok (store', m) ∧ m.Unbounded ∧
      Ledger.Restores l m ∧ LogOf store' m written [] := by
  have hreplayable := h.replayable
  have hall := h.all
  rw [List.append_nil] at hreplayable hall
  obtain ⟨file, m, hopen, hend, hbytes, hunbounded, hrestores⟩ :=
    openLog_ok hl h.bytes h.fits hreplayable hall ord
  have hm := hunbounded.reachable.wellFormed
  have hblock := hrestores.consensus.block
  refine ⟨⟨file⟩, m, hopen, hunbounded, hrestores, ?_, hend, h.fits, ?_, ?_⟩
  · show file.bytes = _
    rw [hbytes, hrestores.subsidy_eq, hrestores.k_eq]
    exact h.bytes
  · rw [List.append_nil]
    refine ⟨?_, hreplayable.nodup, fun b hb => (hblock b.id).symm.trans (hreplayable.stored b hb),
      hreplayable.parents⟩
    obtain ⟨rest, hrest⟩ := hreplayable.head
    have hgenesis : m.dag.genesis = l.dag.genesis := by
      rw [hm.genesis_eq, hl.wellFormed.genesis_eq, hrestores.genesis_eq]
    have hsame := hblock l.dag.genesis
    have hin := hl.wellFormed.dag.genesis_mem
    rw [DagView.block, DagView.block, DagView.lookup_node hin,
      DagView.lookup_node ((hrestores.mem_iff _).2 hin)] at hsame
    rw [hgenesis, ← Option.some.inj hsame]
    exact ⟨rest, hrest⟩
  · rw [List.append_nil]
    exact fun x hx => hall x ((hrestores.mem_iff x).1 hx)

theorem Session.logOf {store : LedgerStore} {l : Ledger} {pending : List Block}
    (h : Session store l pending) : l.Reachable ∧ ∃ written, LogOf store l written pending := by
  induction h with
  | @create ord l store hl hcreate =>
      obtain ⟨hfits, hbytes, hend⟩ := create_eq_ok hcreate
      have hblocks := hl.wellFormed.dag.replayable_orderedBlocks ord
      refine ⟨hl, _, hbytes, hend, hfits, ?_, ?_⟩
      · rwa [List.append_nil]
      · intro x hx
        rw [List.append_nil, hl.wellFormed.dag.map_id_orderedBlocks,
          hl.wellFormed.dag.mem_linearize]
        exact hx
  | insert _ hoffer ih =>
      obtain ⟨hl, written, hlog⟩ := ih
      exact ⟨hl.step (.accepted hoffer), written, hlog.insert hl.wellFormed hoffer⟩
  | setDifficulty retarget _ ih =>
      obtain ⟨hl, written, hlog⟩ := ih
      exact ⟨hl.step (.difficulty retarget), written, hlog.bytes, hlog.atEnd, hlog.fits,
        ⟨hlog.replayable.head, hlog.replayable.nodup, hlog.replayable.stored,
          hlog.replayable.parents⟩, hlog.all⟩
  | setProofOfWork enabled _ ih =>
      obtain ⟨hl, written, hlog⟩ := ih
      exact ⟨hl.step (.proofOfWork enabled), written, hlog.bytes, hlog.atEnd, hlog.fits,
        ⟨hlog.replayable.head, hlog.replayable.nodup, hlog.replayable.stored,
          hlog.replayable.parents⟩, hlog.all⟩
  | append _ happend ih =>
      obtain ⟨hl, written, hlog⟩ := ih
      exact ⟨hl, _, hlog.append happend⟩
  | @reopen ord store store' l l' _ hopen ih =>
      obtain ⟨hl, written, hlog⟩ := ih
      obtain ⟨store₁, m, hopen₁, hunbounded, _, hlog₁⟩ := hlog.open_ok hl ord
      obtain ⟨rfl, rfl⟩ := Prod.mk.inj (Except.ok.inj (hopen.symm.trans hopen₁))
      exact ⟨hunbounded.reachable, written, hlog₁⟩

/-- However often a log was opened again, once every inserted block is appended it
opens to a ledger with the blocks, tips, linearization, states and ledger state of
the one it follows, and can be followed further. -/
theorem Session.open_restores {store : LedgerStore} {l : Ledger} (h : Session store l [])
    (ord : HashOrder) : ∃ store' m, openLog ord store.file.bytes = .ok (store', m) ∧
      Ledger.Restores l m ∧ Session store' m [] := by
  obtain ⟨hl, written, hlog⟩ := h.logOf
  obtain ⟨store', m, hopen, _, hrestores, _⟩ := hlog.open_ok hl ord
  exact ⟨store', m, hopen, hrestores, h.reopen hopen⟩

end LedgerStore

namespace LedgerStore

open scoped Reference
open Reference (premineTxs spendOffer besideOffer)

/-- A log of the spend of the premine, to which an empty block is appended. -/
theorem open_restores_appended : ∃ (store store' : LedgerStore) (l m : Ledger), l.dag.len = 3 ∧
    Session store l [] ∧ openLog .sorted store.file.bytes = .ok (store', m) ∧
    Ledger.Restores l m := by
  have hplay : (Ledger.playNew .sorted 3 1 premineTxs 2 [.offer spendOffer]).bind (fun played =>
      (create .sorted played.2).toOption.bind fun store =>
        (played.2.offer besideOffer).toOption.bind fun inserted =>
          (store.append besideOffer.block).toOption.map fun _ => inserted.2.dag.len) = some 3 := by
    decide +kernel
  obtain ⟨played, hplayed, hplay⟩ := Option.bind_eq_some_iff.1 hplay
  obtain ⟨store, hcreate, hplay⟩ := Option.bind_eq_some_iff.1 hplay
  obtain ⟨inserted, hinsert, hplay⟩ := Option.bind_eq_some_iff.1 hplay
  obtain ⟨store', happend, hlen⟩ := Option.map_eq_some_iff.1 hplay
  have hcreated := Session.create (Ledger.reachable_of_playNew hplayed) (ok_of_toOption hcreate)
  have hsession := (hcreated.insert (ok_of_toOption hinsert)).append (ok_of_toOption happend)
  obtain ⟨store'', m, hopen, hrestores, _⟩ := hsession.open_restores .sorted
  exact ⟨store', store'', inserted.2, m, hlen, hsession, hopen, hrestores⟩

end LedgerStore

end Kovanica
