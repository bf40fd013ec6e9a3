import Kovanica.State.Enforcement
import Kovanica.State.Store

/-!
# Cut logs

A write that is torn leaves a prefix of the log.  Opening it fails in the header
and in the genesis record, and in the body of any record; on a boundary it
replays the complete records.  A cut inside the length of a later record is taken
for the end of the log: the ledger opens, and the bytes that are left over spoil
the next record that is appended.

## Main results

* `cut_cases`: where a cut can fall, in the header, on a boundary or inside a record.
* `openLog_of_genesis`, `openLog_of_body`: a cut in the genesis record or in a body is an error.
* `openLog_of_short`: one inside a length is not.
* `InLength.side`: where such a cut lies, seen from any boundary.
-/

namespace Kovanica

open Lib

namespace LedgerStore

variable [Crypto]

/-! ## Logs and their boundaries -/

/-- `Log store l blocks`: the log `store` was created from `l`, and blocks of any
kind were appended to it, possibly over several openings; `blocks` are its
records.  A file is no longer than a signed 64-bit offset can say. -/
inductive Log : LedgerStore → Ledger → List Block → Prop
  | create {ord : HashOrder} {l : Ledger} {store : LedgerStore} :
      l.Reachable → create ord l = .ok store → Log store l (l.dag.orderedBlocks ord)
  | append {store store' : LedgerStore} {l : Ledger} {blocks : List Block} {block : Block} :
      Log store l blocks → store.append block = .ok store' →
      store'.file.bytes.length < 2 ^ 63 → Log store' l (blocks ++ [block])
  | reopen {ord : HashOrder} {store store' : LedgerStore} {l m : Ledger} {blocks : List Block} :
      Log store l blocks → openLog ord store.file.bytes = .ok (store', m) → Log store' l blocks

omit [Crypto] in
/-- The size of a log of these records. -/
def logSize (blocks : List Block) : Nat := 16 + (blocks.flatMap record).length

/-- What opening a log replays when it consists of exactly these records: a new ledger of the
first, and the others inserted into it in turn. -/
def replay (ord : HashOrder) (k : KParam) (subsidy : U64) : List Block → Outcome StoreError Ledger
  | [] => .error (.error .truncated)
  | genesis :: rest =>
      match liftReplay (Ledger.restoreGenesis ord k subsidy genesis) with
      | .error e => .error e
      | .ok l => liftReplay (l.restoreBlocks ord rest)

omit [Crypto] in
/-- The cut lies inside the length prefix of the record that follows `before`, a
record after the genesis record. -/
def InLength (blocks before : List Block) (n : Nat) : Prop :=
  ∃ block after, blocks = before ++ block :: after ∧ before ≠ [] ∧
    logSize before < n ∧ n < logSize before + 8

omit [Crypto] in
theorem length_header (subsidy : U64) (k : KParam) : (header subsidy k).length = 16 := by
  simp [header, magic]

/-! ## Reading a cut log -/

omit [Crypto] in
theorem readHeader_of_short {file : File} {n : Nat} (h : file.unread.length < n) :
    readHeader file n = .error .truncated := by
  obtain ⟨file', hread, _⟩ := File.readExact_of_short h
  simp only [readHeader, hread]

omit [Crypto] in
/-- A header that is cut is an error. -/
theorem readHeaders_of_short {file : File} {subsidy : U64} {k : KParam} {n : Nat} (hn : n < 16)
    (h : file.unread = (header subsidy k).take n) : ∃ e, readHeaders file = .error e := by
  have hcut : ∀ {f : File} {data rest : List U8} {left : Nat}, left < data.length →
      f.unread = (data ++ rest).take left → readHeader f data.length = .error .truncated := by
    intro f data rest left hleft hf
    apply readHeader_of_short
    rw [hf, List.length_take]
    omega
  have hpast : ∀ {f : File} {data rest : List U8} {left : Nat}, data.length ≤ left →
      f.unread = (data ++ rest).take left → ∃ f', readHeader f data.length = .ok (data, f') ∧
        f'.unread = rest.take (left - data.length) := by
    intro f data rest left hleft hf
    rw [List.take_append, List.take_of_length_le hleft] at hf
    obtain ⟨f', hread, hrest, _⟩ := readHeader_of_unread rfl hf
    exact ⟨f', hread, hrest⟩
  have h8 : (toLeBytes 8 subsidy.val).length = 8 := length_toLeBytes _ _
  have h2 : (toLeBytes 2 k.val).length = 2 := length_toLeBytes _ _
  have hv : (toLeBytes 2 version.val).length = 2 := length_toLeBytes _ _
  have hm : magic.val.length = 4 := magic.property
  simp only [header, List.append_assoc] at h
  unfold readHeaders
  by_cases h4 : n < 4
  · have hread := hcut (hm.symm ▸ h4) h
    rw [hm] at hread
    exact ⟨_, by rw [hread]; rfl⟩
  obtain ⟨file₁, hread₁, h₁⟩ := hpast (by omega) h
  rw [hm] at hread₁ h₁
  by_cases h6 : n < 6
  · have hread := hcut (by omega) h₁
    rw [hv] at hread
    exact ⟨_, by simp [hread₁, hread, bind, Except.bind]; rfl⟩
  obtain ⟨file₂, hread₂, h₂⟩ := hpast (by omega) h₁
  rw [hv] at hread₂ h₂
  have hver : (Word.cast 16 (ofLeBytes (toLeBytes 2 version.val)) : U16) = version := by decide
  by_cases h14 : n < 14
  · have hread := hcut (by omega) h₂
    rw [h8] at hread
    exact ⟨_, by simp [hread₁, hread₂, hver, hread, bind, Except.bind]; rfl⟩
  obtain ⟨file₃, hread₃, h₃⟩ := hpast (by omega) h₂
  rw [h8] at hread₃ h₃
  have hread : readHeader file₃ 2 = .error .truncated := by
    apply readHeader_of_short
    rw [h₃, List.length_take]
    omega
  exact ⟨_, by simp [hread₁, hread₂, hver, hread₃, hread, bind, Except.bind]; rfl⟩

omit [Crypto] in
/-- A record cut in its body is an error. -/
theorem readRecord_of_cut {file : File} {block : Block} {r : Nat} (hfits : Fits block)
    (hr : 8 ≤ r) (hlt : r < (record block).length) (h : file.unread = (record block).take r) :
    readRecord file = .error .truncated := by
  have hlen : (toLeBytes 8 (encodeBlock block).length).length = 8 := length_toLeBytes _ _
  have hmin := SnapshotReader.length_encodeBlock_ge block
  have hmax : (encodeBlock block).length ≤ 16 * 1024 * 1024 := hfits
  have hvalue : ofLeBytes (toLeBytes 8 (encodeBlock block).length) = (encodeBlock block).length := by
    apply ofLeBytes_toLeBytes
    omega
  have hok : ¬ ((encodeBlock block).length = 0 ∨ maxRecord < (encodeBlock block).length) := by
    unfold maxRecord
    omega
  rw [record, List.length_append, hlen] at hlt
  rw [record, List.take_append, List.take_of_length_le (by omega), hlen] at h
  obtain ⟨file₁, hread₁, hunread₁, _⟩ := File.readExact_of_unread h
  have hshort : file₁.unread.length < (encodeBlock block).length := by
    rw [hunread₁, List.length_take]
    omega
  obtain ⟨file₂, hread₂, _⟩ := File.readExact_of_short hshort
  rw [hlen] at hread₁
  simp only [readRecord, hread₁, hvalue, if_neg hok, hread₂]

/-- Records of which one is refused are replayed up to it. -/
theorem replayRecords_of_error {ord : HashOrder} {file : File} {l : Ledger} {blocks : List Block}
    {tail : List U8} {e : Fault StoreError} (fuel : Nat) (hfits : ∀ b ∈ blocks, Fits b)
    (hunread : file.unread = blocks.flatMap record ++ tail)
    (hrestore : liftReplay (l.restoreBlocks ord blocks) = .error e) :
    replayRecords ord (blocks.length + fuel) file l = .error e := by
  induction blocks generalizing file l with
  | nil => cases hrestore
  | cons block rest ih =>
      rw [List.forall_mem_cons] at hfits
      rw [List.flatMap_cons, List.append_assoc] at hunread
      obtain ⟨file₁, hread, hunread₁, _⟩ := readRecord_of_unread hfits.1 hunread
      rw [List.length_cons, Nat.add_right_comm]
      unfold Ledger.restoreBlocks at hrestore
      simp only [replayRecords, hread]
      cases hblock : l.restoreBlock ord block with
      | error e' =>
          rw [hblock] at hrestore
          cases e' <;> rw [← Except.error.inj hrestore] <;> rfl
      | ok l₁ =>
          rw [hblock] at hrestore
          simp only [liftReplay]
          exact ih hfits.2 hunread₁ hrestore

omit [Crypto] in
/-- There are fewer records than bytes. -/
theorem length_le_flatMap_record (blocks : List Block) :
    blocks.length * 8 ≤ (blocks.flatMap record).length := by
  induction blocks with
  | nil => simp
  | cons block rest ih =>
      have hblock := length_record_ge block
      rw [List.flatMap_cons, List.length_append, List.length_cons]
      omega

/-- Opening a log whose first records are complete: they are replayed, and what
follows is left to the loop. -/
theorem openLog_of_records (ord : HashOrder) {subsidy : U64} {k : KParam} {genesis : Block}
    {rest : List Block} {tail bytes : List U8} (hfits : ∀ b ∈ genesis :: rest, Fits b)
    (hbytes : bytes = header subsidy k ++ (genesis :: rest).flatMap record ++ tail) :
    (∀ e, replay ord k subsidy (genesis :: rest) = .error e → openLog ord bytes = .error e) ∧
      ∀ m, replay ord k subsidy (genesis :: rest) = .ok m → ∃ fuel file, file.unread = tail ∧
        file.bytes = bytes ∧ openLog ord bytes = replayRecords ord (fuel + 1) file m := by
  rw [List.forall_mem_cons] at hfits
  have hunread : (File.ofBytes bytes).unread =
      header subsidy k ++ (record genesis ++ (rest.flatMap record ++ tail)) := by
    rw [File.unread_ofBytes, hbytes, List.flatMap_cons]
    simp only [List.append_assoc]
  obtain ⟨file₁, hheaders, h₁, hbytes₁⟩ := readHeaders_of_unread hunread
  obtain ⟨file₂, hfirst, h₂, hbytes₂⟩ := readRecord_of_unread hfits.1 h₁
  have hcount : rest.length < bytes.length := by
    have hle := length_le_flatMap_record (genesis :: rest)
    rw [hbytes, List.length_append, List.length_append, length_header]
    rw [List.length_cons] at hle
    omega
  obtain ⟨fuel, hfuel⟩ := Nat.exists_eq_add_of_lt hcount
  rw [Nat.add_assoc] at hfuel
  cases hgenesis : liftReplay (Ledger.restoreGenesis ord k subsidy genesis) with
  | error e =>
      have hopen : openLog ord bytes = .error e := by
        simp only [openLog, hheaders, hfirst, hgenesis]
      simp only [replay, hgenesis, hopen]
      refine ⟨fun e' h => ?_, fun _ h => by cases h⟩
      rw [Except.error.inj h]
  | ok l =>
      have hopen : openLog ord bytes = replayRecords ord (rest.length + (fuel + 1)) file₂ l := by
        rw [openLog, ← hfuel]
        simp only [hheaders, hfirst, hgenesis]
      simp only [replay, hgenesis, hopen]
      refine ⟨fun e h => replayRecords_of_error _ hfits.2 h₂ h, fun m h => ?_⟩
      obtain ⟨file', htail, hkept, hreplay⟩ :=
        replayRecords_of_ok (fuel + 1) hfits.2 h₂ (liftReplay_eq_ok.1 h)
      exact ⟨fuel, file', htail, hkept.trans (hbytes₂.trans hbytes₁), hreplay⟩

/-- Fewer bytes than a length takes are left behind: the log opens as if they were
not there, with its cursor behind them. -/
theorem openLog_of_short (ord : HashOrder) {subsidy : U64} {k : KParam} {genesis : Block}
    {rest : List Block} {tail bytes : List U8} (hfits : ∀ b ∈ genesis :: rest, Fits b)
    (hbytes : bytes = header subsidy k ++ (genesis :: rest).flatMap record ++ tail)
    (htail : tail.length < 8) :
    (∀ e, replay ord k subsidy (genesis :: rest) = .error e → openLog ord bytes = .error e) ∧
      ∀ m, replay ord k subsidy (genesis :: rest) = .ok m → ∃ file, file.AtEnd ∧
        file.bytes = bytes ∧ openLog ord bytes = .ok (⟨file⟩, m) := by
  obtain ⟨herror, hok⟩ := openLog_of_records ord hfits hbytes
  refine ⟨herror, fun m hm => ?_⟩
  obtain ⟨fuel, file, hunread, hkept, hopen⟩ := hok m hm
  obtain ⟨file', hread, hend, hbytes'⟩ := readRecord_of_short (hunread ▸ htail)
  refine ⟨file', hend, hbytes'.trans hkept, ?_⟩
  rw [hopen]
  simp only [replayRecords, hread]

/-- A cut in the body of a record: an error. -/
theorem openLog_of_body (ord : HashOrder) {subsidy : U64} {k : KParam} {genesis block : Block}
    {rest : List Block} {bytes : List U8} {r : Nat} (hfits : ∀ b ∈ genesis :: rest, Fits b)
    (hblock : Fits block) (hr : 8 ≤ r) (hlt : r < (record block).length)
    (hbytes : bytes = header subsidy k ++ (genesis :: rest).flatMap record ++
      (record block).take r) :
    (∀ e, replay ord k subsidy (genesis :: rest) = .error e → openLog ord bytes = .error e) ∧
      ∀ m, replay ord k subsidy (genesis :: rest) = .ok m →
        openLog ord bytes = .error (.error .truncated) := by
  obtain ⟨herror, hok⟩ := openLog_of_records ord hfits hbytes
  refine ⟨herror, fun m hm => ?_⟩
  obtain ⟨fuel, file, hunread, _, hopen⟩ := hok m hm
  rw [hopen]
  simp only [replayRecords, readRecord_of_cut hblock hr hlt hunread]

/-- A cut in the genesis record: an error. -/
theorem openLog_of_genesis {ord : HashOrder} {subsidy : U64} {k : KParam} {genesis : Block}
    {bytes : List U8} {r : Nat} (hfits : Fits genesis) (hlt : r < (record genesis).length)
    (hbytes : bytes = header subsidy k ++ (record genesis).take r) :
    openLog ord bytes = .error (.error .truncated) := by
  obtain ⟨file₁, hheaders, h₁, _⟩ := readHeaders_of_unread
    (show (File.ofBytes bytes).unread = _ from hbytes)
  by_cases hr : r < 8
  · have hshort : file₁.unread.length < 8 := by
      rw [h₁, List.length_take]
      omega
    obtain ⟨file₂, hread, _⟩ := readRecord_of_short hshort
    simp only [openLog, hheaders, hread]
  · have hread := readRecord_of_cut hfits (not_lt.1 hr) hlt h₁
    simp only [openLog, hheaders, hread]

/-! ## Replaying never panics -/

/-- How a stored block is taken: it is refused, or the call that inserts it is
accepted. -/
theorem restoreBlock_cases {m : Ledger} (h : m.Unbounded) (hroom : m.dag.len + 1 < mapCapacity)
    (ord : HashOrder) (block : Block) :
    (∃ e, m.restoreBlock ord block = .error (.error e)) ∨ ∃ o id m', o.block = block ∧
      m.offer o = .ok (id, m') ∧ m.restoreBlock ord block = .ok m' := by
  cases hdecode : decodePayload block.payload with
  | error e => exact .inl ⟨.payload e, by simp only [Ledger.restoreBlock, hdecode]⟩
  | ok txs =>
      let o : Offer := ⟨ord, ⟨block.parents, block.parents_fit⟩, block.work, block.timestampMs,
        block.nonce, txs⟩
      have hblock : o.block = block := by
        show Block.new ⟨block.parents, block.parents_fit⟩ block.work block.timestampMs block.nonce
          txs.payload = block
        rw [payload_of_decodePayload hdecode, SnapshotReader.new_parents]
      rcases h.accepted_or_refused hroom o with ⟨id, m', haccepted⟩ | ⟨e, hrefused⟩
      · refine .inr ⟨o, id, m', hblock, haccepted, ?_⟩
        simp only [Ledger.offer, o] at haccepted
        simp only [Ledger.restoreBlock, hdecode, haccepted]
      · refine .inl ⟨.rebuild e, ?_⟩
        simp only [Ledger.offer, o] at hrefused
        simp only [Ledger.restoreBlock, hdecode, hrefused]

/-- The replay of records ends in an error, or in a ledger that a log of these
records follows. -/
theorem restoreBlocks_cases {m : Ledger} (h : m.Unbounded) {store : LedgerStore}
    {written pending blocks : List Block} (hlog : LogOf store m written pending)
    (hroom : m.dag.len + blocks.length < mapCapacity) (ord : HashOrder) :
    (∃ e, m.restoreBlocks ord blocks = .error (.error e)) ∨ ∃ m', m'.Unbounded ∧
      m.restoreBlocks ord blocks = .ok m' ∧ LogOf store m' written (pending ++ blocks) ∧
      m'.subsidy = m.subsidy ∧ m'.dag.k = m.dag.k := by
  induction blocks generalizing m pending with
  | nil => exact .inr ⟨m, h, rfl, by rwa [List.append_nil], rfl, rfl⟩
  | cons block rest ih =>
      rw [List.length_cons] at hroom
      rcases restoreBlock_cases h (by omega) ord block with ⟨e, hrefused⟩ | haccepted
      · exact .inl ⟨e, by simp only [Ledger.restoreBlocks, hrefused]⟩
      · obtain ⟨o, id, m₁, hblock, hoffer, hrestore⟩ := haccepted
        have hlog₁ := hlog.insert h.reachable.wellFormed hoffer
        have hsame := (Ledger.Step.accepted hoffer).sameParameters
        have hlen := Ledger.len_offer hoffer
        have hrest : m₁.dag.len + rest.length < mapCapacity := by omega
        rw [hblock] at hlog₁
        simp only [Ledger.restoreBlocks, hrestore]
        rcases ih (h.step (.accepted hoffer)) hlog₁ hrest with herror | hok
        · exact .inl herror
        · obtain ⟨m', hm', hall, hlog', hsubsidy, hk⟩ := hok
          rw [← List.append_cons] at hlog'
          exact .inr ⟨m', hm', hall, hlog', hsubsidy.trans hsame.subsidy_eq.symm,
            hk.trans hsame.k_eq.symm⟩

/-! ## Whole logs -/

/-- The bytes of a log and its records: the header, and then the records one behind the other,
with nothing in between and nothing behind them. -/
structure Intact (store : LedgerStore) (l : Ledger) (blocks : List Block) : Prop where
  reachable : l.Reachable
  bytes : store.file.bytes = header l.subsidy l.dag.k ++ blocks.flatMap record
  atEnd : store.file.AtEnd
  fits : ∀ b ∈ blocks, Fits b
  head : ∃ rest, blocks = (l.dag.node l.dag.genesis).block :: rest
  count : blocks.length < mapCapacity

namespace Intact

variable {store : LedgerStore} {l : Ledger} {blocks : List Block}

theorem length_bytes (h : Intact store l blocks) : store.file.bytes.length = logSize blocks := by
  rw [h.bytes, List.length_append, length_header, logSize]

/-- The first records of a log start with its genesis. -/
theorem head_of_prefix (h : Intact store l blocks) {before after : List Block}
    (hsplit : blocks = before ++ after) (hne : before ≠ []) :
    ∃ rest, before = (l.dag.node l.dag.genesis).block :: rest := by
  obtain ⟨rest, hrest⟩ := h.head
  cases before with
  | nil => exact absurd rfl hne
  | cons b before =>
      rw [hrest, List.cons_append] at hsplit
      exact ⟨before, by rw [(List.cons.inj hsplit).1]⟩

/-- The replay of the first records of a log: an error, or a ledger that a log of
these records follows. -/
theorem replay_cases (h : Intact store l blocks) {before after : List Block}
    (hsplit : blocks = before ++ after) (hne : before ≠ []) (ord : HashOrder) :
    (∃ e, replay ord l.dag.k l.subsidy before = .error (.error e)) ∨
      ∃ m, replay ord l.dag.k l.subsidy before = .ok m ∧ m.Unbounded ∧
        ∀ file : File, file.AtEnd →
          file.bytes = header l.subsidy l.dag.k ++ before.flatMap record →
          LogOf ⟨file⟩ m before [] := by
  obtain ⟨rest, rfl⟩ := h.head_of_prefix hsplit hne
  have hl := h.reachable.wellFormed
  obtain ⟨m₀, hgenesis, hrebuilds, hnodes⟩ := h.reachable.restoreGenesis_ok ord
  have hm₀ := hrebuilds.unbounded.reachable.wellFormed
  have hsame := hrebuilds.compatible
  have hid : (l.dag.node l.dag.genesis).block.id = l.dag.genesis :=
    hl.dag.id_eq _ _ (DagView.lookup_node hl.dag.genesis_mem)
  have hin : l.dag.genesis ∈ m₀.dag.nodes := (hnodes _).2 rfl
  have hstored := hsame.block_eq _ hl.dag.genesis_mem hin
  have hparents : (l.dag.node l.dag.genesis).block.parents = [] := by
    obtain ⟨n, hn, hnil, _⟩ := hl.dag.genesis_node
    rw [DagView.node_of_lookup hn, hnil]
  have hfits : ∀ b ∈ (l.dag.node l.dag.genesis).block :: rest, Fits b := by
    intro b hb
    apply h.fits
    rw [hsplit]
    exact List.mem_append_left _ hb
  -- a log of the genesis alone
  let file₀ : File := File.empty.writeAll
    (header l.subsidy l.dag.k ++ record (l.dag.node l.dag.genesis).block)
  have hfile₀ := File.atEnd_empty.writeAll
    (header l.subsidy l.dag.k ++ record (l.dag.node l.dag.genesis).block)
  have hlog₀ : LogOf ⟨file₀⟩ m₀ [(l.dag.node l.dag.genesis).block] [] := by
    refine ⟨?_, hfile₀.2, ?_, ⟨⟨[], ?_⟩, ?_, ?_, ?_⟩, ?_⟩
    · show file₀.bytes = _
      rw [hfile₀.1, ← hsame.subsidy_eq, ← hsame.k_eq, List.flatMap_singleton]
      rfl
    · intro b hb
      exact hfits b (List.mem_cons.2 (.inl (List.mem_singleton.1 hb)))
    · rw [List.append_nil, ← hsame.genesis_eq, ← hstored]
    · simp
    · intro b hb
      rw [List.append_nil, List.mem_singleton] at hb
      rw [hb, hid, DagView.block, DagView.lookup_node hin, Option.map_some, ← hstored]
    · intro before b after hsplit p hp
      rw [List.append_nil] at hsplit
      cases before with
      | nil =>
          rw [← (List.cons.inj hsplit).1, hparents] at hp
          cases hp
      | cons c before =>
          have hlen := congrArg List.length hsplit
          simp at hlen
    · intro x hx
      rw [List.append_nil, List.map_singleton, List.mem_singleton, (hnodes x).1 hx, hid]
  have hroom : m₀.dag.len + rest.length < mapCapacity := by
    have hone : m₀.dag.len = 1 := by
      have hkeys : m₀.dag.nodes.keys = {l.dag.genesis} := by
        ext x
        rw [Finmap.mem_keys, hnodes, Finset.mem_singleton]
      rw [DagView.len, hkeys, Finset.card_singleton]
    have hcount := h.count
    rw [hsplit, List.length_append, List.length_cons] at hcount
    omega
  have hreplay : replay ord l.dag.k l.subsidy ((l.dag.node l.dag.genesis).block :: rest) =
      liftReplay (m₀.restoreBlocks ord rest) := by
    simp only [replay, hgenesis, liftReplay]
  rcases restoreBlocks_cases hrebuilds.unbounded hlog₀ hroom ord with ⟨e, herror⟩ | hok
  · exact .inl ⟨.replay e, by rw [hreplay, herror]; rfl⟩
  · obtain ⟨m, hm, hrestore, hlog, hsubsidy, hk⟩ := hok
    refine .inr ⟨m, by rw [hreplay, hrestore]; rfl, hm, fun file hend hbytes => ?_⟩
    refine ⟨?_, hend, hfits, ?_, ?_⟩
    · rw [hsubsidy, hk, ← hsame.subsidy_eq, ← hsame.k_eq]
      exact hbytes
    · rw [List.append_nil]
      exact hlog.replayable
    · rw [List.append_nil]
      exact hlog.all

/-- The first bytes of a log, up to `r` bytes into the record after `before`. -/
theorem take_bytes (h : Intact store l blocks) {before after : List Block} {block : Block} {r : Nat}
    (hsplit : blocks = before ++ block :: after) (hr : r ≤ (record block).length) :
    store.file.bytes.take (logSize before + r) =
      header l.subsidy l.dag.k ++ before.flatMap record ++ (record block).take r := by
  have hlen : (header l.subsidy l.dag.k ++ before.flatMap record).length = logSize before := by
    rw [List.length_append, length_header, logSize]
  rw [h.bytes, hsplit, List.flatMap_append, ← List.append_assoc, List.flatMap_cons,
    List.take_append, hlen, List.take_of_length_le (by omega), Nat.add_sub_cancel_left,
    List.take_append_of_le_length hr]

/-- Where a cut falls: in the header, on the boundary behind some records, or
inside the record that follows them. -/
theorem cut_cases (h : Intact store l blocks) {n : Nat} (hn : n ≤ store.file.bytes.length) :
    n < 16 ∨ ∃ before after, blocks = before ++ after ∧
      (n = logSize before ∨ ∃ block rest r, after = block :: rest ∧ 0 < r ∧
        r < (record block).length ∧ n = logSize before + r) := by
  by_cases hheader : n < 16
  · exact .inl hheader
  right
  rw [h.length_bytes, logSize] at hn
  rcases File.exists_cut record blocks (n := n - 16) (by omega) with hend | hinside
  · exact ⟨blocks, [], (List.append_nil _).symm, .inl (by rw [logSize]; omega)⟩
  · obtain ⟨before, block, after, r, hsplit, hr, heq⟩ := hinside
    refine ⟨before, block :: after, hsplit, ?_⟩
    rcases Nat.eq_zero_or_pos r with hzero | hpos
    · left
      rw [logSize]
      omega
    · right
      exact ⟨block, after, r, rfl, hpos, hr, by rw [logSize]; omega⟩

/-- Opening complete records and fewer bytes behind them than a length takes. -/
theorem open_short (h : Intact store l blocks) {before after : List Block}
    (hsplit : blocks = before ++ after) (hne : before ≠ []) {bytes tail : List U8}
    (hbytes : bytes = header l.subsidy l.dag.k ++ before.flatMap record ++ tail)
    (htail : tail.length < 8) (ord : HashOrder) :
    (∃ e, replay ord l.dag.k l.subsidy before = .error (.error e) ∧
        openLog ord bytes = .error (.error e)) ∨
      ∃ file m, replay ord l.dag.k l.subsidy before = .ok m ∧ openLog ord bytes = .ok (⟨file⟩, m) ∧
        m.Unbounded ∧ file.AtEnd ∧ file.bytes = bytes ∧
        (tail = [] → LogOf ⟨file⟩ m before []) := by
  have hcases := h.replay_cases hsplit hne ord
  have hfits : ∀ b ∈ before, Fits b := fun b hb => h.fits b (hsplit ▸ List.mem_append_left _ hb)
  obtain ⟨rest, rfl⟩ := h.head_of_prefix hsplit hne
  obtain ⟨herror, hok⟩ := openLog_of_short ord hfits hbytes htail
  rcases hcases with ⟨e, hreplay⟩ | ⟨m, hreplay, hm, hlog⟩
  · exact .inl ⟨e, hreplay, herror _ hreplay⟩
  · obtain ⟨file, hend, hkept, hopen⟩ := hok m hreplay
    refine .inr ⟨file, m, hreplay, hopen, hm, hend, hkept, fun hnil => hlog file hend ?_⟩
    rw [hkept, hbytes, hnil, List.append_nil]

/-- A cut in the body of a record is an error. -/
theorem open_body (h : Intact store l blocks) {before after : List Block} {block : Block} {r : Nat}
    (hsplit : blocks = before ++ block :: after) (hne : before ≠ []) (hr : 8 ≤ r)
    (hlt : r < (record block).length) (ord : HashOrder) :
    ∃ e, openLog ord (store.file.bytes.take (logSize before + r)) = .error (.error e) := by
  have hcases := h.replay_cases hsplit hne ord
  have hbytes := h.take_bytes hsplit hlt.le
  have hfits : ∀ b ∈ before ++ block :: after, Fits b := fun b hb => h.fits b (hsplit ▸ hb)
  obtain ⟨rest, rfl⟩ := h.head_of_prefix hsplit hne
  obtain ⟨herror, hok⟩ := openLog_of_body ord
    (fun b hb => hfits b (List.mem_append_left _ hb)) (hfits block (by simp)) hr hlt hbytes
  rcases hcases with ⟨e, hreplay⟩ | ⟨m, hreplay, _⟩
  · exact ⟨e, herror _ hreplay⟩
  · exact ⟨.truncated, hok m hreplay⟩

/-- A cut in the genesis record is an error. -/
theorem open_genesis (h : Intact store l blocks) {after : List Block} {block : Block} {r : Nat}
    (hsplit : blocks = block :: after) (hlt : r < (record block).length) (ord : HashOrder) :
    ∃ e, openLog ord (store.file.bytes.take (16 + r)) = .error (.error e) := by
  have hbytes := @take_bytes _ _ _ _ h [] after block r hsplit hlt.le
  have hfits : Fits block := h.fits block (hsplit ▸ List.mem_cons_self ..)
  rw [List.flatMap_nil, List.append_nil] at hbytes
  exact ⟨.truncated, openLog_of_genesis hfits hlt hbytes⟩

/-- A cut in the header is an error. -/
theorem open_header (h : Intact store l blocks) {n : Nat} (hn : n < 16) (ord : HashOrder) :
    ∃ e, openLog ord (store.file.bytes.take n) = .error (.error e) := by
  have hunread : (File.ofBytes (store.file.bytes.take n)).unread =
      (header l.subsidy l.dag.k).take n := by
    rw [File.unread_ofBytes, h.bytes, List.take_append_of_le_length (by
      rw [length_header]
      exact hn.le)]
  obtain ⟨e, hread⟩ := readHeaders_of_short hn hunread
  exact ⟨e, by simp only [openLog, hread]⟩

end Intact

theorem Log.intact {store : LedgerStore} {l : Ledger} {blocks : List Block}
    (h : Log store l blocks) : Intact store l blocks := by
  induction h with
  | @create ord l store hl hcreate =>
      obtain ⟨hfits, hbytes, hend⟩ := create_eq_ok hcreate
      have hlen : (l.dag.orderedBlocks ord).length = l.dag.len := by
        have hids := congrArg List.length (hl.wellFormed.dag.map_id_orderedBlocks ord)
        rw [List.length_map] at hids
        rw [hids, DagView.len,
          ← List.toFinset_card_of_nodup (hl.wellFormed.dag.nodup_linearize ord)]
        congr 1
        ext x
        rw [List.mem_toFinset, hl.wellFormed.dag.mem_linearize, Finmap.mem_keys]
      exact ⟨hl, hbytes, hend, hfits, (hl.wellFormed.dag.replayable_orderedBlocks ord).head,
        hlen ▸ hl.wellFormed.dag.len_lt⟩
  | @append store store' l blocks block _ happend hsize ih =>
      unfold LedgerStore.append at happend
      split at happend
      · cases happend
      · rename_i file hwrite
        obtain ⟨hfits, hbytes, hend⟩ := writeRecord_eq_ok ih.atEnd hwrite
        obtain ⟨rest, hrest⟩ := ih.head
        rw [← Except.ok.inj happend] at hsize ⊢
        have hall : file.bytes = header l.subsidy l.dag.k ++ (blocks ++ [block]).flatMap record := by
          rw [hbytes, ih.bytes, List.flatMap_append, List.flatMap_singleton, List.append_assoc]
        refine ⟨ih.reachable, hall, hend, ?_, ⟨rest ++ [block], by rw [hrest]; rfl⟩, ?_⟩
        · intro b hb
          rcases List.mem_append.1 hb with hold | hnew
          · exact ih.fits b hold
          · rw [List.mem_singleton.1 hnew]
            exact hfits
        · have hcount := length_le_flatMap_record (blocks ++ [block])
          have hlen : file.bytes.length < 2 ^ 63 := hsize
          rw [hall, List.length_append, length_header] at hlen
          unfold mapCapacity
          omega
  | @reopen ord store store' l m blocks _ hopen ih =>
      have hne : blocks ≠ [] := by
        obtain ⟨rest, hrest⟩ := ih.head
        rw [hrest]
        exact List.cons_ne_nil _ _
      have hbytes : store.file.bytes =
          header l.subsidy l.dag.k ++ blocks.flatMap record ++ [] := by
        rw [ih.bytes, List.append_nil]
      have hcases := ih.open_short (List.append_nil blocks).symm hne hbytes (by simp) ord
      rw [hopen] at hcases
      rcases hcases with ⟨e, _, herror⟩ | ⟨file, m', _, hok, _, hend, hkept, _⟩
      · cases herror
      · rw [(Prod.mk.inj (Except.ok.inj hok)).1]
        exact ⟨ih.reachable, hkept.trans ih.bytes, hend, ih.fits, ih.head, ih.count⟩

/-! ## What is detected -/

/-- What the format promises of a log cut at `n`.  On the boundary behind one record
or more, opening it replays exactly these records; anywhere else it is an error; and
where it opened, a further block that the ledger accepts and a record can hold is
appended and found when the log is opened again. -/
structure Detects (ord : HashOrder) (store : LedgerStore) (l : Ledger) (blocks : List Block)
    (n : Nat) : Prop where
  boundary : ∀ before after, blocks = before ++ after → before ≠ [] → n = logSize before →
    (openLog ord (store.file.bytes.take n)).map Prod.snd = replay ord l.dag.k l.subsidy before
  elsewhere : (∀ before after, blocks = before ++ after → before ≠ [] → n ≠ logSize before) →
    ∃ e, openLog ord (store.file.bytes.take n) = .error (.error e)
  appendable : ∀ store' m o id m', openLog ord (store.file.bytes.take n) = .ok (store', m) →
    m.offer o = .ok (id, m') → Fits o.block → ∃ store'', store'.append o.block = .ok store'' ∧
      ∀ ord', ∃ store₃ m₃, openLog ord' store''.file.bytes = .ok (store₃, m₃) ∧
        m₃.dag.block id = some o.block

/-- A block accepted by the ledger a log follows is appended and found again. -/
theorem LogOf.append_reopens {store : LedgerStore} {m m' : Ledger} {written : List Block}
    (h : LogOf store m written []) (hm : m.Unbounded) {o : Offer} {id : BlockId}
    (hoffer : m.offer o = .ok (id, m')) (hfits : Fits o.block) :
    ∃ store', store.append o.block = .ok store' ∧ ∀ ord, ∃ store'' m'',
      openLog ord store'.file.bytes = .ok (store'', m'') ∧ m''.dag.block id = some o.block := by
  have hlog := h.insert hm.reachable.wellFormed hoffer
  obtain ⟨store', happend⟩ : ∃ store', store.append o.block = .ok store' := by
    unfold LedgerStore.append writeRecord
    simp only [if_neg (not_lt.2 hfits)]
    exact ⟨_, rfl⟩
  refine ⟨store', happend, fun ord => ?_⟩
  have hm' := hm.step (.accepted hoffer)
  obtain ⟨store'', m'', hopen, _, hrestores, _⟩ :=
    (hlog.append happend).open_ok hm'.reachable ord
  obtain ⟨sp, g, state, applied, _, hid, _⟩ := Ledger.offer_eq_ok_iff.1 hoffer
  obtain ⟨hnodes, hself⟩ := Ledger.offer_nodes hoffer
  refine ⟨store'', m'', hopen, ?_⟩
  rw [← hrestores.consensus.block, hid, DagView.block,
    DagView.lookup_node ((hnodes _).2 (.inl rfl)), Option.map_some, hself]

omit [Crypto] in
/-- Where a cut inside a length lies, seen from any boundary: in front of it, inside the
length that follows it, or behind the whole record that follows it. -/
theorem InLength.side {blocks before before' after' : List Block} {n : Nat}
    (h : InLength blocks before n) (hsplit' : blocks = before' ++ after') :
    n < logSize before' ∨ (logSize before' < n ∧ n < logSize before' + 8) ∨
      ∃ c rest, after' = c :: rest ∧ logSize before' + (record c).length < n := by
  obtain ⟨block, after, hsplit, _, hlow, hhigh⟩ := h
  rw [hsplit] at hsplit'
  unfold logSize at hlow hhigh ⊢
  rcases List.append_eq_append_iff.1 hsplit' with ⟨more, rfl, hrest⟩ | ⟨more, rfl, hrest⟩
  · cases more with
    | nil =>
        rw [List.append_nil]
        exact .inr (.inl ⟨hlow, hhigh⟩)
    | cons c more =>
        have hblock := length_record_ge block
        rw [List.cons_append] at hrest
        rw [← (List.cons.inj hrest).1, List.flatMap_append, List.flatMap_cons, List.length_append,
          List.length_append]
        exact .inl (by omega)
  · cases more with
    | nil =>
        rw [List.append_nil] at hlow hhigh
        exact .inr (.inl ⟨hlow, hhigh⟩)
    | cons c more =>
        rw [List.flatMap_append, List.flatMap_cons, List.length_append, List.length_append] at hlow
        exact .inr (.inr ⟨c, _, hrest, by omega⟩)

omit [Crypto] in
/-- A cut inside a length is on no boundary. -/
theorem InLength.ne_boundary {blocks before before' after' : List Block} {n : Nat}
    (h : InLength blocks before n) (hsplit' : blocks = before' ++ after') :
    n ≠ logSize before' := by
  rcases h.side hsplit' with hbefore | ⟨hlow, _⟩ | ⟨c, _, _, hbehind⟩ <;> omega

omit [Crypto] in
/-- A cut inside a length is in no body of a record. -/
theorem InLength.ne_body {blocks before before' after' : List Block} {block' : Block} {n r : Nat}
    (h : InLength blocks before n) (hsplit' : blocks = before' ++ block' :: after') (hlow' : 8 ≤ r)
    (hhigh' : r ≤ (record block').length) : n ≠ logSize before' + r := by
  rcases h.side hsplit' with hbefore | ⟨_, hhigh⟩ | ⟨c, rest, hcons, hbehind⟩
  · omega
  · omega
  · rw [← (List.cons.inj hcons).1] at hbehind
    omega

namespace Intact

variable {store : LedgerStore} {l : Ledger} {blocks : List Block}

theorem take_boundary (h : Intact store l blocks) {before after : List Block}
    (hsplit : blocks = before ++ after) : store.file.bytes.take (logSize before) =
      header l.subsidy l.dag.k ++ before.flatMap record ++ [] := by
  have hlen : (header l.subsidy l.dag.k ++ before.flatMap record).length = logSize before := by
    rw [List.length_append, length_header, logSize]
  rw [h.bytes, hsplit, List.flatMap_append, ← List.append_assoc, List.append_nil,
    List.take_left' hlen]

/-- Opening a cut log: an error, or the cut is on a boundary, unless it is inside a
length behind records that are accepted. -/
theorem open_cases (h : Intact store l blocks) {ord : HashOrder} {n : Nat}
    (hn : n ≤ store.file.bytes.length)
    (hcut : ¬ ∃ before, InLength blocks before n ∧
      ∃ m, replay ord l.dag.k l.subsidy before = .ok m) :
    (∃ e, openLog ord (store.file.bytes.take n) = .error (.error e)) ∨
      ∃ before after, blocks = before ++ after ∧ before ≠ [] ∧ n = logSize before := by
  rcases h.cut_cases hn with hheader | ⟨before, after, hsplit, hwhere⟩
  · exact .inl (h.open_header hheader ord)
  by_cases hne : before = []
  · -- in front of the genesis record, or inside it
    left
    subst hne
    rcases hwhere with rfl | ⟨block, rest, r, rfl, _, hlt, rfl⟩
    · obtain ⟨rest, hrest⟩ := h.head
      have hpos := length_record_ge (l.dag.node l.dag.genesis).block
      exact h.open_genesis hrest (r := 0) (by omega) ord
    · exact h.open_genesis hsplit hlt ord
  · rcases hwhere with heq | ⟨block, rest, r, rfl, hpos, hlt, rfl⟩
    · exact .inr ⟨before, after, hsplit, hne, heq⟩
    · left
      by_cases hr : 8 ≤ r
      · exact h.open_body hsplit hne hr hlt ord
      · have hshort : ((record block).take r).length < 8 := by
          rw [List.length_take]
          omega
        rcases h.open_short hsplit hne (h.take_bytes hsplit hlt.le) hshort ord with herror | hok
        · obtain ⟨e, _, hopen⟩ := herror
          exact ⟨e, hopen⟩
        · obtain ⟨file, m, hreplay, _⟩ := hok
          refine absurd ⟨before, ⟨block, rest, hsplit, hne, ?_, ?_⟩, m, hreplay⟩ hcut <;> omega

end Intact

/-- The first records of a log that replays replay too. -/
theorem replay_prefix {ord : HashOrder} {k : KParam} {subsidy : U64} {before after : List Block}
    {m : Ledger} (hne : before ≠ []) (h : replay ord k subsidy (before ++ after) = .ok m) :
    ∃ m', replay ord k subsidy before = .ok m' := by
  have hprefix : ∀ (l : Ledger) (blocks rest : List Block) (m : Ledger),
      l.restoreBlocks ord (blocks ++ rest) = .ok m → ∃ m', l.restoreBlocks ord blocks = .ok m' := by
    intro l blocks
    induction blocks generalizing l with
    | nil => exact fun _ _ _ => ⟨l, rfl⟩
    | cons b blocks ih =>
        intro rest m hm
        simp only [List.cons_append, Ledger.restoreBlocks] at hm ⊢
        cases hblock : l.restoreBlock ord b with
        | error e =>
            rw [hblock] at hm
            cases hm
        | ok l' =>
            rw [hblock] at hm
            exact ih l' rest m hm
  cases before with
  | nil => exact absurd rfl hne
  | cons genesis before =>
      simp only [List.cons_append, replay] at h ⊢
      cases hgenesis : liftReplay (Ledger.restoreGenesis ord k subsidy genesis) with
      | error e =>
          rw [hgenesis] at h
          cases h
      | ok l =>
          rw [hgenesis] at h
          obtain ⟨m', hm'⟩ := hprefix l before after m (liftReplay_eq_ok.1 h)
          exact ⟨m', liftReplay_eq_ok.2 hm'⟩

/-- A cut inside a length behind records that are accepted is not detected: opening
replays these records, where it should fail. -/
theorem InLength.not_detects {store : LedgerStore} {l m : Ledger} {blocks before : List Block}
    {ord : HashOrder} {n : Nat} (hlog : Intact store l blocks) (hin : InLength blocks before n)
    (hreplay : replay ord l.dag.k l.subsidy before = .ok m) : ¬ Detects ord store l blocks n := by
  intro hdetects
  obtain ⟨e, herror⟩ := hdetects.elsewhere fun before' after' hsplit' _ => hin.ne_boundary hsplit'
  obtain ⟨block, after, hsplit, hne, hlow, hhigh⟩ := hin
  obtain ⟨r, rfl⟩ := Nat.exists_eq_add_of_lt hlow
  have hblock := length_record_ge block
  have hbytes := hlog.take_bytes hsplit (r := r + 1) (by omega)
  have hshort : ((record block).take (r + 1)).length < 8 := by
    rw [List.length_take]
    omega
  rw [Nat.add_assoc] at herror
  rcases hlog.open_short hsplit hne hbytes hshort ord with ⟨e', hreplay', _⟩ | hok
  · rw [hreplay] at hreplay'
    cases hreplay'
  · obtain ⟨file, m', _, hopen, _⟩ := hok
    rw [hopen] at herror
    cases herror

/-- Every other cut is detected. -/
theorem Intact.detects {store : LedgerStore} {l : Ledger} {blocks : List Block}
    (hlog : Intact store l blocks) {ord : HashOrder} {n : Nat} (hn : n ≤ store.file.bytes.length)
    (hcut : ¬ ∃ before, InLength blocks before n ∧
      ∃ m, replay ord l.dag.k l.subsidy before = .ok m) : Detects ord store l blocks n := by
  have hcases := hlog.open_cases hn hcut
  refine ⟨fun before after hsplit hne heq => ?_, fun hnone => ?_, ?_⟩
  · rw [heq]
    rcases hlog.open_short hsplit hne (hlog.take_boundary hsplit) (by simp) ord with
      ⟨e, hreplay, hopen⟩ | ⟨file, m, hreplay, hopen, _⟩
    · rw [hopen, hreplay]
      rfl
    · rw [hopen, hreplay]
      rfl
  · rcases hcases with herror | ⟨before, after, hsplit, hne, heq⟩
    · exact herror
    · exact absurd heq (hnone before after hsplit hne)
  · intro store' m o id m' hopen hoffer hfits
    rcases hcases with ⟨e, herror⟩ | ⟨before, after, hsplit, hne, heq⟩
    · rw [hopen] at herror
      cases herror
    · rw [heq] at hopen
      rcases hlog.open_short hsplit hne (hlog.take_boundary hsplit) (by simp) ord with
        ⟨e, _, herror⟩ | ⟨file, m₁, _, hopen₁, hm, _, _, hfollow⟩
      · rw [hopen] at herror
        cases herror
      · obtain ⟨rfl, rfl⟩ := Prod.mk.inj (Except.ok.inj (hopen.symm.trans hopen₁))
        exact (hfollow rfl).append_reopens hm hoffer hfits

/-- The records of a log that opens replay, those before any record too. -/
theorem Intact.replay_before {store : LedgerStore} {l : Ledger} {blocks : List Block}
    (hlog : Intact store l blocks) {ord : HashOrder} {opened : LedgerStore × Ledger}
    (hopen : openLog ord store.file.bytes = .ok opened) {before after : List Block}
    (hsplit : blocks = before ++ after) (hne : before ≠ []) :
    ∃ m, replay ord l.dag.k l.subsidy before = .ok m := by
  have hall : blocks ≠ [] := by
    rw [hsplit]
    exact List.append_ne_nil_of_left_ne_nil hne _
  have hbytes : store.file.bytes = header l.subsidy l.dag.k ++ blocks.flatMap record ++ [] := by
    rw [hlog.bytes, List.append_nil]
  rcases hlog.open_short (List.append_nil blocks).symm hall hbytes (by simp) ord with
    ⟨e, _, herror⟩ | ⟨file, m', hreplay, _⟩
  · rw [hopen] at herror
    cases herror
  · rw [hsplit] at hreplay
    exact replay_prefix hne hreplay

/-- A torn write is detected exactly where the cut is not inside the length of a
record after the genesis record; for a log with records that are refused, where it
is not inside such a length behind records that are all accepted. -/
theorem torn_write_detected_iff {store : LedgerStore} {l : Ledger} {blocks : List Block}
    (h : Log store l blocks) (ord : HashOrder) {n : Nat} (hn : n ≤ store.file.bytes.length) :
    (Detects ord store l blocks n ↔ ¬ ∃ before, InLength blocks before n ∧
        ∃ m, replay ord l.dag.k l.subsidy before = .ok m) ∧
      ((∃ opened, openLog ord store.file.bytes = .ok opened) →
        (Detects ord store l blocks n ↔ ¬ ∃ before, InLength blocks before n)) := by
  have hlog := h.intact
  have hiff : Detects ord store l blocks n ↔ ¬ ∃ before, InLength blocks before n ∧
      ∃ m, replay ord l.dag.k l.subsidy before = .ok m := by
    constructor
    · rintro hdetects ⟨before, hin, m, hreplay⟩
      exact hin.not_detects hlog hreplay hdetects
    · exact hlog.detects hn
  refine ⟨hiff, fun ⟨opened, hopen⟩ => ?_⟩
  rw [hiff]
  refine not_congr (exists_congr fun before => and_iff_left_of_imp fun hin => ?_)
  obtain ⟨block, after, hsplit, hne, _⟩ := hin
  exact hlog.replay_before hopen hsplit hne

end LedgerStore

namespace LedgerStore

open scoped Reference
open Reference (premineTxs spendOffer besideOffer)

/-- A block appended to the log of the premine and its spend, with the write torn in the
body of its record. -/
theorem torn_write_detected_iff_appended : ∃ (store : LedgerStore) (l : Ledger)
    (blocks : List Block) (block : Block) (n : Nat), Log store l (blocks ++ [block]) ∧
    l.dag.len = 2 ∧ logSize blocks + 8 < n ∧ n < store.file.bytes.length ∧
    Detects .sorted store l (blocks ++ [block]) n := by
  have hplay : (Ledger.playNew .sorted 3 1 premineTxs 2 [.offer spendOffer]).bind (fun played =>
      (create .sorted played.2).toOption.bind fun store =>
        (store.append besideOffer.block).toOption.map fun (store' : LedgerStore) =>
          decide (played.2.dag.len = 2 ∧ store'.file.bytes.length < 2 ^ 63 ∧
            20 ≤ (record besideOffer.block).length ∧
            logSize (played.2.dag.orderedBlocks .sorted) + 20 < store'.file.bytes.length)) =
        some true := by
    decide +kernel
  obtain ⟨played, hplayed, hplay⟩ := Option.bind_eq_some_iff.1 hplay
  obtain ⟨store, hcreate, hplay⟩ := Option.bind_eq_some_iff.1 hplay
  obtain ⟨store', happend, hdec⟩ := Option.map_eq_some_iff.1 hplay
  obtain ⟨hlen, hsize, hbody, hcut⟩ := of_decide_eq_true hdec
  have hlog := (Log.create (Ledger.reachable_of_playNew hplayed) (ok_of_toOption hcreate)).append
    (ok_of_toOption happend) hsize
  refine ⟨store', played.2, _, _, _, hlog, hlen, ?_, hcut,
    (torn_write_detected_iff hlog .sorted hcut.le).1.2 ?_⟩
  · omega
  · rintro ⟨before, hin, _⟩
    exact hin.ne_body rfl (by decide) hbody rfl

/-- The log of the two cut one byte behind its genesis record.  It opens, the next block is
appended behind that byte, and the log does not open again. -/
theorem torn_length_opens : ∃ (store : LedgerStore) (l : Ledger) (blocks : List Block) (n : Nat),
    Log store l blocks ∧ n ≤ store.file.bytes.length ∧
    (∃ store' m id m' store'' e, openLog .sorted (store.file.bytes.take n) = .ok (store', m) ∧
      m.offer besideOffer = .ok (id, m') ∧ store'.append besideOffer.block = .ok store'' ∧
      openLog .sorted store''.file.bytes = .error (.error e)) ∧
    ¬ Detects .sorted store l blocks n := by
  have hplay : (Ledger.playNew .sorted 3 1 premineTxs 2 [.offer spendOffer]).bind (fun played =>
      (create .sorted played.2).toOption.bind fun store =>
        let n := 16 + (record (played.2.dag.node played.2.dag.genesis).block).length + 1
        (openLog .sorted (store.file.bytes.take n)).toOption.bind fun opened =>
          (opened.2.offer besideOffer).toOption.bind fun inserted =>
            (opened.1.append besideOffer.block).toOption.map fun (store'' : LedgerStore) =>
              decide (n ≤ store.file.bytes.length ∧
                (encodeBlock besideOffer.block).length ≤ maxRecord ∧
                ∃ e, openLog .sorted store''.file.bytes = .error (.error e))) = some true := by
    decide +kernel
  obtain ⟨played, hplayed, hplay⟩ := Option.bind_eq_some_iff.1 hplay
  obtain ⟨store, hcreate, hplay⟩ := Option.bind_eq_some_iff.1 hplay
  obtain ⟨⟨store', m⟩, hopen, hplay⟩ := Option.bind_eq_some_iff.1 hplay
  obtain ⟨⟨id, m'⟩, hinsert, hplay⟩ := Option.bind_eq_some_iff.1 hplay
  obtain ⟨store'', happend, hplay⟩ := Option.map_eq_some_iff.1 hplay
  obtain ⟨hn, hfits, e, hreopen⟩ := of_decide_eq_true hplay
  have hlog := Log.create (Ledger.reachable_of_playNew hplayed) (ok_of_toOption hcreate)
  refine ⟨store, played.2, _, _, hlog, hn, ⟨store', m, id, m', store'', e, ok_of_toOption hopen,
    ok_of_toOption hinsert, ok_of_toOption happend, hreopen⟩, fun hdetects => ?_⟩
  obtain ⟨store₂, happend₂, hagain⟩ := hdetects.appendable store' m besideOffer id m'
    (ok_of_toOption hopen) (ok_of_toOption hinsert) hfits
  rw [ok_of_toOption happend] at happend₂
  obtain ⟨store₃, m₃, hopen₃, _⟩ := hagain .sorted
  rw [← Except.ok.inj happend₂, hreopen] at hopen₃
  cases hopen₃

end LedgerStore

end Kovanica
