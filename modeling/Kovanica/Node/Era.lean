import Kovanica.Lib.Compression
import Kovanica.Lib.Orbit
import Kovanica.Node.Convergence
import Kovanica.Node.Emission

/-!
# A block of the second era

A node receives 999 empty blocks, one on top of the other, and then one that mints the
whole subsidy.  Its past is an era of a thousand blocks, by which issuance is halved.
The empty blocks are all alike but for their parent, so their ids are an orbit, and they
are distinct because the last one differs from all the others.

The blocks are evaluated with BLAKE3 itself, each from the id of the one before.  All else about
the node is proved in general, for a stack of any height up to the era.
-/

namespace Kovanica

open Lib

namespace Node.Era

open scoped Reference
open Reference (vec block noTxs founder)
open Blake3 (Chain Words)

/-! ## The empty blocks -/

/-- The id of the empty block on this one. -/
def next (p : BlockId) : BlockId := (block [p] 0).id

/-- An id with these words. -/
def idOf (c : Chain) : BlockId := ⟨c.bytes⟩

/-- The words hashed for the empty block on this one, up to its timestamp. -/
def header (c : Chain) : Words :=
  ⟨1, 0, c.h0, c.h1, c.h2, c.h3, c.h4, c.h5, c.h6, c.h7, 1, 0, 0, 0, 0, 0⟩

/-- The words of its id. -/
def nextWords (c : Chain) : Chain :=
  (Chain.initial.compress (header c) 64 1).compress
    ⟨0, 0, 8, 0, 0, 0, 0, 0, 0, 0, 0, 0, 0, 0, 0, 0⟩ 24 10

theorem fits_nextWords (c : Chain) : (nextWords c).Fits := Blake3.fits_compress _ _ _ _

theorem parents_block (p : BlockId) (timestampMs : U64) : (block [p] timestampMs).parents = [p] :=
  ascending_singleton p

theorem fits_header {c : Chain} (h : c.Fits) : ∀ w ∈ (header c).toList, w < 2 ^ 32 := by
  have hlist : (header c).toList = [1, 0] ++ c.toList ++ [1, 0, 0, 0, 0, 0] := rfl
  rw [hlist]
  intro w hw
  rw [List.mem_append, List.mem_append] at hw
  rcases hw with (hw | hw) | hw
  · exact (by decide : ∀ w ∈ [1, 0], w < 2 ^ 32) w hw
  · exact h w hw
  · exact (by decide : ∀ w ∈ [1, 0, 0, 0, 0, 0], w < 2 ^ 32) w hw

theorem next_idOf {c : Chain} (h : c.Fits) : next (idOf c) = idOf (nextWords c) := by
  have hpreimage : (block [idOf c] 0).preimage =
      ((header c).toList ++ [0, 0, 8, 0, 0, 0]).flatMap (toLeBytes 4) := by
    have hlist : (header c).toList ++ [0, 0, 8, 0, 0, 0] =
        [1, 0] ++ c.toList ++ [1, 0, 0, 0, 0, 0, 0, 0, 8, 0, 0, 0] := rfl
    have hcount : toLeBytes 8 1 = [1, 0].flatMap (toLeBytes 4) := by decide
    have hrest : toLeBytes 16 1 ++ (toLeBytes 8 0 ++ (toLeBytes 8 0 ++ (toLeBytes 8 8 ++
        toLeBytes 8 0))) = [1, 0, 0, 0, 0, 0, 0, 0, 8, 0, 0, 0].flatMap (toLeBytes 4) := by
      decide
    rw [hlist, List.flatMap_append, List.flatMap_append, ← hcount, ← hrest, Block.preimage,
      parents_block, List.flatMap_singleton]
    simp only [List.append_assoc]
    rfl
  have hlast : [0, 0, 8, 0, 0, 0] ++ List.replicate 10 0 =
      Words.toList ⟨0, 0, 8, 0, 0, 0, 0, 0, 0, 0, 0, 0, 0, 0, 0, 0⟩ := rfl
  have hhash := Blake3.hash_words (header c) (fits_header h)
    (by decide : ∀ w ∈ [0, 0, 8, 0, 0, 0], w < 2 ^ 32) (List.cons_ne_nil _ _) (by decide) hlast
  exact congrArg BlockId.mk ((congrArg Blake3.hash hpreimage).trans hhash)

/-! ## Their ids -/

theorem iterate_next {c : Chain} (h : c.Fits) (i : Nat) :
    (nextWords^[i] c).Fits ∧ next^[i] (idOf c) = idOf (nextWords^[i] c) := by
  induction i with
  | zero => exact ⟨h, rfl⟩
  | succ i ih =>
      rw [Function.iterate_succ_apply', Function.iterate_succ_apply', ih.2]
      exact ⟨fits_nextWords _, next_idOf ih.1⟩

/-- The first word of an id. -/
def firstWord (p : BlockId) : Nat := ofLeBytes (p.bytes.val.take 4)

theorem firstWord_idOf {c : Chain} (h : c.Fits) : firstWord (idOf c) = c.h0 :=
  ofLeBytes_toLeBytes 4 c.h0 (h c.h0 (List.mem_cons_self ..))

/-- The words of the genesis. -/
def start : Chain :=
  ⟨0x5d6a85b2, 0xe6119bd1, 0xd5aba2fa, 0xc6ff7b47, 0xf16ef136, 0x07e69503, 0xfb3b48c4, 0x2109e455⟩

/-- The words of the last empty block. -/
def top : Chain :=
  ⟨0x0ce18edb, 0x06eb5379, 0x4cb592de, 0xc184205c, 0xe8b3a757, 0xdf3a706a, 0x7608955e, 0x7c7c5cb1⟩

/-- These words do not begin as those of the last empty block, or of the block on it. -/
def apart (c : Chain) : Bool := !c.h0.beq 0x0ce18edb && !c.h0.beq 0x8c860609

/-! The orbit in three pieces. -/

def third : Chain :=
  ⟨0xd56566eb, 0x69dcac9b, 0xcb823f7d, 0xc52d26b4, 0x552fcb95, 0x5d8dfcba, 0x34df44fd, 0xf458aa57⟩

def twoThirds : Chain :=
  ⟨0x6abed2d5, 0xd51c0e9c, 0xb6465da7, 0xda1bd2f3, 0x8d2c6ba1, 0x38adba14, 0x4e969d12, 0x5abd8149⟩

theorem advance_start : advance nextWords apart 333 start = some third := by decide +kernel

theorem advance_third : advance nextWords apart 333 third = some twoThirds := by decide +kernel

theorem advance_twoThirds : advance nextWords apart 333 twoThirds = some top := by decide +kernel

theorem advance_top : advance nextWords apart 999 start = some top := by
  have hcount : 999 = 333 + 333 + 333 := rfl
  rw [hcount]
  exact advance_add (advance_add advance_start advance_third) advance_twoThirds

/-- The id of the `i`th empty block; the genesis comes first. -/
def ids (i : Nat) : BlockId := next^[i] (idOf start)

theorem fits_start : start.Fits := by decide

theorem firstWord_ids (i : Nat) : firstWord (ids i) = (nextWords^[i] start).h0 := by
  obtain ⟨hfits, heq⟩ := iterate_next fits_start i
  rw [ids, heq, firstWord_idOf hfits]

theorem ids_top : ids 999 = idOf top := by
  rw [(advance_eq_some advance_top).1]
  exact (iterate_next fits_start _).2

/-- The first words that are ruled out on the way. -/
theorem firstWord_ids_ne {i : Nat} (hi : i < 999) :
    firstWord (ids i) ≠ 0x0ce18edb ∧ firstWord (ids i) ≠ 0x8c860609 := by
  have happart := (advance_eq_some advance_top).2 i hi
  rw [apart, Bool.and_eq_true, Bool.not_eq_true', Bool.not_eq_true', ← firstWord_ids] at happart
  exact ⟨Nat.ne_of_beq_eq_false happart.1, Nat.ne_of_beq_eq_false happart.2⟩

theorem ids_ne {i j : Nat} (hij : i < j) (hj : j ≤ 999) : ids i ≠ ids j := by
  refine iterate_ne_of_last (fun i hi heq => (firstWord_ids_ne hi).1 ?_) hij hj
  have htop : firstWord (ids 999) = 0x0ce18edb := by
    rw [ids_top]
    decide
  exact (congrArg firstWord heq).trans htop

/-! ## Received on the tips -/

/-- The record of a block on this one with these transactions. -/
def recordOn (p : BlockId) (txs : TxList) : BlockRecord := ⟨vec [p], 1, 0, 0, txs⟩

/-- What a record on the only tip leads to, where it is new and its transactions apply. -/
theorem receiveBlock_onTip {n : Node} {l : Ledger} (hn : n.Reachable) (hledger : n.ledger = some l)
    (hpow : l.dag.requirePow = false) (hroom : l.dag.len + 1 < mapCapacity) {p : BlockId}
    (htip : ∀ q, q ∈ l.dag.tips ↔ q = p) {txs : TxList}
    (hfresh : (recordOn p txs).block.id ∉ l.dag.nodes) {state : UtxoSet}
    (hstate : l.ledgerState .sorted = some state) {applied : UtxoSet × BlockSummary}
    (happly : applyBlock state txs.val l.subsidy = .ok applied) :
    ∃ n' l', n.receiveBlock ⟨.sorted, 0⟩ (recordOn p txs) =
        .ok ((recordOn p txs).block.id, n') ∧ n'.ledger = some l' ∧
      l.offer (offerOf ⟨.sorted, 0⟩ (recordOn p txs)) = .ok ((recordOn p txs).block.id, l') ∧
        l.OnTips (vec [p]) := by
  have hplain := hn.plain hledger
  have hl := hplain.unbounded.reachable.wellFormed
  have htips : l.OnTips (vec [p]) := fun q => List.mem_singleton.trans (htip q).symm
  obtain ⟨g, hdata⟩ := exists_ghostdag hl.dag .sorted (htips.block 1 0 0 txs)
  have hpolicy := Ledger.checkPolicy_of_none hplain.difficulty_eq hpow (recordOn p txs).block
    l.dag.selectedTip
  have hoffer : l.offer (offerOf ⟨.sorted, 0⟩ (recordOn p txs)) =
      .ok ((recordOn p txs).block.id, _) := (hl.insert_tips_iff hstate htips rfl).2
    ⟨g, applied, hdata, happly, hfresh, hpolicy, hroom, rfl⟩
  have hstate' := (hplain.offer hoffer).unbounded.ledgerState .sorted
  have htime : n.InTime ⟨.sorted, 0⟩ (recordOn p txs) := Nat.zero_le _
  obtain ⟨n', hreceive, hkept⟩ := receiveBlock_of_accepted hledger htime hoffer hstate'
  exact ⟨n', _, hreceive, hkept.1, hoffer, htips⟩

/-- A node that has received the first `i` of the empty blocks.  They are a chain, so its only tip
is the last of them, and no transaction but the premine is in any. -/
structure Stacked (n : Node) (l : Ledger) (i : Nat) : Prop where
  session : Session n []
  ledger_eq : n.ledger = some l
  subsidy_eq : l.subsidy = 10
  requirePow : l.dag.requirePow = false
  len_eq : l.dag.len = i + 1
  tip : ∀ p, p ∈ l.dag.tips ↔ p = ids i
  nodes : ∀ x, x ∈ l.dag.nodes ↔ ∃ j ≤ i, x = ids j
  txs : ∀ x ∈ l.dag.nodes, ∀ tx ∈ l.dag.blockTxs x, tx = genesisCoinbase 10 1

/-- The next one is received. -/
theorem Stacked.step {n : Node} {l : Ledger} {i : Nat} (h : Stacked n l i) (hi : i < 999) :
    ∃ n' l', Stacked n' l' (i + 1) := by
  have hn := h.session.reachable
  have hunbounded := (hn.plain h.ledger_eq).unbounded
  have hl := hunbounded.reachable.wellFormed
  have hid : (recordOn (ids i) noTxs).block.id = ids (i + 1) :=
    (Function.iterate_succ_apply' next i (idOf start)).symm
  have hroom : l.dag.len + 1 < mapCapacity := by
    rw [h.len_eq, mapCapacity]
    omega
  have hfresh : (recordOn (ids i) noTxs).block.id ∉ l.dag.nodes := by
    rw [hid, h.nodes]
    rintro ⟨j, hj, heq⟩
    exact ids_ne (by omega) (by omega) heq.symm
  have hstate := hunbounded.ledgerState .sorted
  obtain ⟨n', l', hreceive, hledger', hoffer, htips⟩ := receiveBlock_onTip hn h.ledger_eq
    h.requirePow hroom h.tip hfresh hstate (applyBlock_nil _ _)
  rw [hid] at hreceive hoffer
  have hstep : Ledger.Step l (.offer _) l' := .accepted hoffer
  have hsame := hstep.sameParameters
  have hnodes : ∀ x, x ∈ l'.dag.nodes ↔ x = ids (i + 1) ∨ x ∈ l.dag.nodes := by
    rw [← hid]
    exact (Ledger.offer_nodes hoffer).1
  obtain ⟨_, _, hnone, _⟩ := hunbounded.view_tips hoffer htips hstate
  refine ⟨n', l', h.session.receiveBlock hreceive, hledger', ?_, ?_, ?_, ?_, ?_, ?_⟩
  · rw [← hsame.subsidy_eq, h.subsidy_eq]
  · rw [hstep.policy_eq.2, h.requirePow]
  · rw [Ledger.len_offer hoffer, h.len_eq]
  · exact Ledger.tips_offer hoffer htips
  · intro x
    rw [hnodes, h.nodes]
    constructor
    · rintro (rfl | ⟨j, hj, rfl⟩)
      · exact ⟨i + 1, le_rfl, rfl⟩
      · exact ⟨j, by omega, rfl⟩
    · rintro ⟨j, hj, rfl⟩
      rcases Nat.lt_or_ge j (i + 1) with hlt | hge
      · exact .inr ⟨j, by omega, rfl⟩
      · rw [Nat.le_antisymm hj hge]
        exact .inl rfl
  · intro x hx tx htx
    rcases (hnodes x).1 hx with rfl | hold
    · rw [hnone] at htx
      exact absurd htx List.not_mem_nil
    · rw [(hstep.keeps hl hold).2.1] at htx
      exact h.txs x hold tx htx

/-- A node at its genesis. -/
theorem exists_stacked_zero : ∃ n l, Stacked n l 0 := by
  have hcheck : (Node.new.genesis ⟨.sorted, 0⟩ 3 10 10 1).toOption.isSome = true := by
    decide +kernel
  have hid : (Block.genesis 1 0 0 (genesisTxs 10 1).payload).id = ids 0 := by
    decide +kernel
  obtain ⟨⟨r, n⟩, hgenesis⟩ := Option.isSome_iff_exists.1 hcheck
  have hgenesis := ok_of_toOption hgenesis
  obtain ⟨l, hnew, hledger⟩ := genesis_eq_ok hgenesis
  obtain ⟨applied, _, heq⟩ := Ledger.new_eq_ok_iff.1 hnew
  have hlookup : l.dag.nodes.lookup (ids 0) =
      some ⟨.genesis 1 0 0 (genesisTxs 10 1).payload, 0, ∅, .genesis⟩ := by
    rw [heq, ← hid]
    exact Finmap.lookup_singleton_eq
  have hmem : ∀ x, x ∈ l.dag.nodes ↔ x = ids 0 := by
    intro x
    rw [heq, ← hid]
    exact Finmap.mem_singleton _ _ _
  have hblock : l.dag.blockTxs (ids 0) = [genesisCoinbase 10 1] := by
    have hpayload : (l.dag.node (ids 0)).block.payload = (genesisTxs 10 1).payload := by
      rw [DagView.node_of_lookup hlookup]
      rfl
    exact Ledger.blockTxs_of_payload hpayload
  refine ⟨n, l, Session.new.genesis hgenesis, hledger, ?_, ?_, ?_, ?_, ?_, ?_⟩
  · rw [heq]
  · rw [heq]
    rfl
  · rw [heq]
    rfl
  · intro p
    rw [heq, ← hid]
    exact Finset.mem_singleton
  · intro x
    rw [hmem]
    constructor
    · rintro rfl
      exact ⟨0, le_rfl, rfl⟩
    · rintro ⟨j, hj, rfl⟩
      rw [Nat.le_zero.1 hj]
  · intro x hx tx htx
    rw [(hmem x).1 hx, hblock] at htx
    exact List.mem_singleton.1 htx

theorem exists_stacked {i : Nat} (hi : i ≤ 999) : ∃ n l, Stacked n l i := by
  induction i with
  | zero => exact exists_stacked_zero
  | succ i ih =>
      obtain ⟨n, l, h⟩ := ih (by omega)
      exact h.step (by omega)

/-! ## The block on them -/

/-- The whole subsidy to the founder. -/
def whole : Transaction := .coinbase [⟨10, founder⟩] []

def wholeTxs : TxList := ⟨[whole], by decide +kernel⟩

theorem whole_fresh {n : Node} {l : Ledger} (h : Stacked n l 999) {state : UtxoSet}
    (hstate : l.ledgerState .sorted = some state) : (⟨whole.id, 0⟩ : OutPoint) ∉ state := by
  have hunbounded := (h.session.reachable.plain h.ledger_eq).unbounded
  rw [← Option.some.inj ((hunbounded.ledgerState .sorted).symm.trans hstate)]
  intro hmem
  obtain ⟨output, houtput⟩ := Finmap.mem_iff.1 hmem
  obtain ⟨x, hx, tx, htx, horigin⟩ := origin_of_replay houtput
  have hstored := (hunbounded.reachable.wellFormed.dag.mem_linearize .sorted x).1 hx
  have hid : whole.id = (genesisCoinbase 10 1).id := by
    rw [← h.txs x hstored tx htx]
    exact horigin.tx_eq
  exact absurd hid (by decide +kernel)

theorem whole_applies {state : UtxoSet} (hfresh : (⟨whole.id, 0⟩ : OutPoint) ∉ state) :
    ∃ next, applyBlock state [whole] 10 = .ok (next, ⟨0, 10⟩) := by
  refine ⟨state.insert ⟨whole.id, 0⟩ ⟨10, founder⟩, ?_⟩
  have hspends : ∀ tx ∈ ([] : List Transaction), tx.isCoinbase = false :=
    fun _ h => absurd h List.not_mem_nil
  have hcoinbase : ∀ cb ∈ some whole, cb.isCoinbase = true := by
    intro cb hcb
    rw [← Option.mem_some_iff.1 hcb]
    rfl
  refine (applyBlock_spends_iff hcoinbase hspends).2 ⟨[], state, 10, .nil, rfl, rfl, ?_⟩
  exact (applyLast_reward_iff rfl).2 ⟨by decide, le_rfl, hfresh, rfl, rfl⟩

theorem whole_unknown {n : Node} {l : Ledger} (h : Stacked n l 999) :
    (recordOn (ids 999) wholeTxs).block.id ∉ l.dag.nodes := by
  have hword : firstWord (recordOn (idOf top) wholeTxs).block.id = 0x8c860609 := by
    decide +kernel
  rw [ids_top, h.nodes]
  rintro ⟨j, hj, heq⟩
  rw [heq] at hword
  rcases Nat.lt_or_ge j 999 with hlt | hge
  · exact (firstWord_ids_ne hlt).2 hword
  · rw [Nat.le_antisymm hj hge, ids_top] at hword
    exact absurd hword (by decide)

/-- A node may hold a block that mints more than the issuance of its height and its fees. -/
theorem receive_exceeds_schedule : ∃ n l x, Session n [] ∧ n.ledger = some l ∧
    x ∈ l.dag.nodes ∧ x ≠ l.genesis ∧
    ¬ l.MintsWithin x (issuanceAt l.subsidy (Word.cast 64 (l.dag.node x).pastSize)).val := by
  obtain ⟨n, l, h⟩ := exists_stacked le_rfl
  have hn := h.session.reachable
  have hunbounded := (hn.plain h.ledger_eq).unbounded
  have hl := hunbounded.reachable.wellFormed
  have hstate := hunbounded.ledgerState .sorted
  have hroom : l.dag.len + 1 < mapCapacity := by
    rw [h.len_eq, mapCapacity]
    omega
  have hunknown := whole_unknown h
  obtain ⟨next, happly⟩ := whole_applies (whole_fresh h hstate)
  rw [← h.subsidy_eq] at happly
  obtain ⟨n', l', hreceive, hledger', hoffer, htips⟩ := receiveBlock_onTip hn h.ledger_eq
    h.requirePow hroom h.tip hunknown hstate happly
  have hstep : Ledger.Step l (.offer _) l' := .accepted hoffer
  have hsame := hstep.sameParameters
  obtain ⟨hmem, hview, htxs, hpast⟩ := hunbounded.view_tips hoffer htips hstate
  refine ⟨n', l', _, h.session.receiveBlock hreceive, hledger', hmem, ?_, ?_⟩
  · intro heq
    rw [← (hstep.wellFormed hl).genesis_eq, ← hsame.genesis_eq] at heq
    exact hunknown (heq ▸ hl.dag.genesis_mem)
  · rintro ⟨next', summary, happly', hle⟩
    rw [hview, htxs, ← hsame.subsidy_eq] at happly'
    obtain ⟨_, rfl⟩ := Prod.mk.inj (Except.ok.inj (happly.symm.trans happly'))
    rw [htxs, hpast, h.len_eq, ← hsame.subsidy_eq, h.subsidy_eq] at hle
    exact absurd hle (by decide +kernel)

end Node.Era

end Kovanica
