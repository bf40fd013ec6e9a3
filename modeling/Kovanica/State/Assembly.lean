import Kovanica.State.Restore
import Kovanica.State.Structure

/-!
# What a block on all tips is checked against

The heaviest of the tips is the selected one, and what the others add to it is the
tail of the linearization.  The view of a block on all tips is therefore the
ledger's own state, and a block without transactions stores that state.

## Main results

* `WellFormed.viewState_tips`: the view of a block on all tips.
* `WellFormed.insert_tips_iff`: when such a block is accepted.
-/

namespace Kovanica

open Lib

section Empty

variable [Crypto]

/-- Without transactions nothing changes. -/
theorem applyBlock_nil (utxo : UtxoSet) (subsidy : U64) :
    applyBlock utxo [] subsidy = .ok (utxo, ⟨0, 0⟩) := by
  have hallowed : Word.checkedAdd subsidy 0 = some subsidy :=
    Word.checkedAdd_eq_some.2 rfl
  simp only [applyBlock, applyTxs, hallowed, applyLast]

end Empty

namespace Ledger

variable [Crypto] {l : Ledger} {parents : Vec BlockId}

/-- The call builds on the tips, on all of them and on nothing else, as the calls of a node do that
produce blocks. -/
def OnTips (l : Ledger) (parents : Vec BlockId) : Prop := ∀ p, p ∈ parents.val ↔ p ∈ l.dag.tips

omit [Crypto] in
theorem OnTips.block {l : Ledger} (h : l.OnTips parents) (work : U128) (timestampMs nonce : U64)
    (txs : TxList) (p : BlockId) :
    p ∈ (blockOf parents work timestampMs nonce txs).parents ↔ p ∈ l.dag.tips := by
  rw [blockOf, Block.mem_parents_new, h p]

/-- The view of a block on all tips is the ledger's state. -/
theorem WellFormed.viewState_tips (hl : l.WellFormed) (ord : HashOrder) {parents : List BlockId}
    (hparents : ∀ p, p ∈ parents ↔ p ∈ l.dag.tips) :
    l.viewState ⟨l.dag.selectedTip, l.dag.mergesetOrdered l.dag.selectedTip parents⟩ =
      l.ledgerState ord := by
  rw [ledgerState_eq_tail hl, viewState, hl.dag.mergesetOrdered_tips ord hparents]

/-- What `preview` answers for a block on all tips: the selected tip, and the blocks
the linearization lists after it. -/
theorem WellFormed.preview_tips (hl : l.WellFormed) (ord : HashOrder) {block : Block}
    (hparents : ∀ p, p ∈ block.parents ↔ p ∈ l.dag.tips) {preview : BlockPreview}
    (h : l.dag.preview block = .ok preview) :
    preview.selectedParent = l.dag.selectedTip ∧
      l.dag.linearize ord = l.dag.orderBefore l.dag.selectedTip ++
        l.dag.selectedTip :: preview.mergeset ∧
      l.viewState preview = l.ledgerState ord := by
  have hsel := hl.dag.selectParent_tips hparents
  unfold DagView.preview at h
  split at h
  · cases h
  rw [hsel, Option.getD_some] at h
  have heq := Except.ok.inj h
  rw [← heq]
  refine ⟨rfl, ?_, hl.viewState_tips ord hparents⟩
  show l.dag.linearize ord = l.dag.orderBefore l.dag.selectedTip ++
    l.dag.selectedTip :: l.dag.mergesetOrdered l.dag.selectedTip block.parents
  rw [hl.dag.mergesetOrdered_tips ord hparents, hl.dag.linearize_at_tip ord]

/-- A block on all tips is accepted where its transactions apply to the ledger's state,
it is new, the policies admit it and there is room for it. -/
theorem WellFormed.insert_tips_iff (hl : l.WellFormed) {ord : HashOrder} {before : UtxoSet}
    (hbefore : l.ledgerState ord = some before) (htips : l.OnTips parents) {work : U128}
    {timestampMs nonce : U64} {txs : TxList} {block : Block}
    (hblock : blockOf parents work timestampMs nonce txs = block) {r : BlockId × Ledger} :
    l.insert ord parents work timestampMs nonce txs = .ok r ↔
      ∃ g applied, l.dag.computeGhostdag ord block.parents = some g ∧
        applyBlock before txs.val l.subsidy = .ok applied ∧ block.id ∉ l.dag.nodes ∧
        l.dag.checkPolicy block l.dag.selectedTip = .ok () ∧ l.dag.len + 1 < mapCapacity ∧
        r = (block.id, (l.grown block l.dag.selectedTip g applied.1).prune ord) := by
  have hparents : ∀ p, p ∈ block.parents ↔ p ∈ l.dag.tips := by
    rw [← hblock]
    exact htips.block work timestampMs nonce txs
  have hsel := hl.dag.selectParent_tips hparents
  have hview := (hl.viewState_tips ord hparents).trans hbefore
  rw [insert_eq_ok_iff, hblock]
  constructor
  · rintro ⟨sp, g, state, applied, haccepts, hr⟩
    have hsp : sp = l.dag.selectedTip :=
      Option.some.inj (haccepts.admits.selectParent_eq.symm.trans hsel)
    rw [hsp] at haccepts hr
    have happlies := haccepts.applies
    rw [viewState, haccepts.stored, Option.map_some, Option.some.injEq] at hview
    rw [hview] at happlies
    exact ⟨g, applied, haccepts.admits.data, happlies, haccepts.admits.fresh,
      haccepts.admits.policy, haccepts.admits.room, hr⟩
  · rintro ⟨g, applied, hdata, happly, hfresh, hpolicy, hroom, hr⟩
    obtain ⟨state, hstate, hfold⟩ := Option.map_eq_some_iff.1 hview
    have hmem : ∀ p ∈ block.parents, p ∈ l.dag.nodes := fun p hp =>
      ((hl.dag.tips_iff p).1 ((hparents p).1 hp)).1
    have hne : block.parents ≠ [] :=
      List.ne_nil_of_mem ((hparents _).2 hl.dag.selectedTip_spec.1)
    have hvalid : l.dag.runValidator block = .ok () := by
      rw [← hblock]
      exact runValidator_of_applyBlock hl happly
    have hselected := (DagView.computeGhostdag_selectedParent hdata).trans hsel
    have hscore : l.finalityScore ≤ l.dag.blueScore l.dag.selectedTip := by
      have hnot := not_final_selectedTip l
      rw [Final, not_and, not_lt] at hnot
      exact hnot hl.dag.selectedTip_mem
    rw [← hfold] at happly
    exact ⟨_, g, state, applied,
      ⟨⟨hfresh, hne, hmem, hvalid, hdata, hselected, hpolicy, hroom⟩, hscore, hstate, happly⟩, hr⟩

/-- Block assembly sees the state validation will use.  On an unbounded ledger the
view of a block on all tips is the ledger's state: its selected parent is the selected
tip, and its mergeset is what the linearization lists after that tip, in that order.
A block without transactions then stores this state. -/
theorem assembly_sees_ledgerState (h : l.Unbounded) (ord : HashOrder)
    (htips : l.OnTips parents) :
    ∃ before, l.ledgerState ord = some before ∧
      (∀ work timestampMs nonce txs preview,
        l.dag.preview (blockOf parents work timestampMs nonce txs) = .ok preview →
          preview.selectedParent = l.dag.selectedTip ∧
          l.dag.linearize ord = l.dag.orderBefore l.dag.selectedTip ++
            l.dag.selectedTip :: preview.mergeset ∧
          l.viewState preview = some before) ∧
      ∀ (ord' : HashOrder) work timestampMs nonce txs id l', txs.val = [] →
        l.insert ord' parents work timestampMs nonce txs = .ok (id, l') →
          l'.state id = some before := by
  have hl := h.reachable.wellFormed
  obtain ⟨before, hbefore⟩ : ∃ before, ∀ ord, l.ledgerState ord = some before :=
    ⟨_, fun ord' => (h.ledgerState_ord ord' ord).trans (h.ledgerState ord)⟩
  refine ⟨before, hbefore ord, fun work timestampMs nonce txs preview hpreview => ?_,
    fun ord' work timestampMs nonce txs id l' hempty hinsert => ?_⟩
  · rw [← hbefore ord]
    exact hl.preview_tips ord (OnTips.block htips work timestampMs nonce txs) hpreview
  · obtain ⟨g, applied, _, happly, _, _, _, hr⟩ :=
      (hl.insert_tips_iff (hbefore ord') htips rfl).1 hinsert
    rw [hempty, applyBlock_nil] at happly
    have hsame : before = applied.1 := congrArg Prod.fst (Except.ok.inj happly)
    obtain ⟨rfl, rfl⟩ := Prod.mk.inj hr
    have hdepth : (l.grown (blockOf parents work timestampMs nonce txs) l.dag.selectedTip g
        applied.1).finalityDepth = Word.maxValue 64 := h.depth
    rw [Ledger.state, prune_of_depth hdepth, hsame]
    exact Finmap.lookup_insert _

end Ledger

namespace Ledger

open scoped Reference
open Reference (premineTxs noTxs spendOffer besideOffer)

/-- A spend next to an empty block, and an empty block on both. -/
theorem assembly_sees_ledgerState_merge : ∃ (l l' : Ledger) (id : BlockId) (before : UtxoSet),
    l.ledgerState .sorted = some before ∧
      l.offer (.on [spendOffer.block.id, besideOffer.block.id] 1 3 noTxs) = .ok (id, l') ∧
      l'.state id = some before := by
  have hplay : (playNew .sorted 3 1 premineTxs (Word.maxValue 64) [.offer spendOffer,
      .offer besideOffer]).map (fun played => decide (
        played.2.finalityDepth = Word.maxValue 64 ∧
        played.2.dag.tips = {spendOffer.block.id, besideOffer.block.id} ∧
        played.2.Accepted (.on [spendOffer.block.id, besideOffer.block.id] 1 3 noTxs))) =
          some true := by
    decide +kernel
  obtain ⟨played, hplayed, hdec⟩ := Option.map_eq_some_iff.1 hplay
  obtain ⟨hdepth, htips, id, l', haccepted⟩ := of_decide_eq_true hdec
  have hl : played.2.Unbounded := ⟨reachable_of_playNew hplayed, hdepth⟩
  have hparents : played.2.OnTips (Reference.vec [spendOffer.block.id, besideOffer.block.id]) := by
    intro p
    rw [htips]
    simp [Reference.vec, Vec.ofList?]
  obtain ⟨before, hbefore, _, hstores⟩ := assembly_sees_ledgerState hl .sorted hparents
  exact ⟨played.2, l', id, before, hbefore, haccepted,
    hstores .sorted 1 3 0 noTxs id l' rfl haccepted⟩

end Ledger

end Kovanica
