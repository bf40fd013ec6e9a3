import Kovanica.Dag.Tips

/-!
# The mergeset and the size of a past

The backward walk collects what a set of parents adds to the past of the
heaviest of them: each such block once, all of them beside that parent, and
ancestors first.  With the block stored, its `past_size` counts its past.

The walk expands no block that the heaviest parent has in its past, so nothing it collects is
below that parent: `mem_anticone_of_mergesetOrdered`.
-/

namespace Kovanica

open Lib Relation

namespace DagView

variable [Crypto] {d : DagView}

namespace WellFormed

/-- No merged block descends from the heaviest parent, so all of them are in its
anticone. -/
theorem mem_anticone_of_mergesetOrdered (h : d.WellFormed) (hwork : d.totalWork < 2 ^ 128)
    {parents : List BlockId} {sp x : BlockId} (hparents : ∀ p ∈ parents, p ∈ d.nodes)
    (hsp : sp ∈ parents) (hmax : ∀ p ∈ parents, d.chainKey p ≤ d.chainKey sp)
    (hx : x ∈ d.mergesetOrdered sp parents) : x ∈ d.anticone sp := by
  have hmerged := (h.exact.mem_mergesetOrdered (hparents sp hsp) hparents x).1 hx
  obtain ⟨⟨p, hp, hreach⟩, hne, hnot⟩ := hmerged
  have hle : d.chainKey x ≤ d.chainKey p := by
    rcases hreach with heq | hanc
    · rw [heq]
    · exact (h.chainKey_anc_lt hwork hanc).le
  have hmem : x ∈ d.nodes := by
    rcases hreach with heq | hanc
    · rw [heq]
      exact hparents p hp
    · exact h.exact.mem_of_anc hanc
  rw [mem_anticone]
  refine ⟨hmem, hne, hnot, fun hafter => ?_⟩
  have hlt := h.chainKey_anc_lt hwork hafter
  exact absurd (hlt.trans_le (hle.trans (hmax p hp))) (lt_irrefl _)

end WellFormed

end DagView

namespace Dag

variable [Crypto]

/-- The past of a new block: its parents and their pasts. -/
theorem anc_insert {d d' : Dag} (hd : d.WellFormed) {ord : HashOrder} {block : Block}
    {id : BlockId} (hinsert : d.insert ord block = .ok (id, d')) (a : BlockId) :
    d'.Anc a id ↔ ∃ p ∈ block.parents, a = p ∨ d.Anc a p := by
  obtain ⟨sp, g, hadmits, heq⟩ := insert_eq_ok_iff.1 hinsert
  rw [(Prod.mk.inj heq).1, (Prod.mk.inj heq).2]
  exact (addsTop_wire hadmits hd.parents_mem).top

theorem wellFormed_insert {d d' : Dag} (hd : d.WellFormed) {ord : HashOrder} {block : Block}
    {id : BlockId} (hinsert : d.insert ord block = .ok (id, d')) :
    d'.WellFormed ∧ id ∈ d'.nodes := by
  obtain ⟨sp, g, hadmits, heq⟩ := insert_eq_ok_iff.1 hinsert
  rw [(Prod.mk.inj heq).1, (Prod.mk.inj heq).2]
  exact ⟨wellFormed_wire hadmits hd, (mem_wire hadmits).2 (.inl rfl)⟩

/-- The mergeset of any stored parents lists, without repetition and ancestors
first, what they and their pasts add to the heaviest of them; and the block
inserted on them stores the size of its past, which grows with ancestry. -/
theorem mergesetOrdered_spec {d : Dag} (h : Reachable d) (hwork : d.totalWork < 2 ^ 128)
    {parents : List BlockId} {sp : BlockId} (hparents : ∀ p ∈ parents, p ∈ d.nodes)
    (hsp : sp ∈ parents) (hmax : ∀ p ∈ parents, d.chainKey p ≤ d.chainKey sp) :
    (d.mergesetOrdered sp parents).Nodup ∧
      (∀ x, x ∈ d.mergesetOrdered sp parents ↔
        (∃ p ∈ parents, x = p ∨ d.Anc x p) ∧ ¬ (x = sp ∨ d.Anc x sp)) ∧
      (∀ x ∈ d.mergesetOrdered sp parents, x ∈ d.anticone sp) ∧
      ((d.mergesetOrdered sp parents).Pairwise fun a b => ¬ d.Anc b a) ∧
      ∀ ord block id d', block.parents = parents → d.insert ord block = .ok (id, d') →
        (∀ x, d'.Anc x id ↔ ∃ p ∈ parents, x = p ∨ d.Anc x p) ∧
        (d'.node id).pastSize = (d'.past id).card ∧
        ∀ x y, d'.Anc x y → (d'.node x).pastSize < (d'.node y).pastSize := by
  have hd := h.wellFormed
  refine ⟨hd.exact.nodup_mergesetOrdered hparents, fun x => ?_, fun x hx =>
    hd.mem_anticone_of_mergesetOrdered hwork hparents hsp hmax hx,
    hd.pairwise_sortByKey_topoKey _, ?_⟩
  · rw [hd.exact.mem_mergesetOrdered (hparents sp hsp) hparents, not_or]
  · intro ord block id d' hblock hinsert
    obtain ⟨hd', hid⟩ := wellFormed_insert hd hinsert
    refine ⟨fun x => ?_, hd'.past_size id _ (DagView.lookup_node hid), fun x y hxy =>
      hd'.pastSize_lt hxy⟩
    rw [anc_insert hd hinsert, hblock]

end Dag

namespace Dag

open scoped Reference

/-- The parents of the merge: one is heavier, the other is merged. -/
theorem mergesetOrdered_spec_merge : ∃ d : Dag, ∃ sp, d.len = 3 ∧ sp ∈ Reference.merge.parents ∧
    (d.mergesetOrdered sp Reference.merge.parents).length = 1 ∧
    ∀ x ∈ d.mergesetOrdered sp Reference.merge.parents, x ∈ d.anticone sp := by
  have hplay : ((Dag.new .sorted 1 Reference.genesis).insertAll .sorted
      [Reference.left, Reference.right]).map (fun d => (d.len, decide (d.totalWork < 2 ^ 128 ∧
        ∀ p ∈ Reference.merge.parents, p ∈ d.nodes),
        (d.selectParent Reference.merge.parents).map fun sp =>
          (d.mergesetOrdered sp Reference.merge.parents).length)) = some (3, true, some 1) := by
    decide +kernel
  obtain ⟨d, hd, heq⟩ := Option.map_eq_some_iff.1 hplay
  obtain ⟨hlen, hrest⟩ := Prod.mk.inj heq
  obtain ⟨hdec, hsome⟩ := Prod.mk.inj hrest
  obtain ⟨hwork, hparents⟩ := of_decide_eq_true hdec
  obtain ⟨sp, hsp, hcount⟩ := Option.map_eq_some_iff.1 hsome
  have hreach : Reachable d := ⟨.sorted, 1, 1, 0, 0, Reference.noTxs.payload, _,
    Run.start.insertAll hd⟩
  exact ⟨d, sp, hlen, maxByKey_mem hsp, hcount, (mergesetOrdered_spec hreach hwork hparents
    (maxByKey_mem hsp) (le_of_maxByKey hsp)).2.2.1⟩

end Dag

end Kovanica
