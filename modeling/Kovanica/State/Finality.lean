import Kovanica.State.Refinement

/-!
# Finality over whole runs

The finality threshold follows the selected tip's blue score, but the tip is
selected by blue work first.  Pruning is exact, and the selected parent's state
always there, as long as no accepted block hands the selection to a tip of
smaller score.  A block that is final on the selected chain stays there as long
as every accepted block that takes the selection over has the highest block that
was final before on the chain of its selected parent.  Both conditions are read
off the block that is offered and the ledger before the insert, and both are
exact: both results are equivalences over runs.

## Main results

* `prunedExactly_accepted`, `finalityScore_accepted`: what an accepted block does to the stored
  states and to the threshold.
* `tipAfter_cases`: which tip is selected next.
* `anchor_mem_iff`: of all that has been final it is enough to ask for the highest.
* `pruningSafe_step_iff`, `Step.settled_iff`: both properties, one call at a time.
-/

namespace Kovanica

open Lib Relation

namespace DagView

variable [Crypto]

/-- The blue score of the tip that will be selected. -/
def scoreAfter (d : DagView) (block : Block) (g : GhostdagData) : Nat :=
  if d.tipAfter block g = block.id then g.blueScore else d.blueScore (d.tipAfter block g)

/-- The stored blocks of the chain that will be selected. -/
def chainAfter (d : DagView) (block : Block) (g : GhostdagData) : List BlockId :=
  if d.tipAfter block g = block.id then d.chainTo (g.selectedParent.getD d.genesis)
  else d.chainTo (d.tipAfter block g)

/-- A block of one chain that is no higher than a block common to two chains is on
both. -/
theorem WellFormed.mem_of_blueScore_le {d : DagView} (h : d.WellFormed) {a b x y : BlockId}
    (ha : a ∈ d.nodes) (hb : b ∈ d.nodes) (hx : x ∈ d.chainTo a) (hya : y ∈ d.chainTo a)
    (hyb : y ∈ d.chainTo b) (hle : d.blueScore x ≤ d.blueScore y) : x ∈ d.chainTo b := by
  have hyMem := h.mem_of_mem_chainTo hb hyb
  have hxa := (h.mem_chainTo ha).1 hx
  have hya := (h.mem_chainTo ha).1 hya
  have hyb := (h.mem_chainTo hb).1 hyb
  rw [h.mem_chainTo hb]
  rcases tree_ancestors_total hxa hya with hxy | hyx
  · exact hxy.trans hyb
  · have hxMem := h.mem_of_mem_chainTo ha hx
    rcases ReflTransGen.cases_tail hyx with rfl | ⟨z, hyz, hzx⟩
    · exact hyb
    · have hlt := h.blueScore_lt hzx
      have hmem := (h.selectedParent_mem hzx).1
      have hge := h.blueScore_le_of_mem_chainTo hmem ((h.mem_chainTo hmem).2 hyz)
      omega

theorem WellFormed.genesis_mem_chainTo {d : DagView} (h : d.WellFormed) {x : BlockId}
    (hx : x ∈ d.nodes) : d.genesis ∈ d.chainTo x :=
  (h.mem_chainTo hx).2 (h.tree.rooted x (Finmap.mem_keys.2 hx))

end DagView

/-! ## The selection after an insert -/

namespace Dag

variable [Crypto] {d : Dag} {block : Block} {sp : BlockId} {g : GhostdagData} {ord : HashOrder}
  (h : Admits ord d block sp g) (hd : d.WellFormed)

include h hd

theorem tipAfter_mem (hne : d.tipAfter block g ≠ block.id) : d.tipAfter block g ∈ d.nodes := by
  have hmem := (wellFormed_wire h hd).selectedTip_mem
  rw [selectedTip_wire h hd, mem_wire h] at hmem
  exact hmem.resolve_left hne

theorem blueScore_selectedTip_wire :
    (d.wire block sp g).blueScore (d.wire block sp g).selectedTip = d.scoreAfter block g := by
  rw [selectedTip_wire h hd, DagView.scoreAfter]
  by_cases hself : d.tipAfter block g = block.id
  · rw [if_pos hself, hself, DagView.blueScore, DagView.node_of_lookup lookup_wire_self]
  · rw [if_neg hself, blueScore_wire h hd (tipAfter_mem h hd hself)]

/-- The old blocks on the chain selected after the insert. -/
theorem mem_selectedChain_wire {x : BlockId} (hx : x ∈ d.nodes) :
    x ∈ (d.wire block sp g).selectedChain ↔ x ∈ d.chainAfter block g := by
  have hne : x ≠ block.id := fun heq => h.fresh (heq ▸ hx)
  rw [DagView.selectedChain, selectedTip_wire h hd, DagView.chainAfter]
  by_cases hself : d.tipAfter block g = block.id
  · rw [if_pos hself, hself, chainTo_wire_self h hd, h.selected, Option.getD_some,
      List.mem_append, List.mem_singleton, or_iff_left hne]
  · rw [if_neg hself, chainTo_wire h hd (tipAfter_mem h hd hself)]

/-- The chain after the insert is the chain of some stored block, with the new
block on top or not. -/
theorem exists_chainAfter : ∃ b ∈ d.nodes, d.chainAfter block g = d.chainTo b := by
  rw [DagView.chainAfter]
  by_cases hself : d.tipAfter block g = block.id
  · rw [if_pos hself, h.selected, Option.getD_some]
    exact ⟨sp, h.parents_mem sp h.selectedParent_mem, rfl⟩
  · rw [if_neg hself]
    exact ⟨_, tipAfter_mem h hd hself, rfl⟩

/-- The new block is selected if it is as heavy as every tip it does not build on, and the
heaviest of these tips is otherwise. -/
theorem tipAfter_cases :
    (d.tipAfter block g = block.id ∧
      ∀ t ∈ d.tipList, t ∉ block.parents → d.chainKey t ≤ DagView.keyOf g block.id) ∨
    ∃ rival, maxByKey d.chainKey (d.tipList.filter fun t => t ∉ block.parents) = some rival ∧
      DagView.keyOf g block.id < d.chainKey rival ∧ d.tipAfter block g = rival ∧
      rival ≠ block.id ∧
      ¬ ∀ t ∈ d.tipList, t ∉ block.parents → d.chainKey t ≤ DagView.keyOf g block.id := by
  rw [DagView.tipAfter]
  cases hrival : maxByKey d.chainKey (d.tipList.filter fun t => t ∉ block.parents) with
  | none =>
      refine .inl ⟨rfl, fun t ht hnot => ?_⟩
      have hnil := List.filter_eq_nil_iff.1 (maxByKey_eq_none.1 hrival) t ht
      exact absurd (decide_eq_true hnot) hnil
  | some rival =>
      obtain ⟨hmem, hother⟩ := List.mem_filter.1 (maxByKey_mem hrival)
      by_cases hlt : DagView.keyOf g block.id < d.chainKey rival
      · refine .inr ⟨rival, rfl, hlt, if_pos hlt, ?_, fun hall => ?_⟩
        · rintro rfl
          exact h.fresh ((hd.tips_iff _).1 (mem_ascending.1 hmem)).1
        · exact absurd hlt (not_lt.2 (hall rival hmem (of_decide_eq_true hother)))
      · refine .inl ⟨if_neg hlt, fun t ht hnot => ?_⟩
        have hle := le_of_maxByKey hrival t (List.mem_filter.2 ⟨ht, by simpa using hnot⟩)
        exact hle.trans (not_lt.1 hlt)

end Dag

namespace Ledger

variable [Crypto]

/-! ## What a run keeps -/

theorem Step.agreeOn {l l' : Ledger} {a : Action} (hl : l.WellFormed) (h : Step l a l') :
    DagView.AgreeOn {x | x ∈ l.dag.nodes} l.dag.toDagView l'.dag.toDagView ∧
      l'.finalityDepth = l.finalityDepth := by
  have hrefl := Dag.agreeOn_refl hl.dag.parents_mem
  cases h with
  | accepted hinsert =>
      obtain ⟨sp, g, state, applied, haccepts, _, rfl⟩ := offer_eq_ok_iff.1 hinsert
      rw [prune_dag, prune_finalityDepth]
      exact ⟨Dag.agreeOn_wire haccepts.admits hl.dag.parents_mem, rfl⟩
  | refused _ => exact ⟨hrefl, rfl⟩
  | difficulty _ => exact ⟨⟨rfl, hrefl.core, hrefl.closed⟩, rfl⟩
  | proofOfWork _ => exact ⟨⟨rfl, hrefl.core, hrefl.closed⟩, rfl⟩

/-- What an earlier ledger of a run stores is stored unchanged in the last one. -/
theorem Run.agreeOn {l₀ l : Ledger} {trace : List (Ledger × Action)} (h₀ : l₀.WellFormed)
    (h : Run l₀ trace l) : ∀ p ∈ trace,
      DagView.AgreeOn {x | x ∈ p.1.dag.nodes} p.1.dag.toDagView l.dag.toDagView := by
  induction h with
  | start => exact fun p hp => absurd hp List.not_mem_nil
  | @step trace l l' a hrun hstep ih =>
      have hl := hrun.wellFormed h₀
      have hlast := (hstep.agreeOn hl).1
      intro p hp
      rcases List.mem_append.1 hp with hp | hp
      · have hpl := ih p hp
        exact Dag.agreeOn_trans hpl hlast fun x hx => hpl.symm.mem hx
      · rw [List.mem_singleton.1 hp]
        exact hlast

/-- The ledgers of a run, the last one included. -/
def ledgers (trace : List (Ledger × Action)) (l : Ledger) : List Ledger :=
  trace.map Prod.fst ++ [l]

/-! ## Exact pruning -/

/-- The derived data of the block a call builds. -/
def dataOf (l : Ledger) (o : Offer) : GhostdagData :=
  (l.dag.computeGhostdag o.ord o.block.parents).getD .genesis

/-- The insert would hand the selection to a tip whose blue score is smaller, while
the present tip is deep enough for the threshold to follow it down. -/
def LowersScore (l : Ledger) (o : Offer) : Prop :=
  l.finalityDepth ≠ Word.maxValue 64 ∧
    l.finalityDepth.val < l.dag.blueScore l.dag.selectedTip ∧
    l.dag.scoreAfter o.block (l.dataOf o) < l.dag.blueScore l.dag.selectedTip

instance (l : Ledger) (o : Offer) : Decidable (l.LowersScore o) :=
  inferInstanceAs (Decidable (_ ∧ _ ∧ _))

/-- A block has a stored state iff it is not final.  Both directions matter: what is final has been
dropped, and what is not final can still be built on. -/
def PrunedExactly (l : Ledger) : Prop :=
  ∀ x ∈ l.dag.nodes, x ∈ l.states ↔ l.finalityScore ≤ l.dag.blueScore x

/-- No call runs into the missing state of its selected parent, the one panic of `insert` that its
comments rule out. -/
def ExpectHolds (l : Ledger) : Prop :=
  ∀ o : Offer, l.offer o ≠ .error (.panic "non-final selected parent always has a stored state")

theorem PrunedExactly.expectHolds {l : Ledger} (h : l.PrunedExactly) : l.ExpectHolds := by
  intro o hpanic
  cases hstruct : l.dag.checkStructure o.block with
  | error e =>
      rw [offer_eq_of_structure hstruct] at hpanic
      cases hpanic
  | ok u =>
      obtain ⟨_, hne, hmem⟩ := Dag.checkStructure_ok_iff.1 hstruct
      obtain ⟨sp, hsp⟩ := exists_maxByKey l.dag.chainKey hne
      rw [offer_eq hstruct hsp] at hpanic
      split at hpanic
      · cases hpanic
      rename_i hfinal
      obtain ⟨state, hstate⟩ := Finmap.mem_iff.1
        ((h sp (hmem sp (maxByKey_mem hsp))).2 (not_lt.1 hfinal))
      simp only [hstate] at hpanic
      split at hpanic
      · cases hpanic
      -- the only panic left is the DAG's own
      split at hpanic
      · cases hpanic
      · rename_i site hinsert
        simp only [Except.error.injEq, Fault.panic.injEq] at hpanic
        rw [hpanic] at hinsert
        exact absurd (Dag.insert_panic hstruct hinsert).1 (by decide)
      · cases hpanic

theorem Accepts.dataOf {l : Ledger} {o : Offer} {sp : BlockId} {g : GhostdagData}
    {state : UtxoSet} {applied : UtxoSet × BlockSummary}
    (h : Accepts o.ord l o.block o.txs sp g state applied) : l.dataOf o = g := by
  rw [Ledger.dataOf, h.admits.data, Option.getD_some]

/-- The score of the tip selected after an accepted block. -/
theorem finalityScore_accepted {l : Ledger} (hl : l.WellFormed) {o : Offer} {sp : BlockId}
    {g : GhostdagData} {state : UtxoSet} {applied : UtxoSet × BlockSummary}
    (h : Accepts o.ord l o.block o.txs sp g state applied) :
    (l.grown o.block sp g applied.1).finalityScore =
      if l.finalityDepth = Word.maxValue 64 then 0
      else l.dag.scoreAfter o.block (l.dataOf o) - l.finalityDepth.val := by
  rw [finalityScore_eq, h.dataOf, ← Dag.blueScore_selectedTip_wire h.admits hl.dag]
  rfl

/-- An accepted block lowers the threshold iff it lowers the selected tip's score
within reach of it. -/
theorem finalityScore_le_accepted {l : Ledger} (hl : l.WellFormed) {o : Offer} {sp : BlockId}
    {g : GhostdagData} {state : UtxoSet} {applied : UtxoSet × BlockSummary}
    (h : Accepts o.ord l o.block o.txs sp g state applied) :
    l.finalityScore ≤ (l.grown o.block sp g applied.1).finalityScore ↔ ¬ l.LowersScore o := by
  rw [finalityScore_accepted hl h, finalityScore_eq, LowersScore]
  by_cases hmax : l.finalityDepth = Word.maxValue 64
  · simp [hmax]
  · simp only [hmax, if_false, ne_eq, not_false_eq_true, true_and]
    omega

/-- Accepting a block keeps the pruning exact, unless the threshold falls. -/
theorem prunedExactly_accepted {l : Ledger} (hl : l.WellFormed) (hexact : l.PrunedExactly)
    {o : Offer} {sp : BlockId} {g : GhostdagData} {state : UtxoSet}
    {applied : UtxoSet × BlockSummary} (h : Accepts o.ord l o.block o.txs sp g state applied)
    (hle : l.finalityScore ≤ (l.grown o.block sp g applied.1).finalityScore) :
    ((l.grown o.block sp g applied.1).prune o.ord).PrunedExactly := by
  have hscore : ((l.grown o.block sp g applied.1).prune o.ord).finalityScore =
      (l.grown o.block sp g applied.1).finalityScore :=
    finalityScore_congr (prune_dag ..) (prune_finalityDepth ..)
  intro x hx
  rw [hscore, prune_dag, ← Finmap.lookup_isSome, lookup_prune]
  rw [prune_dag] at hx
  by_cases hfinal : (l.grown o.block sp g applied.1).Final x
  · rw [if_pos hfinal]
    have hlt := hfinal.2
    simp only [Option.isSome_none, Bool.false_eq_true, false_iff]
    omega
  · rw [if_neg hfinal, Finmap.lookup_isSome]
    have hge := not_lt.1 fun hlt => hfinal ⟨hx, hlt⟩
    refine iff_of_true (Finmap.mem_insert.2 ?_) hge
    rcases (Dag.mem_wire h.admits).1 hx with hself | hx
    · exact .inl hself
    · rw [show (l.grown o.block sp g applied.1).dag = l.dag.wire o.block sp g from rfl,
        Dag.blueScore_wire h.admits hl.dag hx] at hge
      exact .inr ((hexact x hx).2 (hle.trans hge))

theorem Started.prunedExactly {l : Ledger} (h : Started l) : l.PrunedExactly := by
  obtain ⟨ord, k, genesisTxs, applied, _, hgenesis, hdag, hstates⟩ := h.cases
  have hgen := h.wellFormed.genesis_eq
  have hscore : l.finalityScore = 0 := by
    have htip := h.wellFormed.dag.selectedTip_mem
    have hmem : l.dag.selectedTip = l.dag.genesis := by
      rw [hgen, hgenesis]
      rw [hdag] at htip ⊢
      exact (Finmap.mem_singleton _ _ _).1 htip
    rw [finalityScore_eq, hmem, h.wellFormed.dag.blueScore_genesis, Nat.zero_sub, ite_self]
  intro x hx
  rw [hscore, hstates, Finmap.mem_singleton, hgenesis]
  rw [hdag] at hx
  exact iff_of_true ((Finmap.mem_singleton _ _ _).1 hx) (Nat.zero_le _)

/-- What pruning promises over a run: the threshold never falls, every ledger has
the state of exactly the blocks that are not final, and no insert misses one. -/
structure PruningSafe (trace : List (Ledger × Action)) (l : Ledger) : Prop where
  monotone : (ledgers trace l).Pairwise fun s s' => s.finalityScore ≤ s'.finalityScore
  exact : ∀ s ∈ ledgers trace l, s.PrunedExactly
  expect : ∀ s ∈ ledgers trace l, s.ExpectHolds

omit [Crypto] in
theorem ledgers_concat (trace : List (Ledger × Action)) (l l' : Ledger) (a : Action) :
    ledgers (trace ++ [(l, a)]) l' = ledgers trace l ++ [l'] := by
  simp only [ledgers, List.map_append, List.map_cons, List.map_nil]

/-- The steps that keep the threshold from falling. -/
theorem Step.finalityScore_le_iff {l l' : Ledger} {a : Action} (hl : l.WellFormed)
    (h : Step l a l') : l.finalityScore ≤ l'.finalityScore ↔
      ∀ o, a = .offer o → l.Accepted o → ¬ l.LowersScore o := by
  cases h with
  | @accepted o id l' hinsert =>
      obtain ⟨sp, g, state, applied, haccepts, _, rfl⟩ := offer_eq_ok_iff.1 hinsert
      have hscore : ((l.grown o.block sp g applied.1).prune o.ord).finalityScore =
          (l.grown o.block sp g applied.1).finalityScore :=
        finalityScore_congr (prune_dag ..) (prune_finalityDepth ..)
      rw [hscore, finalityScore_le_accepted hl haccepts]
      constructor
      · rintro hnot o' heq _
        rw [← Action.offer.inj heq]
        exact hnot
      · exact fun hall => hall o rfl ⟨id, _, hinsert⟩
  | @refused o e hrefused =>
      refine iff_of_true (le_refl _) ?_
      rintro o' heq ⟨id, l', haccepted⟩
      rw [← Action.offer.inj heq, hrefused] at haccepted
      cases haccepted
  | difficulty _ => exact iff_of_true (le_refl _) fun o heq => by cases heq
  | proofOfWork _ => exact iff_of_true (le_refl _) fun o heq => by cases heq

theorem Step.prunedExactly {l l' : Ledger} {a : Action} (hl : l.WellFormed) (h : Step l a l')
    (hexact : l.PrunedExactly) (hle : l.finalityScore ≤ l'.finalityScore) : l'.PrunedExactly := by
  cases h with
  | @accepted o id l' hinsert =>
      obtain ⟨sp, g, state, applied, haccepts, _, rfl⟩ := offer_eq_ok_iff.1 hinsert
      rw [finalityScore_congr (prune_dag ..) (prune_finalityDepth ..)] at hle
      exact prunedExactly_accepted hl hexact haccepts hle
  | refused _ => exact hexact
  | difficulty _ => exact hexact
  | proofOfWork _ => exact hexact

/-- One more step keeps pruning safe iff it does not lower the threshold. -/
theorem pruningSafe_step_iff {l l' : Ledger} {trace : List (Ledger × Action)} {a : Action}
    (hl : l.WellFormed) (h : Step l a l') : PruningSafe (trace ++ [(l, a)]) l' ↔
      PruningSafe trace l ∧ l.finalityScore ≤ l'.finalityScore := by
  have hlast : l ∈ ledgers trace l := List.mem_append_right _ (List.mem_singleton.2 rfl)
  constructor
  · rintro ⟨hmono, hexact, hexpect⟩
    rw [ledgers_concat] at hmono hexact hexpect
    rw [pairwise_concat] at hmono
    exact ⟨⟨hmono.1, fun s hs => hexact s (List.mem_append_left _ hs),
      fun s hs => hexpect s (List.mem_append_left _ hs)⟩, hmono.2 l hlast⟩
  · rintro ⟨⟨hmono, hexact, hexpect⟩, hle⟩
    have hnew := h.prunedExactly hl (hexact l hlast) hle
    refine ⟨?_, ?_, ?_⟩
    · rw [ledgers_concat, pairwise_concat]
      refine ⟨hmono, fun s hs => le_trans ?_ hle⟩
      rcases List.mem_append.1 hs with hs | hs
      · exact (pairwise_concat.1 hmono).2 s hs
      · rw [List.mem_singleton.1 hs]
    · intro s hs
      rw [ledgers_concat] at hs
      rcases List.mem_append.1 hs with hs | hs
      · exact hexact s hs
      · exact List.mem_singleton.1 hs ▸ hnew
    · intro s hs
      rw [ledgers_concat] at hs
      rcases List.mem_append.1 hs with hs | hs
      · exact hexpect s hs
      · exact List.mem_singleton.1 hs ▸ hnew.expectHolds

/-- Pruning is safe over a run iff no accepted block lowers the selected tip's score
within reach of the threshold.  Safe means that after every call exactly the final blocks are
without a state, and that no later call looks for a state that was dropped. -/
theorem pruningSafe_iff {l₀ l : Ledger} {trace : List (Ledger × Action)} (h₀ : Started l₀)
    (h : Run l₀ trace l) : PruningSafe trace l ↔
      ∀ s o, (s, Action.offer o) ∈ trace → s.Accepted o → ¬ s.LowersScore o := by
  induction h with
  | start =>
      refine ⟨fun _ s o hs => absurd hs List.not_mem_nil, fun _ => ⟨?_, ?_, ?_⟩⟩
      · exact List.pairwise_singleton _ _
      · exact fun s hs => List.mem_singleton.1 hs ▸ h₀.prunedExactly
      · exact fun s hs => List.mem_singleton.1 hs ▸ h₀.prunedExactly.expectHolds
  | @step trace l l' a hrun hstep ih =>
      have hl := hrun.wellFormed h₀.wellFormed
      rw [pruningSafe_step_iff hl hstep, ih, hstep.finalityScore_le_iff hl]
      constructor
      · rintro ⟨hold, hnew⟩ s o hs
        rcases List.mem_append.1 hs with hs | hs
        · exact hold s o hs
        · obtain ⟨rfl, ha⟩ := Prod.mk.inj (List.mem_singleton.1 hs)
          exact hnew o ha.symm
      · intro hall
        refine ⟨fun s o hs => hall s o (List.mem_append_left _ hs), fun o ha => ?_⟩
        exact hall l o (List.mem_append_right _ (List.mem_singleton.2 (ha ▸ rfl)))

end Ledger

/-! ## Chains of empty blocks -/

namespace Reference

open scoped Reference

/-- A chain of empty blocks on a block, of these works. -/
def chainOn : BlockId → List (U128 × U64) → List Offer
  | _, [] => []
  | parent, (work, timestampMs) :: rest =>
      let offer := Offer.on [parent] work timestampMs noTxs
      offer :: chainOn offer.block.id rest
/-- Two blocks in a row on a genesis without transactions. -/
def chain : List Offer := chainOn genesis.id [(1, 1), (1, 2)]

/-- The same chain with a third block. -/
def longChain : List Offer := chainOn genesis.id [(1, 1), (1, 2), (1, 4)]

/-- A block next to it. -/
def beside : Offer := .on [genesis.id] 1 3 noTxs

/-- A heavy block there. -/
def heavy : Offer := .on [genesis.id] 100 3 noTxs

/-- The chain, the heavy block, a third block of the chain, and one on the heavy
block. -/
def overtaking : List Offer :=
  chain ++ [heavy] ++ longChain.drop 2 ++ [.on [heavy.block.id] 1 5 noTxs]

/-- The long chain, then a heavy block on its second block and one on top, which takes the
selection over. -/
def swapping : List Offer :=
  longChain ++ chainOn ((longChain.map fun o => o.block.id).getD 1 genesis.id) [(100, 5), (1, 6)]

/-- Two chains that take turns, the second one block longer. -/
def crossing : List Offer :=
  let second := chainOn genesis.id [(1, 11), (1, 12), (1, 13), (1, 14)]
  (longChain.zip second).flatMap (fun p => [p.1, p.2]) ++ second.drop 3

end Reference

namespace Ledger

open scoped Reference
open Reference (noTxs chain beside overtaking)

/-- Two blocks with room enough: pruning is safe. -/
theorem pruningSafe_iff_chain : ∃ l₀ trace l, Started l₀ ∧ Run l₀ trace l ∧ l.finalityScore = 1 ∧
    PruningSafe trace l := by
  have hplay : (playNew .sorted 3 1 noTxs 1 (chain.map Action.offer)).map
      (fun played : List (Ledger × Action) × Ledger => (played.2.finalityScore,
        decide (∀ q ∈ offersOf played.1, ¬ q.1.LowersScore q.2))) = some (1, true) := by
    decide +kernel
  obtain ⟨⟨trace, l⟩, hplayed, heq⟩ := Option.map_eq_some_iff.1 hplay
  obtain ⟨hscore, hdec⟩ := Prod.mk.inj heq
  obtain ⟨l₀, hnew, hrun⟩ := exists_run_of_playNew hplayed
  have h₀ : Started l₀ := ⟨_, _, _, _, .inr ⟨_, hnew⟩⟩
  exact ⟨l₀, trace, l, h₀, hrun, hscore, (pruningSafe_iff h₀ hrun).2 fun s o hs _ =>
    of_decide_eq_true hdec (s, o) (mem_offersOf.2 hs)⟩

/-- A heavy block next to a chain, continued once the chain has pruned the genesis:
the threshold falls, the genesis is not final and has no state, and a block on it
runs into the missing state. -/
theorem threshold_falls : ∃ l₀ trace l, Started l₀ ∧ Run l₀ trace l ∧
    (∃ s ∈ ledgers trace l, l.finalityScore < s.finalityScore) ∧
    (∃ x ∈ l.dag.nodes, l.finalityScore ≤ l.dag.blueScore x ∧ x ∉ l.states) ∧
    ∃ o, l.offer o =
      .error (.panic "non-final selected parent always has a stored state") := by
  have hplay : (playNew .sorted 3 1 noTxs 2 (overtaking.map Action.offer)).map
      (fun played : List (Ledger × Action) × Ledger =>
        decide ((∃ s ∈ ledgers played.1 played.2, played.2.finalityScore < s.finalityScore) ∧
          Reference.genesis.id ∈ played.2.dag.nodes ∧
          played.2.finalityScore ≤ played.2.dag.blueScore Reference.genesis.id ∧
          Reference.genesis.id ∉ played.2.states) &&
        match played.2.offer beside with
        | .error (.panic site) =>
            decide (site = "non-final selected parent always has a stored state")
        | _ => false) = some true := by
    decide +kernel
  obtain ⟨⟨trace, l⟩, hplayed, hdec⟩ := Option.map_eq_some_iff.1 hplay
  obtain ⟨hdec, hpanic⟩ := Bool.and_eq_true_iff.1 hdec
  obtain ⟨hfalls, hmem, hscore, hnone⟩ := of_decide_eq_true hdec
  obtain ⟨l₀, hnew, hrun⟩ := exists_run_of_playNew hplayed
  refine ⟨l₀, trace, l, ⟨_, _, _, _, .inr ⟨_, hnew⟩⟩, hrun, hfalls, ⟨_, hmem, hscore, hnone⟩,
    beside, ?_⟩
  split at hpanic
  · rename_i site hoffer
    rw [← of_decide_eq_true hpanic]
    exact hoffer
  · cases hpanic

end Ledger

namespace Ledger

variable [Crypto]

/-! ## Finality of the selected chain -/

/-- The block is final on the selected chain: its score is below the threshold, and the code means
every later selected tip to build on it. -/
def Settled (l : Ledger) (x : BlockId) : Prop :=
  x ∈ l.dag.selectedChain ∧ l.dag.blueScore x < l.finalityScore

instance (l : Ledger) (x : BlockId) : Decidable (l.Settled x) := inferInstanceAs (Decidable (_ ∧ _))

/-- The highest block of the selected chain that has been final on it in one of these
ledgers; the genesis if there is none. -/
def anchor (l : Ledger) (earlier : List Ledger) : BlockId :=
  (maxByKey l.dag.blueScore
    (l.dag.selectedChain.filter fun x => ∃ s ∈ earlier, s.Settled x)).getD l.dag.genesis

/-- The block of the call would be at least as heavy as every tip that it does not build on,
so that the selection follows it. -/
def Overtakes (l : Ledger) (o : Offer) : Prop :=
  ∀ t ∈ l.dag.tipList, t ∉ o.block.parents →
    l.dag.chainKey t ≤ DagView.keyOf (l.dataOf o) o.block.id

instance (l : Ledger) (o : Offer) : Decidable (l.Overtakes o) :=
  inferInstanceAs (Decidable (∀ t ∈ l.dag.tipList, _ → _))

/-- The call would hand the selection to a chain without that block.  Either its block takes
the selection over and the chain of its selected parent misses that block; or it builds on the
selected tip with a blue work that overflows, and the heaviest of the other tips, which is
heavier than the wrapped block, is not over it. -/
def Deserts (l : Ledger) (final : BlockId) (o : Offer) : Prop :=
  (l.Overtakes o ∧ ∃ sp ∈ l.dag.selectParent o.block.parents, final ∉ l.dag.chainTo sp) ∨
  (l.dag.selectedTip ∈ o.block.parents ∧
    (∃ sp ∈ l.dag.selectParent o.block.parents,
      2 ^ 128 ≤ l.dag.fullWork sp (l.dataOf o).mergesetBlues) ∧
    ∃ rival ∈ maxByKey l.dag.chainKey (l.dag.tipList.filter fun t => t ∉ o.block.parents),
      DagView.keyOf (l.dataOf o) o.block.id < l.dag.chainKey rival ∧
        final ∉ l.dag.chainTo rival)

instance (l : Ledger) (final : BlockId) (o : Offer) : Decidable (l.Deserts final o) :=
  inferInstanceAs (Decidable (_ ∨ _))

/-- No accepted block of the run deserts what has been final on the selected chain up to its
call.  What is asked of a call is read off the ledger it is made on, the block it offers and
the highest block that was final before. -/
def NeverDeserts (trace : List (Ledger × Action)) : Prop :=
  ∀ before p after, trace = before ++ p :: after →
    ∀ q ∈ offersOf [p], q.1.Accepted q.2 → ¬ q.1.Deserts (q.1.anchor (ledgers before q.1)) q.2

instance (trace : List (Ledger × Action)) : Decidable (NeverDeserts trace) :=
  decidable_of_iff _ (forall_split_iff (P := fun before p => ∀ q ∈ offersOf [p],
    q.1.Accepted q.2 → ¬ q.1.Deserts (q.1.anchor (ledgers before q.1)) q.2)).symm

/-- A block of the selected chain stays on it unless the accepted block deserts it. -/
theorem mem_selectedChain_accepted {l : Ledger} (hl : l.WellFormed) {o : Offer} {sp : BlockId}
    {g : GhostdagData} {state : UtxoSet} {applied : UtxoSet × BlockSummary}
    (h : Accepts o.ord l o.block o.txs sp g state applied) {x : BlockId}
    (hx : x ∈ l.dag.selectedChain) :
    x ∈ (l.grown o.block sp g applied.1).dag.selectedChain ↔ ¬ l.Deserts x o := by
  have hxMem := hl.dag.mem_of_mem_chainTo hl.dag.selectedTip_mem hx
  rw [show (l.grown o.block sp g applied.1).dag = l.dag.wire o.block sp g from rfl,
    Dag.mem_selectedChain_wire h.admits hl.dag hxMem, Deserts, Overtakes, h.dataOf,
    h.admits.selectParent_eq]
  simp only [Option.mem_def, Option.some.injEq, exists_eq_left']
  rcases Dag.tipAfter_cases h.admits hl.dag with
    ⟨hafter, hover⟩ | ⟨rival, hrival, hlt, hafter, hne, hnot⟩
  · -- the block is selected, and its chain is that of its selected parent
    have hlight : ∀ rival, maxByKey l.dag.chainKey
        (l.dag.tipList.filter fun t => t ∉ o.block.parents) = some rival →
        ¬ DagView.keyOf g o.block.id < l.dag.chainKey rival := by
      intro rival hrival
      obtain ⟨hmem, hnot⟩ := List.mem_filter.1 (maxByKey_mem hrival)
      exact not_lt.2 (hover rival hmem (of_decide_eq_true hnot))
    rw [DagView.chainAfter, if_pos hafter, h.admits.selected, Option.getD_some]
    constructor
    · rintro hin (⟨_, hmiss⟩ | ⟨_, _, rival, hrival, hlt, _⟩)
      · exact hmiss hin
      · exact hlight rival hrival hlt
    · intro hstays
      by_contra hmiss
      exact hstays (.inl ⟨hover, hmiss⟩)
  · -- the selection stays with the heaviest tip that the block does not build on
    rw [DagView.chainAfter, hafter, if_neg hne]
    constructor
    · rintro hin (⟨hover, _⟩ | ⟨_, _, rival', hrival', _, hmiss⟩)
      · exact hnot hover
      · obtain rfl := Option.some.inj (hrival.symm.trans hrival')
        exact hmiss hin
    · intro hstays
      rcases Dag.rival_cases h.admits hl.dag hrival hlt with rfl | ⟨hbuilt, hwork⟩
      · exact hx
      · by_contra hmiss
        exact hstays (.inr ⟨hbuilt, hwork, rival, hrival, hlt, hmiss⟩)

/-- While nothing final has been left behind, a chain is over all that has been final iff it
is over the anchor. -/
theorem anchor_mem_iff {l : Ledger} (hl : l.WellFormed) {earlier : List Ledger}
    (hstay : ∀ s ∈ earlier, ∀ x, s.Settled x → x ∈ l.dag.selectedChain) {b : BlockId}
    (hb : b ∈ l.dag.nodes) : l.anchor earlier ∈ l.dag.chainTo b ↔
      ∀ s ∈ earlier, ∀ x, s.Settled x → x ∈ l.dag.chainTo b := by
  have htip := hl.dag.selectedTip_mem
  have hfilter : ∀ x, x ∈ (l.dag.selectedChain.filter fun x => ∃ s ∈ earlier, s.Settled x) ↔
      ∃ s ∈ earlier, s.Settled x := by
    intro x
    rw [List.mem_filter, decide_eq_true_eq]
    exact ⟨fun h => h.2, fun h => ⟨h.elim fun s hs => hstay s hs.1 x hs.2, h⟩⟩
  rw [anchor]
  cases hmax : maxByKey l.dag.blueScore
      (l.dag.selectedChain.filter fun x => ∃ s ∈ earlier, s.Settled x) with
  | none =>
      refine iff_of_true (hl.dag.genesis_mem_chainTo hb) fun s hs x hx => ?_
      have hmem := (hfilter x).2 ⟨s, hs, hx⟩
      rw [maxByKey_eq_none.1 hmax] at hmem
      cases hmem
  | some y =>
      obtain ⟨s, hs, hy⟩ := (hfilter y).1 (maxByKey_mem hmax)
      constructor
      · intro hyb s' hs' x hx
        have hle := le_of_maxByKey hmax x ((hfilter x).2 ⟨s', hs', hx⟩)
        exact hl.dag.mem_of_blueScore_le htip hb (hstay s' hs' x hx) (hstay s hs y hy) hyb hle
      · exact fun hall => hall s hs y hy

/-- What has been final stays on the selected chain over a step iff an accepted block does
not desert the anchor. -/
theorem Step.settled_iff {l l' : Ledger} {a : Action} (hl : l.WellFormed) (h : Step l a l')
    {earlier : List Ledger} (hstay : ∀ s ∈ earlier, ∀ x, s.Settled x → x ∈ l.dag.selectedChain) :
    (∀ s ∈ earlier, ∀ x, s.Settled x → x ∈ l'.dag.selectedChain) ↔
      ∀ q ∈ offersOf [(l, a)], q.1.Accepted q.2 → ¬ q.1.Deserts (q.1.anchor earlier) q.2 := by
  have hcalls : (∀ q ∈ offersOf [(l, a)], q.1.Accepted q.2 → ¬ q.1.Deserts (q.1.anchor earlier) q.2)
      ↔ ∀ o, a = .offer o → l.Accepted o → ¬ l.Deserts (l.anchor earlier) o := by
    constructor
    · exact fun hall o ha => hall (l, o) (mem_offersOf.2 (List.mem_singleton.2 (ha ▸ rfl)))
    · rintro hall ⟨s, o⟩ hq
      obtain ⟨rfl, ha⟩ := Prod.mk.inj (List.mem_singleton.1 (mem_offersOf.1 hq))
      exact hall o ha.symm
  rw [hcalls]
  cases h with
  | @accepted o id l' hinsert =>
      obtain ⟨sp, g, state, applied, haccepts, _, rfl⟩ := offer_eq_ok_iff.1 hinsert
      have htip := hl.dag.selectedTip_mem
      have hanchor : l.anchor earlier ∈ l.dag.selectedChain :=
        (anchor_mem_iff hl hstay htip).2 hstay
      obtain ⟨b, hb, hchain⟩ := Dag.exists_chainAfter haccepts.admits hl.dag
      have hwire : ∀ x ∈ l.dag.selectedChain,
          x ∈ (l.grown o.block sp g applied.1).dag.selectedChain ↔ x ∈ l.dag.chainTo b := by
        intro x hx
        rw [← hchain]
        exact Dag.mem_selectedChain_wire haccepts.admits hl.dag
          (hl.dag.mem_of_mem_chainTo htip hx)
      have hdeserts := mem_selectedChain_accepted hl haccepts hanchor
      rw [hwire _ hanchor, anchor_mem_iff hl hstay hb] at hdeserts
      rw [prune_dag]
      constructor
      · intro hall o' heq _
        rw [← Action.offer.inj heq]
        exact hdeserts.1 fun s hs x hx => (hwire x (hstay s hs x hx)).1 (hall s hs x hx)
      · intro hall s hs x hx
        exact (hwire x (hstay s hs x hx)).2 (hdeserts.2 (hall o rfl ⟨id, _, hinsert⟩) s hs x hx)
  | @refused o e hrefused =>
      refine iff_of_true hstay ?_
      rintro o' heq ⟨id, l', haccepted⟩
      rw [← Action.offer.inj heq, hrefused] at haccepted
      cases haccepted
  | difficulty _ => exact iff_of_true hstay fun o heq => by cases heq
  | proofOfWork _ => exact iff_of_true hstay fun o heq => by cases heq

/-- Blocks that are final on the selected chain stay on it over a whole run iff no accepted
block deserts the highest block that has been final on it: the chain of its selected parent
passes that block wherever the new block takes the selection over. -/
theorem settled_forever_iff {l₀ l : Ledger} {trace : List (Ledger × Action)} (h₀ : Started l₀)
    (h : Run l₀ trace l) :
    ((ledgers trace l).Pairwise fun s s' => ∀ x, s.Settled x → x ∈ s'.dag.selectedChain) ↔
      NeverDeserts trace := by
  induction h with
  | start =>
      refine iff_of_true (List.pairwise_singleton _ _) fun before p after heq => ?_
      cases before <;> cases heq
  | @step trace l l' a hrun hstep ih =>
      have hl := hrun.wellFormed h₀.wellFormed
      rw [ledgers_concat, pairwise_concat, NeverDeserts, forall_split_concat, ← NeverDeserts, ← ih]
      refine and_congr_right fun hpairs => ?_
      have hstay : ∀ s ∈ ledgers trace l, ∀ x, s.Settled x → x ∈ l.dag.selectedChain := by
        intro s hs x hx
        rw [ledgers, pairwise_concat] at hpairs
        rcases List.mem_append.1 hs with hs | hs
        · exact hpairs.2 s hs x hx
        · obtain rfl := List.mem_singleton.1 hs
          exact hx.1
      rw [hstep.settled_iff hl hstay]
      constructor
      · rintro hall ⟨s, o⟩ hq
        obtain ⟨rfl, -⟩ := Prod.mk.inj (List.mem_singleton.1 (mem_offersOf.1 hq))
        exact hall _ hq
      · rintro hall ⟨s, o⟩ hq
        obtain ⟨rfl, -⟩ := Prod.mk.inj (List.mem_singleton.1 (mem_offersOf.1 hq))
        exact hall _ hq

end Ledger

namespace Ledger

open scoped Reference
open Reference (noTxs swapping crossing)

/-- A re-org above the threshold: the third block of a chain is left behind for a heavy block
next to it, and the first one, which is final by then, is not. -/
theorem settled_forever_iff_reorg : ∃ l₀ trace l x, Started l₀ ∧ Run l₀ trace l ∧
    l.Settled x ∧ x ≠ l.dag.genesis ∧ (∃ s ∈ ledgers trace l, ∃ y ∈ s.dag.selectedChain,
      y ∉ l.dag.selectedChain) ∧
    (ledgers trace l).Pairwise fun s s' => ∀ x, s.Settled x → x ∈ s'.dag.selectedChain := by
  have hplay : (playNew .sorted 3 1 noTxs 1 (swapping.map Action.offer)).map
      (fun played : List (Ledger × Action) × Ledger =>
        decide ((∃ x ∈ played.2.dag.selectedChain, played.2.Settled x ∧
          x ≠ played.2.dag.genesis) ∧ (∃ s ∈ ledgers played.1 played.2,
          ∃ y ∈ s.dag.selectedChain, y ∉ played.2.dag.selectedChain) ∧
          NeverDeserts played.1)) = some true := by
    decide +kernel
  obtain ⟨⟨trace, l⟩, hplayed, hdec⟩ := Option.map_eq_some_iff.1 hplay
  obtain ⟨⟨x, _, hsettled, hne⟩, hleft, hnever⟩ := of_decide_eq_true hdec
  obtain ⟨l₀, hnew, hrun⟩ := exists_run_of_playNew hplayed
  have h₀ : Started l₀ := ⟨_, _, _, _, .inr ⟨_, hnew⟩⟩
  exact ⟨l₀, trace, l, x, h₀, hrun, hsettled, hne, hleft, (settled_forever_iff h₀ hrun).2 hnever⟩

/-- Two chains cross the threshold side by side, and the second overtakes. -/
theorem settled_block_dropped : ∃ l₀ trace l, Started l₀ ∧ Run l₀ trace l ∧
    ∃ s ∈ ledgers trace l, ∃ x, s.Settled x ∧ x ∉ l.dag.selectedChain := by
  have hplay : (playNew .sorted 3 1 noTxs 1 (crossing.map Action.offer)).map
      (fun played : List (Ledger × Action) × Ledger =>
        decide (∃ s ∈ ledgers played.1 played.2,
          s.Settled (Offer.on [Reference.genesis.id] 1 1 noTxs).block.id ∧
          (Offer.on [Reference.genesis.id] 1 1 noTxs).block.id ∉
            played.2.dag.selectedChain)) = some true := by
    decide +kernel
  obtain ⟨⟨trace, l⟩, hplayed, hdec⟩ := Option.map_eq_some_iff.1 hplay
  obtain ⟨s, hs, hsettled, hdropped⟩ := of_decide_eq_true hdec
  obtain ⟨l₀, hnew, hrun⟩ := exists_run_of_playNew hplayed
  exact ⟨l₀, trace, l, ⟨_, _, _, _, .inr ⟨_, hnew⟩⟩, hrun, s, hs, _, hsettled, hdropped⟩

end Ledger

end Kovanica
