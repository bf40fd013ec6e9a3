import Kovanica.State.Enforcement

/-!
# A ledger that prunes and one that does not

A ledger of finite depth is followed by an unbounded twin that is fed the calls it
accepts.  Both have the same DAG, and the twin has every state the finite ledger
keeps.  The finite ledger loses the state of its selected tip only where the blue
work of a new block overflows: the block built on the tip is then lighter than the
tip was, and the selection falls back to a tip whose state was pruned long ago.

## Main results

* `tipAfter_stored_iff`: when the tip selected next has its state.
* `step`, `run`: the twin keeps up with every call.
* `Run.tip_stored_of`, `Run.not_losesTip`: over a run, whose works may be bounded.
-/

namespace Kovanica

open Lib Relation

namespace DagView

variable [Crypto]

/-- The data of a block does not depend on the order its maps are iterated in. -/
theorem WellFormed.computeGhostdag_ord {d : DagView} (h : d.WellFormed) {parents : List BlockId}
    (hparents : ∀ p ∈ parents, p ∈ d.nodes) (ord ord' : HashOrder) :
    d.computeGhostdag ord parents = d.computeGhostdag ord' parents :=
  computeGhostdag_congr (Dag.agreeOn_refl h.parents_mem) h.exact h.exact
    (fun y hy b hb => h.exact.mem_of_anc (h.blue_past y _ (lookup_node hy) b hb)) hparents
    (fun _ => Iff.rfl) ord ord'

end DagView

/-- A new DAG does not depend on that order either. -/
theorem Dag.withValidator_ord [Crypto] (ord ord' : HashOrder) (k : KParam) {genesis : Block}
    (h : genesis.parents = []) (validator : BlockValidator) :
    Dag.withValidator ord k genesis validator = Dag.withValidator ord' k genesis validator := by
  have hbuild := fun ord =>
    Reachability.build_singleton ord genesis.id ⟨genesis, 0, ∅, .genesis⟩ h rfl
  simp only [Dag.withValidator, Dag.new, hbuild]

namespace Ledger

variable [Crypto]

/-! ## When the selected tip's state is lost -/

/-- The call builds on the selected tip with a blue work that overflows, and the
heaviest of the other tips, which is heavier than the wrapped block, has no state. -/
def LosesTip (l : Ledger) (o : Offer) : Prop :=
  l.dag.selectedTip ∈ o.block.parents ∧
    (∃ sp, l.dag.selectParent o.block.parents = some sp ∧
      2 ^ 128 ≤ l.dag.fullWork sp (l.dataOf o).mergesetBlues) ∧
    ∃ rival, maxByKey l.dag.chainKey (l.dag.tipList.filter fun t => t ∉ o.block.parents) =
        some rival ∧
      DagView.keyOf (l.dataOf o) o.block.id < l.dag.chainKey rival ∧ rival ∉ l.states

/-- The tip selected after an accepted block is new or has its state, unless the
block overflows. -/
theorem tipAfter_stored_iff {l : Ledger} (hl : l.WellFormed)
    (htip : l.dag.selectedTip ∈ l.states) {o : Offer} {sp : BlockId} {g : GhostdagData}
    {state : UtxoSet} {applied : UtxoSet × BlockSummary}
    (h : Accepts o.ord l o.block o.txs sp g state applied) :
    (l.dag.tipAfter o.block g = o.block.id ∨ l.dag.tipAfter o.block g ∈ l.states) ↔
      ¬ l.LosesTip o := by
  rw [LosesTip, h.dataOf]
  rcases Dag.tipAfter_cases h.admits hl.dag with
    ⟨hafter, hover⟩ | ⟨rival, hrival, hlt, hafter, hne, _⟩
  · refine iff_of_true (.inl hafter) ?_
    rintro ⟨_, _, rival, hrival, hlt, _⟩
    obtain ⟨hmem, hother⟩ := List.mem_filter.1 (maxByKey_mem hrival)
    exact absurd hlt (not_lt.2 (hover rival hmem (of_decide_eq_true hother)))
  · rw [hafter, or_iff_right hne, ← not_iff_not, not_not]
    constructor
    · intro hlost
      rcases Dag.rival_cases h.admits hl.dag hrival hlt with rfl | ⟨hbuilt, hwork⟩
      · exact absurd htip hlost
      · exact ⟨hbuilt, ⟨sp, h.admits.selectParent_eq, hwork⟩, rival, hrival, hlt, hlost⟩
    · rintro ⟨_, _, rival', hsome, _, hlost⟩
      rw [Option.some.inj (hrival.symm.trans hsome)]
      exact hlost

/-- A step keeps the selected tip's state unless it is an accepted block that loses
it. -/
theorem Step.tip_stored_iff {l l' : Ledger} {a : Action} (hl : l.WellFormed)
    (htip : l.dag.selectedTip ∈ l.states) (h : Step l a l') :
    l'.dag.selectedTip ∈ l'.states ↔ ∀ o, a = .offer o → l.Accepted o → ¬ l.LosesTip o := by
  cases h with
  | @accepted o id l' hinsert =>
      obtain ⟨sp, g, state, applied, haccepts, _, rfl⟩ := offer_eq_ok_iff.1 hinsert
      have hnot := not_final_selectedTip (l.grown o.block sp g applied.1)
      have hafter : (l.grown o.block sp g applied.1).dag.selectedTip = l.dag.tipAfter o.block g :=
        Dag.selectedTip_wire haccepts.admits hl.dag
      have hstored := tipAfter_stored_iff hl htip haccepts
      rw [prune_dag, ← Finmap.lookup_isSome, lookup_prune, if_neg hnot, Finmap.lookup_isSome,
        hafter]
      show _ ∈ l.states.insert o.block.id applied.1 ↔ _
      rw [Finmap.mem_insert, hstored]
      constructor
      · intro hkeeps o' heq _
        rw [← Action.offer.inj heq]
        exact hkeeps
      · exact fun hall => hall o rfl ⟨id, _, hinsert⟩
  | @refused o e hrefused =>
      refine iff_of_true htip ?_
      rintro o' heq ⟨id, l', haccepted⟩
      rw [← Action.offer.inj heq, hrefused] at haccepted
      cases haccepted
  | difficulty _ => exact iff_of_true htip fun o heq => by cases heq
  | proofOfWork _ => exact iff_of_true htip fun o heq => by cases heq

/-! ## The twin -/

/-- `Feeds s m a m'`: the twin `m` is given the call `a` made on `s` if that was
accepted, with an iteration order of its own, and accepts it with the same block
id.  Policies are switched on both. -/
inductive Feeds (s m : Ledger) : Action → Ledger → Prop
  | accepted {o : Offer} {id : BlockId} {s' m' : Ledger} (ord : HashOrder) :
      s.offer o = .ok (id, s') → m.offer (o.under ord) = .ok (id, m') → Feeds s m (.offer o) m'
  | refused {o : Offer} : s.Refused o → Feeds s m (.offer o) m
  | difficulty (retarget : Retarget) :
      Feeds s m (.setDifficulty retarget) (m.setDifficulty retarget)
  | proofOfWork (enabled : Bool) :
      Feeds s m (.setProofOfWork enabled) (m.setProofOfWork enabled)

/-- `Fed m₀ trace m`: fed the accepted calls of `trace`, the twin `m₀` becomes `m`.  A call that
the finite ledger refuses is not passed on. -/
inductive Fed (m₀ : Ledger) : List (Ledger × Action) → Ledger → Prop
  | start : Fed m₀ [] m₀
  | step {trace : List (Ledger × Action)} {s m m' : Ledger} {a : Action} :
      Fed m₀ trace m → Feeds s m a m' → Fed m₀ (trace ++ [(s, a)]) m'

theorem Fed.last {m₀ m' : Ledger} {before : List (Ledger × Action)} {p : Ledger × Action}
    (h : Fed m₀ (before ++ [p]) m') : ∃ m, Fed m₀ before m ∧ Feeds p.1 m p.2 m' := by
  generalize htrace : before ++ [p] = trace at h
  cases h with
  | start => exact absurd htrace (by simp)
  | step hfed hfeeds =>
      obtain ⟨rfl, hlast⟩ := List.append_inj' htrace rfl
      obtain rfl := (List.cons.inj hlast).1
      exact ⟨_, hfed, hfeeds⟩

/-- The second ledger has the first one's DAG, its ledger state, and the states it
still stores, among them the selected tip's. -/
structure Mirrors (s m : Ledger) : Prop where
  dag_eq : m.dag = s.dag
  state_eq : ∀ x state, s.state x = some state → m.state x = some state
  tip_stored : s.dag.selectedTip ∈ s.states
  ledgerState_eq : ∀ ord ord', ∃ state,
    s.ledgerState ord = some state ∧ m.ledgerState ord' = some state

/-- Pruning is transparent over a run: after any of its calls the twin mirrors the
ledger, and accepts any call the ledger accepts, with the same block id. -/
def Transparent (l₀ m₀ : Ledger) (trace : List (Ledger × Action)) : Prop :=
  ∀ before after, trace = before ++ after → ∀ s m, Run l₀ before s → Fed m₀ before m →
    s.Mirrors m ∧ ∀ o id s', s.offer o = .ok (id, s') →
      ∀ ord, ∃ m', m.offer (o.under ord) = .ok (id, m')

/-- What is invariant of a ledger and its twin: one DAG and one subsidy, with the twin unbounded,
so that it has the state of every block. -/
structure Follows (s m : Ledger) : Prop where
  wellFormed : s.WellFormed
  unbounded : m.Unbounded
  dag_eq : m.dag = s.dag
  subsidy_eq : m.subsidy = s.subsidy

namespace Follows

variable {s m : Ledger}

/-- What the finite ledger stores, its twin stores. -/
theorem state_eq (h : Follows s m) {x : BlockId} {state : UtxoSet}
    (hstate : s.states.lookup x = some state) : m.states.lookup x = some state := by
  obtain ⟨hmem, heq⟩ := h.wellFormed.state_eq x state hstate
  obtain ⟨state', hstate'⟩ := Finmap.mem_iff.1 (h.unbounded.stored x (h.dag_eq ▸ hmem))
  have heq' := (h.unbounded.reachable.wellFormed.state_eq x state' hstate').2
  rw [hstate', heq', heq, h.dag_eq, h.subsidy_eq]

/-- With its selected tip's state stored, the ledger is mirrored. -/
theorem mirrors (h : Follows s m) (htip : s.dag.selectedTip ∈ s.states) : s.Mirrors m where
  dag_eq := h.dag_eq
  state_eq := fun _ _ => h.state_eq
  tip_stored := htip
  ledgerState_eq := by
    intro ord ord'
    obtain ⟨state, hstate⟩ := Finmap.mem_iff.1 htip
    have hstate' := h.state_eq hstate
    rw [← h.dag_eq] at hstate'
    rw [Ledger.ledgerState_eq h.wellFormed, hstate,
      Ledger.ledgerState_eq h.unbounded.reachable.wellFormed, hstate', h.dag_eq, h.subsidy_eq,
      h.wellFormed.dag.linearize_ord ord' ord]
    exact ⟨_, rfl, rfl⟩

/-- The twin accepts what the ledger accepts, and the two go on alike. -/
theorem accepts (h : Follows s m) {o : Offer} {id : BlockId} {s' : Ledger}
    (hoffer : s.offer o = .ok (id, s')) (ord : HashOrder) :
    ∃ m', m.offer (o.under ord) = .ok (id, m') ∧ Follows s' m' := by
  have hs' := (Step.accepted hoffer).wellFormed h.wellFormed
  obtain ⟨sp, g, state, applied, haccepts, hid, hs⟩ := offer_eq_ok_iff.1 hoffer
  have hadmits := haccepts.admits
  have hsame : Accepts ord m o.block o.txs sp g state applied := by
    refine ⟨?_, ?_, h.state_eq haccepts.stored, ?_⟩
    · rw [h.dag_eq]
      refine ⟨hadmits.fresh, hadmits.parents_ne, hadmits.parents_mem, hadmits.valid, ?_,
        hadmits.selected, hadmits.policy, hadmits.room⟩
      rw [h.wellFormed.dag.computeGhostdag_ord hadmits.parents_mem ord o.ord]
      exact hadmits.data
    · rw [h.unbounded.finalityScore]
      exact Nat.zero_le _
    · rw [h.dag_eq, h.subsidy_eq]
      exact haccepts.applies
  have hoffer' : m.offer (o.under ord) = .ok (id, (m.grown o.block sp g applied.1).prune ord) :=
    offer_eq_ok_iff.2 ⟨sp, g, state, applied, hsame, hid, rfl⟩
  refine ⟨_, hoffer', hs', h.unbounded.step (.accepted hoffer'), ?_, ?_⟩
  · rw [hs, prune_dag, prune_dag]
    show m.dag.wire o.block sp g = s.dag.wire o.block sp g
    rw [h.dag_eq]
  · rw [hs, prune_subsidy, prune_subsidy]
    exact h.subsidy_eq

/-- Any call of the ledger can be made on its twin. -/
theorem exists_feeds (h : Follows s m) {s' : Ledger} {a : Action} (hstep : Step s a s') :
    ∃ m', Feeds s m a m' := by
  cases hstep with
  | accepted hoffer =>
      obtain ⟨m', hoffer', _⟩ := h.accepts hoffer .sorted
      exact ⟨m', .accepted .sorted hoffer hoffer'⟩
  | refused hrefused => exact ⟨m, .refused ⟨_, hrefused⟩⟩
  | difficulty retarget => exact ⟨_, .difficulty retarget⟩
  | proofOfWork enabled => exact ⟨_, .proofOfWork enabled⟩

/-- One call keeps the invariant. -/
theorem step (h : Follows s m) {s' m' : Ledger} {a : Action} (hstep : Step s a s')
    (hfeeds : Feeds s m a m') : Follows s' m' := by
  cases hfeeds with
  | accepted ord hoffer hoffer' =>
      cases hstep with
      | accepted hinsert =>
          obtain ⟨rfl, rfl⟩ := Prod.mk.inj (Except.ok.inj (hinsert.symm.trans hoffer))
          obtain ⟨m'', hoffer'', hnext⟩ := h.accepts hinsert ord
          obtain ⟨_, rfl⟩ := Prod.mk.inj (Except.ok.inj (hoffer''.symm.trans hoffer'))
          exact hnext
      | refused hrefused =>
          rw [hoffer] at hrefused
          cases hrefused
  | refused hrefused =>
      cases hstep with
      | accepted hinsert =>
          obtain ⟨e, hrefused⟩ := hrefused
          rw [hinsert] at hrefused
          cases hrefused
      | refused _ => exact h
  | difficulty retarget =>
      cases hstep
      refine ⟨(Step.difficulty retarget).wellFormed h.wellFormed,
        h.unbounded.step (.difficulty retarget), ?_, h.subsidy_eq⟩
      show m.dag.setDifficulty retarget = s.dag.setDifficulty retarget
      rw [h.dag_eq]
  | proofOfWork enabled =>
      cases hstep
      refine ⟨(Step.proofOfWork enabled).wellFormed h.wellFormed,
        h.unbounded.step (.proofOfWork enabled), ?_, h.subsidy_eq⟩
      show m.dag.setProofOfWork enabled = s.dag.setProofOfWork enabled
      rw [h.dag_eq]

/-- The calls of a run can be made on the twin. -/
theorem exists_fed {l₀ m₀ l : Ledger} {trace : List (Ledger × Action)} (h : Follows l₀ m₀)
    (hrun : Run l₀ trace l) : ∃ m, Fed m₀ trace m ∧ Follows l m := by
  induction hrun with
  | start => exact ⟨m₀, .start, h⟩
  | step _ hstep ih =>
      obtain ⟨m, hfed, hnow⟩ := ih
      obtain ⟨m', hfeeds⟩ := hnow.exists_feeds hstep
      exact ⟨m', hfed.step hfeeds, hnow.step hstep hfeeds⟩

/-- However its calls were ordered, the twin follows. -/
theorem run {l₀ m₀ l m : Ledger} {trace : List (Ledger × Action)} (h : Follows l₀ m₀)
    (hrun : Run l₀ trace l) (hfed : Fed m₀ trace m) : Follows l m := by
  induction hrun generalizing m with
  | start =>
      generalize htrace : ([] : List (Ledger × Action)) = trace at hfed
      cases hfed with
      | start => exact h
      | step _ _ => exact absurd htrace (by simp)
  | step _ hstep ih =>
      obtain ⟨m', hfed', hfeeds⟩ := hfed.last
      exact (ih hfed').step hstep hfeeds

/-- The invariant holds at the start. -/
theorem start {ord ord' : HashOrder} {k : KParam} {subsidy depth : U64} {genesisTxs : TxList}
    (hl : withFinality ord k subsidy genesisTxs depth = .ok s)
    (hm : Ledger.new ord' k subsidy genesisTxs = .ok m) : Follows s m := by
  have hs : Started s := ⟨ord, k, subsidy, genesisTxs, .inr ⟨depth, hl⟩⟩
  have hstarted : Started m := ⟨ord', k, subsidy, genesisTxs, .inl hm⟩
  obtain ⟨applied', happly', hm'⟩ := new_eq_ok_iff.1 hm
  rw [withFinality] at hl
  split at hl
  · cases hl
  rename_i s₁ hnew
  obtain ⟨applied, happly, hs₁⟩ := new_eq_ok_iff.1 hnew
  have hl := Except.ok.inj hl
  refine ⟨hs.wellFormed, ⟨⟨m, [], hstarted, .start⟩, by rw [hm']⟩, ?_, ?_⟩
  · rw [← hl, hm', hs₁]
    exact Dag.withValidator_ord ord' ord k rfl txStructureValidator
  · rw [← hl, hm', hs₁]

end Follows

/-! ## When pruning is transparent -/

/-- The selected tip's state stays stored over a run that never loses it. -/
theorem Run.tip_stored_of {l₀ l : Ledger} {trace : List (Ledger × Action)} (h₀ : Started l₀)
    (h : Run l₀ trace l)
    (hkeeps : ∀ s o, (s, Action.offer o) ∈ trace → s.Accepted o → ¬ s.LosesTip o) :
    l.dag.selectedTip ∈ l.states := by
  induction h with
  | start => exact h₀.tip_stored
  | @step trace l l' a hrun hstep ih =>
      have htip := ih fun s o hs => hkeeps s o (List.mem_append_left _ hs)
      refine (hstep.tip_stored_iff (hrun.wellFormed h₀.wellFormed) htip).2 fun o ha => ?_
      exact hkeeps l o (List.mem_append_right _ (List.mem_singleton.2 (ha ▸ rfl)))

theorem Run.totalWork_le {l₀ l : Ledger} {trace : List (Ledger × Action)} (h₀ : l₀.WellFormed)
    (h : Run l₀ trace l) : l₀.dag.totalWork ≤ l.dag.totalWork := by
  induction h with
  | start => exact le_refl _
  | step hrun hstep ih => exact ih.trans (hstep.totalWork_le (hrun.wellFormed h₀))

/-- No block overflows while the works of all blocks fit 128 bits. -/
theorem Run.not_losesTip {l₀ l : Ledger} {trace : List (Ledger × Action)} (h₀ : Started l₀)
    (h : Run l₀ trace l) (hwork : l.dag.totalWork < 2 ^ 128) {s : Ledger} {o : Offer}
    (hs : (s, Action.offer o) ∈ trace) (haccepted : s.Accepted o) : ¬ s.LosesTip o := by
  obtain ⟨before, after, rfl⟩ := List.append_of_mem hs
  obtain ⟨hbefore, hrest⟩ := h.split
  obtain ⟨s', hstep, hafter⟩ := hrest.head
  have hwf := hbefore.wellFormed h₀.wellFormed
  have hle' := hafter.totalWork_le (hstep.wellFormed hwf)
  have hle := hstep.totalWork_le hwf
  have htip := hbefore.tip_stored h₀ (by omega)
  have htip' := (hbefore.step hstep).tip_stored h₀ (by omega)
  exact (hstep.tip_stored_iff hwf htip).1 htip' o rfl haccepted

/-- Pruning is transparent over a run iff no accepted block overflows its blue work
and hands the selection to a tip without a state; so it is while the works of all
blocks fit 128 bits. -/
theorem transparent_iff {ord ord' : HashOrder} {k : KParam} {subsidy depth : U64}
    {genesisTxs : TxList} {l₀ m₀ l : Ledger} {trace : List (Ledger × Action)}
    (hl : withFinality ord k subsidy genesisTxs depth = .ok l₀)
    (hm : Ledger.new ord' k subsidy genesisTxs = .ok m₀) (hrun : Run l₀ trace l) :
    (Transparent l₀ m₀ trace ↔
        ∀ s o, (s, Action.offer o) ∈ trace → s.Accepted o → ¬ s.LosesTip o) ∧
      (l.dag.totalWork < 2 ^ 128 → Transparent l₀ m₀ trace) := by
  have h₀ : Started l₀ := ⟨ord, k, subsidy, genesisTxs, .inr ⟨depth, hl⟩⟩
  have hfollows := Follows.start hl hm
  have hiff : Transparent l₀ m₀ trace ↔
      ∀ s o, (s, Action.offer o) ∈ trace → s.Accepted o → ¬ s.LosesTip o := by
    constructor
    · intro htransparent s o hs haccepted
      obtain ⟨before, after, rfl⟩ := List.append_of_mem hs
      have hbefore := hrun.split.1
      obtain ⟨id, s', hoffer⟩ := haccepted
      have hstep : Step s (.offer o) s' := .accepted hoffer
      obtain ⟨m, hfed, _⟩ := hfollows.exists_fed hbefore
      obtain ⟨m', hfed', _⟩ := hfollows.exists_fed (hbefore.step hstep)
      have htip := (htransparent _ _ rfl s m hbefore hfed).1.tip_stored
      have htip' := (htransparent _ after (by simp) s' m' (hbefore.step hstep) hfed').1.tip_stored
      exact (hstep.tip_stored_iff (hbefore.wellFormed h₀.wellFormed) htip).1 htip' o rfl
        ⟨id, s', hoffer⟩
    · intro hkeeps before after htrace s m hbefore hfed
      have hnow := hfollows.run hbefore hfed
      have htip := hbefore.tip_stored_of h₀ fun s o hs =>
        hkeeps s o (htrace ▸ List.mem_append_left _ hs)
      refine ⟨hnow.mirrors htip, fun o id s' hoffer ord => ?_⟩
      obtain ⟨m', hoffer', _⟩ := hnow.accepts hoffer ord
      exact ⟨m', hoffer'⟩
  exact ⟨hiff, fun hwork => hiff.2 fun s o => hrun.not_losesTip h₀ hwork⟩

end Ledger

namespace Reference

open scoped Reference

/-- A block beside a chain whose third block has nearly all the work there is, and
one on top of the chain. -/
def wrapping : List Offer :=
  beside :: chainOn genesis.id [(1, 1), (1, 2), (Fin.ofNat _ (2 ^ 128 - 3), 4), (1, 5)]

end Reference

namespace Ledger

open scoped Reference
open Reference (noTxs chain wrapping)

/-- Two blocks and a finality depth of one, which prunes the genesis. -/
theorem transparent_iff_chain : ∃ l₀ m₀ l trace,
    withFinality .sorted 3 1 noTxs 1 = .ok l₀ ∧ Ledger.new .sorted 3 1 noTxs = .ok m₀ ∧
    Run l₀ trace l ∧ l.finalityScore = 1 ∧ Transparent l₀ m₀ trace := by
  have hplay : (playNew .sorted 3 1 noTxs 1 (chain.map Action.offer)).bind
      (fun played => (Ledger.new .sorted 3 1 noTxs).toOption.map fun _ =>
        (played.2.finalityScore, decide (played.2.dag.totalWork < 2 ^ 128))) =
          some (1, true) := by
    decide +kernel
  obtain ⟨played, hplayed, hmap⟩ := Option.bind_eq_some_iff.1 hplay
  obtain ⟨m₀, hm, heq⟩ := Option.map_eq_some_iff.1 hmap
  obtain ⟨hscore, hwork⟩ := Prod.mk.inj heq
  obtain ⟨l₀, hnew, hrun⟩ := exists_run_of_playNew hplayed
  have hm := ok_of_toOption hm
  exact ⟨l₀, m₀, played.2, played.1, hnew, hm, hrun, hscore,
    (transparent_iff hnew hm hrun).2 (of_decide_eq_true hwork)⟩

/-- The last block of the chain wraps, and the pruned block beside it is selected. -/
theorem wrapped_tip_lost : ∃ l₀ m₀ l trace,
    withFinality .sorted 3 1 noTxs 1 = .ok l₀ ∧ Ledger.new .sorted 3 1 noTxs = .ok m₀ ∧
    Run l₀ trace l ∧ l.dag.len = 6 ∧ l.ledgerState .sorted = none ∧ ¬ Transparent l₀ m₀ trace := by
  have hplay : (playNew .sorted 3 1 noTxs 1 (wrapping.map Action.offer)).bind
      (fun played => (Ledger.new .sorted 3 1 noTxs).toOption.map fun _ =>
        (played.2.dag.len, decide (played.2.ledgerState .sorted = none))) = some (6, true) := by
    decide +kernel
  obtain ⟨played, hplayed, hmap⟩ := Option.bind_eq_some_iff.1 hplay
  obtain ⟨m₀, hm, heq⟩ := Option.map_eq_some_iff.1 hmap
  obtain ⟨hlen, hnone⟩ := Prod.mk.inj heq
  have hnone := of_decide_eq_true hnone
  obtain ⟨l₀, hnew, hrun⟩ := exists_run_of_playNew hplayed
  refine ⟨l₀, m₀, played.2, played.1, hnew, ok_of_toOption hm, hrun, hlen, hnone, ?_⟩
  intro htransparent
  obtain ⟨m, hfed, _⟩ := (Follows.start hnew (ok_of_toOption hm)).exists_fed hrun
  obtain ⟨state, hstate, _⟩ :=
    (htransparent _ [] (List.append_nil _).symm _ m hrun hfed).1.ledgerState_eq .sorted .sorted
  rw [hnone] at hstate
  cases hstate

end Ledger

end Kovanica
