import Kovanica.Dag.Linearization
import Kovanica.State.Invariant

/-!
# The incremental ledger refines the batch run

Every reachable ledger is well formed, and while the works of its blocks fit 128
bits the selected tip's state is stored.  `ledger_state` then continues that
state over the tail of the linearization, which is what the batch run computes
from scratch.

## Main results

* `offer_eq_ok_iff`: when a call stores its block, and the ledger it leaves.
* `ledgerState_eq_tail`, `ledgerState_eq`: the incremental state is a replay of the tail, and
  altogether a replay of the linearization.
-/

namespace Kovanica

open Lib Relation

namespace Ledger

variable [Crypto]

/-! ## Creation -/

theorem new_eq_ok_iff {ord : HashOrder} {k : KParam} {subsidy : U64} {genesisTxs : TxList}
    {l : Ledger} : Ledger.new ord k subsidy genesisTxs = .ok l ↔
      ∃ applied, applyBlock ∅ genesisTxs.val subsidy = .ok applied ∧ l =
        { dag := Dag.withValidator ord k (Block.genesis 1 0 0 genesisTxs.payload)
            txStructureValidator
          subsidy := subsidy
          genesis := (Block.genesis 1 0 0 genesisTxs.payload).id
          finalityDepth := Word.maxValue 64
          states := Finmap.singleton (Block.genesis 1 0 0 genesisTxs.payload).id applied.1 } := by
  unfold Ledger.new
  cases happly : applyBlock ∅ genesisTxs.val subsidy with
  | error e => simp
  | ok applied => simp [eq_comm]

/-- Both constructors: the finality depth is the only difference. -/
theorem started_iff {l : Ledger} : Started l ↔ ∃ ord k subsidy genesisTxs depth l₁,
    Ledger.new ord k subsidy genesisTxs = .ok l₁ ∧ l = { l₁ with finalityDepth := depth } := by
  constructor
  · rintro ⟨ord, k, subsidy, genesisTxs, hnew | ⟨depth, hwith⟩⟩
    · exact ⟨ord, k, subsidy, genesisTxs, l.finalityDepth, l, hnew, rfl⟩
    · rw [withFinality] at hwith
      split at hwith
      · cases hwith
      · rename_i l₁ hnew
        exact ⟨ord, k, subsidy, genesisTxs, depth, l₁, hnew, (Except.ok.inj hwith).symm⟩
  · rintro ⟨ord, k, subsidy, genesisTxs, depth, l₁, hnew, rfl⟩
    refine ⟨ord, k, subsidy, genesisTxs, .inr ⟨depth, ?_⟩⟩
    rw [withFinality, hnew]

/-- The blocks and states of a new ledger: genesis, applied to the empty set. -/
theorem Started.cases {l : Ledger} (h : Started l) :
    ∃ (ord : HashOrder) (k : KParam) (genesisTxs : TxList) (applied : UtxoSet × BlockSummary),
    applyBlock ∅ genesisTxs.val l.subsidy = .ok applied ∧
    l.genesis = (Block.genesis 1 0 0 genesisTxs.payload).id ∧
    l.dag = Dag.withValidator ord k (Block.genesis 1 0 0 genesisTxs.payload)
      txStructureValidator ∧
    l.states = Finmap.singleton l.genesis applied.1 := by
  obtain ⟨ord, k, subsidy, genesisTxs, depth, l₁, hnew, rfl⟩ := started_iff.1 h
  obtain ⟨applied, happly, rfl⟩ := new_eq_ok_iff.1 hnew
  exact ⟨ord, k, genesisTxs, applied, happly, rfl, rfl, rfl⟩

theorem Started.wellFormed {l : Ledger} (h : Started l) : l.WellFormed := by
  obtain ⟨ord, k, genesisTxs, applied, happly, hgenesis, hdag, hstates⟩ := h.cases
  have hwf : l.dag.WellFormed := by
    rw [hdag]
    exact DagView.wellFormed_new ord k (Block.genesis 1 0 0 genesisTxs.payload) rfl
  have hnode : l.dag.nodes.lookup l.genesis =
      some ⟨Block.genesis 1 0 0 genesisTxs.payload, 0, ∅, .genesis⟩ := by
    rw [hdag, hgenesis]
    exact Finmap.lookup_singleton_eq
  have hgen : l.dag.genesis = l.genesis := by rw [hdag, hgenesis]; rfl
  have hmem : ∀ x, x ∈ l.dag.nodes → x = l.genesis := by
    intro x hx
    rw [hdag] at hx
    rw [hgenesis]
    exact Finmap.mem_singleton _ _ _ |>.1 hx
  have hbefore : l.dag.orderBefore l.genesis = [] := by
    rw [DagView.orderBefore, DagView.selectedParentOf_eq hnode]
    rfl
  have happlies : Applies l.dag.toDagView l.subsidy ∅ l.genesis applied.1 := by
    refine ⟨genesisTxs.val, applied.2, ?_, happly⟩
    rw [DagView.node_of_lookup hnode]
    exact decode_encode genesisTxs
  refine ⟨hwf, hgen, by rw [hdag]; rfl, ?_, ?_, ?_, ?_⟩
  · intro x hx hne
    rw [hmem x hx] at hne
    exact absurd hgen.symm hne
  · intro x state hstate
    rw [hstates] at hstate
    have hx : x = l.genesis :=
      (Finmap.mem_singleton _ _ _).1 (Finmap.mem_of_lookup_eq_some hstate)
    rw [hx, Finmap.lookup_singleton_eq, Option.some.injEq] at hstate
    refine ⟨hx ▸ Finmap.mem_of_lookup_eq_some hnode, ?_⟩
    rw [hx, ← hgen, hwf.order_genesis, hgen, ← hstate]
    exact (applyStored_of_applies happlies).symm
  · intro x hx
    rw [hmem x hx, DagView.node_of_lookup hnode]
    exact ⟨genesisTxs, rfl⟩
  · intro x hx
    rw [hmem x hx, hbefore]
    exact ⟨applied.1, happlies⟩

theorem Reachable.wellFormed {l : Ledger} (h : Reachable l) : l.WellFormed := by
  obtain ⟨l₀, trace, h₀, hrun⟩ := h
  exact hrun.wellFormed h₀.wellFormed

/-! ## The selected tip's state -/

omit [Crypto] in
theorem not_final_selectedTip (l : Ledger) : ¬ l.Final l.dag.selectedTip := by
  rintro ⟨_, hlt⟩
  rw [finalityScore_eq] at hlt
  split at hlt <;> omega

/-- An accepted block and its ledger: grown by the block, and then pruned. -/
theorem offer_eq_ok_iff {l l' : Ledger} {o : Offer} {id : BlockId} :
    l.offer o = .ok (id, l') ↔ ∃ sp g state applied,
      Accepts o.ord l o.block o.txs sp g state applied ∧ id = o.block.id ∧
        l' = (l.grown o.block sp g applied.1).prune o.ord := by
  rw [offer, insert_eq_ok_iff]
  simp only [Prod.mk.injEq]
  rfl

theorem len_offer {l l' : Ledger} {o : Offer} {id : BlockId} (h : l.offer o = .ok (id, l')) :
    l'.dag.len = l.dag.len + 1 := by
  obtain ⟨sp, g, state, applied, haccepts, _, rfl⟩ := offer_eq_ok_iff.1 h
  rw [prune_dag]
  exact Dag.len_wire haccepts.admits

theorem Step.totalWork_le {l l' : Ledger} {a : Action} (hl : l.WellFormed) (h : Step l a l') :
    l.dag.totalWork ≤ l'.dag.totalWork := by
  cases h with
  | accepted hinsert =>
      obtain ⟨sp, g, state, applied, haccepts, _, rfl⟩ := offer_eq_ok_iff.1 hinsert
      rw [prune_dag]
      have hwork := Dag.totalWork_wire haccepts.admits hl.dag
      exact hwork ▸ Nat.le_add_right _ _
  | refused _ => exact le_refl _
  | difficulty _ => exact le_refl _
  | proofOfWork _ => exact le_refl _

theorem Step.tip_stored {l l' : Ledger} {a : Action} (hl : l.WellFormed) (h : Step l a l')
    (hwork : l'.dag.totalWork < 2 ^ 128) (htip : l.dag.selectedTip ∈ l.states) :
    l'.dag.selectedTip ∈ l'.states := by
  cases h with
  | @accepted o id l' hinsert =>
      obtain ⟨sp, g, state, applied, haccepts, _, rfl⟩ := offer_eq_ok_iff.1 hinsert
      have hnot := not_final_selectedTip (l.grown o.block sp g applied.1)
      rw [prune_dag] at hwork ⊢
      rw [← Finmap.lookup_isSome, lookup_prune, if_neg hnot, Finmap.lookup_isSome]
      have hpast := (Dag.wellFormed_wire haccepts.admits hl.dag).pastWork_le_totalWork o.block.id
      rcases Dag.selectedTip_wire_eq_or haccepts.admits hl.dag (hpast.trans_lt hwork) with
        hself | hold
      · exact Finmap.mem_insert.2 (.inl hself)
      · exact Finmap.mem_insert.2 (.inr (hold ▸ htip))
  | refused _ => exact htip
  | difficulty _ => exact htip
  | proofOfWork _ => exact htip

theorem Started.tip_stored {l : Ledger} (h : Started l) : l.dag.selectedTip ∈ l.states := by
  obtain ⟨ord, k, genesisTxs, applied, _, hgenesis, hdag, hstates⟩ := h.cases
  have htip := h.wellFormed.dag.selectedTip_mem
  rw [hstates, Finmap.mem_singleton, hgenesis]
  rw [hdag] at htip ⊢
  exact (Finmap.mem_singleton _ _ _).1 htip

theorem Run.tip_stored {l₀ l : Ledger} {trace : List (Ledger × Action)} (h₀ : Started l₀)
    (h : Run l₀ trace l) (hwork : l.dag.totalWork < 2 ^ 128) : l.dag.selectedTip ∈ l.states := by
  induction h with
  | start => exact h₀.tip_stored
  | step hrun hstep ih =>
      have hl := hrun.wellFormed h₀.wellFormed
      exact hstep.tip_stored hl hwork (ih (lt_of_le_of_lt (hstep.totalWork_le hl) hwork))

/-! ## The ledger's state -/

/-- `ledger_state` is the selected tip's state with the tail of the linearization
applied. -/
theorem ledgerState_eq_tail {l : Ledger} (hl : l.WellFormed) (ord : HashOrder) :
    l.ledgerState ord = (l.states.lookup l.dag.selectedTip).map fun state =>
      (l.dag.tail ord (l.dag.order l.dag.selectedTip).toFinset).foldl
        (applyStored l.dag.toDagView l.subsidy) state := by
  have hsplit := hl.dag.linearize_at_tip ord
  have hpos : (l.dag.linearize ord).idxOf? l.dag.selectedTip =
      some (l.dag.orderBefore l.dag.selectedTip).length := by
    rw [hsplit]
    exact idxOf?_append_cons (hl.dag.notMem_orderBefore hl.dag.selectedTip_mem) _
  have hdrop : (l.dag.linearize ord).drop ((l.dag.orderBefore l.dag.selectedTip).length + 1) =
      l.dag.tail ord (l.dag.order l.dag.selectedTip).toFinset := by
    rw [hsplit, List.drop_append, List.drop_of_length_le (Nat.le_succ _),
      Nat.add_sub_cancel_left]
    rfl
  rw [ledgerState]
  simp only [hpos, hdrop, Option.bind_some]

/-- Where the tip's state is stored, `ledger_state` is the replay of the
linearization. -/
theorem ledgerState_eq {l : Ledger} (hl : l.WellFormed) (ord : HashOrder) :
    l.ledgerState ord = (l.states.lookup l.dag.selectedTip).map fun _ =>
      l.dag.replay l.subsidy (l.dag.linearize ord) := by
  rw [ledgerState_eq_tail hl]
  cases hstate : l.states.lookup l.dag.selectedTip with
  | none => rfl
  | some state =>
      rw [Option.map_some, Option.map_some, (hl.state_eq _ state hstate).2,
        DagView.WellFormed.linearize_eq, DagView.replay_append]

/-- The incremental ledger agrees with the batch run: its state is the batch run's
UTXO set, every stored state is the replay of its block's order, and the batch run
accepts every block of the selected chain. -/
theorem ledgerState_refines_applyDag {l : Ledger} (h : Reachable l)
    (hwork : l.dag.totalWork < 2 ^ 128) (ord ord' : HashOrder) :
    l.ledgerState ord = some (applyDag ord' l.dag.toDagView l.subsidy).utxo ∧
      (∀ x state, l.state x = some state →
        state = l.dag.replay l.subsidy (l.dag.order x)) ∧
      (l.dag.order l.genesis = [l.genesis] ∧
        ∀ x sp, l.dag.selectedParentOf x = some sp →
          l.dag.order x = l.dag.order sp ++ l.dag.mergesetOrder x ++ [x]) ∧
      ∀ x ∈ l.dag.selectedChain, x ∈ (applyDag ord' l.dag.toDagView l.subsidy).accepted ∧
        ∀ e, (x, e) ∉ (applyDag ord' l.dag.toDagView l.subsidy).rejected := by
  have hl := h.wellFormed
  obtain ⟨l₀, trace, h₀, hrun⟩ := h
  have htip := hrun.tip_stored h₀ hwork
  refine ⟨?_, fun x state hstate => (hl.state_eq x state hstate).2, ⟨?_, ?_⟩, ?_⟩
  · rw [ledgerState_eq hl, applyDag_utxo, hl.dag.linearize_ord ord ord']
    obtain ⟨state, hstate⟩ := Finmap.mem_iff.1 htip
    rw [hstate, Option.map_some]
  · rw [← hl.genesis_eq]
    exact hl.dag.order_genesis
  · exact fun x sp hsp => hl.dag.order_step hsp
  · intro x hx
    -- the order of a chain block is a prefix of the linearization
    have hmem := hl.dag.selectedTip_mem
    have hreach := (hl.dag.mem_chainTo hmem).1 hx
    have hxMem := hl.dag.mem_of_mem_chainTo hmem hx
    obtain ⟨rest, hrest⟩ := hl.dag.order_prefix hreach
    have hsplit : l.dag.linearize ord' = l.dag.orderBefore x ++ x ::
        (rest ++ l.dag.tail ord' (l.dag.order l.dag.selectedTip).toFinset) := by
      rw [DagView.WellFormed.linearize_eq, ← hrest, hl.dag.order_eq hxMem]
      simp only [List.append_assoc, List.cons_append, List.nil_append]
    have happlies := hl.replay_order hxMem
    constructor
    · rw [applyDag_accepted, DagView.applied, hsplit, DagView.appliedFrom_append]
      refine List.mem_append_right _ ?_
      rw [DagView.replay] at happlies
      rw [DagView.appliedFrom_cons_of_applies happlies]
      exact List.mem_cons_self ..
    · intro e he
      obtain ⟨before, after, hsplit', hnot⟩ := applyDag_rejected ord' he
      have hnodup := hl.dag.nodup_linearize ord'
      rw [hsplit, List.nodup_middle, List.nodup_cons, List.mem_append, not_or] at hnodup
      rw [hsplit] at hsplit'
      have hbefore :=
        ((List.append_cons_inj_of_notMem hnodup.1.1 hnodup.1.2).1 hsplit').1
      exact hnot _ (hbefore ▸ happlies)

end Ledger

namespace Ledger

open scoped Reference
open Reference (premineTxs noTxs spendOffer besideOffer)

/-- The spend of the premine next to an empty block, and a block that merges them. -/
theorem ledgerState_refines_applyDag_merge : ∃ l : Ledger, l.dag.len = 4 ∧
    l.ledgerState .sorted = some (applyDag .sorted l.dag.toDagView l.subsidy).utxo := by
  have hplay : (playNew .sorted 3 1 premineTxs 2 [.offer spendOffer, .offer besideOffer,
      .offer (.on [spendOffer.block.id, besideOffer.block.id] 1 3 noTxs)]).map
        (fun played => (played.2.dag.len, decide (played.2.dag.totalWork < 2 ^ 128))) =
          some (4, true) := by
    decide +kernel
  obtain ⟨played, hplayed, heq⟩ := Option.map_eq_some_iff.1 hplay
  obtain ⟨hlen, hwork⟩ := Prod.mk.inj heq
  exact ⟨played.2, hlen, (ledgerState_refines_applyDag (reachable_of_playNew hplayed)
    (of_decide_eq_true hwork) .sorted .sorted).1⟩

end Ledger

end Kovanica
