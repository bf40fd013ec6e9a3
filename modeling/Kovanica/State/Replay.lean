import Kovanica.Dag.Tips
import Kovanica.State.Ledger

/-!
# Replaying a list of blocks

`replay` folds `apply_block` over a list of blocks from the empty set, a failing
block having no effect.  It is the reading both ledgers are compared with: the
batch run replays the linearization, a stored state replays its block's order.

## Main results

* `applyDag_utxo`, `applyDag_accepted`, `applyDag_rejected`: the batch run in terms of `replay`.
* `applyDag_perm`: every block is accepted or rejected.
-/

namespace Kovanica

open Lib Relation

/-! ## Applying one block -/

/-- The block's payload decodes and applies to `state`, giving `next`.  A block for which there is
no such state is passed over. -/
def Applies [Crypto] (d : DagView) (subsidy : U64) (state : UtxoSet) (id : BlockId)
    (next : UtxoSet) : Prop :=
  ∃ txs summary, decodeBlockPayload (d.node id).block.payload.val = .ok txs ∧
    applyBlock state txs subsidy = .ok (next, summary)

section Apply

variable [Crypto] {d d' : DagView} {subsidy : U64} {state next : UtxoSet} {id : BlockId}

theorem applyStored_of_applies (h : Applies d subsidy state id next) :
    applyStored d subsidy state id = next := by
  obtain ⟨txs, summary, hdecode, happly⟩ := h
  rw [applyStored, hdecode]
  simp only [happly]

theorem applyStored_of_not_applies (h : ∀ next, ¬ Applies d subsidy state id next) :
    applyStored d subsidy state id = state := by
  rw [applyStored]
  cases hdecode : decodeBlockPayload (d.node id).block.payload.val with
  | error e => rfl
  | ok txs =>
      cases happly : applyBlock state txs subsidy with
      | error e => simp only [happly]
      | ok applied => exact absurd ⟨txs, applied.2, hdecode, happly⟩ (h applied.1)

theorem applyStored_congr (h : (d.node id).block = (d'.node id).block) :
    applyStored d subsidy state id = applyStored d' subsidy state id := by
  rw [applyStored, applyStored, h]

/-- One block of the batch, told apart by whether it applies. -/
theorem runBlock_spec (d : DagView) (subsidy : U64) (run : LedgerRun) (id : BlockId) :
    (runBlock d subsidy run id).utxo = applyStored d subsidy run.utxo id ∧
      ((∃ next, Applies d subsidy run.utxo id next) ∧
          (runBlock d subsidy run id).accepted = run.accepted ++ [id] ∧
          (runBlock d subsidy run id).rejected = run.rejected ∨
        (∀ next, ¬ Applies d subsidy run.utxo id next) ∧
          (runBlock d subsidy run id).accepted = run.accepted ∧
          ∃ e, (runBlock d subsidy run id).rejected = run.rejected ++ [(id, e)]) := by
  unfold runBlock applyStored Applies
  cases hdecode : decodeBlockPayload (d.node id).block.payload.val with
  | error e =>
      refine ⟨rfl, .inr ⟨?_, rfl, .payload e, rfl⟩⟩
      rintro next ⟨txs, summary, hok, _⟩
      cases hok
  | ok txs =>
      cases happly : applyBlock run.utxo txs subsidy with
      | error e =>
          refine ⟨by simp only [happly], .inr ⟨?_, by simp only [happly], e, by simp only [happly]⟩⟩
          rintro next ⟨txs', summary, hok, happly'⟩
          rw [← Except.ok.inj hok, happly] at happly'
          cases happly'
      | ok applied =>
          refine ⟨by simp only [happly], .inl ⟨⟨applied.1, txs, applied.2, rfl, happly⟩, ?_⟩⟩
          exact ⟨by simp only [happly], by simp only [happly]⟩

end Apply

/-! ## Replays -/

namespace DagView

/-- The state after the blocks of a list, each applied to what the ones before it leave, or passed
over where it does not apply. -/
def replay [Crypto] (d : DagView) (subsidy : U64) (ids : List BlockId) : UtxoSet :=
  ids.foldl (applyStored d subsidy) ∅

/-- The blocks of a list that apply, each to the state the ones before it leave. -/
def appliedFrom [Crypto] (d : DagView) (subsidy : U64) :
    (state : UtxoSet) → List BlockId → List BlockId
  | _, [] => []
  | state, id :: rest =>
      let later := appliedFrom d subsidy (applyStored d subsidy state id) rest
      match decodeBlockPayload (d.node id).block.payload.val with
      | .error _ => later
      | .ok txs => if (applyBlock state txs subsidy).isOk then id :: later else later

/-- The blocks of a list that apply in a replay. -/
def applied [Crypto] (d : DagView) (subsidy : U64) (ids : List BlockId) : List BlockId :=
  d.appliedFrom subsidy ∅ ids

variable [Crypto] {d d' : DagView} {subsidy : U64}

theorem replay_append (ids ids' : List BlockId) :
    d.replay subsidy (ids ++ ids') = ids'.foldl (applyStored d subsidy) (d.replay subsidy ids) :=
  List.foldl_append

theorem replay_concat (ids : List BlockId) (id : BlockId) :
    d.replay subsidy (ids ++ [id]) = applyStored d subsidy (d.replay subsidy ids) id :=
  replay_append ids [id]

theorem foldl_applyStored_congr {ids : List BlockId}
    (h : ∀ x ∈ ids, (d.node x).block = (d'.node x).block) (state : UtxoSet) :
    ids.foldl (applyStored d subsidy) state = ids.foldl (applyStored d' subsidy) state :=
  List.foldl_ext _ _ state fun _ x hx => applyStored_congr (h x hx)

theorem replay_congr {ids : List BlockId}
    (h : ∀ x ∈ ids, (d.node x).block = (d'.node x).block) :
    d.replay subsidy ids = d'.replay subsidy ids :=
  foldl_applyStored_congr h ∅

theorem appliedFrom_cons_of_applies {state next : UtxoSet} {id : BlockId} {rest : List BlockId}
    (h : Applies d subsidy state id next) :
    d.appliedFrom subsidy state (id :: rest) = id :: d.appliedFrom subsidy next rest := by
  rw [appliedFrom, applyStored_of_applies h]
  obtain ⟨txs, summary, hdecode, happly⟩ := h
  simp only [hdecode, happly, Except.isOk, Except.toBool, if_true]

theorem appliedFrom_cons_of_not_applies {state : UtxoSet} {id : BlockId} {rest : List BlockId}
    (h : ∀ next, ¬ Applies d subsidy state id next) :
    d.appliedFrom subsidy state (id :: rest) = d.appliedFrom subsidy state rest := by
  rw [appliedFrom, applyStored_of_not_applies h]
  cases hdecode : decodeBlockPayload (d.node id).block.payload.val with
  | error e => rfl
  | ok txs =>
      cases happly : applyBlock state txs subsidy with
      | error e =>
          simp only [happly, Except.isOk, Except.toBool, Bool.false_eq_true, if_false]
      | ok applied => exact absurd ⟨txs, applied.2, hdecode, happly⟩ (h applied.1)

theorem appliedFrom_append (state : UtxoSet) (ids ids' : List BlockId) :
    d.appliedFrom subsidy state (ids ++ ids') = d.appliedFrom subsidy state ids ++
      d.appliedFrom subsidy (ids.foldl (applyStored d subsidy) state) ids' := by
  induction ids generalizing state with
  | nil => rfl
  | cons id rest ih =>
      by_cases happlies : ∃ next, Applies d subsidy state id next
      · obtain ⟨next, happlies⟩ := happlies
        rw [List.cons_append, appliedFrom_cons_of_applies happlies,
          appliedFrom_cons_of_applies happlies, List.foldl_cons, applyStored_of_applies happlies,
          ih, List.cons_append]
      · have hnot := not_exists.1 happlies
        rw [List.cons_append, appliedFrom_cons_of_not_applies hnot,
          appliedFrom_cons_of_not_applies hnot, List.foldl_cons, applyStored_of_not_applies hnot,
          ih]

theorem appliedFrom_sublist (state : UtxoSet) (ids : List BlockId) :
    (d.appliedFrom subsidy state ids).Sublist ids := by
  induction ids generalizing state with
  | nil => exact .slnil
  | cons id rest ih =>
      by_cases happlies : ∃ next, Applies d subsidy state id next
      · obtain ⟨next, happlies⟩ := happlies
        rw [appliedFrom_cons_of_applies happlies]
        exact (ih next).cons_cons id
      · rw [appliedFrom_cons_of_not_applies (not_exists.1 happlies)]
        exact (ih state).cons id

end DagView

/-! ## The batch run as a replay -/

section Batch

variable [Crypto] {d : DagView} {subsidy : U64}

private theorem foldl_runBlock (ids : List BlockId) (run : LedgerRun) :
    (ids.foldl (runBlock d subsidy) run).utxo = ids.foldl (applyStored d subsidy) run.utxo ∧
      (ids.foldl (runBlock d subsidy) run).accepted =
        run.accepted ++ d.appliedFrom subsidy run.utxo ids ∧
      ∀ x, (∃ e, (x, e) ∈ (ids.foldl (runBlock d subsidy) run).rejected) →
        (∃ e, (x, e) ∈ run.rejected) ∨ ∃ before after, ids = before ++ x :: after ∧
          ∀ next, ¬ Applies d subsidy (before.foldl (applyStored d subsidy) run.utxo) x next := by
  induction ids generalizing run with
  | nil => exact ⟨rfl, (List.append_nil _).symm, fun x hx => .inl hx⟩
  | cons id rest ih =>
      obtain ⟨hutxo, hcase⟩ := runBlock_spec d subsidy run id
      obtain ⟨hfold, haccepted, hrejected⟩ := ih (runBlock d subsidy run id)
      rw [hutxo] at hfold haccepted
      refine ⟨hfold, ?_, ?_⟩
      · rw [List.foldl_cons, haccepted]
        rcases hcase with ⟨⟨next, happlies⟩, hacc, _⟩ | ⟨hnot, hacc, _⟩
        · rw [hacc, DagView.appliedFrom_cons_of_applies happlies,
            applyStored_of_applies happlies, List.append_assoc]
          rfl
        · rw [hacc, DagView.appliedFrom_cons_of_not_applies hnot, applyStored_of_not_applies hnot]
      · intro x hx
        rcases hrejected x hx with ⟨e, hx⟩ | ⟨before, after, hsplit, hnot⟩
        · rcases hcase with ⟨_, _, hrej⟩ | ⟨hnot, _, e', hrej⟩
          · exact .inl ⟨e, hrej ▸ hx⟩
          · rw [hrej] at hx
            rcases List.mem_append.1 hx with hold | hnew
            · exact .inl ⟨e, hold⟩
            · rw [List.mem_singleton, Prod.mk.injEq] at hnew
              exact .inr ⟨[], rest, by rw [hnew.1, List.nil_append], hnew.1 ▸ hnot⟩
        · refine .inr ⟨id :: before, after, by rw [hsplit, List.cons_append], ?_⟩
          rwa [List.foldl_cons, ← hutxo]

/-- The batch run ends in the replay of the linearization. -/
theorem applyDag_utxo (ord : HashOrder) :
    (applyDag ord d subsidy).utxo = d.replay subsidy (d.linearize ord) :=
  (foldl_runBlock (d.linearize ord) ⟨∅, [], []⟩).1

/-- The batch run accepts what applies in the replay. -/
theorem applyDag_accepted (ord : HashOrder) :
    (applyDag ord d subsidy).accepted = d.applied subsidy (d.linearize ord) :=
  (foldl_runBlock (d.linearize ord) ⟨∅, [], []⟩).2.1

/-- A rejected block did not apply at its place in the linearization. -/
theorem applyDag_rejected (ord : HashOrder) {x : BlockId} {e : LedgerError}
    (hx : (x, e) ∈ (applyDag ord d subsidy).rejected) :
    ∃ before after, d.linearize ord = before ++ x :: after ∧
      ∀ next, ¬ Applies d subsidy (d.replay subsidy before) x next := by
  rcases (foldl_runBlock (d.linearize ord) ⟨∅, [], []⟩).2.2 x ⟨e, hx⟩ with ⟨_, hnil⟩ | hsplit
  · cases hnil
  · exact hsplit

private theorem foldl_runBlock_perm (ids : List BlockId) (run : LedgerRun) :
    ((ids.foldl (runBlock d subsidy) run).accepted ++
      (ids.foldl (runBlock d subsidy) run).rejected.map Prod.fst).Perm
        (run.accepted ++ run.rejected.map Prod.fst ++ ids) := by
  induction ids generalizing run with
  | nil => rw [List.append_nil, List.foldl_nil]
  | cons id rest ih =>
      rw [List.foldl_cons, List.append_cons]
      refine (ih _).trans (List.Perm.append_right rest ?_)
      obtain ⟨_, ⟨_, hacc, hrej⟩ | ⟨_, hacc, e, hrej⟩⟩ := runBlock_spec d subsidy run id
      · rw [hacc, hrej, List.append_assoc, List.append_assoc]
        exact List.Perm.append_left _ List.perm_append_comm
      · rw [hacc, hrej, List.map_append, List.append_assoc]
        rfl

/-- Every block of the linearization is accepted or rejected. -/
theorem applyDag_perm (ord : HashOrder) (d : DagView) (subsidy : U64) :
    ((applyDag ord d subsidy).accepted ++ (applyDag ord d subsidy).rejected.map Prod.fst).Perm
      (d.linearize ord) :=
  foldl_runBlock_perm (d.linearize ord) ⟨∅, [], []⟩

end Batch

end Kovanica
