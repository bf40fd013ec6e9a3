import Kovanica.Reference
import Kovanica.State.Replay

/-!
# The invariant of a ledger

`Accepts` is the exact condition under which an insert succeeds.  `WellFormed`
says what holds of every ledger reached by inserts: a stored state is the replay
of its block's order, and every block of the DAG applies after the blocks its
order lists before it.  `Run` is a sequence of calls, accepted or refused.

## Main results

* `insert_eq`, `offer_eq`: an insert by cases, stored exactly if `Accepts` holds.
* `lookup_prune`, `prune_eq`: which states pruning keeps.
* `replay_orders_eq`, `applies_grown`: an order replays alike wherever the past is the same, and
  a new block applies in its own view.
* `wellFormed_grown`, `WellFormed.policy`: the invariant is kept.
-/

namespace Kovanica

open Lib Relation

/-- The arguments of one `insert`, and the order its maps are iterated in.  The order is part of
the call because it may be another one at every call. -/
structure Offer where
  ord : HashOrder
  parents : Vec BlockId
  work : U128
  timestampMs : U64
  nonce : U64
  txs : TxList

namespace Offer

/-- The block the call builds. -/
def block (o : Offer) : Block := Ledger.blockOf o.parents o.work o.timestampMs o.nonce o.txs

/-- The offer of a block on these parents. -/
def on (parents : List BlockId) (work : U128) (timestampMs : U64) (txs : TxList) : Offer :=
  ⟨.sorted, Reference.vec parents, work, timestampMs, 0, txs⟩

end Offer

namespace Reference

open scoped Reference

/-- The spend of the premine, in a block on its genesis. -/
def spendOffer : Offer := .on [premineGenesis.id] 1 1 spendTxs

/-- An empty block next to it. -/
def besideOffer : Offer := .on [premineGenesis.id] 1 2 noTxs

end Reference

namespace Ledger

/-- The call. -/
def offer [Crypto] (l : Ledger) (o : Offer) : Outcome LedgerInsertError (BlockId × Ledger) :=
  l.insert o.ord o.parents o.work o.timestampMs o.nonce o.txs

/-- The call is accepted. -/
def Accepted [Crypto] (l : Ledger) (o : Offer) : Prop := ∃ id l', l.offer o = .ok (id, l')

instance [Crypto] (l : Ledger) (o : Offer) : Decidable (l.Accepted o) :=
  match h : l.offer o with
  | .ok (id, l') => isTrue ⟨id, l', h⟩
  | .error _ => isFalse fun ⟨_, _, h'⟩ => by
      rw [h] at h'
      cases h'

/-! ## Scores and pruning -/

theorem blueScoreOf_eq (l : Ledger) (id : BlockId) : l.blueScoreOf id = l.dag.blueScore id := by
  rw [blueScoreOf, DagView.blueScore, DagView.ghostdag, DagView.node, valueAt]
  cases l.dag.nodes.lookup id <;> rfl

theorem finalityScore_eq (l : Ledger) : l.finalityScore =
    if l.finalityDepth = Word.maxValue 64 then 0
    else l.dag.blueScore l.dag.selectedTip - l.finalityDepth.val := by
  rw [← blueScoreOf_eq, blueScoreOf, finalityScore]

/-- The block is final: stored, with a blue score below the threshold.  The threshold is that of
this ledger, and may have been a higher one before. -/
def Final (l : Ledger) (x : BlockId) : Prop :=
  x ∈ l.dag.nodes ∧ l.dag.blueScore x < l.finalityScore

instance (l : Ledger) (x : BlockId) : Decidable (l.Final x) := inferInstanceAs (Decidable (_ ∧ _))

/-- Pruning drops the states of the final blocks and nothing else. -/
theorem lookup_prune (ord : HashOrder) (l : Ledger) (x : BlockId) :
    (l.prune ord).states.lookup x = if l.Final x then none else l.states.lookup x := by
  have hany : ∀ y, ((l.dag.ghostdag y).any fun g => g.blueScore < l.finalityScore) = true ↔
      l.Final y := by
    intro y
    rw [Final, DagView.ghostdag, DagView.blueScore, DagView.node, valueAt]
    cases hy : l.dag.nodes.lookup y with
    | none => simp [Finmap.lookup_eq_none.1 hy]
    | some n => simp [Finmap.mem_of_lookup_eq_some hy]
  unfold prune
  by_cases hzero : l.finalityScore = 0
  · simp only [hzero, if_true]
    rw [if_neg]
    rintro ⟨_, hlt⟩
    omega
  · simp only [if_neg hzero]
    rw [lookup_foldl_erase (fun id => id), List.map_id']
    simp only [List.mem_filter, HashOrder.mem_iter, Finmap.mem_keys, hany]
    by_cases hx : x ∈ l.states
    · simp only [hx, true_and]
    · rw [Finmap.lookup_eq_none.2 hx]
      simp only [ite_self]

/-- Pruning touches the states only. -/
theorem prune_eq (ord : HashOrder) (l : Ledger) :
    l.prune ord = { l with states := (l.prune ord).states } := by
  unfold prune
  by_cases hzero : l.finalityScore = 0
  · simp only [hzero, if_true]
  · simp only [if_neg hzero]

@[simp] theorem prune_dag (ord : HashOrder) (l : Ledger) : (l.prune ord).dag = l.dag := by
  rw [prune_eq]

@[simp] theorem prune_subsidy (ord : HashOrder) (l : Ledger) :
    (l.prune ord).subsidy = l.subsidy := by
  rw [prune_eq]

@[simp] theorem prune_genesis (ord : HashOrder) (l : Ledger) :
    (l.prune ord).genesis = l.genesis := by
  rw [prune_eq]

@[simp] theorem prune_finalityDepth (ord : HashOrder) (l : Ledger) :
    (l.prune ord).finalityDepth = l.finalityDepth := by
  rw [prune_eq]

theorem finalityScore_congr {l l' : Ledger} (hdag : l.dag = l'.dag)
    (hdepth : l.finalityDepth = l'.finalityDepth) : l.finalityScore = l'.finalityScore := by
  rw [finalityScore_eq, finalityScore_eq, hdag, hdepth]

/-! ## When an insert succeeds -/

variable [Crypto]

/-- The checks `insert` makes, and the data it derives on the way: the selected parent, the
consensus data, the state of the selected parent, and what the block makes of its view. -/
structure Accepts (ord : HashOrder) (l : Ledger) (block : Block) (txs : TxList) (sp : BlockId)
    (g : GhostdagData) (state : UtxoSet) (applied : UtxoSet × BlockSummary) : Prop where
  admits : Dag.Admits ord l.dag block sp g
  not_final : l.finalityScore ≤ l.dag.blueScore sp
  stored : l.states.lookup sp = some state
  applies : applyBlock ((l.dag.mergesetOrdered sp block.parents).foldl
    (applyStored l.dag.toDagView l.subsidy) state) txs.val l.subsidy = .ok applied

/-- The ledger after an accepted block, before pruning: the block is wired into the DAG, and its
own state is stored beside those of the others. -/
def grown (l : Ledger) (block : Block) (sp : BlockId) (g : GhostdagData) (state : UtxoSet) :
    Ledger :=
  { l with
    dag := l.dag.wire block sp g
    states := l.states.insert block.id state }

theorem preview_eq_ok {d : DagView} {block : Block} {sp : BlockId}
    (hstruct : d.checkStructure block = .ok ()) (hsp : d.selectParent block.parents = some sp) :
    d.preview block = .ok ⟨sp, d.mergesetOrdered sp block.parents⟩ := by
  rw [DagView.preview, hstruct]
  simp only [hsp, Option.getD_some]

/-- The outcome of an insert whose parents are stored, `sp` being the heaviest. -/
theorem insert_eq {l : Ledger} {ord : HashOrder} {parents : Vec BlockId} {work : U128}
    {timestampMs nonce : U64} {txs : TxList} {block : Block} {sp : BlockId}
    (hblock : blockOf parents work timestampMs nonce txs = block)
    (hstruct : l.dag.checkStructure block = .ok ())
    (hsp : l.dag.selectParent block.parents = some sp) :
    l.insert ord parents work timestampMs nonce txs =
      if l.dag.blueScore sp < l.finalityScore then
        .error (.error (.finality (l.dag.blueScore sp) l.finalityScore))
      else
        match l.states.lookup sp with
        | none => .error (.panic "non-final selected parent always has a stored state")
        | some state =>
            match applyBlock ((l.dag.mergesetOrdered sp block.parents).foldl
              (applyStored l.dag.toDagView l.subsidy) state) txs.val l.subsidy with
            | .error e => .error (.error (.state e))
            | .ok applied =>
                match l.dag.insert ord block with
                | .error (.error e) => .error (.error (.dag e))
                | .error (.panic site) => .error (.panic site)
                | .ok (id, dag) =>
                    .ok (id, prune ord { l with
                      dag := dag
                      states := l.states.insert id applied.1 }) := by
  unfold insert
  simp only [hblock, preview_eq_ok hstruct hsp, blueScoreOf_eq, viewState]
  cases l.states.lookup sp <;> rfl

/-- The same for a call. -/
theorem offer_eq {l : Ledger} {o : Offer} {sp : BlockId}
    (hstruct : l.dag.checkStructure o.block = .ok ())
    (hsp : l.dag.selectParent o.block.parents = some sp) :
    l.offer o =
      if l.dag.blueScore sp < l.finalityScore then
        .error (.error (.finality (l.dag.blueScore sp) l.finalityScore))
      else
        match l.states.lookup sp with
        | none => .error (.panic "non-final selected parent always has a stored state")
        | some state =>
            match applyBlock ((l.dag.mergesetOrdered sp o.block.parents).foldl
              (applyStored l.dag.toDagView l.subsidy) state) o.txs.val l.subsidy with
            | .error e => .error (.error (.state e))
            | .ok applied =>
                match l.dag.insert o.ord o.block with
                | .error (.error e) => .error (.error (.dag e))
                | .error (.panic site) => .error (.panic site)
                | .ok (id, dag) =>
                    .ok (id, prune o.ord { l with
                      dag := dag
                      states := l.states.insert id applied.1 }) :=
  insert_eq rfl hstruct hsp

/-- A block whose structure is wrong is refused for that. -/
theorem offer_eq_of_structure {l : Ledger} {o : Offer} {e : DagError}
    (hstruct : l.dag.checkStructure o.block = .error e) :
    l.offer o = .error (.error (.dag e)) := by
  have hblock : blockOf o.parents o.work o.timestampMs o.nonce o.txs = o.block := rfl
  unfold offer insert
  simp only [hblock, DagView.preview, hstruct]

/-- A block reported as a duplicate is stored. -/
theorem mem_of_offer_duplicate {l : Ledger} {o : Offer} {id : BlockId}
    (h : l.offer o = .error (.error (.dag (.duplicateBlock id)))) : o.block.id ∈ l.dag.nodes := by
  cases hstruct : l.dag.checkStructure o.block with
  | error e =>
      rw [offer_eq_of_structure hstruct] at h
      simp only [Except.error.injEq, Fault.error.injEq, LedgerInsertError.dag.injEq] at h
      rw [h] at hstruct
      exact Dag.mem_of_checkStructure hstruct
  | ok u =>
      obtain ⟨sp, hsp⟩ := exists_maxByKey l.dag.chainKey (Dag.checkStructure_ok_iff.1 hstruct).2.1
      rw [offer_eq hstruct hsp] at h
      split at h
      · cases h
      split at h
      · cases h
      split at h
      · cases h
      split at h
      · rename_i e he
        simp only [Except.error.injEq, Fault.error.injEq, LedgerInsertError.dag.injEq] at h
        rw [h] at he
        exact absurd he (Dag.insert_ne_duplicate hstruct id)
      · cases h
      · cases h

theorem insert_eq_ok_iff {l : Ledger} {ord : HashOrder} {parents : Vec BlockId} {work : U128}
    {timestampMs nonce : U64} {txs : TxList} {r : BlockId × Ledger} :
    l.insert ord parents work timestampMs nonce txs = .ok r ↔
      ∃ sp g state applied,
        Accepts ord l (blockOf parents work timestampMs nonce txs) txs sp g state applied ∧
        r = ((blockOf parents work timestampMs nonce txs).id,
          (l.grown (blockOf parents work timestampMs nonce txs) sp g applied.1).prune ord) := by
  obtain ⟨block, hblock⟩ : ∃ block, blockOf parents work timestampMs nonce txs = block := ⟨_, rfl⟩
  rw [hblock]
  constructor
  · intro h
    cases hstruct : l.dag.checkStructure block with
    | error e =>
        unfold insert at h
        simp only [hblock, DagView.preview, hstruct] at h
        cases h
    | ok u =>
        obtain ⟨_, hne, _⟩ := Dag.checkStructure_ok_iff.1 hstruct
        obtain ⟨sp, hsp⟩ := exists_maxByKey l.dag.chainKey hne
        rw [insert_eq hblock hstruct hsp] at h
        split at h
        · cases h
        rename_i hfinal
        split at h
        · cases h
        rename_i state hstate
        split at h
        · cases h
        rename_i applied happly
        split at h
        · cases h
        · cases h
        rename_i id dag hinsert
        obtain ⟨sp', g, hadmits, heq⟩ := Dag.insert_eq_ok_iff.1 hinsert
        rw [← Option.some.inj (hadmits.selectParent_eq.symm.trans hsp)] at hfinal hstate happly
        obtain ⟨rfl, rfl⟩ := Prod.mk.inj heq
        exact ⟨sp', g, state, applied, ⟨hadmits, not_lt.1 hfinal, hstate, happly⟩,
          (Except.ok.inj h).symm⟩
  · rintro ⟨sp, g, state, applied, h, rfl⟩
    have hstruct := Dag.checkStructure_ok_iff.2
      ⟨h.admits.fresh, h.admits.parents_ne, h.admits.parents_mem⟩
    rw [insert_eq hblock hstruct h.admits.selectParent_eq, if_neg (not_lt.2 h.not_final)]
    simp only [h.stored, h.applies, Dag.insert_eq_ok_iff.2 ⟨sp, g, h.admits, rfl⟩]
    rfl

/-! ## Runs -/

/-- A ledger as it is created. -/
def Started (l : Ledger) : Prop :=
  ∃ ord k subsidy genesisTxs, Ledger.new ord k subsidy genesisTxs = .ok l ∨
    ∃ finalityDepth, Ledger.withFinality ord k subsidy genesisTxs finalityDepth = .ok l

/-- What can be done to a ledger: a block is offered, or one of its policies is changed.  Queries
leave it as it is and are not among these. -/
inductive Action where
  | offer (o : Offer)
  | setDifficulty (retarget : Retarget)
  | setProofOfWork (enabled : Bool)

/-- One call that returns.  A refused block leaves the ledger as it was; a call that panics has no
step, since nothing is left to go on from. -/
inductive Step (l : Ledger) : Action → Ledger → Prop
  | accepted {o : Offer} {id : BlockId} {l' : Ledger} :
      l.offer o = .ok (id, l') → Step l (.offer o) l'
  | refused {o : Offer} {e : LedgerInsertError} :
      l.offer o = .error (.error e) → Step l (.offer o) l
  | difficulty (retarget : Retarget) : Step l (.setDifficulty retarget) (l.setDifficulty retarget)
  | proofOfWork (enabled : Bool) : Step l (.setProofOfWork enabled) (l.setProofOfWork enabled)

/-- `Run l₀ trace l`: the calls of `trace`, each with the ledger it was made on,
lead from `l₀` to `l`. -/
inductive Run (l₀ : Ledger) : List (Ledger × Action) → Ledger → Prop
  | start : Run l₀ [] l₀
  | step {trace : List (Ledger × Action)} {l l' : Ledger} {a : Action} :
      Run l₀ trace l → Step l a l' → Run l₀ (trace ++ [(l, a)]) l'

/-- The offers among the calls of a trace. -/
def offersOf (trace : List (Ledger × Action)) : List (Ledger × Offer) :=
  trace.filterMap fun p => match p.2 with
    | .offer o => some (p.1, o)
    | _ => none

omit [Crypto] in
theorem mem_offersOf {trace : List (Ledger × Action)} {s : Ledger} {o : Offer} :
    (s, o) ∈ offersOf trace ↔ (s, .offer o) ∈ trace := by
  rw [offersOf, List.mem_filterMap]
  constructor
  · rintro ⟨⟨s', a⟩, hmem, heq⟩
    cases a with
    | offer o' =>
        obtain ⟨rfl, rfl⟩ := Prod.mk.inj (Option.some.inj heq)
        exact hmem
    | setDifficulty _ => cases heq
    | setProofOfWork _ => cases heq
  · exact fun hmem => ⟨_, hmem, rfl⟩

/-- The ledger after a call that returns; `none` is a panic. -/
def act (l : Ledger) : Action → Option Ledger
  | .offer o =>
      match l.offer o with
      | .ok (_, l') => some l'
      | .error (.error _) => some l
      | .error (.panic _) => none
  | .setDifficulty retarget => some (l.setDifficulty retarget)
  | .setProofOfWork enabled => some (l.setProofOfWork enabled)

/-- The calls in turn: the trace and the last ledger. -/
def play (l : Ledger) : List Action → Option (List (Ledger × Action) × Ledger)
  | [] => some ([], l)
  | a :: rest =>
      match l.act a with
      | none => none
      | some l' => (play l' rest).map fun played => ((l, a) :: played.1, played.2)

theorem Step.of_act {l l' : Ledger} {a : Action} (h : l.act a = some l') : Step l a l' := by
  cases a with
  | offer o =>
      rw [act] at h
      split at h
      · rename_i hoffer
        rw [← Option.some.inj h]
        exact .accepted hoffer
      · rename_i hoffer
        rw [← Option.some.inj h]
        exact .refused hoffer
      · cases h
  | setDifficulty retarget =>
      rw [← Option.some.inj h]
      exact .difficulty retarget
  | setProofOfWork enabled =>
      rw [← Option.some.inj h]
      exact .proofOfWork enabled

theorem Run.cons {l l₁ l' : Ledger} {a : Action} {trace : List (Ledger × Action)}
    (hstep : Step l a l₁) (h : Run l₁ trace l') : Run l ((l, a) :: trace) l' := by
  induction h with
  | start => exact Run.start.step hstep
  | step _ hlast ih => exact ih.step hlast

/-- What is played is a run. -/
theorem Run.of_play {l l' : Ledger} {actions : List Action} {trace : List (Ledger × Action)}
    (h : l.play actions = some (trace, l')) : Run l trace l' := by
  induction actions generalizing l trace with
  | nil =>
      obtain ⟨rfl, rfl⟩ := Prod.mk.inj (Option.some.inj h)
      exact .start
  | cons a rest ih =>
      rw [play] at h
      split at h
      · cases h
      · rename_i l₁ hact
        obtain ⟨played, hplay, heq⟩ := Option.map_eq_some_iff.1 h
        obtain ⟨rfl, rfl⟩ := Prod.mk.inj heq
        exact .cons (.of_act hact) (ih hplay)

theorem play_actions {l l' : Ledger} {actions : List Action} {trace : List (Ledger × Action)}
    (h : l.play actions = some (trace, l')) : trace.map Prod.snd = actions := by
  induction actions generalizing l trace with
  | nil =>
      obtain ⟨rfl, rfl⟩ := Prod.mk.inj (Option.some.inj h)
      rfl
  | cons a rest ih =>
      rw [play] at h
      split at h
      · cases h
      · obtain ⟨played, hplay, heq⟩ := Option.map_eq_some_iff.1 h
        obtain ⟨rfl, rfl⟩ := Prod.mk.inj heq
        rw [List.map_cons, ih hplay]

/-- The calls in turn on a new ledger. -/
def playNew (ord : HashOrder) (k : KParam) (subsidy : U64) (genesisTxs : TxList)
    (finalityDepth : U64) (actions : List Action) : Option (List (Ledger × Action) × Ledger) :=
  match withFinality ord k subsidy genesisTxs finalityDepth with
  | .error _ => none
  | .ok l => l.play actions

theorem exists_run_of_playNew {ord : HashOrder} {k : KParam} {subsidy : U64} {genesisTxs : TxList}
    {finalityDepth : U64} {actions : List Action} {played : List (Ledger × Action) × Ledger}
    (h : playNew ord k subsidy genesisTxs finalityDepth actions = some played) :
    ∃ l₀, withFinality ord k subsidy genesisTxs finalityDepth = .ok l₀ ∧
      Run l₀ played.1 played.2 := by
  rw [playNew] at h
  split at h
  · cases h
  · rename_i l₀ hnew
    exact ⟨l₀, hnew, Run.of_play h⟩

theorem playNew_actions {ord : HashOrder} {k : KParam} {subsidy : U64} {genesisTxs : TxList}
    {depth : U64} {actions : List Action} {trace : List (Ledger × Action)} {l : Ledger}
    (h : playNew ord k subsidy genesisTxs depth actions = some (trace, l)) :
    trace.map Prod.snd = actions := by
  rw [playNew] at h
  split at h
  · cases h
  · exact play_actions h

/-- A ledger some run leads to, from any genesis and any finality depth, with blocks that are
accepted and blocks that are refused. -/
def Reachable (l : Ledger) : Prop := ∃ l₀ trace, Started l₀ ∧ Run l₀ trace l

theorem reachable_of_playNew {ord : HashOrder} {k : KParam} {subsidy : U64} {genesisTxs : TxList}
    {finalityDepth : U64} {actions : List Action} {played : List (Ledger × Action) × Ledger}
    (h : playNew ord k subsidy genesisTxs finalityDepth actions = some played) :
    Reachable played.2 := by
  obtain ⟨l₀, hnew, hrun⟩ := exists_run_of_playNew h
  exact ⟨l₀, _, ⟨ord, k, subsidy, genesisTxs, .inr ⟨finalityDepth, hnew⟩⟩, hrun⟩

/-! ## The invariant -/

/-- The invariant of the stored data.  A state that is kept is the replay of its block's order, and
every stored block, whether its state is kept or not, applies in its own view. -/
structure WellFormed (l : Ledger) : Prop where
  dag : l.dag.WellFormed
  genesis_eq : l.dag.genesis = l.genesis
  validator : l.dag.validator = some txStructureValidator
  valid : ∀ x ∈ l.dag.nodes, x ≠ l.dag.genesis →
    validateBlockPayload (l.dag.node x).block.payload.val = .ok ()
  state_eq : ∀ x state, l.states.lookup x = some state →
    x ∈ l.dag.nodes ∧ state = l.dag.replay l.subsidy (l.dag.order x)
  encoded : ∀ x ∈ l.dag.nodes, ∃ txs : TxList, (l.dag.node x).block.payload = txs.payload
  applies : ∀ x ∈ l.dag.nodes, ∃ next,
    Applies l.dag.toDagView l.subsidy (l.dag.replay l.subsidy (l.dag.orderBefore x)) x next

/-- The state of a block is its own transactions on top of what comes before. -/
theorem WellFormed.replay_order {l : Ledger} (h : l.WellFormed) {x : BlockId}
    (hx : x ∈ l.dag.nodes) :
    Applies l.dag.toDagView l.subsidy (l.dag.replay l.subsidy (l.dag.orderBefore x)) x
      (l.dag.replay l.subsidy (l.dag.order x)) := by
  obtain ⟨next, happlies⟩ := h.applies x hx
  rw [h.dag.order_eq hx, DagView.replay_concat, applyStored_of_applies happlies]
  exact happlies

theorem applies_congr {d d' : DagView} {subsidy : U64} {state next : UtxoSet} {x : BlockId}
    (hblock : (d.node x).block = (d'.node x).block) (h : Applies d subsidy state x next) :
    Applies d' subsidy state x next := by
  rw [Applies, ← hblock]
  exact h

/-- The replay of an order list is the same wherever the past is the same. -/
theorem replay_orders_eq {S : Set BlockId} {d d' : DagView} (h : DagView.AgreeOn S d d')
    (hd : d.WellFormed) (hd' : d'.WellFormed) (subsidy : U64) {x : BlockId} (hx : x ∈ S) :
    d.replay subsidy (d.order x) = d'.replay subsidy (d'.order x) ∧
      d.replay subsidy (d.orderBefore x) = d'.replay subsidy (d'.orderBefore x) := by
  have hblock : ∀ y ∈ d.order x, (d.node y).block = (d'.node y).block := by
    intro y hy
    refine (h.sameCore ?_).block
    rcases (hd.mem_order (h.mem hx) y).1 hy with rfl | hanc
    · exact hx
    · exact h.anc_mem hanc hx
  rw [← h.order_eq hd hd' hx, ← h.orderBefore_eq hd hd' hx]
  refine ⟨DagView.replay_congr hblock, DagView.replay_congr fun y hy => hblock y ?_⟩
  rw [hd.order_eq (h.mem hx)]
  exact List.mem_append_left _ hy

section Accepted

variable {l : Ledger} {ord : HashOrder} {block : Block} {txs : TxList} {sp : BlockId}
  {g : GhostdagData} {state : UtxoSet} {applied : UtxoSet × BlockSummary}
  (h : Accepts ord l block txs sp g state applied) (hpayload : block.payload = txs.payload)
  (hl : l.WellFormed)

include h hpayload hl

/-- The new block applies in its own view. -/
theorem applies_grown :
    Applies (l.grown block sp g applied.1).dag.toDagView l.subsidy
      ((l.grown block sp g applied.1).dag.replay l.subsidy
        ((l.grown block sp g applied.1).dag.orderBefore block.id)) block.id applied.1 := by
  have hsp := h.admits.parents_mem sp h.admits.selectedParent_mem
  have hagree := Dag.agreeOn_wire h.admits hl.dag.parents_mem
  have hd' := Dag.wellFormed_wire h.admits hl.dag
  have hview : (l.dag.wire block sp g).replay l.subsidy
      ((l.dag.wire block sp g).orderBefore block.id) =
      (l.dag.mergesetOrdered sp block.parents).foldl (applyStored l.dag.toDagView l.subsidy)
        state := by
    rw [Dag.orderBefore_wire_self h.admits hl.dag, (hl.state_eq sp state h.stored).2,
      ← DagView.replay_append]
    refine (DagView.replay_congr fun y hy => (hagree.sameCore ?_).block).symm
    rcases List.mem_append.1 hy with hy | hy
    · rcases (hl.dag.mem_order hsp y).1 hy with rfl | hanc
      · exact hsp
      · exact hl.dag.exact.mem_of_anc hanc
    · obtain ⟨⟨p, hp, hyp⟩, _⟩ :=
        (hl.dag.exact.mem_mergesetOrdered hsp h.admits.parents_mem y).1 hy
      rcases hyp with rfl | hanc
      · exact h.admits.parents_mem _ hp
      · exact hl.dag.exact.mem_of_anc hanc
  refine ⟨txs.val, applied.2, ?_, ?_⟩
  · have hnode : (l.dag.wire block sp g).node block.id = _ :=
      DagView.node_of_lookup Dag.lookup_wire_self
    rw [show (l.grown block sp g applied.1).dag = l.dag.wire block sp g from rfl, hnode, hpayload]
    exact decode_encode txs
  · rw [show (l.grown block sp g applied.1).dag = l.dag.wire block sp g from rfl, hview, h.applies]

/-- Accepting a block keeps the invariant. -/
theorem wellFormed_grown : (l.grown block sp g applied.1).WellFormed := by
  have hagree := Dag.agreeOn_wire h.admits hl.dag.parents_mem
  have hd' := Dag.wellFormed_wire h.admits hl.dag
  have hnew := applies_grown h hpayload hl
  have hself : block.id ∈ (l.dag.wire block sp g).nodes := (Dag.mem_wire h.admits).2 (.inl rfl)
  have hnode : (l.dag.wire block sp g).node block.id = _ :=
    DagView.node_of_lookup Dag.lookup_wire_self
  have hdag : (l.grown block sp g applied.1).dag = l.dag.wire block sp g := rfl
  refine ⟨hd', hl.genesis_eq, hl.validator, ?_, ?_, ?_, ?_⟩
  · intro x hx hne
    rw [hdag]
    rcases (Dag.mem_wire h.admits).1 hx with rfl | hx
    · rw [hnode]
      have hvalid := h.admits.valid
      rw [Dag.runValidator, hl.validator] at hvalid
      simp only [txStructureValidator] at hvalid
      cases hpayloadOk : validateBlockPayload block.payload.val with
      | ok u => rfl
      | error e =>
          rw [hpayloadOk] at hvalid
          cases hvalid
    · rw [← (hagree.sameCore hx).block]
      exact hl.valid x hx hne
  · intro x st hst
    rw [grown, lookup_insert_eq] at hst
    split at hst
    · rename_i hx
      rw [hx, ← Option.some.inj hst]
      refine ⟨hself, ?_⟩
      have hreplay : (l.dag.wire block sp g).replay l.subsidy
          ((l.dag.wire block sp g).orderBefore block.id ++ [block.id]) = _ :=
        DagView.replay_concat _ _
      rw [← hd'.order_eq hself] at hreplay
      exact ((applyStored_of_applies hnew).symm.trans hreplay.symm)
    · obtain ⟨hx, heq⟩ := hl.state_eq x st hst
      exact ⟨(Dag.mem_wire h.admits).2 (.inr hx),
        heq.trans (replay_orders_eq hagree hl.dag hd' l.subsidy hx).1⟩
  · intro x hx
    rcases (Dag.mem_wire h.admits).1 hx with rfl | hx
    · refine ⟨txs, ?_⟩
      rw [hdag, hnode]
      exact hpayload
    · obtain ⟨txs', htxs'⟩ := hl.encoded x hx
      exact ⟨txs', (congrArg Block.payload (hagree.sameCore hx).block).symm.trans htxs'⟩
  · intro x hx
    rcases (Dag.mem_wire h.admits).1 hx with rfl | hx
    · exact ⟨_, hnew⟩
    · obtain ⟨next, happlies⟩ := hl.applies x hx
      refine ⟨next, applies_congr (hagree.sameCore hx).block ?_⟩
      rw [(replay_orders_eq hagree hl.dag hd' l.subsidy hx).2] at happlies
      exact happlies

end Accepted

theorem WellFormed.prune {l : Ledger} (h : l.WellFormed) (ord : HashOrder) :
    (l.prune ord).WellFormed := by
  refine ⟨?_, ?_, ?_, ?_, ?_, ?_, ?_⟩
  · rw [prune_dag]
    exact h.dag
  · rw [prune_dag, prune_genesis]
    exact h.genesis_eq
  · rw [prune_dag]
    exact h.validator
  · rw [prune_dag]
    exact h.valid
  · intro x state hstate
    rw [lookup_prune] at hstate
    rw [prune_dag, prune_subsidy]
    split at hstate
    · cases hstate
    · exact h.state_eq x state hstate
  · rw [prune_dag]
    exact h.encoded
  · rw [prune_dag, prune_subsidy]
    exact h.applies

theorem WellFormed.insert {l l' : Ledger} {ord : HashOrder} {parents : Vec BlockId} {work : U128}
    {timestampMs nonce : U64} {txs : TxList} {id : BlockId} (hl : l.WellFormed)
    (h : l.insert ord parents work timestampMs nonce txs = .ok (id, l')) : l'.WellFormed := by
  obtain ⟨sp, g, state, applied, haccepts, heq⟩ := insert_eq_ok_iff.1 h
  rw [(Prod.mk.inj heq).2]
  exact (wellFormed_grown haccepts rfl hl).prune ord

/-- Changing a policy keeps the invariant. -/
theorem WellFormed.policy {l : Ledger} (h : l.WellFormed) (difficulty : Option Retarget)
    (requirePow : Bool) :
    ({ l with dag := { l.dag with
        difficulty := difficulty
        requirePow := requirePow } } : Ledger).WellFormed where
  dag := Dag.wellFormed_policy h.dag l.dag.validator difficulty requirePow
  genesis_eq := h.genesis_eq
  validator := h.validator
  valid := h.valid
  state_eq := h.state_eq
  encoded := h.encoded
  applies := h.applies

theorem Step.wellFormed {l l' : Ledger} {a : Action} (hl : l.WellFormed) (h : Step l a l') :
    l'.WellFormed := by
  cases h with
  | accepted hinsert => exact hl.insert hinsert
  | refused _ => exact hl
  | difficulty retarget => exact hl.policy (some retarget) l.dag.requirePow
  | proofOfWork enabled => exact hl.policy l.dag.difficulty enabled

theorem Run.wellFormed {l₀ l : Ledger} {trace : List (Ledger × Action)} (h₀ : l₀.WellFormed)
    (h : Run l₀ trace l) : l.WellFormed := by
  induction h with
  | start => exact h₀
  | step _ hstep ih => exact hstep.wellFormed ih

end Ledger

end Kovanica
