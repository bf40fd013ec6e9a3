import Kovanica.State.Finality
import Kovanica.State.Transfer

/-!
# Agreement under finality

Two ledgers started alike and offered the same blocks, each in its own
parent-first order.  The finality guard compares a block with what arrived
before it, so it may refuse in one order what it admits in another; where it
refuses nothing, the two ledgers end with the same blocks and the same state.

## Main results

* `Run.split`, `Run.stored`: a run up to one of its calls, and what it has stored altogether.
* `withFinality_cases`: what a ledger holds when it is created.
* `parent_mem`: a parent stored in the end was stored before its child was offered.
-/

namespace Kovanica

open Lib Relation

namespace Ledger

variable [Crypto]

/-! ## What a run keeps -/

/-- The parameters no call changes.  Two ledgers that share them take the same genesis for the
root of what they are offered. -/
structure SameParameters (l l' : Ledger) : Prop where
  k_eq : l.dag.k = l'.dag.k
  genesis_eq : l.dag.genesis = l'.dag.genesis
  subsidy_eq : l.subsidy = l'.subsidy

theorem Step.sameParameters {l l' : Ledger} {a : Action} (h : Step l a l') :
    SameParameters l l' := by
  cases h with
  | accepted hinsert =>
      obtain ⟨sp, g, state, applied, _, _, rfl⟩ := offer_eq_ok_iff.1 hinsert
      refine ⟨?_, ?_, ?_⟩
      · rw [prune_dag]
        rfl
      · rw [prune_dag]
        rfl
      · rw [prune_subsidy]
        rfl
  | refused _ => exact ⟨rfl, rfl, rfl⟩
  | difficulty _ => exact ⟨rfl, rfl, rfl⟩
  | proofOfWork _ => exact ⟨rfl, rfl, rfl⟩

theorem Run.sameParameters {l₀ l : Ledger} {trace : List (Ledger × Action)}
    (h : Run l₀ trace l) : SameParameters l₀ l := by
  induction h with
  | start => exact ⟨rfl, rfl, rfl⟩
  | step _ hstep ih =>
      have hlast := hstep.sameParameters
      exact ⟨ih.k_eq.trans hlast.k_eq, ih.genesis_eq.trans hlast.genesis_eq,
        ih.subsidy_eq.trans hlast.subsidy_eq⟩

/-- An offer changes no policy. -/
theorem Step.policy_eq {l l' : Ledger} {o : Offer} (h : Step l (.offer o) l') :
    l'.dag.difficulty = l.dag.difficulty ∧ l'.dag.requirePow = l.dag.requirePow := by
  cases h with
  | accepted hinsert =>
      obtain ⟨sp, g, state, applied, _, _, rfl⟩ := offer_eq_ok_iff.1 hinsert
      rw [prune_dag]
      exact ⟨rfl, rfl⟩
  | refused _ => exact ⟨rfl, rfl⟩

theorem Run.policy_eq {l₀ l : Ledger} {trace : List (Ledger × Action)} (h : Run l₀ trace l)
    (hoffers : ∀ p ∈ trace, ∃ o, p.2 = Action.offer o) :
    l.dag.difficulty = l₀.dag.difficulty ∧ l.dag.requirePow = l₀.dag.requirePow := by
  induction h with
  | start => exact ⟨rfl, rfl⟩
  | @step trace l l' a _ hstep ih =>
      obtain ⟨hd, hp⟩ := ih fun p hp => hoffers p (List.mem_append_left _ hp)
      obtain ⟨o, ho⟩ := hoffers (l, a) (List.mem_append_right _ (List.mem_singleton.2 rfl))
      have ho : a = .offer o := ho
      subst ho
      obtain ⟨hd', hp'⟩ := hstep.policy_eq
      exact ⟨hd'.trans hd, hp'.trans hp⟩

/-- A run splits at any of its calls. -/
theorem Run.split {l₀ l : Ledger} {before after : List (Ledger × Action)} {p : Ledger × Action}
    (h : Run l₀ (before ++ p :: after) l) : Run l₀ before p.1 ∧ Run p.1 (p :: after) l := by
  generalize htrace : before ++ p :: after = trace at h
  induction h generalizing after with
  | start => exact absurd htrace (by simp)
  | @step trace l l' a hrun hstep ih =>
      rcases List.eq_nil_or_concat' after with rfl | ⟨after', q, rfl⟩
      · obtain ⟨rfl, hlast⟩ := List.append_inj' htrace rfl
        obtain rfl := (List.cons.inj hlast).1
        exact ⟨hrun, Run.start.step hstep⟩
      · have hsplit : (before ++ p :: after') ++ [q] = trace ++ [(l, a)] := by
          rw [← htrace, List.append_assoc, List.cons_append]
        obtain ⟨hinit, hlast⟩ := List.append_inj' hsplit rfl
        obtain rfl := (List.cons.inj hlast).1
        obtain ⟨hbefore, hafter⟩ := ih hinit
        exact ⟨hbefore, hafter.step hstep⟩

theorem Run.last {l₀ l : Ledger} {before : List (Ledger × Action)} {p : Ledger × Action}
    (h : Run l₀ (before ++ [p]) l) : Run l₀ before p.1 ∧ Step p.1 p.2 l := by
  generalize htrace : before ++ [p] = trace at h
  cases h with
  | start => exact absurd htrace (by simp)
  | step hrun hstep =>
      obtain ⟨rfl, hlast⟩ := List.append_inj' htrace rfl
      obtain rfl := (List.cons.inj hlast).1
      exact ⟨hrun, hstep⟩

theorem Run.eq_of_nil {l₀ l : Ledger} (h : Run l₀ [] l) : l = l₀ := by
  generalize htrace : ([] : List (Ledger × Action)) = trace at h
  cases h with
  | start => rfl
  | step _ _ => exact absurd htrace (by simp)

theorem Run.head {l₀ l : Ledger} {after : List (Ledger × Action)} {p : Ledger × Action}
    (h : Run l₀ (p :: after) l) : ∃ l₁, Step l₀ p.2 l₁ ∧ Run l₁ after l := by
  induction after using List.reverseRecOn generalizing l with
  | nil =>
      obtain ⟨hrun, hstep⟩ := Run.last (show Run l₀ ([] ++ [p]) l from h)
      exact ⟨l, hrun.eq_of_nil ▸ hstep, .start⟩
  | append_singleton after q ih =>
      obtain ⟨hrun, hstep⟩ := Run.last (show Run l₀ ((p :: after) ++ [q]) l from h)
      obtain ⟨l₁, hfirst, hrest⟩ := ih hrun
      exact ⟨l₁, hfirst, hrest.step hstep⟩

theorem Run.agreeOn_start {l₀ l : Ledger} {trace : List (Ledger × Action)} (h₀ : l₀.WellFormed)
    (h : Run l₀ trace l) :
    DagView.AgreeOn {x | x ∈ l₀.dag.nodes} l₀.dag.toDagView l.dag.toDagView := by
  induction h with
  | start => exact Dag.agreeOn_refl h₀.dag.parents_mem
  | step hrun hstep ih =>
      exact Dag.agreeOn_trans ih (hstep.agreeOn (hrun.wellFormed h₀)).1 fun x hx => ih.symm.mem hx

/-- A stored block was there at the start or is the block of an offer. -/
theorem Run.stored {l₀ l : Ledger} {trace : List (Ledger × Action)} (h₀ : l₀.WellFormed)
    (h : Run l₀ trace l) {x : BlockId} (hx : x ∈ l.dag.nodes) :
    (x ∈ l₀.dag.nodes ∧ (l.dag.node x).block = (l₀.dag.node x).block) ∨
      (x ∉ l₀.dag.nodes ∧ ∃ p ∈ trace, ∃ o, p.2 = .offer o ∧ o.block.id = x ∧
        (l.dag.node x).block = o.block) := by
  induction h with
  | start => exact .inl ⟨hx, rfl⟩
  | @step trace l l' a hrun hstep ih =>
      have hl := hrun.wellFormed h₀
      have hkeep := (hstep.agreeOn hl).1
      by_cases hold : x ∈ l.dag.nodes
      · rw [← (hkeep.sameCore hold).block]
        refine (ih hold).imp_right ?_
        rintro ⟨hnot, p, hp, hoffer⟩
        exact ⟨hnot, p, List.mem_append_left _ hp, hoffer⟩
      · have hnot : x ∉ l₀.dag.nodes := fun hin => hold ((hrun.agreeOn_start h₀).symm.mem hin)
        refine .inr ⟨hnot, (l, a), List.mem_append_right _ (List.mem_singleton.2 rfl), ?_⟩
        cases hstep with
        | @accepted o id l' hinsert =>
            obtain ⟨sp, g, state, applied, haccepts, _, rfl⟩ := offer_eq_ok_iff.1 hinsert
            rw [prune_dag] at hx ⊢
            have hself := ((Dag.mem_wire haccepts.admits).1 hx).resolve_right hold
            refine ⟨o, rfl, hself.symm, ?_⟩
            rw [hself]
            exact congrArg Dag.Node.block (DagView.node_of_lookup Dag.lookup_wire_self)
        | refused _ => exact absurd hx hold
        | difficulty _ => exact absurd hx hold
        | proofOfWork _ => exact absurd hx hold

/-! ## Two arrival orders -/

/-- Every offered parent comes before its children, so that no block is refused for a parent that
is still to come.  Parents that are not offered at all, such as the genesis, do not count. -/
def ParentFirst (offers : List Offer) : Prop :=
  ∀ before o after, offers = before ++ o :: after → ∀ p ∈ o.block.parents,
    (∃ o' ∈ offers, o'.block.id = p) → ∃ o' ∈ before, o'.block.id = p

instance (offers : List Offer) : Decidable (ParentFirst offers) :=
  decidable_of_iff (∀ i, (h : i < offers.length) → ∀ p ∈ (offers.get ⟨i, h⟩).block.parents,
      (∃ o' ∈ offers, o'.block.id = p) → ∃ o' ∈ offers.take i, o'.block.id = p) <| by
    constructor
    · intro h before o after hsplit p hp hoffered
      subst hsplit
      have hat := h before.length (by simp) p
      rw [List.take_left' rfl] at hat
      simp only [List.get_eq_getElem, List.getElem_append_right (le_refl _), Nat.sub_self,
        List.getElem_cons_zero] at hat
      exact hat hp hoffered
    · intro h i hi p hp hoffered
      have hsplit : offers = offers.take i ++ offers.get ⟨i, hi⟩ :: offers.drop (i + 1) := by
        rw [List.get_eq_getElem, List.getElem_cons_drop, List.take_append_drop]
      exact h _ _ _ hsplit p hp hoffered

/-- The ledger `l` was started like the others and offered the blocks of `offers`,
none of which it refused for finality. -/
structure Offered (k : KParam) (subsidy : U64) (genesisTxs : TxList) (depth : U64)
    (offers : List Offer) (trace : List (Ledger × Action)) (l : Ledger) : Prop where
  run : ∃ ord l₀, Ledger.withFinality ord k subsidy genesisTxs depth = .ok l₀ ∧ Run l₀ trace l
  actions : trace.map Prod.snd = offers.map Action.offer
  parent_first : ParentFirst offers
  not_refused : ∀ s o, (s, Action.offer o) ∈ trace → ∀ score threshold,
    s.offer o ≠ .error (.error (.finality score threshold))

/-- What a ledger holds when it is created. -/
theorem withFinality_cases {ord : HashOrder} {k : KParam} {subsidy : U64} {genesisTxs : TxList}
    {depth : U64} {l : Ledger}
    (h : Ledger.withFinality ord k subsidy genesisTxs depth = .ok l) :
    Started l ∧ l.dag.k = k ∧ l.subsidy = subsidy ∧
      l.dag.genesis = (Block.genesis 1 0 0 genesisTxs.payload).id ∧
      l.dag.nodes = Finmap.singleton (Block.genesis 1 0 0 genesisTxs.payload).id
        ⟨Block.genesis 1 0 0 genesisTxs.payload, 0, ∅, .genesis⟩ ∧
      l.dag.difficulty = none ∧ l.dag.requirePow = false := by
  refine ⟨⟨ord, k, subsidy, genesisTxs, .inr ⟨depth, h⟩⟩, ?_⟩
  rw [withFinality] at h
  split at h
  · cases h
  rename_i l₁ hnew
  obtain ⟨applied, _, rfl⟩ := new_eq_ok_iff.1 hnew
  rw [← Except.ok.inj h]
  exact ⟨rfl, rfl, rfl, rfl, rfl, rfl⟩

namespace Offered

variable {k : KParam} {subsidy : U64} {genesisTxs : TxList} {depth : U64}
  {offers offers' : List Offer} {trace trace' : List (Ledger × Action)} {l l' : Ledger}

/-- Offers played on a new ledger and accepted. -/
theorem of_playNew {ord : HashOrder}
    (h : playNew ord k subsidy genesisTxs depth (offers.map Action.offer) = some (trace, l))
    (hfirst : ParentFirst offers) (haccepted : ∀ q ∈ offersOf trace, q.1.Accepted q.2) :
    Offered k subsidy genesisTxs depth offers trace l where
  run := by
    obtain ⟨l₀, hnew, hrun⟩ := exists_run_of_playNew h
    exact ⟨ord, l₀, hnew, hrun⟩
  actions := playNew_actions h
  parent_first := hfirst
  not_refused := by
    intro s o hs score threshold hrefused
    obtain ⟨id, l', hoffer⟩ := haccepted (s, o) (mem_offersOf.2 hs)
    rw [hrefused] at hoffer
    cases hoffer

theorem reachable (h : Offered k subsidy genesisTxs depth offers trace l) : l.Reachable := by
  obtain ⟨ord, l₀, h₀, hrun⟩ := h.run
  exact ⟨l₀, trace, (withFinality_cases h₀).1, hrun⟩

theorem mem_offers (h : Offered k subsidy genesisTxs depth offers trace l) {p : Ledger × Action}
    (hp : p ∈ trace) : ∃ o ∈ offers, p.2 = .offer o := by
  have hmem : p.2 ∈ offers.map Action.offer := h.actions ▸ List.mem_map_of_mem hp
  obtain ⟨o, ho, heq⟩ := List.mem_map.1 hmem
  exact ⟨o, ho, heq.symm⟩

/-- Genesis, or the block of an offer. -/
theorem stored (h : Offered k subsidy genesisTxs depth offers trace l) {x : BlockId}
    (hx : x ∈ l.dag.nodes) :
    (x = (Block.genesis 1 0 0 genesisTxs.payload).id ∧
        (l.dag.node x).block = Block.genesis 1 0 0 genesisTxs.payload) ∨
      (x ≠ (Block.genesis 1 0 0 genesisTxs.payload).id ∧ ∃ o ∈ offers, o.block.id = x ∧
        (l.dag.node x).block = o.block) := by
  obtain ⟨ord, l₀, h₀, hrun⟩ := h.run
  obtain ⟨hstarted, _, _, _, hnodes, _⟩ := withFinality_cases h₀
  have hmem : ∀ x, x ∈ l₀.dag.nodes ↔ x = (Block.genesis 1 0 0 genesisTxs.payload).id := by
    intro x
    rw [hnodes, Finmap.mem_singleton]
  rcases hrun.stored hstarted.wellFormed hx with ⟨hin, hblock⟩ | ⟨hnot, p, hp, o, ho, hid, hblock⟩
  · refine .inl ⟨(hmem x).1 hin, hblock.trans ?_⟩
    have hlookup : l₀.dag.nodes.lookup x =
        some ⟨Block.genesis 1 0 0 genesisTxs.payload, 0, ∅, .genesis⟩ := by
      rw [hnodes, (hmem x).1 hin]
      exact Finmap.lookup_singleton_eq
    rw [DagView.node_of_lookup hlookup]
  · obtain ⟨o', ho', heq⟩ := h.mem_offers hp
    rw [ho, Action.offer.injEq] at heq
    exact .inr ⟨fun heq => hnot ((hmem x).2 heq), o, heq ▸ ho', hid, hblock⟩

/-- Two ledgers offered blocks of one collection are compatible. -/
theorem compatible (h : Offered k subsidy genesisTxs depth offers trace l)
    (h' : Offered k subsidy genesisTxs depth offers' trace' l')
    (hblocks : ∀ o ∈ offers, ∃ o' ∈ offers', o'.block = o.block)
    (hids : (offers'.map fun o => o.block.id).Nodup) : Compatible l l' := by
  obtain ⟨ord, l₀, h₀, hrun⟩ := h.run
  obtain ⟨ord', l₀', h₀', hrun'⟩ := h'.run
  obtain ⟨_, hk, hsubsidy, hgenesis, _⟩ := withFinality_cases h₀
  obtain ⟨_, hk', hsubsidy', hgenesis', _⟩ := withFinality_cases h₀'
  have hpar := hrun.sameParameters
  have hpar' := hrun'.sameParameters
  refine ⟨?_, ?_, ?_, fun x hx hx' => ?_⟩
  · rw [← hpar.k_eq, hk, ← hk', hpar'.k_eq]
  · rw [← hpar.genesis_eq, hgenesis, ← hgenesis', hpar'.genesis_eq]
  · rw [← hpar.subsidy_eq, hsubsidy, ← hsubsidy', hpar'.subsidy_eq]
  · rcases h.stored hx with ⟨heq, hblock⟩ | ⟨hne, o, ho, hid, hblock⟩ <;>
      rcases h'.stored hx' with ⟨heq', hblock'⟩ | ⟨hne', o', ho', hid', hblock'⟩
    · rw [hblock, hblock']
    · exact absurd heq hne'
    · exact absurd heq' hne
    · obtain ⟨o₁, ho₁, hsame⟩ := hblocks o ho
      have hunique : o₁ = o' := List.inj_on_of_nodup_map hids ho₁ ho' (by rw [hsame, hid, hid'])
      rw [hblock, hblock', ← hsame, hunique]

/-- The prefix of an offered run before one of its calls. -/
theorem before (h : Offered k subsidy genesisTxs depth offers trace l)
    {p : Ledger × Action} {first last : List (Ledger × Action)}
    (hsplit : trace = first ++ p :: last) :
    ∃ before o after, offers = before ++ o :: after ∧ p.2 = .offer o ∧
      Offered k subsidy genesisTxs depth before first p.1 ∧ Run p.1 (p :: last) l ∧
      last.map Prod.snd = after.map Action.offer := by
  obtain ⟨ord, l₀, h₀, hrun⟩ := h.run
  subst hsplit
  obtain ⟨hfirst, hlast⟩ := hrun.split
  have hactions := h.actions
  rw [List.map_append, List.map_cons] at hactions
  obtain ⟨before, rest, hoffers, hbefore, hrest⟩ := List.map_eq_append_iff.1 hactions.symm
  obtain ⟨o, after, rfl, ho, hafter⟩ := List.map_eq_cons_iff.1 hrest
  refine ⟨before, o, after, hoffers, ho.symm, ⟨⟨ord, l₀, h₀, hfirst⟩, hbefore.symm, ?_, ?_⟩, hlast,
    hafter.symm⟩
  · intro before' o' after' hsplit p' hp' hoffered
    obtain ⟨o'', ho'', hid⟩ := hoffered
    refine h.parent_first before' o' (after' ++ o :: after) ?_ p' hp' ⟨o'', ?_, hid⟩
    · rw [hoffers, hsplit, List.append_assoc, List.cons_append]
    · rw [hoffers]
      exact List.mem_append_left _ ho''
  · exact fun s o' hs => h.not_refused s o' (List.mem_append_left _ hs)

/-- A parent stored in the end was stored before its child was offered. -/
theorem parent_mem (h : Offered k subsidy genesisTxs depth offers trace l)
    (hids : (offers.map fun o => o.block.id).Nodup) {p : Ledger × Action} {o : Offer}
    {first last : List (Ledger × Action)} (hsplit : trace = first ++ p :: last)
    (ho : p.2 = .offer o) {x : BlockId} (hx : x ∈ o.block.parents) (hmem : x ∈ l.dag.nodes) :
    x ∈ p.1.dag.nodes := by
  obtain ⟨before, o', after, hoffers, ho', hbefore, hrun, hafter⟩ := h.before hsplit
  rw [ho, Action.offer.injEq] at ho'
  subst ho'
  by_contra hnot
  rcases hrun.stored hbefore.reachable.wellFormed hmem with ⟨hin, _⟩ | ⟨_, q, hq, o₂, ho₂, hid, _⟩
  · exact hnot hin
  · -- an offer of the parent at or after the child's, and one before it
    have hlate : o₂ ∈ o :: after := by
      have hactions : (p :: last).map Prod.snd = (o :: after).map Action.offer := by
        rw [List.map_cons, List.map_cons, ho, hafter]
      have hin := List.mem_map_of_mem (f := Prod.snd) hq
      rw [hactions, ho₂] at hin
      obtain ⟨o₃, ho₃, heq⟩ := List.mem_map.1 hin
      exact Action.offer.inj heq ▸ ho₃
    obtain ⟨o₃, hearly, hid₃⟩ := h.parent_first before o after hoffers x hx
      ⟨o₂, hoffers ▸ List.mem_append_right _ hlate, hid⟩
    rw [hoffers, List.map_append, List.nodup_append] at hids
    exact hids.2.2 _ (List.mem_map_of_mem hearly) _ (List.mem_map_of_mem hlate)
      (hid₃.trans hid.symm)

/-- The policies are those of a new ledger. -/
theorem checkPolicy (h : Offered k subsidy genesisTxs depth offers trace l) (block : Block)
    (sp : BlockId) : l.dag.checkPolicy block sp = .ok () := by
  obtain ⟨ord, l₀, h₀, hrun⟩ := h.run
  obtain ⟨_, _, _, _, _, hdifficulty, hpow⟩ := withFinality_cases h₀
  obtain ⟨hd, hp⟩ := hrun.policy_eq fun p hp =>
    let ⟨o, _, ho⟩ := h.mem_offers hp
    ⟨o, ho⟩
  rw [Dag.checkPolicy, hd, hdifficulty, hp, hpow]
  rfl

/-- A block that another ledger stores is taken when it is offered, once its parents are stored:
it is not refused for finality, and no call panics. -/
theorem taken (h' : Offered k subsidy genesisTxs depth offers' trace' l') {l : Ledger}
    (hl : l.WellFormed) (hcompat : Compatible l l')
    (hids : (offers'.map fun o => o.block.id).Nodup) {o' : Offer} (ho' : o' ∈ offers')
    (hmem : o'.block.id ∈ l.dag.nodes) (hnode : (l.dag.node o'.block.id).block = o'.block)
    (hne : o'.block.parents ≠ []) (hparents : ∀ p ∈ o'.block.parents, p ∈ l'.dag.nodes) :
    o'.block.id ∈ l'.dag.nodes := by
  have haction : Action.offer o' ∈ trace'.map Prod.snd := by
    rw [h'.actions]
    exact List.mem_map_of_mem ho'
  obtain ⟨q, hq, hqo⟩ := List.mem_map.1 haction
  obtain ⟨first, last, hsplit⟩ := List.append_of_mem hq
  obtain ⟨before, o₂, after, _, ho₂, hbefore, hrun, _⟩ := h'.before hsplit
  have hs := hbefore.reachable.wellFormed
  have hlater := hrun.agreeOn_start hs
  by_cases hin : o'.block.id ∈ q.1.dag.nodes
  · exact hlater.symm.mem hin
  have hstruct : q.1.dag.checkStructure o'.block = .ok () :=
    Dag.checkStructure_ok_iff.2 ⟨hin, hne, fun y hy =>
      h'.parent_mem hids hsplit hqo hy (hparents y hy)⟩
  have hpar := hrun.sameParameters
  have hcompatS : Compatible l q.1 :=
    { k_eq := hcompat.k_eq.trans hpar.k_eq.symm
      genesis_eq := hcompat.genesis_eq.trans hpar.genesis_eq.symm
      subsidy_eq := hcompat.subsidy_eq.trans hpar.subsidy_eq.symm
      block_eq := fun y hy hyS => (hcompat.block_eq y hy (hlater.symm.mem hyS)).trans
        (hlater.sameCore hyS).block.symm }
  obtain ⟨sp, hsp⟩ := exists_maxByKey q.1.dag.chainKey (Dag.checkStructure_ok_iff.1 hstruct).2.1
  have hcases := hcompatS.offer_cases hl hs hmem hnode hstruct
    (fun sp => hbefore.checkPolicy _ sp) hsp
  obtain ⟨l₁, hstep, hrest⟩ := hrun.head
  rw [hqo] at hstep
  have hqmem : (q.1, Action.offer o') ∈ trace' := hqo ▸ hq
  cases hstep with
  | @accepted _ id l₁ hinsert =>
      obtain ⟨sp₂, g₂, state₂, applied₂, haccepts₂, _, rfl⟩ := offer_eq_ok_iff.1 hinsert
      refine (hrest.agreeOn_start (hs.insert hinsert)).symm.mem ?_
      rw [Set.mem_ofPred_eq, prune_dag]
      exact (Dag.mem_wire haccepts₂.admits).2 (.inl rfl)
  | @refused _ e hrefused =>
      exfalso
      split at hcases
      · exact h'.not_refused q.1 o' hqmem _ _ hcases
      split at hcases
      · obtain ⟨id, l₂, haccepted⟩ := hcases
        rw [hrefused] at haccepted
        cases haccepted
      · obtain ⟨site, hpanic⟩ := hcases
        rw [hrefused] at hpanic
        cases hpanic

/-- Whatever one order gets stored, the other does too. -/
theorem mem_of_mem (h : Offered k subsidy genesisTxs depth offers trace l)
    (h' : Offered k subsidy genesisTxs depth offers' trace' l')
    (hblocks : ∀ o ∈ offers, ∃ o' ∈ offers', o'.block = o.block)
    (hids : (offers'.map fun o => o.block.id).Nodup) {x : BlockId} (hx : x ∈ l.dag.nodes) :
    x ∈ l'.dag.nodes := by
  -- along the first run: what was stored before the last call is in the other ledger
  induction trace using List.reverseRecOn generalizing offers l x with
  | nil =>
      rcases h.stored hx with ⟨rfl, _⟩ | ⟨_, o, ho, _⟩
      · obtain ⟨ord', l₀', h₀', hrun'⟩ := h'.run
        obtain ⟨_, _, _, hgenesis', _⟩ := withFinality_cases h₀'
        rw [← hgenesis', hrun'.sameParameters.genesis_eq]
        exact h'.reachable.wellFormed.dag.genesis_mem
      · have hnil := List.map_eq_nil_iff.1 h.actions.symm
        exact absurd ho (hnil ▸ List.not_mem_nil)
  | append_singleton first p ih =>
      have hcompat := h.compatible h' hblocks hids
      obtain ⟨before, o, after, hoffers, ho, hbefore, hrun, hafter⟩ := h.before rfl
      have hbeforeBlocks : ∀ o ∈ before, ∃ o' ∈ offers', o'.block = o.block := fun o ho =>
        hblocks o (hoffers ▸ List.mem_append_left _ ho)
      have hsub : ∀ y ∈ p.1.dag.nodes, y ∈ l'.dag.nodes := fun y hy =>
        ih hbefore hbeforeBlocks hy
      by_cases hold : x ∈ p.1.dag.nodes
      · exact hsub x hold
      -- the last call stored `x`
      obtain ⟨l₁, hstep, hend⟩ := hrun.head
      rw [ho, ← hend.eq_of_nil] at hstep
      cases hstep with
      | refused _ => exact absurd hx hold
      | @accepted _ id _ hinsert =>
          obtain ⟨sp, g, state, applied, haccepts, _, hgrown⟩ := offer_eq_ok_iff.1 hinsert
          have hself : x = o.block.id := by
            rw [hgrown, prune_dag] at hx
            exact ((Dag.mem_wire haccepts.admits).1 hx).resolve_right hold
          have hnode : (l.dag.node o.block.id).block = o.block := by
            rw [hgrown, prune_dag]
            exact congrArg Dag.Node.block (DagView.node_of_lookup Dag.lookup_wire_self)
          obtain ⟨o', ho', hblock⟩ := hblocks o (hoffers ▸ by simp)
          have htaken := h'.taken h.reachable.wellFormed hcompat hids ho'
          rw [hblock] at htaken
          rw [hself] at hx ⊢
          exact htaken hx hnode haccepts.admits.parents_ne fun y hy =>
            hsub y (haccepts.admits.parents_mem y hy)

/-- Two ledgers started alike and offered the same blocks, each parent first, end
with the same blocks, the same linearization and the same state, provided neither
refuses a block for finality and no call panics. -/
theorem agreement_without_refusal (h : Offered k subsidy genesisTxs depth offers trace l)
    (h' : Offered k subsidy genesisTxs depth offers' trace' l')
    (hblocks : (offers.map Offer.block).Perm (offers'.map Offer.block))
    (hids : (offers.map fun o => o.block.id).Nodup) :
    (∀ x, x ∈ l.dag.nodes ↔ x ∈ l'.dag.nodes) ∧
      DagView.SameConsensus l.dag.toDagView l'.dag.toDagView ∧
      ∀ ord ord', (∀ state state', l.ledgerState ord = some state →
          l'.ledgerState ord' = some state' → state = state') ∧
        (l.dag.totalWork < 2 ^ 128 →
          l.ledgerState ord = l'.ledgerState ord' ∧ (l.ledgerState ord).isSome) := by
  have hl := h.reachable.wellFormed
  have hl' := h'.reachable.wellFormed
  have hids' : (offers'.map fun o => o.block.id).Nodup := by
    have hperm := hblocks.map Block.id
    rw [List.map_map, List.map_map] at hperm
    exact hperm.nodup_iff.1 hids
  have hto : ∀ o ∈ offers, ∃ o' ∈ offers', o'.block = o.block := fun o ho =>
    List.mem_map.1 (hblocks.mem_iff.1 (List.mem_map_of_mem ho))
  have hfrom : ∀ o ∈ offers', ∃ o' ∈ offers, o'.block = o.block := fun o ho =>
    List.mem_map.1 (hblocks.mem_iff.2 (List.mem_map_of_mem ho))
  have hmem : ∀ x, x ∈ l.dag.nodes ↔ x ∈ l'.dag.nodes := fun x =>
    ⟨h.mem_of_mem h' hto hids', h'.mem_of_mem h hfrom hids⟩
  obtain ⟨hsame, htotal, _, hreplay⟩ := (h.compatible h' hto hids').same_of_mem_iff hl hl' hmem
  refine ⟨hmem, hsame, fun ord ord' => ⟨fun state state' hstate hstate' => ?_, fun hwork => ?_⟩⟩
  · rw [ledgerState_eq hl, Option.map_eq_some_iff] at hstate
    rw [ledgerState_eq hl', Option.map_eq_some_iff] at hstate'
    obtain ⟨_, _, rfl⟩ := hstate
    obtain ⟨_, _, rfl⟩ := hstate'
    exact hreplay ord ord'
  · have hwork' : l'.dag.totalWork < 2 ^ 128 := htotal ▸ hwork
    obtain ⟨_, l₀, h₀, hrun⟩ := h.run
    obtain ⟨_, l₀', h₀', hrun'⟩ := h'.run
    obtain ⟨state, htip⟩ := Finmap.mem_iff.1
      (hrun.tip_stored (withFinality_cases h₀).1 hwork)
    obtain ⟨state', htip'⟩ := Finmap.mem_iff.1
      (hrun'.tip_stored (withFinality_cases h₀').1 hwork')
    rw [ledgerState_eq hl, ledgerState_eq hl', htip, htip', Option.map_some, Option.map_some,
      hreplay ord ord']
    exact ⟨rfl, rfl⟩

end Offered

end Ledger

namespace Ledger

open scoped Reference
open Reference (noTxs longChain beside)

/-- A chain and a block next to it, which comes first or after one block of the chain.
Two blocks are final in the end, and nothing has been refused. -/
theorem agreement_without_refusal_fork : ∃ l l' : Ledger, l.dag.len = 5 ∧ l.finalityScore = 2 ∧
    ∀ x, x ∈ l.dag.nodes ↔ x ∈ l'.dag.nodes := by
  have hplay : ParentFirst (beside :: longChain) ∧
      (playNew .sorted 3 1 noTxs 1 ((beside :: longChain).map Action.offer)).map
        (fun played : List (Ledger × Action) × Ledger => (played.2.dag.len,
          played.2.finalityScore, decide (∀ q ∈ offersOf played.1, q.1.Accepted q.2))) =
        some (5, 2, true) := by
    decide +kernel
  have hplay' : ParentFirst (longChain.take 1 ++ beside :: longChain.drop 1) ∧
      (playNew .sorted 3 1 noTxs 1
        ((longChain.take 1 ++ beside :: longChain.drop 1).map Action.offer)).map
        (fun played : List (Ledger × Action) × Ledger =>
          decide (∀ q ∈ offersOf played.1, q.1.Accepted q.2)) = some true := by
    decide +kernel
  have hids : ((beside :: longChain).map fun o => o.block.id).Nodup := by
    decide +kernel
  obtain ⟨⟨trace, l⟩, hplayed, heq⟩ := Option.map_eq_some_iff.1 hplay.2
  obtain ⟨⟨trace', l'⟩, hplayed', hdec'⟩ := Option.map_eq_some_iff.1 hplay'.2
  obtain ⟨hlen, hrest⟩ := Prod.mk.inj heq
  obtain ⟨hscore, hdec⟩ := Prod.mk.inj hrest
  have hoffered := Offered.of_playNew hplayed hplay.1 (of_decide_eq_true hdec)
  have hoffered' := Offered.of_playNew hplayed' hplay'.1 (of_decide_eq_true hdec')
  have hperm : (beside :: longChain).Perm (longChain.take 1 ++ beside :: longChain.drop 1) := by
    refine (List.perm_middle.trans ?_).symm
    rw [List.take_append_drop]
  exact ⟨l, l', hlen, hscore, (Offered.agreement_without_refusal hoffered hoffered'
    (hperm.map Offer.block) hids).1⟩

/-- A block next to a chain is stored when it comes first and refused when it comes
last. -/
theorem split_by_arrival_order : ∃ (l₀ l l' : Ledger) (trace trace' : List (Ledger × Action))
    (offers offers' : List Offer), Ledger.withFinality .sorted 3 1 noTxs 1 = .ok l₀ ∧
    Run l₀ trace l ∧ Run l₀ trace' l' ∧ trace.map Prod.snd = offers.map Action.offer ∧
    trace'.map Prod.snd = offers'.map Action.offer ∧ ParentFirst offers ∧ ParentFirst offers' ∧
    offers.Perm offers' ∧ ∃ x ∈ l.dag.nodes, x ∉ l'.dag.nodes := by
  have hplay : ParentFirst (beside :: longChain) ∧ ParentFirst (longChain ++ [beside]) ∧
      ((playNew .sorted 3 1 noTxs 1 ((beside :: longChain).map Action.offer)).bind
        fun played => (playNew .sorted 3 1 noTxs 1 ((longChain ++ [beside]).map Action.offer)).map
          fun played' => decide (beside.block.id ∈ played.2.dag.nodes ∧
            beside.block.id ∉ played'.2.dag.nodes)) = some true := by
    decide +kernel
  obtain ⟨hfirst, hfirst', hplay⟩ := hplay
  obtain ⟨⟨trace, l⟩, hplayed, hplay⟩ := Option.bind_eq_some_iff.1 hplay
  obtain ⟨⟨trace', l'⟩, hplayed', hdec⟩ := Option.map_eq_some_iff.1 hplay
  obtain ⟨l₀, hnew, hrun⟩ := exists_run_of_playNew hplayed
  obtain ⟨l₀', hnew', hrun'⟩ := exists_run_of_playNew hplayed'
  obtain rfl := Except.ok.inj (hnew.symm.trans hnew')
  exact ⟨l₀, l, l', trace, trace', _, _, hnew, hrun, hrun', playNew_actions hplayed,
    playNew_actions hplayed', hfirst, hfirst', (List.perm_append_singleton _ _).symm, _,
    of_decide_eq_true hdec⟩

end Ledger

end Kovanica
