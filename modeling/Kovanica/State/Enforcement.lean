import Kovanica.State.Snapshot

/-!
# What a loaded ledger refuses

A snapshot stores no policy, so a loaded ledger checks neither difficulty nor
proof of work.  It gives the verdicts of the saved one on a sequence of blocks
exactly as long as the saved one refuses none of them for a policy alone.

## Main results

* `Unbounded.twins_of_readSnapshot`: the two ledgers begin as twins, alike but for policies.
* `verdict_iff`, `after`: one call to both, its verdicts and the twins it leaves.
* `sameVerdicts_iff`: a sequence of calls.
* `loaded_agrees_of_none`: where no policy is installed there is nothing to lose.
-/

namespace Kovanica

open Lib Relation

/-- The call, with its maps iterated in another order. -/
def Offer.under (o : Offer) (ord : HashOrder) : Offer := { o with ord := ord }

namespace Ledger

variable [Crypto]

/-- The call is refused with an error. -/
def Refused (l : Ledger) (o : Offer) : Prop := ∃ e, l.offer o = .error (.error e)

instance (l : Ledger) (o : Offer) : Decidable (l.Refused o) :=
  inferInstanceAs (Decidable (∃ e, l.offer o = .error (.error e)))

/-- The ledger after a call. -/
def after (l : Ledger) (o : Offer) : Ledger :=
  match l.offer o with
  | .ok (_, l') => l'
  | .error _ => l

/-- The two ledgers accept and refuse the same blocks of a sequence of calls, each
call on the second with an iteration order of its own. -/
def SameVerdicts : Ledger → Ledger → List (Offer × HashOrder) → Prop
  | _, _, [] => True
  | l, m, (o, ord) :: rest =>
      ((l.Accepted o ↔ m.Accepted (o.under ord)) ∧ (l.Refused o ↔ m.Refused (o.under ord))) ∧
        SameVerdicts (l.after o) (m.after (o.under ord)) rest

/-- Every other check admits the block of the call, and a policy refuses it.  Such a block a ledger
without the policy would take. -/
structure OnlyPolicyRefuses (l : Ledger) (o : Offer) (sp : BlockId) : Prop where
  structure_ok : l.dag.checkStructure o.block = .ok ()
  selected : l.dag.selectParent o.block.parents = some sp
  applies : ∃ view applied,
    l.viewState ⟨sp, l.dag.mergesetOrdered sp o.block.parents⟩ = some view ∧
      applyBlock view o.txs.val l.subsidy = .ok applied
  valid : l.dag.runValidator o.block = .ok ()
  policy : l.dag.checkPolicy o.block sp ≠ .ok ()

/-- No block of a sequence of calls is refused for a policy alone.  Each call is judged by the
ledger as the calls before it have left it. -/
def NeverOnlyPolicy : Ledger → List (Offer × HashOrder) → Prop
  | _, [] => True
  | l, (o, _) :: rest =>
      (∀ sp, ¬ OnlyPolicyRefuses l o sp) ∧ NeverOnlyPolicy (l.after o) rest

/-! ## Twins -/

/-- Two unbounded ledgers over the same blocks, the second without policies, as a ledger and the
one loaded from its snapshot are. -/
structure Twins (l m : Ledger) : Prop where
  left : l.Unbounded
  right : m.Unbounded
  compatible : Compatible l m
  mem_iff : ∀ x, x ∈ l.dag.nodes ↔ x ∈ m.dag.nodes
  difficulty : m.dag.difficulty = none
  requirePow : m.dag.requirePow = false

/-- The state in front of a block, where it is stored. -/
theorem Unbounded.viewState_eq {l : Ledger} (h : l.Unbounded) {sp : BlockId}
    (hsp : sp ∈ l.dag.nodes) (mergeset : List BlockId) :
    l.viewState ⟨sp, mergeset⟩ = some (mergeset.foldl (applyStored l.dag.toDagView l.subsidy)
      (l.dag.replay l.subsidy (l.dag.order sp))) := by
  obtain ⟨state, hstate⟩ := Finmap.mem_iff.1 (h.stored sp hsp)
  rw [viewState, hstate, Option.map_some, (h.reachable.wellFormed.state_eq sp state hstate).2]

/-- How a call on an unbounded ledger ends, once the structure is right. -/
theorem Unbounded.offer_cases {l : Ledger} (h : l.Unbounded) {o : Offer} {sp : BlockId}
    (hstruct : l.dag.checkStructure o.block = .ok ())
    (hsp : l.dag.selectParent o.block.parents = some sp) {view : UtxoSet}
    (hview : l.viewState ⟨sp, l.dag.mergesetOrdered sp o.block.parents⟩ = some view) :
    (l.Accepted o ↔ (∃ applied, applyBlock view o.txs.val l.subsidy = .ok applied) ∧
        l.dag.runValidator o.block = .ok () ∧ l.dag.checkPolicy o.block sp = .ok () ∧
        l.dag.len + 1 < mapCapacity) ∧
      (l.Refused o ↔ (¬ ∃ applied, applyBlock view o.txs.val l.subsidy = .ok applied) ∨
        ¬ l.dag.runValidator o.block = .ok () ∨ ¬ l.dag.checkPolicy o.block sp = .ok ()) := by
  obtain ⟨state, hstate, hfold⟩ := Option.map_eq_some_iff.1 hview
  have hoffer := offer_eq hstruct hsp
  rw [if_neg (by rw [h.finalityScore]; exact Nat.not_lt_zero _)] at hoffer
  simp only [hstate, hfold] at hoffer
  obtain ⟨sp', g, hdata, hsel, hsp'⟩ := Dag.exists_data (d := l.dag) o.ord
    (Dag.checkStructure_ok_iff.1 hstruct).2.1
  rw [Option.some.inj (hsp'.symm.trans hsp)] at hsel
  rw [Dag.insert_eq hstruct hdata hsel] at hoffer
  unfold Accepted Refused
  rw [hoffer]
  cases happly : applyBlock view o.txs.val l.subsidy with
  | error e => simp
  | ok applied =>
      cases hvalid : l.dag.runValidator o.block with
      | error e => simp
      | ok u =>
          cases hpolicy : l.dag.checkPolicy o.block sp with
          | error e => simp
          | ok u' =>
              by_cases hroom : mapCapacity ≤ l.dag.len + 1
              · simp [hroom]
              · simp only [hroom, if_false]
                simp [not_le.1 hroom]

/-- A block whose structure is wrong is refused, whatever the ledger. -/
theorem refused_of_structure {l : Ledger} {o : Offer} {e : DagError}
    (hstruct : l.dag.checkStructure o.block = .error e) : ¬ l.Accepted o ∧ l.Refused o := by
  have hoffer := offer_eq_of_structure hstruct
  constructor
  · rintro ⟨id, l', haccepted⟩
    rw [hoffer] at haccepted
    cases haccepted
  · exact ⟨_, hoffer⟩

/-- An unbounded ledger with room for a block accepts a call or refuses it. -/
theorem Unbounded.accepted_or_refused {m : Ledger} (h : m.Unbounded)
    (hroom : m.dag.len + 1 < mapCapacity) (o : Offer) : m.Accepted o ∨ m.Refused o := by
  cases hstruct : m.dag.checkStructure o.block with
  | error e => exact .inr (refused_of_structure hstruct).2
  | ok u =>
      have hparents := Dag.checkStructure_ok_iff.1 hstruct
      obtain ⟨sp, hsp⟩ := exists_maxByKey m.dag.chainKey hparents.2.1
      have hview := h.viewState_eq (hparents.2.2 sp (maxByKey_mem hsp))
        (m.dag.mergesetOrdered sp o.block.parents)
      obtain ⟨haccepted, hrefused⟩ := h.offer_cases hstruct hsp hview
      rw [haccepted, hrefused]
      tauto

namespace Twins

variable {l m : Ledger}

omit [Crypto] in
private theorem verdict_logic {applies valid policy room : Prop} :
    ((applies ∧ valid ∧ policy ∧ room ↔ applies ∧ valid ∧ room) ∧
      (¬ applies ∨ ¬ valid ∨ ¬ policy ↔ ¬ applies ∨ ¬ valid)) ↔ (applies → valid → policy) := by
  tauto

omit [Crypto] in
private theorem checkStructure_eq [Crypto] {d d' : DagView}
    (hmem : ∀ x, x ∈ d.nodes ↔ x ∈ d'.nodes) (block : Block) :
    d.checkStructure block = d'.checkStructure block := by
  have hcontains : d.contains = d'.contains := by
    funext x
    simp only [DagView.contains, hmem]
  simp only [DagView.checkStructure, hmem, hcontains]

/-- What the checks of a call read is the same in both ledgers, policies aside. -/
theorem checks_eq (h : Twins l m) {o : Offer} (ord : HashOrder)
    (hstruct : l.dag.checkStructure o.block = .ok ()) {sp : BlockId}
    (hsp : l.dag.selectParent o.block.parents = some sp) :
    m.dag.selectParent (o.under ord).block.parents = some sp ∧
      (∃ view, l.viewState ⟨sp, l.dag.mergesetOrdered sp o.block.parents⟩ = some view ∧
        m.viewState ⟨sp, m.dag.mergesetOrdered sp (o.under ord).block.parents⟩ = some view) ∧
      m.dag.runValidator (o.under ord).block = l.dag.runValidator o.block ∧
      m.dag.len = l.dag.len := by
  have hblock : (o.under ord).block = o.block := rfl
  have hl := h.left.reachable.wellFormed
  have hm := h.right.reachable.wellFormed
  have hagree := h.compatible.agreeOn hl hm
  have hparents : ∀ p ∈ o.block.parents, p ∈ DagView.common l.dag.toDagView m.dag.toDagView := by
    intro p hp
    have hin := (Dag.checkStructure_ok_iff.1 hstruct).2.2 p hp
    exact ⟨hin, (h.mem_iff p).1 hin⟩
  have hspMem := hparents sp (maxByKey_mem hsp)
  obtain ⟨_, _, hreplay, _⟩ := h.compatible.same_of_mem_iff hl hm h.mem_iff
  refine ⟨?_, ?_, ?_, ?_⟩
  · rw [hblock, ← hsp]
    exact (hagree.selectParent_eq hparents fun _ => Iff.rfl).symm
  · refine ⟨_, h.left.viewState_eq hspMem.1 _, ?_⟩
    rw [h.right.viewState_eq hspMem.2, hblock, ← hreplay sp hspMem.1, ← h.compatible.subsidy_eq,
      ← hagree.mergesetOrdered_eq hl.dag.exact hm.dag.exact hspMem hparents fun _ => Iff.rfl]
    congr 1
    apply DagView.foldl_applyStored_congr
    intro x hx
    obtain ⟨⟨p, hp, hxp⟩, _⟩ := (hl.dag.exact.mem_mergesetOrdered hspMem.1
      (fun p hp => (hparents p hp).1) x).1 hx
    have hxMem : x ∈ l.dag.nodes := by
      rcases hxp with rfl | hanc
      · exact (hparents x hp).1
      · exact hl.dag.exact.mem_of_anc hanc
    exact (h.compatible.block_eq x hxMem ((h.mem_iff x).1 hxMem)).symm
  · simp only [Dag.runValidator, hl.validator, hm.validator, txStructureValidator, hblock]
  · rw [DagView.len, DagView.len]
    congr 1
    ext x
    rw [Finmap.mem_keys, Finmap.mem_keys, h.mem_iff]

/-- The verdicts on one block differ exactly where a policy alone refuses it. -/
theorem verdict_iff (h : Twins l m) (o : Offer) (ord : HashOrder) :
    ((l.Accepted o ↔ m.Accepted (o.under ord)) ∧ (l.Refused o ↔ m.Refused (o.under ord))) ↔
      ∀ sp, ¬ OnlyPolicyRefuses l o sp := by
  have hstructEq : m.dag.checkStructure (o.under ord).block = l.dag.checkStructure o.block :=
    (checkStructure_eq h.mem_iff o.block).symm
  cases hstruct : l.dag.checkStructure o.block with
  | error e =>
      obtain ⟨hnot, hrefused⟩ := refused_of_structure hstruct
      obtain ⟨hnot', hrefused'⟩ := refused_of_structure (hstructEq.trans hstruct)
      simp only [hnot, hnot', hrefused, hrefused', and_self, true_iff]
      intro sp honly
      rw [honly.structure_ok] at hstruct
      cases hstruct
  | ok u =>
      obtain ⟨sp, hsp⟩ := exists_maxByKey l.dag.chainKey
        (Dag.checkStructure_ok_iff.1 hstruct).2.1
      obtain ⟨hsp', ⟨view, hview, hview'⟩, hvalid, hlen⟩ := h.checks_eq ord hstruct hsp
      obtain ⟨haccepted, hrefused⟩ := h.left.offer_cases hstruct hsp hview
      obtain ⟨haccepted', hrefused'⟩ :=
        h.right.offer_cases (hstructEq.trans hstruct) hsp' hview'
      have hpolicy := checkPolicy_of_none h.difficulty h.requirePow (o.under ord).block sp
      have htxs : (o.under ord).txs = o.txs := rfl
      rw [hvalid, htxs, ← h.compatible.subsidy_eq] at haccepted' hrefused'
      rw [hlen] at haccepted'
      have honly : (∀ sp, ¬ OnlyPolicyRefuses l o sp) ↔
          ((∃ applied, applyBlock view o.txs.val l.subsidy = .ok applied) →
            l.dag.runValidator o.block = .ok () → l.dag.checkPolicy o.block sp = .ok ()) := by
        constructor
        · rintro hnot ⟨applied, happly⟩ hrun
          by_contra hpol
          exact hnot sp ⟨hstruct, hsp, ⟨view, applied, hview, happly⟩, hrun, hpol⟩
        · rintro himp sp₁ ⟨_, hsel, ⟨view₁, applied, hview₁, happly⟩, hrun, hpol⟩
          obtain rfl := Option.some.inj (hsel.symm.trans hsp)
          obtain rfl := Option.some.inj (hview₁.symm.trans hview)
          exact hpol (himp ⟨applied, happly⟩ hrun)
      rw [haccepted, haccepted', hrefused, hrefused', honly]
      simp only [hpolicy, not_true_eq_false, or_false, true_and]
      exact verdict_logic

/-- Both ledgers took the block, or neither did. -/
theorem after (h : Twins l m) {o : Offer} {ord : HashOrder}
    (hsame : l.Accepted o ↔ m.Accepted (o.under ord)) :
    Twins (l.after o) (m.after (o.under ord)) := by
  have hl := h.left.reachable.wellFormed
  have hm := h.right.reachable.wellFormed
  by_cases haccepted : l.Accepted o
  · obtain ⟨id, l', hl'⟩ := haccepted
    obtain ⟨id', m', hm'⟩ := hsame.1 ⟨id, l', hl'⟩
    have hafter : l.after o = l' := by rw [Ledger.after, hl']
    have hafter' : m.after (o.under ord) = m' := by rw [Ledger.after, hm']
    rw [hafter, hafter']
    have hstep : Step l (.offer o) l' := .accepted hl'
    have hstep' : Step m (.offer (o.under ord)) m' := .accepted hm'
    have hparameters := hstep.sameParameters
    have hparameters' := hstep'.sameParameters
    have hpolicy := hstep'.policy_eq
    obtain ⟨hnodes, hself⟩ := offer_nodes hl'
    obtain ⟨hnodes', hself'⟩ := offer_nodes hm'
    have hblock : (o.under ord).block = o.block := rfl
    rw [hblock] at hnodes' hself'
    refine ⟨h.left.step hstep, h.right.step hstep', ⟨?_, ?_, ?_, ?_⟩, ?_, ?_, ?_⟩
    · rw [← hparameters.k_eq, h.compatible.k_eq, hparameters'.k_eq]
    · rw [← hparameters.genesis_eq, h.compatible.genesis_eq, hparameters'.genesis_eq]
    · rw [← hparameters.subsidy_eq, h.compatible.subsidy_eq, hparameters'.subsidy_eq]
    · intro x hx hx'
      by_cases hold : x ∈ l.dag.nodes
      · rw [← ((hstep.agreeOn hl).1.sameCore hold).block,
          ← ((hstep'.agreeOn hm).1.sameCore ((h.mem_iff x).1 hold)).block]
        exact h.compatible.block_eq x hold ((h.mem_iff x).1 hold)
      · rw [((hnodes x).1 hx).resolve_right hold, hself, hself']
    · intro x
      rw [hnodes, hnodes', h.mem_iff]
    · rw [hpolicy.1, h.difficulty]
    · rw [hpolicy.2, h.requirePow]
  · have hstay : ∀ {n : Ledger} {o : Offer}, ¬ n.Accepted o → n.after o = n := by
      intro n o hnot
      unfold Ledger.after
      split
      · rename_i id n' hoffer
        exact absurd ⟨id, n', hoffer⟩ hnot
      · rfl
    rw [hstay haccepted, hstay (mt hsame.2 haccepted)]
    exact h

/-- The verdicts on a sequence of blocks agree as long as no policy alone refuses
one. -/
theorem sameVerdicts_iff (h : Twins l m) (calls : List (Offer × HashOrder)) :
    SameVerdicts l m calls ↔ NeverOnlyPolicy l calls := by
  induction calls generalizing l m with
  | nil => exact Iff.rfl
  | cons call rest ih =>
      obtain ⟨o, ord⟩ := call
      have hverdict := h.verdict_iff o ord
      constructor
      · rintro ⟨hfirst, hrest⟩
        exact ⟨hverdict.1 hfirst, (ih (h.after hfirst.1)).1 hrest⟩
      · rintro ⟨hfirst, hrest⟩
        have hsame := hverdict.2 hfirst
        exact ⟨hsame, (ih (h.after hsame.1)).2 hrest⟩

end Twins

/-- A saved ledger and the one loaded from its snapshot. -/
theorem Unbounded.twins_of_readSnapshot {l m : Ledger} (h : l.Unbounded) {ord ord' : HashOrder}
    (hread : readSnapshot ord' (l.writeSnapshot ord) = .ok m) : Twins l m := by
  obtain ⟨m', hread', hunbounded, hdifficulty, hpow, hrestores⟩ :=
    h.reachable.exists_readSnapshot ord ord'
  obtain rfl := Except.ok.inj (hread.symm.trans hread')
  have hl := h.reachable.wellFormed
  have hm := hunbounded.reachable.wellFormed
  have hgenesis : l.dag.genesis = m.dag.genesis := by
    rw [hl.genesis_eq, hm.genesis_eq, hrestores.genesis_eq]
  refine ⟨h, hunbounded, ⟨hrestores.k_eq.symm, hgenesis, hrestores.subsidy_eq.symm, ?_⟩,
    fun x => (hrestores.mem_iff x).symm, hdifficulty, hpow⟩
  intro x hx hx'
  have heq := hrestores.consensus.block x
  rw [DagView.block, DagView.block, DagView.lookup_node hx, DagView.lookup_node hx'] at heq
  exact Option.some.inj heq

/-- A block that is accepted was refused by no policy. -/
theorem Unbounded.not_onlyPolicyRefuses {l : Ledger} (h : l.Unbounded) {o : Offer}
    (haccepted : l.Accepted o) (sp : BlockId) : ¬ OnlyPolicyRefuses l o sp := by
  intro honly
  obtain ⟨view, _, hview, _⟩ := honly.applies
  have hcases := (h.offer_cases honly.structure_ok honly.selected hview).1
  exact honly.policy (hcases.1 haccepted).2.2.1

/-- A ledger without policies refuses no block for one, now or later. -/
theorem neverOnlyPolicy_of_none {l : Ledger} (hdifficulty : l.dag.difficulty = none)
    (hpow : l.dag.requirePow = false) (calls : List (Offer × HashOrder)) :
    NeverOnlyPolicy l calls := by
  induction calls generalizing l with
  | nil => exact trivial
  | cons call rest ih =>
      obtain ⟨o, ord⟩ := call
      refine ⟨fun sp honly => honly.policy (checkPolicy_of_none hdifficulty hpow o.block sp), ?_⟩
      cases hoffer : l.offer o with
      | error e =>
          have hafter : l.after o = l := by rw [Ledger.after, hoffer]
          rw [hafter]
          exact ih hdifficulty hpow
      | ok r =>
          obtain ⟨id, l'⟩ := r
          have hafter : l.after o = l' := by rw [Ledger.after, hoffer]
          have hstep : Step l (.offer o) l' := .accepted hoffer
          obtain ⟨hkept, hkept'⟩ := hstep.policy_eq
          rw [hafter]
          exact ih (hkept.trans hdifficulty) (hkept'.trans hpow)

/-- In particular a ledger on which no policy is installed is restored with its verdicts. -/
theorem loaded_agrees_of_none {l m : Ledger} (h : l.Unbounded) {ord ord' : HashOrder}
    (hread : readSnapshot ord' (l.writeSnapshot ord) = .ok m) (hdifficulty : l.dag.difficulty = none)
    (hpow : l.dag.requirePow = false) (calls : List (Offer × HashOrder)) :
    SameVerdicts l m calls :=
  ((h.twins_of_readSnapshot hread).sameVerdicts_iff calls).2
    (neverOnlyPolicy_of_none hdifficulty hpow calls)

/-- A loaded ledger accepts and refuses what the saved one does, call after call,
exactly when the saved one refuses no block for its difficulty or proof-of-work
policy alone. -/
theorem loaded_enforces_iff {l m : Ledger} (h : l.Unbounded) {ord ord' : HashOrder}
    (hread : readSnapshot ord' (l.writeSnapshot ord) = .ok m) (calls : List (Offer × HashOrder)) :
    SameVerdicts l m calls ↔ NeverOnlyPolicy l calls :=
  (h.twins_of_readSnapshot hread).sameVerdicts_iff calls

end Ledger

namespace Reference

open scoped Reference

/-- A block of the greatest work on the genesis, which nobody mined. -/
def unmined : Offer := .on [genesis.id] (Word.maxValue 128) 1 noTxs

end Reference

namespace Ledger

open scoped Reference
open Reference (noTxs unmined)

/-- A ledger that checks proof of work is offered a block that any nonce mines, twice: it takes
the first and refuses the second as a duplicate, and so does the ledger loaded from it. -/
theorem loaded_enforces_iff_mined : ∃ (l m : Ledger) (o : Offer), l.dag.requirePow = true ∧
    l.Accepted o ∧ ¬ (l.after o).Accepted o ∧ SameVerdicts l m [(o, .sorted), (o, .sorted)] := by
  have hplay : (playNew .sorted 3 1 noTxs (Word.maxValue 64) [.setProofOfWork true]).map
      (fun played => decide (played.2.dag.requirePow = true ∧
        played.2.finalityDepth = Word.maxValue 64 ∧
        played.2.Accepted (.on [Reference.genesis.id] 1 1 noTxs) ∧
        ¬ (played.2.after (.on [Reference.genesis.id] 1 1 noTxs)).Accepted
          (.on [Reference.genesis.id] 1 1 noTxs) ∧
        ((played.2.after (.on [Reference.genesis.id] 1 1 noTxs)).dag.checkStructure
          (Offer.on [Reference.genesis.id] 1 1 noTxs).block).toOption = none)) = some true := by
    decide +kernel
  obtain ⟨played, hplayed, hdec⟩ := Option.map_eq_some_iff.1 hplay
  obtain ⟨hpow, hdepth, haccepted, hagain, hduplicate⟩ := of_decide_eq_true hdec
  have hl : played.2.Unbounded := ⟨reachable_of_playNew hplayed, hdepth⟩
  obtain ⟨m, hread, _⟩ := hl.reachable.exists_readSnapshot .sorted .sorted
  refine ⟨played.2, m, _, hpow, haccepted, hagain, (loaded_enforces_iff hl hread _).2 ⟨?_, ?_⟩⟩
  · exact hl.not_onlyPolicyRefuses haccepted
  · refine ⟨fun sp honly => ?_, trivial⟩
    rw [honly.structure_ok] at hduplicate
    cases hduplicate

/-- The saved ledger refuses the unmined block and the loaded one takes it. -/
theorem loaded_takes_unmined : ∃ l m : Ledger, l.Unbounded ∧ l.dag.requirePow = true ∧
    readSnapshot .sorted (l.writeSnapshot .sorted) = .ok m ∧ l.Refused unmined ∧
    m.Accepted (unmined.under .sorted) ∧ ¬ SameVerdicts l m [(unmined, .sorted)] := by
  have hplay : (playNew .sorted 3 1 noTxs (Word.maxValue 64) [.setProofOfWork true]).bind
      (fun played => (readSnapshot .sorted (played.2.writeSnapshot .sorted)).toOption.map
        fun m => decide (played.2.finalityDepth = Word.maxValue 64 ∧
          played.2.dag.requirePow = true ∧ played.2.Refused unmined ∧ ¬ played.2.Accepted unmined ∧
          m.Accepted (unmined.under .sorted))) = some true := by
    decide +kernel
  obtain ⟨played, hplayed, hload⟩ := Option.bind_eq_some_iff.1 hplay
  obtain ⟨m, hread, hdec⟩ := Option.map_eq_some_iff.1 hload
  obtain ⟨hdepth, hpow, hrefused, hnot, haccepted⟩ := of_decide_eq_true hdec
  have hl : played.2.Unbounded := ⟨reachable_of_playNew hplayed, hdepth⟩
  refine ⟨played.2, m, hl, hpow, ok_of_toOption hread, hrefused, haccepted, ?_⟩
  rintro ⟨⟨hsame, _⟩, _⟩
  exact hnot (hsame.2 haccepted)

end Ledger

end Kovanica
