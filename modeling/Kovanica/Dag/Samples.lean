import Kovanica.Dag.Order

/-!
# Difficulty along the selected chain

The target of a block is read off the newest blocks of the selected chain below
it.  That chain never changes, so the target a block met when it was inserted is
the one the grown DAG still computes; and timestamps, checked against the parents
only, do not fall anywhere along an ancestor path.

## Main results

* `chainSamples_eq`: the samples of a tip are the end of its selected chain.
* `chainSamples_congr`, `nextWorkTarget_congr`: samples and targets below old blocks are the same
  in the grown DAG.
* `timed_wire`: an insert keeps the order of the timestamps.
-/

namespace Kovanica

open Lib Relation

namespace DagView

/-- What a block contributes to the samples of the chain above it. -/
def sampleOf (d : DagView) (id : BlockId) : TimedWork :=
  ⟨(d.node id).block.timestampMs, (d.node id).block.work⟩

/-- The timestamp of a stored block.  Under a policy it never falls from a parent to a child,
which is what keeps the time spans of samples from being cut off. -/
def timestampOf (d : DagView) (id : BlockId) : U64 := (d.node id).block.timestampMs

/-- The last `count` entries of a list; all of them when `count` has wrapped to 0. -/
def newest {α : Type} (count : Nat) (l : List α) : List α :=
  if count = 0 then l else l.drop (l.length - count)

theorem newest_sublist {α : Type} (count : Nat) (l : List α) : (newest count l).Sublist l := by
  unfold newest
  split
  · exact List.Sublist.refl l
  · exact List.drop_sublist _ l

variable [Crypto] {d d' : DagView}

/-! ## The samples are the end of the chain -/

/-- The loop of `chain_samples` takes samples along the selected chain until it
has `stopLen` of them. -/
theorem chainSamplesLoop_eq (h : d.WellFormed) (stopLen : U64) {fuel : Nat} {x : BlockId}
    {taken : List TimedWork} (hx : x ∈ d.nodes)
    (htaken : stopLen.val = 0 ∨ taken.length < stopLen.val) :
    d.chainSamplesLoop stopLen fuel x taken = taken ++
      if stopLen.val = 0 then (pathUp d.selectedParentOf fuel x).map d.sampleOf
      else ((pathUp d.selectedParentOf fuel x).map d.sampleOf).take
        (stopLen.val - taken.length) := by
  induction fuel generalizing x taken with
  | zero => simp [chainSamplesLoop, pathUp]
  | succ fuel ih =>
      have hsel := selectedParentOf_eq (lookup_node hx)
      have hsample : (⟨(d.node x).block.timestampMs, (d.node x).block.work⟩ : TimedWork) =
          d.sampleOf x := rfl
      rw [chainSamplesLoop]
      simp only [hsample]
      rw [List.length_append, List.length_singleton, ← hsel]
      by_cases hfull : taken.length + 1 = stopLen.val
      · -- this sample is the last one
        have hone : stopLen.val - taken.length = 1 := by omega
        rw [if_pos hfull, if_neg (by omega), hone, pathUp, List.map_cons, List.take_succ_cons,
          List.take_zero]
      · rw [if_neg hfull]
        cases hparent : d.selectedParentOf x with
        | none =>
            rw [pathUp]
            simp only [hparent, List.map_cons, List.map_nil]
            split
            · rfl
            · rw [List.take_of_length_le (by simp only [List.length_singleton]; omega)]
        | some parent =>
            have hmem := (h.selectedParent_mem hparent).1
            have hroom : stopLen.val = 0 ∨ (taken ++ [d.sampleOf x]).length < stopLen.val := by
              rw [List.length_append, List.length_singleton]
              omega
            rw [pathUp]
            simp only [hparent, List.map_cons]
            rw [ih hmem hroom, List.append_assoc, List.length_append, List.length_singleton]
            congr 1
            split
            · rfl
            · rw [show stopLen.val - taken.length = stopLen.val - (taken.length + 1) + 1 by omega,
                List.take_succ_cons]
              rfl

/-- `chain_samples` of a tip: the end of its selected chain. -/
theorem chainSamples_eq (h : d.WellFormed) {x : BlockId} (hx : x ∈ d.nodes) (window : U64) :
    d.chainSamples x window = newest (window + 1).val ((d.chainTo x).map d.sampleOf) := by
  have hempty : (window + 1).val = 0 ∨ ([] : List TimedWork).length < (window + 1).val := by
    rw [List.length_nil]
    omega
  rw [chainSamples, chainSamplesLoop_eq h _ hx hempty, List.nil_append, newest, chainTo,
    List.map_reverse, List.length_nil, Nat.sub_zero]
  split
  · rfl
  · rw [List.reverse_take, List.length_reverse]

/-! ## Stability -/

omit [Crypto] in
theorem AgreeOn.sampleOf_eq {S : Set BlockId} (h : AgreeOn S d d') {x : BlockId} (hx : x ∈ S) :
    d.sampleOf x = d'.sampleOf x := by
  rw [sampleOf, sampleOf, (h.sameCore hx).block]

/-- The samples below an old block are the same in the grown DAG. -/
theorem chainSamples_congr (hd : d.WellFormed) (hd' : d'.WellFormed)
    (h : AgreeOn {x | x ∈ d.nodes} d d') {x : BlockId} (hx : x ∈ d.nodes) (window : U64) :
    d.chainSamples x window = d'.chainSamples x window := by
  rw [chainSamples_eq hd hx, chainSamples_eq hd' (h.symm.mem hx), ← h.chainTo_eq hd hd' hx]
  congr 1
  apply List.map_congr_left
  intro y hy
  exact h.sampleOf_eq (hd.mem_of_mem_chainTo hx hy)

/-- So are the targets on old parents. -/
theorem nextWorkTarget_congr (hd : d.WellFormed) (hd' : d'.WellFormed)
    (h : AgreeOn {x | x ∈ d.nodes} d d') (hpolicy : d.difficulty = d'.difficulty)
    {parents : List BlockId} (hparents : ∀ p ∈ parents, p ∈ d.nodes) :
    d.nextWorkTarget parents = d'.nextWorkTarget parents := by
  rw [nextWorkTarget, nextWorkTarget, ← hpolicy,
    ← h.selectParent_eq hparents fun _ => Iff.rfl]
  congr 1
  funext retarget
  cases hsp : d.selectParent parents with
  | none => rfl
  | some sp =>
      have hmem := hparents sp (maxByKey_mem hsp)
      simp only [Option.map_some, chainSamples_congr hd hd' h hmem]

/-! ## The invariant under a policy -/

/-- What the difficulty rules leave behind: no block precedes a parent, and every
block carries the work its parents call for now. -/
structure Timed (policy : Retarget) (d : DagView) : Prop where
  installed : d.difficulty = some policy
  edge_le : ∀ x y, d.Edge x y → d.timestampOf x ≤ d.timestampOf y
  work_eq : ∀ x ∈ d.nodes, x ≠ d.genesis →
    d.nextWorkTarget (d.parentsOf x) = some (d.node x).block.work

namespace Timed

variable {policy : Retarget}

omit [Crypto] in
theorem anc_le (h : Timed policy d) {a b : BlockId} (hab : d.Anc a b) :
    d.timestampOf a ≤ d.timestampOf b := le_of_transGen h.edge_le hab

/-- Timestamps do not fall along a selected chain. -/
theorem chainTo_pairwise (h : Timed policy d) (hd : d.WellFormed) {x : BlockId}
    (hx : x ∈ d.nodes) :
    (d.chainTo x).Pairwise fun a b => d.timestampOf a ≤ d.timestampOf b := by
  refine hd.chain_induction (P := fun x => (d.chainTo x).Pairwise fun a b =>
    d.timestampOf a ≤ d.timestampOf b) ?_ ?_ hx
  · rw [hd.chainTo_genesis]
    exact List.pairwise_singleton _ _
  · intro y sp hsp ih
    rw [hd.chainTo_step hsp, pairwise_concat]
    refine ⟨ih, fun a ha => ?_⟩
    have hmem := (hd.selectedParent_mem hsp).1
    have hlast : d.timestampOf sp ≤ d.timestampOf y := h.anc_le ((hd.anc_iff hsp sp).2 (.inl rfl))
    rcases reflTransGen_iff_eq_or_transGen.1 ((hd.mem_chainTo hmem).1 ha) with heq | hbelow
    · rw [← heq]
      exact hlast
    · refine le_trans (le_of_transGen (fun p z hp => ?_) hbelow) hlast
      exact h.anc_le ((hd.anc_iff hp p).2 (.inl rfl))

theorem chainSamples_pairwise (h : Timed policy d) (hd : d.WellFormed) {x : BlockId}
    (hx : x ∈ d.nodes) (window : U64) :
    (d.chainSamples x window).Pairwise fun s t => s.timestampMs ≤ t.timestampMs := by
  rw [chainSamples_eq hd hx]
  refine List.Pairwise.sublist (newest_sublist _ _) ?_
  rw [List.pairwise_map]
  exact h.chainTo_pairwise hd hx

end Timed

end DagView

theorem Retarget.samples_sublist (policy : Retarget) (recent : List TimedWork) :
    (policy.samples recent).Sublist recent := by
  rw [Retarget.samples]
  split
  · exact List.drop_sublist _ recent
  · exact List.Sublist.refl recent

/-- The subtraction `next_work` makes on non-decreasing samples does not clip. -/
theorem Retarget.saturatingSub_exact {policy : Retarget} {recent : List TimedWork}
    (h : recent.Pairwise fun s t => s.timestampMs ≤ t.timestampMs) {first last : TimedWork}
    (hfirst : (policy.samples recent).head? = some first)
    (hlast : (policy.samples recent).getLast? = some last) :
    (Word.saturatingSub last.timestampMs first.timestampMs).val + first.timestampMs.val =
      last.timestampMs.val := by
  have hused := h.sublist (policy.samples_sublist recent)
  have hle : first.timestampMs ≤ last.timestampMs := by
    cases hl : policy.samples recent with
    | nil =>
        rw [hl] at hfirst
        cases hfirst
    | cons s rest =>
        rw [hl] at hfirst hlast hused
        have hs : s = first := Option.some.inj hfirst
        rcases List.mem_cons.1 (List.mem_of_getLast? hlast) with heq | hmem
        · rw [heq, hs]
        · rw [← hs]
          exact (List.pairwise_cons.1 hused).1 last hmem
  have hval := Fin.le_def.1 hle
  rw [Word.saturatingSub_val]
  omega

namespace Dag

variable [Crypto] {policy : Retarget}

/-- A DAG grown under a retargeting policy that was set while it held only its
genesis.  The validator and the proof-of-work switch may change at any time. -/
inductive Retargeted (policy : Retarget) : Dag → Prop
  | genesis (ord : HashOrder) (k : KParam) (work : U128) (timestampMs nonce : U64)
      (payload : Vec U8) : Retargeted policy
        ((Dag.new ord k (Block.genesis work timestampMs nonce payload)).setDifficulty policy)
  | insert {d d' : Dag} {ord : HashOrder} {block : Block} {id : BlockId}
      (h : Retargeted policy d) (hinsert : d.insert ord block = .ok (id, d')) :
      Retargeted policy d'
  | validator {d : Dag} (validator : Option BlockValidator) (h : Retargeted policy d) :
      Retargeted policy { d with validator := validator }
  | proofOfWork {d : Dag} (enabled : Bool) (h : Retargeted policy d) :
      Retargeted policy (d.setProofOfWork enabled)

theorem Retargeted.reachable {d : Dag} (h : Retargeted policy d) : Reachable d := by
  induction h with
  | genesis ord k work timestampMs nonce payload =>
      exact ⟨ord, k, work, timestampMs, nonce, payload, [],
        Run.start.policy none (some policy) false⟩
  | insert _ hinsert ih =>
      obtain ⟨ord, k, work, timestampMs, nonce, payload, blocks, hrun⟩ := ih
      exact ⟨ord, k, work, timestampMs, nonce, payload, _, hrun.insert hinsert⟩
  | @validator d validator _ ih =>
      obtain ⟨ord, k, work, timestampMs, nonce, payload, blocks, hrun⟩ := ih
      exact ⟨ord, k, work, timestampMs, nonce, payload, blocks,
        hrun.policy validator d.difficulty d.requirePow⟩
  | @proofOfWork d enabled _ ih =>
      obtain ⟨ord, k, work, timestampMs, nonce, payload, blocks, hrun⟩ := ih
      exact ⟨ord, k, work, timestampMs, nonce, payload, blocks,
        hrun.policy d.validator d.difficulty enabled⟩

theorem Retargeted.insertAll {d d' : Dag} {ord : HashOrder} {blocks : List Block}
    (h : Retargeted policy d) (hinsert : d.insertAll ord blocks = some d') :
    Retargeted policy d' := by
  induction blocks generalizing d with
  | nil =>
      rw [← Option.some.inj hinsert]
      exact h
  | cons block rest ih =>
      obtain ⟨id, mid, hblock, hrest⟩ := insertAll_cons_iff.1 hinsert
      exact ih (h.insert hblock) hrest

/-- What an insert under a policy has checked. -/
theorem Admits.checked {d : Dag} {block : Block} {sp : BlockId} {g : GhostdagData}
    {ord : HashOrder} (h : Admits ord d block sp g) (hpolicy : d.difficulty = some policy) :
    (∀ p ∈ block.parents, d.timestampOf p ≤ block.timestampMs) ∧
      block.work = policy.nextWork (d.chainSamples sp policy.window) := by
  have hok : d.checkDifficulty block block.id sp policy = .ok () := by
    have hall := h.policy
    rw [checkPolicy, hpolicy] at hall
    simp only at hall
    split at hall
    · cases hall
    · assumption
  rw [DagView.checkDifficulty] at hok
  split at hok
  · cases hok
  · rename_i hfind
    dsimp only at hok
    split at hok
    · cases hok
    · rename_i hwork
      refine ⟨fun p hp => ?_, not_not.1 hwork⟩
      have hnot := List.find?_eq_none.1 hfind p hp
      rw [decide_eq_true_eq, not_lt] at hnot
      exact hnot

/-- An insert keeps the timed invariant. -/
theorem timed_wire {d : Dag} {block : Block} {sp : BlockId} {g : GhostdagData}
    {ord : HashOrder} (hadmits : Admits ord d block sp g) (hd : d.WellFormed)
    (h : DagView.Timed policy d.toDagView) :
    DagView.Timed policy (d.wire block sp g).toDagView := by
  have hd' := wellFormed_wire hadmits hd
  have hagree := agreeOn_wire hadmits hd.parents_mem
  obtain ⟨htime, hwork⟩ := hadmits.checked h.installed
  have hself : (d.wire block sp g).node block.id = ⟨block, _, ∅, g⟩ :=
    DagView.node_of_lookup lookup_wire_self
  have hold : ∀ x ∈ d.nodes, (d.wire block sp g).timestampOf x = d.timestampOf x := fun x hx => by
    rw [DagView.timestampOf, DagView.timestampOf, (hagree.sameCore hx).block]
  have htarget : ∀ parents : List BlockId, (∀ p ∈ parents, p ∈ d.nodes) →
      d.nextWorkTarget parents = (d.wire block sp g).nextWorkTarget parents := fun _ hparents =>
    DagView.nextWorkTarget_congr hd hd' hagree rfl hparents
  refine ⟨h.installed, fun x y hedge => ?_, fun x hx hne => ?_⟩
  · rcases ((addsTop_wire hadmits hd.parents_mem).edge_iff x y).1 hedge with hedge | ⟨rfl, hx⟩
    · rw [hold x (hd.parents_mem x y hedge), hold y hedge.mem]
      exact h.edge_le x y hedge
    · have hnew : (d.wire block sp g).timestampOf block.id = block.timestampMs := by
        rw [DagView.timestampOf, hself]
      rw [hold x (hadmits.parents_mem x hx), hnew]
      exact htime x hx
  · rcases (mem_wire hadmits).1 hx with rfl | hx
    · -- the new block's target is the one the insert compared its work with
      have hparents : (d.wire block sp g).parentsOf block.id = block.parents := by
        rw [DagView.parentsOf, hself]
      have hsel := hadmits.selectParent_eq
      rw [hparents, ← htarget _ hadmits.parents_mem, hself, DagView.nextWorkTarget, h.installed,
        hsel, Option.bind_some, Option.map_some, hwork]
    · have hcore := hagree.sameCore hx
      have hparents : (d.wire block sp g).parentsOf x = d.parentsOf x := by
        rw [DagView.parentsOf, DagView.parentsOf, hcore.block]
      rw [hparents, ← htarget _ fun p hp => hd.parents_mem p x (DagView.mem_parentsOf.1 hp),
        ← hcore.block]
      exact h.work_eq x hx hne

theorem Retargeted.timed {d : Dag} (h : Retargeted policy d) :
    DagView.Timed policy d.toDagView := by
  induction h with
  | genesis ord k work timestampMs nonce payload =>
      refine ⟨rfl, fun x y hedge => ?_, fun x hx hne => ?_⟩
      · obtain ⟨n, hn, hparent⟩ := hedge
        rw [(DagView.lookup_new ord k hn).2] at hparent
        cases hparent
      · obtain ⟨n, hn⟩ := Finmap.mem_iff.1 hx
        exact absurd (DagView.lookup_new ord k hn).1 hne
  | insert hrun hinsert ih =>
      obtain ⟨sp, g, hadmits, heq⟩ := insert_eq_ok_iff.1 hinsert
      rw [(Prod.mk.inj heq).2]
      exact timed_wire hadmits hrun.reachable.wellFormed ih
  | validator _ _ ih => exact ih
  | @proofOfWork d enabled hrun ih =>
      have hd := hrun.reachable.wellFormed
      have hagree := agreeOn_refl hd.parents_mem
      refine ⟨ih.installed, ih.edge_le, fun x hx hne => ?_⟩
      refine Eq.trans ?_ (ih.work_eq x hx hne)
      exact (DagView.nextWorkTarget_congr hd (wellFormed_policy hd d.validator d.difficulty enabled)
        ⟨rfl, hagree.core, hagree.closed⟩ rfl fun p hp =>
          hd.parents_mem p x (DagView.mem_parentsOf.1 hp)).symm

/-- Difficulty validity is timeless: under a policy set on the bare genesis, every
block still carries the work the grown DAG computes for its parents, timestamps do
not fall along any ancestor path, and the samples handed to `next_work` are
non-decreasing, so that its subtraction does not clip. -/
theorem difficulty_timeless {d : Dag} (h : Retargeted policy d) :
    (∀ x ∈ d.nodes, x ≠ d.genesis →
        d.nextWorkTarget (d.parentsOf x) = some (d.node x).block.work) ∧
      (∀ a b, d.Anc a b → (d.node a).block.timestampMs ≤ (d.node b).block.timestampMs) ∧
      ∀ x ∈ d.nodes,
        ((d.chainSamples x policy.window).Pairwise fun s t => s.timestampMs ≤ t.timestampMs) ∧
        ∀ first last, (policy.samples (d.chainSamples x policy.window)).head? = some first →
          (policy.samples (d.chainSamples x policy.window)).getLast? = some last →
          (Word.saturatingSub last.timestampMs first.timestampMs).val + first.timestampMs.val =
            last.timestampMs.val := by
  have hd := h.reachable.wellFormed
  refine ⟨h.timed.work_eq, fun a b hab => h.timed.anc_le hab, fun x hx => ?_⟩
  have hsorted := h.timed.chainSamples_pairwise hd hx policy.window
  exact ⟨hsorted, fun first last hfirst hlast => Retarget.saturatingSub_exact hsorted hfirst hlast⟩

end Dag

namespace Dag

open scoped Reference

/-- Two branches with different clocks under the default policy, and a merge that
has to carry four times their work. -/
theorem difficulty_timeless_merge : ∃ d : Dag, d.len = 4 ∧ ∃ x ∈ d.nodes,
    (d.node x).block.work = 4 ∧
      d.nextWorkTarget (d.parentsOf x) = some (d.node x).block.work := by
  have hplay : (((Dag.new .sorted 1 Reference.genesis).setDifficulty .default).insertAll .sorted
      [Reference.left, Reference.right, Block.new (Reference.vec
        [Reference.left.id, Reference.right.id]) 4 3 0 Reference.noTxs.payload]).map
      (fun d => (d.len, decide (d.selectedTip ∈ d.nodes ∧ d.selectedTip ≠ d.genesis ∧
        (d.node d.selectedTip).block.work = 4))) = some (4, true) := by
    decide +kernel
  obtain ⟨d, hd, heq⟩ := Option.map_eq_some_iff.1 hplay
  obtain ⟨hlen, hdec⟩ := Prod.mk.inj heq
  obtain ⟨hmem, hne, hwork⟩ := of_decide_eq_true hdec
  have hrun : Retargeted .default d :=
    (Retargeted.genesis .sorted 1 1 0 0 Reference.noTxs.payload).insertAll hd
  exact ⟨d, hlen, _, hmem, hwork, (difficulty_timeless hrun).1 _ hmem hne⟩

end Dag

end Kovanica
