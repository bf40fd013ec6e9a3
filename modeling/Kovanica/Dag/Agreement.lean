import Kovanica.Dag.Reachable

/-!
# Agreement between nodes

Two well-formed DAGs that store the same blocks on their common part derive the
same consensus data there, whatever else they hold and in whatever order the
blocks came.  When they hold the same blocks altogether they agree on the tips,
the selected chain and the linearization.

## Main results

* `agreeOn_common`: DAGs that store the same block under each common id have the same data for
  it.
* `sameConsensus_of_agreeOn`, `sameConsensus_of_block`: with the same blocks, every query has the
  same answer.
* `Run.block_iff`: which blocks a run has stored.
-/

namespace Kovanica

open Lib Relation

namespace DagView

variable [Crypto] {d d' : DagView}

namespace WellFormed

theorem card_past_lt (h : d.WellFormed) {x y : BlockId} (hxy : d.Anc x y) :
    (d.past x).card < (d.past y).card := by
  refine Finset.card_lt_card ((Finset.ssubset_iff_of_subset ?_).2 ⟨x, ?_, ?_⟩)
  · intro a ha
    rw [h.exact.mem_past] at ha ⊢
    exact ha.trans hxy
  · exact h.exact.mem_past.2 hxy
  · rw [h.exact.mem_past]
    exact h.acyclic x

theorem pastSize_lt (h : d.WellFormed) {x y : BlockId} (hxy : d.Anc x y) :
    (d.node x).pastSize < (d.node y).pastSize := by
  rw [h.past_size x _ (lookup_node (h.exact.mem_of_anc hxy)),
    h.past_size y _ (lookup_node hxy.mem)]
  exact h.card_past_lt hxy

end WellFormed

/-- The blocks two DAGs both hold.  The set is closed under parents, so on it both have the same
consensus data, whatever else they hold. -/
def common (d d' : DagView) : Set BlockId := {x | x ∈ d.nodes ∧ x ∈ d'.nodes}

/-- Two DAGs that store the same block under each common id derive the same data
for it: the consensus data of a block is a function of its past. -/
theorem agreeOn_common (hd : d.WellFormed) (hd' : d'.WellFormed) (hk : d.k = d'.k)
    (hgenesis : d.genesis = d'.genesis)
    (hblock : ∀ x n n', d.nodes.lookup x = some n → d'.nodes.lookup x = some n' →
      n.block = n'.block) : AgreeOn (common d d') d d' := by
  have hedge : ∀ y ∈ common d d', ∀ x, d.Edge x y ↔ d'.Edge x y := by
    rintro y ⟨hy, hy'⟩ x
    obtain ⟨n, hn⟩ := Finmap.mem_iff.1 hy
    obtain ⟨n', hn'⟩ := Finmap.mem_iff.1 hy'
    have heq := hblock y n n' hn hn'
    constructor
    · rintro ⟨m, hm, hx⟩
      rw [← Option.some.inj (hn.symm.trans hm), heq] at hx
      exact ⟨n', hn', hx⟩
    · rintro ⟨m, hm, hx⟩
      rw [← Option.some.inj (hn'.symm.trans hm), ← heq] at hx
      exact ⟨n, hn, hx⟩
  have hclosed : ∀ y ∈ common d d', ∀ x, d.Edge x y → x ∈ common d d' := fun y hy x hxy =>
    ⟨hd.parents_mem x y hxy, hd'.parents_mem x y ((hedge y hy x).1 hxy)⟩
  have hanc : ∀ x, ∀ y ∈ common d d', d.Anc x y ↔ d'.Anc x y := fun x y hy =>
    transGen_congr_of_closed hedge hclosed hy
  have hpast : ∀ y ∈ common d d', (d.node y).pastSize = (d'.node y).pastSize := by
    intro y hy
    rw [hd.past_size y _ (lookup_node hy.1), hd'.past_size y _ (lookup_node hy.2)]
    congr 1
    ext x
    rw [hd.exact.mem_past, hd'.exact.mem_past, hanc x y hy]
  have hblock' : ∀ y ∈ common d d', (d.node y).block = (d'.node y).block := fun y hy =>
    hblock y _ _ (lookup_node hy.1) (lookup_node hy.2)
  -- by induction on the size of the past: the parents' data agree already
  have hdata : ∀ size, ∀ y ∈ common d d', (d.past y).card = size →
      (d.node y).ghostdag = (d'.node y).ghostdag := by
    intro size
    induction size using Nat.strong_induction_on with
    | _ size ih =>
        intro y hy hsize
        by_cases hyg : y = d.genesis
        · obtain ⟨n, hn, _, _, hgd⟩ := hd.genesis_node
          obtain ⟨n', hn', _, _, hgd'⟩ := hd'.genesis_node
          rw [hyg, node_of_lookup hn, hgenesis, node_of_lookup hn', hgd, hgd']
        · have hagree : AgreeOn {x | d.Anc x y} d d' :=
            { k_eq := hk
              core := by
                intro x hx
                have hxS : x ∈ common d d' := mem_of_transGen_of_closed hclosed hx hy
                exact ⟨_, _, lookup_node hxS.1, lookup_node hxS.2, hblock' x hxS, hpast x hxS,
                  ih _ (hsize ▸ hd.card_past_lt hx) x hxS rfl⟩
              closed := fun z hz x hxz => TransGen.head hxz hz }
          have hdataD := hd.ghostdag_eq .sorted y _ (lookup_node hy.1) hyg
          have hdataD' := hd'.ghostdag_eq .sorted y _ (lookup_node hy.2) (hgenesis ▸ hyg)
          rw [← hblock' y hy, ← computeGhostdag_congr hagree hd.exact hd'.exact ?_ ?_
            (fun _ => Iff.rfl) .sorted .sorted, hdataD] at hdataD'
          · exact Option.some.inj hdataD'
          · intro x hx b hb
            exact (hd.blue_past x _ (lookup_node (hd.exact.mem_of_anc hx)) b hb).trans hx
          · exact fun p hp => .single ⟨_, lookup_node hy.1, hp⟩
  exact
    { k_eq := hk
      core := fun x hx => ⟨_, _, lookup_node hx.1, lookup_node hx.2, hblock' x hx, hpast x hx,
        hdata _ x hx rfl⟩
      closed := hclosed }

/-! ## Holding the same blocks -/

/-- Two DAGs with the same consensus: everything derived for every block, and
everything read off the DAG as a whole. -/
structure SameConsensus (d d' : DagView) : Prop where
  block : ∀ x, d.block x = d'.block x
  ghostdag : ∀ x, d.ghostdag x = d'.ghostdag x
  pastSize : ∀ x, (d.nodes.lookup x).map Dag.Node.pastSize =
    (d'.nodes.lookup x).map Dag.Node.pastSize
  tips : d.tipList = d'.tipList
  selectedTip : d.selectedTip = d'.selectedTip
  selectedChain : d.selectedChain = d'.selectedChain
  linearize : ∀ ord ord', d.linearize ord = d'.linearize ord'

/-- DAGs that hold the same blocks agree on every query. -/
theorem sameConsensus_of_agreeOn (hd : d.WellFormed) (hd' : d'.WellFormed)
    (hgenesis : d.genesis = d'.genesis) (hmem : ∀ x, x ∈ d.nodes ↔ x ∈ d'.nodes)
    (h : AgreeOn {x | x ∈ d.nodes} d d') : SameConsensus d d' := by
  have hkeys : d.nodes.keys = d'.nodes.keys := by
    ext x
    rw [Finmap.mem_keys, Finmap.mem_keys, hmem]
  have hlookup : ∀ {β : Type} (f : Dag.Node → β),
      (∀ n n', SameCore n n' → f n = f n') →
      ∀ x, (d.nodes.lookup x).map f = (d'.nodes.lookup x).map f := by
    intro β f hf x
    by_cases hx : x ∈ d.nodes
    · obtain ⟨n, n', hn, hn', hcore⟩ := h.core x hx
      rw [hn, hn', Option.map_some, Option.map_some, hf n n' hcore]
    · rw [Finmap.lookup_eq_none.2 hx, Finmap.lookup_eq_none.2 (mt (hmem x).2 hx)]
  have htips : d.tips = d'.tips := by
    ext x
    rw [hd.tips_iff, hd'.tips_iff, hmem]
    refine and_congr_right fun _ => forall_congr' fun y => not_congr ?_
    by_cases hy : y ∈ d.nodes
    · exact h.edge_iff hy x
    · exact ⟨fun hedge => absurd hedge.mem hy, fun hedge => absurd ((hmem y).2 hedge.mem) hy⟩
  have htipList : d.tipList = d'.tipList := by rw [tipList, tipList, htips]
  have htip : d.selectedTip = d'.selectedTip := by
    have hmax : maxByKey d.chainKey d.tipList = maxByKey d'.chainKey d'.tipList := by
      rw [← htipList]
      exact maxByKey_eq_of_mem_iff (fun _ => Iff.rfl)
        (fun x hx => h.chainKey_eq ((hd.tips_iff x).1 (mem_ascending.1 hx)).1)
        fun _ _ _ _ hxy => d.chainKey_injective hxy
    rw [selectedTip, selectedTip, hmax, hgenesis]
  have hsel : d.selectedParentOf = d'.selectedParentOf := by
    funext x
    have hgd := hlookup Dag.Node.ghostdag (fun _ _ hcore => hcore.ghostdag) x
    rw [selectedParentOf, selectedParentOf, ghostdag, ghostdag, hgd]
  have hchain : d.selectedChain = d'.selectedChain := by
    rw [selectedChain, selectedChain, chainTo, chainTo, htip, hsel, len, len, hkeys]
  have hmergeset : ∀ x, d.mergesetOrder x = d'.mergesetOrder x := by
    intro x
    by_cases hx : x ∈ d.nodes
    · have hcore := h.sameCore hx
      rw [mergesetOrder, mergesetOrder, ← hcore.ghostdag, parentsOf, parentsOf, ← hcore.block]
      cases hsp : (d.node x).ghostdag.selectedParent with
      | none => rfl
      | some sp =>
          have hparents : ∀ p ∈ (d.node x).block.parents, p ∈ d.nodes := fun p hp =>
            hd.parents_mem p x ⟨_, lookup_node hx, hp⟩
          have hspMem : sp ∈ d.nodes := by
            have htree := hd.tracks.labelled.tree.edge_mem sp x (by
              rw [selectedParentOf_eq (lookup_node hx), hsp])
            exact Finmap.mem_keys.1 htree.1
          exact h.mergesetOrdered_eq hd.exact hd'.exact hspMem hparents fun _ => Iff.rfl
    · have hnone := Finmap.lookup_eq_none.2 hx
      have hnone' := Finmap.lookup_eq_none.2 (mt (hmem x).2 hx)
      rw [mergesetOrder, mergesetOrder, node, node, valueAt, valueAt, hnone, hnone']
      rfl
  refine ⟨hlookup _ fun _ _ hcore => hcore.block, hlookup _ fun _ _ hcore => hcore.ghostdag,
    hlookup _ fun _ _ hcore => hcore.pastSize, htipList, htip, hchain, fun ord ord' => ?_⟩
  have hspine : d.spine d.selectedChain = d'.spine d'.selectedChain := by
    rw [spine, spine, hchain]
    exact List.flatMap_congr fun b _ => by rw [hmergeset b]
  have htail : ∀ emitted, d.tail ord emitted = d'.tail ord' emitted := by
    intro emitted
    have hnodes : ∀ x ∈ (ord.iter d.nodes.keys).filter fun b => b ∉ emitted, x ∈ d.nodes :=
      fun x hx => Finmap.mem_keys.1 (ord.mem_iter.1 (List.mem_of_mem_filter hx))
    rw [tail, tail, sortByKey_congr fun x hx => h.topoKey_eq (hnodes x hx)]
    refine sortByKey_eq_of_mem_iff ((ord.nodup_iter _).filter _) ((ord'.nodup_iter _).filter _)
      (fun x => ?_) fun _ _ _ _ hxy => d'.topoKey_injective hxy
    rw [List.mem_filter, List.mem_filter, HashOrder.mem_iter, HashOrder.mem_iter, hkeys]
  rw [linearize, linearize, hspine, htail]

omit [Crypto] in
theorem mem_nodes_iff {x : BlockId} : x ∈ d.nodes ↔ (d.block x).isSome = true := by
  rw [block, Option.isSome_map, Finmap.lookup_isSome]

/-- DAGs of one genesis and `k` that store the same blocks agree on every query. -/
theorem sameConsensus_of_block (hd : d.WellFormed) (hd' : d'.WellFormed) (hk : d.k = d'.k)
    (hgenesis : d.genesis = d'.genesis) (hsame : ∀ x, d.block x = d'.block x) :
    SameConsensus d d' := by
  have hmem : ∀ x, x ∈ d.nodes ↔ x ∈ d'.nodes := by
    intro x
    rw [mem_nodes_iff, mem_nodes_iff, hsame]
  have hcommon := agreeOn_common hd hd' hk hgenesis (by
    intro x n n' hn hn'
    have hx := hsame x
    rw [block, block, hn, hn'] at hx
    exact Option.some.inj hx)
  refine sameConsensus_of_agreeOn hd hd' hgenesis hmem ⟨hcommon.k_eq, ?_, ?_⟩
  · exact fun x hx => hcommon.core x ⟨hx, (hmem x).1 hx⟩
  · exact fun y _ x hedge => hd.parents_mem x y hedge

end DagView

namespace Dag

variable [Crypto]

/-- What a run stores: the blocks it started from and the inserted ones. -/
theorem Run.block_iff {d d' : Dag} {blocks : List Block} (h : Run d blocks d') :
    d'.k = d.k ∧ d'.genesis = d.genesis ∧
      ∀ x b, d'.block x = some b ↔ d.block x = some b ∨ (b ∈ blocks ∧ b.id = x) := by
  induction h with
  | start => simp
  | @insert blocks mid d' ord block id hrun hinsert ih =>
      obtain ⟨sp, g, hadmits, heq⟩ := insert_eq_ok_iff.1 hinsert
      obtain ⟨hk, hgenesis, hblock⟩ := ih
      rw [(Prod.mk.inj heq).2]
      refine ⟨hk, hgenesis, fun x b => ?_⟩
      rw [List.mem_append, List.mem_singleton]
      by_cases hx : x = block.id
      · subst hx
        have hself : (mid.wire block sp g).block block.id = some block := by
          rw [DagView.block, lookup_wire_self]
          rfl
        have hnone : mid.block block.id = none := by
          rw [DagView.block, Finmap.lookup_eq_none.2 hadmits.fresh]
          rfl
        have hold := hblock block.id b
        rw [hnone] at hold
        rw [hself]
        constructor
        · intro hb
          exact .inr ⟨.inr (Option.some.inj hb).symm, by rw [← Option.some.inj hb]⟩
        · rintro (hb | ⟨hb | rfl, hid⟩)
          · exact absurd (hold.2 (.inl hb)) (by simp)
          · exact absurd (hold.2 (.inr ⟨hb, hid⟩)) (by simp)
          · rfl
      · have hcore := congrArg (Option.map Prod.fst) (lookup_wire_core hadmits hx)
        rw [Option.map_map, Option.map_map] at hcore
        have hkeep : (mid.wire block sp g).block x = mid.block x := hcore
        rw [hkeep, hblock]
        constructor
        · rintro (hb | ⟨hb, hid⟩)
          · exact .inl hb
          · exact .inr ⟨.inl hb, hid⟩
        · rintro (hb | ⟨hb | rfl, hid⟩)
          · exact .inl hb
          · exact .inr ⟨hb, hid⟩
          · exact absurd hid.symm hx
  | policy validator difficulty requirePow _ ih => exact ih

/-- Consensus is independent of arrival order: two runs from the same genesis that
accept the same blocks, in any two orders, under any policies and whatever order
their maps are iterated in, end with the same consensus. -/
theorem consensus_of_perm {ord ord' : HashOrder} {k : KParam} {work : U128}
    {timestampMs nonce : U64} {payload : Vec U8} {blocks blocks' : List Block} {d d' : Dag}
    (hperm : blocks.Perm blocks')
    (h : Run (Dag.new ord k (Block.genesis work timestampMs nonce payload)) blocks d)
    (h' : Run (Dag.new ord' k (Block.genesis work timestampMs nonce payload)) blocks' d') :
    DagView.SameConsensus d.toDagView d'.toDagView := by
  have hnew := DagView.wellFormed_new ord k (Block.genesis work timestampMs nonce payload) rfl
  have hnew' := DagView.wellFormed_new ord' k (Block.genesis work timestampMs nonce payload) rfl
  have hd := h.wellFormed hnew
  have hd' := h'.wellFormed hnew'
  obtain ⟨hk, hgenesis, hblock⟩ := h.block_iff
  obtain ⟨hk', hgenesis', hblock'⟩ := h'.block_iff
  -- what a new DAG stores is read off without its oracle
  have hstart : ∀ ord, (Dag.new ord k (Block.genesis work timestampMs nonce payload)).nodes =
      Finmap.singleton (Block.genesis work timestampMs nonce payload).id
        ⟨Block.genesis work timestampMs nonce payload, 0, ∅, .genesis⟩ := fun _ => rfl
  have hroot : ∀ ord, (Dag.new ord k (Block.genesis work timestampMs nonce payload)).genesis =
      (Block.genesis work timestampMs nonce payload).id := fun _ => rfl
  have hparam : ∀ ord, (Dag.new ord k (Block.genesis work timestampMs nonce payload)).k = k :=
    fun _ => rfl
  have hsame : ∀ x, d.block x = d'.block x := by
    intro x
    refine Option.ext fun b => ?_
    rw [hblock, hblock', hperm.mem_iff, DagView.block, DagView.block, hstart, hstart]
  rw [hparam] at hk hk'
  rw [hroot] at hgenesis hgenesis'
  exact DagView.sameConsensus_of_block hd hd' (hk.trans hk'.symm) (hgenesis.trans hgenesis'.symm)
    hsame

end Dag

namespace Dag

open scoped Reference

/-- The two blocks under a merge, inserted in either order. -/
theorem consensus_of_perm_merge : ∃ d d' : Dag, d.len = 4 ∧ d'.len = 4 ∧
    DagView.SameConsensus d.toDagView d'.toDagView := by
  have hplay : ((Dag.new .sorted 1 Reference.genesis).insertAll .sorted
      [Reference.left, Reference.right, Reference.merge]).any
        (fun d => decide (d.len = 4)) = true := by
    decide +kernel
  have hplay' : ((Dag.new .sorted 1 Reference.genesis).insertAll .sorted
      [Reference.right, Reference.left, Reference.merge]).any
        (fun d => decide (d.len = 4)) = true := by
    decide +kernel
  obtain ⟨d, hd, hlen⟩ := Option.any_eq_true _ _ |>.1 hplay
  obtain ⟨d', hd', hlen'⟩ := Option.any_eq_true _ _ |>.1 hplay'
  exact ⟨d, d', of_decide_eq_true hlen, of_decide_eq_true hlen', consensus_of_perm (.swap _ _ _)
    (Run.start.insertAll hd) (Run.start.insertAll hd')⟩

end Dag

end Kovanica
