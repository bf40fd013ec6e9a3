import Kovanica.Dag.WellFormed
import Kovanica.Reference

/-!
# Reachable DAGs

A `Run` is a sequence of accepted inserts, with changes of the installed
policies in between; `Reachable` is a run from a genesis block.  Every reachable
DAG is well formed, so its oracle is exact, and a run never changes what is
stored for a block.

## Main results

* `wellFormed_new`: a bare genesis is well formed.
* `Run.agreeOn`: over a run, whatever was stored is stored as it was.
* `Run.insertAll`: replaying a list of blocks is a run.
-/

namespace Kovanica

open Lib Relation

/-! ## The genesis DAG -/

namespace Reachability

variable (ord : HashOrder) (id : BlockId) (node : Dag.Node)

/-- The oracle of a DAG that holds only genesis. -/
theorem build_singleton (hparents : node.block.parents = [])
    (hsp : node.ghostdag.selectedParent = none) :
    build ord id (Finmap.singleton id node) =
      { intervals := Finmap.singleton id (1, rootCapacity)
        fcs := ∅
        treeChildren := Finmap.singleton id []
        treeParent := ∅
        subtreeSize := Finmap.singleton id 1
        nextFree := Finmap.singleton id 2 } := by
  have hinsert : ∀ {ν : Type} (v v' : ν), (Finmap.singleton id v).insert id v' =
      (Finmap.singleton id v' : Finmap fun _ : BlockId => ν) := by
    intro ν v v'
    refine Finmap.ext_lookup fun x => ?_
    rw [lookup_insert_eq]
    by_cases hx : x = id
    · rw [if_pos hx, hx, Finmap.lookup_singleton_eq]
    · rw [if_neg hx, Finmap.lookup_eq_none.2 (by simpa using hx),
        Finmap.lookup_eq_none.2 (by simpa using hx)]
  have hempty : ∀ {ν : Type} (v : ν), (∅ : Finmap fun _ : BlockId => ν).insert id v =
      Finmap.singleton id v := by
    intro ν v
    refine Finmap.ext_lookup fun x => ?_
    rw [lookup_insert_eq]
    by_cases hx : x = id
    · rw [if_pos hx, hx, Finmap.lookup_singleton_eq]
    · rw [if_neg hx, Finmap.lookup_empty, eq_comm, Finmap.lookup_eq_none]
      simpa using hx
  have hcollect : collect ord (Finmap.singleton id node) =
      (Finmap.singleton id [], ∅, ∅) := by
    simp only [collect, HashOrder.entries_singleton, List.foldl_cons, List.foldl_nil, hparents,
      hsp, Finmap.lookup_empty, Option.getD_none, hempty]
  have hkeys : ∀ {ν : Type} (v : ν), (Finmap.singleton id v : Finmap fun _ : BlockId => ν).keys =
      {id} := fun _ => rfl
  have hvalue : ∀ {ν : Type} [Inhabited ν] (v : ν),
      valueAt (Finmap.singleton id v : Finmap fun _ : BlockId => ν) id = v :=
    fun v => valueAt_of_lookup Finmap.lookup_singleton_eq
  have hsort : sortChildren (Finmap.singleton id []) = Finmap.singleton id [] := by
    simp only [sortChildren, hkeys, ascending_singleton, List.foldl_cons, List.foldl_nil, hvalue,
      hinsert]
    rfl
  have hsizes : subtreeSizes id (Finmap.singleton id []) = Finmap.singleton id 1 := by
    simp only [subtreeSizes, hkeys, Finset.card_singleton, Nat.mul_one, subtreeSizesLoop,
      Finmap.lookup_singleton_eq, Option.getD_some, List.map_nil, List.reverse_nil,
      List.nil_append, List.sum_nil, Nat.add_zero, hempty, hinsert]
  have hfcs : buildFcs ord (Finmap.singleton id node) ∅
      (Finmap.singleton id (1, rootCapacity)) = ∅ := by
    have hcovers : coversOf ord (Finmap.singleton id node) ∅
        (Finmap.singleton id (1, rootCapacity)) id = [] := by
      have hwalk : ∀ (next : BlockId → List BlockId) (fuel : Nat),
          walk next (fun _ => false) fuel [] ∅ [] = [] := by
        intro next fuel
        cases fuel <;> rfl
      simp only [coversOf, Finmap.lookup_empty, Option.getD_none, hwalk, List.toFinset_nil,
        HashOrder.iter_empty, List.filter_nil]
      rfl
    simp only [buildFcs, hkeys, HashOrder.iter_singleton, List.foldl_cons, List.foldl_nil,
      hcovers, List.isEmpty_nil, if_true]
  simp only [build, hcollect, hsort, hsizes, relayoutSubtree, Reachability.size, hkeys,
    Finset.card_singleton, relayoutLoop, hvalue, Nat.sub_self, if_true, hempty, hfcs]

end Reachability

namespace DagView

variable [Crypto]

/-- All that a new DAG stores. -/
theorem lookup_new (ord : HashOrder) (k : KParam) {genesis : Block} {x : BlockId} {n : Dag.Node}
    (hn : (Dag.new ord k genesis).nodes.lookup x = some n) :
    x = genesis.id ∧ n = ⟨genesis, 0, ∅, .genesis⟩ := by
  have hx : x = genesis.id := by
    have hmem := Finmap.mem_of_lookup_eq_some hn
    exact Finmap.mem_singleton x genesis.id _ |>.1 hmem
  subst hx
  have hself : (Dag.new ord k genesis).nodes.lookup genesis.id =
      some ⟨genesis, 0, ∅, .genesis⟩ := Finmap.lookup_singleton_eq
  exact ⟨rfl, (Option.some.inj (hself.symm.trans hn)).symm⟩

section New

variable (ord : HashOrder) (k : KParam) {genesis : Block}

theorem edge_new (hparents : genesis.parents = []) (x y : BlockId) :
    ¬ (Dag.new ord k genesis).Edge x y := by
  rintro ⟨n, hn, hx⟩
  rw [(lookup_new ord k hn).2, hparents] at hx
  exact absurd hx List.not_mem_nil

theorem anc_new (hparents : genesis.parents = []) (x y : BlockId) :
    ¬ (Dag.new ord k genesis).Anc x y := by
  intro hxy
  obtain ⟨z, _, hz⟩ := TransGen.tail'_iff.1 hxy
  exact edge_new ord k hparents z y hz

theorem selectedParentOf_new (x : BlockId) :
    (Dag.new ord k genesis).selectedParentOf x = none := by
  by_cases hx : x ∈ (Dag.new ord k genesis).nodes
  · obtain ⟨n, hn⟩ := Finmap.mem_iff.1 hx
    rw [selectedParentOf_eq hn, (lookup_new ord k hn).2]
    rfl
  · exact selectedParentOf_none hx

theorem rootedTree_new : RootedTree (Dag.new ord k genesis).selectedParentOf {genesis.id}
    genesis.id where
  root_mem := Finset.mem_singleton_self _
  root_none := selectedParentOf_new ord k _
  edge_mem := fun x c hc => by rw [selectedParentOf_new] at hc; cases hc
  rooted := fun x hx => by rw [Finset.mem_singleton.1 hx]

theorem card_subtree_new : (subtree (Dag.new ord k genesis).selectedParentOf {genesis.id}
    genesis.id).card = 1 := by
  have hle := RootedTree.card_subtree_le (Dag.new ord k genesis).selectedParentOf
    {genesis.id} genesis.id
  have hpos := (rootedTree_new ord k).card_subtree_pos (Finset.mem_singleton_self genesis.id)
  rw [Finset.card_singleton] at hle
  omega

/-- The labels of a tree of one block. -/
theorem labelled_new (hparents : genesis.parents = []) :
    Reachability.Labelled (Dag.new ord k genesis).selectedParentOf {genesis.id} genesis.id
      (Dag.new ord k genesis).reach := by
  have hreach : (Dag.new ord k genesis).reach = _ :=
    Reachability.build_singleton ord genesis.id ⟨genesis, 0, ∅, .genesis⟩ hparents rfl
  have hinterval : (Dag.new ord k genesis).reach.intervals.lookup genesis.id =
      some (1, rootCapacity) := by
    rw [hreach]
    exact Finmap.lookup_singleton_eq
  have hfree : valueAt (Dag.new ord k genesis).reach.nextFree genesis.id = 2 := by
    rw [hreach]
    exact valueAt_of_lookup Finmap.lookup_singleton_eq
  have hstart := Reachability.start_of_lookup hinterval
  have hstop := Reachability.stop_of_lookup hinterval
  exact
    { tree := rootedTree_new ord k
      parent := by
        intro x
        rw [hreach, selectedParentOf_new]
        rfl
      children_keys := by
        rw [hreach]
        rfl
      data := by
        rw [hreach]
        refine ⟨?_, ?_, ?_⟩
        · intro x hx
          rw [Finset.mem_singleton.1 hx, valueAt_of_lookup Finmap.lookup_singleton_eq]
          exact List.nodup_nil
        · intro x hx c
          rw [Finset.mem_singleton.1 hx, valueAt_of_lookup Finmap.lookup_singleton_eq,
            selectedParentOf_new]
          simp
        · intro x hx
          rw [Finset.mem_singleton.1 hx, valueAt_of_lookup Finmap.lookup_singleton_eq,
            card_subtree_new]
      labelledAt := by
        intro x hx
        rw [Finset.mem_singleton.1 hx]
        have hcap : rootCapacity = 2 ^ 63 - 1 := rfl
        refine ⟨Finmap.mem_of_lookup_eq_some hinterval, ?_, ?_, ?_, ?_, ?_⟩
        · omega
        · omega
        · omega
        · exact fun c hc => by rw [selectedParentOf_new] at hc; cases hc
        · exact fun c e hc => by rw [selectedParentOf_new] at hc; cases hc
      root_start := hstart
      root_stop := hstop }

/-- Nothing is an ancestor of anything, and no covering set holds anything. -/
theorem tracks_new (hparents : genesis.parents = []) :
    Reachability.Tracks (Dag.new ord k genesis).selectedParentOf {genesis.id} genesis.id
      (Dag.new ord k genesis).Anc (Dag.new ord k genesis).reach := by
  have hcovers : ∀ a, (Dag.new ord k genesis).reach.covers a = [] := by
    intro a
    have hreach : (Dag.new ord k genesis).reach = _ :=
      Reachability.build_singleton ord genesis.id ⟨genesis, 0, ∅, .genesis⟩ hparents rfl
    rw [hreach]
    rfl
  refine ⟨labelled_new ord k hparents, ?_, ?_, ?_⟩
  · intro a c hc
    rw [hcovers] at hc
    cases hc
  · exact fun a b _ hab => absurd hab (anc_new ord k hparents a b)
  · intro a b hab
    obtain ⟨c, _, hc⟩ := TransGen.tail'_iff.1 hab
    have hsome : (Dag.new ord k genesis).selectedParentOf b = some c := hc
    rw [selectedParentOf_new] at hsome
    cases hsome

/-- A DAG that holds only a genesis block. -/
theorem wellFormed_new (genesis : Block) (hparents : genesis.parents = []) :
    (Dag.new ord k genesis).WellFormed where
  genesis_node := ⟨_, Finmap.lookup_singleton_eq, hparents, rfl, rfl⟩
  id_eq := by
    intro x n hn
    rw [(lookup_new ord k hn).1, (lookup_new ord k hn).2]
  parents_mem := fun x y hedge => absurd hedge (edge_new ord k hparents x y)
  parents_ne := fun x n hn hx => absurd (lookup_new ord k hn).1 hx
  acyclic := fun x => anc_new ord k hparents x x
  tracks := tracks_new ord k hparents
  past_size := by
    intro x n hn
    rw [(lookup_new ord k hn).2, eq_comm, Finset.card_eq_zero]
    classical
    rw [past, Finset.filter_eq_empty_iff]
    exact fun _ _ => anc_new ord k hparents _ _
  ghostdag_eq := fun ord' x n hn hx => absurd (lookup_new ord k hn).1 hx
  blue_past := by
    intro x n hn b hb
    rw [(lookup_new ord k hn).2] at hb
    exact absurd hb Finmap.notMem_empty
  tips_iff := by
    intro x
    have htips : (Dag.new ord k genesis).tips = {genesis.id} := rfl
    have hkeys : (Dag.new ord k genesis).nodes.keys = {genesis.id} := rfl
    rw [htips, Finset.mem_singleton, ← Finmap.mem_keys, hkeys, Finset.mem_singleton]
    exact ⟨fun hx => ⟨hx, fun y => edge_new ord k hparents x y⟩, fun hand => hand.1⟩
  len_lt := by
    have hkeys : (Dag.new ord k genesis).nodes.keys = {genesis.id} := rfl
    rw [len, hkeys, Finset.card_singleton]
    decide

end New

end DagView

/-! ## Runs -/

namespace Dag

/-- Agreement on a set carries over to a larger DAG that agrees on more. -/
theorem agreeOn_trans {S S' : Set BlockId} {d d' d'' : DagView} (h : DagView.AgreeOn S d d')
    (h' : DagView.AgreeOn S' d' d'') (hsub : ∀ x ∈ S, x ∈ S') : DagView.AgreeOn S d d'' where
  k_eq := h.k_eq.trans h'.k_eq
  core := by
    intro x hx
    obtain ⟨n, n', hn, hn', hcore⟩ := h.core x hx
    obtain ⟨m, m', hm, hm', hcore'⟩ := h'.core x (hsub x hx)
    rw [Option.some.inj (hm.symm.trans hn')] at hcore'
    exact ⟨n, m', hn, hm', hcore.block.trans hcore'.block,
      hcore.pastSize.trans hcore'.pastSize, hcore.ghostdag.trans hcore'.ghostdag⟩
  closed := h.closed

/-- A DAG agrees with itself on its blocks. -/
theorem agreeOn_refl {d : DagView} (h : ∀ x y, d.Edge x y → x ∈ d.nodes) :
    DagView.AgreeOn {x | x ∈ d.nodes} d d where
  k_eq := rfl
  core := fun _ hx => ⟨_, _, DagView.lookup_node hx, DagView.lookup_node hx, rfl, rfl, rfl⟩
  closed := fun y _ x hedge => h x y hedge

variable [Crypto]

/-- `Run d blocks d'`: from `d`, accepted inserts of `blocks` in this order, with
any changes of the installed policies in between, lead to `d'`.  Each insert may
iterate its maps in its own order. -/
inductive Run (d : Dag) : List Block → Dag → Prop
  | start : Run d [] d
  | insert {blocks : List Block} {mid d' : Dag} {ord : HashOrder} {block : Block} {id : BlockId} :
      Run d blocks mid → mid.insert ord block = .ok (id, d') → Run d (blocks ++ [block]) d'
  | policy {blocks : List Block} {mid : Dag} (validator : Option BlockValidator)
      (difficulty : Option Retarget) (requirePow : Bool) :
      Run d blocks mid → Run d blocks { mid with
        validator := validator
        difficulty := difficulty
        requirePow := requirePow }

/-- The inserts of the blocks in turn; `none` when one is not accepted. -/
def insertAll (ord : HashOrder) (d : Dag) : List Block → Option Dag
  | [] => some d
  | block :: rest =>
      match d.insert ord block with
      | .ok (_, d') => insertAll ord d' rest
      | .error _ => none

theorem insertAll_cons_iff {ord : HashOrder} {d d' : Dag} {block : Block} {rest : List Block} :
    d.insertAll ord (block :: rest) = some d' ↔
      ∃ id mid, d.insert ord block = .ok (id, mid) ∧ mid.insertAll ord rest = some d' := by
  rw [insertAll]
  constructor
  · intro h
    split at h
    · rename_i hblock
      exact ⟨_, _, hblock, h⟩
    · cases h
  · rintro ⟨id, mid, hblock, hrest⟩
    rw [hblock]
    exact hrest

theorem insertAll_append (ord : HashOrder) (d : Dag) (blocks rest : List Block) :
    d.insertAll ord (blocks ++ rest) =
      (d.insertAll ord blocks).bind fun d' => d'.insertAll ord rest := by
  induction blocks generalizing d with
  | nil => rfl
  | cons block blocks ih =>
      rw [List.cons_append, insertAll, insertAll]
      split
      · exact ih _
      · rfl

/-- Blocks inserted in turn extend a run. -/
theorem Run.insertAll {d₀ d d' : Dag} {ord : HashOrder} {before blocks : List Block}
    (h : Run d₀ before d) (hinsert : d.insertAll ord blocks = some d') :
    Run d₀ (before ++ blocks) d' := by
  induction blocks generalizing d before with
  | nil =>
      rw [List.append_nil, ← Option.some.inj hinsert]
      exact h
  | cons block rest ih =>
      obtain ⟨id, mid, hblock, hrest⟩ := insertAll_cons_iff.1 hinsert
      rw [List.append_cons]
      exact ih (h.insert hblock) hrest

/-- A DAG grown from a genesis block by accepted inserts, with the policies changed in between at
will and its maps iterated in any order. -/
def Reachable (d : Dag) : Prop :=
  ∃ ord k work timestampMs nonce payload blocks,
    Run (Dag.new ord k (Block.genesis work timestampMs nonce payload)) blocks d

/-- The invariant does not read the policies. -/
theorem wellFormed_policy {d : Dag} (h : d.WellFormed) (validator : Option BlockValidator)
    (difficulty : Option Retarget) (requirePow : Bool) :
    ({ d with
        validator := validator
        difficulty := difficulty
        requirePow := requirePow } : Dag).WellFormed := by
  have hrefl := agreeOn_refl h.parents_mem
  have hagree : DagView.AgreeOn {x | x ∈ d.nodes} d.toDagView
      { d.toDagView with
        difficulty := difficulty
        requirePow := requirePow } := ⟨rfl, hrefl.core, hrefl.closed⟩
  refine ⟨h.genesis_node, h.id_eq, h.parents_mem, h.parents_ne, h.acyclic, h.tracks, h.past_size,
    ?_, h.blue_past, h.tips_iff, h.len_lt⟩
  intro ord x n hn hx
  rw [← h.ghostdag_eq ord x n hn hx]
  exact (DagView.computeGhostdag_congr hagree h.exact ⟨h.exact.parents_mem, h.exact.isAncestor_iff⟩
    (fun y hy b hb => h.exact.mem_of_anc (h.blue_past y _ (DagView.lookup_node hy) b hb))
    (fun p hp => h.parents_mem p x ⟨n, hn, hp⟩) (fun _ => Iff.rfl) ord ord).symm

theorem Run.wellFormed {d d' : Dag} {blocks : List Block} (h : Run d blocks d')
    (hd : d.WellFormed) : d'.WellFormed := by
  induction h with
  | start => exact hd
  | insert _ hinsert ih =>
      obtain ⟨sp, g, hadmits, heq⟩ := insert_eq_ok_iff.1 hinsert
      rw [(Prod.mk.inj heq).2]
      exact wellFormed_wire hadmits ih
  | policy validator difficulty requirePow _ ih => exact wellFormed_policy ih _ _ _

theorem Reachable.wellFormed {d : Dag} (h : Reachable d) : d.WellFormed := by
  obtain ⟨ord, k, work, timestampMs, nonce, payload, blocks, hrun⟩ := h
  exact hrun.wellFormed (DagView.wellFormed_new ord k _ rfl)

/-- Nothing stored ever changes. -/
theorem Run.agreeOn {d d' : Dag} {blocks : List Block} (h : Run d blocks d') (hd : d.WellFormed) :
    DagView.AgreeOn {x | x ∈ d.nodes} d.toDagView d'.toDagView := by
  induction h with
  | start => exact agreeOn_refl hd.parents_mem
  | insert hrun hinsert ih =>
      obtain ⟨sp, g, hadmits, heq⟩ := insert_eq_ok_iff.1 hinsert
      rw [(Prod.mk.inj heq).2]
      exact agreeOn_trans ih (agreeOn_wire hadmits (hrun.wellFormed hd).parents_mem)
        fun x hx => ih.symm.mem hx
  | policy validator difficulty requirePow _ ih => exact ⟨ih.k_eq, ih.core, ih.closed⟩

/-- The incrementally maintained oracle is exact: it answers strict ancestry along
parent edges for every pair of stored blocks, and no later insert changes an
answer. -/
theorem isAncestor_exact {d : Dag} (h : Reachable d) {a b : BlockId} (ha : a ∈ d.nodes)
    (hb : b ∈ d.nodes) :
    (d.isAncestor a b = true ↔ d.Anc a b) ∧
      ∀ blocks d', Run d blocks d' → d'.isAncestor a b = d.isAncestor a b := by
  have hd := h.wellFormed
  refine ⟨hd.exact.isAncestor_iff a ha b hb, fun blocks d' hrun => ?_⟩
  have hagree := hrun.agreeOn hd
  rw [Bool.eq_iff_iff, (hrun.wellFormed hd).exact.isAncestor_iff a (hagree.symm.mem ha) b
    (hagree.symm.mem hb), hd.exact.isAncestor_iff a ha b hb, hagree.anc_iff hb]

end Dag

namespace Dag

open scoped Reference

/-- The oracle answers for a merge and the genesis. -/
theorem isAncestor_exact_merge : ∃ d : Dag, d.len = 4 ∧
    ∃ a ∈ d.nodes, ∃ b ∈ d.nodes, d.isAncestor a b = true ∧ d.Anc a b := by
  have hplay : ((Dag.new .sorted 1 Reference.genesis).insertAll .sorted
      [Reference.left, Reference.right, Reference.merge]).map (fun d => (d.len,
        decide (Reference.genesis.id ∈ d.nodes ∧ Reference.merge.id ∈ d.nodes ∧
          d.isAncestor Reference.genesis.id Reference.merge.id = true))) = some (4, true) := by
    decide +kernel
  obtain ⟨d, hd, heq⟩ := Option.map_eq_some_iff.1 hplay
  obtain ⟨hlen, hdec⟩ := Prod.mk.inj heq
  obtain ⟨ha, hb, hanc⟩ := of_decide_eq_true hdec
  have hreach : Reachable d := ⟨.sorted, 1, 1, 0, 0, Reference.noTxs.payload, _,
    Run.start.insertAll hd⟩
  exact ⟨d, hlen, _, ha, _, hb, hanc, (isAncestor_exact hreach ha hb).1.1 hanc⟩

end Dag

end Kovanica
