import Kovanica.Dag.Covering
import Kovanica.Dag.Snapshot

/-!
# Covering sets along a run

In every reachable DAG the covering sets are exact and free of overlaps.  That they are also
sorted holds along a run exactly if each of its inserts keeps the order, and a run of children
of the genesis, up to the reindex, is one that does not.

## Main results

* `Reachable.rootsCovered`: exactness and freedom from overlaps, whatever a reindex does.
* `documented_iff`: from sorted sets, an insert leads to sorted ones exactly if it keeps the
  order.
* `Run.exists_history`, `History.spec`: a run as the list of the DAGs its inserts are made on,
  and the same along it.
-/

namespace Kovanica

open Lib Relation

/-! ## The inserts of a run -/

/-- An accepted insert, with the DAG before and after it.  A run is a list of these, and what is
said of every insert of a run is said of its members. -/
structure Insertion where
  before : Dag
  block : Block
  after : Dag

namespace Insertion

variable [Crypto]

/-- After the insert the covering sets are as documented, and its searches have run on sorted
lists. -/
structure Documented (i : Insertion) : Prop where
  sets : i.after.CoveringSets
  searches : ∃ sp, i.after.selectedParentOf i.block.id = some sp ∧
    i.before.reach.SearchesSorted i.block.id sp
      ((i.after.node i.block.id).ghostdag.mergesetBlues ++
        (i.after.node i.block.id).ghostdag.mergesetReds)

omit [Crypto] in
/-- Whatever the insert has laid out again, it finds the members of each covering set in the
order of the ids of their branches. -/
def KeepsOrder (i : Insertion) : Prop :=
  ∀ sp, i.before.selectParent i.block.parents = some sp → ∀ a, (i.before.reach.covers a).Pairwise
    (i.before.reach.KeepsOrder i.before.selectedParentOf sp)

end Insertion

namespace Dag

variable [Crypto]

/-- `History d₀ steps d`: from `d₀`, the accepted inserts of `steps`, with any changes of the
installed policies in between, lead to `d`. -/
inductive History (d₀ : Dag) : List Insertion → Dag → Prop
  | start : History d₀ [] d₀
  | insert {steps : List Insertion} {mid d' : Dag} {ord : HashOrder} {block : Block}
      {id : BlockId} : History d₀ steps mid → mid.insert ord block = .ok (id, d') →
        History d₀ (steps ++ [⟨mid, block, d'⟩]) d'
  | policy {steps : List Insertion} {mid : Dag} (validator : Option BlockValidator)
      (difficulty : Option Retarget) (requirePow : Bool) :
      History d₀ steps mid → History d₀ steps { mid with
        validator := validator
        difficulty := difficulty
        requirePow := requirePow }

/-- Every run has a history. -/
theorem Run.exists_history {d₀ d : Dag} {blocks : List Block} (h : Run d₀ blocks d) :
    ∃ steps, History d₀ steps d ∧ steps.map Insertion.block = blocks := by
  induction h with
  | start => exact ⟨[], .start, rfl⟩
  | insert _ hinsert ih =>
      obtain ⟨steps, hsteps, rfl⟩ := ih
      exact ⟨_, hsteps.insert hinsert, List.map_append⟩
  | policy validator difficulty requirePow _ ih =>
      obtain ⟨steps, hsteps, heq⟩ := ih
      exact ⟨steps, hsteps.policy validator difficulty requirePow, heq⟩

/-- From documented covering sets an insert leads to documented ones exactly if it keeps the
order. -/
theorem documented_iff {d d' : Dag} (hd : d.WellFormed) (hroots : d.RootsCovered)
    (hsets : d.CoveringSets) {ord : HashOrder} {block : Block} {id : BlockId}
    (hinsert : d.insert ord block = .ok (id, d')) :
    Insertion.Documented ⟨d, block, d'⟩ ↔ Insertion.KeepsOrder ⟨d, block, d'⟩ := by
  obtain ⟨sp, g, hadmits, heq⟩ := insert_eq_ok_iff.1 hinsert
  obtain ⟨rfl, rfl⟩ := Prod.mk.inj heq
  have hselect := hadmits.selectParent_eq
  have hset := fun a => (sorted_wire_iff hadmits hd a).trans
    (relabelled_iff hadmits hd hroots (hsets.sorted a))
  have hwhole := (rootsCovered_wire hadmits hd hroots).coveringSets_iff (wellFormed_wire hadmits hd)
  constructor
  · intro hdoc sp' hsp' a
    obtain rfl := Option.some.inj (hselect.symm.trans hsp')
    exact (hset a).1 (hdoc.sets.sorted a)
  · intro hkeeps
    have hkept := hkeeps sp hselect
    refine ⟨hwhole.2 fun a => (hset a).2 (hkept a), sp, (leafAdded_wire hadmits).new, ?_⟩
    rw [DagView.node_of_lookup lookup_wire_self]
    exact Reachability.searchesSorted_of_pairwise
      (hd.tracks.labelled.addLeaf (leafAdded_wire hadmits) (le_of_lt hadmits.room))
      (Finset.mem_insert_self ..) (hadmits.mergeset_spec hd.exact).1 (unrelated_wire hadmits hd)
      fun a => (relabelled_iff hadmits hd hroots (hsets.sorted a)).2 (hkept a)

/-- Along a run. -/
theorem History.spec {d₀ d : Dag} {steps : List Insertion} (h : History d₀ steps d)
    (hd₀ : d₀.WellFormed) (hroots₀ : d₀.RootsCovered) (hsets₀ : d₀.CoveringSets) :
    (d.WellFormed ∧ d.RootsCovered ∧ ((∀ i ∈ steps, i.KeepsOrder) → d.CoveringSets)) ∧
      ((∀ i ∈ steps, i.Documented) ↔ ∀ i ∈ steps, i.KeepsOrder) := by
  induction h with
  | start =>
      exact ⟨⟨hd₀, hroots₀, fun _ => hsets₀⟩, iff_of_true (by simp) (by simp)⟩
  | @insert steps mid d' ord block id _ hinsert ih =>
      obtain ⟨⟨hd, hroots, hsets⟩, hiff⟩ := ih
      have hstep := fun hkept => documented_iff hd hroots (hsets hkept) hinsert
      obtain ⟨sp, g, hadmits, heq⟩ := insert_eq_ok_iff.1 hinsert
      have hd' := wellFormed_wire hadmits hd
      have hroots' := rootsCovered_wire hadmits hd hroots
      rw [← (Prod.mk.inj heq).2] at hd' hroots'
      simp only [List.forall_mem_append, List.forall_mem_singleton]
      refine ⟨⟨hd', hroots', ?_⟩, ?_⟩
      · rintro ⟨hkept, hlast⟩
        exact ((hstep hkept).2 hlast).sets
      · constructor
        · rintro ⟨hdoc, hlast⟩
          exact ⟨hiff.1 hdoc, (hstep (hiff.1 hdoc)).1 hlast⟩
        · rintro ⟨hkept, hlast⟩
          exact ⟨hiff.2 hkept, (hstep hkept).2 hlast⟩
  | policy validator difficulty requirePow _ ih =>
      obtain ⟨⟨hd, hroots, hsets⟩, hiff⟩ := ih
      refine ⟨⟨wellFormed_policy hd _ _ _, ⟨hroots.mem_iff, hroots.nodup, hroots.children⟩, ?_⟩,
        hiff⟩
      exact fun hkept => ⟨(hsets hkept).exact, (hsets hkept).disjoint, (hsets hkept).sorted⟩

/-- A new DAG has nothing to cover. -/
theorem covers_new (ord : HashOrder) (k : KParam) (genesis : Block)
    (hparents : genesis.parents = []) (a : BlockId) :
    (Dag.new ord k genesis).reach.covers a = [] := by
  have hreach : (Dag.new ord k genesis).reach = _ :=
    Reachability.build_singleton ord genesis.id ⟨genesis, 0, ∅, .genesis⟩ hparents rfl
  rw [hreach]
  rfl

theorem rootsCovered_new (ord : HashOrder) (k : KParam) (genesis : Block)
    (hparents : genesis.parents = []) : (Dag.new ord k genesis).RootsCovered := by
  have hreach : (Dag.new ord k genesis).reach = _ :=
    Reachability.build_singleton ord genesis.id ⟨genesis, 0, ∅, .genesis⟩ hparents rfl
  have hcovers := covers_new ord k genesis hparents
  refine ⟨fun a c => ?_, fun a => ?_, fun x => ?_⟩
  · rw [hcovers]
    refine iff_of_false List.not_mem_nil fun hroot => ?_
    obtain ⟨p, _, n, hn, hp⟩ := TransGen.tail'_iff.1 hroot.1.1
    rw [(DagView.lookup_new ord k hn).2, hparents] at hp
    exact List.not_mem_nil hp
  · rw [hcovers]
    exact List.nodup_nil
  · rw [hreach]
    by_cases hx : x = genesis.id
    · rw [hx, valueAt_of_lookup Finmap.lookup_singleton_eq]
      exact .nil
    · rw [valueAt, Finmap.lookup_eq_none.2 (by simpa using hx)]
      exact .nil

theorem coveringSets_new (ord : HashOrder) (k : KParam) (genesis : Block)
    (hparents : genesis.parents = []) : (Dag.new ord k genesis).CoveringSets := by
  rw [(rootsCovered_new ord k genesis hparents).coveringSets_iff
    (DagView.wellFormed_new ord k genesis hparents)]
  intro a
  rw [covers_new ord k genesis hparents]
  exact .nil

/-- Whatever a reindex does, the covering sets of a reachable DAG are exact. -/
theorem Reachable.rootsCovered {d : Dag} (h : Reachable d) : d.RootsCovered := by
  obtain ⟨ord, k, work, timestampMs, nonce, payload, blocks, hrun⟩ := h
  obtain ⟨steps, hsteps, _⟩ := hrun.exists_history
  exact (hsteps.spec (DagView.wellFormed_new ord k _ rfl) (rootsCovered_new ord k _ rfl)
    (coveringSets_new ord k _ rfl)).1.2.1

/-- In a run from a genesis block the covering sets are as documented after every insert, and
every search has run on a sorted list, exactly if every insert keeps the order.  Whether an
insert does so is read off the DAG it is made on. -/
theorem covering_sets_iff {ord : HashOrder} {k : KParam} {work : U128} {timestampMs nonce : U64}
    {payload : Vec U8} {steps : List Insertion} {d : Dag}
    (h : History (Dag.new ord k (Block.genesis work timestampMs nonce payload)) steps d) :
    (∀ i ∈ steps, i.Documented) ↔ ∀ i ∈ steps, i.KeepsOrder :=
  (h.spec (DagView.wellFormed_new ord k _ rfl) (rootsCovered_new ord k _ rfl)
    (coveringSets_new ord k _ rfl)).2

end Dag

namespace Dag

open scoped Reference
open Reference

theorem parents_block (p : BlockId) (timestampMs : U64) :
    (block [p] timestampMs).parents = [p] := rfl

/-- Up to the merge nothing is covered, so that there is nothing to keep in order. -/
theorem covering_sets_merge : ∃ d : Dag, (Dag.new .sorted 1 genesis).insertAll .sorted
    [left, right, merge] = some d ∧ d.CoveringSets ∧ d.reach.covers left.id = [merge.id] := by
  have hplay : ((Dag.new .sorted 1 genesis).insertAll .sorted [left, right, merge]).any (fun d =>
      decide (d.reach.covers left.id = [merge.id])) = true := by
    decide +kernel
  obtain ⟨d, hd, hcovers⟩ := Option.any_eq_true _ _ |>.1 hplay
  obtain ⟨_, d₁, h₁, hrest⟩ := insertAll_cons_iff.1 hd
  obtain ⟨_, d₂, h₂, hrest⟩ := insertAll_cons_iff.1 hrest
  obtain ⟨_, d₃, h₃, hrest⟩ := insertAll_cons_iff.1 hrest
  obtain rfl := Option.some.inj hrest
  have hchild : ∀ {mid mid' : Dag} {b : Block} {id p : BlockId}, mid.WellFormed →
      b.parents = [p] → mid.insert .sorted b = .ok (id, mid') → (∀ a, mid.reach.covers a = []) →
      mid'.WellFormed ∧ ∀ a, mid'.reach.covers a = [] := by
    intro mid mid' b id p hmid hparents hinsert hnone
    obtain ⟨sp, g, hadmits, heq⟩ := insert_eq_ok_iff.1 hinsert
    rw [(Prod.mk.inj heq).2]
    refine ⟨wellFormed_wire hadmits hmid, fun a => ?_⟩
    rw [(covers_wire_child hadmits hmid hparents).2, hnone]
  have hkeeps : ∀ (mid : Dag) (b : Block) (mid' : Dag), (∀ a, mid.reach.covers a = []) →
      Insertion.KeepsOrder ⟨mid, b, mid'⟩ := by
    intro mid b mid' hnone sp _ a
    rw [hnone]
    exact .nil
  have hnone := covers_new .sorted 1 genesis rfl
  obtain ⟨hd₁, hnone₁⟩ := hchild (DagView.wellFormed_new .sorted 1 genesis rfl)
    (parents_block _ _) h₁ hnone
  obtain ⟨_, hnone₂⟩ := hchild hd₁ (parents_block _ _) h₂ hnone₁
  have hsteps := ((History.start.insert h₁).insert h₂).insert h₃
  have hdoc := (covering_sets_iff hsteps).2 (by
    simp only [List.forall_mem_append, List.forall_mem_singleton]
    exact ⟨⟨⟨fun _ hi => absurd hi List.not_mem_nil, hkeeps _ _ _ hnone⟩, hkeeps _ _ _ hnone₁⟩,
      hkeeps _ _ _ hnone₂⟩)
  exact ⟨d₃, hd, (hdoc _ (List.mem_append_right _ (List.mem_singleton_self _))).sets,
    of_decide_eq_true hcovers⟩

end Dag

namespace Dag

variable [Crypto]

/-! ## A run that loses the order -/

section Crowding

variable {d : Dag} {block : Block} {ord : HashOrder}

/-- An unchecked DAG takes a new block on one stored parent. -/
theorem Unchecked.admits_child (h : Unchecked d) (hd : d.WellFormed) {p : BlockId}
    (hp : p ∈ d.nodes) (hparents : block.parents = [p]) (hfresh : block.id ∉ d.nodes)
    (hlen : d.len + 1 < mapCapacity) (ord : HashOrder) :
    ∃ g, Admits ord d block p g ∧ ∀ a, (d.wire block p g).reach.covers a = d.reach.covers a := by
  have hne : block.parents ≠ [] := by
    rw [hparents]
    exact List.cons_ne_nil p []
  have hmem : ∀ q ∈ block.parents, q ∈ d.nodes := by
    rw [hparents]
    intro q hq
    obtain rfl := List.mem_singleton.1 hq
    exact hp
  obtain ⟨d', hinsert, _⟩ := h.insert_ok ord hfresh hne hmem hlen
  obtain ⟨sp, g, hadmits, _⟩ := insert_eq_ok_iff.1 hinsert
  obtain ⟨rfl, hcovers⟩ := covers_wire_child hadmits hd hparents
  exact ⟨g, hadmits, hcovers⟩

/-- Two children `u` and `v` of `s` cover `a`, and the genesis has its capacity from `free` on,
in a DAG without policies. -/
structure Crowding (a s u v : BlockId) (d : Dag) (free : Nat) : Prop where
  reachable : Reachable d
  unchecked : Unchecked d
  covers : d.reach.covers a = [u, v]
  left : d.selectedParentOf u = some s
  right : d.selectedParentOf v = some s
  free_eq : valueAt d.reach.nextFree d.genesis = free

/-- The free point of the genesis after so many children of it, if there is room for all. -/
def freeAfter : (children free : Nat) → Option Nat
  | 0, free => some free
  | children + 1, free =>
      if free ≤ rootCapacity then freeAfter children (free + (rootCapacity - free) / 2 + 1)
      else none

/-- One more child takes half of what the genesis has left. -/
theorem Crowding.insert {a s u v : BlockId} {free : Nat} (h : Crowding a s u v d free)
    (hparents : block.parents = [d.genesis]) (hfresh : block.id ∉ d.nodes)
    (hlen : d.len + 1 < mapCapacity) (hfree : free ≤ rootCapacity) (ord : HashOrder) :
    ∃ d', d.insert ord block = .ok (block.id, d') ∧
      Crowding a s u v d' (free + (rootCapacity - free) / 2 + 1) ∧ d'.len = d.len + 1 ∧
      d'.genesis = d.genesis ∧ ∀ x, x ∈ d'.nodes ↔ x = block.id ∨ x ∈ d.nodes := by
  have hd := h.reachable.wellFormed
  have hl := hd.tracks.labelled
  obtain ⟨g, hadmits, hcovers⟩ := h.unchecked.admits_child hd hd.genesis_mem hparents hfresh hlen
    ord
  have hinsert := insert_eq_ok_iff.2 ⟨d.genesis, g, hadmits, rfl⟩
  have hleaf := leafAdded_wire hadmits
  have hold : ∀ x, d.selectedParentOf x = some s →
      (d.wire block d.genesis g).selectedParentOf x = some s := by
    intro x hx
    have hxV := (hl.tree.edge_mem s x hx).2
    rw [hleaf.old x fun heq => hleaf.fresh (heq ▸ hxV)]
    exact hx
  have hroom : valueAt d.reach.nextFree d.genesis ≤ d.reach.stop d.genesis := by
    rw [h.free_eq, hl.root_stop]
    exact hfree
  refine ⟨_, hinsert, ⟨?_, ?_, ?_, hold u h.left, hold v h.right, ?_⟩, len_wire hadmits, rfl,
    fun x => mem_wire hadmits⟩
  · obtain ⟨ord, k, work, timestampMs, nonce, payload, blocks, hrun⟩ := h.reachable
    exact ⟨ord, k, work, timestampMs, nonce, payload, _, hrun.insert hinsert⟩
  · exact ⟨h.unchecked.validator, h.unchecked.difficulty, h.unchecked.requirePow⟩
  · rw [hcovers, h.covers]
  · obtain ⟨fcs, hadd⟩ := d.reach.addBlock_eq block.id d.genesis
      (g.mergesetBlues ++ g.mergesetReds)
    have hreach : (d.wire block d.genesis g).reach =
        { (d.reach.registerLeaf block.id d.genesis).allocate block.id d.genesis with
          fcs := fcs } := hadd
    rw [hreach, d.reach.allocate_of_room hroom, ← hl.root_stop, ← h.free_eq]
    exact valueAt_insert_self _ _ _

/-- So do many. -/
theorem Crowding.insertAll {a s u v : BlockId} {free free' : Nat} (h : Crowding a s u v d free)
    {blocks : List Block} (hparents : ∀ b ∈ blocks, b.parents = [d.genesis])
    (hnodup : (blocks.map Block.id).Nodup) (hfresh : ∀ b ∈ blocks, b.id ∉ d.nodes)
    (hlen : d.len + blocks.length < mapCapacity)
    (hfree : freeAfter blocks.length free = some free') (ord : HashOrder) :
    ∃ d', d.insertAll ord blocks = some d' ∧ Crowding a s u v d' free' ∧
      d'.len = d.len + blocks.length ∧ d'.genesis = d.genesis ∧
      ∀ x, x ∈ d'.nodes ↔ x ∈ blocks.map Block.id ∨ x ∈ d.nodes := by
  induction blocks generalizing d free with
  | nil =>
      obtain rfl := Option.some.inj hfree
      exact ⟨d, rfl, h, rfl, rfl, fun x => by simp⟩
  | cons block rest ih =>
      rw [List.map_cons, List.nodup_cons] at hnodup
      rw [List.length_cons] at hlen hfree
      rw [freeAfter] at hfree
      split at hfree
      · rename_i hle
        obtain ⟨d₁, hinsert, h₁, hlen₁, hgenesis₁, hmem₁⟩ := h.insert
          (hparents block (List.mem_cons_self ..)) (hfresh block (List.mem_cons_self ..))
          (by omega) hle ord
        obtain ⟨d', hrest, h', hlen', hgenesis', hmem'⟩ := ih h₁
          (fun b hb => hgenesis₁ ▸ hparents b (List.mem_cons_of_mem _ hb)) hnodup.2
          (fun b hb hin => by
            rcases (hmem₁ b.id).1 hin with heq | hold
            · exact hnodup.1 (heq ▸ List.mem_map_of_mem hb)
            · exact hfresh b (List.mem_cons_of_mem _ hb) hold)
          (by omega) hfree
        refine ⟨d', ?_, h', ?_, hgenesis'.trans hgenesis₁, fun x => ?_⟩
        · rw [Dag.insertAll, hinsert]
          exact hrest
        · rw [hlen', hlen₁, List.length_cons]
          omega
        · rw [hmem', hmem₁, List.map_cons, List.mem_cons]
          tauto
      · cases hfree

/-- Once the capacity is gone the next child has `u` and `v` laid out in the order of their
ids. -/
theorem Crowding.insert_full {a s u v : BlockId} {free : Nat} (h : Crowding a s u v d free)
    (hparents : block.parents = [d.genesis]) (hfresh : block.id ∉ d.nodes)
    (hlen : d.len + 1 < mapCapacity) (hfull : rootCapacity < free) (hlt : v < u)
    (ord : HashOrder) :
    ∃ d', d.insert ord block = .ok (block.id, d') ∧ d'.reach.covers a = [u, v] ∧
      d'.reach.start v < d'.reach.start u := by
  have hd := h.reachable.wellFormed
  have hl := hd.tracks.labelled
  obtain ⟨g, hadmits, hcovers⟩ := h.unchecked.admits_child hd hd.genesis_mem hparents hfresh hlen
    ord
  have hinsert := insert_eq_ok_iff.2 ⟨d.genesis, g, hadmits, rfl⟩
  have hleaf := leafAdded_wire hadmits
  have hcap : d.nodes.keys.card + 1 ≤ rootCapacity := le_of_lt hadmits.room
  have hlaid : ¬ valueAt d.reach.nextFree d.genesis ≤ d.reach.stop d.genesis := by
    rw [h.free_eq, hl.root_stop]
    exact not_le.2 hfull
  obtain ⟨hs, hv⟩ := hl.tree.edge_mem s v h.right
  -- the genesis itself is the anchor, so everything is laid out anew
  have hanchor : ReflTransGen (TreeEdge d.selectedParentOf)
      (d.reach.anchorOf block.id d.genesis) s := by
    refine (hl.anchorOf_reaches_iff hleaf s).2 fun x hx _ => ?_
    rw [hl.tree.eq_root_of_reaches hx]
    exact hl.tree.rooted s hs
  have hsibling := (hl.sibling_lt_iff hleaf hcap h.reachable.rootsCovered.children hlaid h.right
    h.left hlt.ne hanchor).2 hlt
  have hself := ((hl.addLeaf hleaf hcap).labelledAt v (Finset.mem_insert_of_mem hv)).start_le
  refine ⟨_, hinsert, ?_, ?_⟩
  · rw [hcovers, h.covers]
  · rw [start_wire, start_wire]
    exact lt_of_le_of_lt hself hsibling

end Crowding

end Dag

namespace Dag

open scoped Reference
open Reference

/-- A second merge of `left` and `right`. -/
def mergeAgain : Block := block [left.id, right.id] 4

/-- Children of the genesis, to use up its capacity. -/
def crowd (n : Nat) : List Block :=
  (List.range n).map fun i => block [genesis.id] (Word.cast 64 (10 + i))

theorem parents_of_mem_crowd {n : Nat} {b : Block} (hb : b ∈ crowd n) :
    b.parents = [genesis.id] := by
  obtain ⟨i, _, rfl⟩ := List.mem_map.1 hb
  exact parents_block _ _

theorem nodup_crowd : ([genesis.id, left.id, right.id, merge.id, mergeAgain.id] ++
    (crowd 62).map Block.id).Nodup := by
  decide +kernel

/-- After the two merges `left` is covered by both, in the order they came. -/
theorem crowding_merges : ∃ d : Dag,
    (Dag.new .sorted 1 genesis).insertAll .sorted [left, right, merge, mergeAgain] = some d ∧
    Crowding left.id right.id merge.id mergeAgain.id d (2 ^ 62 + 2 ^ 61 + 1) ∧
    d.genesis = genesis.id ∧ d.len = 5 ∧
    d.nodes.keys = {genesis.id, left.id, right.id, merge.id, mergeAgain.id} := by
  have hplay : ((Dag.new .sorted 1 genesis).insertAll .sorted
      [left, right, merge, mergeAgain]).any (fun d => decide (d.validator.isNone ∧
        d.difficulty.isNone ∧ d.requirePow = false ∧
        d.reach.covers left.id = [merge.id, mergeAgain.id] ∧
        d.selectedParentOf merge.id = some right.id ∧
        d.selectedParentOf mergeAgain.id = some right.id ∧
        valueAt d.reach.nextFree d.genesis = 2 ^ 62 + 2 ^ 61 + 1 ∧
        d.genesis = genesis.id ∧ d.len = 5 ∧
        d.nodes.keys = {genesis.id, left.id, right.id, merge.id, mergeAgain.id})) = true := by
    decide +kernel
  obtain ⟨d, hd, hdec⟩ := Option.any_eq_true _ _ |>.1 hplay
  obtain ⟨hvalidator, hdifficulty, hpow, hcovers, hmerge, hagain, hfree, hrest⟩ :=
    of_decide_eq_true hdec
  exact ⟨d, hd, ⟨⟨.sorted, 1, 1, 0, 0, noTxs.payload, _, Run.start.insertAll hd⟩,
    ⟨Option.isNone_iff_eq_none.1 hvalidator, Option.isNone_iff_eq_none.1 hdifficulty, hpow⟩,
    hcovers, hmerge, hagain, hfree⟩, hrest⟩

/-- Two merges, and children of the genesis until it is out of capacity: the covering set of
`left` is out of order. -/
theorem covering_set_unsorted : ∃ d : Dag,
    (Dag.new .sorted 1 genesis).insertAll .sorted
      ([left, right, merge, mergeAgain] ++ crowd 62) = some d ∧
    d.reach.covers left.id = [merge.id, mergeAgain.id] ∧
    d.reach.start mergeAgain.id < d.reach.start merge.id ∧ ¬ d.CoveringSets := by
  have hids : mergeAgain.id < merge.id := by decide +kernel
  have hfill : freeAfter 61 (2 ^ 62 + 2 ^ 61 + 1) = some (2 ^ 63) := by decide +kernel
  obtain ⟨d, hd, hcrowding, hgenesis, hlen, hkeys⟩ := crowding_merges
  have hcap : mapCapacity = 2 ^ 63 - 1 := rfl
  have hlast : crowd 62 = crowd 61 ++ [block [genesis.id] (Word.cast 64 (10 + 61))] := by
    rw [crowd, List.range_succ, List.map_append]
    rfl
  have hparents : ∀ b ∈ crowd 62, b.parents = [d.genesis] := by
    rw [hgenesis]
    exact fun b hb => parents_of_mem_crowd hb
  obtain ⟨_, hnodup, hapart⟩ := List.nodup_append.1 nodup_crowd
  have hfresh : ∀ b ∈ crowd 62, b.id ∉ d.nodes := by
    intro b hb hmem
    rw [← Finmap.mem_keys, hkeys] at hmem
    exact hapart b.id (by simpa using hmem) b.id (List.mem_map_of_mem hb) rfl
  generalize block [genesis.id] (Word.cast 64 (10 + 61)) = last at hlast
  rw [hlast] at hparents hfresh hnodup ⊢
  rw [List.map_append, List.nodup_append] at hnodup
  have hcount : (crowd 61).length = 61 := by rw [crowd, List.length_map, List.length_range]
  -- 61 children fit, and use up the capacity
  obtain ⟨d₁, hd₁, hcrowding₁, hlen₁, hgenesis₁, hmem₁⟩ := hcrowding.insertAll
    (fun b hb => hparents b (List.mem_append_left _ hb)) hnodup.1
    (fun b hb => hfresh b (List.mem_append_left _ hb)) (by omega)
    (by rw [hcount]; exact hfill) .sorted
  have hmemLast : last ∈ crowd 61 ++ [last] := List.mem_append_right _ (List.mem_singleton_self _)
  obtain ⟨d₂, hinsert, hcovers, hstart⟩ := hcrowding₁.insert_full
    (hgenesis₁ ▸ hparents last hmemLast)
    (fun hin => by
      rcases (hmem₁ last.id).1 hin with hnew | hold
      · exact hnodup.2.2 last.id hnew last.id (List.mem_singleton_self _) rfl
      · exact hfresh last hmemLast hold)
    (by omega) (by decide) hids .sorted
  refine ⟨d₂, ?_, hcovers, hstart, fun hsets => ?_⟩
  · rw [insertAll_append, hd, Option.bind_some, insertAll_append, hd₁, Option.bind_some, insertAll,
      hinsert]
    rfl
  · have hsorted := hsets.sorted left.id
    rw [hcovers] at hsorted
    exact lt_asymm hstart ((List.pairwise_cons.1 hsorted).1 _ (List.mem_singleton_self _))

end Dag

end Kovanica
