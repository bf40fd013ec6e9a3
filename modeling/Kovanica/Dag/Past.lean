import Kovanica.Dag.Oracle
import Kovanica.Dag.Ordering

/-!
# Ancestry in a DAG

`Edge` and `Anc` are the parent edges of the stored blocks and strict ancestry
along them, the meaning the oracle is measured against.  For a DAG whose oracle
is exact, the mergeset is exactly the part of the past that the selected parent
does not already capture.

## Main results

* `mem_parentsOf`: the edges are what is stored as parents.
* `mem_mergesetOrdered`: with an exact oracle, the walk over the mergeset finds what it should.
-/

namespace Kovanica

open Lib Relation

namespace DagView

/-- `x` is a parent of the stored block `y`. -/
def Edge (d : DagView) (x y : BlockId) : Prop :=
  ∃ n, d.nodes.lookup y = some n ∧ x ∈ n.block.parents

/-- `x` is a strict ancestor of `y`: the meaning that the answers of the oracle are measured
against, told by the parents the blocks list and by nothing that is derived. -/
def Anc (d : DagView) : BlockId → BlockId → Prop := TransGen d.Edge

/-- The strict ancestors of `y` among the stored blocks. -/
noncomputable def past (d : DagView) (y : BlockId) : Finset BlockId :=
  open Classical in d.nodes.keys.filter fun x => d.Anc x y

/-- The stored blocks that are neither `y`, nor before it, nor after it. -/
noncomputable def anticone (d : DagView) (y : BlockId) : Finset BlockId :=
  open Classical in d.nodes.keys.filter fun x => x ≠ y ∧ ¬ d.Anc x y ∧ ¬ d.Anc y x

variable {d : DagView}

theorem mem_anticone {x y : BlockId} :
    x ∈ d.anticone y ↔ x ∈ d.nodes ∧ x ≠ y ∧ ¬ d.Anc x y ∧ ¬ d.Anc y x := by
  classical
  rw [anticone, Finset.mem_filter, Finmap.mem_keys]

theorem node_of_lookup {x : BlockId} {n : Dag.Node} (h : d.nodes.lookup x = some n) :
    d.node x = n :=
  valueAt_of_lookup h

theorem lookup_node {x : BlockId} (h : x ∈ d.nodes) : d.nodes.lookup x = some (d.node x) :=
  lookup_eq_some_valueAt h

/-- Only stored blocks have parents. -/
theorem mem_parentsOf {x y : BlockId} : x ∈ d.parentsOf y ↔ d.Edge x y := by
  unfold parentsOf node valueAt Edge
  cases h : d.nodes.lookup y with
  | none => exact ⟨fun hx => absurd hx List.not_mem_nil, fun ⟨_, hn, _⟩ => by cases hn⟩
  | some n =>
      constructor
      · exact fun hx => ⟨n, rfl, hx⟩
      · rintro ⟨n', hn, hx⟩
        rw [Option.some.inj hn]
        exact hx

theorem Edge.mem {x y : BlockId} (h : d.Edge x y) : y ∈ d.nodes :=
  let ⟨_, hn, _⟩ := h
  Finmap.mem_of_lookup_eq_some hn

theorem Anc.mem {x y : BlockId} (h : d.Anc x y) : y ∈ d.nodes :=
  let ⟨_, _, hedge⟩ := TransGen.tail'_iff.1 h
  hedge.mem

theorem selectedParentOf_eq {x : BlockId} {n : Dag.Node} (h : d.nodes.lookup x = some n) :
    d.selectedParentOf x = n.ghostdag.selectedParent := by
  rw [selectedParentOf, ghostdag, h]
  rfl

theorem selectedParentOf_none {x : BlockId} (h : x ∉ d.nodes) : d.selectedParentOf x = none := by
  rw [selectedParentOf, ghostdag, Finmap.lookup_eq_none.2 h]
  rfl

theorem chainKey_injective (d : DagView) : Function.Injective d.chainKey := by
  intro x y h
  have h1 := Prod.mk.inj (toLex.injective h)
  exact (Prod.mk.inj (toLex.injective h1.2)).2

theorem topoKey_injective (d : DagView) : Function.Injective d.topoKey := by
  intro x y h
  exact (Prod.mk.inj (toLex.injective h)).2

/-! ## Exact oracles -/

/-- Parents are stored and the oracle answers ancestry.  Of the invariant of a DAG this is all
that the mergeset and the colouring rely on. -/
structure Exact (d : DagView) : Prop where
  parents_mem : ∀ x y, d.Edge x y → x ∈ d.nodes
  isAncestor_iff : ∀ a ∈ d.nodes, ∀ b ∈ d.nodes, d.isAncestor a b = true ↔ d.Anc a b

namespace Exact

theorem mem_of_anc (h : d.Exact) {x y : BlockId} (hxy : d.Anc x y) : x ∈ d.nodes := by
  obtain ⟨z, hxz, _⟩ := TransGen.head'_iff.1 hxy
  exact h.parents_mem x z hxz

theorem mem_past (h : d.Exact) {x y : BlockId} : x ∈ d.past y ↔ d.Anc x y := by
  classical
  rw [past, Finset.mem_filter, Finmap.mem_keys]
  exact ⟨fun hand => hand.2, fun hxy => ⟨h.mem_of_anc hxy, hxy⟩⟩

theorem inAnticone_iff (h : d.Exact) {a b : BlockId} (ha : a ∈ d.nodes) (hb : b ∈ d.nodes) :
    d.inAnticone a b = true ↔ a ≠ b ∧ ¬ d.Anc a b ∧ ¬ d.Anc b a := by
  rw [inAnticone, Bool.and_eq_true, Bool.and_eq_true, bne_iff_ne, Bool.not_eq_true',
    Bool.not_eq_true', ← Bool.not_eq_true, ← Bool.not_eq_true, h.isAncestor_iff a ha b hb,
    h.isAncestor_iff b hb a ha, and_assoc]

/-- The boundary test of the mergeset walk. -/
private theorem stop_iff (h : d.Exact) {x sp : BlockId} (hx : x ∈ d.nodes) (hsp : sp ∈ d.nodes) :
    (x == sp || d.isAncestor x sp) = true ↔ x = sp ∨ d.Anc x sp := by
  rw [Bool.or_eq_true, beq_iff_eq, h.isAncestor_iff x hx sp hsp]

private theorem walk_closed (h : d.Exact) :
    ∀ x ∈ d.nodes.keys, ∀ y ∈ d.parentsOf x, y ∈ d.nodes.keys := fun _ _ _ hy =>
  Finmap.mem_keys.2 (h.parents_mem _ _ (mem_parentsOf.1 hy))

/-- The mergeset: the parents and their pasts, less the selected parent and its
past. -/
theorem mem_mergesetOrdered (h : d.Exact) {sp : BlockId} {parents : List BlockId}
    (hsp : sp ∈ d.nodes) (hparents : ∀ p ∈ parents, p ∈ d.nodes) (x : BlockId) :
    x ∈ d.mergesetOrdered sp parents ↔
      (∃ p ∈ parents, x = p ∨ d.Anc x p) ∧ x ≠ sp ∧ ¬ d.Anc x sp := by
  have hinit : ∀ p ∈ parents, p ∈ d.nodes.keys := fun p hp => Finmap.mem_keys.2 (hparents p hp)
  rw [mergesetOrdered, mem_sortByKey,
    mem_walk h.walk_closed hinit (le_refl (d.walkFuel parents))]
  have hstop : ∀ a b, d.Edge a b → (b == sp || d.isAncestor b sp) = true →
      (a == sp || d.isAncestor a sp) = true := by
    intro a b hab hb
    rw [h.stop_iff (h.parents_mem a b hab) hsp]
    rcases (h.stop_iff hab.mem hsp).1 hb with rfl | hbs
    · exact .inr (.single hab)
    · exact .inr (.head hab hbs)
  constructor
  · rintro ⟨hvisited, hx⟩
    have hreach := (visited_iff_of_closed (fun _ _ => mem_parentsOf) hstop hx).1 hvisited
    have hmem : x ∈ d.nodes := by
      obtain ⟨p, hp, rfl | hlt⟩ := hreach
      · exact hparents x hp
      · exact h.mem_of_anc hlt
    refine ⟨hreach, ?_⟩
    have hnot := mt (h.stop_iff hmem hsp).2 (by rw [hx]; exact Bool.false_ne_true)
    exact not_or.1 hnot
  · rintro ⟨hreach, hne, hnot⟩
    have hmem : x ∈ d.nodes := by
      obtain ⟨p, hp, rfl | hlt⟩ := hreach
      · exact hparents x hp
      · exact h.mem_of_anc hlt
    have hx : (x == sp || d.isAncestor x sp) = false := by
      rw [← Bool.not_eq_true, h.stop_iff hmem hsp]
      exact not_or.2 ⟨hne, hnot⟩
    exact ⟨(visited_iff_of_closed (fun _ _ => mem_parentsOf) hstop hx).2 hreach, hx⟩

theorem nodup_mergesetOrdered (h : d.Exact) {sp : BlockId} {parents : List BlockId}
    (hparents : ∀ p ∈ parents, p ∈ d.nodes) : (d.mergesetOrdered sp parents).Nodup := by
  rw [mergesetOrdered, (sortByKey_perm _ _).nodup_iff]
  exact nodup_walk h.walk_closed (fun p hp => Finmap.mem_keys.2 (hparents p hp)) (le_refl _)

end Exact

end DagView

end Kovanica
