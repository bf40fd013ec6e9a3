import Kovanica.Lib.Forest

/-!
# Interval labels of a tree

A tree is labelled with intervals `[lo x, hi x]` so that a subtree is a range:
a child's interval lies inside its parent's, to the right of the parent's own
point `lo`, and siblings do not overlap.  These are conditions on one edge or
one pair of siblings at a time; `contains_iff` is what they add up to.

## Main results

* `nested`: the interval of a descendant lies in the interval of its ancestor.
* `disjoint_of_unrelated`: the intervals of unrelated vertices do not meet.
* `contains_iff`: hence an interval has the point of another vertex exactly if it belongs to
  that vertex or to an ancestor of it.
-/

namespace Kovanica.Lib

open Relation

variable {α : Type*}

/-- The label conditions, stated on single vertices, edges and sibling pairs.  That intervals
tell ancestry is a consequence, not one of the conditions. -/
structure IntervalLabels (tp : α → Option α) (lo hi : α → Nat) (V : Finset α) : Prop where
  nonempty : ∀ x ∈ V, lo x ≤ hi x
  inside : ∀ x c, tp c = some x → lo x < lo c ∧ hi c ≤ hi x
  disjoint : ∀ x c d, tp c = some x → tp d = some x → c ≠ d → hi c < lo d ∨ hi d < lo c

namespace IntervalLabels

variable {tp : α → Option α} {V : Finset α} {root : α} {lo hi : α → Nat}

/-- A descendant's interval lies in its ancestor's. -/
theorem nested (h : IntervalLabels tp lo hi V) {x y : α}
    (hxy : ReflTransGen (TreeEdge tp) x y) : lo x ≤ lo y ∧ hi y ≤ hi x := by
  induction hxy with
  | refl => exact ⟨le_refl _, le_refl _⟩
  | @tail c d hxc hcd ih =>
      have hin := h.inside c d hcd
      omega

/-- A vertex's interval contains another's point exactly when it is that
vertex or an ancestor of it. -/
theorem contains_iff (h : IntervalLabels tp lo hi V) (htree : RootedTree tp V root) {x y : α}
    (hx : x ∈ V) (hy : y ∈ V) :
    (lo x ≤ lo y ∧ lo y ≤ hi x) ↔ ReflTransGen (TreeEdge tp) x y := by
  constructor
  · intro hcont
    -- along the path from the root to `x`: each vertex of it is above `y`
    have key : ∀ z, ReflTransGen (TreeEdge tp) root z → lo z ≤ lo y → lo y ≤ hi z →
        ReflTransGen (TreeEdge tp) z y := by
      intro z hz
      induction hz with
      | refl => exact fun _ _ => htree.rooted y hy
      | @tail p c _ hpc ih =>
          intro hlo hhi
          have hin := h.inside p c hpc
          have hpy := ih (by omega) (by omega)
          rcases reflTransGen_iff_eq_or_transGen.1 hpy with heq | hlt
          · rw [heq] at hlo
            omega
          · obtain ⟨d, hd, hdy⟩ := exists_child_of_transGen hlt
            by_cases hcd : c = d
            · rw [hcd]
              exact hdy
            · have hdisj := h.disjoint p c d hpc hd hcd
              have hnest := h.nested hdy
              have hne := h.nonempty y hy
              omega
    exact key x (htree.rooted x hx) hcont.1 hcont.2
  · intro hxy
    have hnest := h.nested hxy
    have hne := h.nonempty y hy
    omega

/-- Where two vertices part their intervals are apart, in the order of the branches. -/
theorem partAt_lt_iff (h : IntervalLabels tp lo hi V) {w cu cv u v : α} (hu : u ∈ V) (hv : v ∈ V)
    (hpart : PartAt tp w cu cv u v) :
    (lo u < lo v ↔ hi cu < lo cv) ∧ (hi u < lo v ∨ hi v < lo u) := by
  have hleft := h.nested hpart.left_below
  have hright := h.nested hpart.right_below
  have hdisj := h.disjoint w cu cv hpart.left hpart.right hpart.ne
  have hu' := h.nonempty u hu
  have hv' := h.nonempty v hv
  omega

/-- Unrelated vertices have intervals apart from each other. -/
theorem disjoint_of_unrelated (h : IntervalLabels tp lo hi V) (htree : RootedTree tp V root)
    {u v : α} (hu : u ∈ V) (hv : v ∈ V) (huv : Unrelated tp u v) : hi u < lo v ∨ hi v < lo u := by
  obtain ⟨w, cu, cv, hpart⟩ := htree.exists_partAt hu hv huv
  exact (h.partAt_lt_iff hu hv hpart).2

end IntervalLabels

end Kovanica.Lib
