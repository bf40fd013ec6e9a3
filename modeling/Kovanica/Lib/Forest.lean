import Kovanica.Lib.Ancestry
import Mathlib.Algebra.BigOperators.Group.Finset.Basic
import Mathlib.Algebra.GroupWithZero.Nat
import Mathlib.Algebra.Order.BigOperators.Group.Finset

/-!
# Rooted trees as parent functions

A forest is a partial function `tp` to the parent of a vertex; `RootedTree`
adds a finite vertex set and a root above everything.  Subtrees are finite
sets, counted by `card_subtree`, and `LeafAdded` is the growth of a tree by one
vertex.

## Main results

* `transGen_treeEdge_iff`: the strict ancestors of a vertex are its parent and the ancestors of
  that one.
* `child_subtrees_disjoint`, `card_subtree`: a subtree is its vertex and the disjoint
  subtrees of the children, and so is its size.
* `LeafAdded.card_subtree`: hanging up a leaf adds one to the subtrees on its path to the root.
-/

namespace Kovanica.Lib

open Relation

variable {α : Type*}

/-! ## One parent each -/

/-- The edges of the forest with parent function `tp`. -/
def TreeEdge (tp : α → Option α) (x y : α) : Prop := tp y = some x

section Forest

variable {tp : α → Option α}

/-- Two ancestors of one vertex lie on one path to the root. -/
theorem tree_ancestors_total {a b c : α} (ha : ReflTransGen (TreeEdge tp) a c)
    (hb : ReflTransGen (TreeEdge tp) b c) :
    ReflTransGen (TreeEdge tp) a b ∨ ReflTransGen (TreeEdge tp) b a := by
  have hunique : Relator.RightUnique (Function.swap (TreeEdge tp)) := by
    intro x y z hy hz
    have h : some y = some z := hy.symm.trans hz
    exact Option.some.inj h
  have ha' : ReflTransGen (Function.swap (TreeEdge tp)) c a := reflTransGen_swap.2 ha
  have hb' : ReflTransGen (Function.swap (TreeEdge tp)) c b := reflTransGen_swap.2 hb
  rcases ReflTransGen.total_of_right_unique hunique ha' hb' with h | h
  · exact .inr (reflTransGen_swap.1 h)
  · exact .inl (reflTransGen_swap.1 h)

/-- Below `x`, `y` sits in the subtree of exactly one child of `x`. -/
theorem exists_child_of_transGen {x y : α} (h : TransGen (TreeEdge tp) x y) :
    ∃ c, tp c = some x ∧ ReflTransGen (TreeEdge tp) c y :=
  let ⟨c, hxc, hcy⟩ := TransGen.head'_iff.1 h
  ⟨c, hxc, hcy⟩

/-- Strict ancestors of `y` are its parent and the parent's ancestors. -/
theorem transGen_treeEdge_iff {x y p : α} (hp : tp y = some p) :
    TransGen (TreeEdge tp) x y ↔ ReflTransGen (TreeEdge tp) x p := by
  constructor
  · intro h
    obtain ⟨c, hxc, hcy⟩ := TransGen.tail'_iff.1 h
    have hc : some c = some p := hcy.symm.trans hp
    rw [Option.some.inj hc] at hxc
    exact hxc
  · intro h
    exact TransGen.tail' h hp

/-- Different children of one vertex have disjoint subtrees. -/
theorem child_subtrees_disjoint (hacyclic : ∀ x, ¬ TransGen (TreeEdge tp) x x)
    {x c c' y : α} (hc : tp c = some x) (hc' : tp c' = some x)
    (h : ReflTransGen (TreeEdge tp) c y) (h' : ReflTransGen (TreeEdge tp) c' y) :
    c = c' := by
  have key : ∀ d d', tp d = some x → tp d' = some x →
      ReflTransGen (TreeEdge tp) d d' → d = d' := by
    intro d d' hd hd' hdd'
    rcases reflTransGen_iff_eq_or_transGen.1 hdd' with heq | hlt
    · exact heq.symm
    · have hdx := (transGen_treeEdge_iff hd').1 hlt
      exact absurd (TransGen.tail' hdx hd) (hacyclic d)
  rcases tree_ancestors_total h h' with hcc' | hcc'
  · exact key c c' hc hc' hcc'
  · exact (key c' c hc' hc hcc').symm

end Forest

/-- `u` and `v` are below different children of `w`, which is then the last vertex that their
paths from the root have in common. -/
structure PartAt (tp : α → Option α) (w cu cv u v : α) : Prop where
  left : tp cu = some w
  right : tp cv = some w
  ne : cu ≠ cv
  left_below : ReflTransGen (TreeEdge tp) cu u
  right_below : ReflTransGen (TreeEdge tp) cv v

/-- Neither vertex is at or below the other. -/
def Unrelated (tp : α → Option α) (u v : α) : Prop :=
  ¬ ReflTransGen (TreeEdge tp) u v ∧ ¬ ReflTransGen (TreeEdge tp) v u

/-- The roots of the trees that `S` induces. -/
def IsRootOf (tp : α → Option α) (S : α → Prop) (c : α) : Prop :=
  S c ∧ ∀ p, tp c = some p → ¬ S p

/-- Below a set that is closed under children no two roots are related. -/
theorem IsRootOf.unrelated {tp : α → Option α} {S : α → Prop}
    (hclosed : ∀ p c, tp c = some p → S p → S c) {u v : α} (hu : IsRootOf tp S u)
    (hv : IsRootOf tp S v) (hne : u ≠ v) : Unrelated tp u v := by
  have hbelow : ∀ x y, S x → ReflTransGen (TreeEdge tp) x y → S y := by
    intro x y hx hxy
    induction hxy with
    | refl => exact hx
    | tail _ hpc ih => exact hclosed _ _ hpc ih
  have key : ∀ x y, IsRootOf tp S x → IsRootOf tp S y → x ≠ y →
      ¬ ReflTransGen (TreeEdge tp) x y := by
    intro x y hx hy hxy hreach
    rcases reflTransGen_iff_eq_or_transGen.1 hreach with heq | hlt
    · exact hxy heq.symm
    · obtain ⟨p, hxp, hpy⟩ := TransGen.tail'_iff.1 hlt
      exact hy.2 p hpy (hbelow x p hx.1 hxp)
  exact ⟨key u v hu hv hne, key v u hv hu (Ne.symm hne)⟩

/-! ## Rooted trees -/

/-- The parent function `tp` makes `V` a tree with the given root: parents stay inside `V`, and
every vertex is below the root. -/
structure RootedTree (tp : α → Option α) (V : Finset α) (root : α) : Prop where
  root_mem : root ∈ V
  root_none : tp root = none
  edge_mem : ∀ x c, tp c = some x → x ∈ V ∧ c ∈ V
  rooted : ∀ x ∈ V, ReflTransGen (TreeEdge tp) root x

/-- The vertices at or below `x`.  Subtrees of different children are disjoint, so their sizes
add up. -/
noncomputable def subtree (tp : α → Option α) (V : Finset α) (x : α) : Finset α :=
  open Classical in V.filter fun y => ReflTransGen (TreeEdge tp) x y

/-- The number of strict ancestors of `x`. -/
noncomputable def depth (tp : α → Option α) (V : Finset α) (x : α) : Nat :=
  open Classical in (V.filter fun a => TransGen (TreeEdge tp) a x).card

@[simp] theorem mem_subtree {tp : α → Option α} {V : Finset α} {x y : α} :
    y ∈ subtree tp V x ↔ y ∈ V ∧ ReflTransGen (TreeEdge tp) x y := by
  classical
  rw [subtree, Finset.mem_filter]

namespace RootedTree

variable {tp : α → Option α} {V : Finset α} {root : α}

theorem mem_of_reflTransGen_left (h : RootedTree tp V root) {x y : α} (hy : y ∈ V)
    (hxy : ReflTransGen (TreeEdge tp) x y) : x ∈ V := by
  rcases ReflTransGen.cases_head hxy with rfl | ⟨c, hxc, _⟩
  · exact hy
  · exact (h.edge_mem _ _ hxc).1

theorem acyclic (h : RootedTree tp V root) (x : α) : ¬ TransGen (TreeEdge tp) x x := by
  -- along the path from the root: a cycle through a child passes its parent
  have key : ∀ y, ReflTransGen (TreeEdge tp) root y → ¬ TransGen (TreeEdge tp) y y := by
    intro y hy
    induction hy with
    | refl =>
        intro hroot
        obtain ⟨p, _, hp⟩ := TransGen.tail'_iff.1 hroot
        have hsome : tp root = some p := hp
        rw [h.root_none] at hsome
        cases hsome
    | tail _ hpy ih =>
        intro hyy
        exact ih (TransGen.head' hpy ((transGen_treeEdge_iff hpy).1 hyy))
  intro hxx
  obtain ⟨c, hxc, _⟩ := TransGen.head'_iff.1 hxx
  exact key x (h.rooted x (h.edge_mem _ _ hxc).1) hxx

/-- Nothing but the root is at or above the root. -/
theorem eq_root_of_reaches (h : RootedTree tp V root) {x : α}
    (hx : ReflTransGen (TreeEdge tp) x root) : x = root := by
  rcases reflTransGen_iff_eq_or_transGen.1 hx with heq | hlt
  · exact heq.symm
  · obtain ⟨p, _, hp⟩ := TransGen.tail'_iff.1 hlt
    have hsome : tp root = some p := hp
    rw [h.root_none] at hsome
    cases hsome

/-- Two unrelated vertices part somewhere. -/
theorem exists_partAt (h : RootedTree tp V root) {u v : α} (hu : u ∈ V) (hv : v ∈ V)
    (huv : Unrelated tp u v) : ∃ w cu cv, PartAt tp w cu cv u v := by
  -- along the path from the root to `u`: related to `v` still, or parted already
  have key : ∀ z, ReflTransGen (TreeEdge tp) root z → ReflTransGen (TreeEdge tp) z v ∨
      ReflTransGen (TreeEdge tp) v z ∨ ∃ w cu cv, PartAt tp w cu cv z v := by
    intro z hz
    induction hz with
    | refl => exact .inl (h.rooted v hv)
    | @tail p c _ hpc ih =>
        rcases ih with hpv | hvp | ⟨w, cu, cv, hpart⟩
        · rcases reflTransGen_iff_eq_or_transGen.1 hpv with heq | hlt
          · exact .inr (.inl (heq ▸ .single hpc))
          · obtain ⟨d, hd, hdv⟩ := exists_child_of_transGen hlt
            by_cases hcd : c = d
            · exact .inl (hcd ▸ hdv)
            · exact .inr (.inr ⟨p, c, d, hpc, hd, hcd, .refl, hdv⟩)
        · exact .inr (.inl (hvp.tail hpc))
        · exact .inr (.inr ⟨w, cu, cv, hpart.left, hpart.right, hpart.ne,
            hpart.left_below.tail hpc, hpart.right_below⟩)
  exact ((key u (h.rooted u hu)).resolve_left huv.1).resolve_left huv.2

theorem depth_lt (h : RootedTree tp V root) {x p : α} (hp : tp x = some p) :
    depth tp V p < depth tp V x := by
  classical
  refine Finset.card_lt_card ((Finset.ssubset_iff_of_subset ?_).2 ⟨p, ?_, ?_⟩)
  · intro a ha
    rw [Finset.mem_filter] at ha ⊢
    exact ⟨ha.1, ha.2.tail hp⟩
  · rw [Finset.mem_filter]
    exact ⟨(h.edge_mem p x hp).1, .single hp⟩
  · rw [Finset.mem_filter]
    exact fun hpp => h.acyclic p hpp.2

theorem depth_lt_card (h : RootedTree tp V root) {x : α} (hx : x ∈ V) :
    depth tp V x < V.card := by
  classical
  refine Finset.card_lt_card ((Finset.ssubset_iff_of_subset (Finset.filter_subset _ _)).2 ?_)
  refine ⟨x, hx, ?_⟩
  rw [Finset.mem_filter]
  exact fun hxx => h.acyclic x hxx.2

/-- The subtree of `x` is `x` and the disjoint subtrees of its children. -/
theorem card_subtree (h : RootedTree tp V root) {x : α} (hx : x ∈ V) {children : List α}
    (hnodup : children.Nodup) (hmem : ∀ c, c ∈ children ↔ tp c = some x) :
    (subtree tp V x).card = 1 + (children.map fun c => (subtree tp V c).card).sum := by
  classical
  have hunion : subtree tp V x = insert x (children.toFinset.biUnion (subtree tp V)) := by
    ext y
    rw [Finset.mem_insert, Finset.mem_biUnion, mem_subtree]
    constructor
    · rintro ⟨hy, hxy⟩
      rcases reflTransGen_iff_eq_or_transGen.1 hxy with heq | hlt
      · exact .inl heq
      · obtain ⟨c, hc, hcy⟩ := exists_child_of_transGen hlt
        exact .inr ⟨c, List.mem_toFinset.2 ((hmem c).2 hc), mem_subtree.2 ⟨hy, hcy⟩⟩
    · rintro (rfl | ⟨c, hc, hcy⟩)
      · exact ⟨hx, .refl⟩
      · have hxc := (hmem c).1 (List.mem_toFinset.1 hc)
        exact ⟨(mem_subtree.1 hcy).1, .head hxc (mem_subtree.1 hcy).2⟩
  have hnot : x ∉ children.toFinset.biUnion (subtree tp V) := by
    rw [Finset.mem_biUnion]
    rintro ⟨c, hc, hcx⟩
    have hxc := (hmem c).1 (List.mem_toFinset.1 hc)
    exact h.acyclic x (TransGen.head' hxc (mem_subtree.1 hcx).2)
  have hdisj : ∀ c ∈ children.toFinset, ∀ d ∈ children.toFinset, c ≠ d →
      Disjoint (subtree tp V c) (subtree tp V d) := by
    intro c hc d hd hcd
    rw [Finset.disjoint_left]
    intro y hcy hdy
    exact hcd (child_subtrees_disjoint h.acyclic ((hmem c).1 (List.mem_toFinset.1 hc))
      ((hmem d).1 (List.mem_toFinset.1 hd)) (mem_subtree.1 hcy).2 (mem_subtree.1 hdy).2)
  rw [hunion, Finset.card_insert_of_notMem hnot, Finset.card_biUnion hdisj,
    List.sum_toFinset _ hnodup, Nat.add_comm]

theorem card_subtree_le (tp : α → Option α) (V : Finset α) (x : α) :
    (subtree tp V x).card ≤ V.card := by
  classical
  exact Finset.card_le_card (Finset.filter_subset _ _)

theorem card_subtree_pos (_h : RootedTree tp V root) {x : α} (hx : x ∈ V) :
    0 < (subtree tp V x).card :=
  Finset.card_pos.2 ⟨x, mem_subtree.2 ⟨hx, .refl⟩⟩

end RootedTree

/-! ## Adding a leaf -/

/-- `tp'` is `tp` with the new vertex `t` hung below `p`.  Nothing hangs below `t`, so only the
subtrees on the path from the root to `t` grow. -/
structure LeafAdded (tp tp' : α → Option α) (V : Finset α) (t p : α) : Prop where
  new : tp' t = some p
  old : ∀ x, x ≠ t → tp' x = tp x
  fresh : t ∉ V
  parent_mem : p ∈ V

namespace LeafAdded

variable {tp tp' : α → Option α} {V : Finset α} {root t p : α}

theorem addsTop (h : LeafAdded tp tp' V t p) (htree : RootedTree tp V root) :
    AddsTop (TreeEdge tp) (TreeEdge tp') t (· = p) where
  edge_iff := by
    intro x y
    by_cases hy : y = t
    · subst hy
      constructor
      · intro hxy
        exact .inr ⟨rfl, (Option.some.inj (h.new.symm.trans hxy)).symm⟩
      · rintro (hxy | ⟨_, rfl⟩)
        · exact absurd (htree.edge_mem x y hxy).2 h.fresh
        · exact h.new
    · have heq : TreeEdge tp' x y ↔ TreeEdge tp x y := by rw [TreeEdge, TreeEdge, h.old y hy]
      rw [heq]
      exact ⟨.inl, fun hor => hor.elim id fun hand => absurd hand.1 hy⟩
  not_parent := fun y hty => h.fresh (htree.edge_mem t y hty).1
  not_child := fun x hxt => h.fresh (htree.edge_mem x t hxt).2
  not_self := fun heq => h.fresh (heq ▸ h.parent_mem)

variable [DecidableEq α]

/-- Reaching an old vertex is as before, reaching the leaf is reaching its
parent. -/
theorem reaches_iff (h : LeafAdded tp tp' V t p) (htree : RootedTree tp V root) {x y : α}
    (hx : x ≠ t) :
    ReflTransGen (TreeEdge tp') x y ↔
      if y = t then ReflTransGen (TreeEdge tp) x p else ReflTransGen (TreeEdge tp) x y := by
  by_cases hy : y = t
  · subst hy
    rw [if_pos rfl, reflTransGen_iff_eq_or_transGen, (h.addsTop htree).top]
    constructor
    · rintro (heq | ⟨q, rfl, rfl | hlt⟩)
      · exact absurd heq.symm hx
      · exact .refl
      · exact hlt.to_reflTransGen
    · intro hxp
      rcases reflTransGen_iff_eq_or_transGen.1 hxp with heq | hlt
      · exact .inr ⟨p, rfl, .inl heq.symm⟩
      · exact .inr ⟨p, rfl, .inr hlt⟩
  · rw [if_neg hy, reflTransGen_iff_eq_or_transGen, reflTransGen_iff_eq_or_transGen,
      (h.addsTop htree).old hy]

omit [DecidableEq α] in
/-- Nothing but the leaf itself is below the leaf. -/
theorem leaf_reaches (h : LeafAdded tp tp' V t p) (htree : RootedTree tp V root) {y : α}
    (hy : ReflTransGen (TreeEdge tp') t y) : y = t := by
  rcases reflTransGen_iff_eq_or_transGen.1 hy with heq | hlt
  · exact heq
  · exact absurd hlt ((h.addsTop htree).not_ancestor y)

theorem rootedTree (h : LeafAdded tp tp' V t p) (htree : RootedTree tp V root) :
    RootedTree tp' (insert t V) root where
  root_mem := Finset.mem_insert_of_mem htree.root_mem
  root_none := by
    rw [h.old root fun heq => h.fresh (heq ▸ htree.root_mem)]
    exact htree.root_none
  edge_mem := by
    intro x c hc
    rcases ((h.addsTop htree).edge_iff x c).1 hc with hold | ⟨rfl, rfl⟩
    · exact ⟨Finset.mem_insert_of_mem (htree.edge_mem x c hold).1,
        Finset.mem_insert_of_mem (htree.edge_mem x c hold).2⟩
    · exact ⟨Finset.mem_insert_of_mem h.parent_mem, Finset.mem_insert_self ..⟩
  rooted := by
    intro x hx
    have hroot : root ≠ t := fun heq => h.fresh (heq ▸ htree.root_mem)
    rw [h.reaches_iff htree hroot]
    split
    · exact htree.rooted p h.parent_mem
    · exact htree.rooted x (Finset.mem_of_mem_insert_of_ne hx ‹_›)

/-- What is at or above the parent is old. -/
theorem mem_of_above (h : LeafAdded tp tp' V t p) (htree : RootedTree tp V root) {x : α}
    (hx : ReflTransGen (TreeEdge tp') x p) : x ≠ t ∧ x ∈ V := by
  have hxt : x ≠ t := by
    rintro rfl
    exact h.fresh (h.leaf_reaches htree hx ▸ h.parent_mem)
  have hmem := (h.rootedTree htree).mem_of_reflTransGen_left
    (Finset.mem_insert_of_mem h.parent_mem) hx
  exact ⟨hxt, Finset.mem_of_mem_insert_of_ne hmem hxt⟩

/-- Two old vertices part where they did. -/
theorem partAt (h : LeafAdded tp tp' V t p) (htree : RootedTree tp V root) {w cu cv u v : α}
    (hu : u ∈ V) (hv : v ∈ V) (hpart : PartAt tp w cu cv u v) : PartAt tp' w cu cv u v := by
  have hnew : ∀ x ∈ V, x ≠ t := fun x hx heq => h.fresh (heq ▸ hx)
  have hcu := hnew cu (htree.edge_mem w cu hpart.left).2
  have hcv := hnew cv (htree.edge_mem w cv hpart.right).2
  refine ⟨?_, ?_, hpart.ne, ?_, ?_⟩
  · rw [h.old cu hcu]
    exact hpart.left
  · rw [h.old cv hcv]
    exact hpart.right
  · rw [h.reaches_iff htree hcu, if_neg (hnew u hu)]
    exact hpart.left_below
  · rw [h.reaches_iff htree hcv, if_neg (hnew v hv)]
    exact hpart.right_below

/-- The leaf joins the subtrees of its parent and everything above. -/
theorem card_subtree (h : LeafAdded tp tp' V t p) (htree : RootedTree tp V root) {x : α}
    (hx : x ∈ V) [Decidable (ReflTransGen (TreeEdge tp) x p)] :
    (subtree tp' (insert t V) x).card =
      (subtree tp V x).card + if ReflTransGen (TreeEdge tp) x p then 1 else 0 := by
  have hxt : x ≠ t := fun heq => h.fresh (heq ▸ hx)
  have hmem : ∀ y, y ∈ subtree tp' (insert t V) x ↔
      (y = t ∧ ReflTransGen (TreeEdge tp) x p) ∨ y ∈ subtree tp V x := by
    intro y
    rw [mem_subtree, mem_subtree, h.reaches_iff htree hxt, Finset.mem_insert]
    by_cases hy : y = t
    · rw [if_pos hy]
      have hfresh : y ∉ V := hy ▸ h.fresh
      tauto
    · rw [if_neg hy]
      tauto
  split
  · rename_i hxp
    have heq : subtree tp' (insert t V) x = insert t (subtree tp V x) := by
      ext y
      rw [hmem, Finset.mem_insert]
      tauto
    rw [heq, Finset.card_insert_of_notMem fun ht => h.fresh (mem_subtree.1 ht).1]
  · rename_i hxp
    have heq : subtree tp' (insert t V) x = subtree tp V x := by
      ext y
      rw [hmem]
      tauto
    rw [heq, Nat.add_zero]

theorem card_subtree_leaf (h : LeafAdded tp tp' V t p) (htree : RootedTree tp V root) :
    (subtree tp' (insert t V) t).card = 1 := by
  rw [Finset.card_eq_one]
  refine ⟨t, ?_⟩
  ext y
  rw [mem_subtree, Finset.mem_singleton]
  constructor
  · exact fun hy => h.leaf_reaches htree hy.2
  · rintro rfl
    exact ⟨Finset.mem_insert_self .., .refl⟩

end LeafAdded

end Kovanica.Lib
