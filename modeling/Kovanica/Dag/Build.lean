import Kovanica.Dag.Order

/-!
# The oracle from scratch

`build` reads the trees off the stored blocks, counts the subtrees bottom up,
lays the whole tree out once and filters every block's future for the roots of
what lies outside its subtree.  `build_tracks` says that what comes out
tracks ancestry as the incrementally maintained oracle does, whatever order the
maps are iterated in, so both give the same answers.

## Main results

* `subtreeSizes_eq`: the bottom-up count gives the size of every subtree.
* `labelled_of_layout`: with the trees and the sizes in place, one layout labels everything.
* `mem_coversOf`: what the filter leaves of a future are the roots outside of the subtree.
-/

namespace Kovanica

open Lib Relation

namespace Reachability

/-! ## Collecting the edges -/

/-- What `collect` does to the tree children for one block. -/
def addTreeChild (m : Finmap fun _ : BlockId => List BlockId) (e : BlockId × Dag.Node) :
    Finmap fun _ : BlockId => List BlockId :=
  match e.2.ghostdag.selectedParent with
  | none => m.insert e.1 ((m.lookup e.1).getD [])
  | some sp => pushAt (m.insert e.1 ((m.lookup e.1).getD [])) sp e.1

/-- What `collect` does to the tree parents for one block. -/
def addTreeParent (m : Finmap fun _ : BlockId => BlockId) (e : BlockId × Dag.Node) :
    Finmap fun _ : BlockId => BlockId :=
  match e.2.ghostdag.selectedParent with
  | none => m
  | some sp => m.insert e.1 sp

/-- What `collect` does to the DAG children for one block. -/
def addDagChildren (m : Finmap fun _ : BlockId => List BlockId) (e : BlockId × Dag.Node) :
    Finmap fun _ : BlockId => List BlockId :=
  e.2.block.parents.foldl (fun m p => pushAt m p e.1) m

/-- The three maps are collected independently. -/
theorem collect_eq (ord : HashOrder) (nodes : Dag.Nodes) :
    collect ord nodes = ((ord.entries nodes).foldl addTreeChild ∅,
      (ord.entries nodes).foldl addTreeParent ∅, (ord.entries nodes).foldl addDagChildren ∅) := by
  have hfold : ∀ step, (∀ acc e, step acc e = (addTreeChild acc.1 e, addTreeParent acc.2.1 e,
      addDagChildren acc.2.2 e)) → ∀ (l : List (BlockId × Dag.Node)) acc, l.foldl step acc =
      (l.foldl addTreeChild acc.1, l.foldl addTreeParent acc.2.1,
        l.foldl addDagChildren acc.2.2) := by
    intro step hstep l
    induction l with
    | nil => exact fun acc => rfl
    | cons e l ih =>
        intro acc
        rw [List.foldl_cons, ih, hstep]
        rfl
  apply hfold
  intro acc e
  simp only [addTreeChild, addTreeParent, addDagChildren]
  cases e.2.ghostdag.selectedParent <;> rfl

theorem valueAt_pushAt (m : Finmap fun _ : BlockId => List BlockId) (key value x : BlockId) :
    valueAt (pushAt m key value) x = valueAt m x ++ if x = key then [value] else [] := by
  unfold pushAt
  rw [valueAt_insert]
  split
  · rename_i heq
    rw [heq]
    rfl
  · rw [List.append_nil]

/-- Making sure that an entry is there changes no value. -/
theorem valueAt_touch (m : Finmap fun _ : BlockId => List BlockId) (key x : BlockId) :
    valueAt (m.insert key ((m.lookup key).getD [])) x = valueAt m x := by
  rw [valueAt_insert]
  split
  · rename_i heq
    rw [heq]
    rfl
  · rfl

/-- The entries whose selected parent is `x`. -/
def childEntries (l : List (BlockId × Dag.Node)) (x : BlockId) : List (BlockId × Dag.Node) :=
  l.filter fun e => e.2.ghostdag.selectedParent = some x

/-- Every block gets its children in the order of the entries. -/
theorem foldl_addTreeChild (l : List (BlockId × Dag.Node))
    (m : Finmap fun _ : BlockId => List BlockId) (x : BlockId) :
    valueAt (l.foldl addTreeChild m) x = valueAt m x ++ (childEntries l x).map Prod.fst := by
  induction l generalizing m with
  | nil => exact (List.append_nil _).symm
  | cons e l ih =>
      have hstep : valueAt (addTreeChild m e) x =
          valueAt m x ++ if e.2.ghostdag.selectedParent = some x then [e.1] else [] := by
        unfold addTreeChild
        cases e.2.ghostdag.selectedParent with
        | none => simp only [valueAt_touch, reduceCtorEq, if_false, List.append_nil]
        | some sp =>
            simp only [valueAt_pushAt, valueAt_touch, Option.some.injEq]
            simp only [eq_comm]
      rw [List.foldl_cons, ih, hstep, childEntries, childEntries, List.filter_cons]
      by_cases hx : e.2.ghostdag.selectedParent = some x
      · simp [hx]
      · simp [hx]

/-- The blocks, and their selected parents, get an entry. -/
theorem mem_foldl_addTreeChild (l : List (BlockId × Dag.Node))
    (m : Finmap fun _ : BlockId => List BlockId) (x : BlockId) :
    x ∈ l.foldl addTreeChild m ↔
      x ∈ m ∨ ∃ e ∈ l, x = e.1 ∨ e.2.ghostdag.selectedParent = some x := by
  induction l generalizing m with
  | nil => simp
  | cons e l ih =>
      have hstep : x ∈ addTreeChild m e ↔
          x ∈ m ∨ (x = e.1 ∨ e.2.ghostdag.selectedParent = some x) := by
        unfold addTreeChild
        cases e.2.ghostdag.selectedParent with
        | none =>
            simp only [Finmap.mem_insert, reduceCtorEq, or_false]
            exact or_comm
        | some sp =>
            simp only [pushAt, Finmap.mem_insert, Option.some.injEq]
            tauto
      rw [List.foldl_cons, ih, hstep]
      simp only [List.mem_cons, exists_eq_or_imp, or_assoc]

/-- Every block with a selected parent gets it as its tree parent. -/
theorem foldl_addTreeParent {l : List (BlockId × Dag.Node)} (hnodup : (l.map Prod.fst).Nodup)
    (m : Finmap fun _ : BlockId => BlockId) :
    (∀ x, x ∉ l.map Prod.fst → (l.foldl addTreeParent m).lookup x = m.lookup x) ∧
      ∀ e ∈ l, m.lookup e.1 = none →
        (l.foldl addTreeParent m).lookup e.1 = e.2.ghostdag.selectedParent := by
  induction l generalizing m with
  | nil => simp
  | cons e l ih =>
      rw [List.map_cons, List.nodup_cons] at hnodup
      obtain ⟨hframe, hset⟩ := ih hnodup.2 (addTreeParent m e)
      have hother : ∀ x, x ≠ e.1 → (addTreeParent m e).lookup x = m.lookup x := by
        intro x hx
        unfold addTreeParent
        cases e.2.ghostdag.selectedParent with
        | none => rfl
        | some sp => exact Finmap.lookup_insert_of_ne _ hx
      have hself : m.lookup e.1 = none →
          (addTreeParent m e).lookup e.1 = e.2.ghostdag.selectedParent := by
        intro hnone
        unfold addTreeParent
        cases e.2.ghostdag.selectedParent with
        | none => exact hnone
        | some sp => exact Finmap.lookup_insert _
      rw [List.foldl_cons]
      constructor
      · intro x hx
        rw [List.map_cons, List.mem_cons, not_or] at hx
        rw [hframe x hx.2, hother x hx.1]
      · intro e' he' hnone
        rcases List.mem_cons.1 he' with rfl | he'
        · rw [hframe _ hnodup.1, hself hnone]
        · have hne : e'.1 ≠ e.1 := fun heq => hnodup.1 (heq ▸ List.mem_map_of_mem he')
          exact hset e' he' ((hother _ hne).trans hnone)

/-- Every block becomes a DAG child of its parents. -/
theorem mem_foldl_addDagChildren (l : List (BlockId × Dag.Node))
    (m : Finmap fun _ : BlockId => List BlockId) (x c : BlockId) :
    c ∈ valueAt (l.foldl addDagChildren m) x ↔
      c ∈ valueAt m x ∨ ∃ e ∈ l, c = e.1 ∧ x ∈ e.2.block.parents := by
  have hparents : ∀ (parents : List BlockId) (m : Finmap fun _ : BlockId => List BlockId)
      (id : BlockId), c ∈ valueAt (parents.foldl (fun m p => pushAt m p id) m) x ↔
        c ∈ valueAt m x ∨ c = id ∧ x ∈ parents := by
    intro parents
    induction parents with
    | nil => simp
    | cons p parents ih =>
        intro m id
        rw [List.foldl_cons, ih, valueAt_pushAt, List.mem_append, List.mem_cons]
        split
        · rename_i heq
          simp only [heq, List.mem_singleton, true_or, and_true]
          tauto
        · rename_i hne
          simp only [hne, List.not_mem_nil, or_false, false_or]
  induction l generalizing m with
  | nil => simp
  | cons e l ih =>
      have hstep : c ∈ valueAt (addDagChildren m e) x ↔
          c ∈ valueAt m x ∨ c = e.1 ∧ x ∈ e.2.block.parents := hparents _ m e.1
      rw [List.foldl_cons]
      refine (ih _).trans ?_
      rw [hstep]
      simp only [List.mem_cons, exists_eq_or_imp, or_assoc]

/-! ## Sorting the children -/

/-- Sorting keeps the keys and the members. -/
theorem sortChildren_spec (m : Finmap fun _ : BlockId => List BlockId) :
    (sortChildren m).keys = m.keys ∧
      ∀ x, (valueAt (sortChildren m) x).Perm (valueAt m x) := by
  have hlookup : ∀ x, (sortChildren m).lookup x =
      if x ∈ ascending m.keys then some (sortByKey (fun c => c) (valueAt m x)) else m.lookup x :=
    lookup_updateEach (sortByKey fun c => c) (nodup_ascending m.keys) m
  simp only [mem_ascending, Finmap.mem_keys] at hlookup
  constructor
  · ext x
    rw [Finmap.mem_keys, Finmap.mem_keys, ← Finmap.lookup_isSome, hlookup]
    split
    · simp [*]
    · exact Finmap.lookup_isSome
  · intro x
    rw [valueAt, hlookup]
    split
    · exact sortByKey_perm _ _
    · exact List.Perm.refl _

/-! ## Counting the subtrees -/

section Sizes

variable {tp : BlockId → Option BlockId} {V : Finset BlockId} {root : BlockId}
  {treeChildren : Finmap fun _ : BlockId => List BlockId}

/-- What the traversal of the subtrees of `tops` leaves in the sizes: the number of vertices of
each subtree it has been through, and elsewhere what was there before. -/
structure Sized (tp : BlockId → Option BlockId) (V : Finset BlockId) (tops : List BlockId)
    (sizes sizes' : Finmap fun _ : BlockId => Nat) : Prop where
  inside : ∀ c ∈ tops, ∀ y, ReflTransGen (TreeEdge tp) c y →
    sizes'.lookup y = some (subtree tp V y).card
  outside : ∀ y, (∀ c ∈ tops, ¬ ReflTransGen (TreeEdge tp) c y) → sizes'.lookup y = sizes.lookup y

/-- The tree children that the traversal follows: for each vertex a list of its children without
repetition, and for nothing else. -/
structure FollowsTree (tp : BlockId → Option BlockId) (V : Finset BlockId)
    (treeChildren : Finmap fun _ : BlockId => List BlockId) : Prop where
  keys : treeChildren.keys = V
  nodup : ∀ x ∈ V, (valueAt treeChildren x).Nodup
  mem_iff : ∀ x ∈ V, ∀ c, c ∈ valueAt treeChildren x ↔ tp c = some x

/-- The traversal of some siblings, when each one's own is known. -/
theorem subtreeSizesLoop_siblings (htree : RootedTree tp V root) {x : BlockId}
    {tops : List BlockId} (hnodup : tops.Nodup) (hparent : ∀ c ∈ tops, tp c = some x)
    (hone : ∀ c ∈ tops, ∀ fuel stack sizes, ∃ sizes', Sized tp V [c] sizes sizes' ∧
      subtreeSizesLoop treeChildren (fuel + 2 * (subtree tp V c).card) (.enter c :: stack) sizes =
        subtreeSizesLoop treeChildren fuel stack sizes')
    (fuel : Nat) (stack : List Step) (sizes : Finmap fun _ : BlockId => Nat) :
    ∃ sizes', Sized tp V tops sizes sizes' ∧
      subtreeSizesLoop treeChildren (fuel + 2 * (tops.map fun c => (subtree tp V c).card).sum)
        (tops.map Step.enter ++ stack) sizes = subtreeSizesLoop treeChildren fuel stack sizes' := by
  induction tops generalizing sizes with
  | nil => exact ⟨sizes, ⟨fun c hc => absurd hc List.not_mem_nil, fun y _ => rfl⟩, rfl⟩
  | cons c tops ih =>
      obtain ⟨hfirst, hrest⟩ := List.nodup_cons.1 hnodup
      obtain ⟨mid, hmid, hstep⟩ := hone c (List.mem_cons_self ..)
        (fuel + 2 * (tops.map fun c => (subtree tp V c).card).sum) (tops.map Step.enter ++ stack)
        sizes
      obtain ⟨sizes', hsized, hloop⟩ := ih hrest (fun b hb => hparent b (List.mem_cons_of_mem c hb))
        (fun b hb => hone b (List.mem_cons_of_mem c hb)) mid
      refine ⟨sizes', ⟨?_, ?_⟩, ?_⟩
      · intro b hb y hby
        rcases List.mem_cons.1 hb with rfl | hb
        · -- the later siblings leave the first one's subtree alone
          rw [hsized.outside y]
          · exact hmid.inside b (List.mem_singleton_self b) y hby
          · intro c' hc' hcy
            have heq := child_subtrees_disjoint htree.acyclic (hparent b (List.mem_cons_self ..))
              (hparent c' (List.mem_cons_of_mem b hc')) hby hcy
            exact hfirst (heq ▸ hc')
        · exact hsized.inside b hb y hby
      · intro y hy
        rw [hsized.outside y fun b hb => hy b (List.mem_cons_of_mem c hb), hmid.outside y]
        intro b hb
        rw [List.mem_singleton.1 hb]
        exact hy c (List.mem_cons_self ..)
      · rw [← hloop, ← hstep, List.map_cons, List.sum_cons, List.map_cons, List.cons_append]
        congr 1
        omega

/-- The traversal of one subtree takes two steps for each of its blocks. -/
theorem subtreeSizesLoop_enter (htree : RootedTree tp V root)
    (hchildren : FollowsTree tp V treeChildren) (n : Nat) {x : BlockId} (hx : x ∈ V)
    (hn : (subtree tp V x).card = n) (fuel : Nat) (stack : List Step)
    (sizes : Finmap fun _ : BlockId => Nat) :
    ∃ sizes', Sized tp V [x] sizes sizes' ∧
      subtreeSizesLoop treeChildren (fuel + 2 * n) (.enter x :: stack) sizes =
        subtreeSizesLoop treeChildren fuel stack sizes' := by
  induction n using Nat.strong_induction_on generalizing x fuel stack sizes with
  | _ n ih =>
      have hlookup : treeChildren.lookup x = some (valueAt treeChildren x) := by
        apply lookup_eq_some_valueAt
        rw [← Finmap.mem_keys, hchildren.keys]
        exact hx
      have hnodup := hchildren.nodup x hx
      have hmem := hchildren.mem_iff x hx
      have hcard := htree.card_subtree hx hnodup hmem
      have hsum : ((valueAt treeChildren x).reverse.map fun c => (subtree tp V c).card).sum + 1 =
          n := by
        rw [List.map_reverse, List.sum_reverse, ← hn, hcard, Nat.add_comm]
      have hchild : ∀ c ∈ (valueAt treeChildren x).reverse, ∀ fuel stack sizes,
          ∃ sizes', Sized tp V [c] sizes sizes' ∧
            subtreeSizesLoop treeChildren (fuel + 2 * (subtree tp V c).card) (.enter c :: stack)
              sizes = subtreeSizesLoop treeChildren fuel stack sizes' := by
        intro c hc
        have hle := List.le_sum_of_mem (List.mem_map_of_mem
          (f := fun c => (subtree tp V c).card) hc)
        have hparent := (hmem c).1 (List.mem_reverse.1 hc)
        exact ih _ (by omega) (htree.edge_mem x c hparent).2 rfl
      obtain ⟨mid, hmid, hloop⟩ := subtreeSizesLoop_siblings htree (List.nodup_reverse.2 hnodup)
        (fun c hc => (hmem c).1 (List.mem_reverse.1 hc)) hchild (fuel + 1) (.exit x :: stack)
        (sizes.insert x 1)
      have hvalues : (valueAt treeChildren x).map (valueAt mid) =
          (valueAt treeChildren x).map fun c => (subtree tp V c).card :=
        List.map_congr_left fun c hc => valueAt_of_lookup
          (hmid.inside c (List.mem_reverse.2 hc) c .refl)
      refine ⟨mid.insert x (subtree tp V x).card, ⟨?_, ?_⟩, ?_⟩
      · intro b hb y hby
        rw [List.mem_singleton.1 hb] at hby
        rcases reflTransGen_iff_eq_or_transGen.1 hby with rfl | hlt
        · exact Finmap.lookup_insert _
        · have hne : y ≠ x := by
            rintro rfl
            exact htree.acyclic y hlt
          obtain ⟨c, hc, hcy⟩ := exists_child_of_transGen hlt
          rw [Finmap.lookup_insert_of_ne _ hne]
          exact hmid.inside c (List.mem_reverse.2 ((hmem c).2 hc)) y hcy
      · intro y hy
        have hxy := hy x (List.mem_singleton_self x)
        have hne : y ≠ x := by
          rintro rfl
          exact hxy .refl
        rw [Finmap.lookup_insert_of_ne _ hne, hmid.outside y, Finmap.lookup_insert_of_ne _ hne]
        intro c hc hcy
        exact hxy (.head ((hmem c).1 (List.mem_reverse.1 hc)) hcy)
      · have hfuel : fuel + 2 * n = fuel + 1 +
            2 * ((valueAt treeChildren x).reverse.map fun c => (subtree tp V c).card).sum + 1 := by
          omega
        rw [hfuel, subtreeSizesLoop, hlookup, Option.getD_some, ← List.map_reverse, hloop,
          subtreeSizesLoop, hlookup]
        simp only [hvalues, ← hcard]

/-- Every block's size is that of its subtree. -/
theorem subtreeSizes_eq (htree : RootedTree tp V root) (hchildren : FollowsTree tp V treeChildren)
    {x : BlockId} (hx : x ∈ V) :
    (subtreeSizes root treeChildren).lookup x = some (subtree tp V x).card := by
  have hall : subtree tp V root = V := by
    ext y
    rw [mem_subtree]
    exact and_iff_left_of_imp (htree.rooted y)
  obtain ⟨sizes, hsized, hloop⟩ := subtreeSizesLoop_enter htree hchildren _ htree.root_mem rfl 0 []
    ∅
  rw [hall, Nat.zero_add] at hloop
  rw [subtreeSizes, hchildren.keys, hloop]
  exact hsized.inside root (List.mem_singleton_self root) x (htree.rooted x hx)

/-- What an oracle needs before its first layout: the trees and the sizes. -/
theorem labelled_of_layout {r : Reachability} (htree : RootedTree tp V root)
    (hchildren : FollowsTree tp V r.treeChildren) (hparent : ∀ x, r.treeParent.lookup x = tp x)
    (hsizes : r.subtreeSize = subtreeSizes root r.treeChildren) (hroom : V.card ≤ rootCapacity)
    (fcs : Finmap fun _ : BlockId => List BlockId) :
    Labelled tp V root { r.relayoutSubtree root 1 rootCapacity with fcs := fcs } := by
  have hdata : TreeData tp V (valueAt r.treeChildren) (valueAt r.subtreeSize) := by
    refine ⟨hchildren.nodup, hchildren.mem_iff, fun x hx => ?_⟩
    rw [hsizes, valueAt_of_lookup (subtreeSizes_eq htree hchildren hx)]
  have hsize : V.card ≤ r.size := by
    rw [Reachability.size, hchildren.keys]
  have hfits : 1 + valueAt r.subtreeSize root ≤ rootCapacity + 1 := by
    rw [hdata.size_eq root htree.root_mem]
    have hle := RootedTree.card_subtree_le tp V root
    omega
  have htop := lookup_relayout_anchor htree hdata hsize htree.root_mem 1 rootCapacity
  refine ⟨htree, hparent, hchildren.keys, hdata, fun x hx => ?_, start_of_lookup htop,
    stop_of_lookup htop⟩
  have hin := (labelledAt_relayout_inside htree hdata hsize htree.root_mem hfits hx
    (htree.rooted x hx)).1
  exact hin.congr rfl rfl fun c hc => ⟨hc, rfl, rfl⟩

end Sizes

/-! ## Covering sets -/

/-- Every block gets its covering set, an empty one by having no entry. -/
theorem valueAt_buildFcs (ord : HashOrder) (nodes : Dag.Nodes)
    (dagChildren : Finmap fun _ : BlockId => List BlockId)
    (intervals : Finmap fun _ : BlockId => Nat × Nat) {a : BlockId} :
    valueAt (buildFcs ord nodes dagChildren intervals) a =
      if a ∈ nodes.keys then coversOf ord nodes dagChildren intervals a else [] := by
  have hfold : ∀ (f : BlockId → List BlockId) (l : List BlockId)
      (m : Finmap fun _ : BlockId => List BlockId),
      (∀ x, valueAt m x = [] ∨ valueAt m x = f x) →
        valueAt (l.foldl (fun m x => if (f x).isEmpty then m else m.insert x (f x)) m) a =
          if a ∈ l then f a else valueAt m a := by
    intro f l
    induction l with
    | nil => exact fun m _ => rfl
    | cons x l ih =>
        intro m hm
        have hstep : ∀ y, valueAt (if (f x).isEmpty then m else m.insert x (f x)) y =
            if y = x then f y else valueAt m y := by
          intro y
          split
          · rename_i hempty
            split
            · rename_i heq
              have hnil : f y = [] := heq ▸ List.isEmpty_iff.1 hempty
              rw [hnil]
              exact (hm y).elim id fun hy => hy.trans hnil
            · rfl
          · rw [valueAt_insert]
            split
            · rename_i heq
              rw [heq]
            · rfl
        rw [List.foldl_cons, ih, hstep]
        · by_cases hax : a = x
          · simp [hax]
          · simp [hax]
        · intro y
          rw [hstep]
          split
          · exact .inr rfl
          · exact hm y
  rw [buildFcs, hfold (coversOf ord nodes dagChildren intervals) _ ∅ fun x => .inl rfl]
  simp only [HashOrder.mem_iter]
  rfl

section Future

variable {nodes : Dag.Nodes} {dagChildren : Finmap fun _ : BlockId => List BlockId}
  {edge : BlockId → BlockId → Prop}

/-- The walk over the DAG children finds the strict descendants. -/
theorem visited_iff (hchildren : ∀ x c, c ∈ valueAt dagChildren x ↔ edge x c) (a b : BlockId) :
    Visited (valueAt dagChildren) (fun _ => false) (valueAt dagChildren a) b ↔
      TransGen edge a b := by
  constructor
  · intro h
    induction h with
    | start hinit => exact .single ((hchildren _ _).1 hinit)
    | step _ _ hnext ih => exact ih.tail ((hchildren _ _).1 hnext)
  · intro h
    induction h with
    | single hab => exact .start ((hchildren _ _).2 hab)
    | tail _ hbc ih => exact .step ih rfl ((hchildren _ _).2 hbc)

/-- A covering set holds the blocks of the future outside the subtree whose tree
parent is not such a block. -/
theorem mem_coversOf (ord : HashOrder) (hchildren : ∀ x c, c ∈ valueAt dagChildren x ↔ edge x c)
    (hmem : ∀ x c, edge x c → c ∈ nodes.keys) (intervals : Finmap fun _ : BlockId => Nat × Nat)
    (a c : BlockId) : c ∈ coversOf ord nodes dagChildren intervals a ↔
      TransGen edge a c ∧ contains intervals a c = false ∧
        ∀ tp, (valueAt nodes c).ghostdag.selectedParent = some tp →
          contains intervals a tp = true ∨ ¬ TransGen edge a tp := by
  have hwalk : ∀ b, b ∈ walk (valueAt dagChildren) (fun _ => false)
      ((valueAt dagChildren a).length + ∑ x ∈ nodes.keys, (valueAt dagChildren x).length)
      (valueAt dagChildren a) ∅ [] ↔ TransGen edge a b := by
    intro b
    rw [mem_walk (fun x _ y hy => hmem x y ((hchildren x y).1 hy))
      (fun y hy => hmem a y ((hchildren a y).1 hy)) (le_refl _), visited_iff hchildren]
    exact and_iff_left rfl
  have hfuture : ∀ b, b ∈ (walk (valueAt dagChildren) (fun _ => false)
      ((valueAt dagChildren a).length + ∑ x ∈ nodes.keys, (valueAt dagChildren x).length)
      (valueAt dagChildren a) ∅ []).toFinset ↔ TransGen edge a b := by
    intro b
    rw [List.mem_toFinset, hwalk]
  unfold coversOf
  rw [mem_sortByKey, List.mem_filter, HashOrder.mem_iter, Bool.and_eq_true, Bool.not_eq_true']
  refine and_congr (hfuture c) (and_congr_right fun _ => ?_)
  cases (valueAt nodes c).ghostdag.selectedParent with
  | none => simp
  | some tp =>
      simp only [Bool.or_eq_true, decide_eq_true_eq, Option.some.injEq, forall_eq']
      exact or_congr_right (not_congr (hfuture tp))

end Future

end Reachability

/-! ## The oracle of a DAG -/

namespace DagView

open Reachability

section Collect

variable {d : DagView} (ord : HashOrder)

theorem selectedParentOf_iff {x c : BlockId} : d.selectedParentOf c = some x ↔
    ∃ e ∈ ord.entries d.nodes, c = e.1 ∧ e.2.ghostdag.selectedParent = some x := by
  constructor
  · intro hc
    by_cases hmem : c ∈ d.nodes
    · rw [selectedParentOf_eq (lookup_node hmem)] at hc
      exact ⟨(c, d.node c), ord.mem_entries.2 (lookup_node hmem), rfl, hc⟩
    · rw [selectedParentOf_none hmem] at hc
      cases hc
  · rintro ⟨e, he, rfl, hsp⟩
    rw [selectedParentOf_eq (ord.mem_entries.1 he)]
    exact hsp

/-- The sorted tree children are those of the selected-parent tree. -/
theorem followsTree_collect (htree : RootedTree d.selectedParentOf d.nodes.keys d.genesis) :
    FollowsTree d.selectedParentOf d.nodes.keys (sortChildren (collect ord d.nodes).1) := by
  obtain ⟨hkeys, hperm⟩ := sortChildren_spec (collect ord d.nodes).1
  have hvalue : ∀ x, valueAt (collect ord d.nodes).1 x =
      (childEntries (ord.entries d.nodes) x).map Prod.fst := by
    intro x
    rw [collect_eq]
    exact foldl_addTreeChild _ ∅ x
  refine ⟨?_, fun x _ => ?_, fun x _ c => ?_⟩
  · rw [hkeys, collect_eq]
    ext x
    rw [Finmap.mem_keys, mem_foldl_addTreeChild]
    constructor
    · rintro (hx | ⟨e, he, rfl | hsp⟩)
      · exact absurd hx Finmap.notMem_empty
      · exact Finmap.mem_keys.2 (Finmap.mem_of_lookup_eq_some (ord.mem_entries.1 he))
      · exact (htree.edge_mem x e.1 ((selectedParentOf_iff ord).2 ⟨e, he, rfl, hsp⟩)).1
    · intro hx
      exact .inr ⟨(x, d.node x), ord.mem_entries.2 (lookup_node (Finmap.mem_keys.1 hx)),
        .inl rfl⟩
  · rw [(hperm x).nodup_iff, hvalue]
    have hsub : ((childEntries (ord.entries d.nodes) x).map Prod.fst).Sublist
        ((ord.entries d.nodes).map Prod.fst) :=
      (List.filter_sublist (l := ord.entries d.nodes)).map Prod.fst
    rw [ord.entries_map_fst] at hsub
    exact (ord.nodup_iter _).sublist hsub
  · rw [(hperm x).mem_iff, hvalue, selectedParentOf_iff ord, List.mem_map]
    constructor
    · rintro ⟨e, he, rfl⟩
      obtain ⟨hmem, hsp⟩ := List.mem_filter.1 he
      exact ⟨e, hmem, rfl, of_decide_eq_true hsp⟩
    · rintro ⟨e, he, rfl, hsp⟩
      exact ⟨e, List.mem_filter.2 ⟨he, decide_eq_true hsp⟩, rfl⟩

/-- The tree parents are the selected parents. -/
theorem lookup_collect_treeParent (x : BlockId) :
    (collect ord d.nodes).2.1.lookup x = d.selectedParentOf x := by
  have hnodup : ((ord.entries d.nodes).map Prod.fst).Nodup := by
    rw [ord.entries_map_fst]
    exact ord.nodup_iter _
  obtain ⟨hframe, hset⟩ := foldl_addTreeParent hnodup ∅
  rw [collect_eq]
  by_cases hx : x ∈ d.nodes
  · rw [selectedParentOf_eq (lookup_node hx)]
    exact hset (x, d.node x) (ord.mem_entries.2 (lookup_node hx))
      (Finmap.lookup_empty x)
  · rw [selectedParentOf_none hx]
    apply (hframe x _).trans (Finmap.lookup_empty x)
    rw [ord.entries_map_fst, ord.mem_iter, Finmap.mem_keys]
    exact hx

/-- The DAG children are the other ends of the parent edges. -/
theorem mem_collect_dagChildren (x c : BlockId) :
    c ∈ valueAt (collect ord d.nodes).2.2 x ↔ d.Edge x c := by
  rw [collect_eq, mem_foldl_addDagChildren]
  constructor
  · rintro (hc | ⟨e, he, rfl, hx⟩)
    · exact absurd hc List.not_mem_nil
    · exact ⟨e.2, ord.mem_entries.1 he, hx⟩
  · rintro ⟨n, hn, hx⟩
    exact .inr ⟨(c, n), ord.mem_entries.2 hn, rfl, hx⟩

end Collect

variable [Crypto] {d : DagView}

namespace WellFormed

/-- The oracle built from scratch has the tree and its labels. -/
theorem build_labelled (h : d.WellFormed) (ord : HashOrder) :
    Labelled d.selectedParentOf d.nodes.keys d.genesis (build ord d.genesis d.nodes) := by
  have hroom : d.nodes.keys.card ≤ rootCapacity := Nat.le_of_lt h.len_lt
  exact labelled_of_layout
    (r := ⟨∅, ∅, sortChildren (collect ord d.nodes).1, (collect ord d.nodes).2.1,
      subtreeSizes d.genesis (sortChildren (collect ord d.nodes).1), ∅⟩)
    h.tree (followsTree_collect ord h.tree) (lookup_collect_treeParent ord) rfl hroom _

/-- Its covering sets: the blocks of the future outside the subtree whose selected
parent is not such a block. -/
theorem mem_build_covers (h : d.WellFormed) (ord : HashOrder) {a : BlockId} (ha : a ∈ d.nodes)
    (c : BlockId) : c ∈ (build ord d.genesis d.nodes).covers a ↔
      d.Anc a c ∧ ¬ ReflTransGen (TreeEdge d.selectedParentOf) a c ∧
        ∀ p, d.selectedParentOf c = some p →
          ReflTransGen (TreeEdge d.selectedParentOf) a p ∨ ¬ d.Anc a p := by
  have hlabelled := h.build_labelled ord
  have hcovers : (build ord d.genesis d.nodes).covers a = coversOf ord d.nodes
      (collect ord d.nodes).2.2 (build ord d.genesis d.nodes).intervals a := by
    have hvalue := valueAt_buildFcs ord d.nodes (collect ord d.nodes).2.2
      (build ord d.genesis d.nodes).intervals (a := a)
    rw [if_pos (Finmap.mem_keys.2 ha)] at hvalue
    exact hvalue
  have hedge : ∀ x c, d.Edge x c → c ∈ d.nodes.keys := fun _ _ hxc => Finmap.mem_keys.2 hxc.mem
  have hreach : ∀ y ∈ d.nodes,
      Reachability.contains (build ord d.genesis d.nodes).intervals a y = true ↔
      ReflTransGen (TreeEdge d.selectedParentOf) a y := fun y hy =>
    hlabelled.treeReaches_iff (Finmap.mem_keys.2 ha) (Finmap.mem_keys.2 hy)
  rw [hcovers, mem_coversOf ord (mem_collect_dagChildren ord) hedge]
  apply and_congr_right
  intro hanc
  have hc : c ∈ d.nodes := Anc.mem hanc
  rw [← Bool.not_eq_true, hreach c hc, selectedParentOf_eq (lookup_node hc)]
  apply and_congr_right
  intro _
  apply forall_congr'
  intro p
  apply imp_congr_right
  intro hp
  have hp' : d.selectedParentOf c = some p := (selectedParentOf_eq (lookup_node hc)).trans hp
  rw [hreach p (h.selectedParent_mem hp').1]
  rfl

/-- The oracle built from scratch tracks ancestry: going up the tree from a
descendant outside the subtree, the last block that is such a descendant is in the
covering set. -/
theorem build_tracks (h : d.WellFormed) (ord : HashOrder) :
    Tracks d.selectedParentOf d.nodes.keys d.genesis d.Anc (build ord d.genesis d.nodes) := by
  refine ⟨h.build_labelled ord, ⟨?_, ?_, h.tracks.covers.tree⟩⟩
  · intro a c hc
    by_cases ha : a ∈ d.nodes
    · have hanc := ((h.mem_build_covers ord ha c).1 hc).1
      exact ⟨hanc, Finmap.mem_keys.2 (Anc.mem hanc)⟩
    · have hvalue := valueAt_buildFcs ord d.nodes (collect ord d.nodes).2.2
        (build ord d.genesis d.nodes).intervals (a := a)
      rw [if_neg (mt Finmap.mem_keys.1 ha)] at hvalue
      have hnil : (build ord d.genesis d.nodes).covers a = [] := hvalue
      rw [hnil] at hc
      cases hc
  · intro a b hb hanc
    have ha : a ∈ d.nodes := h.exact.mem_of_anc hanc
    induction h.tree.rooted b hb with
    | refl => exact absurd hanc (h.not_anc_genesis a)
    | @tail p c _ hpc ih =>
        by_cases hac : ReflTransGen (TreeEdge d.selectedParentOf) a c
        · exact .inl hac
        · right
          by_cases hap : d.Anc a p
          · rcases ih (h.tree.edge_mem p c hpc).1 hap with hreach | ⟨e, he, hep⟩
            · exact absurd (hreach.tail hpc) hac
            · exact ⟨e, he, hep.tail hpc⟩
          · refine ⟨c, (h.mem_build_covers ord ha c).2 ⟨hanc, hac, fun q hq => .inr ?_⟩, .refl⟩
            rwa [Option.some.inj (hq.symm.trans hpc)]

end WellFormed

end DagView

/-- Strict containment of intervals is strict tree ancestry. -/
theorem Reachability.Labelled.isChainAncestor_iff {tp : BlockId → Option BlockId}
    {V : Finset BlockId} {root : BlockId} {r : Reachability}
    (h : Reachability.Labelled tp V root r) {a b : BlockId} (ha : a ∈ V) (hb : b ∈ V) :
    r.isChainAncestor a b = true ↔ TransGen (TreeEdge tp) a b := by
  rw [Reachability.isChainAncestor, Bool.and_eq_true, bne_iff_ne, h.treeReaches_iff ha hb,
    reflTransGen_iff_eq_or_transGen]
  constructor
  · rintro ⟨hne, heq | hlt⟩
    · exact absurd heq.symm hne
    · exact hlt
  · intro hlt
    refine ⟨?_, .inr hlt⟩
    rintro rfl
    exact h.tree.acyclic a hlt

namespace Dag

/-- The oracle built from scratch over a reachable DAG answers strict ancestry along
parent edges, as the incrementally maintained one does, and strict ancestry along
selected parents. -/
theorem build_agrees [Crypto] {d : Dag} (h : Reachable d) (ord : HashOrder) {a b : BlockId}
    (ha : a ∈ d.nodes) (hb : b ∈ d.nodes) :
    ((Reachability.build ord d.genesis d.nodes).isAncestor a b = true ↔ d.Anc a b) ∧
      (Reachability.build ord d.genesis d.nodes).isAncestor a b = d.isAncestor a b ∧
      ((Reachability.build ord d.genesis d.nodes).isChainAncestor a b = true ↔
        TransGen (TreeEdge d.selectedParentOf) a b) := by
  have hd := h.wellFormed
  have hfresh : (Reachability.build ord d.genesis d.nodes).isAncestor a b = true ↔ d.Anc a b :=
    (hd.build_tracks ord).isAncestor_iff hd.acyclic (fun _ _ _ => TransGen.trans)
      (Finmap.mem_keys.2 ha) (Finmap.mem_keys.2 hb)
  refine ⟨hfresh, ?_, ?_⟩
  · rw [Bool.eq_iff_iff, hfresh]
    exact (hd.exact.isAncestor_iff a ha b hb).symm
  · exact (hd.build_labelled ord).isChainAncestor_iff (Finmap.mem_keys.2 ha)
      (Finmap.mem_keys.2 hb)

open scoped Reference in
/-- The oracle built over a merge answers for genesis, and for the selected parent. -/
theorem build_agrees_merge : ∃ d : Dag, d.len = 4 ∧
    (Reachability.build .sorted d.genesis d.nodes).isAncestor d.genesis Reference.merge.id = true ∧
    ∃ sp, d.selectedParentOf Reference.merge.id = some sp ∧
      (Reachability.build .sorted d.genesis d.nodes).isChainAncestor sp Reference.merge.id =
        true := by
  have hplay : ((Dag.new .sorted 1 Reference.genesis).insertAll .sorted
      [Reference.left, Reference.right, Reference.merge]).map (fun d => (d.len,
        decide (Reference.merge.id ∈ d.nodes ∧
          d.isAncestor d.genesis Reference.merge.id = true ∧
          (d.selectedParentOf Reference.merge.id).isSome = true))) = some (4, true) := by
    decide +kernel
  obtain ⟨d, hd, heq⟩ := Option.map_eq_some_iff.1 hplay
  obtain ⟨hlen, hdec⟩ := Prod.mk.inj heq
  obtain ⟨hmem, hanc, hsome⟩ := of_decide_eq_true hdec
  obtain ⟨sp, hsp⟩ := Option.isSome_iff_exists.1 hsome
  have hreach : Reachable d := ⟨.sorted, 1, 1, 0, 0, Reference.noTxs.payload, _,
    Run.start.insertAll hd⟩
  have hgenesis := build_agrees hreach .sorted hreach.wellFormed.genesis_mem hmem
  have hparent := build_agrees hreach .sorted (hreach.wellFormed.selectedParent_mem hsp).1 hmem
  exact ⟨d, hlen, hgenesis.2.1.trans hanc, sp, hsp, hparent.2.2.2 (.single hsp)⟩

end Dag

end Kovanica
