import Kovanica.Dag.Block
import Kovanica.Lib.Walk

/-!
# The reachability oracle

Every block carries an interval of the selected-parent tree and a
future-covering set for the DAG edges the tree misses.  `build` lays the oracle
out from scratch; `addBlock` folds in one new leaf, reindexing the smallest
enclosing subtree with room when its tree parent has no capacity left.

Labels are natural numbers here: every interval lies inside the root's, below
`u64::MAX / 2`, so the machine arithmetic never wraps.
-/

namespace Kovanica

open Lib

/-- The `k` of GHOSTDAG: the largest tolerated blue anticone. -/
abbrev KParam : Type := U16

/-- Consensus data derived for a block.  `blueAnticoneSizes` gives, for each
block of the blue set, the number of blue blocks in its anticone. -/
structure GhostdagData where
  selectedParent : Option BlockId
  mergesetBlues : List BlockId
  mergesetReds : List BlockId
  blueScore : Nat
  blueWork : U128
  blueAnticoneSizes : Finmap fun _ : BlockId => U16

/-- The data of a block without selected parent: genesis. -/
def GhostdagData.genesis : GhostdagData where
  selectedParent := none
  mergesetBlues := []
  mergesetReds := []
  blueScore := 0
  blueWork := 0
  blueAnticoneSizes := ∅

/-- A stored block and what is derived for it: the number of its strict
ancestors, its direct children, its GHOSTDAG data. -/
structure Dag.Node where
  block : Block
  pastSize : Nat
  children : Finset BlockId
  ghostdag : GhostdagData

instance : Inhabited Dag.Node := ⟨⟨default, 0, ∅, .genesis⟩⟩

/-- The blocks of a DAG with their derived data. -/
abbrev Dag.Nodes : Type := Finmap fun _ : BlockId => Dag.Node

/-- The interval span of the root. -/
def rootCapacity : Nat := 2 ^ 63 - 1

/-- An interval-labelled tree plus future-covering sets.  The labels answer ancestry along
selected parents, the covering sets reduce all other ancestry to that. -/
structure Reachability where
  intervals : Finmap fun _ : BlockId => Nat × Nat
  fcs : Finmap fun _ : BlockId => List BlockId
  treeChildren : Finmap fun _ : BlockId => List BlockId
  treeParent : Finmap fun _ : BlockId => BlockId
  subtreeSize : Finmap fun _ : BlockId => Nat
  nextFree : Finmap fun _ : BlockId => Nat

namespace Reachability

def empty : Reachability := ⟨∅, ∅, ∅, ∅, ∅, ∅⟩

/-- The number of blocks, enough iterations for any walk along the tree. -/
def size (r : Reachability) : Nat := r.treeChildren.keys.card

/-- The lower end of a block's interval: the block's own point. -/
def start (r : Reachability) (x : BlockId) : Nat := (valueAt r.intervals x).1

/-- The upper end of a block's interval. -/
def stop (r : Reachability) (x : BlockId) : Nat := (valueAt r.intervals x).2

/-! ## Queries -/

/-- Whether the interval of `x` contains the point of `y`. -/
def contains (intervals : Finmap fun _ : BlockId => Nat × Nat) (x y : BlockId) : Bool :=
  match intervals.lookup x, intervals.lookup y with
  | some (xs, xe), some (ys, _) => xs ≤ ys && ys ≤ xe
  | _, _ => false

/-- Whether `x` is a tree ancestor of, or equal to, `y`. -/
def treeReaches (r : Reachability) (x y : BlockId) : Bool := contains r.intervals x y

def isChainAncestor (r : Reachability) (ancestor descendant : BlockId) : Bool :=
  ancestor != descendant && r.treeReaches ancestor descendant

/-- Whether `ancestor` is a strict DAG ancestor of `descendant`: it reaches it in
the tree, or through a member of its covering set. -/
def isAncestor (r : Reachability) (ancestor descendant : BlockId) : Bool :=
  if ancestor = descendant then false
  else if r.treeReaches ancestor descendant then true
  else (r.fcs.lookup ancestor).any fun covers => covers.any fun c => r.treeReaches c descendant

/-! ## Laying out a subtree -/

/-- Hand each child its slice from `cursor` on, its subtree size plus a
proportional share of the slack, pushing it on the stack; returns the stack and
the first point left over. -/
def sliceChildren (size : BlockId → Nat) (slack total : Nat) :
    List BlockId → (cursor : Nat) → List (BlockId × Nat × Nat) →
      List (BlockId × Nat × Nat) × Nat
  | [], cursor, stack => (stack, cursor)
  | child :: rest, cursor, stack =>
      let sz := size child
      let extra := slack * sz / total
      let span := sz + extra
      let cHi := cursor + (span - 1)
      sliceChildren size slack total rest (cHi + 1) ((child, cursor, cHi) :: stack)

/-- The loop of `relayout_subtree`: pop a node, give it its interval and push
its children's slices. -/
def relayoutLoop (children : BlockId → List BlockId) (size : BlockId → Nat) :
    (fuel : Nat) → List (BlockId × Nat × Nat) →
      (intervals : Finmap fun _ : BlockId => Nat × Nat) →
      (nextFree : Finmap fun _ : BlockId => Nat) →
      (Finmap fun _ : BlockId => Nat × Nat) × (Finmap fun _ : BlockId => Nat)
  | 0, _, intervals, nextFree => (intervals, nextFree)
  | _ + 1, [], intervals, nextFree => (intervals, nextFree)
  | fuel + 1, (node, lo, hi) :: stack, intervals, nextFree =>
      let total := size node - 1
      if total = 0 then
        -- a leaf: its whole child region is free
        relayoutLoop children size fuel stack (intervals.insert node (lo, hi))
          (nextFree.insert node (lo + 1))
      else
        let slack := hi - lo - total
        let sliced := sliceChildren size slack total (children node) (lo + 1) stack
        relayoutLoop children size fuel sliced.1 (intervals.insert node (lo, hi))
          (nextFree.insert node sliced.2)

/-- `relayout_subtree(root, lo, hi)`: the subtree gets the interval, and every vertex in it cuts
slices for its children, by their sizes and a share of the slack. -/
def relayoutSubtree (r : Reachability) (root : BlockId) (lo hi : Nat) : Reachability :=
  let laid := relayoutLoop (valueAt r.treeChildren) (valueAt r.subtreeSize) r.size
    [(root, lo, hi)] r.intervals r.nextFree
  { r with intervals := laid.1, nextFree := laid.2 }

/-! ## Adding a block -/

/-- The lowest ancestor with an interval of twice its subtree size, or the root.  The doubling
saturates, and the subtree sizes count the new leaf already. -/
def reindexAnchor (r : Reachability) : (fuel : Nat) → BlockId → BlockId
  | 0, anchor => anchor
  | fuel + 1, anchor =>
      let capacity := r.stop anchor - r.start anchor + 1
      let need := valueAt r.subtreeSize anchor
      if min (need * 2) (2 ^ 64 - 1) ≤ capacity then anchor
      else
        match r.treeParent.lookup anchor with
        | none => anchor
        | some parent => reindexAnchor r fuel parent

/-- `reindex(node)`: lay the anchor's subtree out again in its own interval.  Labels outside of
that subtree are not touched. -/
def reindex (r : Reachability) (node : BlockId) : Reachability :=
  let anchor := r.reindexAnchor r.size node
  r.relayoutSubtree anchor (r.start anchor) (r.stop anchor)

/-- Drop the entries from `pos` on, as long as `b`'s interval covers them.  It stops at the first
one that is not covered, relying on the order of the set. -/
def dropCovered (r : Reachability) (b : BlockId) (pos : Nat) (set : List BlockId) :
    List BlockId :=
  set.take pos ++ (set.drop pos).dropWhile fun c =>
    r.start b ≤ r.start c && r.stop c ≤ r.stop b

/-- The future-covering set of a block, empty when none is stored. -/
def covers (r : Reachability) (a : BlockId) : List BlockId := (r.fcs.lookup a).getD []

/-- `insert_to_future_covering_set(a, b)`: a binary search by interval start, and then the entries
that the interval of `b` covers make room for it. -/
def insertToFutureCoveringSet (r : Reachability) (a b : BlockId) : Reachability :=
  let set := r.covers a
  let pos := partitionPoint (fun c => r.start c ≤ r.start b) set
  let covered := 0 < pos && (set[pos - 1]?).any fun c =>
    r.start c ≤ r.start b && r.stop b ≤ r.stop c
  if covered then { r with fcs := r.fcs.insert a set }
  else { r with fcs := r.fcs.insert a ((r.dropCovered b pos set).insertIdx pos b) }

/-- Step 1 of `add_block`: the new leaf in the tree, among its siblings by id, and the sizes on the
path above it. -/
def registerLeaf (r : Reachability) (id selectedParent : BlockId) : Reachability :=
  let children := (r.treeChildren.lookup selectedParent).getD []
  let pos := partitionPoint (fun c => c < id) children
  let treeChildren := r.treeChildren.insert selectedParent (children.insertIdx pos id)
  let treeParent := r.treeParent.insert id selectedParent
  let above := pathUp treeParent.lookup (r.size + 1) selectedParent
  { r with
    treeChildren := treeChildren.insert id ((treeChildren.lookup id).getD [])
    treeParent := treeParent
    subtreeSize := updateEach (· + 1) (r.subtreeSize.insert id 1) above }

/-- Step 2: half of the parent's remaining capacity, or a reindex.  For a reindex the leaf first
gets an interval outside of its parent's, and the relayout of the anchor's subtree replaces it. -/
def allocate (r : Reachability) (id selectedParent : BlockId) : Reachability :=
  let pEnd := r.stop selectedParent
  let remLo := valueAt r.nextFree selectedParent
  if remLo ≤ pEnd then
    let mid := remLo + (pEnd - remLo) / 2
    { r with
      intervals := r.intervals.insert id (remLo, mid)
      nextFree := (r.nextFree.insert id (remLo + 1)).insert selectedParent (mid + 1) }
  else
    { r with
      intervals := r.intervals.insert id (remLo, remLo)
      nextFree := r.nextFree.insert id remLo }.reindex selectedParent

/-- `add_block(id, selected_parent, mergeset)`: the block becomes a leaf of the tree, is given an
interval, and enters the covering set of every block of its mergeset. -/
def addBlock (r : Reachability) (id selectedParent : BlockId) (mergeset : List BlockId) :
    Reachability :=
  mergeset.foldl (fun r merged => r.insertToFutureCoveringSet merged id)
    ((r.registerLeaf id selectedParent).allocate id selectedParent)

/-! ## Building from scratch -/

/-- A pending step of the post-order traversal: a vertex whose subtree is still to be counted, or
one whose children have been. -/
inductive Step where
  | enter (id : BlockId)
  | exit (id : BlockId)

/-- The loop of `subtree_sizes`. -/
def subtreeSizesLoop (treeChildren : Finmap fun _ : BlockId => List BlockId) :
    (fuel : Nat) → List Step → (sizes : Finmap fun _ : BlockId => Nat) →
      Finmap fun _ : BlockId => Nat
  | 0, _, sizes => sizes
  | _ + 1, [], sizes => sizes
  | fuel + 1, .enter id :: stack, sizes =>
      let children := (treeChildren.lookup id).getD []
      subtreeSizesLoop treeChildren fuel
        ((children.map Step.enter).reverse ++ .exit id :: stack) (sizes.insert id 1)
  | fuel + 1, .exit id :: stack, sizes =>
      match treeChildren.lookup id with
      | none => subtreeSizesLoop treeChildren fuel stack sizes
      | some children =>
          subtreeSizesLoop treeChildren fuel stack
            (sizes.insert id (1 + (children.map (valueAt sizes)).sum))

/-- `subtree_sizes(root, tree_children)`. -/
def subtreeSizes (root : BlockId) (treeChildren : Finmap fun _ : BlockId => List BlockId) :
    Finmap fun _ : BlockId => Nat :=
  subtreeSizesLoop treeChildren (2 * treeChildren.keys.card) [.enter root] ∅

/-- `map.entry(key).or_default().push(value)`. -/
def pushAt (m : Finmap fun _ : BlockId => List BlockId) (key value : BlockId) :
    Finmap fun _ : BlockId => List BlockId :=
  m.insert key ((m.lookup key).getD [] ++ [value])

/-- The tree children, tree parents and DAG children of the stored blocks. -/
def collect (ord : HashOrder) (nodes : Dag.Nodes) :
    (Finmap fun _ : BlockId => List BlockId) × (Finmap fun _ : BlockId => BlockId) ×
      (Finmap fun _ : BlockId => List BlockId) :=
  (ord.entries nodes).foldl (fun acc entry =>
    let (treeChildren, treeParent, dagChildren) := acc
    let (id, node) := entry
    let treeChildren := treeChildren.insert id ((treeChildren.lookup id).getD [])
    let dagChildren := node.block.parents.foldl (fun m p => pushAt m p id) dagChildren
    match node.ghostdag.selectedParent with
    | none => (treeChildren, treeParent, dagChildren)
    | some sp => (pushAt treeChildren sp id, treeParent.insert id sp, dagChildren)) (∅, ∅, ∅)

/-- `children.sort_unstable()` for every block. -/
def sortChildren (treeChildren : Finmap fun _ : BlockId => List BlockId) :
    Finmap fun _ : BlockId => List BlockId :=
  (ascending treeChildren.keys).foldl
    (fun m id => m.insert id (sortByKey (fun c => c) (valueAt m id))) treeChildren

/-- The covering set of `a` from scratch: the tree roots of its future outside
its own subtree. -/
def coversOf (ord : HashOrder) (nodes : Dag.Nodes)
    (dagChildren : Finmap fun _ : BlockId => List BlockId)
    (intervals : Finmap fun _ : BlockId => Nat × Nat) (a : BlockId) : List BlockId :=
  let next := fun x => (dagChildren.lookup x).getD []
  let future := (walk next (fun _ => false)
    ((next a).length + ∑ x ∈ nodes.keys, (next x).length) (next a) ∅ []).toFinset
  let covers := (ord.iter future).filter fun c =>
    !contains intervals a c &&
      match (valueAt nodes c).ghostdag.selectedParent with
      | some tp => contains intervals a tp || decide (tp ∉ future)
      | none => true
  sortByKey (fun c => ((intervals.lookup c).map Prod.fst).getD 0) covers

/-- `build_fcs`: the covering set of every block whose future leaves its subtree.  Blocks without
one have no entry. -/
def buildFcs (ord : HashOrder) (nodes : Dag.Nodes)
    (dagChildren : Finmap fun _ : BlockId => List BlockId)
    (intervals : Finmap fun _ : BlockId => Nat × Nat) :
    Finmap fun _ : BlockId => List BlockId :=
  (ord.iter nodes.keys).foldl (fun fcs a =>
    let covers := coversOf ord nodes dagChildren intervals a
    if covers.isEmpty then fcs else fcs.insert a covers) ∅

/-- `Reachability::build`, over the stored blocks and the genesis id.  It is given the finished
DAG, in whatever order its map is iterated, and lays everything out at once. -/
def build (ord : HashOrder) (genesis : BlockId) (nodes : Dag.Nodes) : Reachability :=
  let (treeChildren, treeParent, dagChildren) := collect ord nodes
  let treeChildren := sortChildren treeChildren
  let seed : Reachability :=
    { intervals := ∅
      fcs := ∅
      treeChildren := treeChildren
      treeParent := treeParent
      subtreeSize := subtreeSizes genesis treeChildren
      nextFree := ∅ }
  let laid := seed.relayoutSubtree genesis 1 rootCapacity
  { laid with fcs := buildFcs ord nodes dagChildren laid.intervals }

end Reachability

end Kovanica
