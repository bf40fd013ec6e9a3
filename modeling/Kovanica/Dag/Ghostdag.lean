import Kovanica.Dag.Pow
import Kovanica.Dag.View

/-!
# Colouring and insertion

`computeGhostdag` derives a block's consensus data from its parents: it follows
the mergeset in topological order and colours a block blue while every blue
anticone stays within `k`.  `insert` runs the checks, derives that data and
wires the block in.  The map of anticone sizes is iterated in an unspecified
order, which is the argument `ord`.

Scores and works are added in words that wrap, as in a build without overflow checks.  The checks
of `insert` come in the order of the source, since the first one that fails is the error.
-/

namespace Kovanica

open Lib

namespace DagView

/-- The loop of `try_colour_blue` over the blue set's entries.  The counters are
`u16` and wrap. -/
def tryColourLoop (d : DagView) (candidate : BlockId) :
    List (BlockId × U16) → (anticoneBlues : List BlockId) → Option (List BlockId)
  | [], anticoneBlues => some anticoneBlues
  | (blue, blueSize) :: rest, anticoneBlues =>
      if !d.inAnticone blue candidate then tryColourLoop d candidate rest anticoneBlues
      else if d.k < Word.cast 16 anticoneBlues.length + 1 then none
      else if d.k < blueSize + 1 then none
      else tryColourLoop d candidate rest (anticoneBlues ++ [blue])

/-- `try_colour_blue(candidate, sizes)`: the blue blocks in the candidate's
anticone, or `none` when it must be red. -/
def tryColourBlue (ord : HashOrder) (d : DagView) (candidate : BlockId)
    (sizes : Finmap fun _ : BlockId => U16) : Option (List BlockId) :=
  tryColourLoop d candidate (ord.entries sizes) []

/-- The state of the colouring: the anticone sizes, the blues and the reds.  The sizes are those
within the blue set as far as it has been built. -/
structure Colouring where
  sizes : Finmap fun _ : BlockId => U16
  blues : List BlockId
  reds : List BlockId

/-- Colour one candidate of the mergeset: blue where neither it nor any blue block it is unrelated
to would see more than `k` blues, else red. -/
def colourStep (ord : HashOrder) (d : DagView) (c : Colouring) (candidate : BlockId) :
    Colouring :=
  match d.tryColourBlue ord candidate c.sizes with
  | some increments =>
      let seeded := c.sizes.insert candidate (Word.cast 16 increments.length)
      { c with
        sizes := updateEach (· + 1) seeded increments
        blues := c.blues ++ [candidate] }
  | none => { c with reds := c.reds ++ [candidate] }

/-- `compute_ghostdag(parents)`; `none` is the panic on an empty parent list.  Score and work are
added up from those of the selected parent, in words that wrap. -/
def computeGhostdag (ord : HashOrder) (d : DagView) (parents : List BlockId) :
    Option GhostdagData :=
  (d.selectParent parents).map fun sp =>
    let spNode := d.node sp
    let seed : Colouring :=
      { sizes := spNode.ghostdag.blueAnticoneSizes.insert sp 0, blues := [], reds := [] }
    let coloured := (d.mergesetOrdered sp parents).foldl (d.colourStep ord) seed
    { selectedParent := some sp
      mergesetBlues := coloured.blues
      mergesetReds := coloured.reds
      blueScore := spNode.ghostdag.blueScore + 1 + coloured.blues.length
      blueWork := coloured.blues.foldl (fun acc b => acc + (d.node b).block.work)
        (spNode.ghostdag.blueWork + spNode.block.work)
      blueAnticoneSizes := coloured.sizes }

end DagView

namespace Dag

/-- `Dag::new`: a genesis without policies and without a validator.  Its own parents and work are
not checked. -/
def new [Crypto] (ord : HashOrder) (k : KParam) (genesis : Block) : Dag :=
  let id := genesis.id
  let nodes : Dag.Nodes := Finmap.singleton id ⟨genesis, 0, ∅, .genesis⟩
  { k := k
    genesis := id
    nodes := nodes
    tips := {id}
    reach := Reachability.build ord id nodes
    difficulty := none
    requirePow := false
    validator := none }

/-- `Dag::with_validator`. -/
def withValidator [Crypto] (ord : HashOrder) (k : KParam) (genesis : Block)
    (validator : BlockValidator) : Dag :=
  { Dag.new ord k genesis with validator := some validator }

/-- The validator's verdict on a block. -/
def runValidator [Crypto] (d : Dag) (block : Block) : Except DagError Unit :=
  match d.validator with
  | none => .ok ()
  | some validate =>
      match validate block d.toDagView with
      | .ok () => .ok ()
      | .error reason => .error (.invalidBlock block.id reason)

/-- Attach the block to its parents: each gains a child and is no longer a tip.  The block itself
is not stored yet. -/
def wireParents (id : BlockId) (parents : List BlockId) (nodes : Dag.Nodes)
    (tips : Finset BlockId) : Dag.Nodes × Finset BlockId :=
  parents.foldl (fun acc p =>
    let node := valueAt acc.1 p
    (acc.1.insert p { node with children := insert id node.children }, acc.2.erase p))
    (nodes, tips)

/-- Store an accepted block with its consensus data: its parents gain a child and are no longer
tips, the block is one, and the oracle is told. -/
def wire [Crypto] (d : Dag) (block : Block) (sp : BlockId) (g : GhostdagData) : Dag :=
  let id := block.id
  let pastSize := (d.node sp).pastSize + 1 + (g.mergesetBlues.length + g.mergesetReds.length)
  let wired := wireParents id block.parents d.nodes d.tips
  { d with
    nodes := wired.1.insert id ⟨block, pastSize, ∅, g⟩
    tips := insert id wired.2
    reach := d.reach.addBlock id sp (g.mergesetBlues ++ g.mergesetReds) }

/-- The checks of `insert` that follow the derivation of the consensus data: difficulty, where a
policy is installed, and proof of work, where it is switched on. -/
def checkPolicy [Crypto] (d : Dag) (block : Block) (sp : BlockId) : Except DagError Unit :=
  let difficulty : Except DagError Unit := match d.difficulty with
    | none => .ok ()
    | some retarget => d.checkDifficulty block block.id sp retarget
  match difficulty with
  | .error e => .error e
  | .ok () =>
      if d.requirePow && !Pow.meetsTarget block.id block.work then
        .error (.insufficientProofOfWork block.id block.work)
      else .ok ()

/-- `insert(block)`: the block's id and the grown DAG.  The checks come in the order of the
source, so of several failures it is the first that is reported. -/
def insert [Crypto] (ord : HashOrder) (d : Dag) (block : Block) :
    Outcome DagError (BlockId × Dag) :=
  match d.checkStructure block with
  | .error e => .error (.error e)
  | .ok () =>
      match d.runValidator block with
      | .error e => .error (.error e)
      | .ok () =>
          match d.computeGhostdag ord block.parents with
          | none => .error (.panic "non-genesis block always has at least one parent")
          | some g =>
              let sp := g.selectedParent.getD d.genesis
              match d.checkPolicy block sp with
              | .error e => .error (.error e)
              | .ok () =>
                  if mapCapacity ≤ d.len + 1 then .error (.panic "capacity overflow")
                  else .ok (block.id, d.wire block sp g)

/-! ## Policy switches -/

def setDifficulty (d : Dag) (retarget : Retarget) : Dag := { d with difficulty := some retarget }

def setProofOfWork (d : Dag) (enabled : Bool) : Dag := { d with requirePow := enabled }

end Dag

end Kovanica
