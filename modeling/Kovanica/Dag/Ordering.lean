import Kovanica.Dag.Ghostdag

/-!
# The total order

The selected chain from genesis to the heaviest tip, each chain block preceded
by its mergeset, and then the blocks not under the selected tip in topological
order.

The mergesets are computed again from the oracle each time; that they are what was stored when
the blocks were coloured is a result of later modules and is not built in here.
-/

namespace Kovanica

open Lib

namespace DagView

/-- The tip with the heaviest chain key.  Tips are compared by what is stored for them, so the
selection does not depend on the order in which blocks arrived. -/
def selectedTip (d : DagView) : BlockId := (maxByKey d.chainKey d.tipList).getD d.genesis

/-- The selected-parent chain from genesis to `id`. -/
def chainTo (d : DagView) (id : BlockId) : List BlockId :=
  (pathUp d.selectedParentOf d.len id).reverse

/-- `selected_chain()`: genesis first, the selected tip last. -/
def selectedChain (d : DagView) : List BlockId := d.chainTo d.selectedTip

/-- `mergeset_order(block)`, recomputed from the current oracle and not taken from what was stored
when the block was coloured. -/
def mergesetOrder (d : DagView) (id : BlockId) : List BlockId :=
  match (d.node id).ghostdag.selectedParent with
  | some sp => d.mergesetOrdered sp (d.parentsOf id)
  | none => []

/-- The spine of the linearization: each chain block preceded by its mergeset.  It is all of the
past of the last chain block, and that block. -/
def spine (d : DagView) (chain : List BlockId) : List BlockId :=
  chain.flatMap fun b => d.mergesetOrder b ++ [b]

/-- The blocks not emitted yet, in topological order: those that are not under the selected tip. -/
def tail (ord : HashOrder) (d : DagView) (emitted : Finset BlockId) : List BlockId :=
  sortByKey d.topoKey ((ord.iter d.nodes.keys).filter fun b => b ∉ emitted)

/-- `linearize()`: the selected chain, each block of it behind its mergeset, and then what the
selected tip does not have in its past. -/
def linearize (ord : HashOrder) (d : DagView) : List BlockId :=
  let order := d.spine d.selectedChain
  order ++ d.tail ord order.toFinset

end DagView

end Kovanica
