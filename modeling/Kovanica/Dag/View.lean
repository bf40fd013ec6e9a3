import Kovanica.Dag.Difficulty
import Kovanica.Dag.Reachability

/-!
# The DAG store and its queries

`DagView` is everything a DAG holds except the installed validator, which is
also all a validator gets to see; `Dag` adds the validator.  The queries are
those of the source: chain keys, mergesets, difficulty samples, previews.

Lookups that the source makes with an index, and that panic on an unknown id, return a default
here; of a well-formed DAG `node` is only asked for ids that are stored.  Sets are iterated in
ascending order, and hash maps in an order that is an argument.
-/

namespace Kovanica

open Lib

/-- Why a block could not be inserted. -/
inductive DagError where
  | duplicateBlock (id : BlockId)
  | missingParent (id : BlockId)
  | noParents (id : BlockId)
  | genesisAlreadySet
  | invalidBlock (id : BlockId) (reason : String)
  | difficultyMismatch (id : BlockId) (expected actual : U128)
  | nonMonotonicTimestamp (id : BlockId) (timestampMs parentTimestampMs : U64)
  | insufficientProofOfWork (id : BlockId) (work : U128)

namespace DagError

def display : DagError → String
  | duplicateBlock id => s!"duplicate block {id.display}"
  | missingParent id => s!"missing parent {id.display}"
  | noParents id => s!"non-genesis block {id.display} has no parents"
  | genesisAlreadySet => "genesis already set"
  | invalidBlock id reason => s!"block {id.display} rejected by validator: {reason}"
  | difficultyMismatch id expected actual =>
      s!"block {id.display} has work {actual.val}, but difficulty requires {expected.val}"
  | nonMonotonicTimestamp id timestampMs parentTimestampMs =>
      s!"block {id.display} timestamp {timestampMs.val}ms precedes parent timestamp " ++
        s!"{parentTimestampMs.val}ms"
  | insufficientProofOfWork id work =>
      s!"block {id.display} does not meet its proof-of-work target for work {work.val}"

end DagError

/-- The selected parent and mergeset a block would get.  A ledger asks for them to find the view
it checks the block against, before the block is inserted. -/
structure BlockPreview where
  selectedParent : BlockId
  mergeset : List BlockId

/-- A DAG without its validator: the blocks with their consensus data, the tips, the oracle and
the installed policies.  All queries read this part only. -/
structure DagView where
  k : KParam
  genesis : BlockId
  nodes : Dag.Nodes
  tips : Finset BlockId
  reach : Reachability
  difficulty : Option Retarget
  requirePow : Bool

/-- A payload-aware rule run on every insert.  It sees the block and the DAG it is to join, and
refuses with a reason. -/
abbrev BlockValidator : Type := Block → DagView → Except String Unit

/-- An append-only block DAG with GHOSTDAG consensus data.  The validator is kept apart from the
rest, since it takes that rest as an argument. -/
structure Dag extends DagView where
  validator : Option BlockValidator

namespace DagView

/-! ## Queries -/

/-- The stored entry of a block. -/
def node (d : DagView) (id : BlockId) : Dag.Node := valueAt d.nodes id

def contains (d : DagView) (id : BlockId) : Bool := decide (id ∈ d.nodes)

/-- The number of blocks, genesis included. -/
def len (d : DagView) : Nat := d.nodes.keys.card

/-- The current tips, sorted by id. -/
def tipList (d : DagView) : List BlockId := ascending d.tips

def block (d : DagView) (id : BlockId) : Option Block := (d.nodes.lookup id).map Dag.Node.block

def ghostdag (d : DagView) (id : BlockId) : Option GhostdagData :=
  (d.nodes.lookup id).map Dag.Node.ghostdag

/-- The selected parent of a stored block. -/
def selectedParentOf (d : DagView) (id : BlockId) : Option BlockId :=
  (d.ghostdag id).bind GhostdagData.selectedParent

def isAncestor (d : DagView) (ancestor descendant : BlockId) : Bool :=
  d.reach.isAncestor ancestor descendant

/-- Distinct blocks, neither an ancestor of the other, as the oracle answers. -/
def inAnticone (d : DagView) (a b : BlockId) : Bool :=
  a != b && !d.isAncestor a b && !d.isAncestor b a

/-- Blue work first, then blue score, then the id.  The lexicographic order on the three is
linear, so every set of blocks has one heaviest. -/
abbrev ChainKey : Type := U128 ×ₗ Nat ×ₗ BlockId

/-- `chain_key(id)`: blue work first, then blue score, then the id.  The id is last, so no two
blocks have the same key. -/
def chainKey (d : DagView) (id : BlockId) : ChainKey :=
  let g := (d.node id).ghostdag
  toLex (g.blueWork, toLex (g.blueScore, id))

/-- `topo_key(id)`: a strict ancestor has a strictly smaller past, so sorting by this key lists
ancestors first; the id decides among the others. -/
def topoKey (d : DagView) (id : BlockId) : Nat ×ₗ BlockId := toLex ((d.node id).pastSize, id)

def parentsOf (d : DagView) (id : BlockId) : List BlockId := (d.node id).block.parents

/-- Iterations enough for the backward walk: one for each queued parent edge. -/
def walkFuel (d : DagView) (parents : List BlockId) : Nat :=
  parents.length + ∑ x ∈ d.nodes.keys, (d.parentsOf x).length

/-- `mergeset_ordered(sp, parents)`: the backward walk over parent edges, bounded
by `sp` and its past, sorted by `(past_size, id)`. -/
def mergesetOrdered (d : DagView) (sp : BlockId) (parents : List BlockId) : List BlockId :=
  sortByKey d.topoKey
    (walk d.parentsOf (fun x => x == sp || d.isAncestor x sp) (d.walkFuel parents) parents ∅ [])

/-- The parent with the heaviest chain key.  Keys differ, so the order of the parents does not
matter. -/
def selectParent (d : DagView) (parents : List BlockId) : Option BlockId :=
  maxByKey d.chainKey parents

/-- The structural checks that `insert` and `preview` share: not a duplicate, at
least one parent, every parent present. -/
def checkStructure [Crypto] (d : DagView) (block : Block) : Except DagError Unit :=
  if block.id ∈ d.nodes then .error (.duplicateBlock block.id)
  else if block.parents.isEmpty then .error (.noParents block.id)
  else
    match block.parents.find? fun p => !d.contains p with
    | some parent => .error (.missingParent parent)
    | none => .ok ()

/-- `preview(block)`, without inserting it: the structural checks of an insert, and then what the
insert would make of the parents. -/
def preview [Crypto] (d : DagView) (block : Block) : Except DagError BlockPreview :=
  match d.checkStructure block with
  | .error e => .error e
  | .ok () =>
      let sp := (d.selectParent block.parents).getD d.genesis
      .ok { selectedParent := sp, mergeset := d.mergesetOrdered sp block.parents }

/-! ## Difficulty -/

/-- The loop of `chain_samples`, newest block first; it stops at `stopLen`
samples or at genesis. -/
def chainSamplesLoop (d : DagView) (stopLen : U64) :
    (fuel : Nat) → BlockId → List TimedWork → List TimedWork
  | 0, _, samples => samples
  | fuel + 1, id, samples =>
      let node := d.node id
      let samples := samples ++ [⟨node.block.timestampMs, node.block.work⟩]
      if samples.length = stopLen.val then samples
      else
        match node.ghostdag.selectedParent with
        | none => samples
        | some parent => chainSamplesLoop d stopLen fuel parent samples

/-- `chain_samples(tip, window)`, oldest first: timestamps and works of the last `window + 1`
blocks of the selected chain that ends at `tip`. -/
def chainSamples (d : DagView) (tip : BlockId) (window : U64) : List TimedWork :=
  (chainSamplesLoop d (window + 1) d.len tip []).reverse

/-- `check_difficulty`: timestamps do not precede a parent's, and the work is the
one the selected chain implies. -/
def checkDifficulty (d : DagView) (block : Block) (id sp : BlockId) (retarget : Retarget) :
    Except DagError Unit :=
  match block.parents.find? fun p => block.timestampMs < (d.node p).block.timestampMs with
  | some parent =>
      .error (.nonMonotonicTimestamp id block.timestampMs (d.node parent).block.timestampMs)
  | none =>
      let expected := retarget.nextWork (d.chainSamples sp retarget.window)
      if block.work ≠ expected then .error (.difficultyMismatch id expected block.work)
      else .ok ()

/-- `next_work_target(parents)`: what the installed policy asks of a block on these parents,
measured on the chain of their heaviest; nothing without a policy. -/
def nextWorkTarget (d : DagView) (parents : List BlockId) : Option U128 :=
  d.difficulty.bind fun retarget =>
    (d.selectParent parents).map fun sp =>
      retarget.nextWork (d.chainSamples sp retarget.window)

end DagView

end Kovanica
