import Kovanica.Node.Node

/-!
# One-directional catch-up

`gossip` copies every block of one node into another, in the order `exportBlocks`
gives.  The same exchange over TCP is left out; its wire format is in `Node.Wire`.

The loop stops at the first record that is refused, and the records before it stay applied.
-/

namespace Kovanica

open Lib

/-- Why a sync failed. -/
inductive NetError where
  | io (reason : String)
  | decode (reason : String)
  | apply (reason : String)
deriving DecidableEq

def NetError.display : NetError → String
  | io reason => s!"io: {reason}"
  | decode reason => s!"decode: {reason}"
  | apply reason => s!"apply: {reason}"

namespace Net

/-- Feed the records to a node, which has taken `applied` of them; the first
refusal ends the sync.  The node keeps what it took. -/
def gossipLoop [Crypto] (envs : Nat → Env) :
    (applied : Nat) → List BlockRecord → Node → Outcome NetError Nat × Node
  | applied, [], n => (.ok applied, n)
  | applied, record :: rest, n =>
      match n.receiveBlock (envs applied) record with
      | .ok (_, n) => gossipLoop envs (applied + 1) rest n
      | .error (.error e) => (.error (.error (.apply e.display)), n)
      | .error (.panic site) => (.error (.panic site), n)

/-- `gossip(from, to)`: the number of records applied and the receiving node.  The first record
that is refused ends it, and what was applied before it stays. -/
def gossip [Crypto] (env : Env) (envs : Nat → Env) (source target : Node) :
    Outcome NetError Nat × Node :=
  gossipLoop envs 0 (source.exportBlocks env) target

end Net

end Kovanica
