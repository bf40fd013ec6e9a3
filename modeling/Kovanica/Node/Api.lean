import Kovanica.Lib.Json
import Kovanica.Node.Explorer
import Kovanica.Node.P2p
import Kovanica.Node.Text

/-!
# The JSON interface of the explorer

The bodies the explorer answers with, put together piece by piece, and the values they
stand for: every body is the text of its value.

Strings are escaped as the source does it, which leaves control characters as they are.  That a
client reads the values back is shown in `Node.Answers`.
-/

namespace Kovanica

open Lib

namespace Explorer

/-! ## Pieces of text -/

/-- `jstr(s)`. -/
def jstr (s : String) : String :=
  s.toList.foldl (fun out c =>
    if c = '"' then out ++ "\\\""
    else if c = '\\' then out ++ "\\\\"
    else if c = '\n' then out ++ "\\n"
    else out.push c) "\"" ++ "\""

/-- `jarr(items)`. -/
def jarr (items : List String) : String := "[" ++ ",".intercalate items ++ "]"

/-- One coin, in atoms. -/
def atom : U64 := 100000000

/-- `NETWORK`. -/
def network : String := "kovanica-testnet-1"

/-- The seeds the wallet page lists: `ACTORS`. -/
def actors : List U64 := [1, 2, 3, 4, 5, 6, 7, 8]

/-! ## Transactions and blocks -/

/-- The outputs in `tx_json` and `pending_json`. -/
def outputsJson (tx : Transaction) : String :=
  jarr (tx.outputs.map fun o => s!"\x7b\"value\":{o.value.val},\"owner\":{jstr o.owner.toHex}\x7d")

/-- `tx_json(tx)`. -/
def txJson [Crypto] (tx : Transaction) : String :=
  s!"\x7b\"id\":{jstr tx.id.display},\"coinbase\":{tx.isCoinbase}," ++
    s!"\"inputs\":{tx.inputs.length},\"outputs\":{outputsJson tx}\x7d"

/-- `pending_json(node, tx)`, in the ledger state of the node. -/
def pendingJson [Crypto] (state : UtxoSet) (tx : Transaction) : String :=
  s!"\x7b\"id\":{jstr tx.id.display},\"coinbase\":{tx.isCoinbase}," ++
    s!"\"fee\":{(feeOf state tx).val},\"inputs\":{tx.inputs.length}," ++
    s!"\"outputs\":{outputsJson tx}\x7d"

/-- `colour_of(id, genesis, chain, blue)`. -/
def colourOf (id genesis : BlockId) (chain : List BlockId) (blue : Finset BlockId) : String :=
  if id = genesis then "genesis"
  else if id ∈ chain then "chain"
  else if id ∈ blue then "blue"
  else "red"

/-- `blue_set`: the blue blocks the selected tip knows of. -/
def blueSet (d : DagView) : Finset BlockId :=
  ((d.ghostdag d.selectedTip).map fun g => g.blueAnticoneSizes.keys).getD ∅

/-- A text in quotes, or `null`. -/
def jstrOrNull (s : Option String) : String := (s.map jstr).getD "null"

/-- A block in the list `node_json` gives. -/
def blockJson [Crypto] (d : DagView) (id : BlockId) (rec : BlockRecord) (g : GhostdagData) :
    String :=
  let parents := jarr (rec.parents.val.map fun p => jstr p.display)
  let selectedParent := jstrOrNull (g.selectedParent.map BlockId.display)
  let colour := colourOf id d.genesis d.selectedChain (blueSet d)
  let txs := jarr (rec.txs.val.map txJson)
  s!"\x7b\"id\":{jstr id.display},\"parents\":{parents},\"selected_parent\":{selectedParent}," ++
    s!"\"work\":{rec.work.val},\"timestamp_ms\":{rec.timestampMs.val},\"nonce\":{rec.nonce.val}," ++
    s!"\"blue_score\":{g.blueScore},\"colour\":{jstr colour},\"txs\":{txs}\x7d"

/-- The blocks of the linearization that have a record and consensus data. -/
def blockRows (env : Env) (n : Node) (d : DagView) : List (BlockId × BlockRecord × GhostdagData) :=
  (recordsOf n (d.linearize env.ord)).filterMap fun row =>
    (d.ghostdag row.1).map fun g => (row.1, row.2, g)

/-- `tx_count`. -/
def txCount (env : Env) (n : Node) (d : DagView) : Nat :=
  ((recordsOf n (d.linearize env.ord)).map fun row => row.2.txs.val.length).sum

/-! ## A node -/

/-- `node_json(node)`. -/
def nodeJson [Crypto] (env : Env) (n : Node) : Outcome Empty String :=
  match n.ledger with
  | none => .ok "\x7b\"blocks\":0,\"dag\":[],\"order\":[],\"tips\":[],\"pending\":[]\x7d"
  | some ledger => do
      let d := ledger.dag.toDagView
      let g := d.ghostdag d.selectedTip
      let tips := jarr (d.tipList.map fun t => jstr t.display)
      let dag := jarr ((blockRows env n d).map fun row => blockJson d row.1 row.2.1 row.2.2)
      let order := jarr ((d.linearize env.ord).map fun id => jstr id.display)
      let state ← orPanic "selected tip has a stored state" (ledger.ledgerState env.ord)
      let pending := jarr ((n.mempool.ordered env.ord).map (pendingJson state))
      let blueScore := (g.map GhostdagData.blueScore).getD 0
      let blueWork := (g.map GhostdagData.blueWork).getD 0
      let token := jstr "KVNC"
      let ui := jstr "v5"
      let miner := jstrOrNull (n.miner.map Address.toHex)
      return s!"\x7b\"blocks\":{d.len},\"tips\":{tips}," ++
        s!"\"selected_tip\":{jstr d.selectedTip.display}," ++
        s!"\"blue_score\":{blueScore},\"blue_work\":{blueWork.val},\"k\":{d.k.val}," ++
        s!"\"subsidy\":{ledger.subsidy.val},\"issuance\":{n.issuance.val}," ++
        s!"\"halving_era\":{halvingEra.val},\"min_fee\":{n.minFee.val}," ++
        s!"\"genesis\":{jstr ledger.genesis.display},\"supply\":{state.totalValue}," ++
        s!"\"token\":{token},\"decimals\":8,\"miner\":{miner},\"atom\":{atom.val}," ++
        s!"\"pow\":{d.requirePow},\"ui\":{ui},\"utxos\":{state.keys.card}," ++
        s!"\"chain_len\":{d.selectedChain.length},\"mempool\":{n.mempool.len}," ++
        s!"\"tx_count\":{txCount env n d},\"dag\":{dag},\"order\":{order}," ++
        s!"\"pending\":{pending}\x7d"

/-- `unwrap_or(default)`, or the panic. -/
def unwrapOr {ε α : Type} (default : α) : Outcome ε α → Outcome Empty α
  | .ok a => .ok a
  | .error (.error _) => .ok default
  | .error (.panic site) => .error (.panic site)

/-- An actor in the list `wallets_json` gives. -/
def walletJson [Crypto] (env : Env) (n : Node) (seed : U64) : Outcome Empty String := do
  let addr := Node.address seed
  let bal ← unwrapOr 0 (n.balance env addr)
  return s!"\x7b\"seed\":{seed.val},\"address\":{jstr addr.toHex},\"balance\":{bal}\x7d"

/-- `wallets_json(node)`. -/
def walletsJson [Crypto] (env : Env) (n : Node) : Outcome Empty String := do
  return jarr (← actors.mapM (walletJson env n))

/-! ## An address -/

/-- `kind` of `history_json`. -/
def HistoryKind.display : HistoryKind → String
  | coinbase => "coinbase"
  | incoming => "in"
  | outgoing => "out"

/-- An entry of `history_json`. -/
def itemJson (item : HistoryItem) : String :=
  s!"\x7b\"block\":{jstr item.block.display},\"tx\":{jstr item.tx.display}," ++
    s!"\"kind\":{jstr item.kind.display},\"delta\":{item.delta}\x7d"

/-- The body of `history_json`. -/
def historyJson (h : History) : String :=
  s!"\x7b\"address\":{jstr h.address.toHex},\"balance\":{h.balance}," ++
    s!"\"txs\":{jarr (h.txs.map itemJson)}\x7d"

/-- An unspent output in `utxos_json`. -/
def utxoJson (row : OutPoint × U64) : String :=
  s!"\x7b\"tx\":{jstr row.1.tx.display},\"index\":{row.1.index.val},\"value\":{row.2.val}\x7d"

/-- The body of `utxos_json`. -/
def utxosJson (addr : Address) (balance : Nat) (rows : List (OutPoint × U64)) : String :=
  s!"\x7b\"address\":{jstr addr.toHex},\"balance\":{balance}," ++
    s!"\"utxos\":{jarr (rows.map utxoJson)}\x7d"

end Explorer

end Kovanica
