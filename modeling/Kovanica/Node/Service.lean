import Kovanica.Node.Api
import Kovanica.Node.Rpc
import Kovanica.Node.Sync

/-!
# The explorer process

A mesh of nodes behind an HTTP port.  The process boots from the files of its data
directory, answers requests one at a time, ticks in between, and writes every ledger back
after each request that changed something, each block it mined and each pull from its
peers.

A connection is what comes of it: a request is the text that was read, a pull is the bytes a
peer sent until it closed or the reason why reading failed, and what is written is taken.  A
peer that trickles its bytes, one that never reads, and a listener that fails are not
modelled.  Sums wrap, as in a build without overflow checks.
-/

namespace Kovanica

open Lib

/-! ## The host -/

/-- The data directory: `fs::read`, `fs::write`, `is_file`, `fs::read_dir` and
`fs::remove_file` on the names in it. -/
structure DataDir (F : Type) extends FileSystem F where
  isFile : F → String → Bool
  names : F → List String
  remove : F → String → F

/-- What the process runs in: its data directory, its environment variables, what
`TcpListener::bind` gives it at an address (the listener's own address, if it is known),
which may depend on whether it has a listener there already, and the pages built into the
program or lying next to it. -/
structure Host (F : Type) where
  dir : DataDir F
  var : String → Option String
  bind : Bool → String → Option (Option String)
  ui : String
  bip39 : String
  docs : String
  patch : List U8

/-- `env_flag(name, default)`. -/
def Host.flag {F : Type} (host : Host F) (name : String) (default : Bool) : Bool :=
  match host.var name with
  | some v => decide (v ∈ ["1", "true", "TRUE", "yes", "on"])
  | none => default

/-- `peer_list()`. -/
def Host.peerList {F : Type} (host : Host F) : List String :=
  match host.var "KOVANICA_PEERS" with
  | none => []
  | some s => ((split ',' s).map trim).filter fun x => !x.isEmpty

/-- `bind_p2p()`, of a process that has a listener already or not. -/
def Host.bindP2p {F : Type} (host : Host F) (held : Bool) : Option (Option String) :=
  (host.var "KOVANICA_LISTEN").bind (host.bind held)

namespace Mesh

/-- `let _ = call`: the mesh the call leaves, which is the one before if it failed. -/
def attempt {ε α : Type} (m : Mesh) : Outcome ε (α × Mesh) → Outcome Empty Mesh
  | .ok (_, m) => .ok m
  | .error (.error _) => .ok m
  | .error (.panic site) => .error (.panic site)

end Mesh

/-- A call that cannot fail, among calls that can. -/
def infallible {ε α : Type} : Outcome Empty α → Outcome ε α
  | .ok a => .ok a
  | .error (.panic site) => .error (.panic site)

namespace Explorer

variable {F : Type}

/-! ## Files -/

/-- `snap_path(name)`, in the data directory. -/
def snapPath (name : String) : String := s!"{name}.snap"

/-- `miner_path(name)`, in the data directory. -/
def minerPath (name : String) : String := s!"{name}.miner"

/-- `fs::read_to_string`. -/
def readToString (dir : DataDir F) (files : F) (path : String) : Option String :=
  (dir.read files path).toOption.bind ofUtf8?

/-- `fs::write`, whose result is ignored. -/
def write (dir : DataDir F) (files : F) (path : String) (bytes : List U8) : F :=
  (dir.write files path bytes).2

/-- `path.extension()`: what follows the last dot, unless the name begins with it. -/
def extension (name : String) : Option String :=
  let after := name.toList.reverse.takeWhile fun c => c != '.'
  let before := name.toList.reverse.dropWhile fun c => c != '.'
  if before.length ≤ 1 then none else some (String.ofList after.reverse)

/-- `wipe_data()`. -/
def wipeData (dir : DataDir F) (files : F) : F :=
  (dir.names files).foldl (fun files name =>
    if extension name = some "snap" ∨ extension name = some "miner" then dir.remove files name
    else files) files

/-- `ensure_network()`. -/
def ensureNetwork (dir : DataDir F) (files : F) : F :=
  if (readToString dir files "network").map trim = some network then files
  else write dir (wipeData dir files) "network" (utf8 network)

/-- A node in `persist_all`. -/
def persist (dir : DataDir F) (env : Env) (name : String) (n : Node) (files : F) : F :=
  let files := (n.save dir.toFileSystem env files (snapPath name)).1
  match n.miner with
  | none => files
  | some miner => write dir files (minerPath name) (utf8 miner.toHex)

/-- The nodes of these names, written in turn. -/
def persistFrom (dir : DataDir F) (envs : Nat → Env) (m : Mesh) : Nat → List String → F → F
  | _, [], files => files
  | i, name :: rest, files =>
      match m.nodes.lookup name with
      | none => persistFrom dir envs m (i + 1) rest files
      | some n => persistFrom dir envs m (i + 1) rest (persist dir (envs i) name n files)

/-- `persist_all(mesh)`. -/
def persistAll (dir : DataDir F) (envs : Nat → Env) (m : Mesh) (files : F) : F :=
  persistFrom dir envs m 0 m.names files

/-! ## Arguments of a request -/

/-- A request's arguments. -/
abbrev Query : Type := Finmap fun _ : String => String

/-- `urlencoding_decode(s)`. -/
def urlencodingDecode (s : String) : String :=
  String.ofList (s.toList.map fun c => if c = '+' then ' ' else c)

/-- `split_query(target)`. -/
def splitQuery (target : String) : String × Query :=
  match splitOnce '?' target with
  | none => (target, ∅)
  | some (path, q) =>
      (path, (split '&' q).foldl (fun map pair =>
        match splitOnce '=' pair with
        | none => map
        | some (k, v) => map.insert k (urlencodingDecode v)) ∅)

/-- `parse_addr(s)`. -/
def parseAddr (s : String) : Except String Address :=
  match hexDecode (trim s) with
  | none => .error "address is not hex"
  | some bytes =>
      if h : bytes.length = 32 then .ok ⟨⟨bytes, h⟩⟩ else .error "address must be 32 bytes"

/-- `parse_sig(s)`. -/
def parseSig (s : String) : Except String (Bytes 64) :=
  match hexDecode (trim s) with
  | none => .error "sig is not hex"
  | some bytes => if h : bytes.length = 64 then .ok ⟨bytes, h⟩ else .error "sig must be 64 bytes"

/-- `parse_u64(q, key, default)`. -/
def parseU64 (q : Query) (key : String) (default : U64) : Except String U64 :=
  match q.lookup key with
  | none => .ok default
  | some s =>
      match parseWord 64 s with
      | none => .error s!"bad {key}"
      | some n => .ok n

/-- `q.get(key).ok_or(message)`. -/
def required (q : Query) (key message : String) : Except String String :=
  match q.lookup key with
  | none => .error message
  | some s => .ok s

end Explorer

/-! ## The process -/

/-- The state of the process.  Of the listener for peers only its presence counts, and of the
files nothing is kept here: they are handed from round to round. -/
structure Explorer where
  mesh : Mesh
  selected : String
  mining : Bool
  ticks : U64
  rotate : U64
  faucet : Bool
  allowReset : Bool
  operator : Bool
  listen : Bool
  listenAddr : String
  peers : List String

namespace Explorer

variable {F : Type} [Crypto]

/-! ## Booting -/

/-- Proof of work as `KOVANICA_POW` asks for. -/
def enforced (host : Host F) (n : Node) : Node :=
  if host.flag "KOVANICA_POW" true then
    match n.setProofOfWork true with
    | .ok n => n
    | .error _ => n
  else n

/-- `genesis_node()`. -/
def genesisNode (host : Host F) (env : Env) : Outcome Empty Node :=
  match (Node.new.setNowMs (1700000000000 + 1000)).genesis env 3 (50 * atom) (50 * atom) 1 with
  | .ok (_, n) => .ok (enforced host n)
  | .error _ => .error (.panic "genesis")

/-- The miner of a loaded node. -/
def restoreMiner (dir : DataDir F) (files : F) (name : String) (n : Node) : Node :=
  match readToString dir files (minerPath name) with
  | none => n.setMiner (Node.address 1)
  | some h =>
      match parseAddr (trim h) with
      | .ok addr => n.setMiner addr
      | .error _ => n

/-- `load_or_genesis(name)`. -/
def loadOrGenesis (host : Host F) (env : Env) (files : F) (name : String) : Outcome Empty Node :=
  if host.dir.isFile files (snapPath name) then
    match Node.new.loadFile host.dir.toFileSystem env files (snapPath name) with
    | .ok n => .ok (enforced host (restoreMiner host.dir files name n))
    | .error (.error _) => genesisNode host env
    | .error (.panic site) => .error (.panic site)
  else genesisNode host env

/-- The mesh `boot_persist` brings up, before it is drained. -/
def bootMesh (host : Host F) (envs : Nat → Env) (files : F) : Outcome Empty Mesh := do
  let alpha ← loadOrGenesis host (envs 0) files "alpha"
  let mesh := Mesh.new.add "alpha" alpha
  if host.flag "KOVANICA_DEMO_MESH" false then
    let beta ← loadOrGenesis host (envs 1) files "beta"
    let gamma ← loadOrGenesis host (envs 2) files "gamma"
    let mesh := (mesh.add "beta" beta).add "gamma" gamma
    let mesh ← mesh.attempt ((mesh.connect "alpha" "beta").map fun m => ((), m))
    mesh.attempt ((mesh.connect "beta" "gamma").map fun m => ((), m))
  else return mesh

/-- `Explorer::boot_persist()`, of a process that has a listener already or not. -/
def bootPersist (host : Host F) (held : Bool) (envs : Nat → Nat → Env) (files : F) :
    Outcome Empty (Explorer × F) := do
  let files := ensureNetwork host.dir files
  let mesh ← bootMesh host (envs 0) files
  let (_, mesh) ← mesh.drain (fun i => envs (i + 2)) 16
  let files := persistAll host.dir (envs 1) mesh files
  let app : Explorer :=
    { mesh := mesh
      selected := "alpha"
      mining := host.flag "KOVANICA_MINE" false
      ticks := 0
      rotate := 0
      faucet := host.flag "KOVANICA_FAUCET" false
      allowReset := host.flag "KOVANICA_ALLOW_RESET" false
      operator := host.flag "KOVANICA_OPERATOR" false
      listen := (host.bindP2p held).isSome
      listenAddr := (host.bindP2p held).join.getD ""
      peers := host.peerList }
  return (app, files)

/-! ## Ticking -/

/-- What reaches the process in a tick: whether a peer has connected, and what dialling
each of its own peers comes to. -/
structure Traffic where
  caller : Bool
  streams : Nat → Except String (List U8)

/-- The pulls of `tick_p2p`, one peer after the other. -/
def pullAll (envs : Nat → Nat → Env) (streams : Nat → Except String (List U8)) :
    Nat → List String → Node → Outcome Empty Node
  | _, [], n => .ok n
  | i, _ :: rest, n =>
      match Net.pullBlocks (envs i) (streams i) n with
      | (.error (.panic site), _) => .error (.panic site)
      | (_, n) => pullAll envs streams (i + 1) rest n

/-- What `tick_p2p` writes to a peer that has connected. -/
def served (env : Env) (app : Explorer) (traffic : Traffic) : Option (List U8) :=
  if app.listen && traffic.caller then
    (app.mesh.nodes.lookup "alpha").map fun n => Net.serveBlocks env n
  else none

/-- The pulls of `tick_p2p`. -/
def tickP2p (host : Host F) (envs : Nat → Nat → Env) (app : Explorer) (files : F)
    (traffic : Traffic) : Outcome Empty (Explorer × F) :=
  if app.peers.isEmpty ∨ app.ticks.val % 250 ≠ 0 then .ok (app, files)
  else
    match app.mesh.nodes.lookup "alpha" with
    | none => .ok (app, persistAll host.dir (envs 0) app.mesh files)
    | some n => do
        let n ← pullAll (fun i => envs (i + 1)) traffic.streams 0 app.peers n
        let mesh := { app.mesh with nodes := app.mesh.nodes.insert "alpha" n }
        return ({ app with mesh := mesh }, persistAll host.dir (envs 0) mesh files)

/-- The mining of a tick. -/
def tickMine (host : Host F) (envs : Nat → Env) (app : Explorer) (files : F) :
    Outcome Empty (Explorer × F) :=
  if !app.mining ∨ app.ticks.val % 120 ≠ 0 then .ok (app, files)
  else
    let names := app.mesh.names
    match names[app.rotate.val % names.length]? with
    | none => .ok (app, files)
    | some name => do
        let mesh ← app.mesh.attempt (app.mesh.produceEmpty (envs 0) name)
        return ({ app with mesh := mesh, rotate := app.rotate + 1 },
          persistAll host.dir (fun i => envs (i + 1)) mesh files)

/-- `tick()`: what it writes to a peer that has connected is beside. -/
def tick (host : Host F) (envs : Nat → Nat → Env) (app : Explorer) (files : F)
    (traffic : Traffic) : Outcome Empty (Option (List U8) × Explorer × F) := do
  let (_, mesh) ← app.mesh.tick (envs 0)
  let app := { app with mesh := mesh, ticks := app.ticks + 1 }
  let written := app.served (envs 1 0) traffic
  let (app, files) ← app.tickP2p host (fun i => envs (i + 3)) files traffic
  let (app, files) ← app.tickMine host (envs 2) files
  return (written, app, files)

/-! ## Requests that act -/

open Rpc (said lift)

/-- `select(name)`. -/
def select (app : Explorer) (name : String) : Explorer :=
  if name ∈ app.mesh.nodes then { app with selected := name } else app

/-- `select(q.get("node"))`, if the request names a node. -/
def selectIn (app : Explorer) (q : Query) : Explorer :=
  match q.lookup "node" with
  | none => app
  | some name => app.select name

/-- The node a request is about. -/
def nodeIn (app : Explorer) (q : Query) : String := (q.lookup "node").getD app.selected

/-- The actions that only the operator may take. -/
def operatorActions : List String :=
  ["empty", "send", "pool", "parallel", "fork", "mining", "miner"]

/-- An empty block on each of these nodes, whether they take it or not. -/
def forkAll (envs : Nat → Env) : Nat → List String → Mesh → Outcome Empty Mesh
  | _, [], m => .ok m
  | i, name :: rest, m => do
      let m ← m.attempt (m.produceEmpty (envs i) name)
      forkAll envs (i + 1) rest m

/-- An action of the operator: the body of the answer, if it answers at once. -/
def operate (envs : Nat → Env) (app : Explorer) (action : String) (q : Query) :
    Outcome String (Option String × Explorer) :=
  let node := app.nodeIn q
  match action with
  | "empty" => do
      let (_, mesh) ← said P2pError.display (app.mesh.produceEmpty (envs 0) node)
      return (none, { app with mesh := mesh })
  | "send" => do
      let fromSeed ← lift (parseU64 q "from" 1)
      let amount ← lift (parseU64 q "amount" 50)
      let toSeed ← lift (parseU64 q "to" 2)
      let (_, mesh) ← said P2pError.display (app.mesh.send (envs 0) node fromSeed amount toSeed)
      return (none, { app with mesh := mesh })
  | "pool" => do
      let fromSeed ← lift (parseU64 q "from" 1)
      let amount ← lift (parseU64 q "amount" 50)
      let toSeed ← lift (parseU64 q "to" 2)
      let (_, mesh) ← said P2pError.display (app.mesh.pool (envs 0) node fromSeed amount toSeed)
      return (none, { app with mesh := mesh })
  | "parallel" => do
      let mesh ← infallible (app.mesh.attempt (app.mesh.send (envs 0) "alpha" 1 atom 2))
      let mesh ← infallible (mesh.attempt (mesh.send (envs 1) "beta" 1 atom 3))
      return (none, { app with mesh := mesh })
  | "fork" => do
      let mesh ← infallible (forkAll envs 0 app.mesh.names app.mesh)
      return (none, { app with mesh := mesh })
  | "mining" =>
      .ok (none, { app with mining := ((q.lookup "on").map fun v => v != "0").getD true })
  | "miner" => do
      let addr ← lift (required q "addr" "addr required")
      let addr ← lift (parseAddr addr)
      match app.mesh.nodes.lookup node with
      | none => .error (.error "unknown node")
      | some n =>
          let mesh := { app.mesh with nodes := app.mesh.nodes.insert node (n.setMiner addr) }
          return (some s!"\x7b\"ok\":true,\"miner\":{jstr addr.toHex}\x7d",
            { app with mesh := mesh })
  | _ => .ok (none, app)

/-- The mesh with what is queued delivered, as far as eight ticks go. -/
def drained (envs : Nat → Nat → Env) (app : Explorer) : Outcome String Explorer := do
  let (_, mesh) ← infallible (app.mesh.drain envs 8)
  return { app with mesh := mesh }

/-- The answer to an action that has nothing more to say. -/
def okBody : String := "\x7b\"ok\":true\x7d"

/-- The answer to `prepare`. -/
def preparedJson (amount : U64) (p : Prepared) : String :=
  let change := Word.saturatingSub p.value (Word.saturatingAdd amount p.fee)
  s!"\x7b\"ok\":true,\"sighash\":{jstr (hexEncode p.sighash)},\"value\":{p.value.val}," ++
    s!"\"fee\":{p.fee.val},\"change\":{change.val}," ++
    s!"\"outpoint\":\x7b\"tx\":{jstr p.outpoint.tx.display},\"index\":{p.outpoint.index.val}\x7d\x7d"

/-- The action `produce`. -/
def produceAction (envs : Nat → Nat → Env) (app : Explorer) (files : F) (q : Query) :
    Outcome String (String × Explorer × F) := do
  let drains := fun i => envs (i + 1)
  match ← said P2pError.display (app.mesh.produce (envs 0 0) (app.nodeIn q)) with
  | (some _, mesh) => return (okBody, ← { app with mesh := mesh }.drained drains, files)
  | (none, mesh) =>
      if !app.operator then .error (.error "mempool empty")
      else
        let (_, mesh) ← said P2pError.display (mesh.produceEmpty (envs 0 1) (app.nodeIn q))
        return (okBody, ← { app with mesh := mesh }.drained drains, files)

/-- The action `reset`. -/
def resetAction (host : Host F) (envs : Nat → Nat → Env) (app : Explorer) (files : F) :
    Outcome String (String × Explorer × F) :=
  if !app.allowReset then .error (.error "reset disabled on this network")
  else do
    let (app, files) ← infallible
      (bootPersist host app.listen (fun i => envs (i + 9)) (wipeData host.dir files))
    return (okBody, ← app.drained fun i => envs (i + 1), files)

/-- The action `prepare`. -/
def prepareAction (env : Env) (app : Explorer) (q : Query) : Outcome String String := do
  let sender ← lift (required q "from" "from address required")
  let sender ← lift (parseAddr sender)
  let recipient ← lift (required q "to" "to address required")
  let recipient ← lift (parseAddr recipient)
  let amount ← lift (parseU64 q "amount" 0)
  match app.mesh.nodes.lookup (app.nodeIn q) with
  | none => .error (.error "unknown node")
  | some n =>
      let p ← said NodeError.display (n.prepareTransfer env sender amount recipient)
      return preparedJson amount p

/-- The action `submit`. -/
def submitAction (envs : Nat → Nat → Env) (app : Explorer) (files : F) (q : Query) :
    Outcome String (String × Explorer × F) := do
  let sender ← lift (required q "from" "from address required")
  let sender ← lift (parseAddr sender)
  let recipient ← lift (required q "to" "to address required")
  let recipient ← lift (parseAddr recipient)
  let amount ← lift (parseU64 q "amount" 0)
  let sig ← lift (required q "sig" "sig required")
  let sig ← lift (parseSig sig)
  let (id, mesh) ← said P2pError.display
    (app.mesh.submitSigned (envs 0 0) (app.nodeIn q) sender amount recipient sig)
  let app ← { app with mesh := mesh }.drained fun i => envs (i + 1)
  return (s!"\x7b\"ok\":true,\"tx\":{jstr id.display}\x7d", app, files)

/-- The action `faucet`. -/
def faucetAction (envs : Nat → Nat → Env) (app : Explorer) (files : F) (q : Query) :
    Outcome String (String × Explorer × F) :=
  if !app.faucet then .error (.error "faucet disabled")
  else do
    let recipient ← lift (required q "to" "to address required")
    let recipient ← lift (parseAddr recipient)
    let amount ← lift (parseU64 q "amount" atom)
    let (block, mesh) ← said P2pError.display
      (app.mesh.sendTo (envs 0 0) (app.nodeIn q) 1 amount recipient)
    let app ← { app with mesh := mesh }.drained fun i => envs (i + 1)
    return (s!"\x7b\"ok\":true,\"block\":{jstr block.display}\x7d", app, files)

/-- `dispatch(app, action, q)`. -/
def dispatch (host : Host F) (envs : Nat → Nat → Env) (app : Explorer) (files : F)
    (action : String) (q : Query) : Outcome String (String × Explorer × F) :=
  if action ∈ operatorActions then
    if !app.operator then .error (.error "operator only")
    else do
      match ← app.operate (envs 0) action q with
      | (some body, app) => return (body, app, files)
      | (none, app) => return (okBody, ← app.drained fun i => envs (i + 1), files)
  else
    match action with
    | "produce" => app.produceAction envs files q
    | "reset" => app.resetAction host envs files
    | "prepare" => do return (← app.prepareAction (envs 0 0) q, app, files)
    | "submit" => app.submitAction envs files q
    | "faucet" => app.faucetAction envs files q
    | other => .error (.error s!"unknown action {other}")

/-! ## Requests that ask -/

/-- The node a `GET` asks, by the name in the request or the selected one. -/
def nodeFor (app : Explorer) (q : Query) : Except String Node :=
  match app.mesh.nodes.lookup (app.nodeIn q) with
  | none => .error "unknown node"
  | some n => .ok n

/-- `history_json(app, q)`. -/
def historyBody (env : Env) (app : Explorer) (q : Query) : Outcome String String := do
  let addr ← lift (required q "address" "address required")
  let addr ← lift (parseAddr addr)
  let n ← lift (app.nodeFor q)
  let h ← said NodeError.display (history env n addr)
  return historyJson h

/-- `utxos_json(app, q)`. -/
def utxosBody (env : Env) (app : Explorer) (q : Query) : Outcome String String := do
  let addr ← lift (required q "address" "address required")
  let addr ← lift (parseAddr addr)
  let n ← lift (app.nodeFor q)
  let bal ← said NodeError.display (n.balance env addr)
  let rows ← said NodeError.display (n.utxosOf env addr)
  return utxosJson addr bal rows

/-- The peers `/api/bootstrap` lists. -/
def bootstrapPeers (app : Explorer) : List String :=
  app.peers ++ [app.listenAddr].filter fun s => !s.isEmpty

/-- The body of `/api/bootstrap`. -/
def bootstrapJson (app : Explorer) : String :=
  let n := app.mesh.nodes.lookup app.selected
  let ledger := n.bind Node.ledger
  let genesis := (ledger.map fun l => l.genesis.display).getD ""
  let tip := (ledger.map fun l => l.dag.selectedTip.display).getD ""
  let pow := (ledger.map fun l => l.dag.requirePow).getD false
  let minFee := (n.map Node.minFee).getD 0
  s!"\x7b\"network\":{jstr network},\"genesis\":{jstr genesis},\"tip\":{jstr tip}," ++
    s!"\"listen\":{jstr app.listenAddr},\"peers\":{jarr (app.bootstrapPeers.map jstr)}," ++
    s!"\"pow\":{pow},\"min_fee\":{minFee.val},\"atom\":{atom.val}," ++
    s!"\"token\":\"KVNC\",\"k\":3\x7d"

/-- The body of `/api/head`, for the selected node. -/
def headJson (n : Node) : String :=
  let genesis := (n.ledger.map fun l => l.genesis.display).getD ""
  let tip := (n.ledger.map fun l => l.dag.selectedTip.display).getD ""
  let blocks := (n.ledger.map fun l => l.dag.len).getD 0
  s!"\x7b\"network\":{jstr network},\"genesis\":{jstr genesis},\"tip\":{jstr tip}," ++
    s!"\"blocks\":{blocks},\"min_fee\":{n.minFee.val},\"atom\":{atom.val}\x7d"

/-- `format!("{:?}", kind).to_lowercase()`. -/
def kindText : GossipKind → String
  | .hello => "hello"
  | .block => "block"
  | .tx => "tx"

/-- A node in the list `snapshot` gives. -/
def meshNodeJson (m : Mesh) (name : String) (n : Node) : String :=
  let blocks := (n.ledger.map fun l => l.dag.len).getD 0
  let tip := (n.ledger.map fun l => l.dag.selectedTip.display).getD ""
  let peers := jarr ((m.peersOf name).map jstr)
  s!"\x7b\"name\":{jstr name},\"blocks\":{blocks},\"tip\":{jstr tip},\"peers\":{peers}," ++
    s!"\"mempool\":{n.mempool.len}\x7d"

/-- A delivered envelope in the list `snapshot` gives. -/
def eventJson (e : GossipEvent) : String :=
  s!"\x7b\"at\":{e.time.val},\"from\":{jstr e.sender},\"to\":{jstr e.recipient}," ++
    s!"\"kind\":{jstr (kindText e.kind)}\x7d"

/-- The nodes of the mesh with their names: each name is that of a node. -/
def namedNodes (m : Mesh) : List (String × Node) :=
  m.names.filterMap fun name => (m.nodes.lookup name).map fun n => (name, n)

/-- The events `snapshot` lists: the last ones, newest first. -/
def recentEvents (m : Mesh) : List GossipEvent := m.events.reverse.take 48

/-- `snapshot(app)`. -/
def snapshotBody (env : Env) (app : Explorer) : Outcome Empty String :=
  match app.mesh.nodes.lookup app.selected with
  | none => .error (.panic "selected exists")
  | some n => do
      let nodes := jarr ((namedNodes app.mesh).map fun row => meshNodeJson app.mesh row.1 row.2)
      let events := jarr ((recentEvents app.mesh).map eventJson)
      let peers := jarr (app.peers.map jstr)
      let node ← nodeJson env n
      let wallets ← walletsJson env n
      return s!"\x7b\"selected\":{jstr app.selected},\"mining\":{app.mining}," ++
        s!"\"faucet\":{app.faucet},\"allow_reset\":{app.allowReset}," ++
        s!"\"operator\":{app.operator},\"network\":{jstr network}," ++
        s!"\"listen\":{jstr app.listenAddr},\"peers\":{peers}," ++
        s!"\"mesh\":\x7b\"now\":{app.mesh.now.val},\"queued\":{app.mesh.queue.length}," ++
        s!"\"nodes\":{nodes},\"events\":{events}\x7d,\"node\":{node},\"wallets\":{wallets}\x7d"

/-! ## Answers -/

/-- An answer: its status, its content type, the file name it suggests and its body. -/
structure Response where
  code : Nat
  contentType : String
  filename : Option String
  body : List U8

namespace Response

/-- `respond(stream, code, ctype, body)`. -/
def plain (code : Nat) (contentType : String) (body : String) : Response :=
  ⟨code, contentType, none, utf8 body⟩

/-- A body of `/api/`. -/
def json (body : String) : Response := plain 200 "application/json" body

/-- An error of `/api/`. -/
def refusal (e : String) : Response := plain 400 "text/plain; charset=utf-8" e

def notFound : Response := plain 404 "text/plain; charset=utf-8" "not found"

def reason (code : Nat) : String :=
  if code = 200 then "OK" else if code = 400 then "Bad Request" else "Not Found"

/-- The head `respond` writes, and `respond_download` for a file. -/
def head (r : Response) : String :=
  let disposition := match r.filename with
    | none => ""
    | some filename => s!"Content-Disposition: attachment; filename=\"{filename}\"\r\n"
  s!"HTTP/1.1 {r.code} {reason r.code}\r\nContent-Type: {r.contentType}\r\n{disposition}" ++
    s!"Content-Length: {r.body.length}\r\nCache-Control: no-store\r\nConnection: close\r\n\r\n"

/-- What is written to the stream. -/
def bytes (r : Response) : List U8 := utf8 r.head ++ r.body

end Response

/-- The first line of a request. -/
def firstLine : List Char → List Char
  | [] => []
  | '\r' :: '\n' :: _ => []
  | c :: rest => c :: firstLine rest

/-- `path.starts_with("/api/")`. -/
def isApi (path : String) : Bool := ['/', 'a', 'p', 'i', '/'].isPrefixOf path.toList

/-- `path.trim_start_matches("/api/")`. -/
def trimApi : List Char → List Char
  | '/' :: 'a' :: 'p' :: 'i' :: '/' :: rest => trimApi rest
  | path => path

/-- What the first line of a request asks for. -/
structure Request where
  method : String
  path : String
  query : Query

/-- The request in the text of a stream. -/
def readRequest (req : String) : Request :=
  let parts := words (String.ofList (firstLine req.toList))
  let (path, query) := splitQuery (parts[1]?.getD "/")
  ⟨parts[0]?.getD "GET", path, query⟩

/-- What a request leaves: the answer, the process and its files.  The files may have changed even
where the answer is an error. -/
structure Handled (F : Type) where
  response : Response
  app : Explorer
  files : F

/-- The answer that the text of a call is, or the error it ends in. -/
def answer (app : Explorer) (files : F) : Outcome String String → Outcome Empty (Handled F)
  | .ok body => .ok ⟨.json body, app, files⟩
  | .error (.error e) => .ok ⟨.refusal e, app, files⟩
  | .error (.panic site) => .error (.panic site)

/-- The paths of the page. -/
def pagePaths : List String := ["/", "/index.html", "/wallet"]

/-- The answers of `handle` that do not look at the nodes. -/
def page (host : Host F) (method path : String) : Option Response :=
  if method = "HEAD" ∧ path ∈ pagePaths then
    some (.plain 200 "text/html; charset=utf-8" "")
  else if method ≠ "GET" then none
  else if path ∈ pagePaths then some (.plain 200 "text/html; charset=utf-8" host.ui)
  else if path = "/bip39.txt" then some (.plain 200 "text/plain; charset=utf-8" host.bip39)
  else if path = "/kovanica-explorer-wallet.patch" then
    some ⟨200, "text/x-patch; charset=utf-8", some "kovanica-explorer-wallet.patch", host.patch⟩
  else if path = "/docs" then some (.plain 200 "text/plain; charset=utf-8" host.docs)
  else none

/-- The answers of `handle` to a `GET` that asks the nodes. -/
def ask (env : Env) (app : Explorer) (files : F) (path : String) (query : Query) :
    Outcome Empty (Handled F) :=
  match path with
  | "/api/bootstrap" => .ok ⟨.json app.bootstrapJson, app, files⟩
  | "/api/state" => do
      let app := app.selectIn query
      let body ← app.snapshotBody env
      return ⟨.json body, app, files⟩
  | "/api/head" =>
      match app.mesh.nodes.lookup app.selected with
      | none => .ok ⟨.notFound, app, files⟩
      | some n => .ok ⟨.json (headJson n), app, files⟩
  | "/api/history" => answer app files (app.historyBody env query)
  | "/api/utxos" => answer app files (app.utxosBody env query)
  | _ => .ok ⟨.notFound, app, files⟩

/-- The answer of `handle` to a `POST`: what it leaves is written to the files. -/
@[irreducible]
def act (host : Host F) (envs : Nat → Nat → Env) (app : Explorer) (files : F) (path : String)
    (query : Query) : Outcome Empty (Handled F) :=
  let action := String.ofList (trimApi path.toList)
  let app := app.selectIn query
  match app.dispatch host (fun i => envs (i + 1)) files action query with
  | .ok (body, app, files) => .ok ⟨.json body, app, persistAll host.dir (envs 0) app.mesh files⟩
  | .error (.error e) => .ok ⟨.refusal e, app, files⟩
  | .error (.panic site) => .error (.panic site)

/-- `handle(app, stream)`, on the text of the request. -/
@[irreducible]
def handle (host : Host F) (envs : Nat → Nat → Env) (app : Explorer) (files : F)
    (req : String) : Outcome Empty (Handled F) :=
  let r := readRequest req
  match page host r.method r.path with
  | some response => .ok ⟨response, app, files⟩
  | none =>
      if r.method = "GET" then app.ask (envs 0 0) files r.path r.query
      else if r.method = "POST" ∧ isApi r.path then app.act host envs files r.path r.query
      else .ok ⟨.notFound, app, files⟩

/-! ## The loop -/

/-- What the loop of `serve` comes upon: a request, or none, and then it ticks.  A tick comes with
the traffic that the pulls of that tick meet. -/
inductive Event where
  | request (text : String)
  | tick (traffic : Traffic)

/-- One round of the loop: the answer to the request, if there was one. -/
@[irreducible]
def round (host : Host F) (envs : Nat → Nat → Env) (app : Explorer) (files : F) :
    Event → Outcome Empty (Option Response × Explorer × F)
  | .request text => do
      let handled ← app.handle host envs files text
      return (some handled.response, handled.app, handled.files)
  | .tick traffic => do
      let (_, app, files) ← app.tick host envs files traffic
      return (none, app, files)

/-- Rounds in turn, each in its own surroundings: the answers given, and how the loop was
left. -/
def rounds (host : Host F) : List ((Nat → Nat → Env) × Event) → Explorer → F →
    List Response × Outcome Empty (Explorer × F)
  | [], app, files => ([], .ok (app, files))
  | (envs, event) :: rest, app, files =>
      match app.round host envs files event with
      | .error e => ([], .error e)
      | .ok (response, app, files) =>
          let (responses, left) := rounds host rest app files
          (response.toList ++ responses, left)

/-- `serve(addr)`: boot and run the loop. -/
def serve (host : Host F) (envs : Nat → Nat → Env) (files : F)
    (events : List ((Nat → Nat → Env) × Event)) : List Response × Outcome Empty (Explorer × F) :=
  match bootPersist host false envs files with
  | .error e => ([], .error e)
  | .ok (app, files) => rounds host events app files

end Explorer

end Kovanica
