import Kovanica.Node.Uptime

/-!
# What a client reads from an answer

The bodies under `/api/` are put together as text.  Each is the text of a JSON value, and a
JSON reader that is given the body gets that value back; where the body repeats strings of
the host, exactly if these are legible.

What the strings of the host are made of is not known here.  All others are ids, addresses,
numbers and the fixed names of the source, in which no control character stands.
-/

namespace Kovanica

open Lib

variable {F : Type}

namespace Explorer

open Json

/-! ## Texts and their values -/

theorem foldl_jstr (cs : List Char) (out : String) : (cs.foldl (fun out c =>
    if c = '"' then out ++ "\\\""
    else if c = '\\' then out ++ "\\\\"
    else if c = '\n' then out ++ "\\n"
    else out.push c) out).toList = out.toList ++ cs.flatMap escape := by
  induction cs generalizing out with
  | nil => simp
  | cons c cs ih =>
      rw [List.foldl_cons, ih, List.flatMap_cons, ← List.append_assoc, escape]
      split
      · simp
      split
      · simp
      split
      · simp
      · simp

@[simp] theorem toList_jstr (s : String) : (jstr s).toList = quoted s := by
  rw [jstr, String.toList_append, foldl_jstr]
  simp [quoted]

@[simp] theorem toString_string (s : String) : toString s = s := rfl

@[simp] theorem toString_bool (b : Bool) : (toString b).toList = boolChars b := by cases b <;> rfl

@[simp] theorem repr_zero : (0 : Int).repr = "0" := rfl

@[simp] theorem repr_three : (3 : Int).repr = "3" := rfl

@[simp] theorem repr_eight : (8 : Int).repr = "8" := rfl

@[simp] theorem repr_ofNat (n : Nat) : (n : Int).repr = n.repr := rfl

theorem toList_jarr {α : Type} (items : List α) {f : α → String} {g : α → Json}
    (h : ∀ x, (f x).toList = (g x).chars) :
    (jarr (items.map f)).toList = (arr (items.map g)).chars := by
  have htexts : (items.map f).map String.toList = itemTexts (items.map g) := by
    rw [itemTexts_eq, List.map_map, List.map_map]
    exact List.map_congr_left fun x _ => h x
  simp [jarr, chars, joined, ← htexts, String.toList_intercalate]

theorem eq_text {s : String} {v : Json} (h : s.toList = v.chars) : s = v.text := by
  rw [text, ← h, String.ofList_toList]

/-- The text of a list of texts. -/
theorem toList_jarr_strings {α : Type} (items : List α) (f : α → String) :
    (jarr (items.map fun x => jstr (f x))).toList = (arr (items.map fun x => str (f x))).chars :=
  toList_jarr items fun x => by rw [toList_jstr, chars]

/-! ## Transactions and blocks -/

/-- A text, or `null`. -/
def strOrNull (s : Option String) : Json := (s.map str).getD null

@[simp] theorem toList_jstrOrNull (s : Option String) :
    (jstrOrNull s).toList = (strOrNull s).chars := by
  cases s with
  | none => simp [jstrOrNull, strOrNull, chars]
  | some s => simp [jstrOrNull, strOrNull, chars]

def outputValue (o : TxOutput) : Json :=
  obj [("value", num o.value.val), ("owner", str o.owner.toHex)]

def outputsValue (tx : Transaction) : Json := arr (tx.outputs.map outputValue)

@[simp] theorem toList_outputsJson (tx : Transaction) :
    (outputsJson tx).toList = (outputsValue tx).chars := by
  apply toList_jarr
  intro o
  simp [outputValue, chars, memberTexts, joined, quoted, escape]

section Blocks

variable [Crypto]

def txValue (tx : Transaction) : Json :=
  obj [("id", str tx.id.display), ("coinbase", bool tx.isCoinbase),
    ("inputs", num tx.inputs.length), ("outputs", outputsValue tx)]

theorem toList_txJson (tx : Transaction) : (txJson tx).toList = (txValue tx).chars := by
  simp [txJson, txValue, chars, memberTexts, joined, quoted, escape]

def pendingValue (state : UtxoSet) (tx : Transaction) : Json :=
  obj [("id", str tx.id.display), ("coinbase", bool tx.isCoinbase),
    ("fee", num (feeOf state tx).val), ("inputs", num tx.inputs.length),
    ("outputs", outputsValue tx)]

theorem toList_pendingJson (state : UtxoSet) (tx : Transaction) :
    (pendingJson state tx).toList = (pendingValue state tx).chars := by
  simp [pendingJson, pendingValue, chars, memberTexts, joined, quoted, escape]

def blockValue (d : DagView) (id : BlockId) (rec : BlockRecord) (g : GhostdagData) : Json :=
  obj [("id", str id.display),
    ("parents", arr (rec.parents.val.map fun p => str p.display)),
    ("selected_parent", strOrNull (g.selectedParent.map BlockId.display)),
    ("work", num rec.work.val), ("timestamp_ms", num rec.timestampMs.val),
    ("nonce", num rec.nonce.val), ("blue_score", num g.blueScore),
    ("colour", str (colourOf id d.genesis d.selectedChain (blueSet d))),
    ("txs", arr (rec.txs.val.map txValue))]

theorem toList_blockJson (d : DagView) (id : BlockId) (rec : BlockRecord) (g : GhostdagData) :
    (blockJson d id rec g).toList = (blockValue d id rec g).chars := by
  have hparents := toList_jarr_strings rec.parents.val BlockId.display
  have htxs := toList_jarr rec.txs.val toList_txJson
  simp [blockJson, blockValue, hparents, htxs, chars, memberTexts, joined, quoted, escape]

/-! ## A node -/

/-- The value of `node_json`. -/
def nodeValue (env : Env) (n : Node) : Outcome Empty Json :=
  match n.ledger with
  | none => .ok (obj [("blocks", num 0), ("dag", arr []), ("order", arr []), ("tips", arr []),
      ("pending", arr [])])
  | some ledger => do
      let d := ledger.dag.toDagView
      let g := d.ghostdag d.selectedTip
      let state ← orPanic "selected tip has a stored state" (ledger.ledgerState env.ord)
      return obj [("blocks", num d.len), ("tips", arr (d.tipList.map fun t => str t.display)),
        ("selected_tip", str d.selectedTip.display),
        ("blue_score", num ((g.map GhostdagData.blueScore).getD 0)),
        ("blue_work", num ((g.map GhostdagData.blueWork).getD 0).val), ("k", num d.k.val),
        ("subsidy", num ledger.subsidy.val), ("issuance", num n.issuance.val),
        ("halving_era", num halvingEra.val), ("min_fee", num n.minFee.val),
        ("genesis", str ledger.genesis.display), ("supply", num state.totalValue),
        ("token", str "KVNC"), ("decimals", num 8),
        ("miner", strOrNull (n.miner.map Address.toHex)), ("atom", num atom.val),
        ("pow", bool d.requirePow), ("ui", str "v5"), ("utxos", num state.keys.card),
        ("chain_len", num d.selectedChain.length), ("mempool", num n.mempool.len),
        ("tx_count", num (txCount env n d)),
        ("dag", arr ((blockRows env n d).map fun row => blockValue d row.1 row.2.1 row.2.2)),
        ("order", arr ((d.linearize env.ord).map fun id => str id.display)),
        ("pending", arr ((n.mempool.ordered env.ord).map (pendingValue state)))]

set_option maxRecDepth 4000 in
theorem nodeJson_eq (env : Env) (n : Node) :
    nodeJson env n = (nodeValue env n).map Json.text := by
  unfold nodeJson nodeValue
  cases n.ledger with
  | none =>
      apply congrArg Except.ok
      apply eq_text
      simp [itemTexts, chars, memberTexts, joined, quoted, escape]
  | some l =>
      dsimp only
      cases l.ledgerState env.ord with
      | none => rfl
      | some state =>
          apply congrArg Except.ok
          apply eq_text
          have htips := toList_jarr_strings l.dag.tipList BlockId.display
          have horder := toList_jarr_strings (l.dag.linearize env.ord) BlockId.display
          have hdag := toList_jarr (blockRows env n l.dag.toDagView)
            (f := fun row => blockJson l.dag.toDagView row.1 row.2.1 row.2.2)
            fun row => toList_blockJson l.dag.toDagView row.1 row.2.1 row.2.2
          have hpending := toList_jarr (n.mempool.ordered env.ord) (toList_pendingJson state)
          simp [htips, horder, hdag, hpending, chars, memberTexts, joined, quoted, escape]

end Blocks

/-! ## The process -/

section Process

variable [Crypto]

/-- The value of an actor in `wallets_json`. -/
def walletValue (env : Env) (n : Node) (seed : U64) : Outcome Empty Json := do
  let addr := Node.address seed
  let bal ← unwrapOr 0 (n.balance env addr)
  return obj [("seed", num seed.val), ("address", str addr.toHex), ("balance", num bal)]

theorem walletJson_eq (env : Env) (n : Node) (seed : U64) :
    walletJson env n seed = (walletValue env n seed).map Json.text := by
  unfold walletJson walletValue
  dsimp only
  cases unwrapOr 0 (n.balance env (Node.address seed)) with
  | error e => rfl
  | ok bal =>
      apply congrArg Except.ok
      apply eq_text
      simp [chars, memberTexts, joined, quoted, escape]

/-- The value of `wallets_json`. -/
def walletsValue (env : Env) (n : Node) : Outcome Empty Json := do
  return arr (← actors.mapM (walletValue env n))

omit [Crypto] in
theorem jarr_text (vs : List Json) : jarr (vs.map Json.text) = (arr vs).text := by
  apply eq_text
  have htexts := toList_jarr vs (f := Json.text) (g := fun v => v) fun v => String.toList_ofList
  rw [htexts, List.map_id']

theorem walletsJson_eq (env : Env) (n : Node) :
    walletsJson env n = (walletsValue env n).map Json.text := by
  have hrows : ∀ seeds : List U64, seeds.mapM (walletJson env n) =
      (seeds.mapM (walletValue env n)).map fun vs => vs.map Json.text := by
    intro seeds
    induction seeds with
    | nil => rfl
    | cons seed rest ih =>
        rw [List.mapM_cons, List.mapM_cons, walletJson_eq, ih]
        cases walletValue env n seed with
        | error e => rfl
        | ok v => cases rest.mapM (walletValue env n) <;> rfl
  unfold walletsJson walletsValue
  rw [hrows]
  cases actors.mapM (walletValue env n) with
  | error e => rfl
  | ok vs => exact congrArg Except.ok (jarr_text vs)

/-- The value of the body of `/api/head`. -/
def headValue (n : Node) : Json :=
  let blocks : Nat := (n.ledger.map fun l => l.dag.len).getD 0
  obj [("network", str network),
    ("genesis", str ((n.ledger.map fun l => l.genesis.display).getD "")),
    ("tip", str ((n.ledger.map fun l => l.dag.selectedTip.display).getD "")),
    ("blocks", num blocks), ("min_fee", num n.minFee.val),
    ("atom", num atom.val)]

omit [Crypto] in
theorem headJson_eq (n : Node) : headJson n = (headValue n).text := by
  apply eq_text
  simp [headJson, headValue, chars, memberTexts, joined, quoted, escape]

/-- The value of the body of `/api/bootstrap`. -/
def bootstrapValue (app : Explorer) : Json :=
  let n := app.mesh.nodes.lookup app.selected
  let ledger := n.bind Node.ledger
  let genesis := (ledger.map fun l => l.genesis.display).getD ""
  let tip := (ledger.map fun l => l.dag.selectedTip.display).getD ""
  let pow := (ledger.map fun l => l.dag.requirePow).getD false
  let minFee := (n.map Node.minFee).getD 0
  obj [("network", str network), ("genesis", str genesis), ("tip", str tip),
    ("listen", str app.listenAddr), ("peers", arr (app.bootstrapPeers.map str)),
    ("pow", bool pow), ("min_fee", num minFee.val), ("atom", num atom.val),
    ("token", str "KVNC"), ("k", num 3)]

omit [Crypto] in
theorem bootstrapJson_eq (app : Explorer) : app.bootstrapJson = app.bootstrapValue.text := by
  apply eq_text
  have hpeers := toList_jarr_strings app.bootstrapPeers fun s => s
  unfold bootstrapJson bootstrapValue
  extract_lets n ledger genesis tip pow minFee
  clear_value genesis tip pow minFee
  simp [hpeers, chars, memberTexts, joined, quoted, escape]

def meshNodeValue (m : Mesh) (name : String) (n : Node) : Json :=
  let blocks : Nat := (n.ledger.map fun l => l.dag.len).getD 0
  obj [("name", str name), ("blocks", num blocks),
    ("tip", str ((n.ledger.map fun l => l.dag.selectedTip.display).getD "")),
    ("peers", arr ((m.peersOf name).map str)), ("mempool", num n.mempool.len)]

omit [Crypto] in
theorem toList_meshNodeJson (m : Mesh) (name : String) (n : Node) :
    (meshNodeJson m name n).toList = (meshNodeValue m name n).chars := by
  have hpeers := toList_jarr_strings (m.peersOf name) fun s => s
  simp [meshNodeJson, meshNodeValue, hpeers, chars, memberTexts, joined, quoted, escape]

def eventValue (e : GossipEvent) : Json :=
  obj [("at", num e.time.val), ("from", str e.sender), ("to", str e.recipient),
    ("kind", str (kindText e.kind))]

omit [Crypto] in
theorem toList_eventJson (e : GossipEvent) : (eventJson e).toList = (eventValue e).chars := by
  simp [eventJson, eventValue, chars, memberTexts, joined, quoted, escape]

/-- The value of `snapshot`. -/
def snapshotValue (env : Env) (app : Explorer) : Outcome Empty Json :=
  match app.mesh.nodes.lookup app.selected with
  | none => .error (.panic "selected exists")
  | some n => do
      let node ← nodeValue env n
      let wallets ← walletsValue env n
      return obj [("selected", str app.selected), ("mining", bool app.mining),
        ("faucet", bool app.faucet), ("allow_reset", bool app.allowReset),
        ("operator", bool app.operator), ("network", str network),
        ("listen", str app.listenAddr), ("peers", arr (app.peers.map str)),
        ("mesh", obj [("now", num app.mesh.now.val), ("queued", num app.mesh.queue.length),
          ("nodes", arr ((namedNodes app.mesh).map fun row =>
            meshNodeValue app.mesh row.1 row.2)),
          ("events", arr ((recentEvents app.mesh).map eventValue))]),
        ("node", node), ("wallets", wallets)]

set_option maxRecDepth 4000 in
theorem snapshotBody_eq (env : Env) (app : Explorer) :
    app.snapshotBody env = (app.snapshotValue env).map Json.text := by
  unfold snapshotBody snapshotValue
  cases app.mesh.nodes.lookup app.selected with
  | none => rfl
  | some n =>
      dsimp only
      rw [nodeJson_eq, walletsJson_eq]
      cases nodeValue env n with
      | error e => rfl
      | ok node =>
          cases walletsValue env n with
          | error e => rfl
          | ok wallets =>
              apply congrArg Except.ok
              apply eq_text
              have hpeers := toList_jarr_strings app.peers fun s => s
              have hnodes := toList_jarr (namedNodes app.mesh)
                (f := fun row => meshNodeJson app.mesh row.1 row.2)
                fun row => toList_meshNodeJson app.mesh row.1 row.2
              have hevents := toList_jarr (recentEvents app.mesh) toList_eventJson
              simp [hpeers, hnodes, hevents, text, chars, memberTexts, joined, quoted, escape]

end Process

/-! ## An address -/

def utxoValue (row : OutPoint × U64) : Json :=
  obj [("tx", str row.1.tx.display), ("index", num row.1.index.val), ("value", num row.2.val)]

theorem toList_utxoJson (row : OutPoint × U64) :
    (utxoJson row).toList = (utxoValue row).chars := by
  simp [utxoJson, utxoValue, chars, memberTexts, joined, quoted, escape]

/-- The value of the body of `/api/utxos`. -/
def utxosValue (addr : Address) (balance : Nat) (rows : List (OutPoint × U64)) : Json :=
  obj [("address", str addr.toHex), ("balance", num balance),
    ("utxos", arr (rows.map utxoValue))]

theorem utxosJson_eq (addr : Address) (balance : Nat) (rows : List (OutPoint × U64)) :
    utxosJson addr balance rows = (utxosValue addr balance rows).text := by
  apply eq_text
  have hrows := toList_jarr rows toList_utxoJson
  simp [utxosJson, utxosValue, hrows, chars, memberTexts, joined, quoted, escape]

def itemValue (item : HistoryItem) : Json :=
  obj [("block", str item.block.display), ("tx", str item.tx.display),
    ("kind", str item.kind.display), ("delta", num item.delta)]

theorem toList_itemJson (item : HistoryItem) :
    (itemJson item).toList = (itemValue item).chars := by
  simp [itemJson, itemValue, chars, memberTexts, joined, quoted, escape]

/-- The value of the body of `/api/history`. -/
def historyValue (h : History) : Json :=
  obj [("address", str h.address.toHex), ("balance", num h.balance),
    ("txs", arr (h.txs.map itemValue))]

theorem historyJson_eq (h : History) : historyJson h = (historyValue h).text := by
  apply eq_text
  have hrows := toList_jarr h.txs toList_itemJson
  simp [historyJson, historyValue, hrows, chars, memberTexts, joined, quoted, escape]

/-! ## Legible answers -/

@[simp] theorem legible_hexEncode (bytes : List U8) : Legible (hexEncode bytes) := by
  have hdigits : ∀ n < 16, legible (hexDigit n) = true := by decide
  refine List.all_eq_true.2 fun c hc => ?_
  obtain ⟨n, hn, rfl⟩ := mem_hexEncode hc
  exact hdigits n hn

@[simp] theorem legible_blockId (id : BlockId) : Legible id.display := legible_hexEncode _

@[simp] theorem legible_txId (id : TxId) : Legible id.display := legible_hexEncode _

@[simp] theorem legible_address (addr : Address) : Legible addr.toHex := legible_hexEncode _

@[simp] theorem legible_colourOf (id genesis : BlockId) (chain : List BlockId)
    (blue : Finset BlockId) : Legible (colourOf id genesis chain blue) := by
  unfold colourOf
  split
  · decide
  split
  · decide
  split
  · decide
  · decide

@[simp] theorem legible_historyKind (kind : HistoryKind) : Legible kind.display := by
  cases kind <;> decide

@[simp] theorem legible_kindText (kind : GossipKind) : Legible (kindText kind) := by
  cases kind <;> decide

/-- An id in hexadecimal, or nothing. -/
theorem legible_getD {α : Type} (x : Option α) {f : α → String} (h : ∀ a, Legible (f a)) :
    Legible ((x.map f).getD "") := by
  cases x with
  | none =>
      show Legible ""
      decide
  | some a => exact h a

theorem clean_strOrNull {α : Type} (x : Option α) {f : α → String} (h : ∀ a, Legible (f a)) :
    Clean (strOrNull (x.map f)).chars := by
  cases x with
  | none => exact clean_null
  | some a => exact (clean_str _).2 (h a)

@[simp] theorem clean_outputsValue (tx : Transaction) : Clean (outputsValue tx).chars := by
  simp +decide [outputsValue, outputValue]

theorem clean_utxosValue (addr : Address) (balance : Nat) (rows : List (OutPoint × U64)) :
    Clean (utxosValue addr balance rows).chars := by
  simp +decide [utxosValue, utxoValue]

theorem clean_historyValue (h : History) : Clean (historyValue h).chars := by
  simp +decide [historyValue, itemValue]

theorem clean_headValue (n : Node) : Clean (headValue n).chars := by
  have hgenesis := legible_getD n.ledger fun l => legible_blockId l.genesis
  have htip := legible_getD n.ledger fun l => legible_blockId l.dag.selectedTip
  simp +decide [headValue, hgenesis, htip]

section Process

variable [Crypto]

theorem clean_txValue (tx : Transaction) : Clean (txValue tx).chars := by
  simp +decide [txValue]

theorem clean_pendingValue (state : UtxoSet) (tx : Transaction) :
    Clean (pendingValue state tx).chars := by
  simp +decide [pendingValue]

theorem clean_blockValue (d : DagView) (id : BlockId) (rec : BlockRecord) (g : GhostdagData) :
    Clean (blockValue d id rec g).chars := by
  have hparent := clean_strOrNull g.selectedParent legible_blockId
  simp +decide [blockValue, hparent, clean_txValue]

theorem clean_nodeValue {env : Env} {n : Node} {v : Json} (h : nodeValue env n = .ok v) :
    Clean v.chars := by
  unfold nodeValue at h
  split at h
  · obtain rfl := Except.ok.inj h
    simp +decide
  · rename_i l _
    dsimp only at h
    obtain ⟨state, _, h⟩ := Outcome.bind_eq_ok.1 h
    obtain rfl := Except.ok.inj h
    have hminer := clean_strOrNull n.miner legible_address
    simp +decide [hminer, clean_blockValue, clean_pendingValue]

theorem clean_walletsValue {env : Env} {n : Node} {v : Json} (h : walletsValue env n = .ok v) :
    Clean v.chars := by
  obtain ⟨rows, hrows, h⟩ := Outcome.bind_eq_ok.1 h
  obtain rfl := Except.ok.inj h
  have hall : ∀ (seeds : List U64) (vs : List Json), seeds.mapM (walletValue env n) = .ok vs →
      ∀ v ∈ vs, Clean v.chars := by
    intro seeds
    induction seeds with
    | nil =>
        intro vs hvs v hv
        obtain rfl := Except.ok.inj hvs
        cases hv
    | cons seed rest ih =>
        intro vs hvs
        rw [List.mapM_cons] at hvs
        obtain ⟨v, hv, hvs⟩ := Outcome.bind_eq_ok.1 hvs
        obtain ⟨vs', hvs', hvs⟩ := Outcome.bind_eq_ok.1 hvs
        obtain rfl := Except.ok.inj hvs
        obtain ⟨bal, _, hv⟩ := Outcome.bind_eq_ok.1 hv
        obtain rfl := Except.ok.inj hv
        refine List.forall_mem_cons.2 ⟨?_, ih vs' hvs'⟩
        simp +decide
  exact (clean_arr rows).2 (hall actors rows hrows)

/-! ## The strings of the host -/

/-- The strings an answer repeats that the host gave: its own address and its peers. -/
def HostLegible (app : Explorer) : Prop :=
  Legible app.listenAddr ∧ ∀ peer ∈ app.peers, Legible peer

omit [Crypto] in
theorem clean_bootstrapValue_iff (app : Explorer) :
    Clean app.bootstrapValue.chars ↔ app.HostLegible := by
  have hempty : Legible "" := by decide
  have hpeers : (∀ peer ∈ app.bootstrapPeers, Legible peer) ↔
      (∀ peer ∈ app.peers, Legible peer) ∧ Legible app.listenAddr := by
    unfold bootstrapPeers
    rw [List.forall_mem_append]
    by_cases haddr : app.listenAddr = ""
    · simp [haddr, hempty]
    · simp [haddr]
  unfold bootstrapValue HostLegible
  extract_lets n ledger genesis tip pow minFee
  have hgenesis : Legible genesis := legible_getD ledger fun l => legible_blockId l.genesis
  have htip : Legible tip := legible_getD ledger fun l => legible_blockId l.dag.selectedTip
  clear_value genesis tip pow minFee
  simp +decide [hgenesis, htip, hpeers]
  tauto

variable {host : Host F} {P : String → Node → Prop} {E : Envelope → Prop} {app : Explorer}

omit [Crypto] in
theorem legible_of_mem_meshNames {name : String} (h : name ∈ meshNames host) : Legible name := by
  unfold meshNames at h
  split at h
  · simp only [Finset.mem_insert, Finset.notMem_empty, or_false] at h
    rcases h with rfl | rfl | rfl
    · decide
    · decide
    · decide
  · simp only [Finset.mem_insert, Finset.notMem_empty, or_false] at h
    rcases h with rfl
    decide

omit [Crypto] in
theorem Up.clean_meshNodeValue (h : Up host P E app) {row : String × Node}
    (hrow : row ∈ namedNodes app.mesh) :
    Clean (meshNodeValue app.mesh row.1 row.2).chars := by
  obtain ⟨name, hname, hrow⟩ := List.mem_filterMap.1 hrow
  obtain ⟨n, hn, rfl⟩ := Option.map_eq_some_iff.1 hrow
  have hlegible := legible_of_mem_meshNames (h.mesh.of_lookup hn)
  have htip := legible_getD n.ledger fun l => legible_blockId l.dag.selectedTip
  have hpeers : ∀ peer ∈ app.mesh.peersOf name, Legible peer := fun peer hpeer =>
    legible_of_mem_meshNames (h.mesh.peersOf name peer hpeer)
  simp +decide +contextual [meshNodeValue, hlegible, htip, hpeers]

omit [Crypto] in
theorem Up.clean_eventValue (h : Up host P E app) {e : GossipEvent}
    (he : e ∈ recentEvents app.mesh) : Clean (eventValue e).chars := by
  obtain ⟨hsender, hrecipient⟩ :=
    h.mesh.events e (List.mem_reverse.1 (List.mem_of_mem_take he))
  have hfrom := legible_of_mem_meshNames hsender
  have hto := legible_of_mem_meshNames hrecipient
  simp +decide [eventValue, hfrom, hto]

theorem Up.clean_snapshotValue_iff (h : Up host P E app) {env : Env} {v : Json}
    (hv : app.snapshotValue env = .ok v) : Clean v.chars ↔ app.HostLegible := by
  unfold snapshotValue at hv
  split at hv
  · cases hv
  obtain ⟨node, hnode, hv⟩ := Outcome.bind_eq_ok.1 hv
  obtain ⟨wallets, hwallets, hv⟩ := Outcome.bind_eq_ok.1 hv
  obtain rfl := Except.ok.inj hv
  have hselected := legible_of_mem_meshNames h.selected
  have hnodes : ∀ row ∈ namedNodes app.mesh,
      Clean (meshNodeValue app.mesh row.1 row.2).chars := fun _ hrow => h.clean_meshNodeValue hrow
  have hevents : ∀ e ∈ recentEvents app.mesh, Clean (eventValue e).chars :=
    fun _ he => h.clean_eventValue he
  simp +decide +contextual [HostLegible, hselected, hnodes, hevents, clean_nodeValue hnode,
    clean_walletsValue hwallets]

/-! ## What is read -/

/-- A client that is given the body of an answer reads its value: of `/api/state` and
`/api/bootstrap` exactly if the strings of the host are legible, and then no other. -/
structure ReadsBack (app : Explorer) : Prop where
  head : ∀ n, app.mesh.nodes.lookup app.selected = some n →
    Json.read (headJson n) = some (headValue n)
  bootstrap : ∀ v, Json.read app.bootstrapJson = some v ↔ app.HostLegible ∧ app.bootstrapValue = v
  state : ∀ env body, app.snapshotBody env = .ok body →
    ∀ v, Json.read body = some v ↔ app.HostLegible ∧ app.snapshotValue env = .ok v
  history : ∀ env q body, app.historyBody env q = .ok body → ∃ n addr h,
    app.nodeFor q = .ok n ∧ history env n addr = .ok h ∧ Json.read body = some (historyValue h)
  utxos : ∀ env q body, app.utxosBody env q = .ok body → ∃ n addr balance rows,
    app.nodeFor q = .ok n ∧ n.balance env addr = .ok balance ∧ n.utxosOf env addr = .ok rows ∧
      Json.read body = some (utxosValue addr balance rows)

omit [Crypto] in
theorem lift_eq_ok {ε α : Type} {x : Except ε α} {a : α} : Rpc.lift x = .ok a ↔ x = .ok a := by
  cases x with
  | ok b => exact ⟨fun h => congrArg Except.ok (Except.ok.inj h), fun h =>
      congrArg Except.ok (Except.ok.inj h)⟩
  | error e =>
      constructor
      · intro h
        cases h
      · intro h
        cases h

omit [Crypto] in
theorem said_eq_ok {ε α : Type} {display : ε → String} {x : Outcome ε α} {a : α} :
    Rpc.said display x = .ok a ↔ x = .ok a := by
  cases x with
  | ok b => exact ⟨fun h => congrArg Except.ok (Except.ok.inj h), fun h =>
      congrArg Except.ok (Except.ok.inj h)⟩
  | error e => cases e <;> simp [Rpc.said]

theorem Up.readsBack (h : Up host P E app) : app.ReadsBack where
  head := fun n _ => by
    rw [headJson_eq, read_text_iff]
    exact clean_headValue n
  bootstrap := fun v => by
    rw [bootstrapJson_eq, read_text_eq_iff, clean_bootstrapValue_iff]
  state := fun env body hbody v => by
    rw [snapshotBody_eq] at hbody
    cases hvalue : app.snapshotValue env with
    | error e =>
        rw [hvalue] at hbody
        cases hbody
    | ok w =>
        rw [hvalue] at hbody
        obtain rfl := Except.ok.inj hbody
        rw [read_text_eq_iff, h.clean_snapshotValue_iff hvalue, Except.ok.injEq]
  history := fun env q body hbody => by
    obtain ⟨text, _, hbody⟩ := Outcome.bind_eq_ok.1 hbody
    obtain ⟨addr, _, hbody⟩ := Outcome.bind_eq_ok.1 hbody
    obtain ⟨n, hn, hbody⟩ := Outcome.bind_eq_ok.1 hbody
    obtain ⟨items, hitems, hbody⟩ := Outcome.bind_eq_ok.1 hbody
    obtain rfl := Except.ok.inj hbody
    refine ⟨n, addr, items, lift_eq_ok.1 hn, said_eq_ok.1 hitems, ?_⟩
    rw [historyJson_eq, read_text_iff]
    exact clean_historyValue items
  utxos := fun env q body hbody => by
    obtain ⟨text, _, hbody⟩ := Outcome.bind_eq_ok.1 hbody
    obtain ⟨addr, _, hbody⟩ := Outcome.bind_eq_ok.1 hbody
    obtain ⟨n, hn, hbody⟩ := Outcome.bind_eq_ok.1 hbody
    obtain ⟨balance, hbalance, hbody⟩ := Outcome.bind_eq_ok.1 hbody
    obtain ⟨rows, hrows, hbody⟩ := Outcome.bind_eq_ok.1 hbody
    obtain rfl := Except.ok.inj hbody
    refine ⟨n, addr, balance, rows, lift_eq_ok.1 hn, said_eq_ok.1 hbalance, said_eq_ok.1 hrows, ?_⟩
    rw [utxosJson_eq, read_text_iff]
    exact clean_utxosValue addr balance rows

/-- After any run of the process, a client reads from each body the value it is of.  Two of the
bodies repeat strings of the host; these are read exactly if the strings are legible. -/
theorem answers_read_back (host : Host F) (envs : Nat → Nat → Env) (files : F)
    (events : List ((Nat → Nat → Env) × Event)) :
    Leaves (fun after => after.1.ReadsBack) (serve host envs files events).2 :=
  (serve_running host envs files events).left.value_of fun _ _ hup => hup.readsBack

/-! ## The funds of an address -/

omit [Crypto] in
/-- The entries of a map, in whatever order it is iterated. -/
theorem coe_entries {κ ν : Type} [LinearOrder κ] (ord : HashOrder) (m : Finmap fun _ : κ => ν) :
    (ord.entries m : Multiset (κ × ν)) = m.entries.map fun t => (t.1, t.2) := by
  have hinj : Function.Injective fun t : (_ : κ) × ν => (t.1, t.2) := by
    rintro ⟨k, v⟩ ⟨k', v'⟩ heq
    obtain ⟨rfl, rfl⟩ := Prod.mk.inj heq
    rfl
  have hnodup := (Multiset.coe_nodup).2 (ord.nodup_entries m)
  refine (Multiset.Nodup.ext hnodup (m.nodup_entries.map hinj)).2 fun e => ?_
  rw [Multiset.mem_coe, HashOrder.mem_entries, Multiset.mem_map]
  constructor
  · intro h
    exact ⟨⟨e.1, e.2⟩, Finmap.mem_lookup_iff.1 h, rfl⟩
  · rintro ⟨t, ht, rfl⟩
    exact Finmap.mem_lookup_iff.2 ht

/-- The rows of `utxos_of`. -/
def rowsOf (ord : HashOrder) (state : UtxoSet) (addr : Address) : List (OutPoint × U64) :=
  sortByKey (fun row : OutPoint × U64 => row.1)
    (((ord.entries state).filter fun entry => decide (entry.2.owner = addr)).map
      fun entry => (entry.1, entry.2.value))

omit [Crypto] in
theorem mem_rowsOf {ord : HashOrder} {state : UtxoSet} {addr : Address} {op : OutPoint}
    {value : U64} : (op, value) ∈ rowsOf ord state addr ↔
      ∃ o, state.lookup op = some o ∧ o.owner = addr ∧ o.value = value := by
  rw [rowsOf, mem_sortByKey, List.mem_map]
  constructor
  · rintro ⟨⟨op', o⟩, hmem, heq⟩
    obtain ⟨hentry, howner⟩ := List.mem_filter.1 hmem
    obtain ⟨rfl, rfl⟩ := Prod.mk.inj heq
    exact ⟨o, ord.mem_entries.1 hentry, of_decide_eq_true howner, rfl⟩
  · rintro ⟨o, hlookup, howner, rfl⟩
    exact ⟨(op, o), List.mem_filter.2 ⟨ord.mem_entries.2 hlookup, decide_eq_true howner⟩, rfl⟩

omit [Crypto] in
theorem rowsOf_ascending (ord : HashOrder) (state : UtxoSet) (addr : Address) :
    ((rowsOf ord state addr).map Prod.fst).Pairwise (· < ·) := by
  have hsorted := sortByKey_pairwise (fun row : OutPoint × U64 => row.1)
    (((ord.entries state).filter fun entry => decide (entry.2.owner = addr)).map
      fun entry => (entry.1, entry.2.value))
  have hnodup : ((rowsOf ord state addr).map Prod.fst).Nodup := by
    have hperm := (sortByKey_perm (fun row : OutPoint × U64 => row.1)
      (((ord.entries state).filter fun entry => decide (entry.2.owner = addr)).map
        fun entry => (entry.1, entry.2.value))).map Prod.fst
    refine hperm.nodup_iff.2 ?_
    rw [List.map_map]
    have hkeys : ((ord.entries state).map Prod.fst).Nodup := by
      rw [HashOrder.entries_map_fst]
      exact ord.nodup_iter _
    exact hkeys.sublist (List.filter_sublist.map Prod.fst)
  have hle : ((rowsOf ord state addr).map Prod.fst).Pairwise (· ≤ ·) := List.pairwise_map.2 hsorted
  exact (hle.and hnodup).imp fun h => lt_of_le_of_ne h.1 h.2

omit [Crypto] in
theorem sum_rowsOf (ord : HashOrder) (state : UtxoSet) (addr : Address) :
    ((rowsOf ord state addr).map fun row => row.2.val).sum = state.balance addr := by
  have hsum : ∀ entries : List (OutPoint × TxOutput),
      ((entries.filter fun e => decide (e.2.owner = addr)).map fun e => e.2.value.val).sum =
      (entries.map fun e => if e.2.owner = addr then e.2.value.val else 0).sum := by
    intro entries
    induction entries with
    | nil => rfl
    | cons e rest ih =>
        by_cases howner : e.2.owner = addr
        · simp [howner, ih]
        · simp [howner, ih]
  have hentries : ((ord.entries state).map fun e => if e.2.owner = addr then e.2.value.val
      else 0).sum = Tokens.tally (fun o => if o.owner = addr then o.value.val else 0) state := by
    rw [Tokens.tally, ← Multiset.sum_coe, ← Multiset.map_coe, coe_entries, Multiset.map_map]
    rfl
  have hperm := (sortByKey_perm (fun row : OutPoint × U64 => row.1)
    (((ord.entries state).filter fun entry => decide (entry.2.owner = addr)).map
      fun entry => (entry.1, entry.2.value))).map fun row => row.2.val
  rw [rowsOf, hperm.sum_eq, List.map_map, UtxoSet.balance_eq, ← hentries, ← hsum]
  rfl

/-- What `/api/utxos` tells of an address: each of its unspent outputs once, in order, worth
its balance together. -/
def TellsFunds (env : Env) (app : Explorer) (q : Query) (addr : Address) (n : Node) : Prop :=
  ∃ l state rows body, n.ledger = some l ∧ l.ledgerState env.ord = some state ∧
    app.utxosBody env q = .ok body ∧
    Json.read body = some (utxosValue addr (rows.map fun row => row.2.val).sum rows) ∧
    (rows.map Prod.fst).Pairwise (· < ·) ∧
    ∀ op value, (op, value) ∈ rows ↔
      ∃ o, state.lookup op = some o ∧ o.owner = addr ∧ o.value = value

theorem Up.tellsFunds (h : Up host (fun _ => Running) E app) (env : Env) {q : Query}
    {addr : Address} {n : Node} (haddr : (q.lookup "address").map parseAddr = some (.ok addr))
    (hn : app.nodeFor q = .ok n) : TellsFunds env app q addr n := by
  have hrunning : Running n := by
    unfold nodeFor at hn
    split at hn
    · cases hn
    · rename_i heq
      obtain rfl := Except.ok.inj hn
      exact h.mesh.nodes heq
  obtain ⟨l, hl⟩ := hrunning.ledger
  obtain ⟨state, hstate⟩ : ∃ state, l.ledgerState env.ord = some state :=
    ⟨_, (hrunning.reachable.plain hl).unbounded.ledgerState env.ord⟩
  obtain ⟨text, hlookup, hparse⟩ := Option.map_eq_some_iff.1 haddr
  have hrequired : required q "address" "address required" = .ok text := by
    rw [required, hlookup]
  have hledger : n.ledger? = .ok l := by
    rw [Node.ledger?, hl]
  have hstateOf : Node.stateOf env l = .ok state := by
    rw [Node.stateOf, hstate]
    rfl
  have hbalance : n.balance env addr = .ok (state.balance addr) := by
    rw [Node.balance, hledger, Outcome.ok_bind, hstateOf]
    rfl
  have hrows : n.utxosOf env addr = .ok (rowsOf env.ord state addr) := by
    rw [Node.utxosOf, hledger, Outcome.ok_bind, hstateOf]
    rfl
  refine ⟨l, state, rowsOf env.ord state addr,
    utxosJson addr (state.balance addr) (rowsOf env.ord state addr), hl, hstate, ?_, ?_,
    rowsOf_ascending env.ord state addr, fun _ _ => mem_rowsOf⟩
  · unfold utxosBody
    refine Outcome.bind_eq_ok.2 ⟨text, lift_eq_ok.2 hrequired, ?_⟩
    refine Outcome.bind_eq_ok.2 ⟨addr, lift_eq_ok.2 hparse, ?_⟩
    refine Outcome.bind_eq_ok.2 ⟨n, lift_eq_ok.2 hn, ?_⟩
    refine Outcome.bind_eq_ok.2 ⟨_, said_eq_ok.2 hbalance, ?_⟩
    exact Outcome.bind_eq_ok.2 ⟨_, said_eq_ok.2 hrows, rfl⟩
  · rw [sum_rowsOf, utxosJson_eq, read_text_iff]
    exact clean_utxosValue _ _ _

/-- After any run of the process, whoever asks for the unspent outputs of an address is
told of all of them, each once and by outpoint, with a balance that is their sum. -/
theorem utxos_tell_funds (host : Host F) (envs : Nat → Nat → Env) (files : F)
    (events : List ((Nat → Nat → Env) × Event)) :
    Leaves (fun after => ∀ env q addr n, (q.lookup "address").map parseAddr = some (.ok addr) →
      after.1.nodeFor q = .ok n → TellsFunds env after.1 q addr n)
      (serve host envs files events).2 :=
  (serve_running host envs files events).left.value_of fun _ _ hup env _ _ _ haddr hn =>
    hup.tellsFunds env haddr hn

end Process

end Explorer

end Kovanica
