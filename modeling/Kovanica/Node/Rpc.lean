import Kovanica.Node.Endings

/-!
# The line protocol

One command a line and one answer a line.  A line is read into words, the first of which
names the command; the answer begins with `ok` or `err`.  The files a command saves to and
loads from are those of the host.

## Main results

* `run_eq_obey`: a line does what it asks for, or nothing.
* `said_parse`: the reasons for not reading a command are one line.
* `Command.perform_serves`: a command leaves a node that keeps its invariants.
-/

namespace Kovanica

open Lib

/-- The files of the host: `fs::read` and `fs::write`, which say why they refuse.  What a path
means, and whether what was written is read again, is up to the host. -/
structure FileSystem (F : Type) where
  read : F → String → Except String (List U8)
  write : F → String → List U8 → Except String Unit × F

/-- Why a call that reads or writes a file failed. -/
inductive FileError where
  | node (e : NodeError)
  | io (e : String)
  | snapshot (e : LedgerSnapshotError)

def FileError.display : FileError → String
  | node e => e.display
  | io e => s!"io error: {e}"
  | snapshot e => s!"bad snapshot: {e.display}"

namespace Node

variable {F : Type}

/-- `save(path)`. -/
def save (fs : FileSystem F) (env : Env) (n : Node) (files : F) (path : String) :
    F × Outcome FileError Unit :=
  match n.ledger with
  | none => (files, .error (.error (.node .notInitialized)))
  | some ledger =>
      match fs.write files path (ledger.writeSnapshot env.ord) with
      | (.error e, files) => (files, .error (.error (.io e)))
      | (.ok (), files) => (files, .ok ())

/-- `load(path)`. -/
def loadFile [Crypto] (fs : FileSystem F) (env : Env) (n : Node) (files : F) (path : String) :
    Outcome FileError Node :=
  match fs.read files path with
  | .error e => .error (.error (.io e))
  | .ok bytes =>
      match n.load env bytes with
      | .error (.error e) => .error (.error (.snapshot e))
      | .error (.panic site) => .error (.panic site)
      | .ok n => .ok n

end Node

namespace Rpc

/-- `HELP`. -/
def help : String :=
  "commands: help | genesis <k> <subsidy> <amount> <seed> | " ++
  "address <seed> | balance <seed|addr-hex> | send <from-seed> <amount> <to-seed> | " ++
  "pool <from-seed> <amount> <to-seed> | produce | pending | tips | tip | len | " ++
  "save <path> | load <path>"

/-- `map_err(|e| e.to_string())`. -/
def said {ε α : Type} (display : ε → String) : Outcome ε α → Outcome String α
  | .ok a => .ok a
  | .error (.error e) => .error (.error (display e))
  | .error (.panic site) => .error (.panic site)

/-- A result whose call cannot panic. -/
def lift {ε α : Type} (x : Except ε α) : Outcome ε α := x.mapError Fault.error

/-! ## Arguments -/

/-- `fixed::<N>(args)`. -/
def fixed (count : Nat) (args : List String) : Except String (Fin count → String) :=
  if h : args.length = count then .ok fun i => args.get (i.cast h.symm)
  else .error s!"expected {count} argument(s), got {args.length}"

def u64Arg (s : String) : Except String U64 :=
  match parseWord 64 s with
  | some n => .ok n
  | none => .error s!"'{s}' is not a number"

def u16Arg (s : String) : Except String KParam :=
  match parseWord 16 s with
  | some n => .ok n
  | none => .error s!"'{s}' is not a small number"

/-- `parse_target(token)`: an address in 64 digits, else the seed of an actor. -/
def parseTarget [Crypto] (token : String) : Except String Address :=
  if token.utf8ByteSize = 64 then
    match hexDecode token with
    | none => .error s!"'{token}' is not hex"
    | some bytes =>
        if h : bytes.length = 32 then .ok ⟨⟨bytes, h⟩⟩
        else .error "address must be 32 bytes"
  else do return Node.address (← u64Arg token)

/-! ## Commands -/

variable {F : Type} [Crypto]

/-- `run(node, line)`.  The files are given back whatever happens: only `save` changes
them, also where the host refuses it. -/
def run (fs : FileSystem F) (env : Env) (n : Node) (files : F) (line : String) :
    F × Outcome String (String × Node) :=
  match words line with
  | [] => (files, .ok ("", n))
  | cmd :: args =>
      match cmd with
      | "help" => (files, .ok (help, n))
      | "genesis" => (files, do
          let args ← lift (fixed 4 args)
          let k ← lift (u16Arg (args 0))
          let subsidy ← lift (u64Arg (args 1))
          let amount ← lift (u64Arg (args 2))
          let seed ← lift (u64Arg (args 3))
          let ((id, founder), n) ←
            said NodeError.display (lift (n.genesis env k subsidy amount seed))
          return (s!"genesis {id.display} founder {founder.toHex}", n))
      | "address" => (files, do
          let args ← lift (fixed 1 args)
          return ((Node.address (← lift (u64Arg (args 0)))).toHex, n))
      | "balance" => (files, do
          let args ← lift (fixed 1 args)
          let addr ← lift (parseTarget (args 0))
          let balance ← said NodeError.display (n.balance env addr)
          return (s!"{balance}", n))
      | "send" => (files, do
          let args ← lift (fixed 3 args)
          let fromSeed ← lift (u64Arg (args 0))
          let amount ← lift (u64Arg (args 1))
          let toSeed ← lift (u64Arg (args 2))
          let (sent, n) ← said NodeError.display (n.send env fromSeed amount toSeed)
          return (s!"block {sent.block.display} tx {sent.tx.display}", n))
      | "pool" => (files, do
          let args ← lift (fixed 3 args)
          let fromSeed ← lift (u64Arg (args 0))
          let amount ← lift (u64Arg (args 1))
          let toSeed ← lift (u64Arg (args 2))
          let (tx, n) ← said NodeError.display (n.pool env fromSeed amount toSeed)
          return (s!"tx {tx.display}", n))
      | "produce" => (files, do
          let _ ← lift (fixed 0 args)
          match ← said NodeError.display (n.produceBlock env) with
          | (some block, n) => return (s!"block {block.display}", n)
          | (none, n) => return ("empty", n))
      | "pending" => (files, do
          let _ ← lift (fixed 0 args)
          return (s!"{n.mempool.len}", n))
      | "tips" => (files, do
          let ledger ← said NodeError.display n.ledger?
          return (" ".intercalate (ledger.dag.tipList.map BlockId.display), n))
      | "tip" => (files, do
          let ledger ← said NodeError.display n.ledger?
          return (ledger.dag.selectedTip.display, n))
      | "len" => (files, do
          let ledger ← said NodeError.display n.ledger?
          return (s!"{ledger.dag.len}", n))
      | "save" =>
          match fixed 1 args with
          | .error e => (files, .error (.error e))
          | .ok args =>
              let (files, saved) := n.save fs env files (args 0)
              (files, do
                said FileError.display saved
                return (s!"saved {args 0}", n))
      | "load" => (files, do
          let args ← lift (fixed 1 args)
          let n ← said FileError.display (n.loadFile fs env files (args 0))
          return ("loaded", n))
      | other => (files, .error (.error s!"unknown command '{other}' (try help)"))

/-- What a command leaves: the answer, the node and the files. -/
structure Answered (F : Type) where
  answer : String
  node : Node
  files : F

/-- `execute_line(node, line)`. -/
def executeLine (fs : FileSystem F) (env : Env) (n : Node) (files : F) (line : String) :
    Outcome Empty (Answered F) :=
  match run fs env n files line with
  | (files, .ok (msg, n)) => .ok ⟨if msg.isEmpty then "ok" else s!"ok {msg}", n, files⟩
  | (files, .error (.error e)) => .ok ⟨s!"err {e}", n, files⟩
  | (_, .error (.panic site)) => .error (.panic site)

/-- The words that end a session. -/
def quits (trimmed : String) : Bool := trimmed == "quit" || trimmed == "exit"

/-- `serve()`: the answers to the lines, and how the loop ends.  Each line comes with the
surroundings it is served in. -/
def serve (fs : FileSystem F) (n : Node) (files : F) :
    List (Env × String) → List String × Outcome Empty (Node × F)
  | [] => ([], .ok (n, files))
  | (env, line) :: rest =>
      let trimmed := trim line
      if quits trimmed then ([], .ok (n, files))
      else
        match executeLine fs env n files trimmed with
        | .error e => ([], .error e)
        | .ok done =>
            let (answers, ending) := serve fs done.node done.files rest
            (done.answer :: answers, ending)

/-! ## Commands as data -/

/-- A command, with its arguments read.  Every line that is not refused as it stands reads as one
of these, or asks for nothing. -/
inductive Command where
  | help
  | genesis (k : KParam) (subsidy amount seed : U64)
  | address (seed : U64)
  | balance (target : Address)
  | send (fromSeed amount toSeed : U64)
  | pool (fromSeed amount toSeed : U64)
  | produce
  | pending
  | tips
  | tip
  | len
  | save (path : String)
  | load (path : String)

namespace Command

/-- The words of a command, numbers in decimal and addresses in hexadecimal. -/
def words : Command → List String
  | help => ["help"]
  | genesis k subsidy amount seed =>
      ["genesis", k.val.repr, subsidy.val.repr, amount.val.repr, seed.val.repr]
  | address seed => ["address", seed.val.repr]
  | balance target => ["balance", target.toHex]
  | send fromSeed amount toSeed => ["send", fromSeed.val.repr, amount.val.repr, toSeed.val.repr]
  | pool fromSeed amount toSeed => ["pool", fromSeed.val.repr, amount.val.repr, toSeed.val.repr]
  | produce => ["produce"]
  | pending => ["pending"]
  | tips => ["tips"]
  | tip => ["tip"]
  | len => ["len"]
  | save path => ["save", path]
  | load path => ["load", path]

def line (c : Command) : String := " ".intercalate c.words

/-- No path has a blank in it. -/
def Printable : Command → Prop
  | save path => IsWord path
  | load path => IsWord path
  | _ => True

/-- What the words of a line ask for, if they ask for anything. -/
def parse : List String → Except String (Option Command)
  | [] => .ok none
  | cmd :: args =>
      match cmd with
      | "help" => return some help
      | "genesis" => do
          let args ← fixed 4 args
          let k ← u16Arg (args 0)
          let subsidy ← u64Arg (args 1)
          let amount ← u64Arg (args 2)
          let seed ← u64Arg (args 3)
          return some (genesis k subsidy amount seed)
      | "address" => do
          let args ← fixed 1 args
          return some (address (← u64Arg (args 0)))
      | "balance" => do
          let args ← fixed 1 args
          return some (balance (← parseTarget (args 0)))
      | "send" => do
          let args ← fixed 3 args
          let fromSeed ← u64Arg (args 0)
          let amount ← u64Arg (args 1)
          let toSeed ← u64Arg (args 2)
          return some (send fromSeed amount toSeed)
      | "pool" => do
          let args ← fixed 3 args
          let fromSeed ← u64Arg (args 0)
          let amount ← u64Arg (args 1)
          let toSeed ← u64Arg (args 2)
          return some (pool fromSeed amount toSeed)
      | "produce" => do
          let _ ← fixed 0 args
          return some produce
      | "pending" => do
          let _ ← fixed 0 args
          return some pending
      | "tips" => return some tips
      | "tip" => return some tip
      | "len" => return some len
      | "save" => do
          let args ← fixed 1 args
          return some (save (args 0))
      | "load" => do
          let args ← fixed 1 args
          return some (load (args 0))
      | other => .error s!"unknown command '{other}' (try help)"

/-- The call a command stands for, and its answer. -/
def perform (fs : FileSystem F) (env : Env) (n : Node) (files : F) :
    Command → F × Outcome String (String × Node)
  | help => (files, .ok (Rpc.help, n))
  | genesis k subsidy amount seed => (files, do
      let ((id, founder), n) ← said NodeError.display (lift (n.genesis env k subsidy amount seed))
      return (s!"genesis {id.display} founder {founder.toHex}", n))
  | address seed => (files, .ok ((Node.address seed).toHex, n))
  | balance target => (files, do
      let balance ← said NodeError.display (n.balance env target)
      return (s!"{balance}", n))
  | send fromSeed amount toSeed => (files, do
      let (sent, n) ← said NodeError.display (n.send env fromSeed amount toSeed)
      return (s!"block {sent.block.display} tx {sent.tx.display}", n))
  | pool fromSeed amount toSeed => (files, do
      let (tx, n) ← said NodeError.display (n.pool env fromSeed amount toSeed)
      return (s!"tx {tx.display}", n))
  | produce => (files, do
      match ← said NodeError.display (n.produceBlock env) with
      | (some block, n) => return (s!"block {block.display}", n)
      | (none, n) => return ("empty", n))
  | pending => (files, .ok (s!"{n.mempool.len}", n))
  | tips => (files, do
      let ledger ← said NodeError.display n.ledger?
      return (" ".intercalate (ledger.dag.tipList.map BlockId.display), n))
  | tip => (files, do
      let ledger ← said NodeError.display n.ledger?
      return (ledger.dag.selectedTip.display, n))
  | len => (files, do
      let ledger ← said NodeError.display n.ledger?
      return (s!"{ledger.dag.len}", n))
  | save path =>
      let (files, saved) := n.save fs env files path
      (files, do
        said FileError.display saved
        return (s!"saved {path}", n))
  | load path => (files, do
      let n ← said FileError.display (n.loadFile fs env files path)
      return ("loaded", n))

/-- What a line does that asks for this. -/
def obey (fs : FileSystem F) (env : Env) (n : Node) (files : F) :
    Except String (Option Command) → F × Outcome String (String × Node)
  | .error e => (files, .error (.error e))
  | .ok none => (files, .ok ("", n))
  | .ok (some c) => c.perform fs env n files

/-! ## Reading back -/

omit [Crypto] in
theorem isWord_toHex (addr : Address) : IsWord addr.toHex := by
  apply isWord_hexEncode
  intro heq
  have hlen := addr.bytes.property
  rw [heq] at hlen
  cases hlen

omit [Crypto] in
theorem Printable.isWord {c : Command} (h : c.Printable) : ∀ w ∈ c.words, IsWord w := by
  cases c <;> simp only [words, List.forall_mem_cons, List.not_mem_nil, false_implies,
    implies_true, and_true, isWord_repr, isWord_toHex]
  case save path => exact ⟨by decide, h⟩
  case load path => exact ⟨by decide, h⟩
  all_goals decide

omit [Crypto] in
theorem u64Arg_repr (n : U64) : u64Arg n.val.repr = .ok n := by
  rw [u64Arg, parseWord_repr]

omit [Crypto] in
theorem u16Arg_repr (n : KParam) : u16Arg n.val.repr = .ok n := by
  rw [u16Arg, parseWord_repr]

theorem parseTarget_toHex (addr : Address) : parseTarget addr.toHex = .ok addr := by
  have hsize : addr.toHex.utf8ByteSize = 64 := by
    rw [Address.toHex, utf8ByteSize_hexEncode, addr.bytes.property]
  have hdecode : hexDecode addr.toHex = some addr.bytes.val := hexDecode_hexEncode _
  rw [parseTarget, if_pos hsize, hdecode]
  simp only [addr.bytes.property, dif_pos]

theorem parse_words (c : Command) : parse c.words = .ok (some c) := by
  cases c <;> simp [words, parse, fixed, u64Arg_repr, u16Arg_repr, parseTarget_toHex, bind,
    Except.bind, pure, Except.pure]

theorem parse_line {c : Command} (h : c.Printable) : parse (Lib.words c.line) = .ok (some c) := by
  rw [line, words_join h.isWord]
  exact c.parse_words

omit [Crypto] in
theorem mem_of_fixed {count : Nat} {args : List String} {read : Fin count → String}
    (h : fixed count args = .ok read) (i : Fin count) : read i ∈ args := by
  unfold fixed at h
  split at h
  · obtain rfl := Except.ok.inj h
    exact List.getElem_mem _
  · cases h

/-- What is read from words can be printed. -/
theorem Printable.of_parse {ws : List String} (hws : ∀ w ∈ ws, IsWord w) {c : Command}
    (h : parse ws = .ok (some c)) : c.Printable := by
  have hpath : ∀ {cmd : String} {args : List String}, ws = cmd :: args →
      ∀ {read : Fin 1 → String}, fixed 1 args = .ok read → IsWord (read 0) := by
    rintro cmd args rfl read hread
    exact hws _ (List.mem_cons_of_mem _ (mem_of_fixed hread 0))
  have hbind : ∀ {α β : Type} {x : Except String α} {f : α → Except String β} {b : β},
      (x >>= f) = .ok b → ∃ a, x = .ok a ∧ f a = .ok b := by
    intro α β x f b hb
    cases x with
    | error e => cases hb
    | ok a => exact ⟨a, rfl, hb⟩
  unfold parse at h
  split at h
  · cases h
  split at h
  all_goals
    repeat obtain ⟨_, _, h⟩ := hbind h
    cases h
  case h_12 | h_13 => exact hpath rfl ‹_›
  all_goals exact trivial

end Command

/-- An argument that is read on both sides. -/
theorem lift_bind_eq_obey {fs : FileSystem F} {env : Env} {n : Node} {files : F} {α : Type}
    {x : Except String α} {f : α → Outcome String (String × Node)}
    {g : α → Except String (Option Command)}
    (h : ∀ a, (files, f a) = Command.obey fs env n files (g a)) :
    (files, lift x >>= f) = Command.obey fs env n files (x >>= g) := by
  cases x with
  | error e => rfl
  | ok a => exact h a

/-- A line does what it asks for, or nothing. -/
theorem run_eq_obey (fs : FileSystem F) (env : Env) (n : Node) (files : F) (line : String) :
    run fs env n files line = Command.obey fs env n files (Command.parse (words line)) := by
  rw [run]
  cases words line with
  | nil => rfl
  | cons cmd args =>
      dsimp only [Command.parse]
      split
      case h_12 =>
        -- the file is written only when the arguments are right
        cases fixed 1 args with
        | error e => rfl
        | ok read => rfl
      all_goals
        repeat apply lift_bind_eq_obey; intro _
        try rfl

/-! ## Answers -/

/-- The host says why it refuses on one line.  This is all that is asked of a host, whose files may
otherwise behave as they like. -/
structure FileSystem.Spoken (fs : FileSystem F) : Prop where
  read : ∀ files path e, fs.read files path = .error e → OneLine e
  write : ∀ files path bytes e, (fs.write files path bytes).1 = .error e → OneLine e

omit [Crypto] in
theorem said_ends {ε α : Type} {display : ε → String} {x : Outcome ε α} {value : α → Prop}
    (h : Outcome.Ends value (fun e => OneLine (display e)) OutOfRoom x) :
    Outcome.Ends value OneLine OutOfRoom (said display x) := by
  cases x with
  | ok a => exact h
  | error e => cases e <;> exact h

/-- What a command answers with, and the node it leaves. -/
def Serves (r : F × Outcome String (String × Node)) : Prop :=
  Outcome.Ends (fun r => OneLine r.1 ∧ r.2.Quiet) OneLine OutOfRoom r.2

variable {fs : FileSystem F} {env : Env} {n : Node}

omit [Crypto] in
theorem oneLine_io {e : String} (he : OneLine e) : OneLine (FileError.io e).display := by
  unfold FileError.display
  simp [he]

omit [Crypto] in
theorem oneLine_snapshot {e : LedgerSnapshotError} (he : OneLine e.display) :
    OneLine (FileError.snapshot e).display := by
  unfold FileError.display
  simp [he]

omit [Crypto] in
theorem save_ends (hfs : FileSystem.Spoken fs) (files : F) (path : String) :
    Outcome.Ends (fun _ => True) (fun e => OneLine e.display) OutOfRoom
      (n.save fs env files path).2 := by
  unfold Node.save
  cases n.ledger with
  | none => exact oneLine_nodeError fun _ h => by cases h
  | some ledger =>
      have hwrite := hfs.write files path (ledger.writeSnapshot env.ord)
      dsimp only
      split
      · rename_i e _ heq
        exact oneLine_io (hwrite e (by rw [heq]))
      · exact trivial

theorem loadFile_ends (hfs : FileSystem.Spoken fs) (h : n.Quiet) (files : F) (path : String) :
    Outcome.Ends Node.Quiet (fun e => OneLine e.display) OutOfRoom
      (n.loadFile fs env files path) := by
  unfold Node.loadFile
  split
  · rename_i e heq
    exact oneLine_io (hfs.read files path e heq)
  · rename_i bytes _
    have hload := Node.load_ends h env bytes
    split
    · rename_i e heq
      rw [heq] at hload
      exact oneLine_snapshot hload
    · rename_i site heq
      rw [heq] at hload
      exact hload
    · rename_i n' heq
      rw [heq] at hload
      exact hload

/-- A command leaves a node that keeps its invariants, whatever it is asked for. -/
theorem Command.perform_serves (hfs : FileSystem.Spoken fs) (h : n.Quiet) (files : F)
    {c : Command} (hc : c.Printable) : Serves (c.perform fs env n files) := by
  have hledger : Outcome.Ends (fun _ => True) OneLine OutOfRoom
      (said NodeError.display n.ledger?) :=
    (said_ends n.ledger?_ends).value_of fun _ _ _ => trivial
  cases c with
  | help =>
      have hhelp : OneLine Rpc.help := by decide +kernel
      exact ⟨hhelp, h⟩
  | genesis k subsidy amount seed =>
      apply (said_ends (Node.genesis_serves h k subsidy amount seed)).bind
      rintro ⟨⟨id, founder⟩, n'⟩ hn'
      exact ⟨by simp, hn'⟩
  | address seed => exact ⟨oneLine_address _, h⟩
  | balance target =>
      apply (said_ends (Node.balance_ends h.plain target)).bind
      intro balance _
      exact ⟨by simp, h⟩
  | send fromSeed amount toSeed =>
      apply (said_ends (Node.sendTo_serves h fromSeed amount (Node.address toSeed))).bind
      rintro ⟨sent, n'⟩ hn'
      exact ⟨by simp, hn'⟩
  | pool fromSeed amount toSeed =>
      apply (said_ends (Node.pool_serves h fromSeed amount toSeed)).bind
      rintro ⟨tx, n'⟩ hn'
      exact ⟨by simp, hn'⟩
  | produce =>
      apply (said_ends (Node.produceBlock_serves h)).bind
      rintro ⟨produced, n'⟩ hn'
      cases produced with
      | none =>
          have hempty : OneLine "empty" := by decide
          exact ⟨hempty, hn'⟩
      | some block => exact ⟨by simp, hn'⟩
  | pending => exact ⟨by simp, h⟩
  | tips =>
      apply hledger.bind
      intro ledger _
      refine ⟨oneLine_join " " (by decide) fun w hw => ?_, h⟩
      obtain ⟨id, _, rfl⟩ := List.mem_map.1 hw
      exact oneLine_blockId id
  | tip =>
      apply hledger.bind
      intro ledger _
      exact ⟨oneLine_blockId _, h⟩
  | len =>
      apply hledger.bind
      intro ledger _
      exact ⟨by simp, h⟩
  | save path =>
      apply (said_ends (save_ends hfs files path)).bind
      intro _ _
      have hpath : OneLine path := IsWord.oneLine hc
      exact ⟨by simp [hpath], h⟩
  | load path =>
      apply (said_ends (loadFile_ends hfs h files path)).bind
      intro n' hn'
      have hloaded : OneLine "loaded" := by decide
      exact ⟨hloaded, hn'⟩

/-! ## Lines that ask for nothing -/

/-- What is wrong with an argument is said on one line. -/
def Said {α : Type} (x : Except String α) : Prop := ∀ e, x = .error e → OneLine e

omit [Crypto] in
theorem Said.bind {α β : Type} {x : Except String α} {f : α → Except String β} (hx : Said x)
    (hf : ∀ a, x = .ok a → Said (f a)) : Said (x >>= f) := by
  cases x with
  | error e =>
      intro e' h
      obtain rfl := Except.error.inj h
      exact hx e rfl
  | ok a => exact hf a rfl

omit [Crypto] in
theorem Said.of_ok {α : Type} (a : α) : Said (.ok a) := fun _ h => by cases h

omit [Crypto] in
theorem Said.of_error {α : Type} {e : String} (he : OneLine e) :
    Said (.error e : Except String α) := by
  intro e' h
  obtain rfl := Except.error.inj h
  exact he

omit [Crypto] in
theorem said_fixed (count : Nat) (args : List String) : Said (fixed count args) := by
  unfold fixed
  split
  · exact .of_ok _
  · exact .of_error (by simp)

omit [Crypto] in
theorem said_u64Arg {s : String} (hs : OneLine s) : Said (u64Arg s) := by
  unfold u64Arg
  split
  · exact .of_ok _
  · exact .of_error (by simp [hs])

omit [Crypto] in
theorem said_u16Arg {s : String} (hs : OneLine s) : Said (u16Arg s) := by
  unfold u16Arg
  split
  · exact .of_ok _
  · exact .of_error (by simp [hs])

theorem said_parseTarget {token : String} (htoken : OneLine token) : Said (parseTarget token) := by
  unfold parseTarget
  split
  · split
    · exact .of_error (by simp [htoken])
    · split
      · exact .of_ok _
      · exact .of_error (by simp)
  · exact (said_u64Arg htoken).bind fun _ _ => .of_ok _

/-- The reasons for not reading a command are one line, as its words are. -/
theorem said_parse {ws : List String} (hws : ∀ w ∈ ws, IsWord w) : Said (Command.parse ws) := by
  cases ws with
  | nil => exact .of_ok _
  | cons cmd args =>
      obtain ⟨hcmd, hargs⟩ := List.forall_mem_cons.1 hws
      have hread : ∀ {count : Nat} {read : Fin count → String}, fixed count args = .ok read →
          ∀ i, OneLine (read i) := fun h i => (hargs _ (Command.mem_of_fixed h i)).oneLine
      dsimp only [Command.parse]
      split
      case h_14 => exact .of_error (by simp [hcmd.oneLine])
      case h_1 | h_9 | h_10 | h_11 => exact .of_ok _
      all_goals
        apply (said_fixed _ _).bind
        intro read hfixed
        repeat first
          | apply (said_u64Arg (hread hfixed _)).bind; intro _ _
          | apply (said_u16Arg (hread hfixed _)).bind; intro _ _
          | apply (said_parseTarget (hread hfixed _)).bind; intro _ _
        exact .of_ok _

end Rpc

end Kovanica
