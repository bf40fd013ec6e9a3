import Kovanica.Node.Rpc
import Kovanica.Node.Twins

/-!
# Sessions of the line protocol

What holds of every answer of a session and of the node it leaves; that a session does not
depend on the order maps are iterated in; and that saving a ledger and loading it again
goes unnoticed.

Works and scores are added as in a build without overflow checks, where sums wrap.  A build
with overflow checks panics in their place, so what is said of panics here is said of the
former only.

## Main results

* `run_serves`: every line of a session is served.
* `serve_line`: a line that is a printed command, in two sessions.
* `save_twin`, `exists_loadFile`: twins save the same bytes, and a node that loads what it saved
  cannot be told from itself.
-/

namespace Kovanica

open Lib

namespace Rpc

variable {F : Type} [Crypto] {fs : FileSystem F} {env env' : Env} {n m : Node}

/-! ## Answers -/

/-- Every line is served. -/
theorem run_serves (hfs : FileSystem.Spoken fs) (env : Env) (h : n.Quiet) (files : F) (line : String) :
    Serves (run fs env n files line) := by
  have hwords : ∀ w ∈ words line, IsWord w := fun w hw => isWord_of_mem_words hw
  rw [run_eq_obey]
  cases hparse : Command.parse (words line) with
  | error e => exact said_parse hwords e hparse
  | ok c =>
      cases c with
      | none =>
          have hblank : OneLine "" := by decide
          exact ⟨hblank, h⟩
      | some c =>
          exact Command.perform_serves hfs h files (Command.Printable.of_parse hwords hparse)

/-- An answer of the protocol: one line, beginning with `ok` or `err`. -/
def IsAnswer (answer : String) : Prop :=
  OneLine answer ∧ (answer = "ok" ∨ (∃ msg, answer = "ok " ++ msg) ∨ ∃ e, answer = "err " ++ e)

theorem executeLine_ends (hfs : FileSystem.Spoken fs) (env : Env) (h : n.Quiet) (files : F)
    (line : String) :
    Outcome.Ends (fun done => IsAnswer done.answer ∧ done.node.Quiet) (fun _ => False) OutOfRoom
      (executeLine fs env n files line) := by
  have hserves := run_serves hfs env h files line
  unfold executeLine
  unfold Serves at hserves
  split
  · rename_i files' msg n' heq
    rw [heq] at hserves
    obtain ⟨hmsg, hn'⟩ := hserves
    refine ⟨?_, hn'⟩
    show IsAnswer (if msg.isEmpty then "ok" else s!"ok {msg}")
    split
    · exact ⟨by decide, .inl rfl⟩
    · exact ⟨by simp [hmsg], .inr (.inl ⟨msg, rfl⟩)⟩
  · rename_i files' e heq
    rw [heq] at hserves
    have he : OneLine e := hserves
    exact ⟨⟨by simp [he], .inr (.inr ⟨e, rfl⟩)⟩, h⟩
  · rename_i files' site heq
    rw [heq] at hserves
    exact hserves

/-- The lines a session serves: those before the one that ends it. -/
def served (lines : List (Env × String)) : List (Env × String) :=
  lines.takeWhile fun l => !quits (trim l.2)

theorem serve_ends (hfs : FileSystem.Spoken fs) (h : n.Quiet) (files : F)
    (lines : List (Env × String)) :
    (∀ answer ∈ (serve fs n files lines).1, IsAnswer answer) ∧
      Outcome.Ends (fun left => left.1.Quiet ∧
        (serve fs n files lines).1.length = (served lines).length) (fun _ => False) OutOfRoom
        (serve fs n files lines).2 := by
  induction lines generalizing n files with
  | nil => exact ⟨fun _ ha => absurd ha List.not_mem_nil, h, rfl⟩
  | cons l rest ih =>
      obtain ⟨env, line⟩ := l
      have hends := executeLine_ends hfs env h files (trim line)
      rw [serve]
      dsimp only
      cases hquit : quits (trim line) with
      | true =>
          have hserved : served ((env, line) :: rest) = [] :=
            List.takeWhile_cons_of_neg (by simp [hquit])
          rw [hserved]
          exact ⟨fun _ ha => absurd ha List.not_mem_nil, h, rfl⟩
      | false =>
          have hserved : served ((env, line) :: rest) = (env, line) :: served rest :=
            List.takeWhile_cons_of_pos (by simp [hquit])
          rw [hserved, if_neg (by decide)]
          cases hline : executeLine fs env n files (trim line) with
          | error e =>
              rw [hline] at hends
              cases e with
              | error e => exact absurd hends id
              | panic site => exact ⟨fun _ ha => absurd ha List.not_mem_nil, hends⟩
          | ok done =>
              rw [hline] at hends
              obtain ⟨hanswer, hdone⟩ := hends
              obtain ⟨hanswers, hrest⟩ := ih hdone done.files
              refine ⟨List.forall_mem_cons.2 ⟨hanswer, hanswers⟩, ?_⟩
              apply hrest.value_of
              rintro left _ ⟨hleft, hlen⟩
              exact ⟨hleft, congrArg (· + 1) hlen⟩

/-- Every session of a new node: each line up to the one that ends it has one answer, of one
line, that begins with `ok` or `err`; the node keeps the invariants of its calls; and in a
build without overflow checks nothing else ends a session but a collection that outgrows the
address space. -/
theorem session_answers (fs : FileSystem F) (hfs : FileSystem.Spoken fs) (files : F)
    (lines : List (Env × String)) :
    (∀ answer ∈ (serve fs .new files lines).1, IsAnswer answer) ∧
      ((∃ n files', (serve fs .new files lines).2 = .ok (n, files') ∧ n.Quiet ∧
          (serve fs .new files lines).1.length = (served lines).length) ∨
        (serve fs .new files lines).2 = .error (.panic "capacity overflow")) := by
  obtain ⟨hanswers, hends⟩ := serve_ends hfs Node.Quiet.new files lines
  refine ⟨hanswers, ?_⟩
  revert hends
  generalize (serve fs .new files lines).2 = ending
  intro hends
  cases ending with
  | error e =>
      cases e with
      | error e => exact absurd hends id
      | panic site =>
          have hsite : site = "capacity overflow" := hends
          exact .inr (by rw [hsite])
  | ok left => exact .inl ⟨left.1, left.2, rfl, hends.1, hends.2⟩

/-- A line that reads as a command does what the printed command does, whatever the node;
printed commands are read back. -/
theorem lines_are_commands :
    (∀ c : Command, c.Printable → Command.parse (words c.line) = .ok (some c)) ∧
      (∀ line c, Command.parse (words line) = .ok (some c) → c.Printable ∧
        ∀ (fs : FileSystem F) (env : Env) (n : Node) (files : F),
          run fs env n files line = run fs env n files c.line) ∧
      ∀ (fs : FileSystem F) (env : Env) (n : Node) (files : F) (line : String),
        run fs env n files line = Command.obey fs env n files (Command.parse (words line)) := by
  refine ⟨fun c hc => Command.parse_line hc, fun line c hline => ?_, run_eq_obey⟩
  have hc := Command.Printable.of_parse (fun w hw => isWord_of_mem_words hw) hline
  refine ⟨hc, fun fs env n files => ?_⟩
  rw [run_eq_obey, run_eq_obey, hline, Command.parse_line hc]

/-! ## The order of maps -/

/-- Two commands end alike: the same answer and files, and nodes over the same blocks. -/
def Follow (r s : F × Outcome String (String × Node)) : Prop :=
  r.1 = s.1 ∧ Outcome.Agree (fun a b => a.1 = b.1 ∧ Node.Twin false a.2 b.2) r.2 s.2

omit [Crypto] in
theorem said_agree {ε α β : Type} (display : ε → String) {R : α → β → Prop} {x : Outcome ε α}
    {y : Outcome ε β} (h : Outcome.Agree R x y) :
    Outcome.Agree R (said display x) (said display y) := by
  cases x with
  | error e =>
      cases y with
      | error e' =>
          obtain rfl : e = e' := h
          cases e <;> exact rfl
      | ok b => exact absurd h id
  | ok a =>
      cases y with
      | error e' => exact absurd h id
      | ok b => exact h

/-- The same bytes are saved. -/
theorem save_twin (fs : FileSystem F) (env env' : Env) (h : Node.Twin false n m) (files : F) (path : String) :
    n.save fs env files path = m.save fs env' files path := by
  unfold Node.save
  rcases h.ledger_cases with ⟨hn, hm⟩ | ⟨l, l', hn, hm, hl⟩
  · rw [hn, hm]
  · have hbytes : l.writeSnapshot env.ord = l'.writeSnapshot env'.ord := by
      rw [Ledger.writeSnapshot, Ledger.writeSnapshot, hl.compatible.subsidy_eq,
        DagView.writeSnapshot_congr hl.left.wellFormed.dag hl.right.wellFormed.dag
          hl.compatible.k_eq hl.consensus.block (hl.consensus.linearize env.ord env'.ord)]
    rw [hn, hm]
    dsimp only
    rw [hbytes]

theorem loadFile_twin (h : Node.Twin false n m) (files : F) (path : String) :
    Outcome.Agree (Node.Twin false) (n.loadFile fs env files path)
      (m.loadFile fs env' files path) := by
  unfold Node.loadFile
  cases fs.read files path with
  | error e => exact rfl
  | ok bytes =>
      have hload := h.load env env' bytes
      dsimp only
      revert hload
      generalize n.load env bytes = x
      generalize m.load env' bytes = y
      intro hload
      cases x with
      | error e =>
          cases y with
          | error e' =>
              obtain rfl : e = e' := hload
              cases e <;> exact rfl
          | ok s => exact absurd hload id
      | ok r =>
          cases y with
          | error e' => exact absurd hload id
          | ok s => exact hload

theorem Command.perform_twin (h : Node.Twin false n m) (henv : env.wallMs = env'.wallMs)
    (files : F) (c : Command) :
    Follow (c.perform fs env n files) (c.perform fs env' m files) := by
  have hledger := said_agree NodeError.display h.ledger?
  cases c with
  | help => exact ⟨rfl, rfl, h⟩
  | genesis k subsidy amount seed =>
      refine ⟨rfl, ?_⟩
      apply (said_agree _ (h.genesis k subsidy amount seed)).bind
      rintro ⟨⟨id, founder⟩, n'⟩ ⟨_, m'⟩ ⟨rfl, h'⟩
      exact ⟨rfl, h'⟩
  | address seed => exact ⟨rfl, rfl, h⟩
  | balance target =>
      refine ⟨rfl, ?_⟩
      apply (Outcome.Agree.of_eq (congrArg (said NodeError.display) (h.balance target))).bind
      rintro balance _ rfl
      exact ⟨rfl, h⟩
  | send fromSeed amount toSeed =>
      refine ⟨rfl, ?_⟩
      apply (said_agree _ (h.sendTo henv fromSeed amount (Node.address toSeed))).bind
      rintro ⟨sent, n'⟩ ⟨_, m'⟩ ⟨rfl, h'⟩
      exact ⟨rfl, h'⟩
  | pool fromSeed amount toSeed =>
      refine ⟨rfl, ?_⟩
      apply (said_agree _ (h.pool fromSeed amount toSeed)).bind
      rintro ⟨tx, n'⟩ ⟨_, m'⟩ ⟨rfl, h'⟩
      exact ⟨rfl, h'⟩
  | produce =>
      refine ⟨rfl, ?_⟩
      apply (said_agree _ (h.produceBlock henv)).bind
      rintro ⟨produced, n'⟩ ⟨_, m'⟩ ⟨rfl, h'⟩
      cases produced with
      | none => exact ⟨rfl, h'⟩
      | some block => exact ⟨rfl, h'⟩
  | pending => exact ⟨rfl, congrArg (fun pool : Mempool => s!"{pool.len}") h.mempool_eq, h⟩
  | tips =>
      refine ⟨rfl, ?_⟩
      apply hledger.bind
      intro l l' hl
      exact ⟨congrArg (fun ids => " ".intercalate (List.map BlockId.display ids))
        hl.consensus.tips, h⟩
  | tip =>
      refine ⟨rfl, ?_⟩
      apply hledger.bind
      intro l l' hl
      exact ⟨congrArg BlockId.display hl.consensus.selectedTip, h⟩
  | len =>
      refine ⟨rfl, ?_⟩
      apply hledger.bind
      intro l l' hl
      exact ⟨congrArg (fun len : Nat => s!"{len}") hl.len_eq, h⟩
  | save path =>
      have hsave := save_twin fs env env' h files path
      have hfiles : (n.save fs env files path).1 = (m.save fs env' files path).1 :=
        congrArg Prod.fst hsave
      have hsaved : said FileError.display (n.save fs env files path).2 =
          said FileError.display (m.save fs env' files path).2 :=
        congrArg (fun r => said FileError.display (Prod.snd r)) hsave
      refine ⟨hfiles, ?_⟩
      apply (Outcome.Agree.of_eq hsaved).bind
      intro _ _ _
      exact ⟨rfl, h⟩
  | load path =>
      refine ⟨rfl, ?_⟩
      apply (said_agree _ (loadFile_twin h files path)).bind
      intro n' m' h'
      exact ⟨rfl, h'⟩

theorem executeLine_twin (fs : FileSystem F) (h : Node.Twin false n m) (henv : env.wallMs = env'.wallMs) (files : F)
    (line : String) : Outcome.Agree
      (fun a b => a.answer = b.answer ∧ a.files = b.files ∧ Node.Twin false a.node b.node)
      (executeLine fs env n files line) (executeLine fs env' m files line) := by
  have hrun : Follow (run fs env n files line) (run fs env' m files line) := by
    rw [run_eq_obey, run_eq_obey]
    cases Command.parse (words line) with
    | error e => exact ⟨rfl, rfl⟩
    | ok c =>
        cases c with
        | none => exact ⟨rfl, rfl, h⟩
        | some c => exact Command.perform_twin h henv files c
  unfold executeLine
  revert hrun
  generalize run fs env n files line = r
  generalize run fs env' m files line = s
  intro hrun
  obtain ⟨files₁, x⟩ := r
  obtain ⟨files₂, y⟩ := s
  obtain ⟨hfiles, hends⟩ := hrun
  cases x with
  | error e =>
      cases y with
      | error e' =>
          obtain rfl : e = e' := hends
          cases e with
          | error e => exact ⟨rfl, hfiles, h⟩
          | panic site => exact rfl
      | ok b => exact absurd hends id
  | ok a =>
      cases y with
      | error e' => exact absurd hends id
      | ok b =>
          obtain ⟨hmsg, h'⟩ := hends
          exact ⟨congrArg (fun msg : String => if msg.isEmpty then "ok" else s!"ok {msg}") hmsg,
            hfiles, h'⟩

/-- The same lines, at the same times; the maps may be iterated in another order, and in another
one at every line. -/
def SameLines : List (Env × String) → List (Env × String) → Prop :=
  List.Forall₂ fun l l' => l.1.wallMs = l'.1.wallMs ∧ l.2 = l'.2

theorem serve_twin (fs : FileSystem F) (h : Node.Twin false n m) (files : F) {lines lines' : List (Env × String)}
    (hlines : SameLines lines lines') :
    (serve fs n files lines).1 = (serve fs m files lines').1 ∧
      Outcome.Agree (fun a b => Node.Twin false a.1 b.1 ∧ a.2 = b.2)
        (serve fs n files lines).2 (serve fs m files lines').2 := by
  induction hlines generalizing n m files with
  | nil => exact ⟨rfl, h, rfl⟩
  | @cons l l' rest rest' hline _ ih =>
      obtain ⟨env, line⟩ := l
      obtain ⟨env', _⟩ := l'
      obtain ⟨henv, rfl⟩ := hline
      have hexec := executeLine_twin fs h henv files (trim line)
      rw [serve, serve]
      dsimp only
      cases quits (trim line) with
      | true => exact ⟨rfl, h, rfl⟩
      | false =>
          rw [if_neg (by decide), if_neg (by decide)]
          revert hexec
          generalize executeLine fs env n files (trim line) = x
          generalize executeLine fs env' m files (trim line) = y
          intro hexec
          cases x with
          | error e =>
              cases y with
              | error e' => exact ⟨rfl, hexec⟩
              | ok b => exact absurd hexec id
          | ok a =>
              cases y with
              | error e' => exact absurd hexec id
              | ok b =>
                  obtain ⟨hanswer, hfiles, h'⟩ := hexec
                  obtain ⟨hanswers, hends⟩ := ih h' a.files
                  dsimp only
                  rw [hanswer, ← hfiles]
                  exact ⟨congrArg _ hanswers, hends⟩

theorem twin_new : Node.Twin false .new .new where
  ledger := .none
  mempool_eq := rfl
  clock_eq := rfl
  miner_eq := rfl
  filed := .empty

/-- A session of a new node does not depend on the order its maps are iterated in, which
may change with every line: the answers are the same, it ends the same way and with the
same files, and the nodes it leaves hold the same blocks. -/
theorem session_ignores_iteration_order (fs : FileSystem F) (files : F)
    {lines lines' : List (Env × String)} (hlines : SameLines lines lines') :
    (serve fs .new files lines).1 = (serve fs .new files lines').1 ∧
      Outcome.Agree (fun a b => Node.Twin false a.1 b.1 ∧ a.2 = b.2)
        (serve fs .new files lines).2 (serve fs .new files lines').2 :=
  serve_twin fs twin_new files hlines

/-! ## Saving and loading -/

/-- What was written is read: after a successful write, a read of that path gives the bytes that
were written. -/
def FileSystem.Lawful (fs : FileSystem F) : Prop :=
  ∀ files path bytes files', fs.write files path bytes = (.ok (), files') →
    fs.read files' path = .ok bytes

/-- A ledger and what is restored from it. -/
theorem exists_twin {l : Ledger} (hl : l.Quiet) (ord ord' : HashOrder) :
    ∃ m, Ledger.readSnapshot ord' (l.writeSnapshot ord) = .ok m ∧ Ledger.Twin false l m := by
  have hwf := hl.plain.unbounded.reachable.wellFormed
  obtain ⟨m, hread, hm, hdifficulty, hpow, hrestores⟩ :=
    hl.plain.unbounded.reachable.exists_readSnapshot ord ord'
  have hmwf := hm.reachable.wellFormed
  refine ⟨m, hread, hl.healthy, ⟨hmwf, hm.depth, hdifficulty, hpow, hm.stored, fun h => by cases h⟩,
    ⟨hrestores.k_eq.symm, ?_, hrestores.subsidy_eq.symm, ?_⟩, fun x => (hrestores.mem_iff x).symm⟩
  · rw [hwf.genesis_eq, hmwf.genesis_eq, hrestores.genesis_eq]
  · intro x hx hx'
    have hblock := hrestores.consensus.block x
    rw [DagView.block, DagView.block, DagView.lookup_node hx, DagView.lookup_node hx'] at hblock
    exact Option.some.inj hblock

/-- A node that loads what it saved is one it cannot be told from. -/
theorem exists_loadFile (hlaw : FileSystem.Lawful fs) (hn : n.Quiet) {files files' : F}
    {path : String} (hsave : n.save fs env files path = (files', .ok ())) (env' : Env) :
    ∃ m, n.loadFile fs env' files' path = .ok m ∧ Node.Twin false n m := by
  unfold Node.save at hsave
  cases hledger : n.ledger with
  | none =>
      rw [hledger] at hsave
      cases hsave
  | some l =>
      rw [hledger] at hsave
      dsimp only at hsave
      split at hsave
      · cases hsave
      rename_i hwrite
      obtain ⟨rfl, _⟩ := Prod.mk.inj hsave
      obtain ⟨l', hread, htwin⟩ := exists_twin (hn.ledger l hledger) env.ord env'.ord
      refine ⟨{ n with ledger := some l' }, ?_, ⟨?_, rfl, rfl, rfl, hn.reachable.invariant.mempool⟩⟩
      · rw [Node.loadFile, hlaw _ _ _ _ hwrite]
        dsimp only
        rw [Node.load, hread]
      · rw [hledger]
        exact .some htwin

omit [Crypto] in
theorem Command.quits_line {c : Command} (h : c.Printable) : quits c.line = false := by
  have hquit : Lib.words "quit" = ["quit"] := by decide
  have hexit : Lib.words "exit" = ["exit"] := by decide
  have hwords : Lib.words c.line = c.words := words_join h.isWord
  rw [quits, Bool.or_eq_false_iff, beq_eq_false_iff_ne, beq_eq_false_iff_ne]
  constructor
  · intro heq
    rw [heq, hquit] at hwords
    cases c <;> simp [Command.words] at hwords
  · intro heq
    rw [heq, hexit] at hwords
    cases c <;> simp [Command.words] at hwords

/-- A line of a session that is a printed command. -/
theorem serve_line (fs : FileSystem F) (n : Node) (files : F) {c : Command} (hc : c.Printable)
    (rest : List (Env × String)) {files' : F} {msg : String} {n' : Node}
    (h : c.perform fs env n files = (files', .ok (msg, n'))) (hmsg : msg.isEmpty = false) :
    serve fs n files ((env, c.line) :: rest) =
      (s!"ok {msg}" :: (serve fs n' files' rest).1, (serve fs n' files' rest).2) := by
  have htrim : trim c.line = c.line := trim_join hc.isWord
  have hexec : executeLine fs env n files c.line = .ok ⟨s!"ok {msg}", n', files'⟩ := by
    rw [executeLine, run_eq_obey, Command.parse_line hc, Command.obey, h]
    dsimp only
    rw [hmsg, if_neg (by decide)]
  rw [serve]
  dsimp only
  rw [htrim, Command.quits_line hc, if_neg (by decide), hexec]

/-- Loading what was just saved goes unnoticed: in any session, the answers to the lines
that follow, the files and the blocks of the node it leaves are those of a session in
which nothing was loaded. -/
theorem reload_unnoticed (hlaw : FileSystem.Lawful fs) (hn : n.Quiet) {path : String}
    (hpath : IsWord path) {files files' : F}
    (hsave : n.save fs env files path = (files', .ok ())) (env' : Env)
    (lines : List (Env × String)) :
    ∃ answers, (serve fs n files ((env, (Command.save path).line) :: lines)).1 =
        s!"ok saved {path}" :: answers ∧
      (serve fs n files ((env, (Command.save path).line) :: (env', (Command.load path).line) ::
        lines)).1 = s!"ok saved {path}" :: "ok loaded" :: answers ∧
      Outcome.Agree (fun a b => Node.Twin false a.1 b.1 ∧ a.2 = b.2)
        (serve fs n files ((env, (Command.save path).line) :: lines)).2
        (serve fs n files ((env, (Command.save path).line) :: (env', (Command.load path).line) ::
          lines)).2 := by
  obtain ⟨m, hload, htwin⟩ := exists_loadFile hlaw hn hsave env'
  have hsaved : (Command.save path).perform fs env n files =
      (files', .ok (s!"saved {path}", n)) := by
    rw [Command.perform, hsave]
    rfl
  have hloaded : (Command.load path).perform fs env' n files' = (files', .ok ("loaded", m)) := by
    rw [Command.perform, hload]
    rfl
  have hlines : SameLines lines lines := List.forall₂_same.2 fun _ _ => ⟨rfl, rfl⟩
  obtain ⟨hanswers, hends⟩ := serve_twin fs htwin files' hlines
  have hsaveLine : (Command.save path).Printable := hpath
  have hloadLine : (Command.load path).Printable := hpath
  have hmsg : (s!"saved {path}" : String).isEmpty = false := by
    simp only [String.isEmpty_eq_false_iff, Ne, String.append_eq_empty_iff, not_and]
    intro hempty
    exact absurd hempty (by decide)
  have hafter := serve_line fs n files' hloadLine lines hloaded (by decide)
  rw [serve_line fs n files hsaveLine lines hsaved hmsg,
    serve_line fs n files hsaveLine _ hsaved hmsg, hafter]
  exact ⟨_, rfl, by rw [hanswers]; rfl, hends⟩

end Rpc

/-! ## A disk -/

namespace Rpc.Disk

open scoped Reference

/-- Files in memory, the last one written first. -/
def disk : FileSystem (List (String × List U8)) where
  read := fun files path =>
    match files.lookup path with
    | some bytes => .ok bytes
    | none => .error "No such file or directory (os error 2)"
  write := fun files path bytes => (.ok (), (path, bytes) :: files)

theorem spoken_disk : FileSystem.Spoken disk where
  read := by
    intro files path e h
    simp only [disk] at h
    split at h
    · cases h
    · rw [← Except.error.inj h]
      decide
  write := fun files path bytes e h => by cases h

theorem lawful_disk : FileSystem.Lawful disk := by
  intro files path bytes files' h
  obtain ⟨_, rfl⟩ := Prod.mk.inj h
  simp [disk]

/-- The order that is sorted backwards. -/
def backwards : HashOrder where
  iter := fun s => (ascending s).reverse
  coe_iter := fun s => by rw [Multiset.coe_reverse, coe_ascending]

/-- The lines, each with the maps in this order. -/
def typed (ord : HashOrder) (lines : List String) : List (Env × String) :=
  lines.map fun line => (⟨ord, 0⟩, line)

theorem sameLines_typed (ord ord' : HashOrder) (lines : List String) :
    SameLines (typed ord lines) (typed ord' lines) := by
  unfold typed SameLines
  rw [List.forall₂_map_left_iff, List.forall₂_map_right_iff, List.forall₂_same]
  exact fun _ _ => ⟨rfl, rfl⟩

/-- A session that brings up a ledger, asks for its size and for nothing known, and ends. -/
def script : List String := ["genesis 3 1000 500 1", " len", "wat", "quit", "len"]

theorem session_answers_script :
    (∀ answer ∈ (serve disk .new [] (typed .sorted script)).1, IsAnswer answer) ∧
      (serve disk .new [] (typed .sorted script)).1.drop 1 =
        ["ok 1", "err unknown command 'wat' (try help)"] :=
  ⟨(session_answers disk spoken_disk [] (typed .sorted script)).1, by decide +kernel⟩

end Rpc.Disk

/-! ## Sessions on a fork -/

namespace Rpc.Disk

open scoped Passing
open Reference (noTxs vec)

/-- The snapshot of two parallel blocks on a genesis of ten units. -/
def forkBytes : Option (List U8) := do
  let ((genesis, _), n) ← (Node.new.genesis ⟨.sorted, 0⟩ 3 10 10 1).toOption
  let (_, n) ← (n.receiveBlock ⟨.sorted, 0⟩ ⟨vec [genesis], 1, 1, 0, noTxs⟩).toOption
  let (_, n) ← (n.receiveBlock ⟨.sorted, 0⟩ ⟨vec [genesis], 1, 2, 0, noTxs⟩).toOption
  return (← n.ledger).writeSnapshot .sorted

/-- Nine units are sent in a block that merges the two, and eight of these in the next. -/
def payments : List String :=
  ["tips", "send 1 9 1", "pool 1 8 1", "pending", "produce", "balance 1", "len"]

/-- The fork is loaded and spent on, with the maps in two orders. -/
theorem session_ignores_iteration_order_fork : ∃ files answers,
    (serve disk .new files (typed .sorted ("load fork.snap" :: payments))).1 = answers ∧
    (serve disk .new files (typed backwards ("load fork.snap" :: payments))).1 = answers ∧
    answers.length = 8 ∧ "ok 8" ∈ answers ∧ "ok 5" ∈ answers := by
  have hcheck : forkBytes.any (fun bytes =>
      let answers :=
        (serve disk .new [("fork.snap", bytes)] (typed .sorted ("load fork.snap" :: payments))).1
      decide (answers.length = 8 ∧ "ok 8" ∈ answers ∧ "ok 5" ∈ answers)) = true := by
    decide +kernel
  obtain ⟨bytes, _, hdec⟩ := Option.any_eq_true _ _ |>.1 hcheck
  have hsame := (session_ignores_iteration_order disk [("fork.snap", bytes)]
    (sameLines_typed .sorted backwards ("load fork.snap" :: payments))).1
  exact ⟨_, _, rfl, hsame.symm, of_decide_eq_true hdec⟩

/-- The fork is loaded, saved and loaded again, and then spent on. -/
theorem reload_unnoticed_fork : ∃ n files' answers, Node.Quiet n ∧
    Node.save disk ⟨.sorted, 0⟩ n [] "a.snap" = (files', .ok ()) ∧
    (serve disk n [] (typed .sorted ("save a.snap" :: "load a.snap" :: payments))).1 =
      "ok saved a.snap" :: "ok loaded" :: answers ∧
    answers.length = 7 ∧ "ok 8" ∈ answers ∧ "ok 5" ∈ answers := by
  have hcheck : forkBytes.any (fun bytes => (Node.new.load ⟨.sorted, 0⟩ bytes).toOption.any fun n =>
      (Node.save disk ⟨.sorted, 0⟩ n [] "a.snap").2.toOption.any fun _ =>
        let answers := (serve disk n [] (typed .sorted ("save a.snap" :: payments))).1.tail
        decide (answers.length = 7 ∧ "ok 8" ∈ answers ∧ "ok 5" ∈ answers)) = true := by
    decide +kernel
  obtain ⟨bytes, _, hloads⟩ := Option.any_eq_true _ _ |>.1 hcheck
  obtain ⟨n, hload, hsaves⟩ := Option.any_eq_true _ _ |>.1 hloads
  obtain ⟨_, hsaved, hdec⟩ := Option.any_eq_true _ _ |>.1 hsaves
  have hn : n.Quiet := Node.Quiet.new.load (ok_of_toOption hload)
  have hsave : Node.save disk ⟨.sorted, 0⟩ n [] "a.snap" = (_, .ok ()) :=
    Prod.ext rfl (ok_of_toOption hsaved)
  obtain ⟨answers, hwithout, hwith, _⟩ := reload_unnoticed lawful_disk hn (by decide) hsave
    ⟨.sorted, 0⟩ (typed .sorted payments)
  have hanswers := of_decide_eq_true hdec
  have hlines : typed .sorted ("save a.snap" :: payments) =
      (⟨.sorted, 0⟩, (Command.save "a.snap").line) :: typed .sorted payments := rfl
  rw [hlines, hwithout] at hanswers
  exact ⟨n, _, answers, hn, hsave, hwith, hanswers⟩

end Rpc.Disk

end Kovanica
