import Kovanica.Node.Uptime

/-!
# Blocks are kept

Unless a reset is allowed, a node of the explorer never loses a block: the record it gives
for an id at some time of a run, it gives at every later time.

This is a consequence of `Node.Keeps`: that a node has the record of a block is a property that
every call of a node keeps, and only a reset puts other nodes in their place.
-/

namespace Kovanica

open Lib

variable {F : Type} [Crypto]

namespace Explorer

/-- The node runs, and it gives the records that the node of its name gave, unless a reset is
allowed. -/
structure Lasting (host : Host F) (earlier : Explorer) (name : String) (n : Node) : Prop where
  running : Running n
  retains : host.flag "KOVANICA_ALLOW_RESET" false = false →
    ∀ n₀, earlier.mesh.nodes.lookup name = some n₀ → n₀.Retains n

variable {host : Host F} {earlier : Explorer} {name : String} {n n' : Node}

theorem Lasting.of_kept (h : Lasting host earlier name n) (hrunning : Running n')
    (hkept : Node.Kept n n') : Lasting host earlier name n' where
  running := hrunning
  retains := fun hflag n₀ hn₀ => (h.retains hflag n₀ hn₀).trans (.of_kept hkept)

theorem Lasting.of_produced (h : Lasting host earlier name n) (hrunning : Running n')
    {id : BlockId} (hproduced : Node.Produced n n' id) : Lasting host earlier name n' where
  running := hrunning
  retains := fun hflag n₀ hn₀ =>
    (h.retains hflag n₀ hn₀).trans (.of_produced h.running.reachable hproduced)

theorem upholds_lasting (host : Host F) (earlier : Explorer) :
    Upholds host (Lasting host earlier) fun _ => True where
  plain := fun h => h.running.reachable.isPlain
  hello := fun _ => trivial
  receive := by
    intro name n n' env record id h _ hcall
    rcases Node.receiveBlock_cases hcall with rfl | hproduced
    · exact h
    · exact h.of_produced (h.running.receiveBlock hcall) hproduced
  submit := fun h _ hcall => h.of_kept (h.running.submitTx hcall) (Node.submitTx_kept hcall)
  produce := by
    intro name n n' env id h hcall
    have hcases := Node.produceBlock_cases hcall
    cases id with
    | none =>
        obtain rfl : n' = n := hcases
        exact h
    | some id => exact h.of_produced (h.running.produceBlock hcall) hcases
  produceEmpty := fun h hcall =>
    h.of_produced (h.running.produceEmpty hcall) (Node.produceEmpty_produced hcall)
  record := fun _ _ => trivial
  pending := fun _ _ => trivial
  sendTo := fun _ _ _ _ _ _ _ _ _ h hcall =>
    h.of_produced (h.running.sendTo hcall) (Node.sendTo_produced hcall)
  pool := fun _ _ _ _ _ _ _ _ _ h hcall =>
    h.of_kept (h.running.pool hcall) (Node.pool_kept hcall)
  setMiner := fun _ _ _ addr h => h.of_kept (h.running.setMiner addr) ⟨rfl, rfl⟩
  boots := by
    intro hallowed env files name
    refine (loadOrGenesis_leaves host env files name).value_of fun n _ hn => ⟨hn, fun hflag => ?_⟩
    rw [hallowed] at hflag
    cases hflag

theorem suits_lasting (event : Event) : event.Suits (Lasting host earlier) fun _ => True := by
  cases event with
  | request text =>
      intro _ sender amount recipient sig _ name n n' env id h hcall
      exact h.of_kept (h.running.submitSigned hcall) (Node.submitSigned_kept hcall)
  | tick traffic => exact fun _ _ _ _ _ _ _ => trivial

theorem up_lasting (h : Up host (fun _ => Running) (fun _ => True) earlier) :
    Up host (Lasting host earlier) (fun _ => True) earlier where
  mesh := by
    refine ⟨h.mesh.keys, fun hn => ⟨h.mesh.nodes hn, fun _ n₀ hn₀ => ?_⟩, h.mesh.peers,
      h.mesh.letters, h.mesh.events⟩
    obtain rfl := Option.some.inj (hn₀.symm.trans hn)
    exact .refl n₀
  selected := h.selected
  faucet := h.faucet
  allowReset := h.allowReset
  operator := h.operator

/-- Whatever the process meets after some time of a run, no node has lost a block since: the
record it gave for an id it still gives. -/
theorem blocks_are_kept (host : Host F) (envs : Nat → Nat → Env) (files : F)
    (before after : List ((Nat → Nat → Env) × Event)) :
    Leaves (fun earlier =>
        Leaves (fun later => host.flag "KOVANICA_ALLOW_RESET" false = false →
            ∀ name n, earlier.1.mesh.nodes.lookup name = some n →
              ∃ n', later.1.mesh.nodes.lookup name = some n' ∧ n.Retains n')
          (rounds host after earlier.1 earlier.2).2)
      (serve host envs files before).2 := by
  refine (serve_running host envs files before).left.value_of fun earlier _ hearlier => ?_
  have hserved : Served host (Lasting host earlier.1) (fun _ => True) after _ :=
    rounds_served (upholds_lasting host earlier.1) (fun e _ => suits_lasting e.2)
      (up_lasting hearlier) earlier.2
  refine hserved.left.value_of fun later _ hlater hflag name n hn => ?_
  have hname := hlater.mesh.mem_iff.2 (hearlier.mesh.of_lookup hn)
  obtain ⟨n', hn'⟩ := Finmap.mem_iff.1 hname
  exact ⟨n', hn', (hlater.mesh.nodes hn').retains hflag n hn⟩

end Explorer

end Kovanica
