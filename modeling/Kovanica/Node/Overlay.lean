import Kovanica.Lib.Discovery
import Kovanica.Node.Frame

/-!
# The overlay of a mesh

While a mesh is only built, connected and ticked, nothing but hellos goes through
its queue.  Its nodes then discover one another: whenever the queue is empty, the
peers of a node are the other nodes of its component of the connect graph.

## Main results

* `learn`, `deliver`, `advance`: the calls of the mesh as steps of `Kovanica.Lib.Discovery`.
* `exists_deliverAll`: delivering hellos does not fail.
-/

namespace Kovanica

open Lib Relation

namespace Mesh

variable [Crypto]

/-- A mesh built by `add`, `connect` and `tick` in any order, and the connections
that were asked for.  A call that fails changes nothing. -/
inductive Overlay : List (String × String) → Mesh → Prop
  | start : Overlay [] new
  | add {links : List (String × String)} {m : Mesh} (name : String) (node : Node) :
      Overlay links m → Overlay links (m.add name node)
  | connect {links : List (String × String)} {m m' : Mesh} {sender recipient : String} :
      Overlay links m → m.connect sender recipient = .ok m' →
      Overlay (links ++ [(sender, recipient)]) m'
  | tick {links : List (String × String)} {m m' : Mesh} {envs : Nat → Env} {n : Nat} :
      Overlay links m → m.tick envs = .ok (n, m') → Overlay links m'

/-- Who knows whom in a mesh, and the hellos among these letters and the queued ones. -/
def discovery (m : Mesh) (due : List Queued) : Discovery.State String where
  knows := fun s => {x | x ∈ m.peerSet s}
  hellos := {h | ∃ q ∈ due ++ m.queue, ∃ advertised, q.envelope = .hello advertised ∧
    h = ⟨q.sender, q.recipient, {x | x ∈ advertised}⟩}

/-- The invariant of an overlay while these letters are still to be delivered: nothing but hellos
is under way, peers are registered, and the discovery has got as far as the links allow. -/
structure Discovering (links : List (String × String)) (m : Mesh) (due : List Queued) : Prop where
  hellos : ∀ q ∈ due ++ m.queue, ∃ advertised, q.envelope = .hello advertised
  registered : ∀ s x, x ∈ m.peerSet s → s ∈ m.nodes ∧ x ∈ m.nodes
  introduced : Discovery.Introduced (fun a b => (a, b) ∈ links) (m.discovery due)

variable {m m' : Mesh} {links : List (String × String)} {due : List Queued} {env : Env}

omit [Crypto] in
theorem peerSet_insert {name : String} {known : Finset String} (s : String)
    (h : m'.peers = m.peers.insert name known) :
    m'.peerSet s = if s = name then known else m.peerSet s := by
  rw [peerSet, h, lookup_insert_eq]
  split <;> rfl

omit [Crypto] in
/-- Meshes with the same peers and the same letters discover alike. -/
theorem discovery_congr {due' : List Queued} (hpeers : ∀ s, m'.peerSet s = m.peerSet s)
    (hletters : ∀ q, q ∈ due' ++ m'.queue ↔ q ∈ due ++ m.queue) :
    m'.discovery due' = m.discovery due := by
  unfold discovery
  simp only [hpeers, hletters]

namespace Discovering

omit [Crypto] in
theorem new : Discovering [] Mesh.new [] := by
  have hpeers : ∀ s, Mesh.new.peerSet s = ∅ := fun s => rfl
  refine ⟨fun q hq => absurd hq List.not_mem_nil, fun s x hx => ?_, ?_⟩
  · rw [hpeers] at hx
    exact absurd hx (Finset.notMem_empty x)
  · have hstart : Mesh.new.discovery [] = ⟨fun _ => ∅, ∅⟩ := by
      unfold discovery
      congr 1
      · funext s
        rw [hpeers]
        exact Set.eq_empty_iff_forall_notMem.2 fun x hx => absurd hx (Finset.notMem_empty x)
      · refine Set.eq_empty_iff_forall_notMem.2 ?_
        rintro h ⟨q, hq, _⟩
        exact absurd hq List.not_mem_nil
    have hnone : (fun a b : String => (a, b) ∈ ([] : List (String × String))) =
        fun _ _ => False := by
      funext a b
      exact propext ⟨fun h => absurd h List.not_mem_nil, False.elim⟩
    rw [hstart, hnone]
    exact Discovery.introduced_start

omit [Crypto] in
theorem add (h : Discovering links m due) (name : String) (node : Node) :
    Discovering links (m.add name node) due := by
  have hpeers : ∀ s, (m.add name node).peerSet s = m.peerSet s := by
    intro s
    rw [peerSet_insert s rfl]
    split
    · rename_i heq
      rw [heq]
      rfl
    · rfl
  refine ⟨h.hellos, fun s x hx => ?_, ?_⟩
  · rw [hpeers] at hx
    obtain ⟨hs, hx⟩ := h.registered s x hx
    exact ⟨Finmap.mem_insert.2 (.inr hs), Finmap.mem_insert.2 (.inr hx)⟩
  · rw [discovery_congr hpeers fun _ => Iff.rfl]
    exact h.introduced

omit [Crypto] in
/-- A registered node comes to know registered names and greets the new ones with all
the peers it then has. -/
theorem learn {links' : List (String × String)} {rest : List Queued} {name : String}
    (fresh : Set String) (letters : List Queued) (h : Discovering links m due)
    (hnodes : m'.nodes = m.nodes) (hname : name ∈ m.nodes) (hself : name ∉ fresh)
    (hmem : ∀ s x, x ∈ m'.peerSet s ↔ x ∈ m.peerSet s ∨ s = name ∧ x ∈ fresh)
    (hqueue : m'.queue = m.queue ++ letters)
    (hletters : ∀ q, q ∈ letters ↔ ∃ x, x ∈ m'.peerSet name ∧ x ∉ m.peerSet name ∧ x ≠ name ∧
      q = ⟨Word.saturatingAdd m.now 1, name, x, .hello (m'.peersOf name)⟩)
    (hrest : ∀ q ∈ rest, q ∈ due)
    (hheard : ∀ q ∈ due, q ∈ rest ∨ ∀ advertised, q.envelope = .hello advertised →
      q.recipient = name ∧ q.sender ∈ m'.peerSet name ∧
        ∀ x ∈ advertised, x ≠ name → x ∈ m'.peerSet name)
    (hlinks : ∀ p ∈ links, p ∈ links')
    (hfresh : ∀ x ∈ fresh, x ∈ m.nodes ∧ EqvGen (fun a b => (a, b) ∈ links') name x)
    (hdirect : ∀ s t, (s, t) ∈ links' → s ≠ t → (s, t) ∈ links ∨ t ∈ m'.peerSet s) :
    Discovering links' m' rest := by
  have hsaid : {x | x ∈ m'.peersOf name} = (m'.discovery rest).knows name := by
    ext x
    exact mem_ascending
  have hold : ∀ q, q ∈ rest ++ m'.queue → q ∈ due ++ m.queue ∨ q ∈ letters := by
    intro q hq
    rw [hqueue, ← List.append_assoc] at hq
    refine (List.mem_append.1 hq).imp_left fun hq => ?_
    exact List.mem_append.2 ((List.mem_append.1 hq).imp_left (hrest q))
  have hkept : ∀ q, q ∈ rest ∨ q ∈ m.queue ∨ q ∈ letters → q ∈ rest ++ m'.queue := by
    intro q hq
    rw [hqueue]
    exact List.mem_append.2 (hq.imp_right List.mem_append.2)
  refine ⟨fun q hq => ?_, fun s x hx => ?_, h.introduced.learn fresh
    ⟨hself, fun s x => hmem s x, fun x hx hnew => ?_, ?_, ?_⟩ (fun _ _ => hlinks _)
    (fun x hx => (hfresh x hx).2) hdirect⟩
  · rcases hold q hq with hq | hq
    · exact h.hellos q hq
    · obtain ⟨x, _, _, _, rfl⟩ := (hletters q).1 hq
      exact ⟨_, rfl⟩
  · rw [hnodes]
    rcases (hmem s x).1 hx with hx | ⟨rfl, hx⟩
    · exact h.registered s x hx
    · exact ⟨hname, (hfresh x hx).1⟩
  · have hne : x ≠ name := fun heq => hself (heq ▸ hx)
    rw [← hsaid]
    refine ⟨⟨Word.saturatingAdd m.now 1, name, x, .hello (m'.peersOf name)⟩, hkept _ ?_, _, rfl, rfl⟩
    exact .inr (.inr ((hletters _).2 ⟨x, (hmem name x).2 (.inr ⟨rfl, hx⟩), hnew, hne, rfl⟩))
  · rintro hello ⟨q, hq, said, henvelope, rfl⟩
    rcases hold q hq with hq | hq
    · exact .inl ⟨q, hq, said, henvelope, rfl⟩
    · obtain ⟨x, hx, hnew, _, rfl⟩ := (hletters q).1 hq
      have hsays : m'.peersOf name = said := Envelope.hello.inj henvelope
      refine .inr ⟨rfl, (((hmem name x).1 hx).resolve_left hnew).2, ?_⟩
      rw [← hsaid, hsays]
  · rintro hello ⟨q, hq, said, henvelope, rfl⟩
    rcases List.mem_append.1 hq with hq | hq
    · rcases hheard q hq with hq | hall
      · exact .inl ⟨q, hkept q (.inl hq), said, henvelope, rfl⟩
      · exact .inr (hall said henvelope)
    · exact .inl ⟨q, hkept q (.inr (.inl hq)), said, henvelope, rfl⟩

omit [Crypto] in
theorem connect (h : Discovering links m []) {sender recipient : String}
    (hconnect : m.connect sender recipient = .ok m') :
    Discovering (links ++ [(sender, recipient)]) m' [] := by
  obtain ⟨hsender, hrecipient, hcases⟩ := connect_eq_ok hconnect
  have hlinks : ∀ p ∈ links, p ∈ links ++ [(sender, recipient)] :=
    fun p hp => List.mem_append_left _ hp
  have hlast : ∀ s t, (s, t) ∈ links ++ [(sender, recipient)] →
      (s, t) ∈ links ∨ s = sender ∧ t = recipient := by
    intro s t hst
    exact (List.mem_append.1 hst).imp_right fun hnew => Prod.mk.inj (List.mem_singleton.1 hnew)
  rcases hcases with ⟨hknown, rfl⟩ | ⟨hne, hnew, hm'⟩
  · -- nothing is learnt: the sender knows the recipient, or is the recipient
    have hnone : ∀ x, x ∉ (∅ : Set String) := fun x => Set.notMem_empty x
    refine h.learn ∅ [] rfl hsender (hnone _) (fun s x => ?_)
      (List.append_nil _).symm (fun q => ?_) (fun _ => id) (fun q hq => .inl hq) hlinks
      (fun x hx => absurd hx (hnone x)) fun s t hst hne => ?_
    · simp only [Set.mem_empty_iff_false, and_false, or_false]
    · refine iff_of_false List.not_mem_nil ?_
      rintro ⟨x, hx, hnot, _⟩
      exact hnot hx
    · rcases hlast s t hst with hold | ⟨rfl, rfl⟩
      · exact .inl hold
      · exact .inr (hknown.resolve_left hne)
  · have hmem : ∀ s x, x ∈ m'.peerSet s ↔ x ∈ m.peerSet s ∨ s = sender ∧ x = recipient := by
      intro s x
      rw [peerSet_insert (m := m) s (by rw [hm'])]
      by_cases hs : s = sender
      · rw [if_pos hs, Finset.mem_insert, hs]
        tauto
      · rw [if_neg hs]
        tauto
    have hpeers : m'.peersOf sender = ascending (insert recipient (m.peerSet sender)) := by
      rw [peersOf, peerSet_insert (m := m) sender (by rw [hm']), if_pos rfl]
    refine h.learn {recipient} [⟨Word.saturatingAdd m.now 1, sender,
      recipient, .hello (m'.peersOf sender)⟩] (by rw [hm']) hsender hne hmem
      (by rw [hpeers, hm']) (fun q => ?_) (fun _ => id) (fun q hq => .inl hq) hlinks ?_ ?_
    · rw [List.mem_singleton]
      constructor
      · rintro rfl
        exact ⟨recipient, (hmem _ _).2 (.inr ⟨rfl, rfl⟩), hnew, hne.symm, rfl⟩
      · rintro ⟨x, hx, hnot, _, rfl⟩
        rw [(((hmem sender x).1 hx).resolve_left hnot).2]
    · rintro x rfl
      exact ⟨hrecipient, .rel _ _ (List.mem_append_right _ (List.mem_singleton.2 rfl))⟩
    · intro s t hst _
      rcases hlast s t hst with hold | ⟨rfl, rfl⟩
      · exact .inl hold
      · exact .inr ((hmem _ _).2 (.inr ⟨rfl, rfl⟩))

/-- The next hello is heard by a registered node, which then knows its sender and all
it advertises. -/
theorem deliver {q : Queued} {rest : List Queued} (h : Discovering links m (q :: rest))
    (hdeliver : m.deliver env q = .ok m') : Discovering links m' rest := by
  obtain ⟨advertised, hq⟩ := h.hellos q (List.mem_append_left _ (List.mem_cons_self ..))
  obtain ⟨hknown, hsub⟩ := h.introduced.sound ⟨q.sender, q.recipient, {x | x ∈ advertised}⟩
    ⟨q, List.mem_append_left _ (List.mem_cons_self ..), advertised, hq, rfl⟩
  have hrecipient : q.recipient ∈ m.nodes := (h.registered _ _ hknown).2
  have hne : q.recipient ≠ q.sender := by
    intro heq
    exact h.introduced.not_self q.sender (heq ▸ hknown)
  have hadvertised : ∀ x ∈ advertised, x ∈ m.nodes := fun x hx => (h.registered _ x (hsub hx)).2
  have hm' : m' = (m.noted q).onHello q.recipient q.sender advertised := by
    unfold Mesh.deliver at hdeliver
    simp only [hq] at hdeliver
    rw [noted, hq]
    exact (Except.ok.inj hdeliver).symm
  have hheard := (m.noted q).onHello_heard q.recipient q.sender advertised hrecipient
  rw [← hm'] at hheard
  obtain ⟨letters, hqueue, hletters⟩ := hheard.queue
  have hself : ∀ x, x ∈ m'.peerSet q.recipient ↔ x ∈ m.peerSet q.recipient ∨ x = q.sender ∨
      x ∈ advertised ∧ x ≠ q.recipient ∧ x ≠ q.sender ∧ x ∈ m.nodes := hheard.mem_peerSet
  have hother : ∀ s, s ≠ q.recipient → m'.peerSet s = m.peerSet s := hheard.peerSet_other
  refine h.learn {x | x = q.sender ∨
      x ∈ advertised ∧ x ≠ q.recipient ∧ x ≠ q.sender ∧ x ∈ m.nodes} letters
    hheard.same.nodes hrecipient ?_ (fun s x => ?_) hqueue hletters
    (fun _ hr => List.mem_cons_of_mem _ hr) (fun r hr => ?_) (fun _ => id) ?_
    fun s t hst _ => .inl hst
  · rintro (heq | ⟨_, hname, _⟩)
    · exact hne heq
    · exact hname rfl
  · by_cases hs : s = q.recipient
    · rw [hs, hself, Set.mem_ofPred_eq]
      tauto
    · rw [hother s hs]
      tauto
  · rcases List.mem_cons.1 hr with rfl | hr
    · right
      intro said henvelope
      rw [hq] at henvelope
      obtain rfl := Envelope.hello.inj henvelope
      refine ⟨rfl, (hself _).2 (.inr (.inl rfl)), fun x hx hxne => (hself x).2 ?_⟩
      by_cases hsender : x = r.sender
      · exact .inr (.inl hsender)
      · exact .inr (.inr ⟨hx, hxne, hsender, hadvertised x hx⟩)
    · exact .inl hr
  · have hback := (h.introduced.linked _ _ hknown).symm
    rintro x (rfl | ⟨hx, _⟩)
    · exact ⟨(h.registered _ _ hknown).1, hback⟩
    · exact ⟨hadvertised x hx, hback.trans _ _ _ (h.introduced.linked _ _ (hsub hx))⟩

theorem deliverAll {envs : Nat → Env} {i : Nat} (h : Discovering links m due)
    (hall : deliverAll envs i due m = .ok m') : Discovering links m' [] := by
  induction due generalizing i m with
  | nil =>
      rw [Mesh.deliverAll] at hall
      rw [← Except.ok.inj hall]
      exact h
  | cons q rest ih =>
      rw [Mesh.deliverAll] at hall
      cases hdeliver : m.deliver (envs i) q with
      | error e =>
          rw [hdeliver] at hall
          cases hall
      | ok m₁ =>
          rw [hdeliver] at hall
          exact ih (h.deliver hdeliver) hall

omit [Crypto] in
/-- Taking what is due from the queue changes nothing that is under way. -/
theorem advance (h : Discovering links m []) : Discovering links m.advance m.dueNow := by
  have hletters : ∀ q, q ∈ m.dueNow ++ m.advance.queue ↔ q ∈ [] ++ m.queue := by
    intro q
    rw [List.nil_append, List.mem_append, dueNow, Mesh.advance, List.mem_filter, List.mem_filter]
    by_cases hdue : q.due ≤ Word.saturatingAdd m.now 1 <;> simp [hdue]
  refine ⟨fun q hq => h.hellos q ((hletters q).1 hq), h.registered, ?_⟩
  have hsame : m.advance.discovery m.dueNow = m.discovery [] :=
    discovery_congr (fun _ => rfl) hletters
  rw [hsame]
  exact h.introduced

end Discovering

/-- A delivery of hellos always returns. -/
theorem exists_deliverAll {envs : Nat → Env} {i : Nat}
    (h : ∀ q ∈ due, ∃ advertised, q.envelope = .hello advertised) :
    ∃ m', deliverAll envs i due m = .ok m' := by
  induction due generalizing i m with
  | nil => exact ⟨m, rfl⟩
  | cons q rest ih =>
      rw [List.forall_mem_cons] at h
      obtain ⟨⟨advertised, hq⟩, hrest⟩ := h
      rw [Mesh.deliverAll, Mesh.deliver]
      simp only [hq]
      exact ih hrest

theorem Overlay.discovering (h : Overlay links m) : Discovering links m [] := by
  induction h with
  | start => exact .new
  | add name node _ ih => exact ih.add name node
  | connect _ hconnect ih => exact ih.connect hconnect
  | tick _ htick ih =>
      obtain ⟨after, hall, hret⟩ := Outcome.bind_eq_ok.1 htick
      obtain ⟨_, rfl⟩ := Prod.mk.inj (Except.ok.inj hret)
      exact ih.advance.deliverAll hall

/-- Discovery closes the overlay.  A tick always returns, and whenever the queue is
empty the peer relation is symmetric and transitive on distinct nodes, and two nodes
are peers iff connections link them. -/
theorem overlay_closed (h : Overlay links m) :
    (∀ envs, ∃ r, m.tick envs = .ok r) ∧
    (m.queue = [] →
      (∀ a b, b ∈ m.peersOf a → a ∈ m.peersOf b) ∧
      (∀ a b c, b ∈ m.peersOf a → c ∈ m.peersOf b → a ≠ c → c ∈ m.peersOf a) ∧
      ∀ a b, a ≠ b → (b ∈ m.peersOf a ↔ EqvGen (fun s t => (s, t) ∈ links) a b)) := by
  have hdiscovering := h.discovering
  refine ⟨fun envs => ?_, fun hqueue => ?_⟩
  · obtain ⟨m', hall⟩ : ∃ m', m.advance.deliverAll envs 0 m.dueNow = .ok m' :=
      exists_deliverAll fun q hq => hdiscovering.hellos q (List.mem_of_mem_filter hq)
    exact ⟨_, Outcome.bind_eq_ok.2 ⟨m', hall, rfl⟩⟩
  · have hquiet : (m.discovery []).hellos = ∅ := by
      refine Set.eq_empty_iff_forall_notMem.2 ?_
      rintro hello ⟨q, hq, _⟩
      rw [List.nil_append, hqueue] at hq
      exact absurd hq List.not_mem_nil
    have hmem : ∀ a b, b ∈ m.peersOf a ↔ b ∈ (m.discovery []).knows a := fun a b => mem_ascending
    simp only [hmem]
    exact hdiscovering.introduced.closed hquiet

end Mesh

namespace Mesh

open scoped Reference

/-- Three nodes connected in a line, and enough ticks.  The two ends come to know each other
through the middle. -/
def line : Option Mesh := do
  let m := ((new.add "alpha" .new).add "beta" .new).add "gamma" .new
  let m ← (m.connect "alpha" "beta").toOption
  let m ← (m.connect "beta" "gamma").toOption
  let (_, m) ← (m.tick fun _ => ⟨.sorted, 1⟩).toOption
  let (_, m) ← (m.tick fun _ => ⟨.sorted, 1⟩).toOption
  let (_, m) ← (m.tick fun _ => ⟨.sorted, 1⟩).toOption
  let (_, m) ← (m.tick fun _ => ⟨.sorted, 1⟩).toOption
  return m

/-- The ends of the line have become peers. -/
theorem overlay_closed_line : ∃ links m, Overlay links m ∧ m.queue = [] ∧
    "gamma" ∈ m.peersOf "alpha" := by
  have hplay : line.map (fun m => m.queue.isEmpty) = some true := by
    decide +kernel
  obtain ⟨m, hm, hqueue⟩ := Option.map_eq_some_iff.1 hplay
  unfold line at hm
  simp only [Option.bind_eq_bind, Option.bind_eq_some_iff] at hm
  obtain ⟨m₁, h₁, m₂, h₂, ⟨_, m₃⟩, h₃, ⟨_, m₄⟩, h₄, ⟨_, m₅⟩, h₅, ⟨_, m₆⟩,
    h₆, heq⟩ := hm
  obtain rfl := Option.some.inj heq
  have hrun : Overlay [] (((new.add "alpha" .new).add "beta" .new).add "gamma" .new) :=
    .add _ _ (.add _ _ (.add _ _ .start))
  have hline := (((((hrun.connect (ok_of_toOption h₁)).connect (ok_of_toOption h₂)).tick
    (ok_of_toOption h₃)).tick (ok_of_toOption h₄)).tick (ok_of_toOption h₅)).tick
    (ok_of_toOption h₆)
  have hempty := List.isEmpty_iff.1 hqueue
  refine ⟨_, _, hline, hempty, ((overlay_closed hline).2 hempty).2.2 _ _ (by decide) |>.2 ?_⟩
  exact .trans _ "beta" _ (.rel _ _ (by decide)) (.rel _ _ (by decide))

end Mesh

end Kovanica
