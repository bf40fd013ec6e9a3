import Mathlib.Data.Set.Basic
import Mathlib.Logic.Relation

/-!
# Causal floods over a first-in first-out queue

Sites hold items, each known by its key and each needing the keys of others.  A
site that comes to hold an item tells its peers, sparing at most the peer it has
the item from; all letters go through one queue.  Then a letter is never ahead of
what its item needs, and once the queue is empty connected sites hold the same.

## Main results

* `Causal.step`: every step keeps the invariant, an item that is made as well as a letter that
  is received.
* `Causal.needs_held`: under the invariant, what the next letter's item needs is there.
* `Causal.settled`: with nothing queued, linked sites hold the same items.
-/

namespace Kovanica.Lib.Flood

open Relation

variable {Site Item Key : Type}

/-- An item on its way from one site to another.  Letters are delivered in the order they were
sent, whoever sent them. -/
structure Letter (Site Item : Type) where
  sender : Site
  target : Site
  item : Item

/-- The keys each site holds, and the letters in the order of their delivery.  Letters are only
ever added behind those that are under way. -/
structure State (Site Item Key : Type) where
  holds : Site → Set Key
  queue : List (Letter Site Item)

/-- The only change in what is held: `s` has gained `k`. -/
def Gains (f f' : State Site Item Key) (s : Site) (k : Key) : Prop :=
  ∀ t x, x ∈ f'.holds t ↔ x ∈ f.holds t ∨ (t = s ∧ x = k)

theorem Gains.mono {f f' : State Site Item Key} {s : Site} {k : Key} (h : Gains f f' s k)
    {t : Site} {x : Key} (hx : x ∈ f.holds t) : x ∈ f'.holds t := (h t x).2 (.inl hx)

theorem Gains.self {f f' : State Site Item Key} {s : Site} {k : Key} (h : Gains f f' s k) :
    k ∈ f'.holds s := (h s k).2 (.inr ⟨rfl, rfl⟩)

section Protocol

variable (key : Item → Key) (needs : Item → Set Key) (peers : Site → Site → Prop)

/-- Letters from `s` about `x`, one at least for every peer that is not spared.  The spared one
is the peer the item came from, which holds it already. -/
structure Relays (s : Site) (x : Item) (spared : Site → Prop)
    (letters : List (Letter Site Item)) : Prop where
  sound : ∀ q ∈ letters, q.sender = s ∧ q.item = x ∧ peers s q.target ∧ q.target ≠ s
  complete : ∀ t, peers s t → t ≠ s → ¬ spared t → ∃ q ∈ letters, q.target = t

/-- What can happen: a site announces an item whose needs it holds; a letter is
delivered where its item is held already, or is accepted and passed on. -/
inductive Step (f f' : State Site Item Key) : Prop
  | announce {s : Site} {x : Item} {letters : List (Letter Site Item)} :
      (∀ k ∈ needs x, k ∈ f.holds s) → Gains f f' s (key x) →
      Relays peers s x (fun _ => False) letters → f'.queue = f.queue ++ letters → Step f f'
  | drop {q : Letter Site Item} {rest : List (Letter Site Item)} :
      f.queue = q :: rest → key q.item ∈ f.holds q.target → (∀ t, f'.holds t = f.holds t) →
      f'.queue = rest → Step f f'
  | accept {q : Letter Site Item} {rest letters : List (Letter Site Item)} :
      f.queue = q :: rest → Gains f f' q.target (key q.item) →
      Relays peers q.target q.item (· = q.sender) letters → f'.queue = rest ++ letters → Step f f'

/-- The site holds the key, or a letter will bring it. -/
def Due (f : State Site Item Key) (t : Site) (k : Key) : Prop :=
  k ∈ f.holds t ∨ ∃ q ∈ f.queue, q.target = t ∧ key q.item = k

/-- The invariant of a flood: what an item needs is held by its recipient or comes before it in
the queue, and what a site holds its peers hold or will be sent. -/
structure Causal (f : State Site Item Key) : Prop where
  sent : ∀ q ∈ f.queue, key q.item ∈ f.holds q.sender
  covered : ∀ s t, peers s t → ∀ k ∈ f.holds s, Due key f t k
  causal : ∀ before q after, f.queue = before ++ q :: after → ∀ k ∈ needs q.item,
    k ∈ f.holds q.target ∨ ∃ q' ∈ before, q'.target = q.target ∧ key q'.item = k

variable {key needs peers} {f f' : State Site Item Key}

/-- With nothing under way, peers that hold the same have settled. -/
theorem causal_of_queue_nil (hqueue : f.queue = [])
    (hsame : ∀ s t, peers s t → f.holds s ⊆ f.holds t) : Causal key needs peers f := by
  refine ⟨fun q hq => ?_, fun s t hpeers k hk => .inl (hsame s t hpeers hk), ?_⟩
  · rw [hqueue] at hq
    exact absurd hq List.not_mem_nil
  · intro before q after hsplit
    rw [hqueue] at hsplit
    exact absurd hsplit.symm (by simp)

/-- What the next letter's item needs is held where it goes. -/
theorem Causal.needs_held (h : Causal key needs peers f) {q : Letter Site Item}
    {rest : List (Letter Site Item)} (hhead : f.queue = q :: rest) {k : Key}
    (hk : k ∈ needs q.item) : k ∈ f.holds q.target := by
  rcases h.causal [] q rest hhead k hk with hheld | ⟨q', hq', _⟩
  · exact hheld
  · exact absurd hq' List.not_mem_nil

/-- Nothing stays between connected sites once the queue is empty. -/
theorem Causal.settled (h : Causal key needs peers f) (hqueue : f.queue = []) {s t : Site}
    (hconn : ReflTransGen peers s t) {k : Key} (hk : k ∈ f.holds s) : k ∈ f.holds t := by
  induction hconn with
  | refl => exact hk
  | tail _ hpeers ih =>
      rcases h.covered _ _ hpeers k ih with hheld | ⟨q, hq, _⟩
      · exact hheld
      · rw [hqueue] at hq
        exact absurd hq List.not_mem_nil

/-- Splitting an appended queue at one of its letters. -/
private theorem split_append {queue letters before after : List (Letter Site Item)}
    {q : Letter Site Item} (h : queue ++ letters = before ++ q :: after) :
    (∃ rest, queue = before ++ q :: rest) ∨
      q ∈ letters ∧ ∃ middle, before = queue ++ middle := by
  rcases List.append_eq_append_iff.1 h with ⟨middle, hbefore, hletters⟩ | ⟨rest, hqueue, hrest⟩
  · exact .inr ⟨hletters ▸ List.mem_append_right _ (List.mem_cons_self ..), middle, hbefore⟩
  · cases rest with
    | nil =>
        rw [List.append_nil] at hqueue
        rw [List.nil_append] at hrest
        exact .inr ⟨hrest ▸ List.mem_cons_self .., [], by rw [hqueue, List.append_nil]⟩
    | cons q' rest =>
        obtain ⟨rfl, _⟩ := List.cons.inj hrest
        exact .inl ⟨rest, hqueue⟩

theorem Causal.announce (h : Causal key needs peers f) {s : Site} {x : Item}
    {letters : List (Letter Site Item)} (hneeds : ∀ k ∈ needs x, k ∈ f.holds s)
    (hgains : Gains f f' s (key x)) (hrelays : Relays peers s x (fun _ => False) letters)
    (hqueue : f'.queue = f.queue ++ letters) : Causal key needs peers f' := by
  have hkeep : ∀ t k, Due key f t k → Due key f' t k := by
    rintro t k (hheld | ⟨q, hq, hto⟩)
    · exact .inl (hgains.mono hheld)
    · exact .inr ⟨q, hqueue ▸ List.mem_append_left _ hq, hto⟩
  refine ⟨fun q hq => ?_, fun u t hpeers k hk => ?_, fun before q after hsplit k hk => ?_⟩
  · rw [hqueue] at hq
    rcases List.mem_append.1 hq with hold | hnew
    · exact hgains.mono (h.sent q hold)
    · obtain ⟨hsender, hitem, _⟩ := hrelays.sound q hnew
      rw [hsender, hitem]
      exact hgains.self
  · rcases (hgains u k).1 hk with hold | ⟨rfl, rfl⟩
    · exact hkeep t k (h.covered u t hpeers k hold)
    · by_cases hself : t = u
      · exact .inl (hself ▸ hgains.self)
      · obtain ⟨q, hq, hto⟩ := hrelays.complete t hpeers hself id
        refine .inr ⟨q, hqueue ▸ List.mem_append_right _ hq, hto, ?_⟩
        rw [(hrelays.sound q hq).2.1]
  · rw [hqueue] at hsplit
    rcases split_append hsplit with ⟨rest, hold⟩ | ⟨hnew, middle, rfl⟩
    · exact (h.causal before q rest hold k hk).imp_left hgains.mono
    · -- the announcing site holds the need, so it is at the peer or queued to it
      obtain ⟨_, hitem, hpeers, _⟩ := hrelays.sound q hnew
      rcases h.covered s q.target hpeers k (hneeds k (hitem ▸ hk)) with hheld | ⟨q', hq', hto⟩
      · exact .inl (hgains.mono hheld)
      · exact .inr ⟨q', List.mem_append_left _ hq', hto⟩

theorem Causal.drop (h : Causal key needs peers f) {q : Letter Site Item}
    {rest : List (Letter Site Item)} (hhead : f.queue = q :: rest)
    (hheld : key q.item ∈ f.holds q.target) (hholds : ∀ t, f'.holds t = f.holds t)
    (hqueue : f'.queue = rest) : Causal key needs peers f' := by
  refine ⟨fun q' hq' => ?_, fun s t hpeers k hk => ?_, fun before q' after hsplit k hk => ?_⟩
  · rw [hholds]
    exact h.sent q' (hhead ▸ List.mem_cons_of_mem _ (hqueue ▸ hq'))
  · rw [hholds] at hk
    rw [Due, hholds]
    rcases h.covered s t hpeers k hk with hin | ⟨q', hq', rfl, rfl⟩
    · exact .inl hin
    · rw [hhead] at hq'
      rcases List.mem_cons.1 hq' with rfl | hq'
      · exact .inl hheld
      · exact .inr ⟨q', hqueue ▸ hq', rfl, rfl⟩
  · rw [hholds]
    have hwhole : f.queue = (q :: before) ++ q' :: after := by
      rw [hhead, ← hqueue, hsplit, List.cons_append]
    rcases h.causal _ q' after hwhole k hk with hin | ⟨q₁, hq₁, hto, rfl⟩
    · exact .inl hin
    · rcases List.mem_cons.1 hq₁ with rfl | hq₁
      · exact .inl (hto ▸ hheld)
      · exact .inr ⟨q₁, hq₁, hto, rfl⟩

theorem Causal.accept (h : Causal key needs peers f) {q : Letter Site Item}
    {rest letters : List (Letter Site Item)} (hhead : f.queue = q :: rest)
    (hgains : Gains f f' q.target (key q.item))
    (hrelays : Relays peers q.target q.item (· = q.sender) letters)
    (hqueue : f'.queue = rest ++ letters) : Causal key needs peers f' := by
  have hkeep : ∀ t k, Due key f t k → Due key f' t k := by
    rintro t k (hheld | ⟨q', hq', rfl, rfl⟩)
    · exact .inl (hgains.mono hheld)
    · rw [hhead] at hq'
      rcases List.mem_cons.1 hq' with rfl | hq'
      · exact .inl hgains.self
      · exact .inr ⟨q', hqueue ▸ List.mem_append_left _ hq', rfl, rfl⟩
  have hsender : key q.item ∈ f.holds q.sender := h.sent q (hhead ▸ List.mem_cons_self ..)
  refine ⟨fun q' hq' => ?_, fun s t hpeers k hk => ?_, fun before q' after hsplit k hk => ?_⟩
  · rw [hqueue] at hq'
    rcases List.mem_append.1 hq' with hold | hnew
    · exact hgains.mono (h.sent q' (hhead ▸ List.mem_cons_of_mem _ hold))
    · obtain ⟨hfrom, hitem, _⟩ := hrelays.sound q' hnew
      rw [hfrom, hitem]
      exact hgains.self
  · rcases (hgains s k).1 hk with hold | ⟨rfl, rfl⟩
    · exact hkeep t k (h.covered s t hpeers k hold)
    · by_cases hself : t = q.target
      · exact .inl (hself ▸ hgains.self)
      by_cases hspared : t = q.sender
      · exact .inl (hgains.mono (hspared ▸ hsender))
      · obtain ⟨q', hq', hto⟩ := hrelays.complete t hpeers hself hspared
        refine .inr ⟨q', hqueue ▸ List.mem_append_right _ hq', hto, ?_⟩
        rw [(hrelays.sound q' hq').2.1]
  · rw [hqueue] at hsplit
    rcases split_append hsplit with ⟨middle, hold⟩ | ⟨hnew, middle, rfl⟩
    · have hwhole : f.queue = (q :: before) ++ q' :: middle := by
        rw [hhead, hold, List.cons_append]
      rcases h.causal _ q' middle hwhole k hk with hin | ⟨q₁, hq₁, hto, rfl⟩
      · exact .inl (hgains.mono hin)
      · rcases List.mem_cons.1 hq₁ with rfl | hq₁
        · exact .inl (hto ▸ hgains.self)
        · exact .inr ⟨q₁, hq₁, hto, rfl⟩
    · -- the target holds the need, and the letter just read was not for the peer
      obtain ⟨_, hitem, hpeers, hne⟩ := hrelays.sound q' hnew
      have hheld := h.needs_held hhead (hitem ▸ hk)
      rcases h.covered q.target q'.target hpeers k hheld with hin | ⟨q₁, hq₁, hto, hkey⟩
      · exact .inl (hgains.mono hin)
      · rw [hhead] at hq₁
        rcases List.mem_cons.1 hq₁ with rfl | hq₁
        · exact absurd hto.symm hne
        · exact .inr ⟨q₁, List.mem_append_left _ hq₁, hto, hkey⟩

/-- Every step keeps the invariant. -/
theorem Causal.step (h : Causal key needs peers f) (hstep : Step key needs peers f f') :
    Causal key needs peers f' := by
  cases hstep with
  | announce hneeds hgains hrelays hqueue => exact h.announce hneeds hgains hrelays hqueue
  | drop hhead hheld hholds hqueue => exact h.drop hhead hheld hholds hqueue
  | accept hhead hgains hrelays hqueue => exact h.accept hhead hgains hrelays hqueue

end Protocol

end Kovanica.Lib.Flood
