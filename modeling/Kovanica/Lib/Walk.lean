import Kovanica.Lib.Forest
import Mathlib.Data.List.Nodup

/-!
# Two graph loops

`pathUp` follows parent pointers to the root; `walk` is a breadth-first
traversal that does not expand the vertices of a boundary.  Both are written
with fuel, as structural recursions the kernel can run, and each comes with
the theorem that enough fuel computes the intended set: `mem_pathUp` from a
rank that decreases towards the root, `mem_walk` from the number of edges.

Where a caller has more fuel than is needed, `pathUp_fuel` makes the surplus irrelevant, so
that two stores with room for the same path compute the same one.
-/

namespace Kovanica.Lib

open Relation

variable {α : Type*}

/-! ## Following parent pointers -/

/-- `x`, its parent, its parent's parent, … up to the root, or until the fuel is used up.  A
rank that falls towards the root says how much fuel is enough. -/
def pathUp (tp : α → Option α) : Nat → α → List α
  | 0, _ => []
  | fuel + 1, x =>
      x :: match tp x with
        | none => []
        | some p => pathUp tp fuel p

section PathUp

variable {tp : α → Option α} {rank : α → Nat}
  (hrank : ∀ x p, tp x = some p → rank p < rank x)

include hrank

/-- Fuel beyond the rank changes nothing. -/
theorem pathUp_fuel {x : α} {fuel fuel' : Nat} (h : rank x < fuel) (h' : rank x < fuel') :
    pathUp tp fuel x = pathUp tp fuel' x := by
  induction fuel generalizing x fuel' with
  | zero => omega
  | succ fuel ih =>
      cases fuel' with
      | zero => omega
      | succ fuel' =>
          simp only [pathUp]
          cases hx : tp x with
          | none => rfl
          | some p =>
              have hp := hrank x p hx
              simp only [@ih p fuel' (by omega) (by omega)]

omit hrank in
theorem pathUp_root {x : α} {fuel : Nat} (h : rank x < fuel) (hx : tp x = none) :
    pathUp tp fuel x = [x] := by
  cases fuel with
  | zero => omega
  | succ fuel => simp [pathUp, hx]

theorem pathUp_step {x p : α} {fuel : Nat} (h : rank x < fuel) (hx : tp x = some p) :
    pathUp tp fuel x = x :: pathUp tp fuel p := by
  have hp := hrank x p hx
  cases fuel with
  | zero => omega
  | succ fuel =>
      have hfuel : pathUp tp (fuel + 1) p = pathUp tp fuel p :=
        pathUp_fuel hrank (by omega) (by omega)
      rw [hfuel]
      simp only [pathUp, hx]

/-- The path consists of the vertex and its ancestors. -/
theorem mem_pathUp {x y : α} {fuel : Nat} (h : rank x < fuel) :
    y ∈ pathUp tp fuel x ↔ ReflTransGen (TreeEdge tp) y x := by
  induction fuel generalizing x with
  | zero => omega
  | succ fuel ih =>
      cases hx : tp x with
      | none =>
          rw [pathUp_root h hx, List.mem_singleton, reflTransGen_iff_eq_or_transGen]
          constructor
          · exact fun hy => .inl hy.symm
          · rintro (heq | hlt)
            · exact heq.symm
            · obtain ⟨c, _, hcx⟩ := TransGen.tail'_iff.1 hlt
              have hcx' : tp x = some c := hcx
              rw [hx] at hcx'
              cases hcx'
      | some p =>
          have hp := hrank x p hx
          have hfuel : pathUp tp (fuel + 1) p = pathUp tp fuel p :=
            pathUp_fuel hrank (by omega) (by omega)
          rw [pathUp_step hrank h hx, hfuel, List.mem_cons, ih (by omega),
            ← transGen_treeEdge_iff hx, reflTransGen_iff_eq_or_transGen, eq_comm (a := y)]

theorem rank_le_of_mem_pathUp {x y : α} {fuel : Nat} (h : rank x < fuel)
    (hy : y ∈ pathUp tp fuel x) : rank y ≤ rank x := by
  rcases reflTransGen_iff_eq_or_transGen.1 ((mem_pathUp hrank h).1 hy) with heq | hlt
  · rw [heq]
  · exact Nat.le_of_lt (lt_of_transGen (fun a b hab => hrank b a hab) hlt)

/-- Ranks strictly decrease along the path. -/
theorem pathUp_pairwise {x : α} {fuel : Nat} (h : rank x < fuel) :
    (pathUp tp fuel x).Pairwise fun a b => rank b < rank a := by
  induction fuel generalizing x with
  | zero => omega
  | succ fuel ih =>
      cases hx : tp x with
      | none =>
          rw [pathUp_root h hx]
          exact List.pairwise_singleton _ _
      | some p =>
          have hp := hrank x p hx
          have hfuel : pathUp tp (fuel + 1) p = pathUp tp fuel p :=
            pathUp_fuel hrank (by omega) (by omega)
          rw [pathUp_step hrank h hx, hfuel]
          refine List.Pairwise.cons ?_ (ih (by omega))
          intro y hy
          have hle := rank_le_of_mem_pathUp hrank (by omega) hy
          omega

theorem nodup_pathUp {x : α} {fuel : Nat} (h : rank x < fuel) : (pathUp tp fuel x).Nodup :=
  (pathUp_pairwise hrank h).imp fun hab heq => by
    rw [heq] at hab
    omega

end PathUp

/-! ## Breadth-first traversal with a boundary -/

/-- Pop vertices off `queue`; a vertex not seen before is emitted and expanded
unless it lies on the boundary. -/
def walk [DecidableEq α] (next : α → List α) (stop : α → Bool) :
    Nat → List α → Finset α → List α → List α
  | 0, _, _, out => out
  | _ + 1, [], _, out => out
  | fuel + 1, x :: queue, seen, out =>
      if x ∈ seen then walk next stop fuel queue seen out
      else if stop x then walk next stop fuel queue (insert x seen) out
      else walk next stop fuel (queue ++ next x) (insert x seen) (out ++ [x])

/-- Reachable from `init` through vertices that are not on the boundary: what the traversal is
to find, told without its queue. -/
inductive Visited (next : α → List α) (stop : α → Bool) (init : List α) : α → Prop
  | start {x : α} : x ∈ init → Visited next stop init x
  | step {x y : α} : Visited next stop init y → stop y = false → x ∈ next y →
      Visited next stop init x

section Walk

variable {next : α → List α} {stop : α → Bool} {init : List α}

/-- What every state of the traversal satisfies: what is seen or queued is reachable, and what a
vertex off the boundary leads to is seen or queued once the vertex is seen. -/
structure WalkInv (next : α → List α) (stop : α → Bool) (init queue : List α)
    (seen : Finset α) (out : List α) : Prop where
  visited : ∀ x, x ∈ seen ∨ x ∈ queue → Visited next stop init x
  init_sub : ∀ x ∈ init, x ∈ seen ∨ x ∈ queue
  expanded : ∀ y ∈ seen, stop y = false → ∀ z ∈ next y, z ∈ seen ∨ z ∈ queue
  out_iff : ∀ x, x ∈ out ↔ x ∈ seen ∧ stop x = false
  nodup : out.Nodup

theorem WalkInv.start (next : α → List α) (stop : α → Bool) (init : List α) :
    WalkInv next stop init init ∅ [] where
  visited := by
    rintro x (hx | hx)
    · simp at hx
    · exact .start hx
  init_sub := fun x hx => .inr hx
  expanded := by simp
  out_iff := by simp
  nodup := List.nodup_nil

namespace WalkInv

variable {x : α} {queue : List α} {seen : Finset α} {out : List α}

theorem skip (h : WalkInv next stop init (x :: queue) seen out) (hx : x ∈ seen) :
    WalkInv next stop init queue seen out where
  visited := fun y hy => h.visited y (hy.imp id (List.mem_cons_of_mem x))
  init_sub := fun y hy => by
    rcases h.init_sub y hy with hs | hq
    · exact .inl hs
    · rcases List.mem_cons.1 hq with rfl | hq
      · exact .inl hx
      · exact .inr hq
  expanded := fun y hy hstop z hz => by
    rcases h.expanded y hy hstop z hz with hs | hq
    · exact .inl hs
    · rcases List.mem_cons.1 hq with rfl | hq
      · exact .inl hx
      · exact .inr hq
  out_iff := h.out_iff
  nodup := h.nodup

theorem boundary [DecidableEq α]
    (h : WalkInv next stop init (x :: queue) seen out) (hx : stop x = true) :
    WalkInv next stop init queue (insert x seen) out where
  visited := fun y hy => by
    rcases hy with hs | hq
    · rcases Finset.mem_insert.1 hs with rfl | hs
      · exact h.visited y (.inr (List.mem_cons_self ..))
      · exact h.visited y (.inl hs)
    · exact h.visited y (.inr (List.mem_cons_of_mem x hq))
  init_sub := fun y hy => by
    rcases h.init_sub y hy with hs | hq
    · exact .inl (Finset.mem_insert_of_mem hs)
    · rcases List.mem_cons.1 hq with rfl | hq
      · exact .inl (Finset.mem_insert_self ..)
      · exact .inr hq
  expanded := fun y hy hstop z hz => by
    rcases Finset.mem_insert.1 hy with rfl | hy
    · rw [hx] at hstop
      cases hstop
    · rcases h.expanded y hy hstop z hz with hs | hq
      · exact .inl (Finset.mem_insert_of_mem hs)
      · rcases List.mem_cons.1 hq with rfl | hq
        · exact .inl (Finset.mem_insert_self ..)
        · exact .inr hq
  out_iff := fun y => by
    rw [h.out_iff, Finset.mem_insert]
    constructor
    · rintro ⟨hs, hstop⟩
      exact ⟨.inr hs, hstop⟩
    · rintro ⟨rfl | hs, hstop⟩
      · rw [hx] at hstop
        cases hstop
      · exact ⟨hs, hstop⟩
  nodup := h.nodup

theorem emit [DecidableEq α]
    (h : WalkInv next stop init (x :: queue) seen out) (hseen : x ∉ seen)
    (hx : stop x = false) :
    WalkInv next stop init (queue ++ next x) (insert x seen) (out ++ [x]) where
  visited := fun y hy => by
    have hvis : Visited next stop init x := h.visited x (.inr (List.mem_cons_self ..))
    rcases hy with hs | hq
    · rcases Finset.mem_insert.1 hs with rfl | hs
      · exact hvis
      · exact h.visited y (.inl hs)
    · rcases List.mem_append.1 hq with hq | hn
      · exact h.visited y (.inr (List.mem_cons_of_mem x hq))
      · exact .step hvis hx hn
  init_sub := fun y hy => by
    rcases h.init_sub y hy with hs | hq
    · exact .inl (Finset.mem_insert_of_mem hs)
    · rcases List.mem_cons.1 hq with rfl | hq
      · exact .inl (Finset.mem_insert_self ..)
      · exact .inr (List.mem_append_left _ hq)
  expanded := fun y hy hstop z hz => by
    rcases Finset.mem_insert.1 hy with rfl | hy
    · exact .inr (List.mem_append_right _ hz)
    · rcases h.expanded y hy hstop z hz with hs | hq
      · exact .inl (Finset.mem_insert_of_mem hs)
      · rcases List.mem_cons.1 hq with rfl | hq
        · exact .inl (Finset.mem_insert_self ..)
        · exact .inr (List.mem_append_left _ hq)
  out_iff := fun y => by
    rw [List.mem_append, List.mem_singleton, h.out_iff, Finset.mem_insert]
    constructor
    · rintro (⟨hs, hstop⟩ | rfl)
      · exact ⟨.inr hs, hstop⟩
      · exact ⟨.inl rfl, hx⟩
    · rintro ⟨rfl | hs, hstop⟩
      · exact .inr rfl
      · exact .inl ⟨hs, hstop⟩
  nodup := by
    rw [List.nodup_append]
    refine ⟨h.nodup, List.nodup_singleton x, ?_⟩
    rintro y hy z hz rfl
    rw [List.mem_singleton.1 hz] at hy
    exact hseen ((h.out_iff x).1 hy).1

/-- With the queue empty, everything reachable has been seen. -/
theorem finish (h : WalkInv next stop init [] seen out) (y : α) :
    y ∈ out ↔ Visited next stop init y ∧ stop y = false := by
  have hclosed : ∀ z, Visited next stop init z → z ∈ seen := by
    intro z hz
    induction hz with
    | start hinit => simpa using h.init_sub _ hinit
    | step _ hstop hnext ih => simpa using h.expanded _ ih hstop _ hnext
  rw [h.out_iff]
  constructor
  · rintro ⟨hs, hstop⟩
    exact ⟨h.visited y (.inl hs), hstop⟩
  · rintro ⟨hv, hstop⟩
    exact ⟨hclosed y hv, hstop⟩

end WalkInv

/-- The work left: queued vertices and the edges of the vertices of `U` not yet
expanded.  Every iteration lowers it. -/
def walkBudget [DecidableEq α] (next : α → List α) (U : Finset α) (queue : List α)
    (seen : Finset α) : Nat :=
  queue.length + ∑ y ∈ U \ seen, (next y).length

private theorem budget_insert [DecidableEq α] (next : α → List α) {U seen : Finset α} {x : α}
    (hU : x ∈ U) (hx : x ∉ seen) :
    ∑ y ∈ U \ seen, (next y).length =
      (next x).length + ∑ y ∈ U \ insert x seen, (next y).length := by
  have hmem : x ∈ U \ seen := Finset.mem_sdiff.2 ⟨hU, hx⟩
  have herase : U \ insert x seen = (U \ seen).erase x := by
    ext y
    simp only [Finset.mem_sdiff, Finset.mem_insert, Finset.mem_erase, not_or]
    tauto
  rw [herase]
  exact (Finset.add_sum_erase (U \ seen) (fun y => (next y).length) hmem).symm

private theorem walk_spec [DecidableEq α] {U : Finset α} (hU : ∀ x ∈ U, ∀ y ∈ next x, y ∈ U)
    (fuel : Nat)
    (queue : List α) (seen : Finset α) (out : List α) (hq : ∀ x ∈ queue, x ∈ U)
    (hfuel : walkBudget next U queue seen ≤ fuel)
    (h : WalkInv next stop init queue seen out) :
    (walk next stop fuel queue seen out).Nodup ∧
      ∀ y, y ∈ walk next stop fuel queue seen out ↔
        Visited next stop init y ∧ stop y = false := by
  induction fuel generalizing queue seen out with
  | zero =>
      cases queue with
      | nil => exact ⟨h.nodup, h.finish⟩
      | cons x queue =>
          simp only [walkBudget, List.length_cons] at hfuel
          omega
  | succ fuel ih =>
      cases queue with
      | nil => exact ⟨h.nodup, h.finish⟩
      | cons x queue =>
          have hxU : x ∈ U := hq x (List.mem_cons_self ..)
          have hq' : ∀ y ∈ queue, y ∈ U := fun y hy => hq y (List.mem_cons_of_mem x hy)
          simp only [walkBudget, List.length_cons] at hfuel
          simp only [walk]
          by_cases hx : x ∈ seen
          · rw [if_pos hx]
            exact ih queue seen out hq' (by simp only [walkBudget]; omega) (h.skip hx)
          · rw [if_neg hx]
            have hsum := budget_insert next hxU hx
            cases hstop : stop x with
            | true =>
                rw [if_pos rfl]
                exact ih queue (insert x seen) out hq'
                  (by simp only [walkBudget]; omega) (h.boundary hstop)
            | false =>
                rw [if_neg (by decide)]
                refine ih (queue ++ next x) (insert x seen) (out ++ [x]) ?_ ?_
                  (h.emit hx hstop)
                · intro y hy
                  rcases List.mem_append.1 hy with hy | hy
                  · exact hq' y hy
                  · exact hU x hxU y hy
                · simp only [walkBudget, List.length_append]
                  omega

/-- With fuel for every edge of a closed universe, the traversal emits exactly
the reachable vertices off the boundary. -/
theorem mem_walk [DecidableEq α] {U : Finset α} (hU : ∀ x ∈ U, ∀ y ∈ next x, y ∈ U)
    (hinit : ∀ x ∈ init, x ∈ U) {fuel : Nat}
    (hfuel : init.length + ∑ y ∈ U, (next y).length ≤ fuel) (y : α) :
    y ∈ walk next stop fuel init ∅ [] ↔ Visited next stop init y ∧ stop y = false :=
  (walk_spec hU fuel init ∅ [] hinit (by simpa [walkBudget] using hfuel)
    (WalkInv.start next stop init)).2 y

theorem nodup_walk [DecidableEq α] {U : Finset α} (hU : ∀ x ∈ U, ∀ y ∈ next x, y ∈ U)
    (hinit : ∀ x ∈ init, x ∈ U) {fuel : Nat}
    (hfuel : init.length + ∑ y ∈ U, (next y).length ≤ fuel) :
    (walk next stop fuel init ∅ []).Nodup :=
  (walk_spec hU fuel init ∅ [] hinit (by simpa [walkBudget] using hfuel)
    (WalkInv.start next stop init)).1

/-- When the boundary is closed under `E`-predecessors, the walk over parents
from `init` finds exactly the part of the past of `init` off the boundary. -/
theorem visited_iff_of_closed {E : α → α → Prop} (hnext : ∀ x y, x ∈ next y ↔ E x y)
    (hstop : ∀ x y, E x y → stop y = true → stop x = true) {y : α} (hy : stop y = false) :
    Visited next stop init y ↔ ∃ p ∈ init, y = p ∨ TransGen E y p := by
  constructor
  · intro h
    clear hy
    induction h with
    | start hinit => exact ⟨_, hinit, .inl rfl⟩
    | step _ _ hnext' ih =>
        obtain ⟨p, hp, rfl | hlt⟩ := ih
        · exact ⟨_, hp, .inr (.single ((hnext _ _).1 hnext'))⟩
        · exact ⟨p, hp, .inr (.head ((hnext _ _).1 hnext') hlt)⟩
  · rintro ⟨p, hp, rfl | hlt⟩
    · exact .start hp
    · -- induction from the start of the path: each vertex above `y` is off the boundary
      induction hlt using TransGen.head_induction_on with
      | single hE =>
          refine .step (.start hp) ?_ ((hnext _ _).2 hE)
          cases hs : stop p with
          | false => rfl
          | true => rw [hstop _ _ hE hs] at hy; cases hy
      | @head a c hE _ ih =>
          have hc : stop c = false := by
            cases hs : stop c with
            | false => rfl
            | true => rw [hstop _ _ hE hs] at hy; cases hy
          exact .step (ih hc) hc ((hnext _ _).2 hE)

end Walk

end Kovanica.Lib
