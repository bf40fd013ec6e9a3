import Mathlib.Logic.Relation
import Mathlib.Data.Finset.Card
import Mathlib.Order.Basic

/-!
# Ancestry in append-only graphs

An edge `E x y` says that `x` is a direct predecessor (a parent) of `y`, and
`TransGen E` is strict ancestry.  An append-only graph grows by one vertex at
a time, on top of vertices that are already there: `AddsTop` states such a
step, and the lemmas say what it does to ancestry.  `transGen_congr_of_closed`
compares two graphs on a common past-closed part.

Ranks along the edges, such as a score that rises from parent to child, exclude cycles:
`lt_of_transGen` and `le_of_transGen` carry them to ancestry.
-/

namespace Kovanica.Lib

open Relation

variable {α : Type*} {E E' : α → α → Prop}

/-! ## Adding a vertex on top -/

/-- `E'` is `E` with one new vertex `t`, whose parents are those of `P`.  The new vertex has no
children, so ancestry among the old vertices is unchanged. -/
structure AddsTop (E E' : α → α → Prop) (t : α) (P : α → Prop) : Prop where
  edge_iff : ∀ x y, E' x y ↔ E x y ∨ (y = t ∧ P x)
  not_parent : ∀ y, ¬ E t y
  not_child : ∀ x, ¬ E x t
  not_self : ¬ P t

namespace AddsTop

variable {t : α} {P : α → Prop}

theorem mono (h : AddsTop E E' t P) {a b : α} (hab : TransGen E a b) : TransGen E' a b :=
  TransGen.mono (fun x y hxy => (h.edge_iff x y).2 (.inl hxy)) a b hab

/-- The new vertex has no descendants. -/
theorem not_ancestor (h : AddsTop E E' t P) (b : α) : ¬ TransGen E' t b := by
  intro htb
  obtain ⟨y, hty, _⟩ := TransGen.head'_iff.1 htb
  rcases (h.edge_iff t y).1 hty with hE | ⟨_, hP⟩
  · exact h.not_parent y hE
  · exact h.not_self hP

/-- The past of an old vertex is untouched. -/
theorem old (h : AddsTop E E' t P) {a b : α} (hb : b ≠ t) :
    TransGen E' a b ↔ TransGen E a b := by
  refine ⟨fun hab => ?_, h.mono⟩
  induction hab with
  | single hxy =>
      rcases (h.edge_iff _ _).1 hxy with hE | ⟨rfl, _⟩
      · exact .single hE
      · exact absurd rfl hb
  | @tail c b hac hcb ih =>
      rcases (h.edge_iff _ _).1 hcb with hE | ⟨rfl, _⟩
      · have hc : c ≠ t := by
          rintro rfl
          exact h.not_parent b hE
        exact .tail (ih hc) hE
      · exact absurd rfl hb

/-- The past of the new vertex is its parents and their pasts. -/
theorem top (h : AddsTop E E' t P) {a : α} :
    TransGen E' a t ↔ ∃ p, P p ∧ (a = p ∨ TransGen E a p) := by
  have hparent : ∀ x, E' x t ↔ P x := by
    intro x
    rw [h.edge_iff]
    constructor
    · rintro (hE | ⟨_, hP⟩)
      · exact absurd hE (h.not_child x)
      · exact hP
    · exact fun hP => .inr ⟨rfl, hP⟩
  have hne : ∀ p, P p → p ≠ t := by
    rintro p hp rfl
    exact h.not_self hp
  constructor
  · intro hat
    obtain ⟨p, hap, hpt⟩ := TransGen.tail'_iff.1 hat
    have hp := (hparent p).1 hpt
    rcases reflTransGen_iff_eq_or_transGen.1 hap with rfl | hap
    · exact ⟨p, hp, .inl rfl⟩
    · exact ⟨p, hp, .inr ((h.old (hne p hp)).1 hap)⟩
  · rintro ⟨p, hp, rfl | hap⟩
    · exact .single ((hparent a).2 hp)
    · exact .tail (h.mono hap) ((hparent p).2 hp)

theorem acyclic (h : AddsTop E E' t P) (hE : ∀ x, ¬ TransGen E x x) (x : α) :
    ¬ TransGen E' x x := by
  by_cases hx : x = t
  · rw [hx]
    exact h.not_ancestor t
  · rw [h.old hx]
    exact hE x

end AddsTop

/-! ## Comparing two graphs -/

/-- Two graphs with the same edges into a past-closed set have the same
ancestry into it. -/
theorem transGen_congr_of_closed {S : Set α}
    (hE : ∀ y ∈ S, ∀ x, E x y ↔ E' x y) (hclosed : ∀ y ∈ S, ∀ x, E x y → x ∈ S)
    {a b : α} (hb : b ∈ S) : TransGen E a b ↔ TransGen E' a b := by
  constructor
  · intro hab
    induction hab with
    | single hxy => exact .single ((hE _ hb _).1 hxy)
    | tail _ hcb ih => exact .tail (ih (hclosed _ hb _ hcb)) ((hE _ hb _).1 hcb)
  · intro hab
    induction hab with
    | single hxy => exact .single ((hE _ hb _).2 hxy)
    | tail _ hcb ih =>
        have hcb' := (hE _ hb _).2 hcb
        exact .tail (ih (hclosed _ hb _ hcb')) hcb'

/-- A past-closed set contains the whole past of its members. -/
theorem mem_of_transGen_of_closed {S : Set α} (hclosed : ∀ y ∈ S, ∀ x, E x y → x ∈ S)
    {a b : α} (hab : TransGen E a b) (hb : b ∈ S) : a ∈ S := by
  induction hab with
  | single hxy => exact hclosed _ hb _ hxy
  | tail _ hcb ih => exact ih (hclosed _ hb _ hcb)

/-- A quantity that grows along edges grows along ancestry. -/
theorem lt_of_transGen {κ : Type*} [Preorder κ] {rank : α → κ}
    (h : ∀ x y, E x y → rank x < rank y) {a b : α} (hab : TransGen E a b) :
    rank a < rank b := by
  induction hab with
  | single hxy => exact h _ _ hxy
  | tail _ hcb ih => exact lt_trans ih (h _ _ hcb)

/-- A quantity that does not fall along edges does not fall along ancestry. -/
theorem le_of_transGen {κ : Type*} [Preorder κ] {rank : α → κ}
    (h : ∀ x y, E x y → rank x ≤ rank y) {a b : α} (hab : TransGen E a b) :
    rank a ≤ rank b := by
  induction hab with
  | single hxy => exact h _ _ hxy
  | tail _ hcb ih => exact le_trans ih (h _ _ hcb)

end Kovanica.Lib
