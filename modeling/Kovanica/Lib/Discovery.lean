import Mathlib.Data.Set.Basic
import Mathlib.Logic.Relation

/-!
# Discovery by introduction

Sites come to know each other through hellos.  A hello tells its target who sent
it and whom the sender knows; whoever comes to know a new site sends it a hello in
turn.  Hellos carry what the sender knew when it wrote them, and may arrive in any
order.  Once none is under way, the sites that were ever linked know each other.

## Main results

* `Introduced.learn`: the step, a site that learns of others and writes to those it is new to.
* `Introduced.closed`: with no hello under way, knowing is the closure of the links.
-/

namespace Kovanica.Lib.Discovery

open Relation

variable {Site : Type}

structure Hello (Site : Type) where
  sender : Site
  target : Site
  advertised : Set Site

/-- Whom each site knows, and the hellos under way.  No order is kept among the hellos: whatever
order they arrive in, the same pairs come to know each other. -/
structure State (Site : Type) where
  knows : Site → Set Site
  hellos : Set (Hello Site)

/-- The site `a` comes to know the sites of `fresh` and greets those it did not know
before.  A hello is gone only if it was for `a` and `a` now knows all it says. -/
structure Learns (f f' : State Site) (a : Site) (fresh : Set Site) : Prop where
  not_self : a ∉ fresh
  knows : ∀ s x, x ∈ f'.knows s ↔ x ∈ f.knows s ∨ s = a ∧ x ∈ fresh
  greeted : ∀ x ∈ fresh, x ∉ f.knows a → ⟨a, x, f'.knows a⟩ ∈ f'.hellos
  sent : ∀ h ∈ f'.hellos, h ∈ f.hellos ∨
    h.sender = a ∧ h.target ∈ fresh ∧ h.advertised = f'.knows a
  heard : ∀ h ∈ f.hellos, h ∈ f'.hellos ∨
    h.target = a ∧ h.sender ∈ f'.knows a ∧ ∀ x ∈ h.advertised, x ≠ a → x ∈ f'.knows a

/-- The invariant of discovery: a site is known to whom it knows, or has greeted it;
and two sites known to a third know one another, or one of them is being told. -/
structure Introduced (links : Site → Site → Prop) (f : State Site) : Prop where
  not_self : ∀ a, a ∉ f.knows a
  sound : ∀ h ∈ f.hellos, h.target ∈ f.knows h.sender ∧ h.advertised ⊆ f.knows h.sender
  answered : ∀ a b, b ∈ f.knows a → a ∈ f.knows b ∨ ∃ h ∈ f.hellos, h.sender = a ∧ h.target = b
  introduced : ∀ a b c, b ∈ f.knows a → c ∈ f.knows a → b ≠ c →
    c ∈ f.knows b ∨ b ∈ f.knows c ∨ ∃ h ∈ f.hellos, h.sender = a ∧
      (h.target = b ∧ c ∈ h.advertised ∨ h.target = c ∧ b ∈ h.advertised)
  linked : ∀ a b, b ∈ f.knows a → EqvGen links a b
  direct : ∀ a b, links a b → a ≠ b → b ∈ f.knows a

variable {links links' : Site → Site → Prop} {f f' : State Site} {a : Site} {fresh : Set Site}

theorem introduced_start : Introduced (fun _ _ => False) (⟨fun _ => ∅, ∅⟩ : State Site) where
  not_self := fun _ h => h
  sound := fun _ h => absurd h (Set.notMem_empty _)
  answered := fun _ _ h => absurd h (Set.notMem_empty _)
  introduced := fun _ _ _ h => absurd h (Set.notMem_empty _)
  linked := fun _ _ h => absurd h (Set.notMem_empty _)
  direct := fun _ _ h => h.elim

namespace Learns

theorem mono (h : Learns f f' a fresh) {s x : Site} (hx : x ∈ f.knows s) : x ∈ f'.knows s :=
  (h.knows s x).2 (.inl hx)

/-- A site that `a` knows now and did not know before has been greeted. -/
theorem greeted_new (h : Learns f f' a fresh) {s x : Site} (hx : x ∈ f'.knows s)
    (hnew : x ∉ f.knows s) : s = a ∧ ⟨a, x, f'.knows a⟩ ∈ f'.hellos := by
  rcases (h.knows s x).1 hx with hold | ⟨rfl, hfresh⟩
  · exact absurd hold hnew
  · exact ⟨rfl, h.greeted x hfresh hnew⟩

end Learns

variable (fresh) in
/-- Learning keeps the invariant, if what is learnt is linked and the new links are
known. -/
theorem Introduced.learn (hf : Introduced links f) (h : Learns f f' a fresh)
    (hlinks : ∀ s t, links s t → links' s t) (hfresh : ∀ x ∈ fresh, EqvGen links' a x)
    (hdirect : ∀ s t, links' s t → s ≠ t → links s t ∨ t ∈ f'.knows s) :
    Introduced links' f' := by
  refine ⟨fun s hs => ?_, fun q hq => ?_, fun s b hb => ?_, fun s b c hb hc hne => ?_,
    fun s b hb => ?_, fun s t hst hne => ?_⟩
  · rcases (h.knows s s).1 hs with hold | ⟨rfl, hself⟩
    · exact hf.not_self s hold
    · exact h.not_self hself
  · rcases h.sent q hq with hold | ⟨hsender, htarget, hadvertised⟩
    · obtain ⟨hknown, hsub⟩ := hf.sound q hold
      exact ⟨h.mono hknown, fun x hx => h.mono (hsub hx)⟩
    · rw [hsender, hadvertised]
      exact ⟨(h.knows a _).2 (.inr ⟨rfl, htarget⟩), subset_rfl⟩
  · by_cases hold : b ∈ f.knows s
    · rcases hf.answered s b hold with hback | ⟨q, hq, hsender, htarget⟩
      · exact .inl (h.mono hback)
      · rcases h.heard q hq with hkept | ⟨hto, hknown, _⟩
        · exact .inr ⟨q, hkept, hsender, htarget⟩
        · rw [hsender, ← hto, htarget] at hknown
          exact .inl hknown
    · obtain ⟨rfl, hgreeted⟩ := h.greeted_new hb hold
      exact .inr ⟨_, hgreeted, rfl, rfl⟩
  · by_cases hb' : b ∈ f.knows s
    · by_cases hc' : c ∈ f.knows s
      · rcases hf.introduced s b c hb' hc' hne with hbc | hcb | ⟨q, hq, hsender, htells⟩
        · exact .inl (h.mono hbc)
        · exact .inr (.inl (h.mono hcb))
        · rcases h.heard q hq with hkept | ⟨hto, _, hall⟩
          · exact .inr (.inr ⟨q, hkept, hsender, htells⟩)
          · rcases htells with ⟨htarget, hin⟩ | ⟨htarget, hin⟩
            · rw [htarget] at hto
              exact .inl (hto ▸ hall c hin (hto ▸ hne.symm))
            · rw [htarget] at hto
              exact .inr (.inl (hto ▸ hall b hin (hto ▸ hne)))
      · obtain ⟨rfl, hgreeted⟩ := h.greeted_new hc hc'
        exact .inr (.inr ⟨_, hgreeted, rfl, .inr ⟨rfl, hb⟩⟩)
    · obtain ⟨rfl, hgreeted⟩ := h.greeted_new hb hb'
      exact .inr (.inr ⟨_, hgreeted, rfl, .inl ⟨rfl, hc⟩⟩)
  · rcases (h.knows s b).1 hb with hold | ⟨rfl, hnew⟩
    · exact (hf.linked s b hold).mono hlinks
    · exact hfresh b hnew
  · rcases hdirect s t hst hne with hold | hknown
    · exact h.mono (hf.direct s t hold hne)
    · exact hknown

/-- Once no hello is under way, knowing is symmetric and transitive, and the sites
known are the linked ones. -/
theorem Introduced.closed (hf : Introduced links f) (hquiet : f.hellos = ∅) :
    (∀ a b, b ∈ f.knows a → a ∈ f.knows b) ∧
      (∀ a b c, b ∈ f.knows a → c ∈ f.knows b → a ≠ c → c ∈ f.knows a) ∧
      ∀ a b, a ≠ b → (b ∈ f.knows a ↔ EqvGen links a b) := by
  have hnone : ∀ q, q ∉ f.hellos := fun q => hquiet ▸ Set.notMem_empty q
  have hsymm : ∀ a b, b ∈ f.knows a → a ∈ f.knows b := by
    intro a b hb
    rcases hf.answered a b hb with hback | ⟨q, hq, _⟩
    · exact hback
    · exact absurd hq (hnone q)
  have htrans : ∀ a b c, b ∈ f.knows a → c ∈ f.knows b → a ≠ c → c ∈ f.knows a := by
    intro a b c hb hc hne
    rcases hf.introduced b a c (hsymm a b hb) hc hne with hac | hca | ⟨q, hq, _⟩
    · exact hac
    · exact hsymm c a hca
    · exact absurd hq (hnone q)
  refine ⟨hsymm, htrans, fun a b hne => ⟨hf.linked a b, fun hlinked => ?_⟩⟩
  have hall : a = b ∨ b ∈ f.knows a := by
    induction hlinked with
    | rel s t hst => exact or_iff_not_imp_left.2 (hf.direct s t hst)
    | refl s => exact .inl rfl
    | symm s t _ ih =>
        by_cases heq : s = t
        · exact .inl heq.symm
        · exact .inr (hsymm s t ((ih heq).resolve_left heq))
    | trans s t u _ _ ih ih' =>
        by_cases hst : s = t
        · subst hst
          by_cases hsu : s = u
          · exact .inl hsu
          · exact ih' hsu
        · by_cases htu : t = u
          · subst htu
            exact ih hst
          · by_cases hsu : s = u
            · exact .inl hsu
            · exact .inr (htrans s t u ((ih hst).resolve_left hst)
                ((ih' htu).resolve_left htu) hsu)
  exact hall.resolve_left hne

end Kovanica.Lib.Discovery
