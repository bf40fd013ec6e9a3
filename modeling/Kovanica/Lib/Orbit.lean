import Mathlib.Logic.Function.Iterate

/-!
# Orbits

A function applied again and again has not repeated itself as long as the last value it
has led to differs from all earlier ones.  `advance` follows an orbit and checks every
value on the way.

To know that a thousand values are distinct it is then enough to compare the last one with the
others, `iterate_ne_of_last`, instead of comparing all pairs.
-/

namespace Kovanica.Lib

variable {α : Type} {f : α → α}

/-- A repetition anywhere repeats the last value too. -/
theorem iterate_ne_of_last {x : α} {n : Nat} (h : ∀ i < n, f^[i] x ≠ f^[n] x) {i j : Nat}
    (hij : i < j) (hj : j ≤ n) : f^[i] x ≠ f^[j] x := by
  intro heq
  have hearlier : f^[n - j + i] x = f^[n] x := by
    rw [Function.iterate_add_apply, heq, ← Function.iterate_add_apply, Nat.sub_add_cancel hj]
  exact h (n - j + i) (by omega) hearlier

/-- `n` steps, as long as every value that is left passes.  One evaluation of it stands for the
values of all `n` steps. -/
def advance (f : α → α) (passes : α → Bool) : Nat → α → Option α
  | 0, x => some x
  | n + 1, x => if passes x then advance f passes n (f x) else none

variable {passes : α → Bool}

theorem advance_eq_some {n : Nat} {x y : α} (h : advance f passes n x = some y) :
    y = f^[n] x ∧ ∀ i < n, passes (f^[i] x) = true := by
  induction n generalizing x with
  | zero => exact ⟨(Option.some.inj h).symm, fun i hi => absurd hi (Nat.not_lt_zero i)⟩
  | succ n ih =>
      rw [advance] at h
      split at h
      · rename_i hpasses
        obtain ⟨hlast, hall⟩ := ih h
        refine ⟨hlast, fun i hi => ?_⟩
        cases i with
        | zero => exact hpasses
        | succ i => exact hall i (by omega)
      · cases h

/-- An orbit is followed in pieces. -/
theorem advance_add {m n : Nat} {x y z : α} (hfirst : advance f passes m x = some y)
    (hsecond : advance f passes n y = some z) : advance f passes (m + n) x = some z := by
  induction m generalizing x with
  | zero =>
      rw [Nat.zero_add, Option.some.inj hfirst]
      exact hsecond
  | succ m ih =>
      rw [advance] at hfirst
      split at hfirst
      · rename_i hpasses
        rw [Nat.add_right_comm, advance, if_pos hpasses]
        exact ih hfirst
      · cases hfirst

end Kovanica.Lib
