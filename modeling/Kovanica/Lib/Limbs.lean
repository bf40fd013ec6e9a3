import Mathlib.Data.List.GetD
import Mathlib.Data.Nat.Digits.Defs
import Mathlib.Tactic.Ring

/-!
# Numbers stored as limbs

A number is an array of limbs of some base, least significant first, and its
value is Mathlib's `Nat.ofDigits`.  Multiplication writes the array in place, so
the lemmas say what one write does to the value.

## Main results

* `ofDigits_set`: what a write to one limb does to the value.
* `ofDigits_carry`: a sum that is split in limb and carry loses nothing.
* `ofDigits_drop_eq_zero_iff`: the limbs from an index on vanish exactly if the value is below
  that power of the base.
-/

namespace Kovanica.Lib

/-- Every limb is below the base.  For such limbs the value determines the digits, and a
comparison of values can be read off the limbs. -/
def FitLimbs (base : Nat) (limbs : List Nat) : Prop := ∀ limb ∈ limbs, limb < base

variable {base : Nat} {limbs : List Nat} {idx v : Nat}

theorem FitLimbs.set (h : FitLimbs base limbs) (hv : v < base) :
    FitLimbs base (limbs.set idx v) := by
  intro limb hmem
  rcases List.mem_or_eq_of_mem_set hmem with hold | heq
  · exact h limb hold
  · rw [heq]
    exact hv

theorem FitLimbs.getD_lt (h : FitLimbs base limbs) (hidx : idx < limbs.length) :
    limbs.getD idx 0 < base := by
  rw [List.getD_eq_getElem _ _ hidx]
  exact h _ (List.getElem_mem hidx)

/-- Writing one limb changes the value by the weighted difference. -/
theorem ofDigits_set (base v : Nat) (hidx : idx < limbs.length) :
    Nat.ofDigits base (limbs.set idx v) + base ^ idx * limbs.getD idx 0 =
      Nat.ofDigits base limbs + base ^ idx * v := by
  induction limbs generalizing idx with
  | nil => simp at hidx
  | cons limb rest ih =>
      cases idx with
      | zero =>
          simp only [List.set_cons_zero, List.getD_cons_zero, Nat.ofDigits_cons, pow_zero]
          omega
      | succ idx =>
          have hrest := @ih idx (by simpa using hidx)
          simp only [List.set_cons_succ, List.getD_cons_succ, Nat.ofDigits_cons, Nat.pow_succ']
          calc limb + base * Nat.ofDigits base (rest.set idx v) + base * base ^ idx * rest.getD idx 0
              = limb + base * (Nat.ofDigits base (rest.set idx v) +
                  base ^ idx * rest.getD idx 0) := by ring
            _ = limb + base * (Nat.ofDigits base rest + base ^ idx * v) := by rw [hrest]
            _ = limb + base * Nat.ofDigits base rest + base * base ^ idx * v := by ring

/-- Storing the low part of a sum at `idx` and carrying the high part keeps the
weighted total. -/
theorem ofDigits_carry (base term : Nat) (hidx : idx < limbs.length) :
    Nat.ofDigits base (limbs.set idx ((limbs.getD idx 0 + term) % base)) +
        base ^ (idx + 1) * ((limbs.getD idx 0 + term) / base) =
      Nat.ofDigits base limbs + base ^ idx * term := by
  have hset := ofDigits_set base ((limbs.getD idx 0 + term) % base) hidx
  have hsplit := Nat.mod_add_div (limbs.getD idx 0 + term) base
  have hscaled : base ^ idx * ((limbs.getD idx 0 + term) % base) +
      base ^ (idx + 1) * ((limbs.getD idx 0 + term) / base) =
        base ^ idx * limbs.getD idx 0 + base ^ idx * term := by
    rw [Nat.pow_succ, Nat.mul_assoc, ← Nat.mul_add, hsplit, Nat.mul_add]
  omega

/-- The limbs from `n` on are clear when the value is below `base ^ n`. -/
theorem ofDigits_drop_eq_zero_iff (hbase : 0 < base) (h : FitLimbs base limbs) (n : Nat) :
    Nat.ofDigits base (limbs.drop n) = 0 ↔ Nat.ofDigits base limbs < base ^ n := by
  rw [← Nat.ofDigits_div_pow_eq_ofDigits_drop n hbase limbs h,
    Nat.div_eq_zero_iff_lt (Nat.pow_pos hbase)]

end Kovanica.Lib
