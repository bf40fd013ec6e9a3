import Kovanica.Dag.Difficulty
import Kovanica.Runtime
import Mathlib.Algebra.BigOperators.Group.List.Basic
import Mathlib.Data.ZMod.Defs
import Mathlib.Order.MinMax

/-!
# The rate a retargeting policy follows

`rateWork` is the rule in unbounded integers: the average work of the window,
scaled by the expected over the actual timespan, clamped and floored.
`nextWorkIn` is `next_work` with every operation that can panic.  The saturating
operations of the source return the same value exactly when what they cut off
does not decide the result.

## Main results

* `nextWorkIn_release`: without overflow checks it is the `nextWork` of the DAG.
* `nextWorkIn_eq`, `nextWorkIn_wrapped`: what it returns on the samples of its window, and at
  `usize::MAX`, where the window wraps.
* `capped_eq_rateWork_iff`: when nothing decisive is cut off.
* `rateWork_equal`: equal works on target are the rate.
-/

namespace Kovanica

open Lib

namespace Retarget

/-! ## Panics -/

/-- `a / b` of two `u128`s. -/
def divide (a b : U128) : Outcome Empty U128 :=
  if b = 0 then .error (.panic "attempt to divide by zero")
  else .ok (Word.cast 128 (a.val / b.val))

/-- `x.clamp(lower, upper)`. -/
def clamp (x lower upper : U128) : Outcome Empty U128 :=
  if upper < lower then .error (.panic "assertion failed: min <= max")
  else .ok (max lower (min x upper))

/-- `self.window + 1`: only a build with overflow checks panics at `usize::MAX`. -/
def samplesKept (checks : Bool) (policy : Retarget) : Outcome Empty U64 :=
  if checks ∧ policy.window = Word.maxValue 64 then
    .error (.panic "attempt to add with overflow")
  else .ok (policy.window + 1)

/-- The tail of `next_work`: the average of `sum` over `count` samples, scaled by
`expected / actual`, within a factor of itself and at least `minWork`. -/
def scaleWork (sum count expected actual factor minWork : U128) : Outcome Empty U128 := do
  let avgWork ← divide sum count
  let scaled ← divide (Word.saturatingMul avgWork expected) actual
  let part ← divide avgWork factor
  let lower := max part minWork
  let upper := max (Word.saturatingMul avgWork factor) minWork
  let clamped ← clamp scaled lower upper
  return max clamped minWork

/-- `next_work(recent)`, in a build with overflow checks or without.  The two differ only where
the window is `usize::MAX`. -/
def nextWorkIn (checks : Bool) (policy : Retarget) (recent : List TimedWork) :
    Outcome Empty U128 := do
  let keep ← policy.samplesKept checks
  let used := if keep.val ≤ recent.length ∧ 0 < recent.length - keep.val then
      recent.drop (recent.length - keep.val)
    else recent
  match used with
  | [] | [_] => return policy.minWork
  | first :: second :: rest =>
      let used := first :: second :: rest
      let last := (second :: rest).getLast (List.cons_ne_nil _ _)
      let intervals : U64 := Word.cast 64 (used.length - 1)
      let expected := max (Word.saturatingMul intervals policy.targetIntervalMs) 1
      let actual := max (Word.saturatingSub last.timestampMs first.timestampMs) 1
      let sum := used.foldl (fun acc s => Word.saturatingAdd acc s.work) (0 : U128)
      scaleWork sum (Word.cast 128 used.length) (Word.cast 128 expected.val)
        (Word.cast 128 actual.val) (Word.cast 128 (max policy.maxFactor 1).val) policy.minWork

/-! ## The rule in unbounded integers -/

/-- The last `window + 1` samples, all of them if there are fewer. -/
def measured (policy : Retarget) (recent : List TimedWork) : List TimedWork :=
  recent.drop (recent.length - (policy.window.val + 1))

/-- The sum of the works. -/
def totalWork (used : List TimedWork) : Nat := (used.map fun s => s.work.val).sum

/-- The average work, rounded down. -/
def averageWork (used : List TimedWork) : Nat := totalWork used / used.length

/-- The time the samples span. -/
def timespan (used : List TimedWork) : Nat :=
  match used.head?, used.getLast? with
  | some first, some last => last.timestampMs.val - first.timestampMs.val
  | _, _ => 0

/-- The time the samples should span. -/
def targetSpan (policy : Retarget) (used : List TimedWork) : Nat :=
  (used.length - 1) * policy.targetIntervalMs.val

def factorOf (policy : Retarget) : Nat := max policy.maxFactor.val 1

/-- The scaled average, at most `factor` times the average and a `u128`. -/
def scaledWork (policy : Retarget) (used : List TimedWork) : Nat :=
  min (averageWork used * max 1 (policy.targetSpan used) / max 1 (timespan used))
    (averageWork used * policy.factorOf)

/-- The work the measured rate asks for: the average scaled by the two time spans, within the
factor and not below the least work, counted without bounds and cut off to 128 bits at last. -/
def rateWork (policy : Retarget) (used : List TimedWork) : Nat :=
  min (max policy.minWork.val
    (max (averageWork used / policy.factorOf) (policy.scaledWork used))) (2 ^ 128 - 1)

/-! ## What saturation leaves -/

/-- The average of a total cut off at `u128::MAX`. -/
def cappedAverage (used : List TimedWork) : Nat := min (totalWork used) (2 ^ 128 - 1) / used.length

/-- The expected timespan cut off at `u64::MAX`. -/
def cappedSpan (policy : Retarget) (used : List TimedWork) : Nat :=
  max 1 (min (policy.targetSpan used) (2 ^ 64 - 1))

/-- The scaled average cut off at `u128::MAX` before it is divided. -/
def cappedScaled (policy : Retarget) (used : List TimedWork) : Nat :=
  min (min (cappedAverage used * policy.cappedSpan used) (2 ^ 128 - 1) / max 1 (timespan used))
    (cappedAverage used * policy.factorOf)

/-- What is cut off does not decide the result: it is the floor, or the lower clamp
of the capped average, or its product with the timespan is reached. -/
def Unclipped (policy : Retarget) (used : List TimedWork) : Prop :=
  policy.rateWork used = policy.minWork.val ∨
    policy.rateWork used = cappedAverage used / policy.factorOf ∨
    (policy.rateWork used ≤ cappedAverage used * policy.factorOf ∧
      policy.rateWork used * max 1 (timespan used) ≤
        min (cappedAverage used * policy.cappedSpan used) (2 ^ 128 - 1))

instance (policy : Retarget) (used : List TimedWork) : Decidable (policy.Unclipped used) :=
  inferInstanceAs (Decidable (_ ∨ _ ∨ (_ ∧ _)))

/-- `next_work` returns the rate; equal works on target are kept, and faster blocks
do not lower them. -/
def FollowsRate (checks : Bool) (policy : Retarget) (recent : List TimedWork) : Prop :=
  ∃ work, policy.nextWorkIn checks recent = .ok work ∧
    work.val = policy.rateWork (policy.measured recent) ∧
    ∀ w : U128, (∀ s ∈ policy.measured recent, s.work = w) → policy.minWork ≤ w →
      timespan (policy.measured recent) ≤ policy.targetSpan (policy.measured recent) →
      w ≤ work ∧ (timespan (policy.measured recent) =
        policy.targetSpan (policy.measured recent) → work = w)

/-! ## `next_work` never panics on its own -/

theorem divide_eq {a b : U128} (hb : 0 < b.val) :
    divide a b = .ok (Word.cast 128 (a.val / b.val)) := by
  have hne : b ≠ 0 := by
    intro h
    rw [h] at hb
    exact absurd hb (by decide)
  exact if_neg hne

theorem quotient_val (a b : U128) : (Word.cast 128 (a.val / b.val) : U128).val = a.val / b.val :=
  Word.cast_of_lt (lt_of_le_of_lt (Nat.div_le_self _ _) a.isLt)

theorem clamp_eq {x lower upper : U128} (h : lower ≤ upper) :
    clamp x lower upper = .ok (max lower (min x upper)) :=
  if_neg (not_lt.2 h)

/-- With positive divisors the tail returns: the bounds of its clamp do not cross. -/
theorem scaleWork_eq {sum count expected actual factor minWork avg : U128}
    (hcount : 0 < count.val) (hactual : 0 < actual.val) (hfactor : 0 < factor.val)
    (havg : avg = Word.cast 128 (sum.val / count.val)) :
    scaleWork sum count expected actual factor minWork =
      .ok (max (max (max (Word.cast 128 (avg.val / factor.val)) minWork)
        (min (Word.cast 128 ((Word.saturatingMul avg expected).val / actual.val))
          (max (Word.saturatingMul avg factor) minWork))) minWork) := by
  have hle : avg.val / factor.val ≤ min (avg.val * factor.val) (2 ^ 128 - 1) := by
    have hdiv := Nat.div_le_self avg.val factor.val
    have hmul := Nat.le_mul_of_pos_right avg.val hfactor
    have hlt := avg.isLt
    omega
  have hbounds : max (Word.cast 128 (avg.val / factor.val)) minWork ≤
      max (Word.saturatingMul avg factor) minWork :=
    max_le_max (Fin.le_def.2 (by rwa [quotient_val, Word.saturatingMul_val])) le_rfl
  rw [scaleWork, divide_eq hcount, ← havg, Outcome.ok_bind, divide_eq hactual, Outcome.ok_bind,
    divide_eq hfactor, Outcome.ok_bind]
  simp only
  rw [clamp_eq hbounds]
  rfl

/-- The value of the tail: its clamp is a minimum below two maxima. -/
theorem scaleWork_val (sum expected minWork : U128) {count actual factor : U128}
    (hcount : 0 < count.val) (hactual : 0 < actual.val) (hfactor : 0 < factor.val) :
    ∃ work, scaleWork sum count expected actual factor minWork = .ok work ∧
      work.val = max minWork.val (max (sum.val / count.val / factor.val)
        (min (min (sum.val / count.val * expected.val) (2 ^ 128 - 1) / actual.val)
          (sum.val / count.val * factor.val))) := by
  obtain ⟨avg, havg⟩ : ∃ avg : U128, avg = Word.cast 128 (sum.val / count.val) := ⟨_, rfl⟩
  have havgVal : avg.val = sum.val / count.val := by rw [havg, quotient_val]
  refine ⟨_, scaleWork_eq hcount hactual hfactor havg, ?_⟩
  have hscaled := quotient_val (Word.saturatingMul avg expected) actual
  have hscaledLt := (Word.cast 128 ((Word.saturatingMul avg expected).val / actual.val) : U128).isLt
  have hlower := Nat.div_le_self avg.val factor.val
  have hupper := Nat.le_mul_of_pos_right avg.val hfactor
  have havgLt := avg.isLt
  rw [Word.saturatingMul_val] at hscaled hscaledLt
  simp only [Fin.coe_max, Fin.coe_min, quotient_val, Word.saturatingMul_val, hscaled, ← havgVal]
  omega

theorem factorOf_val (policy : Retarget) :
    (Word.cast 128 (max policy.maxFactor 1).val : U128).val = policy.factorOf := by
  rw [Word.cast_widen (by decide), Fin.coe_max, factorOf]
  rfl

theorem factorOf_pos (policy : Retarget) : 0 < policy.factorOf :=
  lt_of_lt_of_le Nat.one_pos (le_max_right _ _)

theorem samplesKept_eq {policy : Retarget} (checks : Bool)
    (hwindow : policy.window ≠ Word.maxValue 64) :
    ∃ keep, policy.samplesKept checks = .ok keep ∧ keep.val = policy.window.val + 1 := by
  refine ⟨policy.window + 1, if_neg fun h => hwindow h.2, Word.val_add_of_lt ?_⟩
  have hlt := policy.window.isLt
  have hne : policy.window.val ≠ 2 ^ 64 - 1 := fun h => hwindow (Fin.ext h)
  show policy.window.val + 1 < 2 ^ 64
  omega

/-- The divisor is the span of the samples, the multiplier the capped one. -/
theorem actual_val (first second : TimedWork) (rest : List TimedWork) :
    (Word.cast 128 (max (Word.saturatingSub ((second :: rest).getLast
      (List.cons_ne_nil _ _)).timestampMs first.timestampMs) 1).val : U128).val =
      max 1 (timespan (first :: second :: rest)) := by
  have hlast : (first :: second :: rest).getLast? =
      some ((second :: rest).getLast (List.cons_ne_nil _ _)) := by
    rw [List.getLast?_cons_cons, List.getLast?_eq_some_getLast]
  rw [Word.cast_widen (by decide), timespan, List.head?_cons, hlast, Fin.coe_max,
    Word.saturatingSub_val, max_comm]
  rfl

theorem expected_val (policy : Retarget) {used : List TimedWork} (hfit : used.length < 2 ^ 64) :
    (Word.cast 128 (max (Word.saturatingMul (Word.cast 64 (used.length - 1))
      policy.targetIntervalMs) 1).val : U128).val = policy.cappedSpan used := by
  rw [Word.cast_widen (by decide), Fin.coe_max, Word.saturatingMul_val,
    Word.cast_of_lt (by omega), max_comm, cappedSpan, targetSpan]
  rfl

/-- The value `next_work` returns on the samples of its window. -/
theorem nextWorkIn_eq {policy : Retarget} {recent : List TimedWork} (checks : Bool)
    (hwindow : policy.window ≠ Word.maxValue 64)
    (htwo : 2 ≤ (policy.measured recent).length) (hfit : recent.length < 2 ^ 64) :
    ∃ work, policy.nextWorkIn checks recent = .ok work ∧
      work.val = max policy.minWork.val (max
        (cappedAverage (policy.measured recent) / policy.factorOf)
        (policy.cappedScaled (policy.measured recent))) := by
  obtain ⟨keep, hkeep, hkeepVal⟩ := samplesKept_eq checks hwindow
  have hused : (if keep.val ≤ recent.length ∧ 0 < recent.length - keep.val then
      recent.drop (recent.length - keep.val) else recent) = policy.measured recent := by
    rw [measured, hkeepVal]
    split
    · rfl
    · rw [show recent.length - (policy.window.val + 1) = 0 by omega, List.drop_zero]
  have hlen : (policy.measured recent).length < 2 ^ 64 :=
    lt_of_le_of_lt (by simp [measured]) hfit
  rw [nextWorkIn, hkeep, Outcome.ok_bind]
  simp only [hused]
  generalize policy.measured recent = used at htwo hlen
  match used, htwo with
  | first :: second :: rest, _ =>
      have hexpected := expected_val policy hlen
      have hactual := actual_val first second rest
      have hcount : (Word.cast 128 (first :: second :: rest).length : U128).val =
          (first :: second :: rest).length := Word.cast_of_lt (by omega)
      have hsum := Word.val_foldl_saturatingAdd TimedWork.work (first :: second :: rest) 0
      obtain ⟨work, hwork, hval⟩ := scaleWork_val
        ((first :: second :: rest).foldl (fun acc s => Word.saturatingAdd acc s.work) 0)
        (Word.cast 128 (max (Word.saturatingMul (Word.cast 64
          ((first :: second :: rest).length - 1)) policy.targetIntervalMs) 1).val) policy.minWork
        (lt_of_lt_of_eq (Nat.succ_pos _) hcount.symm)
        (lt_of_lt_of_eq (lt_of_lt_of_le Nat.one_pos (le_max_left _ _)) hactual.symm)
        (lt_of_lt_of_eq policy.factorOf_pos policy.factorOf_val.symm)
      refine ⟨work, hwork, ?_⟩
      rw [hval, hexpected, hactual, hcount, hsum, factorOf_val, cappedScaled, cappedAverage,
        totalWork, show (0 : U128).val = 0 from rfl, Nat.zero_add]

/-- Without overflow checks it is the `nextWork` the DAG calls. -/
theorem nextWorkIn_release (policy : Retarget) {recent : List TimedWork}
    (hfit : recent.length < 2 ^ 64) :
    policy.nextWorkIn false recent = .ok (policy.nextWork recent) := by
  have hlen : (policy.samples recent).length < 2 ^ 64 := by
    rw [samples]
    split
    · exact lt_of_le_of_lt (by simp) hfit
    · exact hfit
  have hkeep : policy.samplesKept false = .ok (policy.window + 1) := if_neg (by simp)
  rw [nextWorkIn, nextWork, hkeep, Outcome.ok_bind]
  show (match policy.samples recent with
    | [] | [_] => _
    | first :: second :: rest => _) = _
  generalize policy.samples recent = used at hlen
  match used with
  | [] | [_] => rfl
  | first :: second :: rest =>
      have hcount : (Word.cast 128 (first :: second :: rest).length : U128).val =
          (first :: second :: rest).length := Word.cast_of_lt (by omega)
      have hactual := actual_val first second rest
      simp only
      rw [scaleWork_eq (lt_of_lt_of_eq (Nat.succ_pos _) hcount.symm)
        (lt_of_lt_of_eq (lt_of_lt_of_le Nat.one_pos (le_max_left _ _)) hactual.symm)
        (lt_of_lt_of_eq policy.factorOf_pos policy.factorOf_val.symm) rfl, hcount,
        Word.cast_widen (by decide : 64 ≤ 128)]

/-- At `usize::MAX` the window has wrapped: nothing is measured. -/
theorem nextWorkIn_wrapped {policy : Retarget} (recent : List TimedWork) (checks : Bool)
    (hwindow : policy.window = Word.maxValue 64) :
    policy.nextWorkIn checks recent = if checks then
      .error (.panic "attempt to add with overflow") else .ok policy.minWork := by
  have hwrap : (Word.maxValue 64 + 1 : U64) = 0 := rfl
  cases checks with
  | true =>
      rw [nextWorkIn, samplesKept, if_pos ⟨rfl, hwindow⟩]
      rfl
  | false =>
      rw [nextWorkIn, samplesKept, if_neg (by simp), hwindow, hwrap, Outcome.ok_bind]
      cases recent with
      | nil => rfl
      | cons s rest =>
          have hdrop : (s :: rest).drop (rest.length + 1) = [] := List.drop_length
          simp only [List.length_cons, Fin.val_zero, Nat.sub_zero, Nat.zero_le, Nat.succ_pos,
            and_self, if_true, hdrop]
          rfl

/-! ## The rate against what is returned -/

theorem cappedAverage_le (used : List TimedWork) : cappedAverage used ≤ averageWork used :=
  Nat.div_le_div_right (min_le_left _ _)

theorem cappedSpan_le (policy : Retarget) (used : List TimedWork) :
    policy.cappedSpan used ≤ max 1 (policy.targetSpan used) :=
  max_le_max le_rfl (min_le_left _ _)

theorem cappedScaled_le (policy : Retarget) (used : List TimedWork) :
    policy.cappedScaled used ≤ policy.scaledWork used := by
  have hmul := Nat.mul_le_mul (cappedAverage_le used) (policy.cappedSpan_le used)
  exact min_le_min (Nat.div_le_div_right ((min_le_left _ _).trans hmul))
    (Nat.mul_le_mul_right _ (cappedAverage_le used))

/-- What saturation leaves is the rate exactly when nothing decisive is cut off. -/
theorem capped_eq_rateWork_iff (policy : Retarget) (used : List TimedWork) :
    max policy.minWork.val (max (cappedAverage used / policy.factorOf) (policy.cappedScaled used)) =
      policy.rateWork used ↔ policy.Unclipped used := by
  have hlower : cappedAverage used / policy.factorOf ≤ averageWork used / policy.factorOf :=
    Nat.div_le_div_right (cappedAverage_le used)
  have hscaled := policy.cappedScaled_le used
  have hlowerMax : cappedAverage used / policy.factorOf ≤ 2 ^ 128 - 1 :=
    (Nat.div_le_self _ _).trans ((Nat.div_le_self _ _).trans (min_le_right _ _))
  have hscaledMax : policy.cappedScaled used ≤ 2 ^ 128 - 1 :=
    (min_le_left _ _).trans ((Nat.div_le_self _ _).trans (min_le_right _ _))
  have hmin := policy.minWork.isLt
  have hreach : policy.rateWork used ≤ policy.cappedScaled used ↔
      policy.rateWork used ≤ cappedAverage used * policy.factorOf ∧
        policy.rateWork used * max 1 (timespan used) ≤
          min (cappedAverage used * policy.cappedSpan used) (2 ^ 128 - 1) := by
    rw [cappedScaled, le_min_iff, and_comm,
      Nat.le_div_iff_mul_le (lt_of_lt_of_le Nat.one_pos (le_max_left _ _))]
  rw [Unclipped, ← hreach, rateWork]
  omega

/-- Equal works: on target they are the rate, and below the target span the rate is
no less. -/
theorem rateWork_equal {policy : Retarget} {used : List TimedWork} {w : U128}
    (hne : used ≠ []) (hequal : ∀ s ∈ used, s.work = w) (hmin : policy.minWork ≤ w)
    (hspan : timespan used ≤ policy.targetSpan used) :
    w.val ≤ policy.rateWork used ∧
      (timespan used = policy.targetSpan used → policy.rateWork used = w.val) := by
  have htotal : totalWork used = used.length * w.val := by
    rw [totalWork, List.map_congr_left fun s hs => congrArg Fin.val (hequal s hs),
      List.map_const', List.sum_replicate, Nat.nsmul_eq_mul]
  have haverage : averageWork used = w.val := by
    rw [averageWork, htotal, Nat.mul_div_cancel_left _ (List.length_pos_iff.2 hne)]
  have hactual : 0 < max 1 (timespan used) := lt_of_lt_of_le Nat.one_pos (le_max_left _ _)
  have hfactor := Nat.le_mul_of_pos_right w.val policy.factorOf_pos
  have hlower := Nat.div_le_self w.val policy.factorOf
  have hw := w.isLt
  have hminVal := Fin.le_def.1 hmin
  have hscaled : w.val ≤ w.val * max 1 (policy.targetSpan used) / max 1 (timespan used) := by
    rw [Nat.le_div_iff_mul_le hactual]
    exact Nat.mul_le_mul_left _ (max_le_max le_rfl hspan)
  rw [rateWork, scaledWork, haverage]
  refine ⟨by omega, fun heq => ?_⟩
  rw [← heq, Nat.mul_div_cancel _ hactual]
  omega

/-- `next_work` follows the measured rate exactly when its window has not wrapped, or
nothing but the floor is asked for, and what saturation cuts off decides nothing. -/
theorem followsRate_iff (checks : Bool) (policy : Retarget) {recent : List TimedWork}
    (htwo : 2 ≤ (policy.measured recent).length) (hfit : recent.length < 2 ^ 64) :
    policy.FollowsRate checks recent ↔
      (policy.window = Word.maxValue 64 →
        checks = false ∧ policy.rateWork (policy.measured recent) = policy.minWork.val) ∧
      policy.Unclipped (policy.measured recent) := by
  have hne : policy.measured recent ≠ [] := by
    intro h
    rw [h] at htwo
    exact absurd htwo (by decide)
  have hequal : ∀ {work : U128}, work.val = policy.rateWork (policy.measured recent) →
      ∀ w : U128, (∀ s ∈ policy.measured recent, s.work = w) → policy.minWork ≤ w →
        timespan (policy.measured recent) ≤ policy.targetSpan (policy.measured recent) →
        w ≤ work ∧ (timespan (policy.measured recent) =
          policy.targetSpan (policy.measured recent) → work = w) := by
    intro work hwork w hall hmin hspan
    obtain ⟨hle, heq⟩ := rateWork_equal hne hall hmin hspan
    rw [← hwork] at hle heq
    exact ⟨Fin.le_def.2 hle, fun hon => Fin.ext (heq hon)⟩
  by_cases hwindow : policy.window = Word.maxValue 64
  · rw [FollowsRate, nextWorkIn_wrapped recent checks hwindow]
    cases checks with
    | true =>
        constructor
        · intro ⟨work, h, _⟩
          cases h
        · intro ⟨h, _⟩
          cases (h hwindow).1
    | false =>
        constructor
        · intro ⟨work, h, hval, _⟩
          obtain rfl := Except.ok.inj h
          exact ⟨fun _ => ⟨rfl, hval.symm⟩, .inl hval.symm⟩
        · intro ⟨h, _⟩
          have hval := (h hwindow).2.symm
          exact ⟨_, rfl, hval, hequal hval⟩
  · obtain ⟨work, hwork, hval⟩ := nextWorkIn_eq checks hwindow htwo hfit
    rw [← capped_eq_rateWork_iff, ← hval, FollowsRate, hwork]
    constructor
    · intro ⟨_, h, hrate, _⟩
      obtain rfl := Except.ok.inj h
      exact ⟨fun h => absurd h hwindow, hrate⟩
    · intro ⟨_, hrate⟩
      exact ⟨work, rfl, hrate, hequal hrate⟩

/-- Two blocks on target under the default policy. -/
theorem followsRate_default :
    FollowsRate true default [⟨0, 1000⟩, ⟨1000, 1000⟩] :=
  (followsRate_iff true default (by decide) (by decide)).2 ⟨fun h => absurd h (by decide), by decide⟩

/-- Two blocks on target of work `2 ^ 125`: the product saturates before it is divided,
and the next work is a quarter. -/
theorem onTarget_lowered :
    nextWorkIn false default [⟨0, 2 ^ 125⟩, ⟨1000, 2 ^ 125⟩] = .ok (2 ^ 123) ∧
      ¬ FollowsRate false default [⟨0, 2 ^ 125⟩, ⟨1000, 2 ^ 125⟩] := by
  have hwork : nextWorkIn false default [⟨0, 2 ^ 125⟩, ⟨1000, 2 ^ 125⟩] = .ok (2 ^ 123) := by
    decide +kernel
  refine ⟨hwork, ?_⟩
  rintro ⟨work, hreturned, hval, _⟩
  obtain rfl := Except.ok.inj (hwork.symm.trans hreturned)
  exact absurd hval (by decide +kernel)

end Retarget

end Kovanica
