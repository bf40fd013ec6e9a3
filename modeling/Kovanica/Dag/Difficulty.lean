import Kovanica.Lib.Word

/-!
# Difficulty retargeting

The work the next block must carry, from the timestamps and works of recent
blocks: the average work scaled by `expected / actual` timespan, clamped to a
factor and floored at a minimum.

Sums and products saturate where the source says so, and the addition to the window wraps as in a
build without overflow checks.
-/

namespace Kovanica

open Lib

/-- A recent block's timestamp and the work it was mined at. -/
structure TimedWork where
  timestampMs : U64
  work : U128
deriving DecidableEq

/-- A retargeting policy: the interval to aim at, the number of intervals to measure, the largest
factor of one change, and the least work. -/
structure Retarget where
  targetIntervalMs : U64
  window : U64
  maxFactor : U32
  minWork : U128
deriving DecidableEq

namespace Retarget

/-- The policy's own default: one block a second, 20 intervals, a factor of 4. -/
def default : Retarget where
  targetIntervalMs := 1000
  window := 20
  maxFactor := 4
  minWork := 1

/-- The last `window + 1` samples.  The addition wraps: at `window = usize::MAX`
the whole list is cut off. -/
def samples (policy : Retarget) (recent : List TimedWork) : List TimedWork :=
  let keep := (policy.window + 1).val
  if keep ≤ recent.length ∧ 0 < recent.length - keep then recent.drop (recent.length - keep)
  else recent

/-- `next_work(recent)`, oldest sample first.  Products and sums saturate, as in the source, and
a window of `usize::MAX` wraps to no samples at all. -/
def nextWork (policy : Retarget) (recent : List TimedWork) : U128 :=
  match policy.samples recent with
  | [] | [_] => policy.minWork
  | first :: second :: rest =>
      let used := first :: second :: rest
      let last := (second :: rest).getLast (List.cons_ne_nil _ _)
      let intervals : U64 := Word.cast 64 (used.length - 1)
      let expected := max (Word.saturatingMul intervals policy.targetIntervalMs) 1
      let actual := max (Word.saturatingSub last.timestampMs first.timestampMs) 1
      let sum := used.foldl (fun acc s => Word.saturatingAdd acc s.work) (0 : U128)
      let avgWork : U128 := Word.cast 128 (sum.val / used.length)
      let scaled : U128 :=
        Word.cast 128 ((Word.saturatingMul avgWork (Word.cast 128 expected.val)).val / actual.val)
      let factor : U128 := Word.cast 128 (max policy.maxFactor 1).val
      let lower := max (Word.cast 128 (avgWork.val / factor.val)) policy.minWork
      let upper := max (Word.saturatingMul avgWork factor) policy.minWork
      max (max lower (min scaled upper)) policy.minWork

end Retarget

end Kovanica
