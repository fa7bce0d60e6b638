-- SUMMARY: How historical operations evaluate: windows sized at the current key, and operands read at the keys of the window.
import Lookback.Operands
import Lookback.Operation

/-!
# Historical evaluation

Counts, lookbacks, numbers of steps and offsets are read at the current key,
before anything else. Conditions and values are read at the keys of the window.
A quantile is read at the current key, after the values.
-/

namespace Lookback

variable {K : Type}

def Quantifier.scan {ω : Type} : Quantifier → History K → (K → Traced ω Bool) → Nat → Traced ω Bool
  | .throughout => Scan.holdsThroughout
  | .somewhere => Scan.holdsSomewhere

namespace WindowOp

def evaluator (history : K → History K) (o : Operands K) : WindowOp → Compiled K
  | .once =>
    let condition := o.boolean 0
    .boolean fun key => do
      if ← condition key then
        match history key 1 with
        | none => return true
        | some earlier => return !(← condition earlier)
      else
        return false
  | .quantified q =>
    let count := o.double 0
    let condition := o.boolean 1
    .boolean fun key => do
      let length := Scan.windowLength (← count key)
      q.scan (history key) condition length
  | .indexOf which =>
    let condition := o.boolean 0
    let lookback := o.double 1
    .double fun key => do
      let length := Scan.windowLength (← lookback key)
      match which with
      | .oldest => Scan.indexToDouble <$> Scan.firstIndexOf (history key) length condition
      | .newest => Scan.indexToDouble <$> Scan.lastIndexOf (history key) length condition
  | .chained mode =>
    let condition := o.boolean 0
    let lookback := o.double 1
    let steps := o.double 2
    .double fun key => do
      let length := Scan.windowLength (← lookback key)
      let rounds := Scan.windowLength (← steps key)
      Scan.indexToDouble <$> Scan.chainedIndexOf (history key) length rounds mode condition
  | .previous =>
    let value := o.double 0
    let offset := o.double 1
    .double fun key => do
      let back ← offset key
      if 0 ≤ back then
        match history key back.toUInt64.toNat with
        | none => return Double.nan
        | some earlier => value earlier
      else
        return Double.nan
  | .statistic s =>
    let count := o.double 0
    let value := o.double 1
    .double fun key => do
      let length := Scan.windowLength (← count key)
      let samples ← Scan.samples (history key) value length
      return s.read length samples
  | .percentile =>
    let count := o.double 0
    let value := o.double 1
    let quantile := o.double 2
    .double fun key => do
      let length := Scan.windowLength (← count key)
      let samples ← Scan.samples (history key) value length
      let rank ← quantile key
      return (windowStatistics length samples).percentile rank

end WindowOp

namespace HistoryOp

/-- The evaluator of a swept comparison. The held side is read at the current key
    once the window is known not to be empty; a missing operand makes the
    comparison false. -/
def sweptEvaluator (history : K → History K) (side : Side) (quantifier : Quantifier)
    (count : Evaluator K Float) (comparison : Comparison (Evaluator K Float)) : Compiled K :=
  .boolean fun key => do
    let length := Scan.windowLength (← count key)
    if length = 0 then
      return false
    else
      match side with
      | .left =>
        let held ← comparison.right key
        quantifier.scan (history key)
          (fun earlier => do
            return comparison.relation.applyDefinite (← comparison.left earlier) held)
          length
      | .right =>
        let held ← comparison.left key
        quantifier.scan (history key)
          (fun earlier => do
            return comparison.relation.applyDefinite held (← comparison.right earlier))
          length

end HistoryOp

end Lookback
