-- SUMMARY: The statistics of a window: which number is read off its samples.
import Lookback.Estimator.Moments
import Lookback.Estimator.OrderStatistics
import Lookback.Estimator.Total

/-! # Statistics

Each statistic feeds the samples of a window, newest first, to a fresh estimator
and reads its answer. The estimator of quantiles is bounded by the length of the
window, which the samples cannot exceed. -/

namespace Lookback

/-- The numbers that are read off the samples alone. -/
inductive Statistic where
  | count
  | sum
  | product
  | average
  | variance
  | sampleVariance
  | deviation
  | sampleDeviation
  | median
deriving DecidableEq, Repr

def windowStatistics (length : Nat) (samples : List Float) : OrderStatistics Float :=
  samples.foldl OrderStatistics.add (OrderStatistics.bounded length)

/-- The statistic of the samples of a window of the given length. -/
def Statistic.read (length : Nat) (samples : List Float) : Statistic → Float
  | .count => Float.ofNat (RunningSum.ofList samples).count
  | .sum => (RunningSum.ofList samples).sum
  | .product => (RunningProduct.ofList samples).product
  | .average => (Moments.ofList samples).mean
  | .variance => (Moments.ofList samples).populationVariance
  | .sampleVariance => (Moments.ofList samples).sampleVariance
  | .deviation => (Moments.ofList samples).populationDeviation
  | .sampleDeviation => (Moments.ofList samples).sampleDeviation
  | .median => (windowStatistics length samples).median

end Lookback
