-- SUMMARY: What statistics see: the numbers at all keys of the window, whatever the length it asks for, and no eviction among them.
import Lookback.Evaluation.History
import Lookback.Proofs.Retention
import Lookback.Proofs.SteppingBack

/-!
# Samples of a window

A statistic walks back until the window or the history ends, and feeds what is not
missing to an estimator of its own. The walk gives the numbers at all offsets of the
window that have a key (`Scan.samples_eq`), since no offset with a key comes after one
without.

The estimator of quantiles is bounded by the length that the window asks for. There
are never more samples than that, so nothing is evicted, and it answers like one
without a bound.
-/

namespace Lookback

/-! ## The walk -/

namespace Scan

variable {K ω : Type} {history : History K} {n : Nat}

/-- The number at an offset, if there is a key and the value there is not missing. -/
def numberAt (history : History K) (value : K → Traced ω Float) (offset : Nat) : Option Float :=
  ((history offset).map fun key => (value key).value).filter fun x => !x.isNaN

/-- The numbers of a window, newest first: those at all its offsets that have one. -/
def numbers (history : History K) (value : K → Traced ω Float) (length : Nat) : List Float :=
  (List.range length).filterMap (numberAt history value)

/-- The offsets with a number are those with a key at which the value is not missing. -/
theorem length_numbers (history : History K) (value : K → Traced ω Float) (length : Nat) :
    (numbers history value length).length =
      (List.range length).countP fun offset =>
        (history offset).any fun key => !(value key).value.isNaN := by
  rw [numbers, List.length_filterMap_eq_countP]
  refine List.countP_congr fun offset _ => ?_
  rw [numberAt]
  cases history offset with
  | none => rfl
  | some key => simp [Option.filter_some]

theorem length_numbers_le (history : History K) (value : K → Traced ω Float) (length : Nat) :
    (numbers history value length).length ≤ length := by
  rw [length_numbers]
  exact Nat.le_trans List.countP_le_length (Nat.le_of_eq List.length_range)

/-- There is no number at an offset without a key. -/
theorem numberAt_eq_none {value : K → Traced ω Float} {offset : Nat} (h : history offset = none) :
    numberAt history value offset = none := by
  rw [numberAt, h]
  rfl

theorem numberAt_eq {value : K → Traced ω Float} {offset : Nat} {key : K}
    (h : history offset = some key) : numberAt history value offset =
      if (value key).value.isNaN then none else some (value key).value := by
  rw [numberAt, h, Option.map_some, Option.filter_some]
  cases (value key).value.isNaN <;> rfl

theorem samples_eq (hn : history.EndsAt n) (value : K → Traced ω Float) (length : Nat) :
    (samples history value length).value = numbers history value length := by
  rw [samples, Traced.value_map, numbers, List.range_eq_range', ← List.nil_append (List.filterMap _ _)]
  -- From any offset on, with the numbers taken so far in reverse.
  generalize (0 : Nat) = base
  change _ = ([] : List Float).reverse ++ _
  generalize ([] : List Float) = taken
  induction length generalizing base taken with
  | zero => exact (List.append_nil _).symm
  | succ length ih =>
    rw [Traced.iterate_succ, Traced.value_bind]
    cases hkey : history base with
    | none =>
      -- The walk stops here, and no later offset has a key.
      have hend : n ≤ base := hn.eq_none_iff.1 hkey
      have hrest : (List.range' base (length + 1)).filterMap (numberAt history value) = [] := by
        rw [List.filterMap_eq_nil_iff]
        intro offset hoffset
        have hlater : base ≤ offset := (List.mem_range'_1.1 hoffset).1
        exact numberAt_eq_none (hn.eq_none_iff.2 (Nat.le_trans hend hlater))
      rw [hrest, List.append_nil]
      simp only [hkey]
      rfl
    | some key =>
      rw [List.range'_succ, List.filterMap_cons, numberAt_eq hkey]
      simp only [hkey, Traced.value_bind, Traced.value_pure]
      cases (value key).value.isNaN with
      | true => exact ih (base + 1) taken
      | false =>
        refine (ih (base + 1) ((value key).value :: taken)).trans ?_
        rw [List.reverse_cons, List.append_assoc]
        rfl

end Scan

/-! ## The estimators -/

namespace OrderStatistics

/-- As many values as there is room for leave no trace of the bound. -/
theorem sorted_after_some {window : Nat} {values : List Float}
    (h : values.length ≤ max window 1) :
    (after (some window) values).sorted = (after none values).sorted := by
  apply sorted_after_eq
  rw [retained, retained, Nat.sub_eq_zero_of_le h, List.drop_zero]

end OrderStatistics

/-- What a fresh estimator without a bound answers after the numbers. -/
def Statistic.query (xs : List Float) : Statistic → Float
  | .count => Float.ofNat (RunningSum.ofList xs).count
  | .sum => (RunningSum.ofList xs).sum
  | .product => (RunningProduct.ofList xs).product
  | .average => (Moments.ofList xs).mean
  | .variance => (Moments.ofList xs).populationVariance
  | .sampleVariance => (Moments.ofList xs).sampleVariance
  | .deviation => (Moments.ofList xs).populationDeviation
  | .sampleDeviation => (Moments.ofList xs).sampleDeviation
  | .median => (OrderStatistics.after none xs).median

theorem Statistic.read_eq_query {length : Nat} {xs : List Float} (h : xs.length ≤ length)
    (s : Statistic) : s.read length xs = s.query xs := by
  cases s with
  | median =>
    exact OrderStatistics.percentile_congr (OrderStatistics.sorted_after_some (by omega)) _
  | _ => rfl

theorem RunningSum.count_ofList (xs : List Float) : (ofList xs).count = xs.length := by
  have hfold (s : RunningSum Float) : (xs.foldl add s).count = s.count + xs.length := by
    induction xs generalizing s with
    | nil => rfl
    | cons x xs ih =>
      rw [List.foldl_cons, ih, List.length_cons]
      exact Nat.add_right_comm s.count 1 xs.length
  exact (hfold empty).trans (Nat.zero_add _)

/-! ## The operations -/

namespace WindowOp

variable {K : Type} {histories : K → History K} {key : K}

open Lookback.Scan

theorem value_statistic (s : Statistic) (histories : K → History K) (o : Operands K) (key : K) :
    (((statistic s).evaluator histories o).toDouble key).value =
      let length := windowLength (o.double 0 key).value
      s.read length (samples (histories key) (o.double 1) length).value :=
  congrArg Traced.value (congrFun (Compiled.coerced_kind (.double _)) key)

theorem value_percentile (histories : K → History K) (o : Operands K) (key : K) :
    ((percentile.evaluator histories o).toDouble key).value =
      let length := windowLength (o.double 0 key).value
      (windowStatistics length (samples (histories key) (o.double 1) length).value).percentile
        (o.double 2 key).value :=
  congrArg Traced.value (congrFun (Compiled.coerced_kind (.double _)) key)

/-- On a built-in history, statistics see the numbers at all offsets of their window that
    have a key, newest first, and answer like fresh estimators without a bound. The count
    is that of the offsets with a number. Whatever the length of the window, at no sample
    does the bounded estimator have to make room. -/
theorem statistic_sees_window (h : (histories key).BuiltIn) (o : Operands K) :
    let history := histories key
    let value := o.double 1
    let length := windowLength (o.double 0 key).value
    let seen := numbers history value length
    (∀ s : Statistic, (((statistic s).evaluator histories o).toDouble key).value = s.query seen) ∧
    ((percentile.evaluator histories o).toDouble key).value =
      (OrderStatistics.after none seen).percentile (o.double 2 key).value ∧
    (((statistic .count).evaluator histories o).toDouble key).value =
      Float.ofNat ((List.range length).countP fun offset =>
        (history offset).any fun k => !(value k).value.isNaN) ∧
    ∀ (n : Nat) (fed rest : List Float) (x : Float),
      (samples history value n).value = fed ++ x :: rest →
      (windowStatistics n fed).isFull = false := by
  intro history value length seen
  obtain ⟨last, -, hlast⟩ := h.exists_endsAt
  have hseen : (samples history value length).value = seen := samples_eq hlast value length
  have hfits : seen.length ≤ length := length_numbers_le history value length
  have hstatistic (s : Statistic) :
      (((statistic s).evaluator histories o).toDouble key).value = s.query seen := by
    rw [value_statistic, ← Statistic.read_eq_query hfits]
    exact congrArg (s.read length) hseen
  refine ⟨hstatistic, ?_, ?_, ?_⟩
  · rw [value_percentile]
    have hsorted := OrderStatistics.sorted_after_some (Nat.le_trans hfits (Nat.le_max_left length 1))
    rw [← OrderStatistics.percentile_congr hsorted, ← hseen]
    rfl
  · rw [hstatistic, Statistic.query, RunningSum.count_ofList, length_numbers]
  · intro n fed rest x hsamples
    have hcount := length_numbers_le history value n
    rw [← samples_eq hlast, hsamples, List.length_append, List.length_cons] at hcount
    rw [Bool.eq_false_iff]
    intro hfull
    have hroom := (OrderStatistics.retains_after (some n) fed).isFull_iff.1 hfull
    omega

/-- From bar 3 a window of 50 bars reaches past bar 0, and a value is missing at bar 1. The
    other three are counted, and the median is the one in the middle. -/
theorem statistic_sees_window_bars :
    let value (bar : Int) : Traced (Visit Int) Float :=
      pure (if bar = 1 then Double.nan else Float.ofInt (bar * bar))
    let o : Operands Int := ⟨[.constant ⟨.double, 50⟩, .double value], fun _ => Double.nan⟩
    (((statistic .count).evaluator Bars.history o).toDouble 3).value = 3 ∧
      (((statistic .median).evaluator Bars.history o).toDouble 3).value = 4 ∧
      (windowStatistics 50 [9, 4]).isFull = false := by
  intro value o
  obtain ⟨hstatistic, -, hcount, hfits⟩ :=
    statistic_sees_window (.bars (show (3 : Int) ≤ maxIndex by decide)) o
  have hlength : windowLength (o.double 0 3).value = 50 := by decide
  have hvalue : o.double 1 = value := Compiled.coerced_kind (.double value)
  have hseen : numbers (Bars.history 3) value 50 = [9, 4, 0] := by decide
  rw [hlength, hvalue] at hcount hstatistic
  rw [hvalue] at hfits
  refine ⟨hcount.trans (by decide), ?_, hfits 50 [9, 4] [] 0 (by decide)⟩
  rw [hstatistic, hseen]
  decide +kernel

end WindowOp

end Lookback
