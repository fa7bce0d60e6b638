-- SUMMARY: What a dated series observes along its own dates: every value once, in order, unless two of them have the same date.
import Lookback.Proofs.CalendarBars
import Lookback.Proofs.Running

/-!
# Observations along the own dates

A dated series supplies the dates of its observations as keys, and a context to
step back from them. Both go by date alone: a read takes the last entry at or before
the date, a step back the entries strictly before it. So they name the observations
one by one as long as no date is repeated (`Series.observes_each_once_iff`). A
calendar with a repeated date does ascend; at that date only the last observation
is read, and stepping back passes over the others.
-/

namespace Lookback

namespace Calendar

/-- A calendar from each entry of which one can step back to every entry before it
    repeats no date. -/
theorem pairwise_lt_of_history (c : Calendar)
    (h : ∀ i (hi : i < c.entries.size), (c.history c.entries[i] i).isSome = true) :
    c.entries.toList.Pairwise (· < ·) := by
  rw [List.pairwise_iff_getElem]
  intro i j hi hj hij
  have hj' : j < c.entries.size := by simpa using hj
  -- As many entries lie strictly before entry `j` as steps back are found there.
  have hcount : j ≤ c.countBefore c.entries[j] := by
    have hsome := h j hj'
    simp only [history] at hsome
    split at hsome
    · omega
    · split at hsome
      · assumption
      · cases hsome
  have hbefore := Bisection.any_getElem? (c.pairwise_before c.entries[j]) i
  rw [countBefore_eq, before, ← List.countP_eq_length_filter] at hcount
  rw [List.getElem?_eq_getElem hi, Option.any_some, decide_eq_decide] at hbefore
  exact hbefore.2 (by omega)

end Calendar

namespace Series

variable {s : Series}

/-! ## Keys -/

theorem bars_provided (s : Series) : s.bars.provided = (List.range s.size).map Int.ofNat := by
  rw [KeySource.provided, ← List.filterMap_eq_map]
  refine List.filterMap_congr fun index hindex => ?_
  exact if_pos (List.mem_range.1 hindex)

theorem dates_provided {calendar : Array Timestamp} (h : s.calendar = some calendar) :
    s.dates.provided = calendar.toList := by
  have hdates : s.dates = .ofList calendar.toList := by
    simp only [dates, KeySource.ofList, h, Option.elim_some, Option.bind_some,
      Array.length_toList, Array.getElem?_toList]
  rw [hdates, KeySource.provided_ofList]

theorem previousKeys?_eq_some_iff {calendar : Array Timestamp} (h : s.calendar = some calendar)
    {keys : PreviousKeys} : s.previousKeys? = some keys ↔
      ∃ c : Calendar, c.entries = calendar ∧ keys = .calendar c := by
  simp only [previousKeys?, h, Option.map_eq_some_iff, Calendar.ofArray?]
  constructor
  · rintro ⟨c, hc, rfl⟩
    split at hc
    · exact ⟨c, by rw [← Option.some.inj hc], rfl⟩
    · cases hc
  · rintro ⟨c, rfl, rfl⟩
    exact ⟨c, dif_pos c.ascending, rfl⟩

/-! ## Reads -/

/-- A run of the series itself reads it at each key. -/
theorem run_series (options : CompileOptions) {M : KeyModel} {read : M.Key → Float}
    (h : s.compile M = .ok (.double fun key => pure (read key))) (source : KeySource M.Key) :
    ∃ r, options.run M (.series s) source = .ok r ∧ r.values = source.provided.map read := by
  obtain ⟨manifest, hrun⟩ := options.runAs_eq .double (Expr.BuiltOver.series s) h source
  refine ⟨_, hrun, ?_⟩
  simp only [List.map_map]
  rfl

theorem valueAt_natCast {i : Nat} (hi : i < s.values.size) : s.valueAt i = s.values[i] := by
  rw [valueAt, if_pos (Int.natCast_nonneg i), Int.toNat_natCast, Array.getElem?_eq_getElem hi,
    Option.getD_some]

theorem map_valueAt_bars (s : Series) : s.bars.provided.map s.valueAt = s.values.toList := by
  rw [bars_provided, List.map_map]
  refine List.ext_getElem (by simp [size]) fun i hi hi' => ?_
  rw [List.getElem_map, List.getElem_range]
  exact valueAt_natCast (by simpa using hi')

/-- Stepping back from a bar reads its value and those before it, latest first. -/
theorem map_history_bars {i : Nat} (hi : i < s.values.size) (offset : Nat) :
    (Bars.history i offset).map s.valueAt = (s.values.toList.take (i + 1)).reverse[offset]? := by
  have hlength : (s.values.toList.take (i + 1)).length = i + 1 := by
    rw [List.length_take, Array.length_toList]
    omega
  by_cases hoffset : offset ≤ i
  · have hbar : Bars.history i offset = some ((i - offset : Nat) : Int) :=
      Bars.history_eq_some_iff.2 (by omega)
    have htake : (s.values.toList.take (i + 1)).reverse[offset]? = s.values[i - offset]? := by
      rw [List.getElem?_reverse (by omega), hlength, List.getElem?_take_of_lt (by omega),
        Array.getElem?_toList]
      congr 1
    rw [hbar, Option.map_some, valueAt_natCast (by omega), htake, Array.getElem?_eq_getElem]
  · have hend : Bars.history i offset = none := by
      refine Option.eq_none_iff_forall_ne_some.2 fun bar hbar => ?_
      have := Bars.history_eq_some_iff.1 hbar
      omega
    rw [hend, List.getElem?_eq_none (by rw [List.length_reverse]; omega)]
    rfl

/-- The read at a time is that of the last entry at or before it. -/
theorem valueAsOf_of_last {c : Calendar} (h : s.calendar = some c.entries) {time : Timestamp}
    {i : Nat} (hi : i < c.entries.size) (hle : c.entries[i] ≤ time)
    (hlt : ∀ j (hj : j < c.entries.size), i < j → time < c.entries[j]) :
    s.valueAsOf time = s.valueAt i := by
  simp only [valueAsOf, h, readAsOf, Calendar.countUpTo_of_last hi hle hlt, valueAt]
  rw [if_pos (Int.natCast_nonneg i), Int.toNat_natCast]

/-! ## Strictly ascending dates -/

section Strict

variable {c : Calendar} (h : s.calendar = some c.entries)
  (hstrict : c.entries.toList.Pairwise (· < ·))

include h hstrict

theorem map_valueAsOf_dates : c.entries.toList.map s.valueAsOf = s.values.toList := by
  have hsize : c.entries.size = s.values.size := s.calendar_size _ h
  refine List.ext_getElem (by simpa using hsize) fun i hi hi' => ?_
  have hdated : s.DatedBy c s := ⟨rfl, h⟩
  have hi' : i < s.values.size := by simpa using hi'
  rw [List.getElem_map, Array.getElem_toList, Array.getElem_toList, ← valueAt_natCast hi']
  exact hdated.valueAsOf_eq hstrict ⟨i, by omega, rfl, rfl⟩

/-- Stepping back from a date of the series reads what stepping back from its bar does. -/
theorem map_history_dates {i : Nat} (hi : i < c.entries.size) (offset : Nat) :
    (c.history c.entries[i] offset).map s.valueAsOf =
      (s.values.toList.take (i + 1)).reverse[offset]? := by
  have hdated : s.DatedBy c s := ⟨rfl, h⟩
  have hsize : c.entries.size = s.values.size := s.calendar_size _ h
  have hentry : c.IsEntry i c.entries[i] := ⟨i, hi, rfl, rfl⟩
  have hagree := Calendar.history_agree hstrict hentry offset
  rw [← map_history_bars (by omega)]
  generalize Bars.history i offset = bar at hagree ⊢
  generalize c.history c.entries[i] offset = date at hagree ⊢
  cases hagree with
  | none => rfl
  | some hentry => exact congrArg some (hdated.valueAsOf_eq hstrict hentry)

end Strict

/-! ## Each observation once -/

/-- Along its bars a series has its values in order. Along its own dates it does too, and
    stepping back from the date of value `i` reads values `i`, `i - 1` and so on, each once
    until they end, for a calendar without repeated dates and for no other that ascends. -/
theorem observes_each_once_iff {calendar : Array Timestamp} (hdated : s.calendar = some calendar)
    {keys : PreviousKeys} (hkeys : s.previousKeys? = some keys) :
    ∃ leaf histories, (Expr.series s).compile .date = .ok leaf ∧
      keys.history? .date = some histories ∧
      (∀ options : CompileOptions, ∃ r, options.run .bar (.series s) s.bars = .ok r ∧
        r.values = s.values.toList) ∧
      (calendar.toList.Pairwise (· < ·) ↔
        (∀ options : CompileOptions, ∃ r, options.run .date (.series s) s.dates = .ok r ∧
          r.values = s.values.toList) ∧
        ∀ i (hi : i < calendar.size) offset,
          (histories calendar[i] offset).map (fun time => (leaf.toDouble time).value) =
            (s.values.toList.take (i + 1)).reverse[offset]?) := by
  obtain ⟨c, rfl, rfl⟩ := (previousKeys?_eq_some_iff hdated).1 hkeys
  have hleaf : s.compile .date = .ok (.double fun time => pure (s.valueAsOf time)) :=
    compile_date (by rw [hdated]; rfl)
  have hread : ∀ time : Timestamp,
      ((Compiled.double fun time => pure (s.valueAsOf time)).toDouble time).value =
        s.valueAsOf time := fun _ => rfl
  refine ⟨_, c.history, hleaf, rfl, fun options => ?_, fun hstrict => ⟨fun options => ?_, ?_⟩,
    fun ⟨_, hreads⟩ => c.pairwise_lt_of_history fun i hi => ?_⟩
  · obtain ⟨r, hr, hvalues⟩ := run_series options (M := .bar) rfl s.bars
    exact ⟨r, hr, hvalues.trans s.map_valueAt_bars⟩
  · obtain ⟨r, hr, hvalues⟩ := run_series options hleaf s.dates
    rw [dates_provided hdated] at hvalues
    exact ⟨r, hr, hvalues.trans (map_valueAsOf_dates hdated hstrict)⟩
  · intro i hi offset
    simp only [hread]
    exact map_history_dates hdated hstrict hi offset
  · have hsize : c.entries.size = s.values.size := s.calendar_size _ hdated
    have hfirst := congrArg Option.isSome (hreads i hi i)
    rw [Option.isSome_map] at hfirst
    rw [hfirst, List.getElem?_eq_getElem (by simp; omega)]
    rfl

/-- Two observations a minute apart. -/
theorem observes_each_once_apart :
    ∃ (s : Series) (start next : Timestamp) (keys : PreviousKeys)
      (histories : Timestamp → History Timestamp),
      s.values = #[1, 2] ∧ s.calendar = some #[start, next] ∧ s.previousKeys? = some keys ∧
        keys.history? .date = some histories ∧
        (∃ r, (CompileOptions.mk true true).run .date (.series s) s.dates = .ok r ∧
          r.values = [1, 2]) ∧
        ∃ leaf, s.compile .date = .ok leaf ∧
          (histories next 1).map (fun time => (leaf.toDouble time).value) = some 1 := by
  let start : Timestamp := ⟨0, 0, by decide, by decide, by decide⟩
  let next : Timestamp := ⟨60, 0, by decide, by decide, by decide⟩
  let c : Calendar := ⟨#[start, next], by decide⟩
  let s : Series := ⟨"close", #[1, 2], some c.entries, by simp [c]⟩
  have hkeys : s.previousKeys? = some (.calendar c) :=
    (previousKeys?_eq_some_iff rfl).2 ⟨c, rfl, rfl⟩
  obtain ⟨leaf, histories, hleaf, hhistories, -, honce⟩ := observes_each_once_iff (s := s) rfl hkeys
  obtain ⟨hrun, hreads⟩ := honce.1 (by decide)
  exact ⟨s, start, next, _, histories, rfl, rfl, hkeys, hhistories, hrun _, leaf, hleaf,
    hreads 1 (by decide) 1⟩

/-- Two observations at one date, in a calendar that ascends: the earlier one is not
    read, and there is no step back to it. -/
theorem observes_each_once_not :
    ∃ (s : Series) (date : Timestamp) (keys : PreviousKeys)
      (histories : Timestamp → History Timestamp),
      s.values = #[1, 2] ∧ s.calendar = some #[date, date] ∧ s.previousKeys? = some keys ∧
        keys.history? .date = some histories ∧
        (∃ r, (CompileOptions.mk true true).run .date (.series s) s.dates = .ok r ∧
          r.values = [2, 2] ∧ r.values ≠ s.values.toList) ∧
        histories date 1 = none := by
  let date : Timestamp := ⟨0, 0, by decide, by decide, by decide⟩
  let c : Calendar := ⟨#[date, date], by decide⟩
  let s : Series := ⟨"close", #[1, 2], some c.entries, by simp [c]⟩
  have hdated : s.calendar = some c.entries := rfl
  have hkeys : s.previousKeys? = some (.calendar c) :=
    (previousKeys?_eq_some_iff hdated).2 ⟨c, rfl, rfl⟩
  have hread : s.valueAsOf date = 2 :=
    valueAsOf_of_last (i := 1) hdated (by decide) (by decide) fun j hj hlt => by
      have : j < 2 := hj
      omega
  obtain ⟨r, hr, hvalues⟩ := run_series (s := s) ⟨true, true⟩ (M := .date) rfl s.dates
  have hboth : r.values = [2, 2] := by
    rw [hvalues, dates_provided hdated]
    exact congrArg₂ (fun x y => [x, y]) hread hread
  refine ⟨s, date, _, c.history, rfl, rfl, hkeys, rfl, ⟨r, hr, hboth, ?_⟩, by decide +kernel⟩
  rw [hboth]
  intro hsame
  have hfirst : (2 : Float) = 1 := (List.cons.inj hsame).1
  exact absurd (congrArg (· == 2) hfirst) (by decide)

end Series

end Lookback
