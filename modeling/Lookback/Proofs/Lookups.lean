-- SUMMARY: Lookups on calendars: what the bisections find, said of the entries one by one, and how it moves with the time.
import Lookback.Proofs.Histories
import Mathlib.Order.Bounds.Basic

/-!
# Lookups on calendars

A read at a time counts the entries at or before it, a step back counts those strictly
before it, and both counts come from a bisection. The entries ascend, so what is found can
be said without a search: the read is that of the last entry at or before the time, and
steps back go through the entries strictly before it from the end. Entries may repeat a
date, and the times looked up need not be dates of the calendar, nor lie between two of them.

How a lookup moves with the time follows from the counts alone. A read stays the same
until the time comes to another entry, and the same number of steps back ends no earlier
when it starts later.
-/

namespace Lookback

/-! ## Reads -/

/-- Indices of the calendar entries at or before a time. -/
def Series.indicesUpTo (calendar : Array Timestamp) (time : Timestamp) : Set Nat :=
  {i | ∃ entry, calendar[i]? = some entry ∧ entry ≤ time}

namespace Calendar

variable {c : Calendar} {time later : Timestamp}

/-- The number of entries up to a time is right behind the index of the last one. -/
theorem countUpTo_eq_succ_iff {i : Nat} :
    Series.countUpTo c.entries time = i + 1 ↔
      IsGreatest (Series.indicesUpTo c.entries time) i := by
  simp only [Series.indicesUpTo, c.exists_entry_le_iff]
  constructor
  · intro hcount
    refine ⟨show i < _ by omega, fun j hj => ?_⟩
    have hj : j < Series.countUpTo c.entries time := hj
    omega
  · rintro ⟨hi, hgreatest⟩
    have hi : i < Series.countUpTo c.entries time := hi
    have hlast : Series.countUpTo c.entries time - 1 ≤ i :=
      hgreatest (show _ < Series.countUpTo c.entries time by omega)
    omega

/-- Only an entry that is passed is counted anew. -/
theorem countUpTo_of_not_passed (hle : time ≤ later)
    (h : ∀ entry ∈ c.entries, entry ≤ time ∨ later < entry) :
    Series.countUpTo c.entries later = Series.countUpTo c.entries time := by
  rw [countUpTo_eq, countUpTo_eq]
  refine List.countP_congr fun entry hentry => ?_
  rw [decide_eq_true_iff, decide_eq_true_iff]
  constructor
  · intro hlater
    exact (h entry (Array.mem_toList_iff.1 hentry)).resolve_right (Int.not_lt.2 hlater)
  · intro htime
    exact Int.le_trans htime hle

end Calendar

namespace Series

variable {s : Series} {c : Calendar}

/-- A read is the value at the last entry at or before the time, or there is no such
    entry and it is missing. -/
theorem valueAsOf_isGreatest_or (h : s.calendar = some c.entries) (time : Timestamp) :
    (∃ i, IsGreatest (indicesUpTo c.entries time) i ∧ s.values[i]? = some (s.valueAsOf time)) ∨
      (∀ entry ∈ c.entries, time < entry) ∧ s.valueAsOf time = Double.nan := by
  simp only [valueAsOf, h, readAsOf]
  cases hcount : countUpTo c.entries time with
  | zero => exact .inr ⟨c.countUpTo_eq_zero_iff.1 hcount, rfl⟩
  | succ i =>
    have hgreatest := Calendar.countUpTo_eq_succ_iff.1 hcount
    obtain ⟨entry, hentry, -⟩ := hgreatest.1
    have hi : i < s.values.size := by
      rw [← s.calendar_size _ h]
      exact (Array.getElem?_eq_some_iff.1 hentry).1
    refine .inl ⟨i, hgreatest, ?_⟩
    dsimp only
    rw [Array.getElem?_eq_getElem hi, Option.getD_some]

end Series

/-! ## Steps back -/

namespace Calendar

variable {c : Calendar} {time later : Timestamp}

theorem countBefore_mono (hle : time ≤ later) : c.countBefore time ≤ c.countBefore later := by
  rw [countBefore_eq, countBefore_eq, before, before, ← List.countP_eq_length_filter,
    ← List.countP_eq_length_filter]
  refine List.countP_mono_left fun entry _ hentry => ?_
  rw [decide_eq_true_iff] at hentry ⊢
  exact Int.lt_of_lt_of_le hentry hle

theorem history_eq_none_iff {offset : Nat} (hoffset : 0 < offset) :
    c.history time offset = none ↔ (c.before time).length < offset := by
  obtain ⟨n, rfl⟩ := Nat.exists_eq_add_one_of_ne_zero (Nat.ne_of_gt hoffset)
  rw [history_succ, List.getElem?_eq_none_iff, List.length_reverse, Nat.lt_succ_iff]

/-- As far back from a later time there is a key too, and it is no earlier. -/
theorem history_mono {offset : Nat} {key : Timestamp} (hle : time ≤ later)
    (h : c.history time offset = some key) :
    ∃ key', c.history later offset = some key' ∧ key ≤ key' := by
  by_cases hzero : offset = 0
  · subst hzero
    cases h
    exact ⟨later, rfl, hle⟩
  · have hmono := countBefore_mono (c := c) hle
    have hsize : c.countBefore later ≤ c.entries.size := c.countBefore_le later
    simp only [history, if_neg hzero] at h ⊢
    split at h
    · rename_i hoffset
      rw [Array.getElem?_eq_getElem (by omega), Option.some.injEq] at h
      subst h
      rw [if_pos (by omega), Array.getElem?_eq_getElem (by omega)]
      exact ⟨_, rfl, c.entries_le (by omega) (by omega)⟩
    · cases h

end Calendar

/-! ## Both without a search -/

/-- Observations with dates in ascending order, repeated or not, make a series and a calendar.
    A read is the value at the last entry at or before the time, and missing when all entries
    are later. So many steps back lead to the entry that is so many from the end among those
    strictly before the time, and nowhere when these are fewer. Hence a read stays the same
    until another entry is reached, and as many steps back from a later time end no earlier. -/
theorem Calendar.lookups_linear {values : Array Float} {calendar : Array Timestamp}
    (hsize : calendar.size = values.size) (hascending : calendar.toList.Pairwise (· ≤ ·))
    (name : String) :
    ∃ s c, (Series.undated name values).withCalendar? calendar = some s ∧
      ofArray? calendar = some c ∧
      (∀ time,
        (∃ i, IsGreatest (Series.indicesUpTo calendar time) i ∧
          values[i]? = some (s.valueAsOf time)) ∨
        (∀ entry ∈ calendar, time < entry) ∧ s.valueAsOf time = Double.nan) ∧
      (∀ time offset, 0 < offset →
        let before := calendar.toList.filter (· < time)
        c.history time offset = before.reverse[offset - 1]? ∧
          (c.history time offset = none ↔ before.length < offset)) ∧
      (∀ time later, time ≤ later → (∀ entry ∈ calendar, entry ≤ time ∨ later < entry) →
        s.valueAsOf later = s.valueAsOf time) ∧
      ∀ time later offset key, time ≤ later → c.history time offset = some key →
        ∃ key', c.history later offset = some key' ∧ key ≤ key' := by
  have hadjacent : ∀ i, (hi : i < calendar.size - 1) → calendar[i] ≤ calendar[i + 1] :=
    fun i hi => List.pairwise_iff_getElem.1 hascending i (i + 1) (by simp; omega) (by simp; omega)
      (Nat.lt_succ_self i)
  let c : Calendar := ⟨calendar, hadjacent⟩
  let s : Series := ⟨name, values, some calendar, by simp [hsize]⟩
  have hdated : s.calendar = some c.entries := rfl
  refine ⟨s, c, dif_pos hsize, dif_pos hadjacent, s.valueAsOf_isGreatest_or hdated,
    fun time offset hoffset => ⟨?_, history_eq_none_iff hoffset⟩,
    fun time later hle hpassed => ?_, fun time later offset key => history_mono⟩
  · obtain ⟨n, rfl⟩ := Nat.exists_eq_add_one_of_ne_zero (Nat.ne_of_gt hoffset)
    exact c.history_succ time n
  · have hcount := countUpTo_of_not_passed (c := c) hle hpassed
    simp only [Series.valueAsOf, hdated, Series.readAsOf, hcount]

/-- Four observations, the two in the middle of one date: that date and the times after it
    read the later of the two, and each of them is a step back. -/
theorem Calendar.lookups_linear_repeated :
    ∃ (s : Series) (c : Calendar) (early start twice inside last : Timestamp),
      let calendar := #[start, twice, twice, last]
      calendar.toList.Pairwise (· ≤ ·) ∧
        (Series.undated "close" #[1, 2, 3, 4]).withCalendar? calendar = some s ∧
        ofArray? calendar = some c ∧ twice < inside ∧ inside < last ∧
        s.valueAsOf early = Double.nan ∧ s.valueAsOf twice = 3 ∧ s.valueAsOf inside = 3 ∧
        c.history inside 1 = some twice ∧ c.history inside 2 = some twice ∧
        c.history inside 3 = some start ∧ c.history inside 4 = none ∧
        ∃ key, c.history last 3 = some key ∧ start ≤ key := by
  let early : Timestamp := ⟨-60, 0, by decide, by decide, by decide⟩
  let start : Timestamp := ⟨0, 0, by decide, by decide, by decide⟩
  let twice : Timestamp := ⟨60, 0, by decide, by decide, by decide⟩
  let inside : Timestamp := ⟨90, 0, by decide, by decide, by decide⟩
  let last : Timestamp := ⟨120, 0, by decide, by decide, by decide⟩
  let calendar : Array Timestamp := #[start, twice, twice, last]
  have hascending : calendar.toList.Pairwise (· ≤ ·) := by decide
  have hsize : calendar.size = (#[1, 2, 3, 4] : Array Float).size := rfl
  obtain ⟨s, c, hs, hc, hread, hback, hstays, hlater⟩ := lookups_linear hsize hascending "close"
  have hbefore : calendar.toList.filter (· < inside) = [start, twice, twice] := by decide
  have hsteps := hback inside
  rw [hbefore] at hsteps
  have hthird : c.history inside 3 = some start := (hsteps 3 (by decide)).1
  have hearly : s.valueAsOf early = Double.nan := by
    rcases hread early with ⟨i, ⟨⟨entry, hentry, hle⟩, -⟩, -⟩ | ⟨-, hnan⟩
    · have hafter : ∀ entry ∈ calendar, ¬ entry ≤ early := by decide
      exact absurd hle (hafter entry (Array.mem_of_getElem? hentry))
    · exact hnan
  have htwice : s.valueAsOf twice = 3 := by
    rcases hread twice with ⟨i, hi, hvalue⟩ | ⟨hall, -⟩
    · have hgreatest : IsGreatest (Series.indicesUpTo calendar twice) 2 := by
        refine ⟨⟨twice, rfl, by decide⟩, ?_⟩
        rintro j ⟨entry, hentry, hle⟩
        obtain ⟨hj, rfl⟩ := Array.getElem?_eq_some_iff.1 hentry
        have hlast : ∀ j (hj : j < calendar.size), calendar[j] ≤ twice → j ≤ 2 := by decide
        exact hlast j hj hle
      rw [hi.unique hgreatest] at hvalue
      exact (Option.some.inj hvalue).symm
    · exact absurd (hall twice (Array.mem_of_getElem? (i := 1) rfl)) (by decide)
  exact ⟨s, c, early, start, twice, inside, last, hascending, hs, hc, by decide, by decide,
    hearly, htwice, (hstays twice inside (by decide) (by decide)).trans htwice,
    (hsteps 1 (by decide)).1, (hsteps 2 (by decide)).1, hthird,
    (hsteps 4 (by decide)).2.2 (by decide), hlater inside last 3 start (by decide) hthird⟩

end Lookback
