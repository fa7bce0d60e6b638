-- SUMMARY: What the built-in histories contain: bisections as counts, calendars as the entries before a time, and no key later than its own.
import Lookback.Proofs.Correspondence
import Lookback.Series

/-!
# Histories

A bisection over a predicate that holds on an initial segment counts that segment
(`Bisection.partitionPoint_eq`). On a calendar it counts the entries before a
time, or up to it, and stepping back from a time goes through the entries before
it, latest first (`Calendar.history_succ`). So entries at or after a time have no
influence on what is seen from it.

No history leads to a key later than the one it starts from.
-/

namespace Lookback

/-! ## Bisections -/

namespace Bisection

variable {p : Nat → Bool} {n m : Nat}

/-- Halving keeps the end `m` of the initial segment within the block, or right behind
    it, and the first index of the block inside the segment, unless that is index 0. -/
theorem narrow_spec (hp : ∀ i < n, p i = decide (i < m)) (base size : Nat) (hsize : 0 < size)
    (hn : base + size ≤ n) (hbase : base = 0 ∨ base < m) (hm : m ≤ base + size) :
    narrow p base size < n ∧ (narrow p base size = 0 ∨ narrow p base size < m) ∧
      m ≤ narrow p base size + 1 := by
  induction size using Nat.strongRecOn generalizing base with
  | ind size ih =>
    rw [narrow]
    split
    · omega
    · have hmiddle : base + size / 2 < n := by omega
      dsimp only
      rw [hp _ hmiddle]
      -- The block keeps the half in which the segment ends.
      by_cases hbelow : base + size / 2 < m
      · rw [if_pos (decide_eq_true hbelow)]
        exact ih (size - size / 2) (by omega) _ (by omega) (by omega) (.inr hbelow) (by omega)
      · rw [if_neg (by simpa using hbelow)]
        exact ih (size - size / 2) (by omega) _ (by omega) (by omega) hbase (by omega)

theorem partitionPoint_eq (hp : ∀ i < n, p i = decide (i < m)) (hm : m ≤ n) :
    partitionPoint p n = m := by
  unfold partitionPoint
  split
  · omega
  · obtain ⟨hlast, hbelow, hm'⟩ := narrow_spec hp 0 n (by omega) (by omega) (.inl rfl) (by omega)
    dsimp only
    rw [hp _ hlast]
    by_cases h : narrow p 0 n < m
    · rw [if_pos (decide_eq_true h)]
      omega
    · rw [if_neg (by simpa using h)]
      omega

/-! A predicate whose hits come first in a list. -/

section Prefix

variable {α : Type} {l : List α} {q : α → Bool}

private theorem countP_eq_zero_of_not_head {a : α}
    (h : (a :: l).Pairwise fun a b => q b = true → q a = true) (ha : q a = false) :
    ∀ b ∈ a :: l, ¬ q b = true := by
  intro b hb hq
  rcases List.mem_cons.1 hb with rfl | hb
  · exact absurd hq (by simp [ha])
  · exact absurd ((List.pairwise_cons.1 h).1 b hb hq) (by simp [ha])

theorem any_getElem? (h : l.Pairwise fun a b => q b = true → q a = true) (i : Nat) :
    l[i]?.any q = decide (i < l.countP q) := by
  induction l generalizing i with
  | nil => rfl
  | cons a l ih =>
    cases hq : q a with
    | true =>
      rw [List.countP_cons_of_pos hq]
      cases i with
      | zero => simp [hq]
      | succ i => simpa using ih (List.pairwise_cons.1 h).2 i
    | false =>
      have hnone := countP_eq_zero_of_not_head h hq
      rw [List.countP_eq_zero.2 hnone]
      cases hi : (a :: l)[i]? with
      | none => rfl
      | some b => simpa using hnone b (List.mem_of_getElem? hi)

theorem filter_eq_take (h : l.Pairwise fun a b => q b = true → q a = true) :
    l.filter q = l.take (l.countP q) := by
  induction l with
  | nil => rfl
  | cons a l ih =>
    cases hq : q a with
    | true =>
      rw [List.filter_cons_of_pos hq, List.countP_cons_of_pos hq, List.take_succ_cons,
        ih (List.pairwise_cons.1 h).2]
    | false =>
      have hnone := countP_eq_zero_of_not_head h hq
      rw [List.countP_eq_zero.2 hnone, List.take_zero, List.filter_eq_nil_iff]
      exact hnone

/-- So an index is that of a hit when it lies below their number. -/
theorem exists_getElem?_iff (h : l.Pairwise fun a b => q b = true → q a = true) {i : Nat} :
    (∃ a, l[i]? = some a ∧ q a = true) ↔ i < l.countP q := by
  rw [← Option.any_eq_true, any_getElem? h, decide_eq_true_iff]

/-- Bisecting a list with its hits first counts them. -/
theorem partitionPoint_getElem? (h : l.Pairwise fun a b => q b = true → q a = true) :
    partitionPoint (fun i => l[i]?.any q) l.length = l.countP q :=
  partitionPoint_eq (fun i _ => any_getElem? h i) List.countP_le_length

end Prefix

end Bisection

/-! ## Calendars -/

namespace Calendar

/-- The entries strictly before a time, in order. -/
def before (c : Calendar) (time : Timestamp) : List Timestamp :=
  c.entries.toList.filter (· < time)

theorem entries_le (c : Calendar) {i j : Nat} (hij : i ≤ j) (hj : j < c.entries.size) :
    c.entries[i] ≤ c.entries[j] := by
  induction hij with
  | refl => exact Int.le_refl _
  | @step j _ ih => exact Int.le_trans (ih (by omega)) (c.ascending j (by omega))

theorem pairwise_entries (c : Calendar) : c.entries.toList.Pairwise (· ≤ ·) := by
  rw [List.pairwise_iff_getElem]
  intro i j hi hj hij
  simpa using c.entries_le (Nat.le_of_lt hij) (by simpa using hj)

/-- Entries before a time come first. -/
theorem pairwise_before (c : Calendar) (time : Timestamp) :
    c.entries.toList.Pairwise fun a b => decide (b < time) = true → decide (a < time) = true := by
  refine c.pairwise_entries.imp ?_
  intro a b hab hb
  rw [decide_eq_true_iff] at hb ⊢
  exact Int.lt_of_le_of_lt hab hb

/-- Entries up to a time come first. -/
theorem pairwise_upTo (c : Calendar) (time : Timestamp) :
    c.entries.toList.Pairwise fun a b => decide (b ≤ time) = true → decide (a ≤ time) = true := by
  refine c.pairwise_entries.imp ?_
  intro a b hab hb
  rw [decide_eq_true_iff] at hb ⊢
  exact Int.le_trans hab hb

theorem countUpTo_eq (c : Calendar) (time : Timestamp) :
    Series.countUpTo c.entries time = c.entries.toList.countP (· ≤ time) := by
  rw [← Bisection.partitionPoint_getElem? (c.pairwise_upTo time)]
  simp only [Series.countUpTo, Array.getElem?_toList, Array.length_toList]

theorem countUpTo_eq_zero_iff (c : Calendar) {time : Timestamp} :
    Series.countUpTo c.entries time = 0 ↔ ∀ entry ∈ c.entries, time < entry := by
  rw [countUpTo_eq, List.countP_eq_zero]
  simp only [Array.mem_toList_iff, decide_eq_true_iff, Timestamp.le_iff, Timestamp.lt_iff,
    Int.not_le]

/-- The entries up to a time are those with an index below their number. -/
theorem exists_entry_le_iff (c : Calendar) {time : Timestamp} {i : Nat} :
    (∃ entry, c.entries[i]? = some entry ∧ entry ≤ time) ↔
      i < Series.countUpTo c.entries time := by
  rw [countUpTo_eq, ← Bisection.exists_getElem?_iff (c.pairwise_upTo time)]
  simp only [Array.getElem?_toList, decide_eq_true_iff]

/-- The last entry at or before a time ends the entries up to it. -/
theorem countUpTo_of_last {c : Calendar} {time : Timestamp} {i : Nat} (hi : i < c.entries.size)
    (hle : c.entries[i] ≤ time)
    (hlt : ∀ j (hj : j < c.entries.size), i < j → time < c.entries[j]) :
    Series.countUpTo c.entries time = i + 1 := by
  refine Bisection.partitionPoint_eq (fun j hj => ?_) hi
  rw [Array.getElem?_eq_getElem hj, Option.any_some]
  by_cases hji : j < i + 1
  · have hupTo : c.entries[j] ≤ time := Int.le_trans (c.entries_le (by omega) hi) hle
    rw [decide_eq_true hupTo, decide_eq_true hji]
  · have hnot : ¬ c.entries[j] ≤ time := Int.not_le.2 (hlt j hj (by omega))
    rw [decide_eq_false hnot, decide_eq_false hji]

theorem countBefore_eq (c : Calendar) (time : Timestamp) :
    c.countBefore time = (c.before time).length := by
  rw [before, ← List.countP_eq_length_filter,
    ← Bisection.partitionPoint_getElem? (c.pairwise_before time)]
  simp only [countBefore, Array.getElem?_toList, Array.length_toList]

theorem countBefore_le (c : Calendar) (time : Timestamp) : c.countBefore time ≤ c.size := by
  rw [countBefore_eq]
  exact List.length_filter_le _ _

/-- Stepping back from a time goes through the entries before it, latest first. -/
theorem history_succ (c : Calendar) (time : Timestamp) (n : Nat) :
    c.history time (n + 1) = (c.before time).reverse[n]? := by
  have htake : c.before time = c.entries.toList.take (c.countBefore time) := by
    rw [countBefore_eq, before, ← List.countP_eq_length_filter]
    exact Bisection.filter_eq_take (c.pairwise_before time)
  have hlength := c.countBefore_eq time
  simp only [history, Nat.add_one_ne_zero, if_false]
  split
  · rename_i h
    rw [List.getElem?_reverse (by omega), htake, List.getElem?_take_of_lt, Array.getElem?_toList]
    · congr 1
      rw [← htake]
      omega
    · rw [← htake]
      omega
  · rw [List.getElem?_eq_none]
    rw [List.length_reverse]
    omega

/-- Only the entries before a time have an influence on what is seen from it. -/
theorem history_eq {c c' : Calendar} {time : Timestamp} (h : c.before time = c'.before time) :
    c.history time = c'.history time := by
  funext offset
  cases offset with
  | zero => rfl
  | succ n => rw [history_succ, history_succ, h]

/-- The entries before a time are among those before a later one. -/
theorem before_eq_of_le {c c' : Calendar} {time later : Timestamp} (hle : time ≤ later)
    (h : c.before later = c'.before later) : c.before time = c'.before time := by
  have hrefine : ∀ c : Calendar, c.before time = (c.before later).filter (· < time) := by
    intro c
    rw [before, before, List.filter_filter]
    refine List.filter_congr ?_
    intro entry _
    simp only [Timestamp.lt_iff, Timestamp.le_iff] at hle ⊢
    by_cases hlt : entry.place < time.place
    · rw [decide_eq_true hlt, decide_eq_true (by omega), Bool.true_and]
    · rw [decide_eq_false hlt, Bool.false_and]
  rw [hrefine c, hrefine c', h]

end Calendar

/-! ## Dated series -/

namespace Series

theorem compile_date {s : Series} (h : s.calendar.isSome = true) :
    s.compile .date = .ok (.double fun time => pure (s.valueAsOf time)) := by
  obtain ⟨calendar, hcalendar⟩ := Option.isSome_iff_exists.1 h
  unfold compile valueAsOf
  rw [hcalendar]

end Series

/-! ## No later keys -/

theorem Bars.history_eq_some_iff {bar earlier : Int} {offset : Nat} :
    Bars.history bar offset = some earlier ↔
      earlier = bar - offset ∧ (offset = 0 ∨ 0 ≤ earlier) := by
  unfold Bars.history
  constructor
  · intro h
    split at h
    · cases h
      omega
    · split at h
      · cases h
        omega
      · cases h
  · rintro ⟨rfl, hrange⟩
    split
    · rw [Option.some.injEq]
      omega
    · rw [if_pos (by omega)]

theorem Bars.le_of_history {bar earlier : Int} {offset : Nat}
    (h : Bars.history bar offset = some earlier) : earlier ≤ bar := by
  obtain ⟨rfl, -⟩ := history_eq_some_iff.1 h
  omega

theorem Calendar.le_of_history {c : Calendar} {time earlier : Timestamp} {offset : Nat}
    (h : c.history time offset = some earlier) : earlier ≤ time := by
  cases offset with
  | zero => exact Int.le_of_eq (congrArg Timestamp.place (Option.some.inj h).symm)
  | succ n =>
    rw [history_succ] at h
    have hmem := List.mem_reverse.1 (List.mem_of_getElem? h)
    have hlt := (List.mem_filter.1 hmem).2
    rw [decide_eq_true_iff] at hlt
    exact Int.le_of_lt hlt

namespace Timestamp

theorem ofParts?_eq_some_iff {second : Int} {nano : Nat} {t : Timestamp} :
    ofParts? second nano = some t ↔ t.second = second ∧ t.nano = nano := by
  unfold ofParts?
  constructor
  · intro h
    split at h
    · cases h
      exact ⟨rfl, rfl⟩
    · cases h
  · rintro ⟨rfl, rfl⟩
    rw [dif_pos ⟨⟨t.first_le, t.le_last⟩, t.nano_lt⟩]

/-- Where a shift back ends: in the leap second it started in, or at so many fewer
    nanoseconds since 1970, leap seconds not counted. -/
theorem beforeNanos?_eq_some_iff {t y : Timestamp} {nanos : Nat} :
    t.beforeNanos? nanos = some y ↔
      (1000000000 + nanos ≤ t.nano ∧ y.second = t.second ∧ y.nano + nanos = t.nano) ∨
      (t.nano < 1000000000 + nanos ∧ y.nano < 1000000000 ∧
        y.second * 1000000000 + y.nano + nanos = t.second * 1000000000 + t.nano) := by
  have hnano := t.nano_lt
  have hstays : (t.isLeap = true ∧ nanosPerSecond ≤ t.nano - (nanos : Int)) ↔
      1000000000 + nanos ≤ t.nano := by
    rw [isLeap, decide_eq_true_iff]
    simp only [nanosPerSecond]
    omega
  unfold beforeNanos?
  dsimp only
  by_cases h : 1000000000 + nanos ≤ t.nano
  · rw [if_pos (hstays.2 h), if_pos (by simp only [nanosPerSecond]; omega), ofParts?_eq_some_iff]
    omega
  · rw [if_neg (mt hstays.1 h), ofNanos?, ofParts?_eq_some_iff]
    simp only [nanosPerSecond]
    omega

/-- Going back in time does not lead to a later time, leap seconds included. -/
theorem le_of_beforeNanos? {t earlier : Timestamp} {nanos : Nat}
    (h : t.beforeNanos? nanos = some earlier) : earlier ≤ t := by
  have hnano := t.nano_lt
  rw [beforeNanos?_eq_some_iff] at h
  simp only [le_iff, place]
  omega

end Timestamp

theorem Interval.le_of_history {s : Interval} {time earlier : Timestamp} {offset : Nat}
    (h : s.history time offset = some earlier) : earlier ≤ time := by
  unfold Interval.history at h
  split at h
  · exact Int.le_of_eq (congrArg Timestamp.place (Option.some.inj h).symm)
  · split at h
    · exact Timestamp.le_of_beforeNanos? h
    · cases h

/-- A history agrees with itself along what all its keys satisfy. -/
theorem History.agree_self {K : Type} {P : K → Prop} {h : History K}
    (hP : ∀ offset key, h offset = some key → P key) :
    History.Agree (.along fun k k' => k = k' ∧ P k) h h := by
  intro offset
  cases hkey : h offset with
  | none => exact .none
  | some key => exact .some ⟨rfl, hP offset key hkey⟩

end Lookback
