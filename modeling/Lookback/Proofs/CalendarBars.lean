-- SUMMARY: Bars and the entries of a calendar: an expression has the same value at a bar and at the date of that bar.
import Lookback.Proofs.Histories
import Lookback.Proofs.Simulation

/-!
# Bars and dates

Let every observation be dated by one strictly ascending calendar. Then bar `i` and
entry `i` of the calendar are two names of one observation. Stepping back counts
the entries before a date, of which there are `i`. Reading counts those up to it,
of which there are `i + 1`. So both bisections come out at the bar.
-/

namespace Lookback

/-! ## Entries of a strictly ascending calendar -/

namespace Calendar

variable {c : Calendar}

theorem entries_lt (hstrict : c.entries.toList.Pairwise (· < ·)) {i j : Nat} (hij : i < j)
    (hj : j < c.entries.size) : c.entries[i] < c.entries[j] := by
  have hlt := List.pairwise_iff_getElem.1 hstrict i j (by simp; omega) (by simpa using hj) hij
  simpa using hlt

theorem countBefore_entry (hstrict : c.entries.toList.Pairwise (· < ·)) {i : Nat}
    (hi : i < c.entries.size) : c.countBefore c.entries[i] = i := by
  refine Bisection.partitionPoint_eq (fun j hj => ?_) (Nat.le_of_lt hi)
  rw [Array.getElem?_eq_getElem hj, Option.any_some]
  by_cases hji : j < i
  · rw [decide_eq_true (entries_lt hstrict hji hi), decide_eq_true hji]
  · have hnot : ¬ c.entries[j] < c.entries[i] := Int.not_lt.2 (c.entries_le (by omega) hj)
    rw [decide_eq_false hnot, decide_eq_false hji]

theorem countUpTo_entry (hstrict : c.entries.toList.Pairwise (· < ·)) {i : Nat}
    (hi : i < c.entries.size) : Series.countUpTo c.entries c.entries[i] = i + 1 :=
  countUpTo_of_last hi (Int.le_refl _) fun _ hj hij => entries_lt hstrict hij hj

/-- From an entry, stepping back goes entry by entry to the first one. -/
theorem history_entry (hstrict : c.entries.toList.Pairwise (· < ·)) {i offset : Nat}
    (hi : i < c.entries.size) (hoffset : offset ≤ i) :
    c.history c.entries[i] offset = c.entries[i - offset]? := by
  by_cases hzero : offset = 0
  · subst hzero
    exact (Array.getElem?_eq_getElem hi).symm
  · simp only [history, if_neg hzero, countBefore_entry hstrict hi]
    rw [if_pos hoffset]

theorem history_entry_eq_none (hstrict : c.entries.toList.Pairwise (· < ·)) {i offset : Nat}
    (hi : i < c.entries.size) (hoffset : i < offset) : c.history c.entries[i] offset = none := by
  simp only [history, if_neg (show offset ≠ 0 by omega), countBefore_entry hstrict hi]
  rw [if_neg (by omega)]

/-- A bar and the calendar entry at its index. -/
def IsEntry (c : Calendar) (bar : Int) (time : Timestamp) : Prop :=
  ∃ i, ∃ h : i < c.entries.size, bar = i ∧ time = c.entries[i]

/-- Stepping back from a bar and from its date stays at a bar and its date, and ends
    at the same offset. -/
theorem history_agree (hstrict : c.entries.toList.Pairwise (· < ·)) {bar : Int}
    {time : Timestamp} (h : c.IsEntry bar time) :
    History.Agree (.along c.IsEntry) (Bars.history bar) (c.history time) := by
  obtain ⟨i, hi, rfl, rfl⟩ := h
  intro offset
  by_cases hoffset : offset ≤ i
  · have hbar : Bars.history i offset = some ((i : Int) - offset) :=
      Bars.history_eq_some_iff.2 ⟨rfl, by omega⟩
    rw [hbar, history_entry hstrict hi hoffset, Array.getElem?_eq_getElem (by omega)]
    exact .some ⟨i - offset, by omega, by omega, rfl⟩
  · have hbar : Bars.history i offset = none := by
      rw [Bars.history, if_neg (by omega), if_neg (by omega)]
    rw [hbar, history_entry_eq_none hstrict hi (by omega)]
    exact .none

end Calendar

/-! ## Values -/

/-- The same values, dated by a calendar. -/
def Series.DatedBy (c : Calendar) (s s' : Series) : Prop :=
  s'.values = s.values ∧ s'.calendar = some c.entries

theorem Series.DatedBy.valueAsOf_eq {c : Calendar} {s s' : Series} (h : s.DatedBy c s')
    (hstrict : c.entries.toList.Pairwise (· < ·)) {bar : Int} {time : Timestamp}
    (hentry : c.IsEntry bar time) : s'.valueAsOf time = s.valueAt bar := by
  obtain ⟨hvalues, hcalendar⟩ := h
  obtain ⟨i, hi, rfl, rfl⟩ := hentry
  simp only [valueAsOf, hcalendar, readAsOf, Calendar.countUpTo_entry hstrict hi, hvalues, valueAt]
  rw [if_pos (Int.natCast_nonneg i), Int.toNat_natCast]

/-- An expression over bars and the same expression over a strictly ascending calendar
    both compile, to the same kind, and have the same value at a bar and at its date. -/
theorem Expr.Built.bar_date_agree {e e' : Expr} (he : e.Built) {c : Calendar}
    (hstrict : c.entries.toList.Pairwise (· < ·))
    (h : SameShape (Series.DatedBy c) (fun keys keys' => keys = .bars ∧ keys' = .calendar c) e e') :
    ∃ byBar byDate, e.compile .bar = .ok byBar ∧ e'.compile .date = .ok byDate ∧
      byBar.kind = byDate.kind ∧ ∀ i (hi : i < c.entries.size),
        ∃ v, byBar.valueAt i = pure v ∧ byDate.valueAt c.entries[i] = pure v := by
  have hpair := h.exists_compile .bar .date (R := c.IsEntry) ?_ ?_ he
  · obtain ⟨byBar, byDate, hbar, hdate, hkind, hvalues⟩ := hpair
    exact ⟨byBar, byDate, hbar, hdate, hkind, fun i hi => hvalues _ _ ⟨i, hi, rfl, rfl⟩⟩
  · intro s s' hs
    rw [Series.compile_date (by rw [hs.2]; rfl)]
    exact .ok (Compiled.agree_mk fun hentry => ⟨(hs.valueAsOf_eq hstrict hentry).symm, .nil⟩)
  · rintro _ _ ⟨rfl, rfl⟩
    exact ⟨_, _, rfl, rfl, fun _ _ hentry => Calendar.history_agree hstrict hentry⟩

/-- The value one observation earlier, over two observations. -/
theorem Expr.Built.bar_date_agree_previous :
    ∃ (c : Calendar) (close : Series) (time : Timestamp),
      let earlier (keys : PreviousKeys) : Expr :=
        .call (.historical (.window .previous) keys) [.series close, .literal (.double 1)]
      c.entries[1]? = some time ∧ close.values = #[1.5, 2.5] ∧
        ∃ byBar byDate, (earlier .bars).compile .bar = .ok byBar ∧
          (earlier (.calendar c)).compile .date = .ok byDate ∧
          ∃ v, byBar.valueAt 1 = pure v ∧ byDate.valueAt time = pure v := by
  let start : Timestamp := ⟨0, 0, by decide, by decide, by decide⟩
  let next : Timestamp := ⟨60, 0, by decide, by decide, by decide⟩
  let c : Calendar := ⟨#[start, next], by decide⟩
  let close : Series := ⟨"close", #[1.5, 2.5], some c.entries, by simp [c]⟩
  refine ⟨c, close, next, ?_⟩
  intro earlier
  have he : (earlier .bars).Built :=
    builtOver_call.2 ⟨by simp [BuiltOver.literal, BuiltOver.series], rfl⟩
  have hstrict : c.entries.toList.Pairwise (· < ·) := by decide
  have hshape : SameShape (Series.DatedBy c) (fun keys keys' => keys = .bars ∧ keys' = .calendar c)
      (earlier .bars) (earlier (.calendar c)) :=
    .call_of_forall₂ (.historical _ ⟨rfl, rfl⟩)
      (.cons (.series ⟨rfl, rfl⟩) (.cons (.literal _) .nil))
  obtain ⟨byBar, byDate, hbar, hdate, -, hvalues⟩ := he.bar_date_agree hstrict hshape
  exact ⟨rfl, rfl, byBar, byDate, hbar, hdate, hvalues 1 (by decide)⟩

end Lookback
