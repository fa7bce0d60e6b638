-- SUMMARY: No look-ahead: the value at a key is determined by the observations up to that key and the calendar entries before it.
import Lookback.Proofs.Histories
import Lookback.Proofs.Simulation

/-!
# No look-ahead

Take the same expression over two sets of series and contexts. If they cannot be
told apart up to a key, the expression has the same value at the key in both.
The relation that carries this through all functions is equality of keys, with
the bound that neither is later than the key in question: no history leaves it
(`History.agree_self`), and series and calendars cannot be told apart within it.

Observations that arrive later are a special case.
-/

namespace Lookback

/-- Both expressions compile for the key model and have the same value at the key. -/
def Expr.SameValueAt (M : KeyModel) (key : M.Key) (e e' : Expr) : Prop :=
  ∃ c c', e.compile M = .ok c ∧ e'.compile M = .ok c' ∧
    ∃ v, c.valueAt key = pure v ∧ c'.valueAt key = pure v

/-! ## Environments that agree up to a key -/

namespace Series

/-- The same values at all bars up to `bar`. -/
def SameUpToBar (bar : Int) (s s' : Series) : Prop :=
  ∀ b ≤ bar, s.valueAt b = s'.valueAt b

/-- Both dated, with the same values as of all times up to `time`. -/
def SameUpTo (time : Timestamp) (s s' : Series) : Prop :=
  s.calendar.isSome ∧ s'.calendar.isSome ∧ ∀ t ≤ time, s.valueAsOf t = s'.valueAsOf t

end Series

namespace PreviousKeys

/-- Both step through bars. -/
def BothBars (keys keys' : PreviousKeys) : Prop := keys = .bars ∧ keys' = .bars

/-- Calendars with the same entries before `time`, or one and the same interval. -/
inductive SameBefore (time : Timestamp) : PreviousKeys → PreviousKeys → Prop where
  | calendar {c c' : Calendar} : c.before time = c'.before time →
      SameBefore time (.calendar c) (.calendar c')
  | interval (s) : SameBefore time (.interval s) (.interval s)

end PreviousKeys

/-! ## Later observations -/

/-- More entries, all after `time`. -/
def Calendar.ExtendedAfter (time : Timestamp) (c c' : Calendar) : Prop :=
  ∃ later, c'.entries = c.entries ++ later ∧ ∀ t ∈ later, time < t

theorem Calendar.ExtendedAfter.before_eq {time : Timestamp} {c c' : Calendar}
    (h : ExtendedAfter time c c') : c.before time = c'.before time := by
  obtain ⟨later, hentries, hlater⟩ := h
  have hnone : later.toList.filter (· < time) = [] := by
    rw [List.filter_eq_nil_iff]
    intro t ht
    have hlt := hlater t (Array.mem_toList_iff.1 ht)
    rw [decide_eq_true_iff]
    exact Int.not_lt.2 (Int.le_of_lt hlt)
  rw [before, before, hentries, Array.toList_append, List.filter_append, hnone, List.append_nil]

theorem Calendar.ExtendedAfter.countUpTo_eq {time t : Timestamp} {c c' : Calendar}
    (h : ExtendedAfter time c c') (ht : t ≤ time) :
    Series.countUpTo c'.entries t = Series.countUpTo c.entries t := by
  obtain ⟨later, hentries, hlater⟩ := h
  have hnone : later.toList.countP (· ≤ t) = 0 := by
    rw [List.countP_eq_zero]
    intro entry hentry
    have hlt := hlater entry (Array.mem_toList_iff.1 hentry)
    rw [decide_eq_true_iff]
    exact Int.not_le.2 (Int.lt_of_le_of_lt ht hlt)
  rw [Calendar.countUpTo_eq, Calendar.countUpTo_eq, hentries, Array.toList_append,
    List.countP_append, hnone, Nat.add_zero]

namespace Series

/-- More values, all at bars after `bar`. -/
def ExtendedAfterBar (bar : Int) (s s' : Series) : Prop :=
  ∃ later, s'.values = s.values ++ later ∧ (later = #[] ∨ bar < s.size)

/-- More values, all observed after `time`. -/
def ExtendedAfter (time : Timestamp) (s s' : Series) : Prop :=
  ∃ c c' : Calendar, s.calendar = some c.entries ∧ s'.calendar = some c'.entries ∧
    c.ExtendedAfter time c' ∧ ∃ later, s'.values = s.values ++ later

theorem ExtendedAfterBar.sameUpToBar {bar : Int} {s s' : Series} (h : ExtendedAfterBar bar s s') :
    SameUpToBar bar s s' := by
  obtain ⟨later, hvalues, hlater⟩ := h
  intro b hb
  unfold valueAt
  split
  · rcases hlater with rfl | hsize
    · rw [hvalues, Array.append_empty]
    · rw [size] at hsize
      rw [hvalues, Array.getElem?_append_left (by omega)]
  · rfl

theorem ExtendedAfter.sameUpTo {time : Timestamp} {s s' : Series} (h : ExtendedAfter time s s') :
    SameUpTo time s s' := by
  obtain ⟨c, c', hc, hc', hextended, later, hvalues⟩ := h
  refine ⟨by rw [hc]; rfl, by rw [hc']; rfl, ?_⟩
  intro t ht
  have hcount := hextended.countUpTo_eq ht
  have hsize : countUpTo c.entries t ≤ s.values.size := by
    rw [Calendar.countUpTo_eq, ← s.calendar_size c.entries hc, ← Array.length_toList]
    exact List.countP_le_length
  simp only [valueAsOf, hc, hc', readAsOf, hcount]
  generalize countUpTo c.entries t = count at hsize
  cases count with
  | zero => rfl
  | succ n =>
    dsimp only
    rw [hvalues, Array.getElem?_append_left (by omega)]

end Series

/-- Calendars with more entries, all after `time`, or one and the same interval. -/
inductive PreviousKeys.ExtendedAfter (time : Timestamp) : PreviousKeys → PreviousKeys → Prop where
  | calendar {c c' : Calendar} : c.ExtendedAfter time c' →
      ExtendedAfter time (.calendar c) (.calendar c')
  | interval (s) : ExtendedAfter time (.interval s) (.interval s)

theorem PreviousKeys.ExtendedAfter.sameBefore {time : Timestamp} {keys keys' : PreviousKeys}
    (h : ExtendedAfter time keys keys') : SameBefore time keys keys' := by
  cases h with
  | calendar hc => exact .calendar hc.before_eq
  | interval s => exact .interval s

/-! ## Values -/

section Values

variable {e e' : Expr}

theorem Expr.SameShape.sameValueAt_bar {bar : Int} (he : e.Built)
    (h : SameShape (Series.SameUpToBar bar) PreviousKeys.BothBars e e') :
    SameValueAt .bar bar e e' := by
  have hpair := h.exists_compile .bar .bar
    (R := fun b b' => b = b' ∧ b ≤ bar) ?_ ?_ he
  · obtain ⟨c, c', hc, hc', -, hvalues⟩ := hpair
    exact ⟨c, c', hc, hc', hvalues bar bar ⟨rfl, Int.le_refl _⟩⟩
  · intro s s' hs
    -- Evaluators agree as long as they are only asked at bars up to `bar`.
    refine .ok (Compiled.agree_mk ?_)
    rintro b _ ⟨rfl, hb⟩
    exact ⟨hs b hb, .nil⟩
  · rintro _ _ ⟨rfl, rfl⟩
    refine ⟨_, _, rfl, rfl, ?_⟩
    rintro b _ ⟨rfl, hb⟩
    exact History.agree_self fun _ _ hearlier => Int.le_trans (Bars.le_of_history hearlier) hb

theorem Expr.SameShape.sameValueAt_date {time : Timestamp} (he : e.Built)
    (h : SameShape (Series.SameUpTo time) (PreviousKeys.SameBefore time) e e') :
    SameValueAt .date time e e' := by
  have hpair := h.exists_compile .date .date
    (R := fun t t' => t = t' ∧ t ≤ time) ?_ ?_ he
  · obtain ⟨c, c', hc, hc', -, hvalues⟩ := hpair
    exact ⟨c, c', hc, hc', hvalues time time ⟨rfl, Int.le_refl _⟩⟩
  · rintro s s' ⟨hdated, hdated', hs⟩
    rw [Series.compile_date hdated, Series.compile_date hdated']
    refine .ok (Compiled.agree_mk ?_)
    rintro t _ ⟨rfl, ht⟩
    exact ⟨hs t ht, .nil⟩
  · rintro _ _ (hbefore | s)
    · refine ⟨_, _, rfl, rfl, ?_⟩
      rintro t _ ⟨rfl, ht⟩
      rw [Calendar.history_eq (Calendar.before_eq_of_le ht hbefore)]
      exact History.agree_self fun _ _ hearlier => Int.le_trans (Calendar.le_of_history hearlier) ht
    · refine ⟨_, _, rfl, rfl, ?_⟩
      rintro t _ ⟨rfl, ht⟩
      exact History.agree_self fun _ _ hearlier => Int.le_trans (Interval.le_of_history hearlier) ht

/-- No look-ahead, by bars and by dates; in particular, observations that arrive after
    a key change nothing at the key. -/
theorem Expr.Built.no_look_ahead (he : e.Built) :
    (∀ bar, SameShape (Series.SameUpToBar bar) PreviousKeys.BothBars e e' →
      SameValueAt .bar bar e e') ∧
    (∀ time, SameShape (Series.SameUpTo time) (PreviousKeys.SameBefore time) e e' →
      SameValueAt .date time e e') ∧
    (∀ bar, SameShape (Series.ExtendedAfterBar bar) PreviousKeys.BothBars e e' →
      SameValueAt .bar bar e e') ∧
    ∀ time, SameShape (Series.ExtendedAfter time) (PreviousKeys.ExtendedAfter time) e e' →
      SameValueAt .date time e e' := by
  refine ⟨?_, ?_, ?_, ?_⟩
  · intro bar h
    exact h.sameValueAt_bar he
  · intro time h
    exact h.sameValueAt_date he
  · intro bar h
    have hsame : SameShape (Series.SameUpToBar bar) PreviousKeys.BothBars e e' :=
      h.mono (fun _ _ hs => hs.sameUpToBar) fun _ _ hkeys => hkeys
    exact hsame.sameValueAt_bar he
  · intro time h
    have hsame : SameShape (Series.SameUpTo time) (PreviousKeys.SameBefore time) e e' :=
      h.mono (fun _ _ hs => hs.sameUpTo) fun _ _ hkeys => hkeys.sameBefore
    exact hsame.sameValueAt_date he

/-- The average of two observations, before and after a third one arrives. -/
theorem Expr.Built.no_look_ahead_average :
    ∃ (c c' : Calendar) (close close' : Series) (time : Timestamp),
      let average (keys : PreviousKeys) (s : Series) : Expr :=
        .call (.historical (.window (.statistic .average)) keys) [.literal (.double 2), .series s]
      c.size = 2 ∧ c'.size = 3 ∧ close.values = #[1.5, 2.5] ∧ close'.values = #[1.5, 2.5, 9.5] ∧
        SameValueAt .bar 1 (average .bars close) (average .bars close') ∧
        SameValueAt .date time (average (.calendar c) close) (average (.calendar c') close') := by
  let start : Timestamp := ⟨0, 0, by decide, by decide, by decide⟩
  let next : Timestamp := ⟨60, 0, by decide, by decide, by decide⟩
  let later : Timestamp := ⟨120, 0, by decide, by decide, by decide⟩
  let c : Calendar := ⟨#[start, next], by decide⟩
  let c' : Calendar := ⟨#[start, next, later], by decide⟩
  let close : Series := ⟨"close", #[1.5, 2.5], some c.entries, by simp [c]⟩
  let close' : Series := ⟨"close", #[1.5, 2.5, 9.5], some c'.entries, by simp [c']⟩
  refine ⟨c, c', close, close', next, ?_⟩
  intro average
  have he (keys : PreviousKeys) : (average keys close).Built :=
    builtOver_call.2 ⟨by simp [BuiltOver.literal, BuiltOver.series], rfl⟩
  have hlater : c.ExtendedAfter next c' := ⟨#[later], rfl, by decide⟩
  refine ⟨rfl, rfl, rfl, rfl, (he .bars).no_look_ahead.2.2.1 1 ?_,
    (he (.calendar c)).no_look_ahead.2.2.2 next ?_⟩
  · exact .call_of_forall₂ (.historical _ ⟨rfl, rfl⟩)
      (.cons (.literal _) (.cons (.series ⟨#[9.5], rfl, .inr (by decide)⟩) .nil))
  · exact .call_of_forall₂ (.historical _ (.calendar hlater))
      (.cons (.literal _) (.cons (.series ⟨c, c', rfl, rfl, hlater, #[9.5], rfl⟩) .nil))

end Values

end Lookback
