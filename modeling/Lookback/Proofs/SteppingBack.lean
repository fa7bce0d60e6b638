-- SUMMARY: Stepping back through a built-in history: it starts at the key, never turns back towards it, and once it ends it stays ended.
import Lookback.Proofs.Histories
import Lookback.Scan
import Mathlib.Data.Nat.Find

/-!
# Stepping back

Scans rely on three properties of a history (`History.StepsBack`). Offset 0 is the
key itself. A larger offset leads to a key that is no later. An offset without a
key is followed by no offset with one. Bars, calendars and intervals have them.

So the offsets with a key are an initial segment, and a bound on offsets bounds its
length (`History.EndsAt`). For the built-in histories the bound is one that a
search can still report.
-/

namespace Lookback

namespace History

variable {K : Type}

/-- The keys seen from `key`, none later than the ones before it, up to where the
    history ends. -/
structure StepsBack [LE K] (key : K) (history : History K) : Prop where
  current : history 0 = some key
  earlier : ∀ {a b k}, a ≤ b → history b = some k → ∃ k', history a = some k' ∧ k ≤ k' ∧ k' ≤ key
  ended : ∀ {a b}, a ≤ b → history a = none → history b = none

/-- An offset with a key shows that the history has not ended before. -/
theorem StepsBack.of_earlier [LE K] {key : K} {history : History K}
    (current : history 0 = some key)
    (earlier : ∀ {a b k}, a ≤ b → history b = some k →
      ∃ k', history a = some k' ∧ k ≤ k' ∧ k' ≤ key) : history.StepsBack key := by
  refine ⟨current, earlier, ?_⟩
  intro a b hab ha
  rw [Option.eq_none_iff_forall_ne_some]
  intro k hb
  obtain ⟨k', hk', -⟩ := earlier hab hb
  rw [ha] at hk'
  cases hk'

end History

/-! ## Bars -/

namespace Bars

theorem stepsBack (bar : Int) : (history bar).StepsBack bar := by
  refine .of_earlier rfl ?_
  intro a b k hab hk
  simp only [history_eq_some_iff] at hk ⊢
  exact ⟨bar - a, ⟨rfl, by omega⟩, by omega, by omega⟩

/-- The history of a bar in 64-bit words: the offset is turned into a bar, and the
    difference of the bars must neither overflow nor be negative. -/
def wordHistory (bar : Int64) : History Int := fun offset =>
  if offset = 0 then
    some bar.toInt
  else if offset ≤ Scan.maxIndex ∧ Int64.minValue.toInt ≤ bar.toInt - offset then
    if 0 ≤ bar.toInt - offset then some (bar.toInt - offset) else none
  else
    none

/-- What words cannot express is no bar anyway. -/
theorem wordHistory_eq (bar : Int64) : wordHistory bar = history bar.toInt := by
  have hmax : bar.toInt ≤ 9223372036854775807 := bar.toInt_le
  have hmin : Int64.minValue.toInt = -9223372036854775808 := Int64.toInt_minValue
  funext offset
  unfold wordHistory history
  split
  · rfl
  · rw [hmin, Scan.maxIndex]
    split
    · rfl
    · rw [if_neg (by omega)]

end Bars

/-! ## Calendars -/

namespace Calendar

theorem stepsBack (c : Calendar) (time : Timestamp) : (c.history time).StepsBack time := by
  refine .of_earlier rfl ?_
  intro a b k hab hk
  have hle := le_of_history hk
  match a, b with
  | 0, _ => exact ⟨time, rfl, hle, Int.le_refl _⟩
  | m + 1, n + 1 =>
    -- The entries before the time ascend, and stepping back goes through them in reverse.
    have hdescending : (c.before time).reverse.Pairwise (· ≥ ·) :=
      List.pairwise_reverse.2 (c.pairwise_entries.filter _)
    rw [history_succ, List.getElem?_eq_some_iff] at hk
    obtain ⟨hn, rfl⟩ := hk
    have hm : m < (c.before time).reverse.length := by omega
    have hk' : c.history time (m + 1) = some (c.before time).reverse[m] := by
      rw [history_succ, List.getElem?_eq_getElem hm]
    refine ⟨_, hk', ?_, le_of_history hk'⟩
    rcases Nat.lt_or_eq_of_le (Nat.le_of_succ_le_succ hab) with hlt | rfl
    · exact List.pairwise_iff_getElem.1 hdescending m n hm hn hlt
    · exact Int.le_refl _

end Calendar

/-! ## Intervals -/

namespace Timestamp

/-- A shorter way back ends in range when a longer one does, and no earlier. -/
theorem exists_beforeNanos? {t y : Timestamp} {near far : Nat} (hle : near ≤ far)
    (h : t.beforeNanos? far = some y) : ∃ x, t.beforeNanos? near = some x ∧ y ≤ x := by
  have hnano := t.nano_lt
  have hfirst := t.first_le
  have hlast := t.le_last
  have hfirst' := y.first_le
  have hnano' := y.nano_lt
  simp only [beforeNanos?_eq_some_iff] at h ⊢
  simp only [le_iff, place]
  by_cases hnear : 1000000000 + near ≤ t.nano
  · refine ⟨⟨t.second, t.nano - near, hfirst, hlast, by omega⟩, .inl ?_, ?_⟩
    · dsimp only
      omega
    · dsimp only
      omega
  · -- The longer way does not stay in a leap second either, so only the count decides.
    let count : Int := t.second * 1000000000 + t.nano - near
    refine ⟨⟨count / 1000000000, (count % 1000000000).toNat, by omega, by omega, by omega⟩,
      .inr ?_, ?_⟩
    · dsimp only
      omega
    · dsimp only
      omega

end Timestamp

namespace Interval

theorem stepsBack (s : Interval) (time : Timestamp) : (s.history time).StepsBack time := by
  refine .of_earlier rfl ?_
  intro a b k hab hk
  have hle := le_of_history hk
  by_cases ha : a = 0
  · subst ha
    exact ⟨time, rfl, hle, Int.le_refl _⟩
  · have hspan : s.nanos * a ≤ s.nanos * b := Nat.mul_le_mul_left _ hab
    simp only [history, if_neg ha]
    simp only [history, if_neg (show b ≠ 0 by omega)] at hk
    split at hk
    · rename_i hsteps
      rw [if_pos (by omega)]
      obtain ⟨k', hk', hkk'⟩ := Timestamp.exists_beforeNanos? hspan hk
      exact ⟨k', hk', hkk', Timestamp.le_of_beforeNanos? hk'⟩
    · cases hk

end Interval

/-- Bars, calendars and intervals keep what a history promises; for bars this covers
    all bars that a word can hold. -/
theorem History.builtIn_stepsBack :
    (∀ bar : Int, (Bars.history bar).StepsBack bar) ∧
      (∀ bar : Int64, (Bars.wordHistory bar).StepsBack bar.toInt) ∧
      (∀ (c : Calendar) (time : Timestamp), (c.history time).StepsBack time) ∧
      ∀ (s : Interval) (time : Timestamp), (s.history time).StepsBack time := by
  refine ⟨Bars.stepsBack, ?_, Calendar.stepsBack, Interval.stepsBack⟩
  intro bar
  rw [Bars.wordHistory_eq]
  exact Bars.stepsBack bar.toInt

/-! ## Where a history ends -/

namespace History

variable {K : Type}

/-- The offsets with a key are those below `n`. -/
def EndsAt (history : History K) (n : Nat) : Prop :=
  ∀ offset, (history offset).isSome = true ↔ offset < n

theorem EndsAt.lt_of_eq_some {history : History K} {n offset : Nat} {key : K}
    (hn : history.EndsAt n) (h : history offset = some key) : offset < n :=
  (hn offset).1 (Option.isSome_iff_exists.2 ⟨key, h⟩)

theorem EndsAt.eq_none_iff {history : History K} {n offset : Nat} (hn : history.EndsAt n) :
    history offset = none ↔ n ≤ offset := by
  rw [← Option.not_isSome_iff_eq_none, hn offset, Nat.not_lt]

/-- A history that ends soon enough has no offset that is too large to ask for. -/
theorem EndsAt.bounded_eq {history : History K} {n : Nat} (hn : history.EndsAt n)
    (hmax : n ≤ maxOffset + 1) : history.bounded = history := by
  funext offset
  unfold bounded
  split
  · rfl
  · exact (hn.eq_none_iff.2 (by omega)).symm

theorem StepsBack.exists_endsAt [LE K] {key : K} {history : History K} {limit : Nat}
    (h : history.StepsBack key) (hlimit : ∀ offset, limit < offset → history offset = none) :
    ∃ n ≤ limit + 1, history.EndsAt n := by
  classical
  have hends : ∃ n, history n = none := ⟨limit + 1, hlimit _ (Nat.lt_succ_self _)⟩
  refine ⟨Nat.find hends, Nat.find_min' hends (hlimit _ (Nat.lt_succ_self _)), ?_⟩
  intro offset
  rw [Option.isSome_iff_ne_none]
  constructor
  · intro hoffset
    by_contra hle
    exact hoffset (h.ended (Nat.le_of_not_lt hle) (Nat.find_spec hends))
  · exact Nat.find_min hends

/-- The histories that the library gives the keys of a context: of bars in the range
    of words, and of calendars no longer than a word can index. -/
inductive BuiltIn : {K : Type} → History K → Prop where
  | bars {bar : Int} : bar ≤ Scan.maxIndex → BuiltIn (Bars.history bar)
  | calendar {c : Calendar} (time : Timestamp) : c.size ≤ Scan.maxIndex → BuiltIn (c.history time)
  | interval (s : Interval) (time : Timestamp) : BuiltIn (s.history time)

/-- A search can report every offset of a built-in history. -/
theorem BuiltIn.exists_endsAt {history : History K} (h : history.BuiltIn) :
    ∃ n ≤ Scan.maxIndex + 1, history.EndsAt n := by
  cases h with
  | @bars bar hbar =>
    refine (Bars.stepsBack bar).exists_endsAt fun offset hoffset => ?_
    rw [Bars.history, if_neg (by omega), if_neg (by omega)]
  | @calendar c time hsize =>
    refine (c.stepsBack time).exists_endsAt fun offset hoffset => ?_
    have hcount := c.countBefore_le time
    simp only [Calendar.history, if_neg (show offset ≠ 0 by omega)]
    rw [if_neg (by omega)]
  | interval s time =>
    refine (s.stepsBack time).exists_endsAt fun offset hoffset => ?_
    have hsteps : Interval.maxSteps < offset := Nat.lt_trans (by decide) hoffset
    simp only [Interval.history, if_neg (show offset ≠ 0 by omega)]
    rw [if_neg (by omega)]

end History

end Lookback
