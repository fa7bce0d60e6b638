-- SUMMARY: Runs of observations at which a condition holds: each has one start, and the edge detector marks it.
import Lookback.Proofs.CalendarBars
import Lookback.Proofs.Windows

/-!
# Runs and their starts

A condition holds along runs of observations. A run starts where the condition does not
hold one observation earlier, or where there is none earlier. Going back from an
observation at which it holds one comes to a start (`exists_start`), and to one only, as a
second start would lie right behind an observation at which it does not hold
(`StartsAt.le_of_all`).

The scans count offsets back from the key they are asked at. Under bars, and on a calendar
in which every time occurs once, an offset leads to the observation with so much smaller a
number (`History.Numbers`). So the windows of all keys speak of the same numbered
observations.
-/

namespace Lookback

/-! ## Starts -/

section Starts

variable {p : Nat → Prop} {j k b : Nat}

/-- A run starts: the predicate holds at a number, and not right before it. -/
def StartsAt (p : Nat → Prop) (j : Nat) : Prop := p j ∧ ∀ i, j = i + 1 → ¬ p i

theorem exists_start (h : p b) : ∃ j ≤ b, StartsAt p j ∧ ∀ i, j ≤ i → i ≤ b → p i := by
  induction b with
  | zero =>
    refine ⟨0, Nat.le_refl 0, ⟨h, nofun⟩, fun i _ hi => ?_⟩
    rwa [Nat.le_zero.1 hi]
  | succ b ih =>
    by_cases hb : p b
    · obtain ⟨j, hj, hstart, hall⟩ := ih hb
      refine ⟨j, Nat.le_succ_of_le hj, hstart, fun i hji hi => ?_⟩
      rcases Nat.le_succ_iff.1 hi with hle | rfl
      · exact hall i hji hle
      · exact h
    · refine ⟨b + 1, Nat.le_refl _, ⟨h, fun i hi => ?_⟩, fun i hji hi => ?_⟩
      · rwa [← Nat.succ.inj hi]
      · rwa [Nat.le_antisymm hi hji]

/-- Where a predicate holds without a break, a run starts no later than at the first number. -/
theorem StartsAt.le_of_all (hj : StartsAt p j) (hjb : j ≤ b) (hall : ∀ i, k ≤ i → i ≤ b → p i) :
    j ≤ k := by
  by_contra hlt
  obtain ⟨i, rfl⟩ : ∃ i, j = i + 1 := Nat.exists_eq_succ_of_ne_zero (by omega)
  exact hj.2 i rfl (hall i (by omega) (by omega))

/-- A predicate holds at a number when it has done so since exactly one start. -/
theorem holds_iff_existsUnique_start :
    p b ↔ ∃! j, j ≤ b ∧ StartsAt p j ∧ ∀ i, j ≤ i → i ≤ b → p i := by
  constructor
  · intro h
    obtain ⟨j, hj, hstart, hall⟩ := exists_start h
    refine ⟨j, ⟨hj, hstart, hall⟩, ?_⟩
    rintro k ⟨hk, hstart', hall'⟩
    exact Nat.le_antisymm (hstart'.le_of_all hk hall) (hstart.le_of_all hj hall')
  · rintro ⟨j, ⟨hj, -, hall⟩, -⟩
    exact hall b hj (Nat.le_refl b)

end Starts

/-! ## Numbered observations -/

/-- Observations by number, the first one being number 0: stepping back from any of them
    goes through those before it and ends with the first one. -/
def History.Numbers {K : Type} (histories : K → History K) (keyAt : Nat → Option K) : Prop :=
  ∀ b key, keyAt b = some key → ∀ offset,
    histories key offset = if offset ≤ b then keyAt (b - offset) else none

theorem Bars.numbers : History.Numbers history fun b => some (b : Int) := by
  rintro b _ ⟨⟩ offset
  by_cases hoffset : offset ≤ b
  · rw [if_pos hoffset, history_eq_some_iff]
    omega
  · rw [if_neg hoffset, history, if_neg (by omega), if_neg (by omega)]

theorem Calendar.numbers {c : Calendar} (hstrict : c.entries.toList.Pairwise (· < ·)) :
    History.Numbers c.history fun i => c.entries[i]? := by
  intro i time htime offset
  obtain ⟨hi, rfl⟩ := Array.getElem?_eq_some_iff.1 htime
  by_cases hoffset : offset ≤ i
  · rw [if_pos hoffset, history_entry hstrict hi hoffset]
  · rw [if_neg hoffset, history_entry_eq_none hstrict hi (by omega)]

/-! ## Scans -/

namespace Scan

variable {K ω : Type} {history : History K} {condition : K → Traced ω Bool}

theorem value_holdsThroughout (history : History K) (condition : K → Traced ω Bool) (length : Nat) :
    (holdsThroughout history condition length).value =
      (decide (0 < length) && (List.range' 0 length).all (holdsAt history condition)) := by
  unfold holdsThroughout
  split
  · rename_i hzero
    rw [hzero]
    rfl
  · rename_i hzero
    rw [decide_eq_true (Nat.pos_of_ne_zero hzero), Bool.true_and]
    -- The loop goes on from an offset with what is left of the window.
    generalize (0 : Nat) = base
    clear hzero
    induction length generalizing base with
    | zero => rfl
    | succ length ih =>
      rw [Traced.iterate_succ, List.range'_succ, List.all_cons, ← ih, holdsAt]
      cases history base with
      | none => rfl
      | some key =>
        simp only [Traced.value_map, Traced.value_bind, Option.any_some]
        cases (condition key).value <;> rfl

theorem holdsAt_of_eq_some {o : Nat} {key : K} (hkey : history o = some key) :
    holdsAt history condition o = (condition key).value := by
  rw [holdsAt, hkey, Option.any_some]

/-- What holds throughout a window holds at each of its offsets, of which there are some. -/
theorem holdsThroughout_iff_holdsAt {length : Nat} :
    (holdsThroughout history condition length).value = true ↔
      0 < length ∧ ∀ o < length, holdsAt history condition o = true := by
  rw [value_holdsThroughout, Bool.and_eq_true, decide_eq_true_iff, List.all_eq_true]
  simp only [List.mem_range'_1, Nat.zero_le, Nat.zero_add, true_and]

end Scan

namespace History.Numbers

variable {K : Type} {histories : K → History K} {keyAt : Nat → Option K} {b j : Nat} {key : K}
  (h : Numbers histories keyAt)
include h

/-- What a scan finds at an offset is at the observation with so much smaller a number.
    Numbers lead to keys as offsets do, so a condition holds at either in the same sense. -/
theorem holdsAt_eq {ω : Type} (hkey : keyAt b = some key) (condition : K → Traced ω Bool)
    (offset : Nat) : Scan.holdsAt (histories key) condition offset =
      if offset ≤ b then Scan.holdsAt keyAt condition (b - offset) else false := by
  rw [Scan.holdsAt, h b key hkey]
  split <;> rfl

/-- A window that begins at one observation and ends at another. -/
theorem holdsThroughout_iff {ω : Type} (hkey : keyAt b = some key) {condition : K → Traced ω Bool}
    (hj : j ≤ b) : (Scan.holdsThroughout (histories key) condition (b - j + 1)).value = true ↔
      ∀ i, j ≤ i → i ≤ b → Scan.holdsAt keyAt condition i = true := by
  rw [Scan.holdsThroughout_iff_holdsAt, and_iff_right (Nat.succ_pos _)]
  constructor
  · intro hall i hji hib
    have hi := hall (b - i) (by omega)
    rwa [h.holdsAt_eq hkey, if_pos (Nat.sub_le b i), Nat.sub_sub_self hib] at hi
  · intro hall offset hoffset
    rw [h.holdsAt_eq hkey, if_pos (by omega)]
    exact hall (b - offset) (by omega) (Nat.sub_le b offset)

end History.Numbers

/-! ## The edge detector -/

namespace WindowOp

variable {K : Type} {histories : K → History K} {o : Operands K}

/-- The condition holds, and not one observation earlier. -/
theorem value_once (histories : K → History K) (o : Operands K) (key : K) :
    ((once.evaluator histories o).toBoolean key).value =
      ((o.boolean 0 key).value && !Scan.holdsAt (histories key) (o.boolean 0) 1) := by
  refine (congrArg Traced.value (congrFun (Compiled.coerced_kind (.boolean _)) key)).trans ?_
  rw [Scan.holdsAt]
  simp only [Compiled.boolean, Traced.value_bind]
  cases (o.boolean 0 key).value with
  | false => rfl
  | true => cases histories key 1 <;> rfl

theorem once_iff_startsAt {keyAt : Nat → Option K} (h : History.Numbers histories keyAt) {j : Nat}
    {key : K} (hkey : keyAt j = some key) :
    ((once.evaluator histories o).toBoolean key).value = true ↔
      StartsAt (fun i => Scan.holdsAt keyAt (o.boolean 0) i = true) j := by
  rw [value_once, h.holdsAt_eq hkey, ← Scan.holdsAt_of_eq_some hkey, Bool.and_eq_true,
    Bool.not_eq_true', StartsAt]
  refine and_congr_right fun _ => ?_
  cases j with
  | zero => simp
  | succ i => simp

/-- Where the condition holds, it has done so since exactly one start. -/
theorem holds_iff_existsUnique_once {keyAt : Nat → Option K} (h : History.Numbers histories keyAt)
    {b : Nat} {key : K} (hkey : keyAt b = some key) : (o.boolean 0 key).value = true ↔
      ∃! j, j ≤ b ∧
        (∃ k, keyAt j = some k ∧ ((once.evaluator histories o).toBoolean k).value = true) ∧
        (Scan.holdsThroughout (histories key) (o.boolean 0) (b - j + 1)).value = true := by
  rw [← Scan.holdsAt_of_eq_some hkey,
    holds_iff_existsUnique_start (p := fun i => Scan.holdsAt keyAt (o.boolean 0) i = true)]
  refine existsUnique_congr fun j => and_congr_right fun hj => and_congr ?_ ?_
  · constructor
    · intro hstart
      obtain ⟨k, hk, -⟩ := Scan.holdsAt_eq_true_iff.1 hstart.1
      exact ⟨k, hk, (once_iff_startsAt h hk).2 hstart⟩
    · rintro ⟨k, hk, hstart⟩
      exact (once_iff_startsAt h hk).1 hstart
  · exact (h.holdsThroughout_iff hkey hj).symm

end WindowOp

/-! ## Expressions -/

namespace Expr

/-- True where a condition begins to hold. -/
def once (keys : PreviousKeys) (condition : Expr) : Expr :=
  .call (.historical (.window .once) keys) [condition]

/-- True where a condition has held for a number of observations. -/
def stable (keys : PreviousKeys) (count condition : Expr) : Expr :=
  .call (.historical (.window (.quantified .throughout)) keys) [count, condition]

section Compiling

variable {keys : PreviousKeys} {M : KeyModel} {histories : M.Key → History M.Key}
  (hM : keys.history? M = some histories) {condition count : Expr} {c n : Compiled M.Key}
include hM

/-- Where the condition holds, it has done so since exactly one start. -/
theorem exists_compile_once (hc : condition.compile M = .ok c) :
    ∃ start, (once keys condition).compile M = .ok start ∧
      ∀ keyAt, History.Numbers histories keyAt → ∀ b key, keyAt b = some key →
        ((c.toBoolean key).value = true ↔ ∃! j, j ≤ b ∧
          (∃ k, keyAt j = some k ∧ (start.toBoolean k).value = true) ∧
          (Scan.holdsThroughout (histories key) c.toBoolean (b - j + 1)).value = true) := by
  have hgiven : [condition].mapM (compile M) = .ok [c] := Except.mapM_eq_ok.2 (.cons hc .nil)
  refine ⟨_, Function.compile_window_of_serves hM rfl hgiven, fun keyAt h b key hkey => ?_⟩
  exact WindowOp.holds_iff_existsUnique_once (o := ⟨[c], _⟩) h hkey

/-- The window is as long as the count says at the key. -/
theorem exists_compile_stable (hn : count.compile M = .ok n) (hc : condition.compile M = .ok c) :
    ∃ s, (stable keys count condition).compile M = .ok s ∧ ∀ key, (s.toBoolean key).value =
      (Scan.holdsThroughout (histories key) c.toBoolean
        (Scan.windowLength (n.toDouble key).value)).value := by
  have hgiven : [count, condition].mapM (compile M) = .ok [n, c] :=
    Except.mapM_eq_ok.2 (.cons hn (.cons hc .nil))
  refine ⟨_, Function.compile_window_of_serves hM rfl hgiven, fun key => ?_⟩
  rw [WindowOp.toBoolean_quantified]
  rfl

end Compiling

/-- Over bars, and over the entries of a calendar in which every time occurs once, the edge
    detector marks the start of each run of observations at which its condition holds. The
    condition holds at an observation just when there is exactly one marked observation, at
    or before it, such that the condition is stable over the window from the marked one up
    to there. What it is to be stable over a window is what `stable` says, under any context,
    for a count of that length. -/
theorem once_marks_starts (condition : Expr) :
    (∀ c, condition.compile .bar = .ok c → ∃ start,
      (once .bars condition).compile .bar = .ok start ∧
      ∀ b : Nat, (c.toBoolean (b : Int)).value = true ↔
        ∃! j : Nat, j ≤ b ∧ (start.toBoolean (j : Int)).value = true ∧
          (Scan.holdsThroughout (Bars.history b) c.toBoolean (b - j + 1)).value = true) ∧
    (∀ (calendar : Calendar) c, calendar.entries.toList.Pairwise (· < ·) →
      condition.compile .date = .ok c → ∃ start,
      (once (.calendar calendar) condition).compile .date = .ok start ∧
      ∀ i (hi : i < calendar.entries.size), (c.toBoolean calendar.entries[i]).value = true ↔
        ∃! j, ∃ hj : j ≤ i, (start.toBoolean calendar.entries[j]).value = true ∧
          (Scan.holdsThroughout (calendar.history calendar.entries[i]) c.toBoolean
            (i - j + 1)).value = true) ∧
    ∀ (keys : PreviousKeys) (M : KeyModel) (histories : M.Key → History M.Key) (count : Expr)
      (n c : Compiled M.Key), keys.history? M = some histories → count.compile M = .ok n →
      condition.compile M = .ok c → ∃ s, (stable keys count condition).compile M = .ok s ∧
        ∀ key, (s.toBoolean key).value =
          (Scan.holdsThroughout (histories key) c.toBoolean
            (Scan.windowLength (n.toDouble key).value)).value := by
  refine ⟨fun c hc => ?_, fun calendar c hstrict hc => ?_,
    fun keys M histories count n c hM hn hc => exists_compile_stable hM hn hc⟩
  · have hM : PreviousKeys.bars.history? .bar = some Bars.history := rfl
    obtain ⟨start, hstart, hruns⟩ := exists_compile_once hM hc
    refine ⟨start, hstart, fun b => ?_⟩
    rw [hruns _ Bars.numbers b b rfl]
    simp
  · have hM : (PreviousKeys.calendar calendar).history? .date = some calendar.history := rfl
    obtain ⟨start, hstart, hruns⟩ := exists_compile_once hM hc
    refine ⟨start, hstart, fun i hi => ?_⟩
    rw [hruns _ (Calendar.numbers hstrict) i _ (Array.getElem?_eq_getElem hi)]
    refine existsUnique_congr fun j => ?_
    constructor
    · rintro ⟨hj, ⟨k, hk, hmarked⟩, hwindow⟩
      obtain ⟨_, rfl⟩ := Array.getElem?_eq_some_iff.1 hk
      exact ⟨hj, hmarked, hwindow⟩
    · rintro ⟨hj, hmarked, hwindow⟩
      exact ⟨hj, ⟨_, Array.getElem?_eq_getElem (by omega), hmarked⟩, hwindow⟩

/-- Two observations, by bar and by date, the latter of which is a run. -/
theorem once_marks_starts_latter :
    ∃ (x : Series) (calendar : Calendar) (time : Timestamp),
      x.values = #[0, 1] ∧ x.calendar = some calendar.entries ∧
      calendar.entries[1]? = some time ∧
      (∃ c start, compile .bar (.series x) = .ok c ∧
        (once .bars (.series x)).compile .bar = .ok start ∧
        ∃! j : Nat, j ≤ 1 ∧ (start.toBoolean (j : Int)).value = true ∧
          (Scan.holdsThroughout (Bars.history 1) c.toBoolean (1 - j + 1)).value = true) ∧
      (∃ start, (once (.calendar calendar) (.series x)).compile .date = .ok start ∧
        ∃ (j : Nat) (k : Timestamp), calendar.entries[j]? = some k ∧
          (start.toBoolean k).value = true) ∧
      ∃ s, (stable (.calendar calendar) (.literal (.double 2)) (.series x)).compile .date = .ok s ∧
        (s.toBoolean time).value = false := by
  let before : Timestamp := ⟨0, 0, by decide, by decide, by decide⟩
  let time : Timestamp := ⟨60, 0, by decide, by decide, by decide⟩
  let calendar : Calendar := ⟨#[before, time], by decide⟩
  let x : Series := ⟨"x", #[0, 1], some calendar.entries, by simp [calendar]⟩
  obtain ⟨hbars, hentries, hstable⟩ := once_marks_starts (.series x)
  obtain ⟨start, hstart, hruns⟩ := hbars _ rfl
  obtain ⟨start', hstart', hruns'⟩ := hentries calendar _ (by decide) rfl
  obtain ⟨s, hs, hvalue⟩ :=
    hstable (.calendar calendar) .date _ (.literal (.double 2)) _ _ rfl rfl rfl
  obtain ⟨j, ⟨hj, hmarked, -⟩, -⟩ := (hruns' 1 (by decide)).1 (by decide +kernel)
  refine ⟨x, calendar, time, rfl, rfl, rfl, ⟨_, start, rfl, hstart, (hruns 1).1 (by decide)⟩,
    ⟨start', hstart', j, _, Array.getElem?_eq_getElem _, hmarked⟩, s, hs, ?_⟩
  rw [hvalue]
  decide +kernel

end Expr

end Lookback
