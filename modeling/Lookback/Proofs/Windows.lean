-- SUMMARY: One window, several scans: the quantifiers and both searches answer from the same set of matching offsets.
import Lookback.Evaluation.History
import Lookback.Proofs.Searches

/-!
# Scans of one window

The scans of a window are loops of their own: two of them stop at the first offset
without a key, one counts such an offset as a failure, and one bisects for the last
offset with a key before it begins. All answers come down to one set, the offsets
of the window at which the condition holds (`Scan.matching`). The searches report
its least and its greatest element. A condition holds somewhere when the set is not
empty, and throughout when the search for a failure comes back with nothing and the
window does not reach past the history.
-/

namespace Lookback

namespace Scan

variable {K ω : Type} {history : History K} {condition : K → Traced ω Bool} {n : Nat}

/-! ## Quantifiers as searches -/

/-- A condition holds somewhere when a search finds it, and both ask alike. -/
theorem holdsSomewhere_eq (hbounded : history.bounded = history)
    (condition : K → Traced ω Bool) (length : Nat) :
    holdsSomewhere history condition length =
      Option.isSome <$> findFrom history condition length 0 := by
  unfold holdsSomewhere findFrom
  rw [hbounded]
  generalize (0 : Nat) = base
  induction length generalizing base with
  | zero => rfl
  | succ length ih =>
    rw [Traced.iterate_succ, Traced.iterate_succ]
    cases history base with
    | none => rfl
    | some key =>
      simp only [bind_assoc, map_bind]
      refine bind_congr fun holds => ?_
      cases holds with
      | true => rfl
      | false => exact ih (base + 1)

/-- The condition that holds where another one fails. -/
def failing (condition : K → Traced ω Bool) : K → Traced ω Bool := fun key =>
  (!·) <$> condition key

/-- A condition holds throughout when a search finds no failure and the window lies
    within the history; both ask alike. -/
theorem holdsThroughout_eq (hn : history.EndsAt n) (hmax : n ≤ History.maxOffset + 1)
    (condition : K → Traced ω Bool) (length : Nat) :
    holdsThroughout history condition length =
      (fun found => decide (0 < length ∧ length ≤ n) && found.isNone) <$>
        findFrom history (failing condition) length 0 := by
  unfold holdsThroughout findFrom
  rw [hn.bounded_eq hmax]
  by_cases hzero : length = 0
  · subst hzero
    rfl
  · have hinside : (0 < length ∧ length ≤ n) ↔ 0 + length ≤ n := by omega
    simp only [if_neg hzero, hinside]
    -- Both loops go on from the same offset, as long as the history reaches it.
    generalize hstart : (0 : Nat) = base
    have hbase : base ≤ n := by omega
    clear hzero hinside hstart
    induction length generalizing base with
    | zero => exact Traced.ext (by simpa using hbase) rfl
    | succ length ih =>
      rw [Traced.iterate_succ, Traced.iterate_succ]
      cases hkey : history base with
      | none =>
        have hend : ¬ base < n := Nat.not_lt.2 (hn.eq_none_iff.1 hkey)
        exact Traced.ext (by simp; omega) rfl
      | some key =>
        have hnext := hn.lt_of_eq_some hkey
        have hfails : failing condition key = (!·) <$> condition key := rfl
        simp only [hfails, bind_assoc, map_bind, bind_map_left]
        refine bind_congr fun holds => ?_
        cases holds with
        | true =>
          rw [show base + (length + 1) = base + 1 + length by omega]
          exact ih (base + 1) hnext
        | false => exact Traced.ext (by simp) rfl

/-! ## Searches as bounds of a set -/

/-- The offsets below `length` at which there is a key and the condition holds. -/
def matching (history : History K) (condition : K → Traced ω Bool) (length : Nat) : Set Nat :=
  {o | o < length ∧ ∃ key, history o = some key ∧ (condition key).value = true}

theorem mem_matching {length o : Nat} :
    o ∈ matching history condition length ↔ o < length ∧ holdsAt history condition o = true := by
  rw [holdsAt_eq_true_iff]
  rfl

/-- No match lies beyond the end of the history. -/
theorem matching_eq (hn : history.EndsAt n) (length : Nat) : matching history condition length =
    {o | o < min length n ∧ holdsAt history condition o = true} := by
  ext o
  rw [mem_matching, Set.mem_ofPred_eq, Nat.lt_min]
  constructor
  · rintro ⟨hlength, hholds⟩
    obtain ⟨key, hkey, -⟩ := holdsAt_eq_true_iff.1 hholds
    exact ⟨⟨hlength, hn.lt_of_eq_some hkey⟩, hholds⟩
  · rintro ⟨⟨hlength, -⟩, hholds⟩
    exact ⟨hlength, hholds⟩

/-- Upwards, the first hit is the least. -/
theorem find?_range'_zero {hits : Nat → Bool} {count offset : Nat} :
    (List.range' 0 count).find? hits = some offset ↔
      IsLeast {o | o < count ∧ hits o = true} offset := by
  rw [List.find?_range'_eq_some, List.mem_range'_1]
  constructor
  · rintro ⟨hhit, ⟨-, hlt⟩, hnone⟩
    refine ⟨⟨by omega, hhit⟩, ?_⟩
    rintro o ⟨-, ho⟩
    by_contra hlt
    have hmiss := hnone o (Nat.zero_le o) (Nat.lt_of_not_le hlt)
    rw [ho] at hmiss
    cases hmiss
  · rintro ⟨⟨hlt, hhit⟩, hleast⟩
    refine ⟨hhit, ⟨Nat.zero_le offset, by omega⟩, ?_⟩
    intro o _ ho
    rw [Bool.not_eq_true']
    by_contra hmatch
    have hle := hleast ⟨Nat.lt_trans ho hlt, by simpa using hmatch⟩
    omega

theorem findFrom_zero_eq (hn : history.EndsAt n) (hmax : n ≤ maxIndex + 1)
    (condition : K → Traced ω Bool) (lookback : Nat) :
    (findFrom history condition lookback 0).value =
      (List.range' 0 (min lookback n)).find? (holdsAt history condition) := by
  rw [findFrom_eq hn (Nat.le_trans hmax (by decide)), search_eq, Nat.sub_zero]

/-- No match is too far back to be reported. -/
theorem lastIndexOf_eq (hn : history.EndsAt n) (hmax : n ≤ maxIndex + 1)
    (condition : K → Traced ω Bool) (lookback : Nat) :
    lastIndexOf history lookback condition = findFrom history condition lookback 0 := by
  refine Traced.ext (bind_reported fun offset hoffset => ?_) (Traced.visits_map _ _)
  rw [findFrom_zero_eq hn hmax, Option.mem_def, find?_range'_zero] at hoffset
  have hlt := hoffset.1.1
  omega

section Answers

variable (hn : history.EndsAt n) (hmax : n ≤ maxIndex + 1) {lookback : Nat}
include hn hmax

theorem lastIndexOf_eq_some_iff {offset : Nat} :
    (lastIndexOf history lookback condition).value = some offset ↔
      IsLeast (matching history condition lookback) offset := by
  rw [lastIndexOf_eq hn hmax, findFrom_zero_eq hn hmax, find?_range'_zero, matching_eq hn]

theorem firstIndexOf_eq_some_iff {offset : Nat} :
    (firstIndexOf history lookback condition).value = some offset ↔
      IsGreatest (matching history condition lookback) offset := by
  rw [firstIndexOf_eq hn hmax, find?_range_reverse, matching_eq hn]

theorem lastIndexOf_eq_none_iff :
    (lastIndexOf history lookback condition).value = none ↔
      matching history condition lookback = ∅ := by
  rw [lastIndexOf_eq hn hmax, findFrom_zero_eq hn hmax, List.find?_eq_none, matching_eq hn,
    Set.eq_empty_iff_forall_notMem]
  simp

theorem firstIndexOf_eq_none_iff :
    (firstIndexOf history lookback condition).value = none ↔
      matching history condition lookback = ∅ := by
  rw [firstIndexOf_eq hn hmax, List.find?_eq_none, matching_eq hn,
    Set.eq_empty_iff_forall_notMem]
  simp

theorem holdsSomewhere_eq_lastIndexOf (condition : K → Traced ω Bool) (length : Nat) :
    holdsSomewhere history condition length =
      Option.isSome <$> lastIndexOf history length condition := by
  rw [lastIndexOf_eq hn hmax]
  exact holdsSomewhere_eq (hn.bounded_eq (Nat.le_trans hmax (by decide))) condition length

theorem holdsThroughout_eq_true_iff {length : Nat} :
    (holdsThroughout history condition length).value = true ↔
      1 ≤ length ∧ (history (length - 1)).isSome = true ∧
        (lastIndexOf history length (failing condition)).value = none := by
  have hreach : 0 < length ∧ length ≤ n ↔ 1 ≤ length ∧ length - 1 < n := by omega
  rw [holdsThroughout_eq hn (Nat.le_trans hmax (by decide)), lastIndexOf_eq hn hmax,
    Traced.value_map, Bool.and_eq_true, decide_eq_true_iff, Option.isNone_iff_eq_none, hreach,
    hn (length - 1), and_assoc]

end Answers

/-- The newest and the oldest match are the same when there is only one. -/
theorem isLeast_eq_isGreatest_iff {offsets : Set Nat} {near far : Nat}
    (hnear : IsLeast offsets near) (hfar : IsGreatest offsets far) :
    near = far ↔ ∃! offset, offset ∈ offsets := by
  constructor
  · rintro rfl
    exact ⟨near, hnear.1, fun offset hmem => Nat.le_antisymm (hfar.2 hmem) (hnear.2 hmem)⟩
  · exact fun hunique => hunique.unique hnear.1 hfar.1

end Scan

/-! ## The operations -/

namespace WindowOp

variable {K : Type} {histories : K → History K} {key : K}

open Lookback.Scan

/-- A quantifier reads its count, then scans the window of that length. -/
theorem toBoolean_quantified (q : Quantifier) (histories : K → History K) (o : Operands K)
    (key : K) : ((quantified q).evaluator histories o).toBoolean key =
      o.double 0 key >>= fun count =>
        q.scan (histories key) (o.boolean 1) (windowLength count) :=
  congrFun (Compiled.coerced_kind (.boolean _)) key

/-- Over one window of a built-in history, the quantifiers and the searches answer from
    the same set of matching offsets. That a condition occurs is that either search finds
    a match; the newest and the oldest match enclose all of them; that it is stable is
    that the window is not empty, lies within the history, and has no failure to be
    found. Whether it occurs is found out by the same questions as the newest match. -/
theorem quantified_iff_indexOf (h : (histories key).BuiltIn) (o : Operands K) :
    let history := histories key
    let condition := o.boolean 1
    let length := windowLength (o.double 0 key).value
    let occurs := ((quantified .somewhere).evaluator histories o).toBoolean key
    let stable := ((quantified .throughout).evaluator histories o).toBoolean key
    let newest := lastIndexOf history length condition
    let oldest := firstIndexOf history length condition
    (occurs.value = true ↔
      ∃ offset < length, ∃ k, history offset = some k ∧ (condition k).value = true) ∧
    (occurs.value = true ↔ newest.value ≠ none) ∧
    (occurs.value = true ↔ oldest.value ≠ none) ∧
    (∀ near far, newest.value = some near → oldest.value = some far →
      near ≤ far ∧
      (∀ offset < length, ∀ k, history offset = some k → (condition k).value = true →
        near ≤ offset ∧ offset ≤ far) ∧
      (near = far ↔ ∃! offset, offset < length ∧
        ∃ k, history offset = some k ∧ (condition k).value = true)) ∧
    (stable.value = true ↔ 1 ≤ length ∧ (history (length - 1)).isSome = true ∧
      (lastIndexOf history length (failing condition)).value = none) ∧
    occurs.visits = (o.double 0 key).visits ++ newest.visits := by
  intro history condition length occurs stable newest oldest
  obtain ⟨n, hmax, hn⟩ := h.exists_endsAt
  have hoccurs : occurs = o.double 0 key >>= fun count =>
      Option.isSome <$> lastIndexOf history (windowLength count) condition :=
    (toBoolean_quantified .somewhere histories o key).trans
      (bind_congr fun _ => holdsSomewhere_eq_lastIndexOf hn hmax condition _)
  have hnewest : occurs.value = true ↔ newest.value ≠ none := by
    rw [hoccurs, Traced.value_bind, Traced.value_map, Option.isSome_iff_ne_none]
  have hfound : newest.value ≠ none ↔ (matching history condition length).Nonempty := by
    rw [Ne, lastIndexOf_eq_none_iff hn hmax, Set.nonempty_iff_ne_empty]
  refine ⟨hnewest.trans hfound, hnewest, ?_, ?_, ?_, ?_⟩
  · rw [hnewest, hfound, Ne, firstIndexOf_eq_none_iff hn hmax, Set.nonempty_iff_ne_empty]
  · intro near far hnear hfar
    rw [lastIndexOf_eq_some_iff hn hmax] at hnear
    rw [firstIndexOf_eq_some_iff hn hmax] at hfar
    refine ⟨hnear.2 hfar.1, fun offset hlt k hk hholds => ?_, isLeast_eq_isGreatest_iff hnear hfar⟩
    have hmem : offset ∈ matching history condition length := ⟨hlt, k, hk, hholds⟩
    exact ⟨hnear.2 hmem, hfar.2 hmem⟩
  · rw [show stable = _ from toBoolean_quantified .throughout histories o key]
    exact holdsThroughout_eq_true_iff hn hmax
  · rw [hoccurs, Traced.visits_bind, Traced.visits_map]

/-- From bar 2 a window of 50 bars reaches past bar 0. A condition that holds at the bars
    2 and 0 occurs in it, is found from both ends, and is not stable. -/
theorem quantified_iff_indexOf_bars :
    let condition (bar : Int) : Traced (Visit Int) Bool := ⟨bar ≠ 1, [⟨"even", bar⟩]⟩
    let o : Operands Int := ⟨[.constant ⟨.double, 50⟩, .boolean condition], fun _ => Double.nan⟩
    (((quantified .somewhere).evaluator Bars.history o).toBoolean 2).value = true ∧
      (lastIndexOf (Bars.history 2) 50 condition).value ≠ none ∧
      (firstIndexOf (Bars.history 2) 50 condition).value ≠ none ∧
      (((quantified .throughout).evaluator Bars.history o).toBoolean 2).value = false := by
  intro condition o
  obtain ⟨hoccurs, hnewest, holdest, -, hstable, -⟩ :=
    quantified_iff_indexOf (.bars (show (2 : Int) ≤ maxIndex by decide)) o
  have hlength : windowLength (o.double 0 2).value = 50 := by decide
  have hcondition : o.boolean 1 = condition := Compiled.coerced_kind (.boolean condition)
  rw [hlength, hcondition] at hoccurs hnewest holdest hstable
  have htrue := hoccurs.2 ⟨2, by decide, 0, rfl, rfl⟩
  refine ⟨htrue, hnewest.1 htrue, holdest.1 htrue, ?_⟩
  rw [Bool.eq_false_iff]
  intro hholds
  obtain ⟨-, hlast, -⟩ := hstable.1 hholds
  cases hlast

end WindowOp

end Lookback
