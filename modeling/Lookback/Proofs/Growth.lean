-- SUMMARY: Growing windows: what the quantifiers, searches and chains of a window say about every longer one.
import Lookback.Proofs.Chains
import Lookback.Proofs.HeldSides
import Lookback.Proofs.Windows

/-!
# Growing windows

A longer window has the offsets of a shorter one, and further ones that lie behind them.
So no match is lost (`Scan.matching_mono`), and the new ones are older than the old ones:
the newest match stays, and the oldest one can only move back. What holds throughout the
longer window holds throughout the shorter one, unless that is empty.

The windows of a chain begin where it found something, so those of two chains need not lie
within each other. But matches that are linked stay linked when the lookback grows
(`Scan.Linked.of_le`), so that both chains go along the same list of matches, and the one
with the longer lookback at least as far.
-/

namespace Lookback

namespace Scan

variable {K ω : Type} {history : History K} {condition : K → Traced ω Bool} {n short long o : Nat}

/-! ## Matches -/

theorem matching_mono (h : short ≤ long) :
    matching history condition short ⊆ matching history condition long :=
  fun _ ho => ⟨Nat.lt_of_lt_of_le ho.1 h, ho.2⟩

/-- Matches that a longer window adds lie beyond the shorter one. -/
theorem mem_matching_of_lt (ho : o ∈ matching history condition long) (hlt : o < short) :
    o ∈ matching history condition short :=
  ⟨hlt, ho.2⟩

/-! ## Searches and quantifiers -/

section Answers

variable (hn : history.EndsAt n) (hmax : n ≤ maxIndex + 1) (h : short ≤ long)
include hn hmax h

/-- The newest match of a window is that of every longer one. -/
theorem lastIndexOf_of_le (ho : (lastIndexOf history short condition).value = some o) :
    (lastIndexOf history long condition).value = some o := by
  rw [lastIndexOf_eq_some_iff hn hmax] at ho ⊢
  refine ⟨matching_mono h ho.1, fun o' ho' => ?_⟩
  by_cases hlt : o' < short
  · exact ho.2 (mem_matching_of_lt ho' hlt)
  · exact Nat.le_trans (Nat.le_of_lt ho.1.1) (Nat.le_of_not_lt hlt)

/-- The oldest match of a longer window is no newer. -/
theorem firstIndexOf_of_le (ho : (firstIndexOf history short condition).value = some o) :
    ∃ o', (firstIndexOf history long condition).value = some o' ∧ o ≤ o' := by
  rw [firstIndexOf_eq_some_iff hn hmax] at ho
  have hmem := matching_mono h ho.1
  cases hlong : (firstIndexOf history long condition).value with
  | none =>
    rw [firstIndexOf_eq_none_iff hn hmax] at hlong
    rw [hlong] at hmem
    exact hmem.elim
  | some o' =>
    rw [firstIndexOf_eq_some_iff hn hmax] at hlong
    exact ⟨o', rfl, hlong.2 hmem⟩

theorem holdsSomewhere_of_le (hshort : (holdsSomewhere history condition short).value = true) :
    (holdsSomewhere history condition long).value = true := by
  rw [holdsSomewhere_eq_lastIndexOf hn hmax, Traced.value_map, Option.isSome_iff_exists]
    at hshort ⊢
  obtain ⟨o, ho⟩ := hshort
  exact ⟨o, lastIndexOf_of_le hn hmax h ho⟩

/-- What holds throughout a window holds throughout every shorter one that is not empty. -/
theorem holdsThroughout_of_le (hpos : 1 ≤ short)
    (hlong : (holdsThroughout history condition long).value = true) :
    (holdsThroughout history condition short).value = true := by
  rw [holdsThroughout_eq_true_iff hn hmax, hn] at hlong ⊢
  obtain ⟨-, hlast, hnone⟩ := hlong
  refine ⟨hpos, by omega, ?_⟩
  rw [lastIndexOf_eq_none_iff hn hmax] at hnone ⊢
  exact Set.subset_eq_empty (matching_mono h) hnone

end Answers

/-! ## Chains -/

theorem Linked.of_le {os : List Nat} {j : Nat} (hle : short ≤ long) (h : Linked short os j) :
    Linked long os j :=
  ⟨h.1, fun i hi => Int.le_trans (h.2 i hi) (Int.ofNat_le.2 hle)⟩

/-- Later matches are further back. -/
theorem Matches.exists_nthMatch_le {os : List Nat} (h : Matches history condition os) {j k : Nat}
    (hjk : j ≤ k) (hk : k ≤ os.length) (ho : nthMatch os j = some o) :
    ∃ o', nthMatch os k = some o' ∧ o ≤ o' := by
  match j, k with
  | 0, _ => cases ho
  | j + 1, k + 1 =>
    obtain ⟨hj, rfl⟩ := List.getElem?_eq_some_iff.1 ho
    exact ⟨os[k], List.getElem?_eq_getElem hk, h.le_of_le (Nat.le_of_succ_le_succ hjk) hk⟩

section Chain

variable (hn : history.EndsAt n) (hmax : n ≤ maxIndex + 1)
include hn hmax

/-- A chain answers with the last match that is linked within its steps; a strict one only
    if there is one for each step. -/
theorem Matches.value_chainedIndexOf {os : List Nat} (h : Matches history condition os)
    (lookback steps : Nat) : ∃ j, IsGreatest {j | j ≤ steps ∧ Linked lookback os j} j ∧
      ∀ mode, (chainedIndexOf history lookback steps mode condition).value =
        if mode = .furthest ∨ Linked lookback os steps then nthMatch os j else none := by
  obtain ⟨j, stop, hj, -, -, hchain⟩ := h.chainFrom_eq hn hmax (linked_zero lookback os) steps
  rw [Nat.zero_add] at hj hchain
  exact ⟨j, hj, fun mode => by rw [chainedIndexOf_eq]; exact congrArg Traced.value (hchain mode)⟩

variable (hle : short ≤ long) {steps : Nat}
include hle

/-- A strict chain that found its matches finds the same ones with a longer lookback. -/
theorem chainedIndexOf_strict_of_le
    (ho : (chainedIndexOf history short steps .strict condition).value = some o) :
    (chainedIndexOf history long steps .strict condition).value = some o := by
  obtain ⟨os, hos⟩ := exists_matches hn condition
  obtain ⟨j, hj, hshort⟩ := hos.value_chainedIndexOf hn hmax short steps
  obtain ⟨k, hk, hlong⟩ := hos.value_chainedIndexOf hn hmax long steps
  rw [hshort, Option.ite_none_right_eq_some] at ho
  obtain ⟨hall, ho⟩ := ho
  have hall : Linked short os steps := hall.resolve_left nofun
  have hjsteps : j = steps := Nat.le_antisymm hj.1.1 (hj.2 ⟨Nat.le_refl _, hall⟩)
  have hksteps : k = steps := Nat.le_antisymm hk.1.1 (hk.2 ⟨Nat.le_refl _, hall.of_le hle⟩)
  rw [hlong, if_pos (.inr (hall.of_le hle)), hksteps, ← hjsteps, ho]

/-- A chain gets at least as far with a longer lookback. -/
theorem chainedIndexOf_furthest_of_le
    (ho : (chainedIndexOf history short steps .furthest condition).value = some o) :
    ∃ o', (chainedIndexOf history long steps .furthest condition).value = some o' ∧ o ≤ o' := by
  obtain ⟨os, hos⟩ := exists_matches hn condition
  obtain ⟨j, hj, hshort⟩ := hos.value_chainedIndexOf hn hmax short steps
  obtain ⟨k, hk, hlong⟩ := hos.value_chainedIndexOf hn hmax long steps
  rw [hshort, if_pos (.inl rfl)] at ho
  rw [hlong, if_pos (.inl rfl)]
  have hjk : j ≤ k := hk.2 ⟨hj.1.1, hj.1.2.of_le hle⟩
  exact hos.exists_nthMatch_le hjk hk.1.2.1 ho

end Chain

end Scan

/-! ## The operations -/

namespace HistoryOp

variable {K : Type} (histories : K → History K) (side : Side) (q : Quantifier)
  (count : Evaluator K Float) (c : Comparison (Evaluator K Float)) (key : K)

theorem toBoolean_swept : (sweptEvaluator histories side q count c).toBoolean key =
    q.evaluate (some side) histories count c key := by
  rw [q.sweptEvaluator_eq]
  exact congrFun (Compiled.coerced_kind (.boolean _)) key

/-- A swept quantifier scans its window with the held side at its current value. -/
theorem value_swept : ((sweptEvaluator histories side q count c).toBoolean key).value =
    (q.scan (histories key) (c.holding (c.held side key).value side)
      (Scan.windowLength (count key).value)).value := by
  rw [toBoolean_swept]
  simp only [Quantifier.evaluate, Traced.value_bind]
  split
  · rename_i hlength
    rw [hlength, q.scan_zero]
  · rfl

end HistoryOp

/-- Over a built-in history, what holds somewhere in a window holds somewhere in every longer
    one, and what holds throughout a window holds throughout every shorter one that is not
    empty, for plain quantifiers and for swept ones. The newest match of a window is that of
    every longer one, and the oldest match of a longer window is no newer. A strict chain that
    finds all its matches finds the same ones with a longer lookback, and a chain that may
    end early gets at least as far. -/
theorem History.BuiltIn.window_grows {K : Type} {histories : K → History K} {key : K}
    (h : (histories key).BuiltIn) (omitted : Nat → Float) :
    let length (count : Compiled K) := Scan.windowLength (count.toDouble key).value
    let plain (q : Quantifier) (count condition : Compiled K) :=
      (((WindowOp.quantified q).evaluator histories ⟨[count, condition], omitted⟩).toBoolean
        key).value
    let swept (side : Side) (q : Quantifier) (count : Compiled K)
        (c : Comparison (Evaluator K Float)) :=
      ((HistoryOp.sweptEvaluator histories side q count.toDouble c).toBoolean key).value
    (∀ count count' : Compiled K, length count ≤ length count' →
      (∀ condition, (plain .somewhere count condition = true →
          plain .somewhere count' condition = true) ∧
        (1 ≤ length count → plain .throughout count' condition = true →
          plain .throughout count condition = true)) ∧
      ∀ side c, (swept side .somewhere count c = true → swept side .somewhere count' c = true) ∧
        (1 ≤ length count → swept side .throughout count' c = true →
          swept side .throughout count c = true)) ∧
    ∀ (ω : Type) (condition : K → Traced ω Bool) (short long : Nat), short ≤ long →
      (∀ o, (Scan.lastIndexOf (histories key) short condition).value = some o →
        (Scan.lastIndexOf (histories key) long condition).value = some o) ∧
      (∀ o, (Scan.firstIndexOf (histories key) short condition).value = some o →
        ∃ o', (Scan.firstIndexOf (histories key) long condition).value = some o' ∧ o ≤ o') ∧
      ∀ steps,
        (∀ o, (Scan.chainedIndexOf (histories key) short steps .strict condition).value = some o →
          (Scan.chainedIndexOf (histories key) long steps .strict condition).value = some o) ∧
        ∀ o, (Scan.chainedIndexOf (histories key) short steps .furthest condition).value = some o →
          ∃ o', (Scan.chainedIndexOf (histories key) long steps .furthest condition).value =
            some o' ∧ o ≤ o' := by
  intro length plain swept
  obtain ⟨n, hmax, hn⟩ := h.exists_endsAt
  have hplain (q : Quantifier) (count condition : Compiled K) : plain q count condition =
      (q.scan (histories key) condition.toBoolean (length count)).value := by
    simp only [plain, WindowOp.toBoolean_quantified, Traced.value_bind]
    rfl
  have hswept (side : Side) (q : Quantifier) (count : Compiled K) (c) : swept side q count c =
      (q.scan (histories key) (c.holding (c.held side key).value side) (length count)).value :=
    HistoryOp.value_swept histories side q count.toDouble c key
  refine ⟨fun count count' hle => ⟨fun condition => ?_, fun side c => ?_⟩,
    fun ω condition short long hle =>
      ⟨fun o => ?_, fun o => ?_, fun steps => ⟨fun o => ?_, fun o => ?_⟩⟩⟩
  · simp only [hplain]
    exact ⟨Scan.holdsSomewhere_of_le hn hmax hle, Scan.holdsThroughout_of_le hn hmax hle⟩
  · simp only [hswept]
    exact ⟨Scan.holdsSomewhere_of_le hn hmax hle, Scan.holdsThroughout_of_le hn hmax hle⟩
  · exact Scan.lastIndexOf_of_le hn hmax hle
  · exact Scan.firstIndexOf_of_le hn hmax hle
  · exact Scan.chainedIndexOf_strict_of_le hn hmax hle
  · exact Scan.chainedIndexOf_furthest_of_le hn hmax hle

/-- From bar 20, with matches at the offsets 1, 3 and 4, in windows of two bars and of three. -/
theorem History.BuiltIn.window_grows_bars :
    let condition (bar : Int) : Traced (Visit Int) Bool :=
      ⟨bar = 19 ∨ bar = 17 ∨ bar = 16, [⟨"hit", bar⟩]⟩
    let count (n : Float) : Compiled Int := .constant ⟨.double, n⟩
    (((WindowOp.quantified .somewhere).evaluator Bars.history
        ⟨[count 3, .boolean condition], fun _ => Double.nan⟩).toBoolean 20).value = true ∧
      (Scan.lastIndexOf (Bars.history 20) 3 condition).value = some 1 ∧
      (∃ o, (Scan.firstIndexOf (Bars.history 20) 5 condition).value = some o ∧ 1 ≤ o) ∧
      (Scan.chainedIndexOf (Bars.history 20) 3 2 .strict condition).value = some 3 ∧
      ∃ o, (Scan.chainedIndexOf (Bars.history 20) 3 4 .furthest condition).value = some o ∧
        4 ≤ o := by
  intro condition count
  obtain ⟨hquantified, hscans⟩ :=
    window_grows (.bars (show (20 : Int) ≤ Scan.maxIndex by decide)) fun _ => Double.nan
  obtain ⟨hplain, -⟩ := hquantified (count 2) (count 3) (by decide)
  obtain ⟨hoccurs, -⟩ := hplain (.boolean condition)
  obtain ⟨hlast, -, hchains⟩ := hscans _ condition 2 3 (by decide)
  obtain ⟨-, hfirst, -⟩ := hscans _ condition 2 5 (by decide)
  obtain ⟨hstrict, -⟩ := hchains 2
  obtain ⟨-, hfurthest⟩ := hchains 4
  exact ⟨hoccurs (by decide), hlast 1 rfl, hfirst 1 rfl, hstrict 3 rfl, hfurthest 4 rfl⟩

end Lookback
