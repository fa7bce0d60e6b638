-- SUMMARY: Quantiles of exact numbers: ranks within range, values within bounds, growing with the quantile, exact at the ranks.
import Lookback.Proofs.Exact
import Lookback.Proofs.Retention
import Mathlib.Tactic.GCongr

/-!
# Quantiles

A quantile is a position between the ranks of the sorted values, and the answer is
interpolated between the two ranks next to it. Over exact numbers the answer lies
between the values at these ranks (`OrderStatistics.interpolate_mem`). So of two positions
with a rank between them the further one has the larger answer, and any other two are
interpolated between the same ranks.
-/

namespace Lookback

instance : Std.TransCmp (Scalar.order : ℚ → ℚ → Ordering) :=
  inferInstanceAs (Std.TransCmp (compare : ℚ → ℚ → Ordering))

instance : Std.LawfulEqCmp (Scalar.order : ℚ → ℚ → Ordering) :=
  inferInstanceAs (Std.LawfulEqCmp (compare : ℚ → ℚ → Ordering))

namespace OrderStatistics

/-! ## Positions -/

theorem clampQuantile_eq (q : ℚ) : clampQuantile q = max 0 (min q 1) := by
  have hbranches : clampQuantile q = if q < 0 then 0 else if 1 < q then 1 else q := by
    simp only [clampQuantile, Scalar.isNaN, Scalar.below, Scalar.zero, Scalar.one, Scalar.ofNat,
      decide_eq_true_eq, Nat.cast_zero, Nat.cast_one, Bool.false_eq_true, if_false]
  rw [hbranches]
  split
  · rename_i h
    rw [max_eq_left (le_trans (min_le_left q 1) h.le)]
  · rename_i h
    rw [max_eq_right (le_min (not_lt.1 h) zero_le_one)]
    split
    · rename_i h'
      exact (min_eq_right h'.le).symm
    · rename_i h'
      exact (min_eq_left (not_lt.1 h')).symm

/-- Where a quantile lies among the ranks, the smallest value having rank 0. -/
def position (s : OrderStatistics ℚ) (q : ℚ) : ℚ :=
  clampQuantile q * (s.size - 1 : ℕ)

variable {s : OrderStatistics ℚ}

theorem position_nonneg (s : OrderStatistics ℚ) (q : ℚ) : 0 ≤ s.position q := by
  rw [position, clampQuantile_eq]
  exact mul_nonneg (le_max_left 0 _) (Nat.cast_nonneg _)

theorem position_mono (s : OrderStatistics ℚ) : Monotone s.position := by
  intro q q' h
  rw [position, position, clampQuantile_eq, clampQuantile_eq]
  gcongr

/-- No rank that is asked for is past the largest one. -/
theorem ceil_position_lt (h : s.sorted ≠ []) (q : ℚ) : ⌈s.position q⌉₊ < s.sorted.length := by
  have hlength : 0 < s.sorted.length := List.length_pos_iff.2 h
  have hclamped : clampQuantile q ≤ 1 := by
    rw [clampQuantile_eq]
    exact max_le zero_le_one (min_le_right q 1)
  have hposition : s.position q ≤ (s.sorted.length - 1 : ℕ) :=
    mul_le_of_le_one_left (Nat.cast_nonneg _) hclamped
  have hceil := Nat.ceil_le.2 hposition
  omega

/-! ## Interpolation -/

/-- The value at a rank. -/
def atRank (xs : List ℚ) (rank : ℕ) : ℚ := xs[rank]?.getD 0

/-- Linear interpolation between the ranks next to a position. -/
def interpolate (xs : List ℚ) (p : ℚ) : ℚ :=
  atRank xs ⌊p⌋₊ + (atRank xs ⌈p⌉₊ - atRank xs ⌊p⌋₊) * (p - ⌊p⌋₊)

theorem percentile_eq (h : s.sorted ≠ []) (q : ℚ) :
    s.percentile q = interpolate s.sorted (s.position q) := by
  rw [percentile, position, size]
  cases hsorted : s.sorted with
  | nil => exact absurd hsorted h
  | cons x rest =>
    cases rest with
    | nil => simp [interpolate, atRank]
    | cons y rest => rfl

/-- Only what is left of a quantile after clamping matters. -/
theorem percentile_congr_clamped (s : OrderStatistics ℚ) {q q' : ℚ}
    (h : clampQuantile q = clampQuantile q') : s.percentile q = s.percentile q' := by
  rw [percentile, percentile, h]

theorem atRank_eq {xs : List ℚ} {i : ℕ} (h : i < xs.length) : atRank xs i = xs[i] := by
  rw [atRank, List.getElem?_eq_getElem h, Option.getD_some]

theorem getElem?_eq_atRank {xs : List ℚ} {i : ℕ} (h : i < xs.length) :
    xs[i]? = some (atRank xs i) := by
  rw [atRank_eq h, List.getElem?_eq_getElem h]

theorem atRank_mem {xs : List ℚ} {i : ℕ} (h : i < xs.length) : atRank xs i ∈ xs :=
  List.mem_of_getElem? (getElem?_eq_atRank h)

/-- At a rank there is nothing to interpolate. -/
theorem interpolate_natCast (xs : List ℚ) (k : ℕ) : interpolate xs k = atRank xs k := by
  rw [interpolate, Nat.floor_natCast, Nat.ceil_natCast, sub_self, sub_self, mul_zero, add_zero]

section Ascending

variable {xs : List ℚ} (h : Ascending xs)
include h

theorem Ascending.atRank_le {i j : ℕ} (hij : i ≤ j) (hj : j < xs.length) :
    atRank xs i ≤ atRank xs j := by
  rcases Nat.lt_or_eq_of_le hij with hlt | rfl
  · have hle := List.pairwise_iff_getElem.1 h i j (by omega) hj hlt
    rw [atRank_eq hj, atRank_eq (by omega)]
    exact compare_le_iff_le.1 (Ordering.isLE_iff_ne_gt.1 hle)
  · exact le_rfl

/-- What is interpolated lies between the values at the two ranks. -/
theorem Ascending.interpolate_mem {p : ℚ} (hp : 0 ≤ p) (hlast : ⌈p⌉₊ < xs.length) :
    atRank xs ⌊p⌋₊ ≤ interpolate xs p ∧ interpolate xs p ≤ atRank xs ⌈p⌉₊ := by
  have hrise : 0 ≤ atRank xs ⌈p⌉₊ - atRank xs ⌊p⌋₊ :=
    sub_nonneg.2 (h.atRank_le (Nat.floor_le_ceil p) hlast)
  have hfraction : 0 ≤ p - ⌊p⌋₊ := sub_nonneg.2 (Nat.floor_le hp)
  have hone : p - ⌊p⌋₊ ≤ 1 := by
    have := Nat.lt_floor_add_one p
    linarith
  have hshare := mul_le_of_le_one_right hrise hone
  have hnonneg := mul_nonneg hrise hfraction
  rw [interpolate]
  constructor <;> linarith

/-- Further positions have no smaller values. -/
theorem Ascending.interpolate_mono {p p' : ℚ} (hp : 0 ≤ p) (hle : p ≤ p')
    (hlast : ⌈p'⌉₊ < xs.length) : interpolate xs p ≤ interpolate xs p' := by
  have hfloor : ⌊p⌋₊ ≤ ⌊p'⌋₊ := Nat.floor_mono hle
  have hceil : ⌈p⌉₊ ≤ ⌈p'⌉₊ := Nat.ceil_mono hle
  have hwidth : ⌈p'⌉₊ ≤ ⌊p'⌋₊ + 1 := Nat.ceil_le_floor_add_one p'
  have hbetween : ⌊p'⌋₊ ≤ ⌈p'⌉₊ := Nat.floor_le_ceil p'
  rcases Nat.lt_or_ge ⌊p'⌋₊ ⌈p⌉₊ with hlt | hge
  · -- No rank lies between the two, so they share the ranks next to them.
    have hlower : ⌊p⌋₊ = ⌊p'⌋₊ := by
      have := Nat.ceil_le_floor_add_one p
      omega
    have hupper : ⌈p⌉₊ = ⌈p'⌉₊ := by omega
    have hrise : 0 ≤ atRank xs ⌈p'⌉₊ - atRank xs ⌊p'⌋₊ :=
      sub_nonneg.2 (h.atRank_le (Nat.floor_le_ceil p') hlast)
    rw [interpolate, interpolate, hlower, hupper]
    gcongr
  · calc interpolate xs p ≤ atRank xs ⌈p⌉₊ := (h.interpolate_mem hp (by omega)).2
      _ ≤ atRank xs ⌊p'⌋₊ := h.atRank_le hge (by omega)
      _ ≤ interpolate xs p' := (h.interpolate_mem (hp.trans hle) hlast).1

end Ascending

/-! ## Quantiles -/

section Quantiles

variable (hne : s.sorted ≠ [])
include hne

theorem percentile_mono (h : Ascending s.sorted) : Monotone s.percentile := by
  intro q q' hle
  rw [percentile_eq hne, percentile_eq hne]
  exact h.interpolate_mono (s.position_nonneg q) (s.position_mono hle) (ceil_position_lt hne q')

/-- Where the quantile falls on a rank, the answer is the value there. -/
theorem percentile_at_rank {q : ℚ} {k : ℕ} (hq : 0 ≤ q) (hq' : q ≤ 1)
    (hk : q * (s.sorted.length - 1) = k) : s.sorted[k]? = some (s.percentile q) := by
  have hposition : s.position q = k := by
    rw [position, clampQuantile_eq, min_eq_left hq', max_eq_right hq, size, ← hk,
      Nat.cast_pred (List.length_pos_iff.2 hne)]
  have hlast := ceil_position_lt hne q
  rw [hposition, Nat.ceil_natCast] at hlast
  rw [percentile_eq hne, hposition, interpolate_natCast, getElem?_eq_atRank hlast]

end Quantiles

/-- The quantiles of sorted values, over exact numbers. Both ranks of a position have a
    value, and the answer is interpolated between them. It lies between the smallest and
    the largest of the values, grows with the quantile and is constant on both sides of
    `[0, 1]`. Where the quantile falls on a rank, it is the value at this rank. -/
theorem percentile_interpolates (s : OrderStatistics ℚ) (h : Ascending s.sorted)
    (hne : s.sorted ≠ []) :
    (∀ q, ∃ lower upper,
      s.sorted[Scalar.floor (s.position q)]? = some lower ∧
      s.sorted[Scalar.ceil (s.position q)]? = some upper ∧
      s.percentile q = lower + (upper - lower) * (s.position q - Scalar.floor (s.position q))) ∧
    (∃ smallest ∈ s.sorted, ∃ largest ∈ s.sorted,
      (∀ x ∈ s.sorted, smallest ≤ x ∧ x ≤ largest) ∧
      ∀ q, smallest ≤ s.percentile q ∧ s.percentile q ≤ largest) ∧
    (∀ q q', q ≤ q' → s.percentile q ≤ s.percentile q') ∧
    (∀ q, q ≤ 0 → s.percentile q = s.percentile 0) ∧
    (∀ q, 1 ≤ q → s.percentile q = s.percentile 1) ∧
    ∀ (q : ℚ) (k : ℕ), 0 ≤ q → q ≤ 1 → q * (s.sorted.length - 1) = k →
      s.sorted[k]? = some (s.percentile q) := by
  have hlength : 0 < s.sorted.length := List.length_pos_iff.2 hne
  have hlast : s.sorted.length - 1 < s.sorted.length := by omega
  refine ⟨fun q => ?_, ⟨_, atRank_mem hlength, _, atRank_mem hlast, ?_, fun q => ⟨?_, ?_⟩⟩,
    fun q q' hle => percentile_mono hne h hle, fun q hq => ?_, fun q hq => ?_,
    fun q k hq hq' hk => percentile_at_rank hne hq hq' hk⟩
  · have hceil := ceil_position_lt hne q
    have hfloor := lt_of_le_of_lt (Nat.floor_le_ceil (s.position q)) hceil
    exact ⟨_, _, getElem?_eq_atRank hfloor, getElem?_eq_atRank hceil, percentile_eq hne q⟩
  · intro x hx
    obtain ⟨i, hi, hvalue⟩ := List.mem_iff_getElem.1 hx
    obtain rfl : atRank s.sorted i = x := (atRank_eq hi).trans hvalue
    exact ⟨h.atRank_le (Nat.zero_le i) hi, h.atRank_le (by omega) hlast⟩
  · have hceil := ceil_position_lt hne q
    have hfloor := lt_of_le_of_lt (Nat.floor_le_ceil (s.position q)) hceil
    rw [percentile_eq hne]
    exact (h.atRank_le (Nat.zero_le _) hfloor).trans
      (h.interpolate_mem (s.position_nonneg q) hceil).1
  · have hceil := ceil_position_lt hne q
    rw [percentile_eq hne]
    exact (h.interpolate_mem (s.position_nonneg q) hceil).2.trans
      (h.atRank_le (by omega) hlast)
  · refine percentile_congr_clamped s ?_
    rw [clampQuantile_eq, clampQuantile_eq, min_eq_left (hq.trans zero_le_one), max_eq_left hq]
    rfl
  · refine percentile_congr_clamped s ?_
    rw [clampQuantile_eq, clampQuantile_eq, min_eq_right hq, min_self]

/-- Four values with room for four, asked between their ranks, at one of them and below
    the least quantile. -/
theorem percentile_interpolates_four :
    let s : OrderStatistics ℚ := after (some 4) [7, 1, 10, 4]
    Ascending s.sorted ∧ s.sorted ≠ [] ∧ s.percentile (1 / 2) ≤ s.percentile (3 / 4) ∧
      s.sorted[1]? = some (s.percentile (1 / 3)) ∧ s.percentile (-2) = s.percentile 0 := by
  intro s
  have h : Ascending s.sorted := (retains_after (some 4) [7, 1, 10, 4]).ascending
  have hsorted : s.sorted = [1, 4, 7, 10] := by decide +kernel
  have hne : s.sorted ≠ [] := by simp [hsorted]
  obtain ⟨-, -, hmono, hbelow, -, hrank⟩ := percentile_interpolates s h hne
  refine ⟨h, hne, hmono _ _ (by norm_num), ?_, hbelow (-2) (by norm_num)⟩
  exact hrank (1 / 3) 1 (by norm_num) (by norm_num) (by norm_num [hsorted])

end OrderStatistics

end Lookback
