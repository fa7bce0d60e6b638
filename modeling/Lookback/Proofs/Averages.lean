-- SUMMARY: What moments mean: over exact numbers the single pass gives the mean and the variances of the values, in whatever order they come.
import Lookback.Estimator.Moments
import Lookback.Proofs.Exact
import Mathlib.Algebra.BigOperators.Group.List.Lemmas
import Mathlib.Algebra.Order.BigOperators.Group.List
import Mathlib.Data.List.Induction
import Mathlib.Tactic.FieldSimp
import Mathlib.Tactic.Ring

/-!
# Means and variances

The state of the moments is relative to the first value: it holds the mean of the
values less the first one, and a sum of squares that each new value extends by a
product of two deviations, from the mean before it and from the mean after it.

Over exact numbers this state describes the values seen (`Moments.Describes`): the
shifted mean is theirs, and the sum of squares is that of their deviations from it. One
step keeps this (`Moments.Describes.add`), because the squares about any number exceed
those about the mean by a known amount (`sum_squares_about`). The mean and the deviations
of a list know nothing of the order of its values or of a first one.
-/

namespace Lookback

/-! ## Lists of numbers -/

/-- Arithmetic mean; zero for the empty list. -/
def average (xs : List ℚ) : ℚ := xs.sum / xs.length

/-- Sum of the squared deviations from the mean. -/
def squaredDeviations (xs : List ℚ) : ℚ := (xs.map fun x => (x - average xs) ^ 2).sum

theorem length_mul_average (xs : List ℚ) : xs.length * average xs = xs.sum := by
  cases xs with
  | nil => simp
  | cons x xs =>
    rw [average, mul_div_cancel₀]
    exact_mod_cast Nat.succ_ne_zero xs.length

theorem average_map_add {xs : List ℚ} (h : xs ≠ []) (c : ℚ) :
    average (xs.map (· + c)) = average xs + c := by
  have hlength : (xs.length : ℚ) ≠ 0 := by exact_mod_cast mt List.length_eq_zero_iff.1 h
  have hsum : (xs.map (· + c)).sum = xs.sum + xs.length * c := by
    rw [List.sum_map_add, List.map_id', List.map_const', List.sum_replicate, nsmul_eq_mul]
  rw [average, average, hsum, List.length_map]
  field_simp

theorem squaredDeviations_map_add (xs : List ℚ) (c : ℚ) :
    squaredDeviations (xs.map (· + c)) = squaredDeviations xs := by
  rw [squaredDeviations, squaredDeviations, List.map_map]
  refine congrArg List.sum (List.map_congr_left fun x hx => ?_)
  rw [average_map_add (List.ne_nil_of_mem hx)]
  show (x + c - (average xs + c)) ^ 2 = (x - average xs) ^ 2
  rw [add_sub_add_right_eq_sub]

theorem squaredDeviations_nonneg (xs : List ℚ) : 0 ≤ squaredDeviations xs := by
  refine List.sum_nonneg fun d hd => ?_
  obtain ⟨x, -, rfl⟩ := List.mem_map.1 hd
  exact sq_nonneg _

theorem average_perm {xs ys : List ℚ} (h : xs.Perm ys) : average xs = average ys := by
  rw [average, average, h.sum_eq, h.length_eq]

theorem squaredDeviations_perm {xs ys : List ℚ} (h : xs.Perm ys) :
    squaredDeviations xs = squaredDeviations ys := by
  rw [squaredDeviations, squaredDeviations, average_perm h]
  exact (h.map _).sum_eq

/-! ## One more number -/

theorem average_concat (xs : List ℚ) (x : ℚ) :
    average (xs ++ [x]) = average xs + (x - average xs) / (xs.length + 1 : ℕ) := by
  have hlength : ((xs.length + 1 : ℕ) : ℚ) ≠ 0 := by exact_mod_cast Nat.succ_ne_zero xs.length
  rw [average, List.sum_append, List.sum_singleton, List.length_append, List.length_singleton,
    ← length_mul_average, div_eq_iff hlength, add_mul, div_mul_cancel₀ _ hlength, Nat.cast_succ]
  ring

/-- The squares about a number exceed those about the mean by its squared distance from
    the mean, once for each value. -/
theorem sum_squares_about (xs : List ℚ) (a : ℚ) : (xs.map fun x => (x - a) ^ 2).sum =
    squaredDeviations xs + xs.length * (average xs - a) ^ 2 := by
  have hsquares (a : ℚ) : (xs.map fun x => (x - a) ^ 2).sum =
      (xs.map (· ^ 2)).sum - 2 * a * xs.sum + xs.length * a ^ 2 := by
    induction xs with
    | nil => simp
    | cons x xs ih =>
      rw [List.map_cons, List.sum_cons, ih, List.map_cons, List.sum_cons, List.sum_cons,
        List.length_cons, Nat.cast_succ]
      ring
  rw [squaredDeviations, hsquares, hsquares, ← length_mul_average xs]
  ring

/-- A value adds the product of its deviations from the mean without it and with it. -/
theorem squaredDeviations_concat (xs : List ℚ) (x : ℚ) : squaredDeviations (xs ++ [x]) =
    squaredDeviations xs + (x - average xs) * (x - average (xs ++ [x])) := by
  have hlength : ((xs.length + 1 : ℕ) : ℚ) ≠ 0 := by exact_mod_cast Nat.succ_ne_zero xs.length
  rw [squaredDeviations, List.map_append, List.sum_append, sum_squares_about, average_concat,
    List.map_singleton, List.sum_singleton]
  push_cast at hlength ⊢
  field_simp
  ring

/-! ## The single pass -/

namespace Moments

/-- The state describes the values: the first one and the shifted mean add up to their
    mean, and the sum of squares is that of their deviations. -/
structure Describes (m : Moments ℚ) (xs : List ℚ) : Prop where
  count : m.count = xs.length
  fresh : xs = [] → m.center = 0
  center : xs ≠ [] → m.shift + m.center = average xs
  spread : m.spread = squaredDeviations xs

theorem describes_empty : (empty : Moments ℚ).Describes [] := by
  refine ⟨rfl, fun _ => ?_, fun h => absurd rfl h, ?_⟩
  · exact Nat.cast_zero
  · exact Nat.cast_zero

/-- The new deviation is taken from a mean, and then from the one it changes to. -/
theorem add_eq {m : Moments ℚ} {x shift : ℚ} (h : (if m.count = 0 then x else m.shift) = shift) :
    m.add x =
      let delta := x - shift - m.center
      let center := m.center + delta / (m.count + 1 : ℕ)
      ⟨m.count + 1, shift, center, m.spread + delta * (x - shift - center)⟩ := by
  subst h
  rfl

theorem Describes.add {m : Moments ℚ} {xs : List ℚ} (h : m.Describes xs) (x : ℚ) :
    (m.add x).Describes (xs ++ [x]) := by
  have hcount : m.count + 1 = (xs ++ [x]).length := by
    rw [h.count, List.length_append, List.length_singleton]
  have hnonempty : xs ++ [x] ≠ [] := List.append_ne_nil_of_right_ne_nil xs (List.cons_ne_nil x [])
  by_cases hxs : xs = []
  · -- The first value becomes the shift, and all deviations are zero.
    subst hxs
    rw [add_eq (if_pos h.count)]
    have hcenter := h.fresh rfl
    have hspread := h.spread
    refine ⟨hcount, fun h => absurd h hnonempty, fun _ => ?_, ?_⟩
    · simp [hcenter, average]
    · simp [hcenter, hspread, squaredDeviations, average]
  · have hpos : m.count ≠ 0 := by
      rw [h.count]
      exact mt List.length_eq_zero_iff.1 hxs
    have hcenter := h.center hxs
    have hdelta : x - m.shift - m.center = x - average xs := by
      rw [sub_sub, hcenter]
    have hmean : m.shift + (m.center + (x - average xs) / (m.count + 1 : ℕ)) =
        average (xs ++ [x]) := by
      rw [average_concat, ← add_assoc, hcenter, h.count]
    rw [add_eq (if_neg hpos), hdelta]
    refine ⟨hcount, fun h => absurd h hnonempty, fun _ => hmean, ?_⟩
    show m.spread + (x - average xs) * (x - m.shift - (m.center + _)) = _
    rw [sub_sub, hmean, squaredDeviations_concat, h.spread]

theorem describes_ofList (xs : List ℚ) : (ofList xs).Describes xs := by
  induction xs using List.reverseRecOn with
  | nil => exact describes_empty
  | append_singleton xs x ih =>
    rw [ofList, List.foldl_append]
    exact ih.add x

/-! ## What is read off -/

theorem mean_ofList (xs : List ℚ) :
    (ofList xs).mean = if xs.length = 0 then 0 else average xs := by
  have h := describes_ofList xs
  rw [mean, h.count]
  split
  · exact Nat.cast_zero
  · rename_i hlength
    exact h.center (mt List.length_eq_zero_iff.2 hlength)

theorem populationVariance_ofList (xs : List ℚ) : (ofList xs).populationVariance =
    if xs.length = 0 then 0 else squaredDeviations xs / xs.length := by
  have h := describes_ofList xs
  rw [populationVariance, h.count, h.spread]
  exact if_congr Iff.rfl Nat.cast_zero rfl

theorem sampleVariance_ofList (xs : List ℚ) : (ofList xs).sampleVariance =
    if xs.length < 2 then 0 else squaredDeviations xs / (xs.length - 1) := by
  have h := describes_ofList xs
  rw [sampleVariance, h.count, h.spread]
  split
  · exact Nat.cast_zero
  · rename_i hlength
    rw [← Nat.cast_pred (by omega : 0 < xs.length)]
    rfl

theorem populationVariance_nonneg (xs : List ℚ) : 0 ≤ (ofList xs).populationVariance := by
  rw [populationVariance_ofList]
  split
  · exact le_rfl
  · exact div_nonneg (squaredDeviations_nonneg xs) (Nat.cast_nonneg _)

theorem sampleVariance_nonneg (xs : List ℚ) : 0 ≤ (ofList xs).sampleVariance := by
  rw [sampleVariance_ofList]
  split
  · exact le_rfl
  · rename_i hlength
    have hone : (1 : ℚ) ≤ xs.length := by exact_mod_cast (by omega : 1 ≤ xs.length)
    exact div_nonneg (squaredDeviations_nonneg xs) (sub_nonneg.2 hone)

/-- The answers depend on the values and not on their order. -/
theorem ofList_perm {xs ys : List ℚ} (h : ys.Perm xs) : (ofList ys).mean = (ofList xs).mean ∧
    (ofList ys).populationVariance = (ofList xs).populationVariance ∧
    (ofList ys).sampleVariance = (ofList xs).sampleVariance := by
  simp only [mean_ofList, populationVariance_ofList, sampleVariance_ofList, average_perm h,
    squaredDeviations_perm h, h.length_eq, and_self]

theorem mean_map_add {xs : List ℚ} (h : xs ≠ []) (c : ℚ) :
    (ofList (xs.map (· + c))).mean = (ofList xs).mean + c := by
  have hlength : xs.length ≠ 0 := mt List.length_eq_zero_iff.1 h
  rw [mean_ofList, mean_ofList, List.length_map, if_neg hlength, if_neg hlength,
    average_map_add h]

theorem variances_map_add (xs : List ℚ) (c : ℚ) :
    (ofList (xs.map (· + c))).populationVariance = (ofList xs).populationVariance ∧
    (ofList (xs.map (· + c))).sampleVariance = (ofList xs).sampleVariance := by
  simp only [populationVariance_ofList, sampleVariance_ofList, squaredDeviations_map_add,
    List.length_map, and_self]

/-- Over exact numbers the single pass gives the mean of the values, zero if there are
    none, the mean of their squared deviations from it, and the sum of these over one less
    than their number, zero below two values. Neither variance is negative, and the order
    of the values does not matter. A number added to every value is added to the mean, if
    there is a value, and never changes the variances. -/
theorem ofList_exact (xs : List ℚ) :
    ((ofList xs).mean = if xs.length = 0 then 0 else average xs) ∧
    ((ofList xs).populationVariance =
      if xs.length = 0 then 0 else squaredDeviations xs / xs.length) ∧
    ((ofList xs).sampleVariance =
      if xs.length < 2 then 0 else squaredDeviations xs / (xs.length - 1)) ∧
    0 ≤ (ofList xs).populationVariance ∧ 0 ≤ (ofList xs).sampleVariance ∧
    (∀ ys : List ℚ, ys.Perm xs → (ofList ys).mean = (ofList xs).mean ∧
      (ofList ys).populationVariance = (ofList xs).populationVariance ∧
      (ofList ys).sampleVariance = (ofList xs).sampleVariance) ∧
    ∀ c : ℚ, (xs ≠ [] → (ofList (xs.map (· + c))).mean = (ofList xs).mean + c) ∧
      (ofList (xs.map (· + c))).populationVariance = (ofList xs).populationVariance ∧
      (ofList (xs.map (· + c))).sampleVariance = (ofList xs).sampleVariance :=
  ⟨mean_ofList xs, populationVariance_ofList xs, sampleVariance_ofList xs,
    populationVariance_nonneg xs, sampleVariance_nonneg xs, fun _ hperm => ofList_perm hperm,
    fun c => ⟨fun hxs => mean_map_add hxs c, variances_map_add xs c⟩⟩

/-- Three values, in another order and under a large common offset. -/
theorem ofList_exact_offset :
    (ofList [2, 4, 9]).mean = (5 : ℚ) ∧ (ofList [9, 2, 4]).sampleVariance = (13 : ℚ) ∧
    (ofList [2 + 10 ^ 9, 4 + 10 ^ 9, 9 + 10 ^ 9]).mean = (5 + 10 ^ 9 : ℚ) ∧
    (ofList [2 + 10 ^ 9, 4 + 10 ^ 9, 9 + 10 ^ 9]).sampleVariance = (13 : ℚ) := by
  obtain ⟨hmean, -, hvariance, -, -, hperm, hoffset⟩ := ofList_exact [2, 4, 9]
  have hfive : (ofList [2, 4, 9]).mean = (5 : ℚ) := hmean.trans (by decide +kernel)
  have hthirteen : (ofList [2, 4, 9]).sampleVariance = (13 : ℚ) :=
    hvariance.trans (by decide +kernel)
  obtain ⟨-, -, hordered⟩ := hperm [9, 2, 4] (by decide)
  obtain ⟨hshifted, -, hunchanged⟩ := hoffset (10 ^ 9)
  exact ⟨hfive, hordered.trans hthirteen, (hshifted (by simp)).trans (by rw [hfive]),
    hunchanged.trans hthirteen⟩

/-- Without values there is nothing to add to: the mean stays zero. -/
theorem mean_map_add_not :
    (ofList (([] : List ℚ).map (· + 1))).mean ≠ (ofList ([] : List ℚ)).mean + 1 := by
  have hzero : (ofList ([] : List ℚ)).mean = 0 := mean_ofList []
  rw [List.map_nil, hzero]
  norm_num

end Moments

end Lookback
