-- SUMMARY: The tolerant comparison as an order: it compares roundings, whichever of its branches decides, and selections by it bound their operands.
import Lookback.Proofs.Exact

/-!
# Tolerance

A comparison within a tolerance is seldom transitive: of three numbers, each may be close
to the next and the outer two far apart. Here the numbers that are close are compared
by their roundings to nine decimals, and the tolerance is one unit of the last decimal.
Numbers that are further apart than that are rounded apart (`Exact.round_lt_round`), so
the difference never decides against the roundings. The comparison is that of the
roundings throughout (`Exact.compare_eq`), and all else follows from the order of the
rationals.
-/

namespace Lookback.Exact

/-! ## Roundings -/

/-- The number rounded to nine decimals. What is missing counts as zero. -/
def decimals (x : Option ℚ) : ℚ :=
  round (x.getD 0 * 10 ^ 9) / 10 ^ 9

theorem plainCompare_eq (a b : ℚ) : Scalar.plainCompare a b = compare a b := by
  simp only [Scalar.plainCompare, Scalar.below, decide_eq_true_eq]
  split
  · rename_i h
    exact (compare_lt_iff_lt.2 h).symm
  · split
    · rename_i h
      exact (compare_gt_iff_gt.2 h).symm
    · rename_i h h'
      exact (compare_eq_iff_eq.2 (le_antisymm (not_lt.1 h') (not_lt.1 h))).symm

theorem roundToScale_eq (x : ℚ) : Scalar.roundToScale x = decimals (some x) := by
  show (round (x * (1000000000 : ℕ)) : ℚ) / (1000000000 : ℕ) = _
  norm_num [decimals]

/-- A difference above the tolerance shows in the roundings. -/
theorem decimals_lt_decimals {a b : ℚ} (h : 1 / 10 ^ 9 < b - a) :
    decimals (some a) < decimals (some b) := by
  have hunits : 1 < b * 10 ^ 9 - a * 10 ^ 9 := by linarith
  have hround : (round (a * 10 ^ 9) : ℚ) < round (b * 10 ^ 9) := by
    exact_mod_cast round_lt_round hunits
  exact div_lt_div_of_pos_right hround (by norm_num)

/-! ## Comparison -/

/-- The difference decides as the roundings do, if it decides. -/
theorem compare_some_eq (a b : ℚ) :
    Scalar.compare (some a) (some b) = compare (decimals (some a)) (decimals (some b)) := by
  have hbranches : Scalar.compare a b = if 1 / 10 ^ 9 < |a - b| then
      (if 0 < a - b then .gt else .lt)
    else if a - b = 0 then .eq
    else Scalar.plainCompare (Scalar.roundToScale a) (Scalar.roundToScale b) := by
    simp only [Scalar.compare, Scalar.below, Scalar.tolerance, Scalar.ofDecimal, Scalar.abs,
      Scalar.zero, Scalar.ofNat, Scalar.same, Scalar.nanAsZero, Scalar.isNaN, decide_eq_true_eq,
      beq_iff_eq, Nat.cast_one, Nat.cast_zero, Bool.false_eq_true, if_false]
  rw [Scalar.compare_some, hbranches]
  split
  · rename_i hfar
    split
    · rename_i habove
      rw [abs_of_pos habove] at hfar
      exact (compare_gt_iff_gt.2 (decimals_lt_decimals hfar)).symm
    · rename_i hbelow
      rw [abs_of_nonpos (not_lt.1 hbelow), neg_sub] at hfar
      exact (compare_lt_iff_lt.2 (decimals_lt_decimals hfar)).symm
  · split
    · rename_i hsame
      rw [sub_eq_zero.1 hsame]
      exact (compare_eq_iff_eq.2 rfl).symm
    · rw [roundToScale_eq, roundToScale_eq, plainCompare_eq]

theorem nanAsZero_eq (x : Option ℚ) : Scalar.nanAsZero x = some (x.getD 0) := by
  cases x <;> rfl

/-- Where the difference is missing, the roundings decide. -/
theorem compare_of_sub_eq_none {a b : Option ℚ} (h : a - b = none) :
    Scalar.compare a b = compare (decimals a) (decimals b) := by
  have hrounded : Scalar.compare a b = Scalar.plainCompare
      (Scalar.roundToScale (Scalar.nanAsZero a)) (Scalar.roundToScale (Scalar.nanAsZero b)) := by
    simp only [Scalar.compare, h]
    rfl
  rw [hrounded, nanAsZero_eq, nanAsZero_eq]
  show Scalar.plainCompare (Scalar.roundToScale (a.getD 0)) (Scalar.roundToScale (b.getD 0)) = _
  rw [plainCompare_eq, roundToScale_eq, roundToScale_eq]
  rfl

/-- The tolerant comparison is the comparison of the roundings. -/
theorem compare_eq (a b : Option ℚ) :
    Scalar.compare a b = compare (decimals a) (decimals b) := by
  match a, b with
  | some a, some b => exact compare_some_eq a b
  | none, _ => exact compare_of_sub_eq_none rfl
  | some _, none => exact compare_of_sub_eq_none rfl

theorem apply_equal_iff {a b : Option ℚ} :
    Relation.equal.apply a b = true ↔ decimals a = decimals b := by
  simp only [Relation.apply, Relation.admits, beq_iff_eq, compare_eq, compare_eq_iff_eq]

theorem apply_greater_iff {a b : Option ℚ} :
    Relation.greater.apply a b = true ↔ decimals b < decimals a := by
  simp only [Relation.apply, Relation.admits, beq_iff_eq, compare_eq, compare_gt_iff_gt]

/-! ## Selection -/

/-- When each step selects a present operand that bounds both sides, going through a list
    selects one that bounds them all. -/
theorem exists_foldl_bound {R : ℚ → ℚ → Prop} (refl : ∀ a, R a a)
    (trans : ∀ {a b c}, R a b → R b c → R a c)
    {select : Option ℚ → Option ℚ → Option ℚ}
    (hselect : ∀ a b, ∃ c, select (some a) (some b) = some c ∧ R a c ∧ R b c)
    (x : ℚ) (xs : List ℚ) :
    ∃ z, (xs.map some).foldl select (some x) = some z ∧ ∀ y ∈ x :: xs, R y z := by
  induction xs generalizing x with
  | nil => exact ⟨x, rfl, by simpa using refl x⟩
  | cons y ys ih =>
    obtain ⟨c, hc, hx, hy⟩ := hselect x y
    obtain ⟨z, hz, hbound⟩ := ih c
    have hcz : R c z := hbound c List.mem_cons_self
    refine ⟨z, by rw [List.map_cons, List.foldl_cons, hc, hz], ?_⟩
    intro w hw
    rcases List.mem_cons.1 hw with rfl | hw
    · exact trans hx hcz
    · rcases List.mem_cons.1 hw with rfl | hw
      · exact trans hy hcz
      · exact hbound w (List.mem_cons_of_mem c hw)

theorem larger_some (a b : ℚ) : Scalar.larger (some a) (some b) =
    some (if decimals (some a) < decimals (some b) then b else a) := by
  have hcompare : Scalar.compareMissingLow (some b) (some a) =
      compare (decimals (some b)) (decimals (some a)) := compare_eq (some b) (some a)
  simp only [Scalar.larger, hcompare, compare_gt_iff_gt]
  exact (apply_ite some _ _ _).symm

theorem smaller_some (a b : ℚ) : Scalar.smaller (some a) (some b) =
    some (if decimals (some b) < decimals (some a) then b else a) := by
  have hsmaller : Scalar.smaller (some a) (some b) =
      if Scalar.compare (some b) (some a) = .lt then some b else some a := rfl
  rw [hsmaller, compare_eq, apply_ite some]
  simp only [compare_lt_iff_lt]

/-- No operand is above the largest one selected. -/
theorem exists_foldl_larger (x : ℚ) (xs : List ℚ) :
    ∃ z, (xs.map some).foldl Scalar.larger (some x) = some z ∧
      ∀ y ∈ x :: xs, decimals (some y) ≤ decimals (some z) := by
  refine exists_foldl_bound (R := fun a b => decimals (some a) ≤ decimals (some b))
    (fun a => le_refl _) (fun hab hbc => le_trans hab hbc) (fun a b => ?_) x xs
  refine ⟨_, larger_some a b, ?_⟩
  split
  · rename_i h
    exact ⟨h.le, le_refl _⟩
  · rename_i h
    exact ⟨le_refl _, not_lt.1 h⟩

/-- No operand is below the smallest one selected. -/
theorem exists_foldl_smaller (x : ℚ) (xs : List ℚ) :
    ∃ z, (xs.map some).foldl Scalar.smaller (some x) = some z ∧
      ∀ y ∈ x :: xs, decimals (some z) ≤ decimals (some y) := by
  refine exists_foldl_bound (R := fun a b => decimals (some b) ≤ decimals (some a))
    (fun a => le_refl _) (fun hab hbc => le_trans hbc hab) (fun a b => ?_) x xs
  refine ⟨_, smaller_some a b, ?_⟩
  split
  · rename_i h
    exact ⟨h.le, le_refl _⟩
  · rename_i h
    exact ⟨le_refl _, not_lt.1 h⟩

/-! ## The order -/

/-- The tolerant comparison is that of the roundings, a missing operand counting as zero.
    So it is an order: turning it round reverses it, and equality and being greater are
    transitive. No present operand is greater than the largest one selected from a list of
    them, and none is less than the smallest. -/
theorem compare_orders :
    (∀ a b : Option ℚ, Scalar.compare a b = compare (decimals a) (decimals b)) ∧
    (∀ b : Option ℚ, Scalar.compare none b = Scalar.compare (some 0) b ∧
      Scalar.compare b none = Scalar.compare b (some 0)) ∧
    (∀ a b : Option ℚ, Scalar.compare b a = (Scalar.compare a b).swap) ∧
    (∀ a b c : Option ℚ, Relation.equal.apply a b = true → Relation.equal.apply b c = true →
      Relation.equal.apply a c = true) ∧
    (∀ a b c : Option ℚ, Relation.greater.apply a b = true → Relation.greater.apply b c = true →
      Relation.greater.apply a c = true) ∧
    ∀ (x : ℚ) (xs : List ℚ), ∀ y ∈ x :: xs,
      Scalar.compare (some y) ((xs.map some).foldl Scalar.larger (some x)) ≠ .gt ∧
      Scalar.compare (some y) ((xs.map some).foldl Scalar.smaller (some x)) ≠ .lt := by
  refine ⟨compare_eq, fun b => ?_, fun a b => ?_, fun a b c hab hbc => ?_,
    fun a b c hab hbc => ?_, fun x xs y hy => ⟨?_, ?_⟩⟩
  · simp only [compare_eq]
    exact ⟨rfl, rfl⟩
  · rw [compare_eq, compare_eq]
    exact Std.OrientedCmp.eq_swap
  · rw [apply_equal_iff] at hab hbc ⊢
    exact hab.trans hbc
  · rw [apply_greater_iff] at hab hbc ⊢
    exact hbc.trans hab
  · obtain ⟨z, hz, hbound⟩ := exists_foldl_larger x xs
    rw [hz, compare_eq, compare_le_iff_le]
    exact hbound y hy
  · obtain ⟨z, hz, hbound⟩ := exists_foldl_smaller x xs
    rw [hz, compare_eq, compare_ge_iff_ge]
    exact hbound y hy

/-- Three numbers with one rounding; a missing operand between one and minus one; and the
    larger of a number and one that exceeds it by less than the rounding shows. -/
theorem compare_orders_noise :
    Relation.equal.apply (some (1 - 4 / 10 ^ 10 : ℚ)) (some 1) = true ∧
    Relation.equal.apply (some (1 : ℚ)) (some (1 + 4 / 10 ^ 10)) = true ∧
    Relation.equal.apply (some (1 - 4 / 10 ^ 10 : ℚ)) (some (1 + 4 / 10 ^ 10)) = true ∧
    Relation.greater.apply (some (1 : ℚ)) (some (-1)) = true ∧
    Scalar.compare (some (1 + 4 / 10 ^ 10 : ℚ)) (Scalar.larger (some 1) (some (1 + 4 / 10 ^ 10))) ≠
      .gt := by
  obtain ⟨-, -, -, hequal, hgreater, hselect⟩ := compare_orders
  have hlow : Relation.equal.apply (some (1 - 4 / 10 ^ 10 : ℚ)) (some 1) = true := by
    decide +kernel
  have hhigh : Relation.equal.apply (some (1 : ℚ)) (some (1 + 4 / 10 ^ 10)) = true := by
    decide +kernel
  refine ⟨hlow, hhigh, hequal _ _ _ hlow hhigh, ?_, ?_⟩
  · exact hgreater (some 1) none (some (-1)) (by decide +kernel) (by decide +kernel)
  · exact (hselect 1 [1 + 4 / 10 ^ 10] (1 + 4 / 10 ^ 10) (by simp)).1

end Lookback.Exact
