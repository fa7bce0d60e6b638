-- SUMMARY: Exact numbers as scalars: the rationals, and any scalars together with a missing value.
import Lookback.Comparison
import Mathlib.Data.Rat.Floor
import Mathlib.Tactic.Linarith

/-!
# Exact scalars

Over the rationals, estimators and comparisons compute without rounding, and without
infinities: what they are meant to compute can be stated as equations. None of them
divides by zero there, since they divide by numbers of values and by `unitsPerWhole`.

No rational is missing. `Option` adds to any scalars one value that is: arithmetic on it
gives it back, it equals nothing and is on neither side of anything.
-/

namespace Lookback

/-! ## Rationals -/

namespace Exact

/-- Nearest integer, a half going away from zero. -/
def round (x : ℚ) : ℤ :=
  if x < 0 then -⌊-x + 1 / 2⌋ else ⌊x + 1 / 2⌋

example : round (5 / 2) = 3 ∧ round (-5 / 2) = -3 := by decide +kernel

theorem abs_round_sub_le (x : ℚ) : |(round x : ℚ) - x| ≤ 1 / 2 := by
  unfold round
  split
  · have hle := Int.floor_le (-x + 1 / 2)
    have hlt := Int.lt_floor_add_one (-x + 1 / 2)
    rw [abs_le]
    push_cast
    constructor <;> linarith
  · have hle := Int.floor_le (x + 1 / 2)
    have hlt := Int.lt_floor_add_one (x + 1 / 2)
    rw [abs_le]
    constructor <;> linarith

/-- Numbers more than one apart are rounded to different integers. -/
theorem round_lt_round {x y : ℚ} (h : 1 < y - x) : round x < round y := by
  have hx := abs_le.1 (abs_round_sub_le x)
  have hy := abs_le.1 (abs_round_sub_le y)
  have hlt : (round x : ℚ) < round y := by linarith
  exact_mod_cast hlt

end Exact

instance Exact.scalar : Scalar ℚ where
  ofNat n := n
  ofDecimal m e := m / 10 ^ e
  abs x := |x|
  round x := Exact.round x
  floor x := ⌊x⌋₊
  ceil x := ⌈x⌉₊
  isNaN _ := false
  same x y := x == y
  below x y := decide (x < y)
  order x y := compare x y

/-! ## A missing value -/

section Missing

variable {α : Type} [Scalar α]

/-- The scalars with a missing value `none`. -/
instance Exact.withMissing : Scalar (Option α) where
  add := Option.map₂ (· + ·)
  sub := Option.map₂ (· - ·)
  mul := Option.map₂ (· * ·)
  div := Option.map₂ (· / ·)
  ofNat n := some (Scalar.ofNat n)
  ofDecimal m e := some (Scalar.ofDecimal m e)
  abs := Option.map Scalar.abs
  round := Option.map Scalar.round
  floor x := x.elim 0 Scalar.floor
  ceil x := x.elim 0 Scalar.ceil
  isNaN x := x.all Scalar.isNaN
  same
    | some a, some b => Scalar.same a b
    | _, _ => false
  below
    | some a, some b => Scalar.below a b
    | _, _ => false
  order
    | some a, some b => Scalar.order a b
    | some _, none => .lt
    | none, some _ => .gt
    | none, none => .eq

namespace Scalar

theorem nanAsZero_some (a : α) : nanAsZero (some a) = some (nanAsZero a) :=
  (apply_ite some _ _ _).symm

theorem compare_some (a b : α) : compare (some a) (some b) = compare a b := by
  unfold compare
  rw [nanAsZero_some, nanAsZero_some]
  rfl

end Scalar

end Missing

end Lookback
