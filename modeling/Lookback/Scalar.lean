-- SUMMARY: The arithmetic that comparisons and estimators compute with, and its reading on machine doubles.

/-!
# Scalars

Comparisons and estimators are written once, over any type with the operations
of `Scalar`. Evaluation uses the instance for `Float` below. An instance with
exact numbers turns the same definitions into statements about means, variances
and quantiles without rounding.

Every operation of the `Float` instance is built from operations that have a
bit-level model, so closed instances evaluate inside proofs as well.
-/

namespace Lookback

/-- Numbers that may be missing (`isNaN`), with the operations that comparison,
    accumulation and interpolation need. -/
class Scalar (α : Type) extends Add α, Sub α, Mul α, Div α where
  /-- The number nearest to `n`. -/
  ofNat : Nat → α
  /-- `ofDecimal m e` is the number nearest to `m / 10 ^ e`. -/
  ofDecimal : Nat → Nat → α
  abs : α → α
  /-- Nearest integer, a half going away from zero. -/
  round : α → α
  /-- Largest natural number that is at most the argument, 0 when there is none. -/
  floor : α → Nat
  /-- Least natural number that is at least the argument. -/
  ceil : α → Nat
  isNaN : α → Bool
  /-- Numeric equality; a missing number equals nothing. -/
  same : α → α → Bool
  /-- Numeric strict order; a missing number is not below or above anything. -/
  below : α → α → Bool
  /-- A total order that tells apart all values. On numbers it refines the
      numeric order; the missing value comes last. -/
  order : α → α → Ordering

namespace Scalar

variable {α : Type} [Scalar α]

def zero : α := ofNat 0

def one : α := ofNat 1

end Scalar

/-! ## Doubles -/

namespace Double

open Float.Model (UnpackedFloat)

/-- Nearest integral double, a half going away from zero. From `2 ^ 52` on every
    double is integral already; infinities and NaN stay what they are. -/
def round (x : Float) : Float :=
  let magnitude := x.abs
  if magnitude < 4503599627370496 then
    let whole := magnitude.toUInt64.toFloat
    let rounded := if magnitude - whole < 0.5 then whole else whole + 1
    if x < 0 then -rounded else rounded
  else
    x

/-- Largest size at most `x`; 0 for NaN and negatives, at most `2 ^ 64 - 1`. -/
def floor (x : Float) : Nat :=
  x.toUInt64.toNat

/-- Least size at least `x`; 0 for NaN and negatives, at most `2 ^ 64 - 1`. -/
def ceil (x : Float) : Nat :=
  let whole := x.toUInt64
  if whole.toFloat < x ∧ whole < 18446744073709551615 then whole.toNat + 1 else whole.toNat

/-- Place of a double in the total order on bit patterns: magnitudes ascending
    from `+0.0` up, and descending below it, so that `-0.0` sits just under `+0.0`
    and the (positive) NaN above infinity. -/
def rank (x : Float) : Int :=
  let bits := x.toBits.toNat
  if bits < 9223372036854775808 then (bits : Int) else 9223372036854775807 - (bits : Int)

/-- Order of the ranks. It is total on `Float`, which has a single NaN (`isNaN_iff`).
    NaNs that differ in sign or payload are covered by what is stated of any `Scalar`
    only. -/
def order (x y : Float) : Ordering :=
  compare (rank x) (rank y)

def nan : Float := 0.0 / 0.0

theorem toBits_inj {x y : Float} : x.toBits = y.toBits ↔ x = y := by
  constructor
  · intro h
    obtain ⟨⟨bits, _⟩⟩ := x
    obtain ⟨⟨bits', _⟩⟩ := y
    cases h
    rfl
  · rintro rfl
    rfl

/-- Bits that unpack to no number are those of the one NaN. -/
theorem isNaN_iff {x : Float} : x.isNaN = true ↔ x = nan := by
  constructor
  · intro h
    have hunpacked : (UnpackedFloat.unpack .binary64 x.toBits.toBitVec).isNaN = true := h
    unfold UnpackedFloat.unpack at hunpacked
    dsimp only at hunpacked
    by_cases hexponent : @UnpackedFloat.unpackExponent .binary64 x.toBits.toBitVec = -1#_
    · rw [if_pos hexponent] at hunpacked
      by_cases hmantissa : @UnpackedFloat.unpackMantissa .binary64 x.toBits.toBitVec = 0#_
      · rw [if_pos hmantissa] at hunpacked
        cases hunpacked
      · have hbits : x.toBits.toBitVec = nan.toBits.toBitVec :=
          x.toModel.valid.eq_packedNaN hexponent hmantissa
        exact toBits_inj.1 (UInt64.toBitVec_inj.1 hbits)
    · -- Any other exponent is that of a zero or of a finite number.
      rw [if_neg hexponent, apply_ite UnpackedFloat.isNaN, apply_dite UnpackedFloat.isNaN]
        at hunpacked
      change (if _ then if _ : _ then false else false else false) = true at hunpacked
      simp at hunpacked
  · rintro rfl
    decide

end Double

instance : Scalar Float where
  ofNat := Float.ofNat
  ofDecimal m e := Float.ofScientific m true e
  abs := Float.abs
  round := Double.round
  floor := Double.floor
  ceil := Double.ceil
  isNaN := Float.isNaN
  same x y := x == y
  below x y := decide (x < y)
  order := Double.order

end Lookback
