-- SUMMARY: Mean and variance in a single pass.
import Lookback.Scalar

/-!
# Moments

Mean and variance are accumulated in one pass: the state holds the mean of the
values so far and the sum of their squared deviations from it. All values are
shifted by the first one, so that a large common offset does not eat into the
precision of the deviations.
-/

namespace Lookback

structure Moments (α : Type) where
  count : Nat
  /-- The first value. -/
  shift : α
  /-- Mean of the shifted values. -/
  center : α
  /-- Sum of squared deviations from the mean. -/
  spread : α

namespace Moments

variable {α : Type} [Scalar α]

def empty : Moments α := ⟨0, Scalar.zero, Scalar.zero, Scalar.zero⟩

def add (m : Moments α) (x : α) : Moments α :=
  let shift := if m.count = 0 then x else m.shift
  let shifted := x - shift
  let count := m.count + 1
  let delta := shifted - m.center
  let center := m.center + delta / Scalar.ofNat count
  ⟨count, shift, center, m.spread + delta * (shifted - center)⟩

def ofList (xs : List α) : Moments α := xs.foldl add empty

/-- Arithmetic mean; zero when empty. -/
def mean (m : Moments α) : α :=
  if m.count = 0 then Scalar.zero else m.shift + m.center

/-- Mean squared deviation; zero when empty. -/
def populationVariance (m : Moments α) : α :=
  if m.count = 0 then Scalar.zero else m.spread / Scalar.ofNat m.count

/-- Squared deviations over one less than their number; zero below two values. -/
def sampleVariance (m : Moments α) : α :=
  if m.count < 2 then Scalar.zero else m.spread / Scalar.ofNat (m.count - 1)

def populationDeviation (m : Moments Float) : Float := m.populationVariance.sqrt

def sampleDeviation (m : Moments Float) : Float := m.sampleVariance.sqrt

end Moments

end Lookback
