-- SUMMARY: Two evaluations side by side: relations on outcomes, traced computations, evaluators and histories, and the rules that carry them through.
import Lookback.Error
import Lookback.Operands
import Lookback.PreviousKeys
import Mathlib.Data.List.Forall2

/-!
# Corresponding evaluations

Many statements about expressions compare two evaluations: of a tree before and
after folding, of a tree over shorter and over longer series, of a tree at a bar
and at the date of that bar. What they share is stated here. A `Correspondence`
says which keys, which visits and which errors of the two sides belong together.
Two evaluators agree when they return the same value and make corresponding
visits at all corresponding keys.

The rules below say that agreement passes through everything evaluators are
made of: sequencing, bounded loops, coercions and operands. So it is enough to
look at the leaves of a tree and at its histories.
-/

/-! ## Outcomes -/

namespace Except

variable {ε ε' α α' β β' γ γ' : Type}

theorem bind_eq_ok {x : Except ε α} {f : α → Except ε β} {b : β} :
    x >>= f = .ok b ↔ ∃ a, x = .ok a ∧ f a = .ok b := by
  cases x with
  | error e => simp [bind, Except.bind]
  | ok a => simp [bind, Except.bind]

theorem mapM_eq_ok {f : α → Except ε β} {xs : List α} {ys : List β} :
    xs.mapM f = .ok ys ↔ List.Forall₂ (fun x y => f x = .ok y) xs ys := by
  induction xs generalizing ys with
  | nil => simp [pure, Except.pure, eq_comm]
  | cons x xs ih =>
    simp only [List.mapM_cons, bind_eq_ok, ih, List.forall₂_cons_left_iff, pure, Except.pure,
      Except.ok.injEq]
    constructor
    · rintro ⟨y, hy, ys, hys, rfl⟩
      exact ⟨y, ys, hy, hys, rfl⟩
    · rintro ⟨y, ys, hy, hys, rfl⟩
      exact ⟨y, hy, ys, hys, rfl⟩

theorem exists_ok_of_mapM {f : α → Except ε β} {xs : List α} {ys : List β}
    (h : xs.mapM f = .ok ys) {x : α} (hx : x ∈ xs) : ∃ y, f x = .ok y := by
  have hrel := mapM_eq_ok.1 h
  induction hrel with
  | nil => cases hx
  | cons hy hys ih =>
    rcases List.mem_cons.1 hx with rfl | hx
    · exact ⟨_, hy⟩
    · exact ih (mapM_eq_ok.2 hys) hx

/-- Both outcomes are failures with related errors, or both are successes with
    related results. -/
inductive Rel (E : ε → ε' → Prop) (A : α → α' → Prop) : Except ε α → Except ε' α' → Prop where
  | error {e e'} : E e e' → Rel E A (.error e) (.error e')
  | ok {a a'} : A a a' → Rel E A (.ok a) (.ok a')

namespace Rel

variable {E : ε → ε' → Prop} {A : α → α' → Prop} {B : β → β' → Prop}

theorem mono {A' : α → α' → Prop} {x : Except ε α} {y : Except ε' α'} (h : Rel E A x y)
    (hA : ∀ a a', A a a' → A' a a') : Rel E A' x y := by
  cases h with
  | error he => exact .error he
  | ok ha => exact .ok (hA _ _ ha)

theorem bind {x : Except ε α} {y : Except ε' α'} {f : α → Except ε β} {g : α' → Except ε' β'}
    (h : Rel E A x y) (hfg : ∀ a a', A a a' → Rel E B (f a) (g a')) :
    Rel E B (x >>= f) (y >>= g) := by
  cases h with
  | error he => exact .error he
  | ok ha => exact hfg _ _ ha

theorem mapM {f : γ → Except ε α} {g : γ' → Except ε' α'} {xs : List γ} {ys : List γ'}
    (h : List.Forall₂ (fun x y => Rel E A (f x) (g y)) xs ys) :
    Rel E (List.Forall₂ A) (xs.mapM f) (ys.mapM g) := by
  induction h with
  | nil => exact .ok .nil
  | cons hxy _ ih =>
    simp only [List.mapM_cons]
    exact hxy.bind fun a a' ha => ih.bind fun as as' has => .ok (.cons ha has)

/-- Where no errors are related, both outcomes are successes. -/
theorem exists_ok {x : Except ε α} {y : Except ε' α'} (h : Rel (fun _ _ => False) A x y) :
    ∃ a a', x = .ok a ∧ y = .ok a' ∧ A a a' := by
  cases h with
  | error he => exact he.elim
  | ok ha => exact ⟨_, _, rfl, rfl, ha⟩

end Rel

end Except

namespace Lookback

/-! ## Traced computations -/

namespace Traced

variable {ω ω' α β σ : Type}

/-- The same value, with visits that belong together in the same order. -/
structure Agree (V : ω → ω' → Prop) (x : Traced ω α) (y : Traced ω' α) : Prop where
  value : x.value = y.value
  visits : List.Forall₂ V x.visits y.visits

variable {V : ω → ω' → Prop}

theorem agree_eq_iff {x y : Traced ω α} : Agree Eq x y ↔ x = y := by
  constructor
  · intro h
    have hvisits := h.visits
    rw [List.forall₂_eq_eq_eq] at hvisits
    exact Traced.ext h.value hvisits
  · rintro rfl
    exact ⟨rfl, by rw [List.forall₂_eq_eq_eq]⟩

namespace Agree

theorem pure (a : α) : Agree V (Pure.pure a) (Pure.pure a) := ⟨rfl, .nil⟩

theorem bind {x : Traced ω α} {y : Traced ω' α} {f : α → Traced ω β} {g : α → Traced ω' β}
    (h : Agree V x y) (hfg : ∀ a, Agree V (f a) (g a)) : Agree V (x >>= f) (y >>= g) := by
  have hnext : Agree V (f x.value) (g y.value) := h.value ▸ hfg x.value
  exact ⟨hnext.value, List.rel_append h.visits hnext.visits⟩

theorem map {x : Traced ω α} {y : Traced ω' α} (h : Agree V x y) (f : α → β) :
    Agree V (f <$> x) (f <$> y) := by
  refine ⟨congrArg f h.value, ?_⟩
  simpa only [visits_map] using h.visits

theorem mapM {γ γ' : Type} {f : γ → Traced ω α} {g : γ' → Traced ω' α} {xs : List γ}
    {ys : List γ'} (h : List.Forall₂ (fun x y => Agree V (f x) (g y)) xs ys) :
    Agree V (xs.mapM f) (ys.mapM g) := by
  induction h with
  | nil => exact .pure []
  | cons hxy _ ih =>
    simp only [List.mapM_cons]
    exact hxy.bind fun a => ih.bind fun as => .pure (a :: as)

/-- Loops agree when their steps do: they take the same number of rounds. -/
theorem iterate {step : σ → Traced ω (σ ⊕ β)} {step' : σ → Traced ω' (σ ⊕ β)}
    (hstep : ∀ s, Agree V (step s) (step' s)) (n : Nat) (s : σ) :
    Agree V (Traced.iterate step n s) (Traced.iterate step' n s) := by
  induction n generalizing s with
  | zero => exact .pure _
  | succ n ih =>
    simp only [iterate_succ]
    refine (hstep s).bind ?_
    intro r
    cases r with
    | inl s' => exact ih s'
    | inr b => exact .pure _

/-- Where no visits belong together, there are none. -/
theorem visits_eq_nil {x : Traced ω α} {y : Traced ω' α}
    (h : Agree (fun _ _ => False) x y) : x.visits = [] ∧ y.visits = [] := by
  obtain ⟨_, hvisits⟩ := h
  generalize x.visits = xs, y.visits = ys at hvisits
  cases hvisits with
  | nil => exact ⟨rfl, rfl⟩
  | cons hv _ => exact hv.elim

end Agree

end Traced

/-! ## Correspondences -/

/-- What belongs together in two evaluations. -/
structure Correspondence (K K' : Type) where
  keys : K → K' → Prop
  visits : Visit K → Visit K' → Prop
  errors : EvalError → EvalError → Prop

namespace Correspondence

variable {K K' : Type}

/-- The same keys, visits and errors. -/
def identity (K : Type) : Correspondence K K := ⟨Eq, Eq, Eq⟩

/-- Keys related by `R`. No errors and no visits belong together, so evaluations
    that correspond succeed and make none. -/
def along (R : K → K' → Prop) : Correspondence K K' :=
  ⟨R, fun _ _ => False, fun _ _ => False⟩

end Correspondence

variable {K K' : Type} {α : Type}

/-- Agreement at all keys that belong together. -/
def Evaluator.Agree (C : Correspondence K K') (f : Evaluator K α) (g : Evaluator K' α) : Prop :=
  ∀ {k k'}, C.keys k k' → Traced.Agree C.visits (f k) (g k')

/-- The same offsets have a key, and the keys belong together. -/
def History.Agree (C : Correspondence K K') (h : History K) (h' : History K') : Prop :=
  ∀ offset, Option.Rel C.keys (h offset) (h' offset)

namespace Compiled

/-- Agreement in every kind. The native kinds may differ. -/
def Agree (C : Correspondence K K') (c : Compiled K) (c' : Compiled K') : Prop :=
  ∀ target, Evaluator.Agree C (c.coerced target) (c'.coerced target)

variable {C : Correspondence K K'}

/-- Evaluators of one kind that agree there agree in every kind. -/
theorem agree_mk {kind : Kind} {f : Evaluator K kind.Carrier} {g : Evaluator K' kind.Carrier}
    (h : Evaluator.Agree C f g) : Agree C ⟨kind, f⟩ ⟨kind, g⟩ := by
  intro target k k' hk
  exact (h hk).map (kind.convert target)

theorem agree_constant {v v' : Value}
    (h : ∀ target, v.kind.convert target v.content = v'.kind.convert target v'.content) :
    Agree C (constant v) (constant v') := by
  intro target k k' _
  exact ⟨h target, .nil⟩

/-- The values of evaluators that agree, read in their common native kind. -/
theorem Agree.value_valueAt {c : Compiled K} {c' : Compiled K'} (h : Agree C c c')
    (hkind : c.kind = c'.kind) {k : K} {k' : K'} (hk : C.keys k k') :
    (c.valueAt k).value = (c'.valueAt k').value := by
  have hvalue := (h c.kind hk).value
  obtain ⟨kind, f⟩ := c
  obtain ⟨kind', g⟩ := c'
  subst hkind
  simp only [coerced, Traced.value_map, Kind.convert_self] at hvalue
  simp only [valueAt, Traced.value_map, hvalue]

@[simp] theorem visits_valueAt (c : Compiled K) (k : K) :
    (c.valueAt k).visits = (c.evaluate k).visits := by
  simp [valueAt]

/-- Along a relation of keys, evaluators of one kind that agree return the same value
    at related keys, without visits. -/
theorem Agree.exists_pure {R : K → K' → Prop} {c : Compiled K} {c' : Compiled K'}
    (h : Agree (.along R) c c') (hkind : c.kind = c'.kind) {k : K} {k' : K'} (hk : R k k') :
    ∃ v, c.valueAt k = pure v ∧ c'.valueAt k' = pure v := by
  have hvalue := h.value_valueAt hkind hk
  obtain ⟨hvisits, hvisits'⟩ := (h .double hk).visits_eq_nil
  simp only [coerced, Traced.visits_map] at hvisits hvisits'
  refine ⟨(c.valueAt k).value, Traced.ext rfl ?_, Traced.ext hvalue.symm ?_⟩
  · simp only [visits_valueAt, hvisits, Traced.visits_pure]
  · simp only [visits_valueAt, hvisits', Traced.visits_pure]

end Compiled

namespace Operands

/-- Operands that agree position by position, with the same numbers standing in for
    the omitted ones. -/
structure Agree (C : Correspondence K K') (o : Operands K) (o' : Operands K') : Prop where
  given : List.Forall₂ (Compiled.Agree C) o.given o'.given
  omitted : o.omitted = o'.omitted

namespace Agree

variable {C : Correspondence K K'} {o : Operands K} {o' : Operands K'}

theorem compiled (h : Agree C o o') (index : Nat) :
    Compiled.Agree C (o.compiled index) (o'.compiled index) := by
  have hlength := h.given.length_eq
  simp only [Operands.compiled, h.omitted]
  by_cases hindex : index < o.given.length
  · rw [List.getElem?_eq_getElem hindex, List.getElem?_eq_getElem (hlength ▸ hindex)]
    exact h.given.get hindex (hlength ▸ hindex)
  · rw [List.getElem?_eq_none (by omega), List.getElem?_eq_none (by omega)]
    exact Compiled.agree_constant fun _ => rfl

theorem double (h : Agree C o o') (index : Nat) :
    Evaluator.Agree C (o.double index) (o'.double index) := h.compiled index .double

theorem boolean (h : Agree C o o') (index : Nat) :
    Evaluator.Agree C (o.boolean index) (o'.boolean index) := h.compiled index .boolean

theorem nullable (h : Agree C o o') (index : Nat) :
    Evaluator.Agree C (o.nullable index) (o'.nullable index) := h.compiled index .nullable

theorem doubles (h : Agree C o o') :
    List.Forall₂ (Evaluator.Agree C) o.doubles o'.doubles := by
  simp only [Operands.doubles, List.forall₂_map_left_iff, List.forall₂_map_right_iff]
  exact h.given.imp fun _ _ hc => hc .double

end Agree

end Operands

end Lookback
