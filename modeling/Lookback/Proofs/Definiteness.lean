-- SUMMARY: Filling in missing data: a definite answer of comparisons and their combinations stays what it was.
import Lookback.Proofs.HeldSides

/-!
# Definite answers

Unknown is less than an answer: an answer that is definite may not depend on what is
missing. So it has to stay when missing values of series are filled in. Here this is shown
for comparisons of series and literals, combined by negation, conjunction and disjunction
(`Expr.Propositional`).

Two relations carry the argument, one for numbers (`Compiled.FilledIn`) and one for truth
values (`Compiled.Settles`). A comparison takes the first to the second, since it is unknown
when an operand is missing, and the connectives keep the second. What the connectives
answer is said without the order in which they ask (`Truth.value_and_eq_true_iff` and the
three like it), although they skip their right side where the left one decides.
-/

namespace Lookback

/-! ## Connectives -/

namespace Truth

variable {ω : Type} {left right : Traced ω (Option Bool)}

theorem value_and_eq_true_iff : (and left right).value = some true ↔
    left.value = some true ∧ right.value = some true := by
  obtain ⟨a, -⟩ := left
  obtain ⟨b, -⟩ := right
  rcases a with _ | _ | _ <;> rcases b with _ | _ | _ <;> simp [and]

theorem value_and_eq_false_iff : (and left right).value = some false ↔
    left.value = some false ∨ right.value = some false := by
  obtain ⟨a, -⟩ := left
  obtain ⟨b, -⟩ := right
  rcases a with _ | _ | _ <;> rcases b with _ | _ | _ <;> simp [and]

theorem value_or_eq_true_iff : (or left right).value = some true ↔
    left.value = some true ∨ right.value = some true := by
  obtain ⟨a, -⟩ := left
  obtain ⟨b, -⟩ := right
  rcases a with _ | _ | _ <;> rcases b with _ | _ | _ <;> simp [or]

theorem value_or_eq_false_iff : (or left right).value = some false ↔
    left.value = some false ∧ right.value = some false := by
  obtain ⟨a, -⟩ := left
  obtain ⟨b, -⟩ := right
  rcases a with _ | _ | _ <;> rcases b with _ | _ | _ <;> simp [or]

end Truth

/-- A comparison has a definite answer only for two numbers. -/
theorem Relation.isNaN_eq_false_of_applyNullable {r : Relation} {x y : Float} {v : Bool}
    (h : r.applyNullable x y = some v) : x.isNaN = false ∧ y.isNaN = false := by
  obtain ⟨o, ho, -⟩ := Option.map_eq_some_iff.1 h
  rw [Scalar.compare?, Option.ite_none_left_eq_some, Bool.or_eq_true, not_or] at ho
  simpa [Scalar.isNaN] using ho.1

/-! ## What is filled in -/

/-- Wherever the first series has a number, the second has the same one; where it has none,
    the second may have one. -/
structure Series.FilledIn (s s' : Series) : Prop where
  calendar : s'.calendar = s.calendar
  values : ∀ (i : Nat) (x : Float), s.values[i]? = some x → x.isNaN = false →
    s'.values[i]? = some x

namespace Compiled

variable {K : Type}

/-- Wherever the first evaluator reads as a number, the second reads as the same one. -/
def FilledIn (c c' : Compiled K) : Prop :=
  ∀ key, (c.toDouble key).value.isNaN = false → (c'.toDouble key).value = (c.toDouble key).value

/-- Wherever the first evaluator has a definite answer, the second has the same one. -/
def Settles (c c' : Compiled K) : Prop :=
  ∀ key v, (c.toNullable key).value = some v → (c'.toNullable key).value = some v

end Compiled

/-! ## Operations -/

namespace ElementOp

variable {K : Type} {a a' b b' : Compiled K} {omitted : Nat → Float}

theorem toNullable_relation (r : Relation) (a b : Compiled K) (key : K) :
    ((relation r).evaluator ⟨[a, b], omitted⟩).toNullable key =
      (do return r.applyNullable (← a.toDouble key) (← b.toDouble key)) :=
  congrFun (Compiled.coerced_kind (.nullable _)) key

theorem toNullable_not (a : Compiled K) (key : K) :
    (ElementOp.not.evaluator ⟨[a], omitted⟩).toNullable key =
      (do return (← a.toNullable key).map (!·)) :=
  congrFun (Compiled.coerced_kind (.nullable _)) key

theorem toNullable_and (a b : Compiled K) (key : K) :
    (ElementOp.and.evaluator ⟨[a, b], omitted⟩).toNullable key =
      Truth.and (a.toNullable key) (b.toNullable key) :=
  congrFun (Compiled.coerced_kind (.nullable _)) key

theorem toNullable_or (a b : Compiled K) (key : K) :
    (ElementOp.or.evaluator ⟨[a, b], omitted⟩).toNullable key =
      Truth.or (a.toNullable key) (b.toNullable key) :=
  congrFun (Compiled.coerced_kind (.nullable _)) key

theorem relation_settles (r : Relation) (ha : a.FilledIn a') (hb : b.FilledIn b') :
    ((relation r).evaluator ⟨[a, b], omitted⟩).Settles
      ((relation r).evaluator ⟨[a', b'], omitted⟩) := by
  intro key v hv
  rw [toNullable_relation] at hv ⊢
  simp only [Traced.value_bind, Traced.value_pure] at hv ⊢
  obtain ⟨hleft, hright⟩ := Relation.isNaN_eq_false_of_applyNullable hv
  rw [ha key hleft, hb key hright, hv]

theorem not_settles (ha : a.Settles a') :
    (ElementOp.not.evaluator ⟨[a], omitted⟩).Settles (ElementOp.not.evaluator ⟨[a'], omitted⟩) := by
  intro key v hv
  rw [toNullable_not] at hv ⊢
  simp only [Traced.value_bind, Traced.value_pure] at hv ⊢
  obtain ⟨u, hu, rfl⟩ := Option.map_eq_some_iff.1 hv
  rw [ha key u hu, Option.map_some]

theorem and_settles (ha : a.Settles a') (hb : b.Settles b') :
    (ElementOp.and.evaluator ⟨[a, b], omitted⟩).Settles
      (ElementOp.and.evaluator ⟨[a', b'], omitted⟩) := by
  intro key v hv
  rw [toNullable_and] at hv ⊢
  cases v with
  | false =>
    rw [Truth.value_and_eq_false_iff] at hv ⊢
    exact hv.imp (ha key false) (hb key false)
  | true =>
    rw [Truth.value_and_eq_true_iff] at hv ⊢
    exact hv.imp (ha key true) (hb key true)

theorem or_settles (ha : a.Settles a') (hb : b.Settles b') :
    (ElementOp.or.evaluator ⟨[a, b], omitted⟩).Settles
      (ElementOp.or.evaluator ⟨[a', b'], omitted⟩) := by
  intro key v hv
  rw [toNullable_or] at hv ⊢
  cases v with
  | false =>
    rw [Truth.value_or_eq_false_iff] at hv ⊢
    exact hv.imp (ha key false) (hb key false)
  | true =>
    rw [Truth.value_or_eq_true_iff] at hv ⊢
    exact hv.imp (ha key true) (hb key true)

end ElementOp

/-! ## Leaves -/

namespace Series.FilledIn

variable {s s' : Series} (h : s.FilledIn s')
include h

/-- No number at a position is no number to lose. -/
theorem getD_eq {i : Nat} (hnumber : (s.values[i]?.getD Double.nan).isNaN = false) :
    s'.values[i]?.getD Double.nan = s.values[i]?.getD Double.nan := by
  cases hx : s.values[i]? with
  | none =>
    rw [hx] at hnumber
    exact absurd hnumber (by decide)
  | some x =>
    rw [hx] at hnumber
    rw [h.values i x hx hnumber]

theorem valueAt_eq {bar : Int} (hnumber : (s.valueAt bar).isNaN = false) :
    s'.valueAt bar = s.valueAt bar := by
  unfold valueAt at hnumber ⊢
  split at hnumber
  · rename_i hbar
    rw [if_pos hbar, if_pos hbar]
    exact h.getD_eq hnumber
  · rename_i hbar
    rw [if_neg hbar, if_neg hbar]

theorem readAsOf_eq {calendar : Array Timestamp} {time : Timestamp}
    (hnumber : (readAsOf calendar s.values time).isNaN = false) :
    readAsOf calendar s'.values time = readAsOf calendar s.values time := by
  unfold readAsOf at hnumber ⊢
  cases hcount : countUpTo calendar time with
  | zero => rfl
  | succ count =>
    rw [hcount] at hnumber
    exact h.getD_eq hnumber

theorem compile_filledIn (M : KeyModel) :
    Except.Rel (fun _ _ => True) Compiled.FilledIn (s.compile M) (s'.compile M) := by
  unfold compile
  cases M with
  | keyless => exact .error trivial
  | bar => exact .ok fun bar => h.valueAt_eq
  | date =>
    rw [h.calendar]
    cases s.calendar with
    | none => exact .error trivial
    | some calendar => exact .ok fun time => h.readAsOf_eq

end Series.FilledIn

/-! ## Expressions -/

namespace Expr

/-- A series or a literal. -/
inductive IsLeaf : Expr → Prop where
  | literal (l) : IsLeaf (.literal l)
  | series (s) : IsLeaf (.series s)

/-- Built from comparisons of series and literals by negation, conjunction and disjunction. -/
inductive Propositional : Expr → Prop where
  | comparison (r) {left right} : IsLeaf left → IsLeaf right →
      Propositional (comparison r left right)
  | not {e} : Propositional e → Propositional (.call (.element .not) [e])
  | and {left right} : Propositional left → Propositional right →
      Propositional (.call (.element .and) [left, right])
  | or {left right} : Propositional left → Propositional right →
      Propositional (.call (.element .or) [left, right])

section Shape

variable {leaves : Series → Series → Prop} {contexts : PreviousKeys → PreviousKeys → Prop}
  {op : ElementOp} {left right e' : Expr}

theorem SameShape.exists_element {args : List Expr}
    (h : SameShape leaves contexts (.call (.element op) args) e') :
    ∃ args', e' = .call (.element op) args' ∧
      List.Forall₂ (SameShape leaves contexts) args args' := by
  cases h with
  | @call f f' args args' hf hlength hargs =>
    cases hf with
    | element => exact ⟨args', rfl, List.forall₂_iff_zip.2 ⟨hlength, fun h => hargs _ _ h⟩⟩

theorem SameShape.exists_binary
    (h : SameShape leaves contexts (.call (.element op) [left, right]) e') :
    ∃ left' right', e' = .call (.element op) [left', right'] ∧
      SameShape leaves contexts left left' ∧ SameShape leaves contexts right right' := by
  obtain ⟨args', rfl, hargs⟩ := h.exists_element
  match args', hargs with
  | [left', right'], .cons hleft (.cons hright .nil) => exact ⟨left', right', rfl, hleft, hright⟩

end Shape

/-- Operations on two operands take a relation of the operands to one of the results. -/
theorem compile_binary_rel {M : KeyModel} {R S : Compiled M.Key → Compiled M.Key → Prop}
    {op : ElementOp} (hv : ∀ left right, (Function.element op).validate [left, right] = .ok ())
    (hop : ∀ {a a' b b' omitted}, R a a' → R b b' →
      S (op.evaluator ⟨[a, b], omitted⟩) (op.evaluator ⟨[a', b'], omitted⟩))
    {left left' right right' : Expr}
    (hleft : Except.Rel (fun _ _ => True) R (left.compile M) (left'.compile M))
    (hright : Except.Rel (fun _ _ => True) R (right.compile M) (right'.compile M)) :
    Except.Rel (fun _ _ => True) S ((call (.element op) [left, right]).compile M)
      ((call (.element op) [left', right']).compile M) := by
  rw [compile_binary M (hv _ _), compile_binary M (hv _ _)]
  exact hleft.bind fun a a' ha => hright.bind fun b b' hb => .ok (hop ha hb)

section FilledIn

variable {contexts : PreviousKeys → PreviousKeys → Prop} {e e' : Expr} (M : KeyModel)

theorem IsLeaf.compile_filledIn (he : e.IsLeaf)
    (h : SameShape Series.FilledIn contexts e e') :
    Except.Rel (fun _ _ => True) Compiled.FilledIn (e.compile M) (e'.compile M) := by
  cases he with
  | literal l =>
    cases h with
    | literal => exact .ok fun _ _ => rfl
  | series s =>
    cases h with
    | series hs => exact hs.compile_filledIn M

theorem Propositional.compile_settles (he : e.Propositional)
    (h : SameShape Series.FilledIn contexts e e') :
    Except.Rel (fun _ _ => True) Compiled.Settles (e.compile M) (e'.compile M) := by
  induction he generalizing e' with
  | comparison r hleft hright =>
    obtain ⟨left', right', rfl, hleft', hright'⟩ := h.exists_binary
    exact compile_binary_rel (validate_comparison r) (ElementOp.relation_settles r)
      (hleft.compile_filledIn M hleft') (hright.compile_filledIn M hright')
  | not _ ih =>
    obtain ⟨args', rfl, hargs⟩ := h.exists_element
    match args', hargs with
    | [inner'], .cons hinner .nil =>
      rw [compile_call, compile_call, Function.compile_element M rfl,
        Function.compile_element M rfl]
      simp only [List.mapM_cons, List.mapM_nil, bind_assoc, pure_bind]
      exact (ih hinner).bind fun a a' ha => .ok (ElementOp.not_settles ha)
  | and _ _ ihleft ihright =>
    obtain ⟨left', right', rfl, hleft, hright⟩ := h.exists_binary
    exact compile_binary_rel (fun _ _ => rfl) ElementOp.and_settles (ihleft hleft) (ihright hright)
  | or _ _ ihleft ihright =>
    obtain ⟨left', right', rfl, hleft, hright⟩ := h.exists_binary
    exact compile_binary_rel (fun _ _ => rfl) ElementOp.or_settles (ihleft hleft) (ihright hright)

/-- Filling in missing values takes no definite answer back: the expression compiles for the
    same key models, and where it was true or false at a key it still is. -/
theorem Propositional.definite_survives (he : e.Propositional)
    (h : SameShape Series.FilledIn contexts e e') :
    ((∃ c, e.compile M = .ok c) ↔ ∃ c', e'.compile M = .ok c') ∧
      ∀ key v, (e.evalNullable M key).map Traced.value = .ok (some v) →
        (e'.evalNullable M key).map Traced.value = .ok (some v) := by
  have hrel := he.compile_settles M h
  simp only [evalNullable]
  generalize e.compile M = x, e'.compile M = y at hrel
  cases hrel with
  | error => exact ⟨by simp, fun key v hv => by cases hv⟩
  | ok hc => exact ⟨by simp, fun key v hv => congrArg Except.ok (hc key v (Except.ok.inj hv))⟩

end FilledIn

/-- A conjunction that is false on its right side, before and after a value is known on its
    left side. -/
theorem definite_survives_conjunction :
    let x : Series := .undated "x" #[1]
    let y : Series := .undated "y" #[Double.nan]
    let y' : Series := .undated "y" #[5]
    let both (y : Series) : Expr := .call (.element .and)
      [comparison .less (.series y) (.literal (.double 0)),
        comparison .greater (.series x) (.literal (.double 2))]
    ((both y).evalNullable .bar 0).map Traced.value = .ok (some false) ∧
      ((both y').evalNullable .bar 0).map Traced.value = .ok (some false) := by
  intro x y y' both
  have hboth : (both y).Propositional :=
    .and (.comparison _ (.series y) (.literal _)) (.comparison _ (.series x) (.literal _))
  have hfilled : y.FilledIn y' := by
    refine ⟨rfl, fun i v hv hnumber => ?_⟩
    match i, hv with
    | 0, hv =>
      obtain rfl := Option.some.inj hv
      exact absurd hnumber (by decide)
  have hshape : SameShape Series.FilledIn (fun _ _ => False) (both y) (both y') := by
    refine .call_of_forall₂ (.element _) (.cons ?_ (.cons ?_ .nil))
    · exact .call_of_forall₂ (.element _) (.cons (.series hfilled) (.cons (.literal _) .nil))
    · exact .call_of_forall₂ (.element _)
        (.cons (.series ⟨rfl, fun _ _ hv _ => hv⟩) (.cons (.literal _) .nil))
  have hfalse : ((both y).evalNullable .bar 0).map Traced.value = .ok (some false) := by
    decide +kernel
  obtain ⟨-, hsurvives⟩ := hboth.definite_survives .bar hshape
  exact ⟨hfalse, hsurvives 0 false hfalse⟩

end Expr

end Lookback
