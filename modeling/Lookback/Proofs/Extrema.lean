-- SUMMARY: The largest and the smallest of several operands: missing operands make no difference, and each operand is evaluated once, in order.
import Lookback.Proofs.Running

/-!
# Extrema

The two selections are written differently. One orders a missing value below every number,
the other one looks for missing values first. Yet for both the missing value is neutral on
either side (`Extremum.select_nan_left`, `Extremum.select_nan_right`), and there is only one
missing value (`Double.isNaN_iff`). So what has been selected so far may be missing or not,
and missing operands may be left out anywhere (`ElementOp.selectFrom_filter`). Nothing is
asked of the comparison of numbers: a selection by it gives back one of its two sides.
-/

namespace Lookback

/-! ## Selections -/

namespace Extremum

variable (which : Extremum) (x y : Float)

theorem select_nan_left : which.select Double.nan x = x := by
  have hnan : Scalar.isNaN Double.nan = true := by decide
  cases which with
  | largest =>
    simp only [select, Scalar.larger, Scalar.compareMissingLow, hnan]
    cases hx : Scalar.isNaN x with
    | true => exact (Double.isNaN_iff.1 hx).symm
    | false => rfl
  | smallest => simp only [select, Scalar.smaller, hnan]

theorem select_nan_right : which.select x Double.nan = x := by
  have hnan : Scalar.isNaN Double.nan = true := by decide
  cases which with
  | largest =>
    simp only [select, Scalar.larger, Scalar.compareMissingLow, hnan]
    cases Scalar.isNaN x <;> rfl
  | smallest =>
    simp only [select, Scalar.smaller, hnan]
    cases hx : Scalar.isNaN x with
    | true => exact (Double.isNaN_iff.1 hx).symm
    | false => rfl

theorem select_eq_or : which.select x y = x ∨ which.select x y = y := by
  cases which with
  | largest =>
    simp only [select, Scalar.larger]
    split
    · exact .inr rfl
    · exact .inl rfl
  | smallest =>
    simp only [select, Scalar.smaller]
    split
    · exact .inr rfl
    · exact .inl rfl
    · split
      · exact .inr rfl
      · exact .inl rfl

end Extremum

/-! ## Selections from a list -/

namespace ElementOp

variable (which : Extremum)

theorem selectFrom_eq_foldl (xs : List Float) :
    selectFrom which xs = xs.foldl which.select Double.nan := by
  cases xs with
  | nil => rfl
  | cons x xs => rw [List.foldl_cons, which.select_nan_left, selectFrom]

/-- What is missing may be left out. -/
theorem selectFrom_filter (xs : List Float) :
    selectFrom which (xs.filter (!·.isNaN)) = selectFrom which xs := by
  rw [selectFrom_eq_foldl, selectFrom_eq_foldl, List.foldl_filter]
  congr
  funext x y
  cases hy : y.isNaN with
  | true => simp [Double.isNaN_iff.1 hy, which.select_nan_right]
  | false => simp

theorem foldl_select_mem (x : Float) (xs : List Float) :
    xs.foldl which.select x ∈ x :: xs := by
  induction xs generalizing x with
  | nil => exact List.mem_cons_self
  | cons y xs ih =>
    rw [List.foldl_cons]
    rcases List.mem_cons.1 (ih (which.select x y)) with hfirst | hlater
    · rw [hfirst]
      rcases which.select_eq_or x y with hx | hy
      · rw [hx]
        exact List.mem_cons_self
      · rw [hy]
        exact List.mem_cons_of_mem _ List.mem_cons_self
    · exact List.mem_cons_of_mem _ (List.mem_cons_of_mem _ hlater)

theorem selectFrom_mem {xs : List Float} (h : xs ≠ []) : selectFrom which xs ∈ xs := by
  match xs, h with
  | x :: xs, _ => exact foldl_select_mem which x xs

/-- The result is missing when there is nothing else to select. -/
theorem isNaN_selectFrom_iff {xs : List Float} :
    (selectFrom which xs).isNaN = true ↔ ∀ x ∈ xs, x.isNaN = true := by
  rw [← selectFrom_filter]
  constructor
  · intro hmissing x hx
    by_contra hnumber
    have hpresent : x ∈ xs.filter (!·.isNaN) := List.mem_filter.2 ⟨hx, by simpa using hnumber⟩
    have hselected := (List.mem_filter.1 (selectFrom_mem which (List.ne_nil_of_mem hpresent))).2
    rw [hmissing] at hselected
    cases hselected
  · intro hmissing
    have hnone : xs.filter (!·.isNaN) = [] := by
      rw [List.filter_eq_nil_iff]
      intro x hx
      rw [hmissing x hx]
      decide
    rw [hnone]
    exact Double.isNaN_iff.2 rfl

section Operands

variable {K : Type} (key : K)

/-- All operands are evaluated once, from left to right, and one of their values is
    selected. -/
theorem toDouble_extremum (o : Operands K) : ((extremum which).evaluator o).toDouble key =
    ⟨selectFrom which (o.given.map fun c => (c.toDouble key).value),
      o.given.flatMap fun c => (c.toDouble key).visits⟩ := by
  refine (congrFun (Compiled.coerced_kind (.double _)) key).trans ?_
  dsimp only [Compiled.double]
  rw [Traced.mapM_eq, Operands.doubles, List.map_map, List.map_map]
  refine Traced.ext rfl ((List.append_nil _).trans ?_)
  rw [List.flatMap_map, List.flatMap_map]

theorem selectFrom_filter_given (given : List (Compiled K)) :
    selectFrom which ((given.filter fun c => !(c.toDouble key).value.isNaN).map
      fun c => (c.toDouble key).value) =
        selectFrom which (given.map fun c => (c.toDouble key).value) := by
  rw [← selectFrom_filter which (given.map _), List.filter_map]
  rfl

end Operands

end ElementOp

/-! ## Calls -/

namespace Expr

/-- The largest or the smallest of several expressions. -/
def extremum (which : Extremum) (args : List Expr) : Expr := .call (.element (.extremum which)) args

/-- The expression reads as NaN at a key. -/
def isMissingAt (M : KeyModel) (key : M.Key) (e : Expr) : Bool :=
  match e.evalDouble M key with
  | .ok result => result.value.isNaN
  | .error _ => false

/-- The expressions that read as numbers at a key. -/
def presentAt (M : KeyModel) (key : M.Key) (es : List Expr) : List Expr :=
  es.filter fun e => !e.isMissingAt M key

theorem call_extremum (which : Extremum) {args : List Expr} (h : args ≠ []) :
    (Function.element (.extremum which)).call args = .ok (extremum which args) := by
  have harity : (Function.element (.extremum which)).arity = ⟨1, none⟩ := by cases which <;> rfl
  refine Function.call_eq_ok.2 ⟨Function.validate_eq_ok.2 ⟨?_, nofun⟩, rfl⟩
  have hlength : 1 ≤ args.length := List.length_pos_iff.2 h
  simpa [harity, Arity.accepts] using hlength

section Values

variable {M : KeyModel} {args : List Expr} {given : List (Compiled M.Key)}

theorem isMissingAt_of_compile {e : Expr} {c : Compiled M.Key} (h : e.compile M = .ok c)
    (key : M.Key) : e.isMissingAt M key = (c.toDouble key).value.isNaN := by
  rw [isMissingAt, evalDouble, h]
  rfl

variable (hgiven : args.mapM (compile M) = .ok given) (key : M.Key)
include hgiven

theorem mapM_presentAt : (presentAt M key args).mapM (compile M) =
    .ok (given.filter fun c => !(c.toDouble key).value.isNaN) := by
  rw [Except.mapM_eq_ok] at hgiven ⊢
  unfold presentAt
  induction hgiven with
  | nil => exact .nil
  | @cons e c es cs he _ ih =>
    rw [List.filter_cons, List.filter_cons, isMissingAt_of_compile he]
    split
    · exact .cons he ih
    · exact ih

theorem evalDouble_extremum (which : Extremum) (hargs : args ≠ []) :
    (extremum which args).evalDouble M key =
      .ok ⟨ElementOp.selectFrom which (given.map fun c => (c.toDouble key).value),
        given.flatMap fun c => (c.toDouble key).visits⟩ := by
  obtain ⟨hv, -⟩ := Function.call_eq_ok.1 (call_extremum which hargs)
  rw [evalDouble, extremum, compile_call, Function.compile_element M hv, hgiven]
  exact congrArg Except.ok (ElementOp.toDouble_extremum which key _)

end Values

/-- The largest and the smallest of several operands, one or more, ignore those that are
    missing at a key. The result is missing when all of them are. Otherwise it is the value
    of one of them, and that of the call without the missing ones; so calls that differ in
    missing operands only have the same result. Each operand is evaluated once, from left
    to right. -/
theorem extremum_ignores_missing (which : Extremum) {M : KeyModel} {args : List Expr}
    {given : List (Compiled M.Key)} (hargs : args ≠ [])
    (hgiven : args.mapM (compile M) = .ok given) (key : M.Key) :
    (Function.element (.extremum which)).call args = .ok (extremum which args) ∧
    ∃ result, (extremum which args).evalDouble M key = .ok result ∧
      (result.value.isNaN = true ↔ ∀ c ∈ given, (c.toDouble key).value.isNaN = true) ∧
      (result.value.isNaN = false →
        (∃ c ∈ given, (c.toDouble key).value = result.value) ∧
        presentAt M key args ≠ [] ∧
        ((extremum which (presentAt M key args)).evalDouble M key).map Traced.value =
          .ok result.value) ∧
      (∀ args' given', args' ≠ [] → args'.mapM (compile M) = .ok given' →
        presentAt M key args' = presentAt M key args →
        ((extremum which args').evalDouble M key).map Traced.value = .ok result.value) ∧
      result.visits = given.flatMap fun c => (c.toDouble key).visits := by
  have hvalues : given.map (fun c => (c.toDouble key).value) ≠ [] := by
    rw [Ne, List.map_eq_nil_iff]
    rintro rfl
    rw [Except.mapM_eq_ok, List.forall₂_nil_right_iff] at hgiven
    exact hargs hgiven
  refine ⟨call_extremum which hargs, _, evalDouble_extremum hgiven key which hargs, ?_, ?_, ?_, rfl⟩
  · rw [ElementOp.isNaN_selectFrom_iff, List.forall_mem_map]
  · intro hnumber
    have hpresent : presentAt M key args ≠ [] := by
      intro hnone
      have hfiltered := mapM_presentAt hgiven key
      rw [hnone, List.mapM_nil] at hfiltered
      have hmissing : ElementOp.selectFrom which (given.map fun c => (c.toDouble key).value) =
          Double.nan := by
        rw [← ElementOp.selectFrom_filter_given, ← Except.ok.inj hfiltered]
        rfl
      exact absurd ((congrArg Float.isNaN hmissing).symm.trans hnumber) (by decide)
    refine ⟨List.mem_map.1 (ElementOp.selectFrom_mem which hvalues), hpresent, ?_⟩
    rw [evalDouble_extremum (mapM_presentAt hgiven key) key which hpresent]
    exact congrArg Except.ok (ElementOp.selectFrom_filter_given which key given)
  · intro args' given' hargs' hgiven' hpresent
    have hfiltered := mapM_presentAt hgiven' key
    rw [hpresent, mapM_presentAt hgiven key] at hfiltered
    rw [evalDouble_extremum hgiven' key which hargs']
    refine congrArg Except.ok ?_
    show ElementOp.selectFrom which _ = ElementOp.selectFrom which _
    rw [← ElementOp.selectFrom_filter_given, ← Except.ok.inj hfiltered,
      ElementOp.selectFrom_filter_given]

/-- A number between two operands that are missing, and the bar after it, where it is missing
    as well. -/
theorem extremum_ignores_missing_around :
    let present : Expr := .series (.undated "x" #[2])
    let missing : Expr := .series (.undated "y" #[])
    let args := [missing, present, missing]
    ((extremum .smallest args).evalDouble .bar 0).map Traced.value = .ok 2 ∧
      ∃ result, (extremum .smallest args).evalDouble .bar 1 = .ok result ∧
        result.value.isNaN = true := by
  intro present missing args
  have hargs : args ≠ [] := List.cons_ne_nil missing _
  obtain ⟨-, result, halone, -, -, hsame, -⟩ :=
    extremum_ignores_missing .smallest (M := .bar) (List.cons_ne_nil present []) rfl 0
  obtain ⟨-, later, hlater, hmissing, -⟩ :=
    extremum_ignores_missing .smallest (M := .bar) hargs rfl 1
  obtain rfl := Except.ok.inj halone
  refine ⟨hsame args _ hargs rfl rfl, later, hlater, hmissing.2 ?_⟩
  exact List.forall_mem_cons.2 ⟨by decide,
    List.forall_mem_cons.2 ⟨by decide, List.forall_mem_cons.2 ⟨by decide, nofun⟩⟩⟩

end Expr

end Lookback
