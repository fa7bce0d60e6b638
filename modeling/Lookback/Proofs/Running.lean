-- SUMMARY: Compiling and running under options: walks evaluate at the provided keys in order, and folding changes no outcome.
import Lookback.Compiler
import Lookback.Proofs.Folding

/-!
# Compiling and running under options

A walk is evaluation at the keys that the source provides, one after another
(`KeySource.walk_eq`). Options choose how a root is prepared and what is reported
about it. The compiled root itself does not depend on them, since folding is
sound (`CompileOptions.compile_eq`).
-/

namespace Lookback

/-! ## Walks -/

namespace Traced

variable {ω α β : Type}

theorem mapM_eq (f : α → Traced ω β) (xs : List α) :
    xs.mapM f = ⟨(xs.map f).map value, (xs.map f).flatMap visits⟩ := by
  induction xs with
  | nil => rfl
  | cons x xs ih =>
    rw [List.mapM_cons, ih]
    exact Traced.ext rfl (by simp)

end Traced

namespace KeySource

variable {ω K α : Type}

/-- The keys of a source, in order. -/
def provided (source : KeySource K) : List K :=
  (List.range source.count).filterMap source.keyAt

theorem provided_ofList (keys : List K) : (ofList keys).provided = keys := by
  rw [provided]
  induction keys with
  | nil => rfl
  | cons key keys ih =>
    simp only [ofList, List.length_cons, List.range_succ_eq_map, List.filterMap_cons,
      List.getElem?_cons_zero, List.filterMap_map] at ih ⊢
    exact congrArg (key :: ·) ih

theorem walkFrom_eq (source : KeySource K) (evaluate : K → Traced ω α) (n index : Nat) :
    source.walkFrom evaluate n index =
      ((List.range' index n).filterMap source.keyAt).mapM evaluate := by
  induction n generalizing index with
  | zero => rfl
  | succ n ih =>
    simp only [walkFrom, List.range'_succ, List.filterMap_cons]
    cases source.keyAt index with
    | none => exact ih (index + 1)
    | some key => simp only [List.mapM_cons, ih]

theorem walk_eq (source : KeySource K) (evaluate : K → Traced ω α) :
    source.walk evaluate = source.provided.mapM evaluate := by
  rw [walk, walkFrom_eq, provided, List.range_eq_range']

end KeySource

/-! ## Evaluation at single keys -/

namespace Expr

variable {M : KeyModel} {root : Expr} {c : Compiled M.Key}

theorem evalDouble_eq (h : root.compile M = .ok c) :
    root.evalDouble M = fun key => .ok (c.toDouble key) := by
  funext key
  rw [evalDouble, h]
  rfl

theorem evalNullable_eq (h : root.compile M = .ok c) :
    root.evalNullable M = fun key => .ok (c.toNullable key) := by
  funext key
  rw [evalNullable, h]
  rfl

end Expr

/-! ## Options -/

namespace CompileOptions

open Lookback.Expr (BuiltOver OpaqueLeaf StandsFor)

variable {root : Expr}

/-- What is lowered stands for the root, and preparing it visits nothing. -/
theorem prepared_sound (options : CompileOptions) (he : BuiltOver OpaqueLeaf root) :
    ∃ lowered folds, options.prepared root = .ok (lowered, folds, []) ∧
      StandsFor root lowered := by
  obtain ⟨foldConstants, collectManifest⟩ := options
  cases foldConstants with
  | false => exact ⟨root, 0, rfl, .refl he⟩
  | true =>
    obtain ⟨r, hr, hstands⟩ := Expr.fold_sound he
    refine ⟨r.expr, r.folds, ?_, hstands⟩
    simp only [prepared, Expr.foldConstants, hr]
    rfl

/-- Options decide about the manifest only. -/
theorem compile_eq (options : CompileOptions) (M : KeyModel) (kind : Kind)
    (he : BuiltOver OpaqueLeaf root) :
    ∃ manifest, options.compile M kind root =
      (root.compileTo M kind).map fun compiled => ⟨compiled, manifest, []⟩ := by
  obtain ⟨lowered, folds, hprepared, hstands⟩ := options.prepared_sound he
  simp only [compile, hprepared, (hstands.agree M).compileTo_eq kind, bind, Except.bind]
  refine ⟨if options.collectManifest then
    some ⟨M, kind, lowered.counts.1, lowered.counts.2, folds⟩ else none, ?_⟩
  cases lowered.compileTo M kind with
  | error error => rfl
  | ok compiled => rfl

/-- The walk of a run evaluates the root as it stands. -/
theorem runAs_eq (options : CompileOptions) {M : KeyModel} (kind : Kind)
    (he : BuiltOver OpaqueLeaf root) {c : Compiled M.Key} (h : root.compile M = .ok c)
    (source : KeySource M.Key) :
    ∃ manifest, options.runAs M kind root source =
      .ok ⟨(source.provided.map (c.coerced kind)).map Traced.value, manifest, [],
        (source.provided.map (c.coerced kind)).flatMap Traced.visits⟩ := by
  obtain ⟨manifest, hcompile⟩ := options.compile_eq M kind he
  have hto : root.compileTo M kind = .ok (c.toKind kind) := by
    rw [Expr.compileTo, h]
    rfl
  have hself : (c.toKind kind).coerced kind = c.coerced kind := (c.toKind kind).coerced_kind
  have hwalk : source.walk ((c.toKind kind).coerced kind) =
      ⟨(source.provided.map (c.coerced kind)).map Traced.value,
        (source.provided.map (c.coerced kind)).flatMap Traced.visits⟩ := by
    rw [hself, KeySource.walk_eq, Traced.mapM_eq]
  refine ⟨manifest, ?_⟩
  simp only [runAs, hcompile, hto, Except.map, bind, Except.bind, hwalk]
  rfl

/-- Options never change meaning. A root compiles to the same evaluator, or fails with
    the same error, under all options; folding asks no user-defined node. When the root
    compiles, a walk gives what evaluating the root as it stands gives at each key. -/
theorem compile_run_immaterial (he : BuiltOver OpaqueLeaf root) (M : KeyModel) :
    (∀ (kind : Kind) (options options' : CompileOptions),
      (options.compile M kind root).map Compilation.compiled =
          (options'.compile M kind root).map Compilation.compiled ∧
        ∀ compilation, options.compile M kind root = .ok compilation →
          compilation.visits = []) ∧
    ∀ c, root.compile M = .ok c → ∀ (options : CompileOptions) (source : KeySource M.Key),
      (∃ r evaluated, options.run M root source = .ok r ∧
        source.provided.mapM (root.evalDouble M) = .ok evaluated ∧
        r.values = evaluated.map Traced.value ∧ r.foldVisits = [] ∧
        r.visits = evaluated.flatMap Traced.visits) ∧
      ∃ r evaluated, options.runNullable M root source = .ok r ∧
        source.provided.mapM (root.evalNullable M) = .ok evaluated ∧
        r.values = evaluated.map Traced.value ∧ r.foldVisits = [] ∧
        r.visits = evaluated.flatMap Traced.visits := by
  constructor
  · intro kind options options'
    obtain ⟨manifest, h⟩ := options.compile_eq M kind he
    obtain ⟨manifest', h'⟩ := options'.compile_eq M kind he
    rw [h, h']
    cases root.compileTo M kind with
    | error error => exact ⟨rfl, fun _ hcompilation => by cases hcompilation⟩
    | ok compiled =>
      refine ⟨rfl, ?_⟩
      intro compilation hcompilation
      rw [← Except.ok.inj hcompilation]
  · intro c hc options source
    constructor
    · obtain ⟨manifest, h⟩ := options.runAs_eq .double he hc source
      refine ⟨_, _, h, ?_, rfl, rfl, rfl⟩
      rw [Expr.evalDouble_eq hc]
      exact List.mapM_pure
    · obtain ⟨manifest, h⟩ := options.runAs_eq .nullable he hc source
      refine ⟨_, _, h, ?_, rfl, rfl, rfl⟩
      rw [Expr.evalNullable_eq hc]
      exact List.mapM_pure

/-- Two bars of a swept quantifier, with an operand that folds and one that does not. -/
theorem compile_run_immaterial_swept :
    let leaf : Expr := .custom (.probe "leaf" none (some true) false none) (.literal (.double 1))
    let three : Expr :=
      .call (.element (.arithmetic .add)) [.literal (.double 1), .literal (.double 2)]
    let root : Expr := .call (.historical (.swept .left .somewhere) .bars)
      [.literal (.double 2), .call (.element (.relation .less)) [leaf, three]]
    ((CompileOptions.mk true true).compile .bar .double root).map Compilation.compiled =
        ((CompileOptions.mk false true).compile .bar .double root).map Compilation.compiled ∧
      ∃ r evaluated, (CompileOptions.mk true true).run .bar root (.ofList [0, 1]) = .ok r ∧
        (KeySource.ofList [0, 1]).provided.mapM (root.evalDouble .bar) = .ok evaluated ∧
        r.values = evaluated.map Traced.value := by
  intro leaf three root
  have hthree : BuiltOver OpaqueLeaf three :=
    Expr.builtOver_call.2 ⟨by simp [BuiltOver.literal], rfl⟩
  have hless : BuiltOver OpaqueLeaf (.call (.element (.relation .less)) [leaf, three]) :=
    Expr.builtOver_call.2 ⟨by simp [hthree, leaf, Expr.builtOver_custom, OpaqueLeaf]; decide, rfl⟩
  have he : BuiltOver OpaqueLeaf root :=
    Expr.builtOver_call.2 ⟨by simp [hless, BuiltOver.literal], rfl⟩
  obtain ⟨hcompile, hrun⟩ := compile_run_immaterial he .bar
  obtain ⟨⟨r, evaluated, hr, hevaluated, hvalues, -⟩, -⟩ := hrun _ rfl ⟨true, true⟩ (.ofList [0, 1])
  exact ⟨(hcompile .double _ _).1, r, evaluated, hr, hevaluated, hvalues⟩

end CompileOptions

end Lookback
