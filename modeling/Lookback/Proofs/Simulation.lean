-- SUMMARY: Simulation of one expression by another: calls preserve agreement, so trees of one shape agree when their leaves and their contexts do.
import Lookback.Proofs.Construction
import Lookback.Proofs.Evaluation

/-!
# Simulation of expressions

`Expr.Agree C e e'` says that two expressions fail with corresponding errors, or
compile to evaluators that agree. A swept function compiles the operands of its
comparison and never the comparison itself, so `Expr.Agree` also speaks of the
operands, where both expressions are comparisons.

`Expr.call_agree` is the step: calls of functions that agree, on arguments that
agree, agree. `SameShape.exists_compile` draws the conclusion for whole trees.
Two trees of one shape, with leaves and contexts that correspond along a relation
of keys, both compile, and return the same value at related keys.
-/

namespace Lookback

variable {M M' : KeyModel}

/-! ## Expressions that agree -/

section Agree

variable (C : Correspondence M.Key M'.Key)

/-- Both fail, with errors that belong together, or both give evaluators that agree. -/
abbrev Correspondence.Outcomes {K K' : Type} (C : Correspondence K K') :
    Except EvalError (Compiled K) → Except EvalError (Compiled K') → Prop :=
  Except.Rel C.errors (Compiled.Agree C)

/-- The same relation, between operands whose outcomes correspond. -/
structure Comparison.Agree (c c' : Comparison Expr) : Prop where
  relation : c.relation = c'.relation
  left : C.Outcomes (c.left.compile M) (c'.left.compile M')
  right : C.Outcomes (c.right.compile M) (c'.right.compile M')

/-- Corresponding outcomes, of the expressions and of what a swept function would
    take them apart into. -/
structure Expr.Agree (e e' : Expr) : Prop where
  outcomes : C.Outcomes (e.compile M) (e'.compile M')
  comparisons : ∀ c c', e.asComparison = .ok c → e'.asComparison = .ok c' → Comparison.Agree C c c'

/-- The same operation. Bound to contexts that give related keys histories that
    agree, or that both fail. -/
inductive Function.Agree : Function → Function → Prop where
  | element (op) : Agree (.element op) (.element op)
  | keyless {op keys keys'} : M = .keyless → M' = .keyless →
      C.errors (.unsupported (historical op keys).name M .historyNeedsKey)
        (.unsupported (historical op keys').name M' .historyNeedsKey) →
      Agree (.historical op keys) (.historical op keys')
  | historical {op keys keys'} : M ≠ .keyless → M' ≠ .keyless →
      Except.Rel C.errors (fun h h' => ∀ {k k'}, C.keys k k' → History.Agree C (h k) (h' k'))
        ((historical op keys).history keys M) ((historical op keys').history keys' M') →
      Agree (.historical op keys) (.historical op keys')

end Agree

/-! ## Comparisons -/

namespace Function

theorem relation?_eq_some {f : Function} {r : Relation} :
    f.relation? = some r ↔ f = .element (.relation r) := by
  constructor
  · intro h
    match f, h with
    | .element (.relation _), h => rw [← Option.some.inj h]
  · rintro rfl
    rfl

theorem isBoolean_relation (r : Relation) :
    (element (.relation r)).result.isBoolean = true := by
  cases r <;> rfl

end Function

/-- What reads as a comparison is a call of a relation on two operands. -/
theorem Comparison.eq_of_ofCall {α : Type} {kind : Kind} {call? : Option (Function × List α)}
    {c : Comparison α} (h : ofCall kind call? = .ok c) :
    call? = some (.element (.relation c.relation), [c.left, c.right]) := by
  match call? with
  | none => cases h
  | some (f, args) =>
    simp only [ofCall] at h
    split at h
    · cases h
    · rename_i r hr
      obtain rfl := Function.relation?_eq_some.1 hr
      split at h
      · split at h
        · obtain rfl := Except.ok.inj h
          rfl
        · cases h
      · cases h

namespace Expr

/-- The only calls that read as comparisons are those of a relation on two operands. -/
theorem asComparison_call {f : Function} {args : List Expr} {c : Comparison Expr} :
    (call f args).asComparison = .ok c ↔
      f = .element (.relation c.relation) ∧ args = [c.left, c.right] := by
  constructor
  · intro h
    cases Comparison.eq_of_ofCall h
    exact ⟨rfl, rfl⟩
  · obtain ⟨relation, left, right⟩ := c
    rintro ⟨rfl, rfl⟩
    exact if_pos (Function.isBoolean_relation relation)

theorem Agree.of_literal {C : Correspondence M.Key M'.Key} {e : Expr} {l : Literal}
    (h : C.Outcomes (e.compile M) ((literal l).compile M')) : Agree C e (.literal l) :=
  ⟨h, fun _ _ _ hc => by cases hc⟩

end Expr

/-! ## Calls -/

section Calls

variable {C : Correspondence M.Key M'.Key} {f f' : Function} {args args' : List Expr}

/-- Calls that passed their checks have corresponding outcomes when the functions
    and the arguments agree. -/
theorem Function.compile_agree (hf : Function.Agree C f f') (hv : f.validate args = .ok ())
    (hv' : f'.validate args' = .ok ()) (hargs : List.Forall₂ (Expr.Agree C) args args') :
    C.Outcomes (f.compile M args) (f'.compile M' args') := by
  have hgiven : Except.Rel C.errors (List.Forall₂ (Compiled.Agree C))
      (args.mapM (Expr.compile M)) (args'.mapM (Expr.compile M')) :=
    Except.Rel.mapM (hargs.imp fun _ _ h => h.outcomes)
  cases hf with
  | element op =>
    rw [compile_element M hv, compile_element M' hv']
    exact hgiven.bind fun given given' h => .ok (op.evaluator_agree ⟨h, rfl⟩)
  | @keyless op keys keys' hM hM' herror =>
    subst hM hM'
    rw [compile_historical_keyless, compile_historical_keyless]
    exact .error herror
  | @historical op keys keys' hM hM' hhistory =>
    cases op with
    | window op =>
      rw [compile_window M hv, compile_window M' hv', if_neg hM, if_neg hM']
      refine hgiven.bind ?_
      intro given given' h
      refine hhistory.bind ?_
      intro history history' hh
      exact .ok (op.evaluator_agree hh ⟨h, rfl⟩)
    | swept side quantifier =>
      obtain ⟨count, arg, c, rfl, hc⟩ := exists_of_validate_swept hv
      obtain ⟨count', arg', c', rfl, hc'⟩ := exists_of_validate_swept hv'
      simp only [List.forall₂_cons, List.Forall₂.nil, and_true] at hargs
      obtain ⟨hcount, harg⟩ := hargs
      -- The comparison itself is not compiled, so its own outcome says nothing here.
      have hcomparison := harg.comparisons c c' hc hc'
      rw [compile_swept M hc, compile_swept M' hc', if_neg hM, if_neg hM', hcomparison.relation]
      refine hcount.outcomes.bind fun _ _ hcount => hcomparison.left.bind fun _ _ hleft =>
        hcomparison.right.bind fun _ _ hright => hhistory.bind fun _ _ hh => .ok ?_
      exact HistoryOp.sweptEvaluator_agree side quantifier c'.relation hh (hcount .double)
        (hleft .double) (hright .double)

/-- Calls that passed their checks agree when the functions and the arguments agree. -/
theorem Expr.call_agree (hf : Function.Agree C f f') (hv : f.validate args = .ok ())
    (hv' : f'.validate args' = .ok ()) (hargs : List.Forall₂ (Expr.Agree C) args args') :
    Expr.Agree C (call f args) (call f' args') := by
  refine ⟨Function.compile_agree hf hv hv' hargs, ?_⟩
  intro c c' hc hc'
  obtain ⟨rfl, rfl⟩ := asComparison_call.1 hc
  obtain ⟨rfl, rfl⟩ := asComparison_call.1 hc'
  simp only [List.forall₂_cons, List.Forall₂.nil, and_true] at hargs
  obtain ⟨hleft, hright⟩ := hargs
  refine ⟨?_, hleft.outcomes, hright.outcomes⟩
  generalize c.relation = r, c'.relation = r' at hf
  cases hf with
  | element => rfl

end Calls

/-! ## The same key model

Under the identity on keys, visits and errors, agreement is equality of what can be
observed: the error, and the evaluators in the four kinds. -/

section Identity

variable {K : Type}

theorem Compiled.agree_identity {c c' : Compiled K} :
    Agree (.identity K) c c' ↔ ∀ target, c.toKind target = c'.toKind target := by
  simp only [toKind, mk.injEq, heq_eq_eq, true_and]
  constructor
  · intro h target
    funext key
    exact Traced.agree_eq_iff.1 (h target rfl)
  · intro h target key key' hkey
    obtain rfl : key = key' := hkey
    exact Traced.agree_eq_iff.2 (congrFun (h target) key)

theorem Correspondence.outcomes_identity {x y : Except EvalError (Compiled K)} :
    (identity K).Outcomes x y ↔
      ∀ target, x.map (Compiled.toKind · target) = y.map (Compiled.toKind · target) := by
  constructor
  · rintro (herror | h) target
    · exact congrArg Except.error herror
    · exact congrArg Except.ok (Compiled.agree_identity.1 h target)
  · intro h
    match x, y with
    | .error _, .error _ => exact .error (Except.error.inj (h .double))
    | .error _, .ok _ => cases h .double
    | .ok _, .error _ => cases h .double
    | .ok _, .ok _ =>
      exact .ok (Compiled.agree_identity.2 fun target => Except.ok.inj (h target))

theorem Correspondence.Outcomes.refl (x : Except EvalError (Compiled K)) :
    (identity K).Outcomes x x := outcomes_identity.2 fun _ => rfl

theorem Correspondence.Outcomes.trans {x y z : Except EvalError (Compiled K)}
    (hxy : (identity K).Outcomes x y) (hyz : (identity K).Outcomes y z) :
    (identity K).Outcomes x z :=
  outcomes_identity.2 fun target =>
    (outcomes_identity.1 hxy target).trans (outcomes_identity.1 hyz target)

theorem Function.Agree.refl (f : Function) : Agree (.identity M.Key) f f := by
  match f with
  | .element op => exact .element op
  | .historical op keys =>
    by_cases hM : M = .keyless
    · exact .keyless hM hM rfl
    · refine .historical hM hM ?_
      cases (Function.historical op keys).history keys M with
      | error error => exact .error rfl
      | ok history =>
        refine .ok ?_
        intro key key' hkey offset
        obtain rfl : key = key' := hkey
        cases history key offset with
        | none => exact .none
        | some earlier => exact .some rfl

theorem Expr.Agree.refl (e : Expr) : Agree (.identity M.Key) e e := by
  refine ⟨.refl _, ?_⟩
  intro c c' hc hc'
  obtain rfl := Except.ok.inj (hc.symm.trans hc')
  exact ⟨rfl, .refl _, .refl _⟩

/-- Expressions that agree compile alike in every kind that can be asked for. -/
theorem Expr.Agree.compileTo_eq {e e' : Expr} (h : Agree (.identity M.Key) e e') (kind : Kind) :
    e.compileTo M kind = e'.compileTo M kind :=
  Correspondence.outcomes_identity.1 h.outcomes kind

end Identity

/-! ## Trees of one shape -/

/-- The same operation, with contexts related by `contexts`. -/
inductive Function.SameShape (contexts : PreviousKeys → PreviousKeys → Prop) :
    Function → Function → Prop where
  | element (op) : SameShape contexts (.element op) (.element op)
  | historical (op) {keys keys'} : contexts keys keys' →
      SameShape contexts (.historical op keys) (.historical op keys')

namespace Function.SameShape

variable {contexts : PreviousKeys → PreviousKeys → Prop} {f f' : Function}

theorem operation_eq (h : SameShape contexts f f') : f'.operation = f.operation := by
  cases h with
  | element op => rfl
  | historical op _ => rfl

end Function.SameShape

namespace Expr

/-- Trees that differ in their series and contexts only. `leaves` relates the series
    at corresponding places, and `contexts` the contexts. -/
inductive SameShape (leaves : Series → Series → Prop)
    (contexts : PreviousKeys → PreviousKeys → Prop) : Expr → Expr → Prop where
  | literal (l) : SameShape leaves contexts (.literal l) (.literal l)
  | series {s s'} : leaves s s' → SameShape leaves contexts (.series s) (.series s')
  | call {f f' args args'} : f.SameShape contexts f' → args.length = args'.length →
      (∀ a a', (a, a') ∈ args.zip args' → SameShape leaves contexts a a') →
      SameShape leaves contexts (.call f args) (.call f' args')

namespace SameShape

variable {leaves : Series → Series → Prop} {contexts : PreviousKeys → PreviousKeys → Prop}
  {e e' : Expr}

theorem call_of_forall₂ {f f' : Function} {args args' : List Expr}
    (hf : f.SameShape contexts f') (hargs : List.Forall₂ (SameShape leaves contexts) args args') :
    SameShape leaves contexts (.call f args) (.call f' args') := by
  obtain ⟨hlength, hzip⟩ := List.forall₂_iff_zip.1 hargs
  exact .call hf hlength fun _ _ h => hzip h

theorem mono {leaves' : Series → Series → Prop} {contexts' : PreviousKeys → PreviousKeys → Prop}
    (h : SameShape leaves contexts e e') (hleaves : ∀ s s', leaves s s' → leaves' s s')
    (hcontexts : ∀ keys keys', contexts keys keys' → contexts' keys keys') :
    SameShape leaves' contexts' e e' := by
  induction h with
  | literal l => exact .literal l
  | series hs => exact .series (hleaves _ _ hs)
  | call hf hlength _ ih =>
    refine .call ?_ hlength ih
    cases hf with
    | element op => exact .element op
    | historical op hkeys => exact .historical op (hcontexts _ _ hkeys)

/-- An expression has its own shape when `leaves` and `contexts` hold of what occurs in
    it. -/
theorem self (he : e.Built) (hleaves : ∀ s, Occurs (.series s) e → leaves s s)
    (hcontexts : ∀ op keys args, Occurs (.call (.historical op keys) args) e →
      contexts keys keys) : SameShape leaves contexts e e := by
  induction e with
  | literal l => exact .literal l
  | series s => exact .series (hleaves s .here)
  | call f args ih =>
    obtain ⟨hbuilt, -⟩ := builtOver_call.1 he
    refine call_of_forall₂ ?_ (List.forall₂_same.2 fun a ha => ?_)
    · match f with
      | .element op => exact .element op
      | .historical op keys => exact .historical op (hcontexts op keys args .here)
    · exact ih a ha (hbuilt a ha) (fun s hs => hleaves s (.arg ha hs))
        fun op keys args' h => hcontexts op keys args' (.arg ha h)
  | custom node inner _ =>
    exact (builtOver_custom.1 he).elim

theorem kind_eq (h : SameShape leaves contexts e e') : e'.kind = e.kind := by
  cases h with
  | literal l => rfl
  | series _ => rfl
  | call hf _ _ => simp only [kind, Function.result, Function.row, hf.operation_eq]

theorem exists_comparison (h : SameShape leaves contexts e e') (c : Comparison Expr)
    (hc : e.asComparison = .ok c) : ∃ c', e'.asComparison = .ok c' := by
  cases h with
  | literal l => cases hc
  | series _ => cases hc
  | @call f f' args args' hf hlength _ =>
    obtain ⟨rfl, rfl⟩ := asComparison_call.1 hc
    generalize c.relation = r at hf
    cases hf with
    | element =>
      match args', hlength with
      | [left', right'], _ => exact ⟨⟨r, left', right'⟩, asComparison_call.2 ⟨rfl, rfl⟩⟩

private theorem exists_zip {α β : Type} {xs : List α} {ys : List β} (h : xs.length = ys.length)
    {index : Nat} {y : β} (hy : ys[index]? = some y) :
    ∃ x, xs[index]? = some x ∧ (x, y) ∈ xs.zip ys := by
  obtain ⟨hindex, rfl⟩ := List.getElem?_eq_some_iff.1 hy
  have hzip : index < (xs.zip ys).length := by rw [List.length_zip]; omega
  refine ⟨xs[index], List.getElem?_eq_getElem _, ?_⟩
  rw [← List.getElem_zip (h := hzip)]
  exact List.getElem_mem hzip

/-- Calls that pass their checks still do with other series and contexts. -/
theorem built (h : SameShape leaves contexts e e') (he : e.Built) : e'.Built := by
  induction h with
  | literal l => exact .literal l
  | series _ => exact .series _
  | @call f f' args args' hf hlength hargs ih =>
    obtain ⟨hbuilt, hv⟩ := builtOver_call.1 he
    refine builtOver_call.2 ⟨fun a' ha' => ?_, ?_⟩
    · obtain ⟨index, hindex⟩ := List.getElem?_of_mem ha'
      obtain ⟨a, ha, hzip⟩ := exists_zip hlength hindex
      exact ih a a' hzip (hbuilt a (List.mem_of_getElem? ha))
    · refine Function.validate_congr hf.operation_eq hlength.symm (fun index arg' _ harg' => ?_) hv
      obtain ⟨arg, harg, hzip⟩ := exists_zip hlength harg'
      exact ⟨arg, harg, (hargs arg arg' hzip).exists_comparison⟩

/-- Trees of one shape agree when their leaves and their historical calls do. -/
theorem agree {C : Correspondence M.Key M'.Key}
    (hleaves : ∀ s s', leaves s s' → C.Outcomes (s.compile M) (s'.compile M'))
    (hcontexts : ∀ op keys keys', contexts keys keys' →
      Function.Agree C (.historical op keys) (.historical op keys'))
    (h : SameShape leaves contexts e e') (he : e.Built) (he' : e'.Built) :
    Expr.Agree C e e' := by
  induction h with
  | literal l => exact .of_literal (.ok (Compiled.agree_constant fun _ => rfl))
  | series hs => exact ⟨hleaves _ _ hs, fun _ _ hc => by cases hc⟩
  | @call f f' args args' hf hlength _ ih =>
    obtain ⟨hbuilt, hv⟩ := builtOver_call.1 he
    obtain ⟨hbuilt', hv'⟩ := builtOver_call.1 he'
    refine call_agree ?_ hv hv' (List.forall₂_iff_zip.2 ⟨hlength, fun {a a'} hzip => ?_⟩)
    · cases hf with
      | element op => exact .element op
      | historical op hkeys => exact hcontexts op _ _ hkeys
    · obtain ⟨ha, ha'⟩ := List.of_mem_zip hzip
      exact ih a a' hzip (hbuilt a ha) (hbuilt' a' ha')

/-- Trees of one shape compile under the key models of their leaves and contexts,
    to the same kind, and have the same value at related keys. -/
theorem exists_compile (M M' : KeyModel) {R : M.Key → M'.Key → Prop}
    (hleaves : ∀ s s', leaves s s' →
      (Correspondence.along R).Outcomes (s.compile M) (s'.compile M'))
    (hcontexts : ∀ keys keys', contexts keys keys' →
      ∃ h h', keys.history? M = some h ∧ keys'.history? M' = some h' ∧
        ∀ k k', R k k' → History.Agree (.along R) (h k) (h' k'))
    (h : SameShape leaves contexts e e') (he : e.Built) :
    ∃ c c', e.compile M = .ok c ∧ e'.compile M' = .ok c' ∧ c.kind = c'.kind ∧
      ∀ k k', R k k' → ∃ v, c.valueAt k = pure v ∧ c'.valueAt k' = pure v := by
  have he' := h.built he
  have hagree : Expr.Agree (.along R) e e' := by
    refine h.agree hleaves (fun op keys keys' hkeys => ?_) he he'
    obtain ⟨history, history', hkeys, hkeys', hh⟩ := hcontexts keys keys' hkeys
    refine .historical ?_ ?_ ?_
    · rintro rfl
      cases hkeys
    · rintro rfl
      cases hkeys'
    · simp only [Function.history, hkeys, hkeys']
      exact .ok fun hk => hh _ _ hk
  obtain ⟨c, c', hc, hc', hcompiled⟩ := hagree.outcomes.exists_ok
  have hkind : c.kind = c'.kind := by
    rw [he.kind_of_compile hc, he'.kind_of_compile hc', h.kind_eq]
  exact ⟨c, c', hc, hc', hkind, fun k k' hk => hcompiled.exists_pure hkind hk⟩

end SameShape

end Expr

end Lookback
