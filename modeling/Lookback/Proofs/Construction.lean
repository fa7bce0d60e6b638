-- SUMMARY: Expressions made of calls that passed their checks: induction over them, what the checks establish, and how such calls compile.
import Lookback.Lowering
import Lookback.Proofs.Correspondence

/-!
# Construction of expressions

A call exists only after `Function.call` has checked its arguments. `BuiltOver`
says this of a whole tree, `Built` of a tree without user-defined nodes.

The checks give compilation what it needs. Every argument has a parameter, so
none is left out, and the argument of a swept function can be read as a
comparison. The lemmas `Function.compile_element`, `compile_window` and
`compile_swept` say how calls compile after the checks; no other proof opens the
lowering.
-/

namespace Lookback

/-! ## Induction -/

namespace Expr

/-- Induction over expressions; at a call the statement holds of all arguments. -/
@[elab_as_elim, induction_eliminator]
theorem induction {motive : Expr → Prop} (literal : ∀ l, motive (.literal l))
    (series : ∀ s, motive (.series s))
    (call : ∀ f args, (∀ a ∈ args, motive a) → motive (.call f args))
    (custom : ∀ node inner, motive inner → motive (.custom node inner)) : ∀ e, motive e
  | .literal l => literal l
  | .series s => series s
  | .call f args => call f args fun a _ => induction literal series call custom a
  | .custom node inner => custom node inner (induction literal series call custom inner)

/-- `x` is the expression itself or somewhere below it. -/
inductive Occurs (x : Expr) : Expr → Prop where
  | here : Occurs x x
  | arg {f args a} : a ∈ args → Occurs x a → Occurs x (.call f args)
  | inner {node e} : Occurs x e → Occurs x (.custom node e)

theorem Occurs.trans {x y e : Expr} (hx : Occurs x y) (hy : Occurs y e) : Occurs x e := by
  induction hy with
  | here => exact hx
  | arg ha _ ih => exact .arg ha ih
  | inner _ ih => exact .inner ih

@[simp] theorem occurs_literal {x : Expr} {l : Literal} :
    Occurs x (.literal l) ↔ x = .literal l :=
  ⟨fun h => by cases h; rfl, fun h => h ▸ .here⟩

@[simp] theorem occurs_series {x : Expr} {s : Series} : Occurs x (.series s) ↔ x = .series s :=
  ⟨fun h => by cases h; rfl, fun h => h ▸ .here⟩

@[simp] theorem occurs_call {x : Expr} {f : Function} {args : List Expr} :
    Occurs x (.call f args) ↔ x = .call f args ∨ ∃ a ∈ args, Occurs x a := by
  constructor
  · rintro (_ | ⟨ha, h⟩)
    · exact .inl rfl
    · exact .inr ⟨_, ha, h⟩
  · rintro (rfl | ⟨a, ha, h⟩)
    · exact .here
    · exact .arg ha h

/-- Built from literals, series, calls that passed their checks, and user-defined
    nodes of the sort `leaf`. -/
inductive BuiltOver (leaf : CustomNode → Expr → Prop) : Expr → Prop where
  | literal (l) : BuiltOver leaf (.literal l)
  | series (s) : BuiltOver leaf (.series s)
  | call {f : Function} {args e} :
      (∀ a ∈ args, BuiltOver leaf a) → f.call args = .ok e → BuiltOver leaf e
  | leaf {node inner} : leaf node inner → BuiltOver leaf (.custom node inner)

/-- Built from literals, series and calls that passed their checks. -/
abbrev Built : Expr → Prop := BuiltOver fun _ _ => False

end Expr

/-! ## What the checks establish -/

namespace Function

theorem call_eq_ok {f : Function} {args : List Expr} {e : Expr} :
    f.call args = .ok e ↔ f.validate args = .ok () ∧ e = .call f args := by
  unfold call
  cases f.validate args with
  | error error => simp [bind, Except.bind]
  | ok _ => simp [bind, Except.bind, pure, Except.pure, eq_comm]

/-- The number of arguments fits, and the argument that has to be a comparison is
    one. -/
theorem validate_eq_ok {f : Function} {args : List Expr} :
    f.validate args = .ok () ↔ f.arity.accepts args.length = true ∧
      ∀ index arg, f.comparisonArgument? = some index → args[index]? = some arg →
        ∃ comparison, arg.asComparison = .ok comparison := by
  unfold validate Arity.check
  cases haccepts : f.arity.accepts args.length with
  | false => simp [bind, Except.bind]
  | true =>
    cases hindex : f.comparisonArgument? with
    | none => simp [bind, Except.bind, pure, Except.pure]
    | some index =>
      simp only [bind, Except.bind, pure, Except.pure, if_true, true_and]
      constructor
      · intro h index' arg hindex' harg
        obtain rfl := Option.some.inj hindex'
        simp only [harg] at h
        cases hshape : arg.asComparison with
        | error source => simp [hshape, throw, throwThe, MonadExceptOf.throw] at h
        | ok comparison => exact ⟨comparison, rfl⟩
      · intro h
        cases harg : args[index]? with
        | none => rfl
        | some arg =>
          obtain ⟨comparison, hshape⟩ := h index arg rfl harg
          simp only [hshape]

/-- The checks ask for the operation, the number of arguments, and a comparison where
    there has to be one. Neither the context nor anything below a comparison matters. -/
theorem validate_congr {f f' : Function} {args args' : List Expr}
    (hop : f'.operation = f.operation) (hlength : args'.length = args.length)
    (hshape : ∀ (index : Nat) (arg' : Expr), f.comparisonArgument? = some index →
      args'[index]? = some arg' → ∃ arg : Expr, args[index]? = some arg ∧
        ∀ c, arg.asComparison = .ok c → ∃ c', arg'.asComparison = .ok c')
    (hv : f.validate args = .ok ()) : f'.validate args' = .ok () := by
  obtain ⟨haccepts, hcomparison⟩ := validate_eq_ok.1 hv
  refine validate_eq_ok.2 ⟨?_, fun index arg' hindex harg' => ?_⟩
  · simp only [arity, parameters, row, hop, hlength]
    exact haccepts
  · simp only [comparisonArgument?, hop] at hindex
    obtain ⟨arg, harg, htransfer⟩ := hshape index arg' hindex harg'
    obtain ⟨c, hc⟩ := hcomparison index arg hindex harg
    exact htransfer c hc

/-- Arguments that pass the checks all have a parameter. -/
theorem usedArguments_eq {α : Type} {f : Function} {args : List α}
    (h : f.arity.accepts args.length = true) : f.usedArguments args = args := by
  unfold usedArguments
  split
  · rfl
  · rename_i hvarargs
    simp only [arity, Arity.ofParameters, Arity.isVarargs, Arity.accepts] at h hvarargs
    split at h
    · rename_i hany
      simp [hany] at hvarargs
    · simp only [Option.all_some, Bool.and_eq_true, decide_eq_true_eq] at h
      exact List.take_of_length_le h.2

@[simp] theorem arity_swept (side : Side) (quantifier : Quantifier) (keys : PreviousKeys) :
    (historical (.swept side quantifier) keys).arity = ⟨2, some 2⟩ := by
  cases side <;> cases quantifier <;> rfl

/-- The arguments of a swept function are its count and a comparison. -/
theorem exists_of_validate_swept {side : Side} {quantifier : Quantifier} {keys : PreviousKeys}
    {args : List Expr}
    (h : (historical (.swept side quantifier) keys).validate args = .ok ()) :
    ∃ count arg comparison, args = [count, arg] ∧ arg.asComparison = .ok comparison := by
  obtain ⟨haccepts, hshape⟩ := validate_eq_ok.1 h
  have hlength : args.length = 2 := by
    simp only [arity_swept, Arity.accepts, Option.all_some, Bool.and_eq_true,
      decide_eq_true_eq] at haccepts
    omega
  match args, hlength with
  | [count, arg], _ =>
    obtain ⟨comparison, hcomparison⟩ := hshape 1 arg rfl rfl
    exact ⟨count, arg, comparison, rfl, hcomparison⟩

end Function

namespace Expr

theorem builtOver_call {leaf : CustomNode → Expr → Prop} {f : Function} {args : List Expr} :
    BuiltOver leaf (.call f args) ↔ (∀ a ∈ args, BuiltOver leaf a) ∧ f.validate args = .ok () := by
  constructor
  · intro h
    cases h with
    | call hargs hcall =>
      obtain ⟨hv, he⟩ := Function.call_eq_ok.1 hcall
      cases he
      exact ⟨hargs, hv⟩
  · rintro ⟨hargs, hv⟩
    exact .call hargs (Function.call_eq_ok.2 ⟨hv, rfl⟩)

theorem builtOver_custom {leaf : CustomNode → Expr → Prop} {node : CustomNode} {inner : Expr} :
    BuiltOver leaf (.custom node inner) ↔ leaf node inner := by
  constructor
  · intro h
    cases h with
    | call _ hcall => cases (Function.call_eq_ok.1 hcall).2
    | leaf hleaf => exact hleaf
  · exact .leaf

end Expr

/-! ## Lowered trees -/

namespace Comparison

variable {α β : Type}

/-- The same relation between the images of the operands. -/
def map (g : α → β) (c : Comparison α) : Comparison β := ⟨c.relation, g c.left, g c.right⟩

/-- Whether a call reads as a comparison does not depend on what its arguments are. -/
theorem ofCall_map (kind : Kind) (call? : Option (Function × List α)) (g : α → β) :
    ofCall kind (call?.map fun call => (call.1, call.2.map g)) =
      (ofCall kind call?).map (Comparison.map g) := by
  match call? with
  | none => rfl
  | some (f, args) =>
    simp only [ofCall, Option.map_some]
    cases f.relation? with
    | none => rfl
    | some relation =>
      match args with
      | [] => rfl
      | [_] => rfl
      | [left, right] =>
        simp only [List.map_cons, List.map_nil]
        cases kind.isBoolean <;> rfl
      | _ :: _ :: _ :: _ =>
        simp only [List.map_cons, List.length_cons, List.length_map]
        rfl

end Comparison

namespace Expr

theorem loweredAll_eq (M : KeyModel) (es : List Expr) : loweredAll M es = es.map (lowered M) := by
  induction es with
  | nil => rfl
  | cons e es ih => simp only [loweredAll, List.map_cons, ih]

@[simp] theorem lowered_kind (M : KeyModel) (e : Expr) : (e.lowered M).kind = e.kind := by
  induction e with
  | literal l => rfl
  | series s => rfl
  | call f args _ => rfl
  | custom node inner ih => simp only [lowered, kind, ih]

@[simp] theorem lowered_compiled (M : KeyModel) (e : Expr) :
    (e.lowered M).compiled = e.compile M := rfl

theorem lowered_call? (M : KeyModel) (e : Expr) :
    (e.lowered M).call? = e.asCall?.map fun call => (call.1, call.2.map (compile M)) := by
  induction e with
  | literal l => rfl
  | series s => rfl
  | call f args _ =>
    simp only [lowered, asCall?, Option.map_some, loweredAll_eq, List.map_map]
    rfl
  | custom node inner ih =>
    simp only [lowered, asCall?]
    split
    · exact ih
    · rfl

/-- A lowered node reads as the comparison that the expression is. -/
theorem ofCall_lowered (M : KeyModel) (e : Expr) :
    Comparison.ofCall (e.lowered M).kind (e.lowered M).call? =
      e.asComparison.map (Comparison.map (compile M)) := by
  rw [lowered_kind, lowered_call?, Comparison.ofCall_map]
  rfl

@[simp] theorem compile_literal (M : KeyModel) (l : Literal) :
    (literal l).compile M = .ok (.constant l.value) := rfl

@[simp] theorem compile_series (M : KeyModel) (s : Series) :
    (series s).compile M = s.compile M := rfl

@[simp] theorem compile_call (M : KeyModel) (f : Function) (args : List Expr) :
    (call f args).compile M = f.compile M args := rfl

private theorem mapM_compiled (M : KeyModel) (es : List Expr) :
    (es.map (lowered M)).mapM Lowered.compiled = es.mapM (compile M) := by
  rw [List.mapM_map]
  rfl

end Expr

/-! ## Compiling calls that passed their checks -/

namespace Function

variable (M : KeyModel)

theorem compile_element {op : ElementOp} {args : List Expr}
    (h : (element op).validate args = .ok ()) :
    (element op).compile M args = do
      let given ← args.mapM (Expr.compile M)
      return op.evaluator ⟨given, (element op).defaultArgument⟩ := by
  have haccepts := (validate_eq_ok.1 h).1
  simp only [compile, lower, Expr.loweredAll_eq]
  rw [usedArguments_eq (by simpa using haccepts), Expr.mapM_compiled]

/-- Without a key a historical function fails before it looks at its arguments. -/
theorem compile_historical_keyless (op : HistoryOp) (keys : PreviousKeys) (args : List Expr) :
    (historical op keys).compile .keyless args =
      .error (.unsupported (historical op keys).name .keyless .historyNeedsKey) := by
  cases op <;> rfl

theorem compile_window {op : WindowOp} {keys : PreviousKeys} {args : List Expr}
    (h : (historical (.window op) keys).validate args = .ok ()) :
    (historical (.window op) keys).compile M args = do
      if M = .keyless then
        throw (.unsupported (historical (.window op) keys).name M .historyNeedsKey)
      let given ← args.mapM (Expr.compile M)
      let history ← (historical (.window op) keys).history keys M
      return op.evaluator history ⟨given, (historical (.window op) keys).defaultArgument⟩ := by
  have haccepts := (validate_eq_ok.1 h).1
  simp only [compile, lower, Expr.loweredAll_eq]
  rw [usedArguments_eq (by simpa using haccepts), Expr.mapM_compiled]

/-- Under a context that serves the key model an operation compiles from its arguments. -/
theorem compile_window_of_serves {M : KeyModel} {histories : M.Key → History M.Key}
    {keys : PreviousKeys} (hM : keys.history? M = some histories) {op : WindowOp}
    {args : List Expr} {given : List (Compiled M.Key)}
    (hv : (historical (.window op) keys).validate args = .ok ())
    (hgiven : args.mapM (Expr.compile M) = .ok given) :
    (historical (.window op) keys).compile M args =
      .ok (op.evaluator histories ⟨given, (historical (.window op) keys).defaultArgument⟩) := by
  have hkeyed : M ≠ .keyless := PreviousKeys.ne_keyless hM
  rw [compile_window M hv, if_neg hkeyed, hgiven]
  simp only [history, hM]
  rfl

theorem compile_swept {side : Side} {quantifier : Quantifier} {keys : PreviousKeys}
    {count arg : Expr} {comparison : Comparison Expr}
    (h : arg.asComparison = .ok comparison) :
    (historical (.swept side quantifier) keys).compile M [count, arg] = do
      if M = .keyless then
        throw (.unsupported (historical (.swept side quantifier) keys).name M .historyNeedsKey)
      let count ← count.compile M
      let left ← comparison.left.compile M
      let right ← comparison.right.compile M
      let history ← (historical (.swept side quantifier) keys).history keys M
      return HistoryOp.sweptEvaluator history side quantifier count.toDouble
        ⟨comparison.relation, left.toDouble, right.toDouble⟩ := by
  have hread := Expr.ofCall_lowered M arg
  simp only [h, Except.map] at hread
  simp only [compile, lower, Expr.loweredAll_eq, List.map_cons, List.map_nil, List.take_succ_cons,
    List.take_zero, List.mapM_cons, List.mapM_nil, comparisonAt, List.getElem?_cons_succ,
    List.getElem?_cons_zero, hread, Expr.lowered_compiled, bind_assoc, pure_bind]
  rfl

end Function

/-! ## Kinds -/

theorem ElementOp.kind_evaluator {K : Type} (op : ElementOp) (o : Operands K) :
    (op.evaluator o).kind = op.row.result := by
  cases op with
  | arithmetic op => cases op <;> rfl
  | extremum which => cases which <;> rfl
  | relation r => cases r <;> rfl
  | _ => rfl

theorem WindowOp.kind_evaluator {K : Type} (op : WindowOp) (history : K → History K)
    (o : Operands K) : (op.evaluator history o).kind = op.row.result := by
  cases op with
  | quantified q => cases q <;> rfl
  | indexOf which => cases which <;> rfl
  | chained mode => cases mode <;> rfl
  | statistic s => cases s <;> rfl
  | _ => rfl

/-- A call compiles to the kind that its function declares. -/
theorem Function.kind_of_compile {M : KeyModel} {f : Function} {args : List Expr}
    {c : Compiled M.Key} (h : f.compile M args = .ok c) : c.kind = f.result := by
  match f with
  | .element op =>
    simp only [compile, lower, Except.bind_eq_ok] at h
    obtain ⟨given, -, hc⟩ := h
    rw [← Except.ok.inj hc]
    exact op.kind_evaluator _
  | .historical (.window op) keys =>
    simp only [compile, lower] at h
    split at h
    · cases h
    · simp only [Except.bind_eq_ok] at h
      obtain ⟨given, -, history, -, hc⟩ := h
      rw [← Except.ok.inj hc]
      exact op.kind_evaluator _ _
  | .historical (.swept side quantifier) keys =>
    simp only [compile, lower] at h
    split at h
    · cases h
    · simp only [Except.bind_eq_ok] at h
      obtain ⟨given, -, comparison, -, left, -, right, -, history, -, hc⟩ := h
      rw [← Except.ok.inj hc]
      cases side <;> cases quantifier <;> rfl

/-- Without user-defined nodes an expression compiles to the kind it declares. -/
theorem Expr.Built.kind_of_compile {M : KeyModel} {e : Expr} (he : e.Built) {c : Compiled M.Key}
    (h : e.compile M = .ok c) : c.kind = e.kind := by
  cases he with
  | literal l =>
    obtain rfl := Except.ok.inj h
    rfl
  | series s =>
    cases M with
    | keyless => cases h
    | bar =>
      obtain rfl := Except.ok.inj h
      rfl
    | date =>
      simp only [compile_series, Series.compile] at h
      split at h
      · cases h
      · obtain rfl := Except.ok.inj h
        rfl
  | call _ hcall =>
    obtain ⟨-, rfl⟩ := Function.call_eq_ok.1 hcall
    exact Function.kind_of_compile h
  | leaf hleaf => exact hleaf.elim

end Lookback
