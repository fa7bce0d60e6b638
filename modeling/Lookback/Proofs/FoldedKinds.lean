-- SUMMARY: Kinds after folding: every node keeps its kind and its evaluator, but for definite three-valued constants, which become two-valued literals.
import Lookback.Proofs.Wrappers

/-!
# Kinds after folding

The kind of a folded call is read off the literal that its value is made into. A literal says
the kind of its value, with one exception: a definite three-valued value has no literal of its
own and is written as the two-valued boolean. So a constant that is three-valued and known
changes its kind in folding. Nothing else does, neither the root nor a node at any position
that is left below it. Where the kind is kept, so is the evaluator in that kind.

Positions are paths of argument indices (`Expr.node?`). Folding keeps the paths of all nodes
that remain (`FoldsTo.exists_node`).
-/

namespace Lookback

namespace Literal

/-- The one sort of value that is not of the kind of its literal. -/
theorem kind_ofValue (v : Value) :
    (ofValue v).kind = v.kind ∨ ∃ b, v = ⟨.nullable, some b⟩ := by
  obtain ⟨kind, x⟩ := v
  match kind, x with
  | .double, x => exact .inl rfl
  | .integer, n => exact .inl rfl
  | .boolean, b => exact .inl rfl
  | .nullable, none => exact .inl rfl
  | .nullable, some b => exact .inr ⟨b, rfl⟩

/-- No literal stands for a definite three-valued value. -/
theorem value_ne_definite (l : Literal) (b : Bool) : l.value ≠ ⟨.nullable, some b⟩ := by
  cases l with
  | double x => exact fun h => by cases h
  | integer n => exact fun h => by cases h
  | boolean b' => exact fun h => by cases h
  | null => exact fun h => by cases h

end Literal

namespace Expr

/-! ## Values -/

theorem HasValue.unique {e : Expr} {v v' : Value} (hv : e.HasValue v) (hv' : e.HasValue v') :
    v = v' := by
  obtain ⟨c, hc, -, hvalue⟩ := hv .keyless
  obtain ⟨c', hc', -, hvalue'⟩ := hv' .keyless
  obtain rfl : c = c' := Except.ok.inj (hc.symm.trans hc')
  exact congrArg Traced.value ((hvalue ()).symm.trans (hvalue' ()))

theorem HasValue.congr {e e' : Expr} {v : Value} (hv : e.HasValue v)
    (h : ∀ M, e'.compile M = e.compile M) : e'.HasValue v :=
  fun M => by rw [h]; exact hv M

theorem hasValue_literal (l : Literal) : (literal l).HasValue l.value :=
  fun _ => ⟨.constant l.value, rfl, rfl, fun _ => rfl⟩

theorem Built.kind_of_hasValue {e : Expr} (he : e.Built) {v : Value} (hv : e.HasValue v) :
    e.kind = v.kind := by
  obtain ⟨c, hc, hkind, -⟩ := hv .keyless
  rw [← he.kind_of_compile hc, hkind]

theorem Built.isConstant_of_hasValue {e : Expr} (he : e.Built) {v : Value} (hv : e.HasValue v) :
    e.isConstant = true := by
  obtain ⟨c, hc, -⟩ := hv .keyless
  exact he.isConstant_of_compile_keyless hc

/-! ## Native kinds -/

/-- Asking for the declared kind asks for nothing new. -/
theorem Built.compileTo_kind {e : Expr} (he : e.Built) (M : KeyModel) :
    e.compileTo M e.kind = e.compile M := by
  rw [compileTo]
  cases hc : e.compile M with
  | error error => rfl
  | ok c =>
    rw [← he.kind_of_compile hc]
    exact congrArg Except.ok c.toKind_kind

/-- Expressions that agree and declare one kind compile to the same evaluator. -/
theorem Agree.compile_eq {e e' : Expr} {M : KeyModel} (h : Agree (.identity M.Key) e e')
    (he : e.Built) (he' : e'.Built) (hkind : e'.kind = e.kind) :
    e'.compile M = e.compile M := by
  calc e'.compile M
      = e'.compileTo M e.kind := by rw [← hkind, he'.compileTo_kind]
    _ = e.compileTo M e.kind := (h.compileTo_eq e.kind).symm
    _ = e.compile M := he.compileTo_kind M

/-! ## What a node becomes -/

/-- Nothing is given up in a tree without user-defined nodes. -/
theorem Built.bared_eq {e : Expr} (he : e.Built) : e.bared = e :=
  bared_eq_self_iff.2 fun _ _ hoccurs => (Built.not_custom (Built.of_occurs he hoccurs)).elim

theorem FoldsTo.built {e e' : Expr} (h : FoldsTo e e') (he : e.Built) : e'.Built := by
  induction h with
  | literal l => exact .literal l
  | series s => exact .series s
  | @call f args args' hlength _ hv' ih =>
    obtain ⟨hargs, -⟩ := builtOver_call.1 he
    refine builtOver_call.2 ⟨fun a' ha' => ?_, hv'⟩
    obtain ⟨index, hindex⟩ := List.getElem?_of_mem ha'
    obtain ⟨a, ha⟩ := exists_getElem? hlength hindex
    exact ih index a a' ha hindex (hargs a (List.mem_of_getElem? ha))
  | value => exact .literal _
  | kept => exact (Built.not_custom he).elim
  | givenUp => exact (Built.not_custom he).elim

/-- Of the same kind and with the same evaluators. -/
structure SameNative (e e' : Expr) : Prop where
  kind_eq : e'.kind = e.kind
  compile_eq : ∀ M, e'.compile M = e.compile M

theorem FoldsTo.sameNative_of_kind_eq {e e' : Expr} (h : FoldsTo e e') (he : e.Built)
    (hkind : e'.kind = e.kind) : SameNative e e' :=
  ⟨hkind, fun M => (he.bared_eq ▸ h.agree he.wrapped M).compile_eq he (h.built he) hkind⟩

/-- What is a call after folding was one of the same function. -/
theorem FoldsTo.sameNative_of_call {e : Expr} {f : Function} {args' : List Expr}
    (h : FoldsTo e (.call f args')) (he : e.Built) : SameNative e (.call f args') := by
  refine h.sameNative_of_kind_eq he ?_
  cases h with
  | call => rfl
  | givenUp => exact (Built.not_custom he).elim

/-- A node stays as it is natively, or was a definite three-valued constant. -/
theorem FoldsTo.sameNative_or {e e' : Expr} (h : FoldsTo e e') (he : e.Built) :
    SameNative e e' ∨ ∃ b, e.HasValue ⟨.nullable, some b⟩ ∧ e' = .literal (.boolean b) := by
  have hsame : e'.kind = e.kind → SameNative e e' := h.sameNative_of_kind_eq he
  cases h with
  | literal l => exact .inl (hsame rfl)
  | series s => exact .inl (hsame rfl)
  | call _ _ _ => exact .inl (hsame rfl)
  | @value _ e'' v hfolds hnatural hbuilt hv =>
    obtain ⟨f, args', rfl, -⟩ := hnatural
    have hcall : SameNative e (.call f args') := hfolds.sameNative_of_call he
    rcases Literal.kind_ofValue v with hkind | ⟨b, rfl⟩
    · refine .inl (hsame ?_)
      calc (Expr.literal (.ofValue v)).kind
          = v.kind := hkind
        _ = (Expr.call f args').kind := (hbuilt.kind_of_hasValue hv).symm
        _ = e.kind := hcall.kind_eq
    · exact .inr ⟨b, hv.congr fun M => (hcall.compile_eq M).symm, rfl⟩
  | kept _ => exact (Built.not_custom he).elim
  | givenUp _ _ => exact (Built.not_custom he).elim

/-! ## Positions -/

/-- The node at the end of a path of argument indices. -/
def node? : Expr → List Nat → Option Expr
  | e, [] => some e
  | e, index :: path => e.args[index]?.bind (node? · path)

/-- Folding leaves every node that remains in its place. -/
theorem FoldsTo.exists_node {e e' : Expr} (h : FoldsTo e e') (he : e.Built) {path : List Nat}
    {x' : Expr} (hx' : e'.node? path = some x') :
    ∃ x, e.node? path = some x ∧ x.Built ∧ FoldsTo x x' := by
  induction path generalizing e e' with
  | nil =>
    obtain rfl := Option.some.inj hx'
    exact ⟨e, rfl, he, h⟩
  | cons index path ih =>
    simp only [node?, Option.bind_eq_some_iff] at hx' ⊢
    obtain ⟨a', ha', hx'⟩ := hx'
    cases h with
    | literal l => cases ha'
    | series s => cases ha'
    | @call f args args' hlength hargs _ =>
      obtain ⟨a, ha⟩ := exists_getElem? hlength ha'
      have hbuilt : a.Built := (builtOver_call.1 he).1 a (List.mem_of_getElem? ha)
      obtain ⟨x, hx, hfolds⟩ := ih (hargs index a a' ha ha') hbuilt hx'
      exact ⟨x, ⟨a, ha, hx⟩, hfolds⟩
    | value => cases ha'
    | kept => exact (Built.not_custom he).elim
    | givenUp => exact (Built.not_custom he).elim

/-! ## All together -/

/-- Folding a tree of literals, series and calls succeeds. Every node of what it returns stands
    where the node was that it has come from. It is of the same kind and compiles to the same
    evaluator, or it is the two-valued literal of a three-valued constant that is known. The
    root in particular changes its kind just when it is such a constant. -/
theorem Built.foldConstants_kind {e : Expr} (he : e.Built) :
    ∃ r, e.foldConstants = pure (.ok r) ∧
      (∀ path x', r.expr.node? path = some x' → ∃ x, e.node? path = some x ∧
        (SameNative x x' ∨ ∃ b, x.HasValue ⟨.nullable, some b⟩ ∧ x' = .literal (.boolean b))) ∧
      ((¬ ∃ b, e.HasValue ⟨.nullable, some b⟩) →
        r.expr.kind = e.kind ∧ ∀ M, r.expr.compile M = e.compile M) ∧
      ∀ b, e.HasValue ⟨.nullable, some b⟩ →
        e.kind = .nullable ∧ r.expr = .literal (.boolean b) := by
  obtain ⟨r, hr, hrewritten, -⟩ := he.wrapped.exists_foldConstants
  have hfolds : FoldsTo e r.expr := hrewritten.foldsTo
  refine ⟨r, hr, fun path x' hx' => ?_, fun hother => ?_, fun b hv => ?_⟩
  · obtain ⟨x, hx, hbuilt, hnode⟩ := hfolds.exists_node he hx'
    exact ⟨x, hx, hnode.sameNative_or hbuilt⟩
  · rcases hfolds.sameNative_or he with hsame | ⟨b, hv, -⟩
    · exact ⟨hsame.kind_eq, hsame.compile_eq⟩
    · exact (hother ⟨b, hv⟩).elim
  · refine ⟨he.kind_of_hasValue hv, ?_⟩
    rcases hfolds.sameNative_or he with hsame | ⟨b', hv', hliteral⟩
    · -- The root is a constant, so it has become a literal, and no literal has this value.
      obtain ⟨r', hr', -, hconstant, -⟩ := he.foldConstants_normalForm
      obtain rfl : r = r' := Except.ok.inj (congrArg Traced.value (hr.symm.trans hr'))
      obtain ⟨l, hl⟩ := hconstant.2 (he.isConstant_of_hasValue hv)
      have hvalue : (literal l).HasValue ⟨.nullable, some b⟩ := hl ▸ hv.congr hsame.compile_eq
      exact (l.value_ne_definite b ((hasValue_literal l).unique hvalue)).elim
    · cases hv.unique hv'
      exact hliteral

/-- The first operand of a sum becomes a two-valued literal. The sum stays as it is. -/
theorem Built.foldConstants_kind_sum :
    let x : Expr := .series (.undated "x" #[1, 2])
    let add (left right : Expr) : Expr := .call (.element (.arithmetic .add)) [left, right]
    let known : Expr := .call (.element .not) [.literal (.boolean false)]
    let e : Expr := add known x
    let folded : Expr := add (.literal (.boolean true)) x
    e.Built ∧ e.foldConstants = pure (.ok ⟨folded, 1, true⟩) ∧
      (¬ ∃ b, e.HasValue ⟨.nullable, some b⟩) ∧ folded.kind = e.kind ∧
      (∀ M, folded.compile M = e.compile M) ∧
      e.node? [0] = some known ∧ ∃ b, known.HasValue ⟨.nullable, some b⟩ := by
  intro x add known e folded
  have hknown : known.Built := builtOver_call.2 ⟨by simp [BuiltOver.literal], rfl⟩
  have he : e.Built := builtOver_call.2 ⟨by simp [x, BuiltOver.series, hknown], rfl⟩
  have hother : ¬ ∃ b, e.HasValue ⟨.nullable, some b⟩ := by
    rintro ⟨b, hv⟩
    cases he.kind_of_hasValue hv
  obtain ⟨r, hr, hnodes, hroot, -⟩ := he.foldConstants_kind
  have hfolds : e.foldConstants = pure (.ok ⟨folded, 1, true⟩) := rfl
  obtain rfl : r = ⟨folded, 1, true⟩ := Except.ok.inj (congrArg Traced.value (hr.symm.trans hfolds))
  obtain ⟨hkind, hcompile⟩ := hroot hother
  refine ⟨he, hfolds, hother, hkind, hcompile, rfl, ?_⟩
  obtain ⟨a, ha, hsame | ⟨b, hv, -⟩⟩ := hnodes [0] (.literal (.boolean true)) rfl
  · obtain rfl : known = a := Option.some.inj ha
    cases hsame.kind_eq
  · obtain rfl : known = a := Option.some.inj ha
    exact ⟨b, hv⟩

/-- The negation of a known truth value folds to a literal of another kind, and compiles to
    another one under every key model. -/
theorem Built.foldConstants_kind_definite :
    let e : Expr := .call (.element .not) [.literal (.boolean false)]
    let folded : Expr := .literal (.boolean true)
    e.Built ∧ e.foldConstants = pure (.ok ⟨folded, 1, true⟩) ∧
      e.kind = .nullable ∧ folded.kind = .boolean ∧
      ∀ M, (e.compile M).map Compiled.kind = .ok .nullable ∧
        (folded.compile M).map Compiled.kind = .ok .boolean :=
  ⟨builtOver_call.2 ⟨by simp [BuiltOver.literal], rfl⟩, rfl, rfl, rfl, fun _ => ⟨rfl, rfl⟩⟩

end Expr

end Lookback
