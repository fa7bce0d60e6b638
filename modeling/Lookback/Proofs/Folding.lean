-- SUMMARY: Constant folding is sound: it never fails, visits nothing, and its result compiles like the expression it was given.
import Lookback.Folding
import Lookback.Proofs.Constancy

/-!
# Soundness of constant folding

Folding evaluates constant calls without a key, and their literals are later used
under other key models. This is sound because a constant expression has one value
everywhere (`Built.exists_value`), and because a literal reads like the value it
was made from in every kind (`Literal.convert_ofValue`), although its native kind
may be another one.

User-defined nodes are left alone as long as they show no call and declare that
their value depends on the key (`OpaqueLeaf`). `StandsFor` is what folding
preserves, and `foldWithin_sound`, `settle_sound` and `fold_sound` follow the
three functions that fold.
-/

namespace Lookback

/-! ## Constants as literals -/

/-- The literal of a value reads like the value in every kind. -/
theorem Literal.convert_ofValue (v : Value) (target : Kind) :
    v.kind.convert target v.content =
      (ofValue v).value.kind.convert target (ofValue v).value.content := by
  obtain ⟨kind, x⟩ := v
  match kind, x with
  | .double, x => rfl
  | .integer, n => rfl
  | .boolean, b => rfl
  | .nullable, some b => cases target <;> rfl
  | .nullable, none => rfl

namespace Compiled

variable {K : Type}

theorem coerced_eq_pure {c : Compiled K} {key : K} {v : Value} (h : c.valueAt key = pure v)
    (target : Kind) : c.coerced target key = pure (v.kind.convert target v.content) := by
  obtain ⟨kind, f⟩ := c
  have hvalue : Value.mk kind (f key).value = v := congrArg Traced.value h
  have hvisits : (f key).visits = [] := by simpa [valueAt] using congrArg Traced.visits h
  subst hvalue
  exact Traced.ext rfl (by simp only [coerced, Traced.visits_map, hvisits, Traced.visits_pure])

end Compiled

namespace Expr

/-- The value of an expression at every key of every key model, without a visit. -/
def HasValue (e : Expr) (v : Value) : Prop :=
  ∀ M : KeyModel, ∃ c, e.compile M = .ok c ∧ c.kind = v.kind ∧ ∀ key, c.valueAt key = pure v

theorem Built.constantValue_eq {e : Expr} (he : e.Built) {v : Value} (hv : e.HasValue v) :
    e.constantValue = .ok (pure (.ofValue v)) := by
  obtain ⟨c, hc, -, hvalue⟩ := hv .keyless
  have hkind : c.kind = e.kind := he.kind_of_compile hc
  have hto : e.compileTo .keyless e.kind = .ok c := by
    simp only [compileTo, hc, ← hkind]
    exact congrArg Except.ok c.toKind_kind
  rw [constantValue, hto]
  exact congrArg (fun evaluated => Except.ok (Literal.ofValue <$> evaluated)) (hvalue ())

theorem HasValue.agree_literal {e : Expr} {v : Value} (hv : e.HasValue v) (M : KeyModel) :
    Agree (.identity M.Key) e (.literal (.ofValue v)) := by
  obtain ⟨c, hc, -, hvalue⟩ := hv M
  refine .of_literal ?_
  rw [hc]
  refine .ok ?_
  intro target key key' _
  rw [Compiled.coerced_eq_pure (hvalue key) target, Literal.convert_ofValue]
  exact .pure _

/-- A constant expression evaluates to a literal that agrees with it under every key
    model. -/
theorem Built.exists_constantValue {e : Expr} (he : e.Built) (hconstant : e.isConstant = true) :
    ∃ l : Literal, e.constantValue = .ok (pure l) ∧
      ∀ M : KeyModel, Agree (.identity M.Key) e (.literal l) := by
  obtain ⟨v, hv⟩ : ∃ v, e.HasValue v := he.exists_value hconstant
  exact ⟨.ofValue v, he.constantValue_eq hv, hv.agree_literal⟩

/-! ## Leaves that folding leaves alone -/

/-- A user-defined node that shows no call and declares its value to depend on the key. -/
def OpaqueLeaf (node : CustomNode) (inner : Expr) : Prop :=
  node.exposesCall = false ∧ (custom node inner).isKeyDependent = true

theorem BuiltOver.built_of_isConstant {e : Expr} (he : BuiltOver OpaqueLeaf e)
    (hconstant : e.isConstant = true) : e.Built := by
  induction e with
  | literal l => exact .literal l
  | series s => exact .series s
  | call f args ih =>
    obtain ⟨hbuilt, hv⟩ := builtOver_call.1 he
    obtain ⟨-, hargs⟩ := isConstant_call.1 hconstant
    exact builtOver_call.2 ⟨fun a ha => ih a ha (hbuilt a ha) (hargs a ha), hv⟩
  | custom node inner _ =>
    obtain ⟨-, hdependent⟩ := builtOver_custom.1 he
    simp only [isConstant, hdependent] at hconstant
    cases hconstant

theorem BuiltOver.eq_call {e : Expr} (he : BuiltOver OpaqueLeaf e) {f : Function}
    {args : List Expr} (h : e.asCall? = some (f, args)) : e = .call f args := by
  match e with
  | .literal l => cases h
  | .series s => cases h
  | .call f' args' =>
    cases h
    rfl
  | .custom node inner =>
    obtain ⟨hexposes, -⟩ := builtOver_custom.1 he
    simp only [asCall?, hexposes] at h
    cases h

/-- `e'` can stand in the place of `e`. -/
structure StandsFor (e e' : Expr) : Prop where
  built : BuiltOver OpaqueLeaf e'
  agree : ∀ M : KeyModel, Agree (.identity M.Key) e e'

theorem StandsFor.refl {e : Expr} (he : BuiltOver OpaqueLeaf e) : StandsFor e e :=
  ⟨he, fun _ => .refl e⟩

/-! ## Folding -/

/-- Replacing a constant call by its literal changes nothing. -/
theorem settle_sound {e : Expr} {r : Folded} (h : StandsFor e r.expr) :
    ∃ r', settle r = pure r' ∧ StandsFor e r'.expr := by
  unfold settle
  split
  · exact ⟨r, rfl, h⟩
  · rename_i f args hcall
    split
    · rename_i hnatural
      have hconstant : r.expr.isConstant = true := by
        rw [h.built.eq_call hcall, isConstant, isKeyDependent, Bool.not_not]
        exact hnatural
      have hbuilt : r.expr.Built := h.built.built_of_isConstant hconstant
      obtain ⟨l, hl, hagree⟩ := hbuilt.exists_constantValue hconstant
      simp only [hl]
      refine ⟨⟨.literal l, r.folds + 1, true⟩, rfl, .literal l, fun M => .of_literal ?_⟩
      exact (h.agree M).outcomes.trans (hagree M).outcomes
    · exact ⟨r, rfl, h⟩

theorem foldArgs_cons (pinned : Option Nat) (position : Nat) (e : Expr) (es : List Expr) :
    foldArgs pinned position (e :: es) = do
      let within ← foldWithin e
      let r ← (if pinned = some position then pure within else settle within)
      let rs ← foldArgs pinned (position + 1) es
      return ⟨r.expr :: rs.args, r.folds + rs.folds, r.changed || rs.changed⟩ := by
  simp only [foldArgs]
  congr 1
  funext within
  split
  · simp only [pure_bind]
  · rfl

/-- Arguments stay in place, each standing for the one it was folded from. The pinned
    one stays a comparison if it was one. -/
theorem foldArgs_sound (pinned : Option Nat) {args : List Expr}
    (hargs : ∀ a ∈ args, ∃ r, foldWithin a = pure r ∧ StandsFor a r.expr ∧
      ∀ c, a.asComparison = .ok c → ∃ c', r.expr.asComparison = .ok c') (position : Nat) :
    ∃ rs, foldArgs pinned position args = pure rs ∧ List.Forall₂ StandsFor args rs.args ∧
      ∀ (index : Nat) (a' : Expr), pinned = some (position + index) → rs.args[index]? = some a' →
        ∃ a : Expr, args[index]? = some a ∧
          ∀ c, a.asComparison = .ok c → ∃ c', a'.asComparison = .ok c' := by
  induction args generalizing position with
  | nil => exact ⟨⟨[], 0, false⟩, rfl, .nil, fun _ _ _ h => by cases h⟩
  | cons a args ih =>
    obtain ⟨ha, hargs⟩ := List.forall_mem_cons.1 hargs
    obtain ⟨r, hr, hstands, hshape⟩ := ha
    obtain ⟨rs, hrs, hrest, hpinned⟩ := ih hargs (position + 1)
    have hsettled : ∃ r', (if pinned = some position then pure r else settle r) = pure r' ∧
        StandsFor a r'.expr ∧ (pinned = some position → r' = r) := by
      by_cases hposition : pinned = some position
      · exact ⟨r, if_pos hposition, hstands, fun _ => rfl⟩
      · obtain ⟨r', hr', hstands'⟩ := settle_sound hstands
        exact ⟨r', by rw [if_neg hposition, hr'], hstands', fun h => (hposition h).elim⟩
    obtain ⟨r', hr', hstands', heq⟩ := hsettled
    simp only [foldArgs_cons, hr, hr', hrs, pure_bind]
    refine ⟨_, rfl, .cons hstands' hrest, ?_⟩
    intro index a' hindex ha'
    -- At the pinned position the argument was not settled, so it is what was found below it.
    cases index with
    | zero =>
      obtain rfl := Option.some.inj ha'
      rw [heq hindex]
      exact ⟨a, rfl, hshape⟩
    | succ index => exact hpinned index a' (by rw [hindex]; congr 1; omega) ha'

/-- Folding below the root. A comparison stays one. -/
theorem foldWithin_sound {e : Expr} (he : BuiltOver OpaqueLeaf e) :
    ∃ r, foldWithin e = pure r ∧ StandsFor e r.expr ∧
      ∀ c, e.asComparison = .ok c → ∃ c', r.expr.asComparison = .ok c' := by
  induction e with
  | literal l => exact ⟨kept (.literal l), rfl, .refl he, fun c hc => ⟨c, hc⟩⟩
  | series s => exact ⟨kept (.series s), rfl, .refl he, fun c hc => ⟨c, hc⟩⟩
  | call f args ih =>
    obtain ⟨hbuilt, hv⟩ := builtOver_call.1 he
    obtain ⟨rs, hrs, hstands, hpinned⟩ :=
      foldArgs_sound f.comparisonArgument? (fun a ha => ih a ha (hbuilt a ha)) 0
    simp only [foldWithin, hrs, pure_bind]
    cases rs.changed with
    | false => exact ⟨⟨.call f args, rs.folds, false⟩, rfl, .refl he, fun c hc => ⟨c, hc⟩⟩
    | true =>
      have hv' : f.validate rs.args = .ok () :=
        f.validate_congr rfl hstands.length_eq.symm (fun index a' hindex ha' =>
          hpinned index a' (by rw [hindex, Nat.zero_add]) ha') hv
      have hcall : f.call rs.args = .ok (.call f rs.args) := Function.call_eq_ok.2 ⟨hv', rfl⟩
      simp only [hcall, if_true]
      have hbuilt' : ∀ a' ∈ rs.args, BuiltOver OpaqueLeaf a' :=
        ((List.forall₂_and_left rs.args args).1 <|
          (List.Forall₂.flip (R := flip StandsFor) hstands).imp fun _ _ h => ⟨h.built, h⟩).1
      refine ⟨_, rfl, ⟨builtOver_call.2 ⟨hbuilt', hv'⟩, fun M => ?_⟩, fun c hc => ?_⟩
      · exact call_agree (.refl f) hv hv' (hstands.imp fun _ _ h => h.agree M)
      · obtain ⟨rfl, rfl⟩ := asComparison_call.1 hc
        have hlength := hstands.length_eq
        match hargs' : rs.args, hlength with
        | [left', right'], _ => exact ⟨⟨c.relation, left', right'⟩, asComparison_call.2 ⟨rfl, rfl⟩⟩
  | custom node inner _ =>
    obtain ⟨hexposes, -⟩ := builtOver_custom.1 he
    refine ⟨kept (.custom node inner), ?_, .refl he, fun c hc => ⟨c, hc⟩⟩
    simp only [foldWithin, hexposes]
    rfl

/-- Folding succeeds without a visit, and its result stands for the expression. -/
theorem fold_sound {e : Expr} (he : BuiltOver OpaqueLeaf e) :
    ∃ r, e.fold = pure r ∧ StandsFor e r.expr := by
  obtain ⟨r, hr, hstands, -⟩ := foldWithin_sound he
  obtain ⟨r', hr', hstands'⟩ := settle_sound hstands
  exact ⟨r', by simp only [fold, hr, hr', pure_bind], hstands'⟩

end Expr

end Lookback
