-- SUMMARY: Quantifiers over a comparison, plain or with one side held: when holding a side makes no difference.
import Lookback.Proofs.Folding
import Lookback.Proofs.SteppingBack

/-!
# Held sides

A plain quantifier compiles its condition like any expression and coerces the
three-valued outcome at each key of the window. A swept one takes the condition
apart, reads one side once, at the current key, and applies the relation itself. So
the two are kernels of their own. `Expr.compile_quantified` compiles both from the
same three outcomes, and what is left is a comparison of two evaluators.

They are equal when the held side has one value. In a window of one observation
every quantifier is the comparison there, and whatever is held, what holds throughout
a window holds somewhere in it.
-/

namespace Lookback

/-- The contexts that the library has itself. -/
inductive PreviousKeys.IsBuiltIn : PreviousKeys → Prop where
  | bars : IsBuiltIn .bars
  | calendar (c : Calendar) : IsBuiltIn (.calendar c)
  | interval (s : Interval) : IsBuiltIn (.interval s)

/-- No observations back from a key lies the key itself. -/
theorem PreviousKeys.IsBuiltIn.history_zero {keys : PreviousKeys} (h : keys.IsBuiltIn)
    {M : KeyModel} {histories : M.Key → History M.Key} (hM : keys.history? M = some histories)
    (key : M.Key) : histories key 0 = some key := by
  cases h with
  | bars =>
    cases M with
    | keyless | date => cases hM
    | bar =>
      cases hM
      exact (Bars.stepsBack key).current
  | calendar c =>
    cases M with
    | keyless | bar => cases hM
    | date =>
      cases hM
      exact (c.stepsBack key).current
  | interval s =>
    cases M with
    | keyless | bar => cases hM
    | date =>
      cases hM
      exact (s.stepsBack key).current

/-! ## Scans -/

section Scans

variable {K ω : Type} {history : History K} {condition : K → Traced ω Bool}

@[simp] theorem Quantifier.scan_zero (q : Quantifier) (history : History K)
    (condition : K → Traced ω Bool) : q.scan history condition 0 = pure false := by
  cases q <;> rfl

/-- In a window of one observation both quantifiers ask there. -/
theorem Quantifier.value_scan_one (q : Quantifier) {key : K} (hkey : history 0 = some key) :
    (q.scan history condition 1).value = (condition key).value := by
  cases q with
  | throughout =>
    simp only [scan, Scan.holdsThroughout, Nat.one_ne_zero, if_false, Traced.iterate_succ, hkey,
      Traced.value_map, Traced.value_bind]
    cases (condition key).value <;> rfl
  | somewhere =>
    simp only [scan, Scan.holdsSomewhere, Traced.iterate_succ, hkey, Traced.value_map,
      Traced.value_bind]
    cases (condition key).value <;> rfl

/-- What holds throughout a window holds at its newest observation, so somewhere. -/
theorem Scan.holdsSomewhere_of_holdsThroughout {length : Nat}
    (h : (holdsThroughout history condition length).value = true) :
    (holdsSomewhere history condition length).value = true := by
  cases length with
  | zero => cases h
  | succ length =>
    simp only [holdsThroughout, Nat.add_one_ne_zero, if_false, holdsSomewhere, Traced.iterate_succ]
      at h ⊢
    cases hkey : history 0 with
    | none => simp [hkey] at h
    | some key =>
      simp only [hkey, Traced.value_map, Traced.value_bind] at h ⊢
      cases hholds : (condition key).value with
      | false => simp [hholds] at h
      | true => rfl

end Scans

/-! ## Evaluators -/

namespace Comparison

/-- The side that is held while the other one is swept. -/
def held {β : Type} (c : Comparison β) : Side → β
  | .left => c.right
  | .right => c.left

variable {K : Type}

/-- The comparison with its held side at a value; false when an operand is missing. -/
def holding (c : Comparison (Evaluator K Float)) (x : Float) : Side → Evaluator K Bool
  | .left => fun key => do return c.relation.applyDefinite (← c.left key) x
  | .right => fun key => do return c.relation.applyDefinite x (← c.right key)

/-- The comparison at a key; false when an operand is missing. -/
def definite (c : Comparison (Evaluator K Float)) : Evaluator K Bool := fun key => do
  let a ← c.left key
  let b ← c.right key
  return c.relation.applyDefinite a b

theorem holding_of_constant {c : Comparison (Evaluator K Float)} {side : Side} {x : Float}
    (h : c.held side = fun _ => pure x) : c.holding x side = c.definite := by
  obtain ⟨relation, left, right⟩ := c
  cases side with
  | left =>
    obtain rfl : right = fun _ => pure x := h
    rfl
  | right =>
    obtain rfl : left = fun _ => pure x := h
    rfl

/-- At the current key it makes no difference which side is held. -/
theorem value_holding (c : Comparison (Evaluator K Float)) (side : Side) (key : K) :
    (c.holding (c.held side key).value side key).value = (c.definite key).value := by
  cases side <;> rfl

end Comparison

namespace Quantifier

variable {K : Type}

/-- The quantifier as a function, plain or with one side of its condition swept. -/
def function (q : Quantifier) (swept? : Option Side) (keys : PreviousKeys) : Function :=
  match swept? with
  | none => .historical (.window (.quantified q)) keys
  | some side => .historical (.swept side q) keys

/-- The quantifier over a comparison, plain or with one side swept. -/
def evaluate (q : Quantifier) (swept? : Option Side) (histories : K → History K)
    (count : Evaluator K Float) (c : Comparison (Evaluator K Float)) : Evaluator K Bool :=
  fun key => do
    let length := Scan.windowLength (← count key)
    match swept? with
    | none => q.scan (histories key) c.definite length
    | some side =>
      if length = 0 then
        return false
      else
        let x ← c.held side key
        q.scan (histories key) (c.holding x side) length

theorem sweptEvaluator_eq (q : Quantifier) (side : Side) (histories : K → History K)
    (count : Evaluator K Float) (c : Comparison (Evaluator K Float)) :
    HistoryOp.sweptEvaluator histories side q count c =
      .boolean (q.evaluate (some side) histories count c) := by
  cases side <;> rfl

theorem toBoolean_relation (r : Relation) (a b : Compiled K) (omitted : Nat → Float) :
    ((ElementOp.relation r).evaluator ⟨[a, b], omitted⟩).toBoolean =
      Comparison.definite ⟨r, a.toDouble, b.toDouble⟩ := by
  funext key
  simp only [Compiled.toBoolean, Compiled.coerced, ElementOp.evaluator, Compiled.nullable,
    Operands.double, Operands.compiled, Comparison.definite, map_bind, map_pure]
  rfl

theorem evaluator_quantified_eq (q : Quantifier) (histories : K → History K) (n a b : Compiled K)
    (r : Relation) (omitted omitted' : Nat → Float) :
    (WindowOp.quantified q).evaluator histories
        ⟨[n, (ElementOp.relation r).evaluator ⟨[a, b], omitted⟩], omitted'⟩ =
      .boolean (q.evaluate none histories n.toDouble ⟨r, a.toDouble, b.toDouble⟩) := by
  simp only [WindowOp.evaluator, Operands.boolean, Operands.double, Operands.compiled,
    List.getElem?_cons_succ, List.getElem?_cons_zero, Option.getD_some, toBoolean_relation]
  rfl

variable {histories : K → History K} {count : Evaluator K Float}
  {c : Comparison (Evaluator K Float)}

/-- A side with one value may as well be held. -/
theorem evaluate_of_constant (q : Quantifier) {side : Side} {x : Float}
    (h : c.held side = fun _ => pure x) :
    q.evaluate (some side) histories count c = q.evaluate none histories count c := by
  refine funext fun key => bind_congr fun n => ?_
  simp only [h, pure_bind, Comparison.holding_of_constant h]
  split
  · rename_i hlength
    rw [hlength, scan_zero]
  · rfl

/-- On one observation all quantifiers are the comparison there. -/
theorem value_evaluate_of_one (q : Quantifier) (swept? : Option Side) {key : K}
    (hkey : histories key 0 = some key) (hone : Scan.windowLength (count key).value = 1) :
    (q.evaluate swept? histories count c key).value = (c.definite key).value := by
  cases swept? with
  | none => simp only [evaluate, Traced.value_bind, hone, q.value_scan_one hkey]
  | some side =>
    simp only [evaluate, Traced.value_bind, hone, Nat.one_ne_zero, if_false,
      q.value_scan_one hkey, c.value_holding]

theorem evaluate_somewhere_of_throughout (swept? : Option Side) {key : K}
    (h : (evaluate .throughout swept? histories count c key).value = true) :
    (evaluate .somewhere swept? histories count c key).value = true := by
  cases swept? with
  | none => exact Scan.holdsSomewhere_of_holdsThroughout h
  | some side =>
    simp only [evaluate, Traced.value_bind] at h ⊢
    split at h
    · cases h
    · rename_i hlength
      rw [if_neg hlength]
      exact Scan.holdsSomewhere_of_holdsThroughout h

end Quantifier

/-! ## Compiling -/

namespace Expr

variable {keys : PreviousKeys} {M : KeyModel} {histories : M.Key → History M.Key}

/-- A comparison of two expressions. -/
def comparison (r : Relation) (left right : Expr) : Expr :=
  .call (.element (.relation r)) [left, right]

/-- An operation on two operands compiles from them, the left one first. -/
theorem compile_binary (M : KeyModel) {op : ElementOp} {left right : Expr}
    (hv : (Function.element op).validate [left, right] = .ok ()) :
    (call (.element op) [left, right]).compile M = do
      let a ← left.compile M
      let b ← right.compile M
      return op.evaluator ⟨[a, b], (Function.element op).defaultArgument⟩ := by
  rw [compile_call, Function.compile_element M hv]
  simp only [List.mapM_cons, List.mapM_nil, bind_assoc, pure_bind]

theorem validate_comparison (r : Relation) (left right : Expr) :
    (Function.element (.relation r)).validate [left, right] = .ok () := by
  cases r <;> rfl

/-- A comparison compiles to the relation of its operands. -/
theorem compile_comparison (M : KeyModel) (r : Relation) (left right : Expr) :
    (comparison r left right).compile M = do
      let a ← left.compile M
      let b ← right.compile M
      return (ElementOp.relation r).evaluator
        ⟨[a, b], (Function.element (.relation r)).defaultArgument⟩ :=
  compile_binary M (validate_comparison r left right)

/-- A quantifier over a comparison, plain or with one side swept. -/
def quantified (q : Quantifier) (swept? : Option Side) (keys : PreviousKeys)
    (count : Expr) (r : Relation) (left right : Expr) : Expr :=
  .call (q.function swept? keys) [count, comparison r left right]

theorem call_quantified (q : Quantifier) (swept? : Option Side) (keys : PreviousKeys)
    (count : Expr) (r : Relation) (left right : Expr) :
    (Quantifier.function q swept? keys).call [count, comparison r left right] =
      .ok (quantified q swept? keys count r left right) := by
  refine Function.call_eq_ok.2 ⟨?_, rfl⟩
  cases swept? with
  | none => cases q <;> rfl
  | some side => cases side <;> cases q <;> cases r <;> rfl

/-- Plain or swept, a quantifier compiles from its count and the operands of its
    comparison, in this order. -/
theorem compile_quantified (hM : keys.history? M = some histories) (q : Quantifier)
    (swept? : Option Side) (count : Expr) (r : Relation) (left right : Expr) :
    (quantified q swept? keys count r left right).compile M = do
      let n ← count.compile M
      let a ← left.compile M
      let b ← right.compile M
      return .boolean (q.evaluate swept? histories n.toDouble ⟨r, a.toDouble, b.toDouble⟩) := by
  have hkeyed : M ≠ .keyless := PreviousKeys.ne_keyless hM
  cases swept? with
  | none =>
    obtain ⟨hv, -⟩ := Function.call_eq_ok.1 (call_quantified q none keys count r left right)
    rw [quantified, compile_call, Quantifier.function, Function.compile_window M hv, if_neg hkeyed]
    simp only [List.mapM_cons, List.mapM_nil, compile_comparison, Function.history, hM, bind_assoc,
      pure_bind]
    refine bind_congr fun n => bind_congr fun a => bind_congr fun b => ?_
    exact congrArg Except.ok (q.evaluator_quantified_eq histories n a b r _ _)
  | some side =>
    have hread : (comparison r left right).asComparison = .ok ⟨r, left, right⟩ := by
      cases r <;> rfl
    rw [quantified, compile_call, Quantifier.function, Function.compile_swept M hread,
      if_neg hkeyed]
    simp only [Function.history, hM, Quantifier.sweptEvaluator_eq]
    rfl

/-- A constant operand compiles to a single number. -/
theorem Built.exists_double {e : Expr} (he : e.Built) (hconstant : e.isConstant = true)
    (M : KeyModel) : ∃ (c : Compiled M.Key) (x : Float), e.compile M = .ok c ∧
      c.toDouble = fun _ => pure x := by
  obtain ⟨v, hv⟩ := he.exists_value hconstant
  obtain ⟨c, hc, -, hvalue⟩ := hv M
  exact ⟨c, _, hc, funext fun key => Compiled.coerced_eq_pure (hvalue key) .double⟩

/-- A held side that is constant may as well be swept, whatever else compiles or fails. -/
theorem compile_quantified_of_constant (hM : keys.history? M = some histories) (q : Quantifier)
    (side : Side) (count : Expr) {r : Relation} {left right : Expr}
    (hbuilt : Built (Comparison.held ⟨r, left, right⟩ side))
    (hconstant : isConstant (Comparison.held ⟨r, left, right⟩ side) = true) :
    (quantified q (some side) keys count r left right).compile M =
      (quantified q none keys count r left right).compile M := by
  obtain ⟨c, x, hc, hconst⟩ := Built.exists_double hbuilt hconstant M
  rw [compile_quantified hM, compile_quantified hM]
  cases count.compile M with
  | error e => rfl
  | ok n =>
    cases ha : left.compile M with
    | error e => rfl
    | ok a =>
      cases hb : right.compile M with
      | error e => rfl
      | ok b =>
        have hheld : Comparison.held ⟨r, a.toDouble, b.toDouble⟩ side = fun _ => pure x := by
          cases side with
          | left =>
            obtain rfl : b = c := Except.ok.inj (hb.symm.trans hc)
            exact hconst
          | right =>
            obtain rfl : a = c := Except.ok.inj (ha.symm.trans hc)
            exact hconst
        exact congrArg (Except.ok ∘ Compiled.boolean) (q.evaluate_of_constant hheld)

/-- The quantifiers over a comparison pass their checks, and compile together or fail
    with one error. Holding a constant side gives the evaluator of the plain quantifier.
    In a window of one observation each quantifier, plain or swept, is the comparison at
    the key, and what holds throughout a window holds somewhere in it. -/
theorem held_side_immaterial (hkeys : keys.IsBuiltIn) (hM : keys.history? M = some histories)
    (count : Expr) (r : Relation) {left right : Expr} (hleft : left.Built)
    (hright : right.Built) :
    (∀ q swept?, (Quantifier.function q swept? keys).call [count, comparison r left right] =
      .ok (quantified q swept? keys count r left right)) ∧
    (∀ q swept?, ((quantified q swept? keys count r left right).compile M).map (fun _ => ()) = do
      let _ ← count.compile M
      let _ ← (comparison r left right).compile M
      return ()) ∧
    (right.isConstant = true → ∀ q, (quantified q (some .left) keys count r left right).compile M =
      (quantified q none keys count r left right).compile M) ∧
    (left.isConstant = true → ∀ q, (quantified q (some .right) keys count r left right).compile M =
      (quantified q none keys count r left right).compile M) ∧
    ∀ n condition, count.compile M = .ok n → (comparison r left right).compile M = .ok condition →
      ∀ swept?, ∃ stable occurs,
        (quantified .throughout swept? keys count r left right).compile M = .ok stable ∧
        (quantified .somewhere swept? keys count r left right).compile M = .ok occurs ∧
        ∀ key,
          (Scan.windowLength (n.toDouble key).value = 1 →
            (stable.toBoolean key).value = (condition.toBoolean key).value ∧
              (occurs.toBoolean key).value = (condition.toBoolean key).value) ∧
          ((stable.toBoolean key).value = true → (occurs.toBoolean key).value = true) := by
  refine ⟨fun q swept? => call_quantified q swept? keys count r left right, fun q swept? => ?_,
    fun hconstant q => ?_, fun hconstant q => ?_, fun n condition hn hcondition swept? => ?_⟩
  · rw [compile_quantified hM, compile_comparison]
    cases count.compile M with
    | error e => rfl
    | ok n =>
      cases left.compile M with
      | error e => rfl
      | ok a => cases right.compile M <;> rfl
  · exact compile_quantified_of_constant hM q .left count hright hconstant
  · exact compile_quantified_of_constant hM q .right count hleft hconstant
  · rw [compile_comparison] at hcondition
    obtain ⟨a, ha, hcondition⟩ := Except.bind_eq_ok.1 hcondition
    obtain ⟨b, hb, hcondition⟩ := Except.bind_eq_ok.1 hcondition
    obtain rfl := Except.ok.inj hcondition
    simp only [compile_quantified hM, hn, ha, hb]
    refine ⟨_, _, rfl, rfl, fun key => ⟨fun hone => ?_, fun hstable => ?_⟩⟩
    · have hkey := hkeys.history_zero hM key
      exact ⟨Quantifier.value_evaluate_of_one .throughout swept? hkey hone,
        Quantifier.value_evaluate_of_one .somewhere swept? hkey hone⟩
    · exact Quantifier.evaluate_somewhere_of_throughout swept? hstable

/-- A series against a level that it passes at its second bar, in windows of one and of
    two bars. -/
theorem held_side_immaterial_bars :
    let close : Expr := .series (.undated "close" #[5, 6, 7])
    let level : Expr := .literal (.double 5.5)
    let one : Expr := .literal (.double 1)
    let two : Expr := .literal (.double 2)
    (∀ q, (quantified q (some .left) .bars two .greater close level).compile .bar =
        (quantified q none .bars two .greater close level).compile .bar) ∧
      (∃ stable condition,
        (quantified .throughout (some .right) .bars one .greater close level).compile .bar =
          .ok stable ∧
        (comparison .greater close level).compile .bar = .ok condition ∧
        (stable.toBoolean 1).value = (condition.toBoolean 1).value) ∧
      ∃ stable occurs,
        (quantified .throughout (some .left) .bars two .greater close level).compile .bar =
          .ok stable ∧
        (quantified .somewhere (some .left) .bars two .greater close level).compile .bar =
          .ok occurs ∧
        (stable.toBoolean 1).value = false ∧ (stable.toBoolean 2).value = true ∧
        (occurs.toBoolean 2).value = true := by
  intro close level one two
  have hM : PreviousKeys.bars.history? .bar = some Bars.history := rfl
  have himmaterial (count : Expr) := held_side_immaterial .bars hM count .greater
    (BuiltOver.series (.undated "close" #[5, 6, 7])) (BuiltOver.literal (.double 5.5))
  obtain ⟨-, -, hleft, -, htwo⟩ := himmaterial two
  obtain ⟨-, -, -, -, hone⟩ := himmaterial one
  obtain ⟨single, _, hsingle, -, hcondition⟩ := hone _ _ rfl rfl (some .right)
  obtain ⟨stable, occurs, hstable, hoccurs, hkey⟩ := htwo _ _ rfl rfl (some .left)
  have hvalues : (stable.toBoolean 1).value = false ∧ (stable.toBoolean 2).value = true := by
    obtain rfl := Except.ok.inj hstable
    decide +kernel
  exact ⟨hleft rfl, ⟨single, _, hsingle, rfl, ((hcondition 1).1 (by decide)).1⟩,
    stable, occurs, hstable, hoccurs, hvalues.1, hvalues.2, (hkey 2).2 hvalues.2⟩

end Expr

end Lookback
