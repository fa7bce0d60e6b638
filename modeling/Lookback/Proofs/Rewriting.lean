-- SUMMARY: Folding as a relation between trees, with user-defined nodes that show the calls they wrap.
import Lookback.Proofs.NormalForms

/-!
# Folding as rewriting

`FoldsTo` says what folding may turn a tree into: arguments are folded in place, a
natural call becomes the literal of its value, and a user-defined node that shows the call it
wraps is left standing or given up. The last is decided below the node. It is given up just
when something can be folded there, because the call it shows is then built anew, and what is
built is the bare call.

`exists_foldWithin` follows the pass through a tree and says all of this at once. What an
argument becomes depends on its position, so arguments are looked at by index
(`exists_foldArgs`).
-/

namespace Lookback

/-- Lists of one length have entries at the same positions. -/
theorem exists_getElem? {α β : Type} {xs : List α} {ys : List β} (h : ys.length = xs.length)
    {index : Nat} {y : β} (hy : ys[index]? = some y) : ∃ x, xs[index]? = some x := by
  have hlt : index < xs.length := h ▸ (List.getElem?_eq_some_iff.1 hy).1
  exact ⟨xs[index], List.getElem?_eq_getElem hlt⟩

namespace Expr

/-! ## Shown calls -/

/-- A call of the function that was shown, on as many arguments. -/
def KeepsCall (e e' : Expr) : Prop :=
  ∃ f args args', e.asCall? = some (f, args) ∧ e' = .call f args' ∧ args'.length = args.length

theorem KeepsCall.exists_comparison {e e' : Expr} (h : KeepsCall e e') {c : Comparison Expr}
    (hc : e.asComparison = .ok c) : ∃ c', e'.asComparison = .ok c' := by
  obtain ⟨f, args, args', hcall, rfl, hlength⟩ := h
  have hshown := Comparison.eq_of_ofCall hc
  rw [hcall] at hshown
  cases hshown
  match args', hlength with
  | [left', right'], _ => exact ⟨⟨c.relation, left', right'⟩, asComparison_call.2 ⟨rfl, rfl⟩⟩

/-- Arguments may be replaced if the one that has to be a comparison stays or keeps its
    call. -/
theorem validate_of_keepsCall {f : Function} {args args' : List Expr}
    (hlength : args'.length = args.length)
    (hpinned : ∀ (index : Nat) (a a' : Expr), f.comparisonArgument? = some index →
      args[index]? = some a → args'[index]? = some a' → a' = a ∨ KeepsCall a a')
    (hv : f.validate args = .ok ()) : f.validate args' = .ok () := by
  refine f.validate_congr rfl hlength (fun index a' hindex ha' => ?_) hv
  obtain ⟨a, ha⟩ := exists_getElem? hlength ha'
  refine ⟨a, ha, fun c hc => ?_⟩
  rcases hpinned index _ a' hindex ha ha' with rfl | hkeeps
  · exact ⟨c, hc⟩
  · exact hkeeps.exists_comparison hc

/-! ## Wrappers -/

/-- A user-defined node that shows the call it wraps, declares to depend on the key, and does
    so: it has no value without one. -/
structure Wraps (node : CustomNode) (inner : Expr) : Prop where
  exposes : node.exposesCall = true
  dependent : (custom node inner).isKeyDependent = true
  keyless : ∀ c, (custom node inner).compile .keyless ≠ .ok c

/-- Built from literals, series, calls that passed their checks, and wrappers. -/
inductive Wrapped : Expr → Prop where
  | literal (l) : Wrapped (.literal l)
  | series (s) : Wrapped (.series s)
  | call {f : Function} {args e} : (∀ a ∈ args, Wrapped a) → f.call args = .ok e → Wrapped e
  | wrapper {node inner} : Wrapped inner → Wraps node inner → Wrapped (.custom node inner)

theorem wrapped_call {f : Function} {args : List Expr} :
    Wrapped (.call f args) ↔ (∀ a ∈ args, Wrapped a) ∧ f.validate args = .ok () := by
  constructor
  · intro h
    cases h with
    | call hargs hcall =>
      obtain ⟨hv, he⟩ := Function.call_eq_ok.1 hcall
      cases he
      exact ⟨hargs, hv⟩
  · rintro ⟨hargs, hv⟩
    exact .call hargs (Function.call_eq_ok.2 ⟨hv, rfl⟩)

theorem wrapped_custom {node : CustomNode} {inner : Expr} :
    Wrapped (.custom node inner) ↔ Wrapped inner ∧ Wraps node inner := by
  constructor
  · intro h
    cases h with
    | call _ hcall => cases (Function.call_eq_ok.1 hcall).2
    | wrapper hinner hwraps => exact ⟨hinner, hwraps⟩
  · rintro ⟨hinner, hwraps⟩
    exact .wrapper hinner hwraps

theorem Built.wrapped {e : Expr} (he : e.Built) : Wrapped e := by
  induction he with
  | literal l => exact .literal l
  | series s => exact .series s
  | call _ hcall ih => exact .call ih hcall
  | leaf hleaf => exact hleaf.elim

/-- There are no wrappers in a constant expression. -/
theorem Wrapped.built_of_isConstant {e : Expr} (he : Wrapped e) (hconstant : e.isConstant = true) :
    e.Built := by
  induction e with
  | literal l => exact .literal l
  | series s => exact .series s
  | call f args ih =>
    obtain ⟨hwrapped, hv⟩ := wrapped_call.1 he
    obtain ⟨-, hargs⟩ := isConstant_call.1 hconstant
    exact builtOver_call.2 ⟨fun a ha => ih a ha (hwrapped a ha) (hargs a ha), hv⟩
  | custom node inner _ =>
    obtain ⟨-, hwraps⟩ := wrapped_custom.1 he
    rw [isConstant, hwraps.dependent] at hconstant
    cases hconstant

theorem pinnedOnly_literal (l : Literal) : PinnedOnly (.literal l) :=
  fun _ _ _ _ hoccurs => by cases hoccurs

theorem pinnedOnly_series (s : Series) : PinnedOnly (.series s) :=
  fun _ _ _ _ hoccurs => by cases hoccurs

theorem pinnedOnly_custom {node : CustomNode} {inner : Expr} :
    PinnedOnly (.custom node inner) ↔ inner.PinnedOnly := by
  constructor
  · exact fun h => h.of_occurs (.inner .here)
  · intro h f args index arg hoccurs
    cases hoccurs with
    | inner hbelow => exact h f args index arg hbelow

/-! ## The relation -/

/-- What folding may turn an expression into. -/
inductive FoldsTo : Expr → Expr → Prop where
  | literal (l) : FoldsTo (.literal l) (.literal l)
  | series (s) : FoldsTo (.series s) (.series s)
  | call {f args args'} : args'.length = args.length →
      (∀ (index : Nat) (a a' : Expr), args[index]? = some a → args'[index]? = some a' →
        FoldsTo a a') →
      f.validate args' = .ok () → FoldsTo (.call f args) (.call f args')
  | value {e e' v} : FoldsTo e e' → e'.IsNaturalCall → e'.Built → e'.HasValue v →
      FoldsTo e (.literal (.ofValue v))
  | kept {node inner} : inner.PinnedOnly → FoldsTo (.custom node inner) (.custom node inner)
  | givenUp {node inner e'} : ¬ inner.PinnedOnly → FoldsTo inner e' →
      FoldsTo (.custom node inner) e'

/-- What an expression has become in folding. -/
structure Rewritten (e : Expr) (r : Folded) : Prop where
  wrapped : Wrapped r.expr
  foldsTo : FoldsTo e r.expr
  unchanged : r.changed = false → r.expr = e

/-- What it has become below its root. -/
structure RewrittenWithin (e : Expr) (r : Folded) : Prop extends Rewritten e r where
  changed_iff : r.changed = true ↔ ¬ e.PinnedOnly
  keepsCall : r.changed = true → KeepsCall e r.expr

/-- What it has become as the argument at a position. -/
structure RewrittenAt (pinned : Option Nat) (position : Nat) (e : Expr) (r : Folded) : Prop
    extends Rewritten e r where
  changed_iff : r.changed = true ↔
    ¬ (e.PinnedOnly ∧ (e.IsNaturalCall → pinned = some position))
  keepsCall : pinned = some position → r.changed = true → KeepsCall e r.expr

/-! ## Settling -/

/-- Whatever is no natural call stays. A wrapper around one is tried, in vain. -/
theorem Wrapped.settle_eq {r : Folded} (he : Wrapped r.expr) (h : ¬ r.expr.IsNaturalCall) :
    settle r = pure r := by
  unfold settle
  split
  · rfl
  · rename_i f args hcall
    split
    · rename_i hnatural
      obtain ⟨expr, folds, changed⟩ := r
      match expr with
      | .literal l => cases hcall
      | .series s => cases hcall
      | .call f' args' =>
        cases hcall
        exact (h (isNaturalCall_call.2 hnatural)).elim
      | .custom node inner =>
        obtain ⟨-, hwraps⟩ := wrapped_custom.1 he
        have herror : ∃ error, (custom node inner).constantValue = .error error := by
          rw [constantValue, compileTo]
          cases hcompiled : (custom node inner).compile .keyless with
          | error error => exact ⟨error, rfl⟩
          | ok c => exact (hwraps.keyless c hcompiled).elim
        obtain ⟨error, herror⟩ := herror
        simp only [herror]
    · rfl

theorem exists_settle {e : Expr} {r : Folded} (h : RewrittenWithin e r) :
    ∃ r', settle r = pure r' ∧ Rewritten e r' ∧
      (r'.changed = true ↔ ¬ (e.PinnedOnly ∧ ¬ e.IsNaturalCall)) := by
  -- If nothing was folded below, it is the expression itself that is settled.
  have hsame : e.PinnedOnly → r.expr = e := by
    intro hpinned
    refine h.unchanged (Bool.eq_false_iff.2 fun hchanged => ?_)
    exact h.changed_iff.1 hchanged hpinned
  by_cases hcall : r.expr.IsNaturalCall
  · have hbuilt := h.wrapped.built_of_isConstant hcall.isConstant
    obtain ⟨v, hv⟩ : ∃ v, r.expr.HasValue v := hbuilt.exists_value hcall.isConstant
    have hfolds : FoldsTo e (.literal (.ofValue v)) := .value h.foldsTo hcall hbuilt hv
    refine ⟨_, settle_of_hasValue hbuilt hcall hv, ⟨.literal _, hfolds, nofun⟩, fun _ => ?_,
      fun _ => rfl⟩
    rintro ⟨hpinned, hother⟩
    exact hother (hsame hpinned ▸ hcall)
  · refine ⟨r, h.wrapped.settle_eq hcall, h.toRewritten, ?_⟩
    rw [h.changed_iff, not_iff_not]
    exact ⟨fun hpinned => ⟨hpinned, hsame hpinned ▸ hcall⟩, And.left⟩

/-! ## Arguments -/

/-- Folds an argument, at the pinned position only below it. -/
def foldArg (pinned : Option Nat) (position : Nat) (e : Expr) : Folding Folded := do
  let within ← foldWithin e
  if pinned = some position then pure within else settle within

theorem exists_foldArg (pinned : Option Nat) (position : Nat) {a : Expr} {r : Folded}
    (hr : foldWithin a = pure r) (h : RewrittenWithin a r) :
    ∃ r', foldArg pinned position a = pure r' ∧ RewrittenAt pinned position a r' := by
  simp only [foldArg, hr, pure_bind]
  by_cases hposition : pinned = some position
  · refine ⟨r, if_pos hposition, h.toRewritten, ?_, fun _ => h.keepsCall⟩
    simp only [hposition, implies_true, and_true, h.changed_iff]
  · obtain ⟨r', hr', hrewritten, hchanged⟩ := exists_settle h
    refine ⟨r', by rw [if_neg hposition, hr'], hrewritten, ?_, fun h => (hposition h).elim⟩
    simpa only [hposition, imp_false] using hchanged

/-- Arguments put together in their order. -/
def collect (rs : List Folded) : FoldedArgs :=
  ⟨rs.map Folded.expr, rs.foldr (·.folds + ·) 0, rs.any Folded.changed⟩

/-- Each argument is folded by itself. -/
theorem exists_foldArgs {pinned : Option Nat} {args : List Expr}
    (P : Nat → Expr → Folded → Prop) (position : Nat)
    (hargs : ∀ (index : Nat) (a : Expr), args[index]? = some a →
      ∃ r, foldArg pinned (position + index) a = pure r ∧ P (position + index) a r) :
    ∃ rs : List Folded, foldArgs pinned position args = pure (collect rs) ∧
      rs.length = args.length ∧ ∀ (index : Nat) (a : Expr) (r : Folded), args[index]? = some a →
        rs[index]? = some r → P (position + index) a r := by
  induction args generalizing position with
  | nil => exact ⟨[], rfl, rfl, nofun⟩
  | cons a args ih =>
    obtain ⟨r, hr, hP⟩ := hargs 0 a rfl
    obtain ⟨rs, hrs, hlength, hrest⟩ := ih (position + 1) fun index a' ha' => by
      rw [Nat.add_right_comm]
      exact hargs (index + 1) a' ha'
    refine ⟨r :: rs, ?_, by rw [List.length_cons, hlength, List.length_cons], ?_⟩
    · have hhere : (do
          let within ← foldWithin a
          if pinned = some position then pure within else settle within) = pure r := hr
      rw [foldArgs_cons, ← bind_assoc, hhere, pure_bind, hrs, pure_bind]
      rfl
    · intro index a' r' ha' hr'
      cases index with
      | zero =>
        cases ha'
        cases hr'
        exact hP
      | succ index =>
        have hP' := hrest index a' r' ha' hr'
        rwa [Nat.add_right_comm] at hP'

/-! ## The pass -/

theorem FoldsTo.refl {e : Expr} (he : Wrapped e) (h : e.PinnedOnly) : FoldsTo e e := by
  induction e with
  | literal l => exact .literal l
  | series s => exact .series s
  | call f args ih =>
    obtain ⟨hwrapped, hv⟩ := wrapped_call.1 he
    refine .call rfl (fun index a a' ha ha' => ?_) hv
    obtain rfl : a = a' := Option.some.inj (ha.symm.trans ha')
    have hmem : a ∈ args := List.mem_of_getElem? ha
    exact ih a hmem (hwrapped a hmem) (h.of_occurs (.arg hmem .here))
  | custom node inner _ => exact .kept (pinnedOnly_custom.1 h)

theorem RewrittenWithin.of_unchanged {e : Expr} {folds : Nat} (he : Wrapped e)
    (h : e.PinnedOnly) : RewrittenWithin e ⟨e, folds, false⟩ where
  wrapped := he
  foldsTo := .refl he h
  unchanged _ := rfl
  changed_iff := ⟨nofun, fun hnot => (hnot h).elim⟩
  keepsCall := nofun

/-- A call changes if one of its arguments does. -/
theorem any_changed_iff {f : Function} {args : List Expr} {rs : List Folded}
    (hlength : rs.length = args.length)
    (hargs : ∀ (index : Nat) (a : Expr) (r : Folded), args[index]? = some a →
      rs[index]? = some r → RewrittenAt f.comparisonArgument? index a r) :
    rs.any Folded.changed = true ↔ ¬ PinnedOnly (.call f args) := by
  rw [List.any_eq_true, pinnedOnly_call]
  constructor
  · rintro ⟨r, hr, hchanged⟩ hpinned
    obtain ⟨index, hr⟩ := List.getElem?_of_mem hr
    obtain ⟨a, ha⟩ := exists_getElem? hlength hr
    exact (hargs index a r ha hr).changed_iff.1 hchanged (hpinned index a ha)
  · intro hpinned
    simp only [not_forall] at hpinned
    obtain ⟨index, a, ha, hnot⟩ := hpinned
    obtain ⟨r, hr⟩ := exists_getElem? hlength.symm ha
    exact ⟨r, List.mem_of_getElem? hr, (hargs index a r ha hr).changed_iff.2 hnot⟩

/-- A call built anew from arguments that were folded. -/
theorem rewritten_call {f : Function} {args : List Expr} {rs : List Folded}
    (hv : f.validate args = .ok ()) (hlength : rs.length = args.length)
    (hargs : ∀ (index : Nat) (a : Expr) (r : Folded), args[index]? = some a →
      rs[index]? = some r → RewrittenAt f.comparisonArgument? index a r) :
    f.validate (rs.map Folded.expr) = .ok () ∧ Wrapped (.call f (rs.map Folded.expr)) ∧
      FoldsTo (.call f args) (.call f (rs.map Folded.expr)) := by
  have hlength' : (rs.map Folded.expr).length = args.length := by rw [List.length_map, hlength]
  have hat (index : Nat) (a a' : Expr) (ha : args[index]? = some a)
      (ha' : (rs.map Folded.expr)[index]? = some a') :
      ∃ r, r.expr = a' ∧ RewrittenAt f.comparisonArgument? index a r := by
    rw [List.getElem?_map, Option.map_eq_some_iff] at ha'
    obtain ⟨r, hr, rfl⟩ := ha'
    exact ⟨r, rfl, hargs index a r ha hr⟩
  have hv' : f.validate (rs.map Folded.expr) = .ok () := by
    refine validate_of_keepsCall hlength' (fun index a a' hindex ha ha' => ?_) hv
    obtain ⟨r, rfl, hr⟩ := hat index a a' ha ha'
    cases hchanged : r.changed with
    | false => exact .inl (hr.unchanged hchanged)
    | true => exact .inr (hr.keepsCall hindex hchanged)
  refine ⟨hv', wrapped_call.2 ⟨fun a' ha' => ?_, hv'⟩,
    .call hlength' (fun index a a' ha ha' => ?_) hv'⟩
  · obtain ⟨index, hindex⟩ := List.getElem?_of_mem ha'
    obtain ⟨a, ha⟩ := exists_getElem? hlength' hindex
    obtain ⟨r, rfl, hr⟩ := hat index a a' ha hindex
    exact hr.wrapped
  · obtain ⟨r, rfl, hr⟩ := hat index a a' ha ha'
    exact hr.foldsTo

/-- Folding below the root. -/
theorem exists_foldWithin {e : Expr} (he : Wrapped e) :
    ∃ r, foldWithin e = pure r ∧ RewrittenWithin e r := by
  induction e with
  | literal l => exact ⟨_, rfl, .of_unchanged he (pinnedOnly_literal l)⟩
  | series s => exact ⟨_, rfl, .of_unchanged he (pinnedOnly_series s)⟩
  | call f args ih =>
    obtain ⟨hwrapped, hv⟩ := wrapped_call.1 he
    obtain ⟨rs, hrs, hlength, hargs⟩ :=
      exists_foldArgs (RewrittenAt f.comparisonArgument?) 0 fun index a ha => by
        have hmem : a ∈ args := List.mem_of_getElem? ha
        obtain ⟨r, hr, hwithin⟩ := ih a hmem (hwrapped a hmem)
        exact exists_foldArg f.comparisonArgument? _ hr hwithin
    simp only [Nat.zero_add] at hargs
    have hany := any_changed_iff hlength hargs
    simp only [foldWithin, hrs, pure_bind]
    cases hchanged : (collect rs).changed with
    | false =>
      have hpinned : PinnedOnly (.call f args) :=
        Classical.not_not.1 fun hnot => Bool.eq_false_iff.1 hchanged (hany.2 hnot)
      exact ⟨_, rfl, .of_unchanged he hpinned⟩
    | true =>
      obtain ⟨hv', hwrapped', hfolds⟩ := rewritten_call hv hlength hargs
      have hcall : f.call (collect rs).args = .ok (.call f (rs.map Folded.expr)) :=
        Function.call_eq_ok.2 ⟨hv', rfl⟩
      simp only [hcall, if_true]
      refine ⟨_, rfl, ⟨hwrapped', hfolds, fun h => by cases h⟩,
        ⟨fun _ => hany.1 hchanged, fun _ => rfl⟩, ?_⟩
      intro _
      exact ⟨f, args, rs.map Folded.expr, rfl, rfl, by rw [List.length_map, hlength]⟩
  | custom node inner ih =>
    obtain ⟨hinner, hwraps⟩ := wrapped_custom.1 he
    obtain ⟨r, hr, hwithin⟩ := ih hinner
    have hiff := hwithin.changed_iff
    simp only [foldWithin, hwraps.exposes, if_true, hr, pure_bind]
    cases hchanged : r.changed with
    | false =>
      have hpinned : PinnedOnly (.custom node inner) :=
        pinnedOnly_custom.2 (Classical.not_not.1 fun hnot =>
          Bool.eq_false_iff.1 hchanged (hiff.2 hnot))
      exact ⟨_, rfl, .of_unchanged he hpinned⟩
    | true =>
      refine ⟨r, rfl, ⟨hwithin.wrapped, .givenUp (hiff.1 hchanged) hwithin.foldsTo, ?_⟩, ?_, ?_⟩
      · intro hunchanged
        rw [hchanged] at hunchanged
        cases hunchanged
      · rw [pinnedOnly_custom, hiff]
      · intro _
        obtain ⟨f, args, args', hshown, hkept⟩ := hwithin.keepsCall hchanged
        exact ⟨f, args, args', by rw [asCall?, hwraps.exposes, if_pos rfl, hshown], hkept⟩

/-- Folding succeeds without a visit, its root included. -/
theorem Wrapped.exists_foldConstants {e : Expr} (he : Wrapped e) :
    ∃ r, e.foldConstants = pure (.ok r) ∧ Rewritten e r ∧
      (r.changed = true ↔ ¬ (e.PinnedOnly ∧ ¬ e.IsNaturalCall)) := by
  obtain ⟨r, hr, hwithin⟩ := exists_foldWithin he
  obtain ⟨r', hr', hrewritten, hchanged⟩ := exists_settle hwithin
  have hfold : e.fold = pure r' := by rw [fold, hr, pure_bind, hr']
  exact ⟨r', congrArg ExceptT.run hfold, hrewritten, hchanged⟩

end Expr

end Lookback
