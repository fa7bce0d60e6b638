-- SUMMARY: What folding leaves behind: a normal form that folding again leaves alone, and one literal for each call that is gone.
import Lookback.Proofs.Folding
import Lookback.Proofs.Refusals

/-!
# Normal forms of folding

A call that is the same at every key is a natural call. Folding leaves one standing
only where a swept function takes it apart, as a comparison of two literals
(`IsNormal`).

`Reduces` collects what folding does to a tree without user-defined nodes, and
`settle_reduces`, `foldArgs_reduces`, `foldWithin_reduces` and `fold_reduces` follow
the functions that fold. When the root of an expression is looked at, natural calls
remain below it at pinned positions only. So the arguments of a natural call are
literals by then, and with each call that becomes a literal the tree loses this one
call, and at least one node.
-/

namespace Lookback

namespace Expr

/-- A tree without user-defined nodes has no such nodes of any sort. -/
theorem Built.over {leaf : CustomNode → Expr → Prop} {e : Expr} (he : e.Built) :
    BuiltOver leaf e := by
  induction he with
  | literal l => exact .literal l
  | series s => exact .series s
  | call _ hcall ih => exact .call ih hcall
  | leaf hleaf => exact hleaf.elim

/-! ## Natural calls -/

/-- A call whose result is the same at every key. -/
def IsNaturalCall (e : Expr) : Prop :=
  ∃ f args, e = .call f args ∧ f.isNatural args = true

theorem isNaturalCall_call {f : Function} {args : List Expr} :
    IsNaturalCall (.call f args) ↔ f.isNatural args = true := by
  constructor
  · rintro ⟨f', args', h, hnatural⟩
    cases h
    exact hnatural
  · exact fun hnatural => ⟨f, args, rfl, hnatural⟩

theorem isConstant_call_eq (f : Function) (args : List Expr) :
    (call f args).isConstant = f.isNatural args := by
  rw [isConstant, isKeyDependent, Bool.not_not, Function.isNatural]

theorem IsNaturalCall.isConstant {e : Expr} (h : e.IsNaturalCall) : e.isConstant = true := by
  obtain ⟨f, args, rfl, hnatural⟩ := h
  rw [isConstant_call_eq, hnatural]

/-- What is the same at every key is a literal or a natural call. -/
theorem Built.exists_literal {e : Expr} (he : e.Built) (hconstant : e.isConstant = true)
    (hcall : ¬ e.IsNaturalCall) : ∃ l, e = .literal l := by
  match e with
  | .literal l => exact ⟨l, rfl⟩
  | .series s => cases hconstant
  | .call f args => exact (hcall ⟨f, args, rfl, by rw [← isConstant_call_eq, hconstant]⟩).elim
  | .custom node inner => exact (Built.not_custom he).elim

/-- Below the root, natural calls are found at pinned positions only. -/
def PinnedOnly (e : Expr) : Prop :=
  ∀ f args index arg, Occurs (.call f args) e → args[index]? = some arg → arg.IsNaturalCall →
    f.comparisonArgument? = some index

theorem pinnedOnly_call {f : Function} {args : List Expr} :
    PinnedOnly (.call f args) ↔ ∀ (index : Nat) (arg : Expr), args[index]? = some arg →
      arg.PinnedOnly ∧ (arg.IsNaturalCall → f.comparisonArgument? = some index) := by
  constructor
  · intro h index arg harg
    refine ⟨?_, h f args index arg .here harg⟩
    intro f' args' index' arg' hoccurs
    exact h f' args' index' arg' (.arg (List.mem_of_getElem? harg) hoccurs)
  · intro h f' args' index' arg' hoccurs harg'
    rcases occurs_call.1 hoccurs with heq | ⟨arg, harg, hbelow⟩
    · cases heq
      exact (h index' arg' harg').2
    · obtain ⟨index, hindex⟩ := List.getElem?_of_mem harg
      exact (h index arg hindex).1 f' args' index' arg' hbelow harg'

theorem PinnedOnly.of_occurs {x e : Expr} (h : e.PinnedOnly) (hx : Occurs x e) : x.PinnedOnly :=
  fun f args index arg hoccurs => h f args index arg (hoccurs.trans hx)

/-- An elementwise function pins no argument. -/
theorem comparisonArgument?_of_isNatural {f : Function} {args : List Expr}
    (h : f.isNatural args = true) : f.comparisonArgument? = none := by
  match f with
  | .element op => rfl
  | .historical op keys => cases h

/-- The arguments of a natural call are literals when natural calls are pinned. -/
theorem PinnedOnly.args_literal {f : Function} {args : List Expr} (h : PinnedOnly (.call f args))
    (he : Built (.call f args)) (hnatural : f.isNatural args = true) :
    ∀ a ∈ args, ∃ l, a = .literal l := by
  intro a ha
  have hconstant : (call f args).isConstant = true := by rw [isConstant_call_eq, hnatural]
  have hbuilt : Built a := (builtOver_call.1 he).1 a ha
  refine Built.exists_literal hbuilt ((isConstant_call.1 hconstant).2 a ha) ?_
  intro hcall
  obtain ⟨index, hindex⟩ := List.getElem?_of_mem ha
  have hpinned := (pinnedOnly_call.1 h index a hindex).2 hcall
  rw [comparisonArgument?_of_isNatural hnatural] at hpinned
  cases hpinned

/-! ## Settling -/

/-- A natural call becomes the literal of its value. -/
theorem settle_of_hasValue {r : Folded} {v : Value} (hbuilt : r.expr.Built)
    (h : r.expr.IsNaturalCall) (hv : r.expr.HasValue v) :
    settle r = pure ⟨.literal (.ofValue v), r.folds + 1, true⟩ := by
  obtain ⟨f, args, hcall, hnatural⟩ := h
  have hshown : r.expr.asCall? = some (f, args) := by rw [hcall, asCall?]
  simp only [settle, hshown, hnatural, hbuilt.constantValue_eq hv]
  rfl

theorem settle_natural {r : Folded} (hbuilt : r.expr.Built) (h : r.expr.IsNaturalCall) :
    ∃ l, settle r = pure ⟨.literal l, r.folds + 1, true⟩ := by
  obtain ⟨v, hv⟩ := hbuilt.exists_value h.isConstant
  exact ⟨.ofValue v, settle_of_hasValue hbuilt h hv⟩

/-- Everything else stays. -/
theorem settle_other {r : Folded} (hbuilt : r.expr.Built) (h : ¬ r.expr.IsNaturalCall) :
    settle r = pure r := by
  match hexpr : r.expr with
  | .literal l => simp only [settle, hexpr, asCall?]
  | .series s => simp only [settle, hexpr, asCall?]
  | .call f args =>
    rw [hexpr, isNaturalCall_call] at h
    simp only [settle, hexpr, asCall?, if_neg h]
  | .custom node inner =>
    rw [hexpr] at hbuilt
    exact (Built.not_custom hbuilt).elim

/-! ## What folding does to a tree -/

/-- Every elementwise function asks for an argument. -/
theorem args_ne_nil {op : ElementOp} {args : List Expr}
    (h : (Function.element op).validate args = .ok ()) : args ≠ [] := by
  have haccepts := (Function.validate_eq_ok.1 h).1
  rintro rfl
  cases op with
  | arithmetic op => cases op <;> cases haccepts
  | extremum which => cases which <;> cases haccepts
  | relation r => cases r <;> cases haccepts
  | _ => cases haccepts

theorem nodeCounts_pos {es : List Expr} (h : es ≠ []) : 0 < nodeCounts es := by
  cases es with
  | nil => exact (h rfl).elim
  | cons e es =>
    rw [nodeCounts, nodeCount_eq]
    omega

theorem callCounts_literals {es : List Expr} (h : ∀ e ∈ es, ∃ l, e = .literal l) :
    callCounts es = 0 := by
  induction es with
  | nil => rfl
  | cons e es ih =>
    obtain ⟨⟨l, rfl⟩, hes⟩ := List.forall_mem_cons.1 h
    rw [callCounts, callCount, ih hes]

/-- What an expression has become in folding. -/
structure Reduces (e : Expr) (r : Folded) : Prop where
  built : r.expr.Built
  constant : r.expr.isConstant = e.isConstant
  pinnedOnly : r.expr.PinnedOnly
  calls : r.expr.callCount + r.folds = e.callCount
  nodes : r.expr.nodeCount + r.folds ≤ e.nodeCount
  changed : r.changed = true ↔ r.folds ≠ 0
  unchanged : r.folds = 0 → r.expr = e

theorem Reduces.of_kept {e : Expr} (he : e.Built) (h : e.PinnedOnly) : Reduces e (kept e) where
  built := he
  constant := rfl
  pinnedOnly := h
  calls := rfl
  nodes := Nat.le_refl _
  changed := ⟨nofun, fun h => (h rfl).elim⟩
  unchanged _ := rfl

/-- What arguments have become in folding, in place. -/
structure ReducesAll (pinned : Option Nat) (position : Nat) (args : List Expr)
    (rs : FoldedArgs) : Prop where
  built : ∀ a ∈ rs.args, a.Built
  constant : allConstant rs.args = allConstant args
  pinnedOnly : ∀ (index : Nat) (a : Expr), rs.args[index]? = some a →
    a.PinnedOnly ∧ (a.IsNaturalCall → pinned = some (position + index))
  calls : callCounts rs.args + rs.folds = callCounts args
  nodes : nodeCounts rs.args + rs.folds ≤ nodeCounts args
  changed : rs.changed = true ↔ rs.folds ≠ 0
  unchanged : rs.folds = 0 → rs.args = args

/-- Settling takes one call away, or nothing. -/
theorem settle_reduces {e : Expr} {r : Folded} (h : Reduces e r) :
    ∃ r', settle r = pure r' ∧ Reduces e r' ∧ ¬ r'.expr.IsNaturalCall := by
  by_cases hcall : r.expr.IsNaturalCall
  · obtain ⟨l, hl⟩ := settle_natural h.built hcall
    refine ⟨_, hl, ?_, nofun⟩
    have hconstant := hcall.isConstant
    obtain ⟨expr, folds, changed⟩ := r
    obtain ⟨f, args, rfl, hnatural⟩ := hcall
    obtain ⟨⟨op, rfl⟩, -⟩ := isConstant_call.1 hconstant
    have hargs : 0 < nodeCounts args := nodeCounts_pos (args_ne_nil (builtOver_call.1 h.built).2)
    have hcalls : 1 + callCounts args + folds = e.callCount := h.calls
    have hnodes : 1 + nodeCounts args + folds ≤ e.nodeCount := h.nodes
    rw [callCounts_literals (h.pinnedOnly.args_literal h.built hnatural)] at hcalls
    constructor
    case built => exact .literal l
    case constant => rw [← h.constant, hconstant]; rfl
    case pinnedOnly => exact fun _ _ _ _ hoccurs => by cases hoccurs
    case calls => simp only [callCount]; omega
    case nodes => simp only [nodeCount]; omega
    case changed => simp
    case unchanged => simp
  · exact ⟨r, settle_other h.built hcall, h, hcall⟩

theorem ReducesAll.nil (pinned : Option Nat) (position : Nat) :
    ReducesAll pinned position [] ⟨[], 0, false⟩ where
  built := nofun
  constant := rfl
  pinnedOnly := nofun
  calls := rfl
  nodes := Nat.le_refl _
  changed := ⟨nofun, fun h => (h rfl).elim⟩
  unchanged _ := rfl

/-- A natural call is left standing at the pinned position. -/
theorem ReducesAll.cons {pinned : Option Nat} {position : Nat} {a : Expr} {args : List Expr}
    {r : Folded} {rs : FoldedArgs} (h : Reduces a r)
    (hpinned : r.expr.IsNaturalCall → pinned = some position)
    (hs : ReducesAll pinned (position + 1) args rs) :
    ReducesAll pinned position (a :: args)
      ⟨r.expr :: rs.args, r.folds + rs.folds, r.changed || rs.changed⟩ := by
  have hcalls := h.calls
  have hnodes := h.nodes
  have hcalls' := hs.calls
  have hnodes' := hs.nodes
  constructor
  case built => exact List.forall_mem_cons.2 ⟨h.built, hs.built⟩
  case constant =>
    have hconstant := h.constant
    simp only [isConstant] at hconstant
    simp only [allConstant, hconstant, hs.constant]
  case pinnedOnly =>
    intro index a' ha'
    cases index with
    | zero =>
      obtain rfl := Option.some.inj ha'
      exact ⟨h.pinnedOnly, hpinned⟩
    | succ index =>
      obtain ⟨hbelow, hat⟩ := hs.pinnedOnly index a' ha'
      exact ⟨hbelow, fun hcall => by rw [hat hcall]; congr 1; omega⟩
  case calls => simp only [callCounts]; omega
  case nodes => simp only [nodeCounts]; omega
  case changed =>
    rw [Bool.or_eq_true, h.changed, hs.changed]
    dsimp only
    omega
  case unchanged =>
    intro hfolds
    dsimp only at hfolds ⊢
    rw [h.unchanged (by omega), hs.unchanged (by omega)]

theorem ReducesAll.call {f : Function} {args : List Expr} {rs : FoldedArgs}
    (h : ReducesAll f.comparisonArgument? 0 args rs) (hv : f.validate rs.args = .ok ()) :
    Reduces (.call f args) ⟨.call f rs.args, rs.folds, rs.changed⟩ where
  built := builtOver_call.2 ⟨h.built, hv⟩
  constant := by simp only [isConstant_call_eq, Function.isNatural, h.constant]
  pinnedOnly := pinnedOnly_call.2 fun index a ha => by simpa using h.pinnedOnly index a ha
  calls := by have := h.calls; simp only [callCount]; omega
  nodes := by have := h.nodes; simp only [nodeCount]; omega
  changed := h.changed
  unchanged hfolds := by rw [h.unchanged hfolds]

theorem foldArgs_reduces (pinned : Option Nat) {args : List Expr}
    (hargs : ∀ a ∈ args, ∃ r, foldWithin a = pure r ∧ Reduces a r) (position : Nat) :
    ∃ rs, foldArgs pinned position args = pure rs ∧ ReducesAll pinned position args rs := by
  induction args generalizing position with
  | nil => exact ⟨⟨[], 0, false⟩, rfl, .nil pinned position⟩
  | cons a args ih =>
    obtain ⟨⟨r, hr, hreduces⟩, hargs⟩ := List.forall_mem_cons.1 hargs
    obtain ⟨rs, hrs, hrest⟩ := ih hargs (position + 1)
    -- Nothing is settled at the pinned position, so a natural call may be left there.
    have hsettled : ∃ r', (if pinned = some position then pure r else settle r) = pure r' ∧
        Reduces a r' ∧ (r'.expr.IsNaturalCall → pinned = some position) := by
      by_cases hposition : pinned = some position
      · exact ⟨r, if_pos hposition, hreduces, fun _ => hposition⟩
      · obtain ⟨r', hr', hreduces', hcall⟩ := settle_reduces hreduces
        exact ⟨r', by rw [if_neg hposition, hr'], hreduces', fun h => (hcall h).elim⟩
    obtain ⟨r', hr', hreduces', hpinned⟩ := hsettled
    refine ⟨_, ?_, .cons hreduces' hpinned hrest⟩
    simp only [foldArgs_cons, hr, hr', hrs, pure_bind]

theorem foldWithin_reduces {e : Expr} (he : e.Built) :
    ∃ r, foldWithin e = pure r ∧ Reduces e r := by
  induction e with
  | literal l => exact ⟨kept (.literal l), rfl, .of_kept he nofun⟩
  | series s => exact ⟨kept (.series s), rfl, .of_kept he nofun⟩
  | custom node inner _ => exact (Built.not_custom he).elim
  | call f args ih =>
    obtain ⟨hbuilt, hv⟩ := builtOver_call.1 he
    obtain ⟨rs, hrs, hall⟩ :=
      foldArgs_reduces f.comparisonArgument? (fun a ha => ih a ha (hbuilt a ha)) 0
    -- That the call passes its checks again is part of the soundness of folding.
    obtain ⟨r, hr, -⟩ := foldWithin_sound (Built.over he)
    simp only [foldWithin, hrs, pure_bind] at hr ⊢
    cases hchanged : rs.changed with
    | false =>
      have hfolds : rs.folds = 0 := by simpa [hchanged] using hall.changed
      have hargs : rs.args = args := hall.unchanged hfolds
      have hreduces := hall.call (hargs ▸ hv)
      rw [hargs, hchanged] at hreduces
      exact ⟨_, rfl, hreduces⟩
    | true =>
      rw [hchanged] at hr
      cases hcall : f.call rs.args with
      | error error =>
        rw [hcall] at hr
        cases congrArg (Traced.value ∘ ExceptT.run) hr
      | ok e =>
        obtain ⟨hv', rfl⟩ := Function.call_eq_ok.1 hcall
        have hreduces := hall.call hv'
        rw [hchanged] at hreduces
        exact ⟨_, rfl, hreduces⟩

theorem fold_reduces {e : Expr} (he : e.Built) :
    ∃ r, e.fold = pure r ∧ Reduces e r ∧ ¬ r.expr.IsNaturalCall := by
  obtain ⟨r, hr, hreduces⟩ := foldWithin_reduces he
  obtain ⟨r', hr', hreduces', hcall⟩ := settle_reduces hreduces
  exact ⟨r', by simp only [fold, hr, hr', pure_bind], hreduces', hcall⟩

/-! ## Normal forms -/

/-- No call is left that folding could have replaced. A natural call stands only where a
    swept function has to find a comparison, and compares two literals. -/
structure IsNormal (e : Expr) : Prop where
  root : ¬ e.IsNaturalCall
  pinned : ∀ f args index arg, Occurs (.call f args) e → args[index]? = some arg →
    arg.IsNaturalCall →
    (∃ side quantifier keys, f = .historical (.swept side quantifier) keys) ∧
      f.comparisonArgument? = some index ∧
      ∃ relation left right,
        arg = .call (.element (.relation relation)) [.literal left, .literal right]

theorem comparisonArgument?_eq_some {f : Function} {index : Nat}
    (h : f.comparisonArgument? = some index) :
    ∃ side quantifier keys, f = .historical (.swept side quantifier) keys := by
  match f with
  | .element op => cases h
  | .historical (.window op) keys => cases h
  | .historical (.swept side quantifier) keys => exact ⟨side, quantifier, keys, rfl⟩

/-- A pinned natural call compares two literals. -/
theorem PinnedOnly.isNormal {e : Expr} (h : e.PinnedOnly) (he : e.Built)
    (hroot : ¬ e.IsNaturalCall) : e.IsNormal := by
  refine ⟨hroot, ?_⟩
  intro f args index arg hoccurs harg hnatural
  have hindex := h f args index arg hoccurs harg hnatural
  have hmem : arg ∈ args := List.mem_of_getElem? harg
  obtain ⟨hbuilt, hv⟩ := builtOver_call.1 (Built.of_occurs he hoccurs)
  obtain ⟨c, hc⟩ := (Function.validate_eq_ok.1 hv).2 index arg hindex harg
  obtain rfl := Built.eq_of_asComparison (hbuilt arg hmem) hc
  have hbelow := h.of_occurs ((Occurs.arg hmem .here).trans hoccurs)
  have hliteral := hbelow.args_literal (hbuilt _ hmem) (isNaturalCall_call.1 hnatural)
  obtain ⟨left, hleft⟩ := hliteral c.left (by simp)
  obtain ⟨right, hright⟩ := hliteral c.right (by simp)
  exact ⟨comparisonArgument?_eq_some hindex, hindex, c.relation, left, right, by rw [hleft, hright]⟩

/-! ## Folding again -/

theorem foldArgs_of_pinned {pinned : Option Nat} {args : List Expr} {position : Nat}
    (hbuilt : ∀ a ∈ args, a.Built) (hargs : ∀ a ∈ args, foldWithin a = pure (kept a))
    (hpinned : ∀ (index : Nat) (a : Expr), args[index]? = some a → a.IsNaturalCall →
      pinned = some (position + index)) :
    foldArgs pinned position args = pure ⟨args, 0, false⟩ := by
  induction args generalizing position with
  | nil => rfl
  | cons a args ih =>
    obtain ⟨ha, hargs⟩ := List.forall_mem_cons.1 hargs
    obtain ⟨hbuilta, hbuilt⟩ := List.forall_mem_cons.1 hbuilt
    have hrest : foldArgs pinned (position + 1) args = pure ⟨args, 0, false⟩ := by
      refine ih hbuilt hargs fun index a' ha' hcall => ?_
      rw [hpinned (index + 1) a' ha' hcall]
      congr 1
      omega
    have hsettled : (if pinned = some position then pure (kept a) else settle (kept a)) =
        (pure (kept a) : Folding Folded) := by
      split
      · rfl
      · rename_i hposition
        exact settle_other hbuilta fun hcall => hposition (hpinned 0 a rfl hcall)
    simp only [foldArgs_cons, ha, hsettled, hrest, pure_bind]
    rfl

/-- Below its root, nothing is left to be folded. -/
theorem PinnedOnly.foldWithin_eq {e : Expr} (h : e.PinnedOnly) (he : e.Built) :
    foldWithin e = pure (kept e) := by
  induction e with
  | literal l => rfl
  | series s => rfl
  | custom node inner _ => exact (Built.not_custom he).elim
  | call f args ih =>
    obtain ⟨hbuilt, -⟩ := builtOver_call.1 he
    rw [pinnedOnly_call] at h
    have hargs : ∀ a ∈ args, foldWithin a = pure (kept a) := by
      intro a ha
      obtain ⟨index, hindex⟩ := List.getElem?_of_mem ha
      exact ih a ha (h index a hindex).1 (hbuilt a ha)
    have hall : foldArgs f.comparisonArgument? 0 args = pure ⟨args, 0, false⟩ :=
      foldArgs_of_pinned hbuilt hargs fun index a ha hcall => by
        rw [(h index a ha).2 hcall, Nat.zero_add]
    simp only [foldWithin, hall, pure_bind]
    rfl

/-- Folding leaves a normal form as it is. -/
theorem PinnedOnly.fold_eq {e : Expr} (h : e.PinnedOnly) (he : e.Built)
    (hroot : ¬ e.IsNaturalCall) : e.fold = pure (kept e) := by
  rw [fold, h.foldWithin_eq he, pure_bind]
  exact settle_other he hroot

/-- Folding a tree of literals, series and calls succeeds and ends in a normal form. It is
    a literal just when the tree is constant, and folding it again changes nothing. -/
theorem Built.foldConstants_normalForm {e : Expr} (he : e.Built) :
    ∃ r, e.foldConstants = pure (.ok r) ∧ r.expr.IsNormal ∧
      ((∃ l, r.expr = .literal l) ↔ e.isConstant = true) ∧
      r.expr.foldConstants = pure (.ok ⟨r.expr, 0, false⟩) := by
  obtain ⟨r, hr, hreduces, hroot⟩ := fold_reduces he
  have hagain := hreduces.pinnedOnly.fold_eq hreduces.built hroot
  refine ⟨r, congrArg ExceptT.run hr, hreduces.pinnedOnly.isNormal hreduces.built hroot, ?_,
    congrArg ExceptT.run hagain⟩
  rw [← hreduces.constant]
  constructor
  · rintro ⟨l, hl⟩
    rw [hl]
    rfl
  · exact fun hconstant => hreduces.built.exists_literal hconstant hroot

/-- A swept function keeps its comparison, although both operands are constant. What the
    count and the operands fold to is a normal form. -/
theorem Built.foldConstants_normalForm_swept :
    let one : Expr := .call (.element .isTrue) [.literal (.boolean true)]
    let less (left right : Expr) : Expr := .call (.element (.relation .less)) [left, right]
    let swept (count condition : Expr) : Expr :=
      .call (.historical (.swept .left .somewhere) .bars) [count, condition]
    let root : Expr := swept one (less (.literal .null) one)
    let folded : Expr :=
      swept (.literal (.boolean true)) (less (.literal .null) (.literal (.boolean true)))
    root.foldConstants = pure (.ok ⟨folded, 2, true⟩) ∧ folded.IsNormal ∧
      (∀ l, folded ≠ .literal l) ∧ folded.foldConstants = pure (.ok ⟨folded, 0, false⟩) := by
  intro one less swept root folded
  have hone : one.Built := builtOver_call.2 ⟨by simp [BuiltOver.literal], rfl⟩
  have hless : (less (.literal .null) one).Built :=
    builtOver_call.2 ⟨by simp [BuiltOver.literal, hone], rfl⟩
  have hroot : root.Built := builtOver_call.2 ⟨by simp [hone, hless], rfl⟩
  obtain ⟨r, hr, hnormal, hliteral, hagain⟩ := hroot.foldConstants_normalForm
  have hfolds : root.foldConstants = pure (.ok ⟨folded, 2, true⟩) := rfl
  obtain rfl : r = ⟨folded, 2, true⟩ := Except.ok.inj (congrArg Traced.value (hr.symm.trans hfolds))
  refine ⟨hfolds, hnormal, ?_, hagain⟩
  intro l hl
  cases hliteral.1 ⟨l, hl⟩

end Expr

end Lookback
