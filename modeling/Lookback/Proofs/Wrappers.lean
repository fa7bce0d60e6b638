-- SUMMARY: What becomes of user-defined nodes that show their calls: folding keeps those with nothing to fold below, and gives up the others.
import Lookback.Proofs.Rewriting

/-!
# Wrappers

A user-defined node may show the call it wraps, so that folding can look below it. Where
something is folded there, the call is built anew from the arguments, and the node is not put
back around it. Its visits are lost with it, and so is its refusal of key models.

`bared` is the expression without these nodes. What folding returns compiles like it
(`FoldsTo.agree`). So a tree compiles the same before and after folding when every node of the
sort has nothing to fold below it, for then `bared` is the tree itself.
-/

namespace Lookback

namespace Expr

/-! ## Something to fold -/

/-- Whether an expression is a call whose result is the same at every key. -/
def isNaturalCall : Expr → Bool
  | .call f args => f.isNatural args
  | _ => false

theorem isNaturalCall_iff {e : Expr} : e.isNaturalCall = true ↔ e.IsNaturalCall := by
  match e with
  | .literal l => exact ⟨nofun, nofun⟩
  | .series s => exact ⟨nofun, nofun⟩
  | .call f args => exact isNaturalCall_call.symm
  | .custom node inner => exact ⟨nofun, nofun⟩

mutual

/-- Whether natural calls are found at pinned positions only, below the root. -/
def pinnedOnly : Expr → Bool
  | .literal _ => true
  | .series _ => true
  | .call f args => pinnedOnlyFrom f.comparisonArgument? 0 args
  | .custom _ inner => inner.pinnedOnly

/-- Whether this holds of arguments that start at a position, and of the arguments of
    those. -/
def pinnedOnlyFrom (pinned : Option Nat) (position : Nat) : List Expr → Bool
  | [] => true
  | e :: es =>
    e.pinnedOnly && (!e.isNaturalCall || pinned = some position) &&
      pinnedOnlyFrom pinned (position + 1) es

end

theorem pinnedOnlyFrom_iff {pinned : Option Nat} {args : List Expr} {position : Nat} :
    pinnedOnlyFrom pinned position args = true ↔
      ∀ (index : Nat) (a : Expr), args[index]? = some a →
        a.pinnedOnly = true ∧ (a.IsNaturalCall → pinned = some (position + index)) := by
  induction args generalizing position with
  | nil => exact ⟨fun _ => nofun, fun _ => rfl⟩
  | cons a args ih =>
    simp only [pinnedOnlyFrom, Bool.and_eq_true, Bool.or_eq_true, Bool.not_eq_true',
      decide_eq_true_eq, ih, ← isNaturalCall_iff]
    constructor
    · rintro ⟨⟨hbelow, hhere⟩, hrest⟩ index a' ha'
      cases index with
      | zero =>
        cases ha'
        refine ⟨hbelow, fun hcall => ?_⟩
        rcases hhere with hno | hpinned
        · rw [hcall] at hno
          cases hno
        · exact hpinned
      | succ index =>
        have hlater := hrest index a' ha'
        rwa [Nat.add_right_comm] at hlater
    · intro h
      obtain ⟨hbelow, hhere⟩ := h 0 a rfl
      refine ⟨⟨hbelow, ?_⟩, fun index a' ha' => ?_⟩
      · cases hcall : a.isNaturalCall with
        | false => exact .inl rfl
        | true => exact .inr (hhere hcall)
      · rw [Nat.add_right_comm]
        exact h (index + 1) a' ha'

theorem pinnedOnly_iff {e : Expr} : e.pinnedOnly = true ↔ e.PinnedOnly := by
  induction e with
  | literal l => exact ⟨fun _ => pinnedOnly_literal l, fun _ => rfl⟩
  | series s => exact ⟨fun _ => pinnedOnly_series s, fun _ => rfl⟩
  | call f args ih =>
    rw [pinnedOnly, pinnedOnlyFrom_iff, pinnedOnly_call]
    refine forall₂_congr fun index a => imp_congr_right fun ha => ?_
    rw [ih a (List.mem_of_getElem? ha), Nat.zero_add]
  | custom node inner ih => rw [pinnedOnly, ih, pinnedOnly_custom]

instance (e : Expr) : Decidable e.PinnedOnly := decidable_of_iff _ pinnedOnly_iff

/-! ## Without the wrappers that are given up -/

mutual

/-- The expression without the user-defined nodes that have something to fold below
    them. -/
def bared : Expr → Expr
  | .literal l => .literal l
  | .series s => .series s
  | .call f args => .call f (baredAll args)
  | .custom node inner => if inner.PinnedOnly then .custom node inner else inner.bared

/-- Expressions without these nodes. -/
def baredAll : List Expr → List Expr
  | [] => []
  | e :: es => e.bared :: baredAll es

end

theorem baredAll_eq (es : List Expr) : baredAll es = es.map bared := by
  induction es with
  | nil => rfl
  | cons e es ih => rw [baredAll, ih, List.map_cons]

theorem bared_call (f : Function) (args : List Expr) :
    (call f args).bared = .call f (args.map bared) := by
  rw [bared, baredAll_eq]

/-- The wrappers that are left have nothing to fold below them. -/
theorem pinnedOnly_of_occurs_bared {e inner : Expr} {node : CustomNode}
    (h : Occurs (.custom node inner) e.bared) : inner.PinnedOnly := by
  induction e with
  | literal l => cases h
  | series s => cases h
  | call f args ih =>
    rw [bared_call, occurs_call] at h
    rcases h with h | ⟨a', ha', hbelow⟩
    · cases h
    · obtain ⟨a, ha, rfl⟩ := List.mem_map.1 ha'
      exact ih a ha hbelow
  | custom node' inner' ih =>
    rw [bared] at h
    split at h
    · rename_i hpinned
      have hall : PinnedOnly (.custom node inner) := (pinnedOnly_custom.2 hpinned).of_occurs h
      exact pinnedOnly_custom.1 hall
    · exact ih h

/-- Nothing is given up just when no wrapper has something to fold below it. -/
theorem bared_eq_self_iff {e : Expr} :
    e.bared = e ↔ ∀ node inner, Occurs (.custom node inner) e → inner.PinnedOnly := by
  constructor
  · intro h node inner hoccurs
    exact pinnedOnly_of_occurs_bared (h.symm ▸ hoccurs)
  · intro h
    induction e with
    | literal l => rfl
    | series s => rfl
    | call f args ih =>
      have hargs : args.map bared = args := by
        calc args.map bared
            = args.map id := List.map_congr_left fun a ha =>
              ih a ha fun node inner hoccurs => h node inner (.arg ha hoccurs)
          _ = args := args.map_id
      rw [bared_call, hargs]
    | custom node inner _ => rw [bared, if_pos (h node inner .here)]

theorem PinnedOnly.bared_eq {e : Expr} (h : e.PinnedOnly) : e.bared = e :=
  bared_eq_self_iff.2 fun _ _ hoccurs => pinnedOnly_custom.1 (h.of_occurs hoccurs)

/-- With something to fold below it, an expression shows a call, and keeps it. -/
theorem Wrapped.keepsCall_bared {e : Expr} (he : Wrapped e) (h : ¬ e.PinnedOnly) :
    KeepsCall e e.bared := by
  induction e with
  | literal l => exact (h (pinnedOnly_literal l)).elim
  | series s => exact (h (pinnedOnly_series s)).elim
  | call f args _ =>
    exact ⟨f, args, args.map bared, rfl, bared_call f args, List.length_map bared⟩
  | custom node inner ih =>
    obtain ⟨hinner, hwraps⟩ := wrapped_custom.1 he
    rw [pinnedOnly_custom] at h
    obtain ⟨f, args, args', hshown, hkept⟩ := ih hinner h
    exact ⟨f, args, args', by rw [asCall?, hwraps.exposes, if_pos rfl, hshown],
      by rw [bared, if_neg h]; exact hkept.1, hkept.2⟩

theorem Wrapped.validate_bared {f : Function} {args : List Expr} (he : Wrapped (.call f args)) :
    f.validate (args.map bared) = .ok () := by
  obtain ⟨hargs, hv⟩ := wrapped_call.1 he
  refine validate_of_keepsCall (List.length_map bared) (fun index a a' _ ha ha' => ?_) hv
  rw [List.getElem?_map, ha] at ha'
  obtain rfl := Option.some.inj ha'
  by_cases hpinned : a.PinnedOnly
  · exact .inl hpinned.bared_eq
  · exact .inr ((hargs a (List.mem_of_getElem? ha)).keepsCall_bared hpinned)

/-! ## Compiling what is returned -/

/-- What an expression folds to agrees with what is left without the wrappers given up. -/
theorem FoldsTo.agree {e e' : Expr} (h : FoldsTo e e') (he : Wrapped e) (M : KeyModel) :
    Agree (.identity M.Key) e.bared e' := by
  induction h with
  | literal l => exact .refl _
  | series s => exact .refl _
  | @call f args args' hlength _ hv' ih =>
    obtain ⟨hargs, -⟩ := wrapped_call.1 he
    rw [bared_call]
    refine call_agree (.refl f) he.validate_bared hv' (List.forall₂_iff_get.2 ⟨?_, ?_⟩)
    · rw [List.length_map, hlength]
    · intro index hindex hindex'
      have hlt : index < args.length := by simpa using hindex
      simp only [List.get_eq_getElem, List.getElem_map]
      exact ih index _ _ (List.getElem?_eq_getElem hlt) (List.getElem?_eq_getElem hindex')
        (hargs _ (List.getElem_mem hlt))
  | value _ _ _ hv ih => exact .of_literal ((ih he).outcomes.trans (hv.agree_literal M).outcomes)
  | @kept node inner hpinned =>
    rw [bared, if_pos hpinned]
    exact .refl _
  | givenUp hnot _ ih =>
    rw [bared, if_neg hnot]
    exact ih (wrapped_custom.1 he).1

/-- A probe around a tree without user-defined nodes, if that depends on the key. -/
theorem Built.wraps_probe {inner : Expr} (he : inner.Built) (h : inner.isKeyDependent = true)
    (label : String) (kind? : Option Kind) (models? : Option (List KeyModel)) :
    Wraps (.probe label kind? none true models?) inner where
  exposes := rfl
  dependent := h
  keyless c hc := by
    have hinner : ∃ c', inner.compile .keyless = .ok c' := by
      have hlower : (CustomNode.probe label kind? none true models?).lower .keyless
          (inner.compile .keyless) = .ok c := hc
      simp only [CustomNode.probe] at hlower
      split at hlower
      · obtain ⟨c', hc', -⟩ := Except.bind_eq_ok.1 hlower
        exact ⟨c', hc'⟩
      · cases hlower
    obtain ⟨c', hc'⟩ := hinner
    have hconstant := he.isConstant_of_compile_keyless hc'
    rw [isConstant, h] at hconstant
    cases hconstant

/-- Folding succeeds, and what it returns compiles, in every kind and under every key model,
    like the tree without the wrappers that have something to fold below them: with the same
    error, or to the same values and visits at every key. If there are no such wrappers, this
    is the tree itself. -/
theorem Wrapped.foldConstants_bared {e : Expr} (he : Wrapped e) :
    ∃ r, e.foldConstants = pure (.ok r) ∧
      (∀ M kind, r.expr.compileTo M kind = e.bared.compileTo M kind) ∧
      (e.bared = e ↔ ∀ node inner, Occurs (.custom node inner) e → inner.PinnedOnly) ∧
      ((∀ node inner, Occurs (.custom node inner) e → inner.PinnedOnly) →
        ∀ M kind, r.expr.compileTo M kind = e.compileTo M kind) := by
  obtain ⟨r, hr, hrewritten, -⟩ := he.exists_foldConstants
  have hcompile (M : KeyModel) (kind : Kind) :
      r.expr.compileTo M kind = e.bared.compileTo M kind :=
    ((hrewritten.foldsTo.agree he M).compileTo_eq kind).symm
  refine ⟨r, hr, hcompile, bared_eq_self_iff, fun hpinned M kind => ?_⟩
  rw [hcompile, bared_eq_self_iff.2 hpinned]

/-- A probe around a call stays beside a call that is folded, and is visited as before. -/
theorem Wrapped.foldConstants_bared_beside :
    let x : Expr := .series (.undated "x" #[1, 2])
    let add (left right : Expr) : Expr := .call (.element (.arithmetic .add)) [left, right]
    let probe : Expr := .custom (.probe "w" none none true none) (add x x)
    let e : Expr := add probe (.call (.element .isTrue) [.literal (.boolean true)])
    let folded : Expr := add probe (.literal (.boolean true))
    Wrapped e ∧ e.foldConstants = pure (.ok ⟨folded, 1, true⟩) ∧
      (∀ node inner, Occurs (.custom node inner) e → inner.PinnedOnly) ∧
      (∀ M kind, folded.compileTo M kind = e.compileTo M kind) ∧
      (e.evalDouble .bar 0).map Traced.visits = .ok [⟨"w", 0⟩] := by
  intro x add probe e folded
  have hsum : (add x x).Built := builtOver_call.2 ⟨by simp [x, BuiltOver.series], rfl⟩
  have hprobe : Wrapped probe := wrapped_custom.2 ⟨hsum.wrapped, hsum.wraps_probe rfl _ _ _⟩
  have htrue : Wrapped (.call (.element .isTrue) [.literal (.boolean true)]) :=
    wrapped_call.2 ⟨by simp [Wrapped.literal], rfl⟩
  have he : Wrapped e := wrapped_call.2 ⟨by simp [hprobe, htrue], rfl⟩
  have hpinned (node : CustomNode) (inner : Expr) (h : Occurs (.custom node inner) e) :
      inner.PinnedOnly := bared_eq_self_iff.1 (show e.bared = e from rfl) node inner h
  obtain ⟨r, hr, -, -, hcompile⟩ := he.foldConstants_bared
  have hfolds : e.foldConstants = pure (.ok ⟨folded, 1, true⟩) := rfl
  obtain rfl : r = ⟨folded, 1, true⟩ := Except.ok.inj (congrArg Traced.value (hr.symm.trans hfolds))
  exact ⟨he, hfolds, hpinned, hcompile hpinned, rfl⟩

/-- A probe around a call with a constant sum below it is gone after folding: it is not visited
    any more, and no longer refuses the bars that it does not serve. -/
theorem Wrapped.foldConstants_bared_not :
    let x : Expr := .series (.undated "x" #[1, 2])
    let add (left right : Expr) : Expr := .call (.element (.arithmetic .add)) [left, right]
    let probe (models? : Option (List KeyModel)) : Expr :=
      .custom (.probe "w" none none true models?)
        (add x (add (.literal (.double 1)) (.literal (.double 2))))
    let folded : Expr := add x (.literal (.double (1 + 2)))
    (∀ models?, Wrapped (probe models?) ∧
      (probe models?).foldConstants = pure (.ok ⟨folded, 1, true⟩)) ∧
    ((probe none).evalDouble .bar 0).map Traced.visits = .ok [⟨"w", 0⟩] ∧
    (folded.evalDouble .bar 0).map Traced.visits = .ok [] ∧
    (∃ error, (probe (some [.date])).compileTo .bar .double = .error error) ∧
    ∃ c, folded.compileTo .bar .double = .ok c := by
  intro x add probe folded
  have hsum : (add (.literal (.double 1)) (.literal (.double 2))).Built :=
    builtOver_call.2 ⟨by simp [BuiltOver.literal], rfl⟩
  have hinner : (add x (add (.literal (.double 1)) (.literal (.double 2)))).Built :=
    builtOver_call.2 ⟨by simp [x, BuiltOver.series, hsum], rfl⟩
  refine ⟨fun models? => ⟨?_, rfl⟩, rfl, rfl, ⟨_, rfl⟩, ⟨_, rfl⟩⟩
  exact wrapped_custom.2 ⟨hinner.wrapped, hinner.wraps_probe rfl _ _ _⟩

end Expr

end Lookback
