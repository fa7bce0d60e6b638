-- SUMMARY: Which key models serve which expression: compiling fails exactly when some node refuses the model, and then with the error of such a node.
import Lookback.Proofs.Constancy
import Lookback.Proofs.Histories

/-!
# Refusals

A node may refuse a key model of its own accord, whatever its arguments are: a
series that has no value at keys of the model, or a historical function whose
context steps through other keys. `Expr.Refuses` lists these cases, each with its
error. Nothing else makes compiling fail (`Expr.Built.compile_decidedBy`). So the
key models that serve an expression can be read off its series and its contexts,
and every error names one of them.

Compiling stops at the first error, and a tree may hold several refusals. The
statement that passes through sequencing is therefore `Except.DecidedBy`: with an
error due the outcome is a failure with some error that is due, and otherwise it
is a success.
-/

/-! ## Errors that are due -/

namespace Except

variable {ε α β γ : Type}

/-- A failure with an error that is due, or a success with none due. -/
inductive DecidedBy (due : ε → Prop) : Except ε α → Prop where
  | ok {a} : (∀ e, ¬ due e) → DecidedBy due (.ok a)
  | error {e} : due e → DecidedBy due (.error e)

namespace DecidedBy

variable {due due' : ε → Prop} {x : Except ε α}

theorem exists_ok_iff (h : DecidedBy due x) : (∃ a, x = .ok a) ↔ ∀ e, ¬ due e := by
  cases h with
  | ok hnone => exact ⟨fun _ => hnone, fun _ => ⟨_, rfl⟩⟩
  | error hdue => exact ⟨nofun, fun hnone => (hnone _ hdue).elim⟩

theorem due_of_error {e : ε} (h : DecidedBy due x) (hx : x = .error e) : due e := by
  cases h with
  | ok _ => cases hx
  | error hdue =>
    cases hx
    exact hdue

theorem congr (h : DecidedBy due x) (hiff : ∀ e, due e ↔ due' e) : DecidedBy due' x := by
  cases h with
  | ok hnone => exact .ok fun e he => hnone e ((hiff e).2 he)
  | error hdue => exact .error ((hiff _).1 hdue)

theorem bind {f : α → Except ε β} (hx : DecidedBy due x) (hf : ∀ a, DecidedBy due' (f a)) :
    DecidedBy (fun e => due e ∨ due' e) (x >>= f) := by
  cases hx with
  | error hdue => exact .error (.inl hdue)
  | @ok a hnone => exact (hf a).congr fun e => (or_iff_right (hnone e)).symm

/-- A step that cannot fail adds no errors. -/
theorem map (hx : DecidedBy due x) (f : α → β) : DecidedBy due (x >>= fun a => pure (f a)) := by
  cases hx with
  | error hdue => exact .error hdue
  | ok hnone => exact .ok hnone

theorem mapM {f : γ → Except ε α} {due : γ → ε → Prop} {xs : List γ}
    (h : ∀ x ∈ xs, DecidedBy (due x) (f x)) :
    DecidedBy (fun e => ∃ x ∈ xs, due x e) (xs.mapM f) := by
  induction xs with
  | nil => exact .ok (by simp)
  | cons x xs ih =>
    obtain ⟨hx, hxs⟩ := List.forall_mem_cons.1 h
    rw [List.mapM_cons]
    refine (hx.bind fun a => (ih hxs).map _).congr fun e => ?_
    simp only [List.mem_cons, exists_eq_or_imp]

end DecidedBy

end Except

namespace Lookback

open Except (DecidedBy)

variable {M : KeyModel}

/-! ## Nodes that refuse -/

/-- A context serves the key model it steps through, and no other. -/
theorem PreviousKeys.exists_history?_iff {keys : PreviousKeys} :
    (∃ h, keys.history? M = some h) ↔ keys.model = M := by
  cases M <;> cases keys <;> simp [history?, model]

/-- Under `M` a historical function fails of its own accord with the error `e`. -/
inductive Function.Refuses (M : KeyModel) (op : HistoryOp) (keys : PreviousKeys) :
    EvalError → Prop where
  | keyless : M = .keyless →
      Refuses M op keys (.unsupported (historical op keys).name M .historyNeedsKey)
  | otherModel : M ≠ .keyless → keys.model ≠ M →
      Refuses M op keys (.unsupported (historical op keys).name M .historyOfOtherModel)

theorem Function.exists_refuses_iff {op : HistoryOp} {keys : PreviousKeys} :
    (∃ e, Refuses M op keys e) ↔ M = .keyless ∨ keys.model ≠ M := by
  constructor
  · rintro ⟨e, hM | ⟨-, hmodel⟩⟩
    · exact .inl hM
    · exact .inr hmodel
  · intro h
    by_cases hM : M = .keyless
    · exact ⟨_, .keyless hM⟩
    · exact ⟨_, .otherModel hM (h.resolve_left hM)⟩

/-- Where there are keys, a historical function asks its context, and nothing but the
    context decides. -/
theorem Function.history_decidedBy (hM : M ≠ .keyless) (op : HistoryOp) (keys : PreviousKeys) :
    DecidedBy (Refuses M op keys) ((historical op keys).history keys M) := by
  unfold history
  by_cases hmodel : keys.model = M
  · obtain ⟨h, hh⟩ := PreviousKeys.exists_history?_iff.2 hmodel
    rw [hh]
    refine .ok fun e he => ?_
    rcases Function.exists_refuses_iff.1 ⟨e, he⟩ with hkeyless | hother
    · exact hM hkeyless
    · exact hother hmodel
  · have hnone : keys.history? M = none := by
      rw [Option.eq_none_iff_forall_ne_some]
      exact fun h hh => hmodel (PreviousKeys.exists_history?_iff.1 ⟨h, hh⟩)
    rw [hnone]
    exact .error (.otherModel hM hmodel)

/-- Under `M` a series fails with the error `e`. -/
inductive Series.Refuses (M : KeyModel) (s : Series) : EvalError → Prop where
  | keyless : M = .keyless → Refuses M s (.unsupported s.name M .seriesNeedsKey)
  | undated : M = .date → s.calendar = none → Refuses M s (.unsupported s.name M .seriesUndated)

theorem Series.exists_refuses_iff {s : Series} :
    (∃ e, Refuses M s e) ↔ M = .keyless ∨ M = .date ∧ s.calendar = none := by
  constructor
  · rintro ⟨e, hM | ⟨hM, hcalendar⟩⟩
    · exact .inl hM
    · exact .inr ⟨hM, hcalendar⟩
  · rintro (hM | ⟨hM, hcalendar⟩)
    · exact ⟨_, .keyless hM⟩
    · exact ⟨_, .undated hM hcalendar⟩

theorem Series.compile_decidedBy (M : KeyModel) (s : Series) :
    DecidedBy (Refuses M s) (s.compile M) := by
  cases M with
  | keyless => exact .error (.keyless rfl)
  | bar => exact .ok (by rintro e (h | ⟨h, -⟩) <;> cases h)
  | date =>
    cases hcalendar : s.calendar with
    | none =>
      simp only [compile, hcalendar]
      exact .error (.undated rfl hcalendar)
    | some calendar =>
      rw [compile_date (by rw [hcalendar]; rfl)]
      refine .ok ?_
      rintro e (h | ⟨-, h⟩)
      · cases h
      · rw [hcalendar] at h
        cases h

namespace Expr

/-- Under `M` a node of the expression fails of its own accord with the error `e`. -/
inductive Refuses (M : KeyModel) (e : Expr) (error : EvalError) : Prop where
  | series (s) : Occurs (.series s) e → s.Refuses M error → Refuses M e error
  | historical (op keys args) : Occurs (.call (.historical op keys) args) e →
      Function.Refuses M op keys error → Refuses M e error

theorem refuses_literal {l : Literal} {error : EvalError} : ¬ Refuses M (.literal l) error := by
  rintro (⟨s, h, -⟩ | ⟨op, keys, args, h, -⟩) <;> cases h

theorem refuses_series {s : Series} {error : EvalError} :
    Refuses M (.series s) error ↔ s.Refuses M error := by
  constructor
  · rintro (⟨s', h, hs⟩ | ⟨op, keys, args, h, -⟩)
    · cases h with
      | here => exact hs
    · cases h
  · exact .series s .here

theorem Refuses.of_arg {f : Function} {args : List Expr} {a : Expr} {error : EvalError}
    (ha : a ∈ args) (h : Refuses M a error) : Refuses M (.call f args) error := by
  cases h with
  | series s hs hrefuses => exact .series s (.arg ha hs) hrefuses
  | historical op keys args' hcall hrefuses => exact .historical op keys args' (.arg ha hcall) hrefuses

theorem refuses_element {op : ElementOp} {args : List Expr} {error : EvalError} :
    Refuses M (.call (.element op) args) error ↔ ∃ a ∈ args, Refuses M a error := by
  constructor
  · rintro (⟨s, h, hs⟩ | ⟨op', keys, args', h, hcall⟩)
    · cases h with
      | arg ha hs' => exact ⟨_, ha, .series s hs' hs⟩
    · cases h with
      | arg ha h' => exact ⟨_, ha, .historical op' keys args' h' hcall⟩
  · rintro ⟨a, ha, h⟩
    exact .of_arg ha h

theorem refuses_historical {op : HistoryOp} {keys : PreviousKeys} {args : List Expr}
    {error : EvalError} : Refuses M (.call (.historical op keys) args) error ↔
      (∃ a ∈ args, Refuses M a error) ∨ Function.Refuses M op keys error := by
  constructor
  · rintro (⟨s, h, hs⟩ | ⟨op', keys', args', h, hcall⟩)
    · cases h with
      | arg ha hs' => exact .inl ⟨_, ha, .series s hs' hs⟩
    · cases h with
      | here => exact .inr hcall
      | arg ha h' => exact .inl ⟨_, ha, .historical op' keys' args' h' hcall⟩
  · rintro (⟨a, ha, h⟩ | h)
    · exact .of_arg ha h
    · exact .historical op keys args .here h

/-! ## Compiling -/

theorem Built.not_custom {node : CustomNode} {inner : Expr} : ¬ Built (.custom node inner) :=
  fun he => builtOver_custom.1 he

/-- Without user-defined nodes, only calls of a relation read as comparisons. -/
theorem Built.eq_of_asComparison {e : Expr} (he : e.Built) {c : Comparison Expr}
    (h : e.asComparison = .ok c) :
    e = .call (.element (.relation c.relation)) [c.left, c.right] := by
  cases he with
  | literal l => cases h
  | series s => cases h
  | call _ hcall =>
    obtain ⟨-, rfl⟩ := Function.call_eq_ok.1 hcall
    obtain ⟨rfl, rfl⟩ := asComparison_call.1 h
    rfl
  | leaf hleaf => exact hleaf.elim

/-- Compiling fails exactly when a node refuses, and with the error of such a node. -/
theorem Built.compile_decidedBy {e : Expr} (he : e.Built) (M : KeyModel) :
    DecidedBy (Refuses M e) (e.compile M) := by
  -- A swept function compiles the operands of its comparison, so they are carried along.
  suffices h : DecidedBy (Refuses M e) (e.compile M) ∧ ∀ c, e.asComparison = .ok c →
      DecidedBy (Refuses M c.left) (c.left.compile M) ∧
        DecidedBy (Refuses M c.right) (c.right.compile M) from h.1
  induction e with
  | literal l => exact ⟨.ok fun _ => refuses_literal, nofun⟩
  | series s => exact ⟨(s.compile_decidedBy M).congr fun _ => refuses_series.symm, nofun⟩
  | custom node inner _ => exact (Built.not_custom he).elim
  | call f args ih =>
    obtain ⟨hbuilt, hv⟩ := builtOver_call.1 he
    have hargs : ∀ a ∈ args, DecidedBy (Refuses M a) (a.compile M) :=
      fun a ha => (ih a ha (hbuilt a ha)).1
    constructor
    · rw [compile_call]
      match f with
      | .element op =>
        rw [Function.compile_element M hv]
        exact ((DecidedBy.mapM hargs).map _).congr fun _ => refuses_element.symm
      | .historical op keys =>
        by_cases hM : M = .keyless
        · subst hM
          rw [Function.compile_historical_keyless]
          exact .error (refuses_historical.2 (.inr (.keyless rfl)))
        · have hhistory := Function.history_decidedBy hM op keys
          match op with
          | .window op =>
            rw [Function.compile_window M hv, if_neg hM]
            exact ((DecidedBy.mapM hargs).bind fun _ => hhistory.map _).congr fun _ =>
              refuses_historical.symm
          | .swept side quantifier =>
            obtain ⟨count, arg, c, rfl, hc⟩ := Function.exists_of_validate_swept hv
            obtain ⟨hleft, hright⟩ := (ih arg (by simp) (hbuilt arg (by simp))).2 c hc
            have harg := Built.eq_of_asComparison (hbuilt arg (by simp)) hc
            rw [Function.compile_swept M hc, if_neg hM]
            refine ((hargs count (by simp)).bind fun _ => hleft.bind fun _ => hright.bind fun _ =>
              hhistory.map _).congr fun error => ?_
            rw [refuses_historical, harg]
            simp only [List.mem_cons, List.not_mem_nil, or_false, exists_eq_or_imp, exists_eq_left,
              refuses_element, or_assoc]
    · intro c hc
      obtain ⟨-, rfl⟩ := asComparison_call.1 hc
      exact ⟨hargs _ (by simp), hargs _ (by simp)⟩

/-! ## Key models that serve an expression -/

theorem Built.exists_compile_iff {e : Expr} (he : e.Built) (M : KeyModel) :
    (∃ c, e.compile M = .ok c) ↔
      (∀ op keys args, Occurs (.call (.historical op keys) args) e →
        M ≠ .keyless ∧ keys.model = M) ∧
      ∀ s, Occurs (.series s) e → M ≠ .keyless ∧ (M = .date → s.calendar.isSome = true) := by
  rw [(he.compile_decidedBy M).exists_ok_iff]
  constructor
  · intro hnone
    refine ⟨fun op keys args h => ?_, fun s h => ?_⟩
    · have hrefuses : ¬ ∃ error, Function.Refuses M op keys error :=
        fun ⟨error, herror⟩ => hnone error (.historical op keys args h herror)
      rw [Function.exists_refuses_iff] at hrefuses
      exact ⟨fun hM => hrefuses (.inl hM), Decidable.byContradiction fun hmodel =>
        hrefuses (.inr hmodel)⟩
    · have hrefuses : ¬ ∃ error, s.Refuses M error :=
        fun ⟨error, herror⟩ => hnone error (.series s h herror)
      rw [Series.exists_refuses_iff] at hrefuses
      refine ⟨fun hM => hrefuses (.inl hM), fun hM => ?_⟩
      exact Option.isSome_iff_ne_none.2 fun hcalendar => hrefuses (.inr ⟨hM, hcalendar⟩)
  · rintro ⟨hcalls, hseries⟩ error (⟨s, h, herror⟩ | ⟨op, keys, args, h, herror⟩)
    · obtain ⟨hM, hdated⟩ := hseries s h
      rcases Series.exists_refuses_iff.1 ⟨error, herror⟩ with hkeyless | ⟨hdate, hcalendar⟩
      · exact hM hkeyless
      · exact Option.isSome_iff_ne_none.1 (hdated hdate) hcalendar
    · obtain ⟨hM, hmodel⟩ := hcalls op keys args h
      rcases Function.exists_refuses_iff.1 ⟨error, herror⟩ with hkeyless | hother
      · exact hM hkeyless
      · exact hother hmodel

/-- An error names the key model, and a series or a historical function that occurs. -/
theorem Refuses.exists_eq {e : Expr} {error : EvalError} (h : Refuses M e error) :
    ∃ node obstacle, error = .unsupported node M obstacle ∧
      ((∃ s, Occurs (.series s) e ∧ node = s.name) ∨
        ∃ op keys args, Occurs (.call (.historical op keys) args) e ∧
          node = (Function.historical op keys).name) := by
  cases h with
  | series s hs hrefuses =>
    cases hrefuses with
    | keyless _ => exact ⟨_, _, rfl, .inl ⟨s, hs, rfl⟩⟩
    | undated _ _ => exact ⟨_, _, rfl, .inl ⟨s, hs, rfl⟩⟩
  | historical op keys args hcall hrefuses =>
    cases hrefuses with
    | keyless _ => exact ⟨_, _, rfl, .inr ⟨op, keys, args, hcall, rfl⟩⟩
    | otherModel _ _ => exact ⟨_, _, rfl, .inr ⟨op, keys, args, hcall, rfl⟩⟩

theorem Built.of_occurs {x e : Expr} (he : e.Built) (h : Occurs x e) : x.Built := by
  induction h with
  | here => exact he
  | arg ha _ ih => exact ih ((builtOver_call.1 he).1 _ ha)
  | inner _ _ => exact (Built.not_custom he).elim

/-- After the checks, a swept function finds its comparison under every key model. -/
theorem Built.exists_comparisonAt {side : Side} {quantifier : Quantifier} {keys : PreviousKeys}
    {args : List Expr} (he : Built (.call (.historical (.swept side quantifier) keys) args))
    (M : KeyModel) : ∃ comparison,
      (Function.historical (.swept side quantifier) keys).comparisonAt (loweredAll M args) 1 =
        .ok comparison := by
  obtain ⟨count, arg, c, rfl, hc⟩ := Function.exists_of_validate_swept (builtOver_call.1 he).2
  have hread := ofCall_lowered M arg
  simp only [hc, Except.map] at hread
  refine ⟨c.map (compile M), ?_⟩
  simp only [Function.comparisonAt, loweredAll_eq, List.map_cons, List.map_nil,
    List.getElem?_cons_succ, List.getElem?_cons_zero, hread]

/-- Bars are served when every context steps through bars, dates when every context
    steps through dates and every series is dated, and having no key when neither
    occurs. An error of compiling names its key model and a series or a historical
    function that occurs; the arguments that have to be comparisons always are. -/
theorem Built.compile_serves {e : Expr} (he : e.Built) :
    ((∃ c, e.compile .bar = .ok c) ↔
      ∀ op keys args, Occurs (.call (.historical op keys) args) e → keys.model = .bar) ∧
    ((∃ c, e.compile .date = .ok c) ↔
      (∀ op keys args, Occurs (.call (.historical op keys) args) e → keys.model = .date) ∧
        ∀ s, Occurs (.series s) e → s.calendar.isSome = true) ∧
    ((∃ c, e.compile .keyless = .ok c) ↔
      (∀ op keys args, ¬ Occurs (.call (.historical op keys) args) e) ∧
        ∀ s, ¬ Occurs (.series s) e) ∧
    (∀ M error, e.compile M = .error error →
      ∃ node obstacle, error = .unsupported node M obstacle ∧
        ((∃ s, Occurs (.series s) e ∧ node = s.name) ∨
          ∃ op keys args, Occurs (.call (.historical op keys) args) e ∧
            node = (Function.historical op keys).name)) ∧
    ∀ M side quantifier keys args,
      Occurs (.call (.historical (.swept side quantifier) keys) args) e →
        ∃ comparison, (Function.historical (.swept side quantifier) keys).comparisonAt
          (loweredAll M args) 1 = .ok comparison := by
  refine ⟨?_, ?_, ?_, ?_, ?_⟩
  · rw [he.exists_compile_iff]
    simp
  · rw [he.exists_compile_iff]
    simp
  · rw [he.exists_compile_iff]
    simp
  · intro M error herror
    exact ((he.compile_decidedBy M).due_of_error herror).exists_eq
  · intro M side quantifier keys args h
    exact Built.exists_comparisonAt (he.of_occurs h) M

/-- Whether a series without dates was above 1 at one of the last two bars. -/
theorem Built.compile_serves_occursLeft :
    let above : Expr := .call (.element (.relation .greater))
      [.series (.undated "close" #[1.5, 0.5]), .literal (.double 1)]
    let e : Expr :=
      .call (.historical (.swept .left .somewhere) .bars) [.literal (.double 2), above]
    (∃ c, e.compile .bar = .ok c) ∧ (∀ c, e.compile .date ≠ .ok c) ∧
      ∀ c, e.compile .keyless ≠ .ok c := by
  intro above e
  have habove : above.Built := builtOver_call.2 ⟨by simp [BuiltOver.literal, BuiltOver.series], rfl⟩
  have he : e.Built := builtOver_call.2 ⟨by simp [BuiltOver.literal, habove], rfl⟩
  obtain ⟨hbar, hdate, hkeyless, -⟩ := he.compile_serves
  refine ⟨hbar.2 ?_, fun c hc => ?_, fun c hc => ?_⟩
  · intro op keys args h
    have hkeys : keys = .bars := by
      simp [e, above] at h
      exact h.1.2
    rw [hkeys]
    rfl
  · cases (hdate.1 ⟨c, hc⟩).1 _ _ _ .here
  · exact (hkeyless.1 ⟨c, hc⟩).1 _ _ _ .here

end Expr

end Lookback
