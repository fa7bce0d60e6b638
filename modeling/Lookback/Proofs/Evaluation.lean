-- SUMMARY: Scans and operations see keys only through their operands and histories: agreement of those gives agreement of the results.
import Lookback.Evaluation.Element
import Lookback.Evaluation.History
import Lookback.Proofs.Correspondence

/-!
# Agreement of operations

An operation never looks at a key itself. It hands the key to its operands, and a
historical operation also to the history of the key. Hence one theorem for each
sort of operation: where the operands agree and the histories agree, so do the
evaluators built from them (`ElementOp.evaluator_agree`,
`WindowOp.evaluator_agree`, `HistoryOp.sweptEvaluator_agree`).

The scans run the same number of rounds on both sides. Their loop states are
offsets and what was found at them, and these are equal throughout, so each scan
only has to agree step by step.
-/

namespace Lookback

variable {K K' : Type} {C : Correspondence K K'}

/-- Going on with the key at an offset, or without one where there is none. -/
@[elab_as_elim]
theorem History.Agree.elim {motive : Option K → Option K' → Prop} {h : History K}
    {h' : History K'} (hh : History.Agree C h h') (offset : Nat) (none : motive .none .none)
    (some : ∀ k k', C.keys k k' → motive (.some k) (.some k')) :
    motive (h offset) (h' offset) := by
  have hk := hh offset
  generalize h offset = earlier, h' offset = earlier' at hk
  cases hk with
  | none => exact none
  | some hk => exact some _ _ hk

theorem History.Agree.bounded {h : History K} {h' : History K'} (hh : History.Agree C h h') :
    History.Agree C h.bounded h'.bounded := by
  intro offset
  unfold History.bounded
  split
  · exact hh offset
  · exact .none

/-! ## Scans -/

namespace Scan

variable {h : History K} {h' : History K'} {condition : Evaluator K Bool}
  {condition' : Evaluator K' Bool}

theorem holdsThroughout_agree (hh : History.Agree C h h')
    (hc : Evaluator.Agree C condition condition') (length : Nat) :
    Traced.Agree C.visits (holdsThroughout h condition length)
      (holdsThroughout h' condition' length) := by
  unfold holdsThroughout
  split
  · exact .pure _
  · refine (Traced.Agree.iterate (fun offset => ?_) _ _).map _
    refine hh.elim offset (.pure _) ?_
    intro k k' hk
    refine (hc hk).bind ?_
    intro b
    cases b with
    | true => exact .pure _
    | false => exact .pure _

theorem holdsSomewhere_agree (hh : History.Agree C h h')
    (hc : Evaluator.Agree C condition condition') (length : Nat) :
    Traced.Agree C.visits (holdsSomewhere h condition length)
      (holdsSomewhere h' condition' length) := by
  unfold holdsSomewhere
  refine (Traced.Agree.iterate (fun offset => ?_) _ _).map _
  refine hh.elim offset (.pure _) ?_
  intro k k' hk
  refine (hc hk).bind ?_
  intro b
  cases b with
  | true => exact .pure _
  | false => exact .pure _

/-- The searched length depends only on which offsets have a key. -/
theorem resolvableLength_eq (hh : History.Agree C h h') (lookback : Nat) :
    resolvableLength h lookback = resolvableLength h' lookback := by
  have hsome : ∀ offset, (h offset).isSome = (h' offset).isSome := fun offset =>
    hh.elim offset rfl fun _ _ _ => rfl
  simp only [resolvableLength, hsome]

theorem findDown_agree (hh : History.Agree C h h')
    (hc : Evaluator.Agree C condition condition') (count : Nat) :
    Traced.Agree C.visits (findDown h condition count) (findDown h' condition' count) := by
  unfold findDown
  refine (Traced.Agree.iterate (fun state => ?_) _ _).map _
  cases state with
  | zero => exact .pure _
  | succ offset =>
    dsimp only
    refine hh.elim offset (.pure _) ?_
    intro k k' hk
    refine (hc hk).bind ?_
    intro b
    cases b with
    | true => exact .pure _
    | false => exact .pure _

theorem findFrom_agree (hh : History.Agree C h h')
    (hc : Evaluator.Agree C condition condition') (lookback base : Nat) :
    Traced.Agree C.visits (findFrom h condition lookback base)
      (findFrom h' condition' lookback base) := by
  unfold findFrom
  refine (Traced.Agree.iterate (fun offset => ?_) _ _).map _
  refine hh.bounded.elim offset (.pure _) ?_
  intro k k' hk
  refine (hc hk).bind ?_
  intro b
  cases b with
  | true => exact .pure _
  | false => exact .pure _

theorem firstIndexOf_agree (hh : History.Agree C h h')
    (hc : Evaluator.Agree C condition condition') (lookback : Nat) :
    Traced.Agree C.visits (firstIndexOf h lookback condition)
      (firstIndexOf h' lookback condition') := by
  unfold firstIndexOf
  rw [resolvableLength_eq hh]
  exact (findDown_agree hh hc _).map _

theorem lastIndexOf_agree (hh : History.Agree C h h')
    (hc : Evaluator.Agree C condition condition') (lookback : Nat) :
    Traced.Agree C.visits (lastIndexOf h lookback condition)
      (lastIndexOf h' lookback condition') :=
  (findFrom_agree hh hc lookback 0).map _

theorem chainedIndexOf_agree (hh : History.Agree C h h')
    (hc : Evaluator.Agree C condition condition') (lookback steps : Nat) (mode : ChainMode) :
    Traced.Agree C.visits (chainedIndexOf h lookback steps mode condition)
      (chainedIndexOf h' lookback steps mode condition') := by
  unfold chainedIndexOf
  refine (Traced.Agree.iterate (fun state => ?_) _ _).map _
  obtain ⟨base, found⟩ := state
  refine (findFrom_agree hh hc lookback base).bind ?_
  intro r
  cases r with
  | some offset => exact .pure _
  | none =>
    cases mode with
    | strict => exact .pure _
    | furthest => exact .pure _

theorem samples_agree {value : Evaluator K Float} {value' : Evaluator K' Float}
    (hh : History.Agree C h h') (hv : Evaluator.Agree C value value') (length : Nat) :
    Traced.Agree C.visits (samples h value length) (samples h' value' length) := by
  unfold samples
  refine (Traced.Agree.iterate (fun state => ?_) _ _).map _
  obtain ⟨offset, taken⟩ := state
  dsimp only
  exact hh.elim offset (.pure _) fun k k' hk => (hv hk).bind fun x => .pure _

end Scan

theorem Quantifier.scan_agree (q : Quantifier) {h : History K} {h' : History K'}
    {condition : Evaluator K Bool} {condition' : Evaluator K' Bool} (hh : History.Agree C h h')
    (hc : Evaluator.Agree C condition condition') (length : Nat) :
    Traced.Agree C.visits (q.scan h condition length) (q.scan h' condition' length) := by
  cases q with
  | throughout => exact Scan.holdsThroughout_agree hh hc length
  | somewhere => exact Scan.holdsSomewhere_agree hh hc length

/-! ## Elementwise operations -/

section Element

variable {ω ω' : Type} {V : ω → ω' → Prop}

theorem Truth.and_agree {left right : Traced ω (Option Bool)}
    {left' right' : Traced ω' (Option Bool)}
    (hl : Traced.Agree V left left') (hr : Traced.Agree V right right') :
    Traced.Agree V (Truth.and left right) (Truth.and left' right') := by
  refine hl.bind ?_
  intro a
  match a with
  | some false => exact .pure _
  | some true => exact hr
  | none =>
    refine hr.bind ?_
    intro b
    match b with
    | some false => exact .pure _
    | some true => exact .pure _
    | none => exact .pure _

theorem Truth.or_agree {left right : Traced ω (Option Bool)}
    {left' right' : Traced ω' (Option Bool)}
    (hl : Traced.Agree V left left') (hr : Traced.Agree V right right') :
    Traced.Agree V (Truth.or left right) (Truth.or left' right') := by
  refine hl.bind ?_
  intro a
  match a with
  | some true => exact .pure _
  | some false => exact hr
  | none =>
    refine hr.bind ?_
    intro b
    match b with
    | some true => exact .pure _
    | some false => exact .pure _
    | none => exact .pure _

end Element

theorem ElementOp.evaluator_agree (op : ElementOp) {o : Operands K} {o' : Operands K'}
    (ho : Operands.Agree C o o') : Compiled.Agree C (op.evaluator o) (op.evaluator o') := by
  cases op with
  | arithmetic op | relation r | ordering =>
    exact Compiled.agree_mk fun hk =>
      (ho.double 0 hk).bind fun a => (ho.double 1 hk).bind fun b => .pure _
  | negate | absolute | isNaN =>
    exact Compiled.agree_mk fun hk => (ho.double 0 hk).bind fun x => .pure _
  | not | isTrue | isFalse =>
    exact Compiled.agree_mk fun hk => (ho.nullable 0 hk).bind fun x => .pure _
  | choose =>
    refine Compiled.agree_mk ?_
    intro k k' hk
    refine (ho.boolean 0 hk).bind ?_
    intro b
    cases b with
    | true => exact ho.double 1 hk
    | false => exact ho.double 2 hk
  | extremum which =>
    refine Compiled.agree_mk ?_
    intro k k' hk
    exact (Traced.Agree.mapM (ho.doubles.imp fun _ _ hv => hv hk)).bind fun xs => .pure _
  | and => exact Compiled.agree_mk fun hk => Truth.and_agree (ho.nullable 0 hk) (ho.nullable 1 hk)
  | or => exact Compiled.agree_mk fun hk => Truth.or_agree (ho.nullable 0 hk) (ho.nullable 1 hk)

/-! ## Historical operations -/

section Historical

variable {history : K → History K} {history' : K' → History K'}

theorem WindowOp.evaluator_agree (op : WindowOp) {o : Operands K} {o' : Operands K'}
    (hh : ∀ {k k'}, C.keys k k' → History.Agree C (history k) (history' k'))
    (ho : Operands.Agree C o o') :
    Compiled.Agree C (op.evaluator history o) (op.evaluator history' o') := by
  cases op with
  | once =>
    refine Compiled.agree_mk ?_
    intro k k' hk
    refine (ho.boolean 0 hk).bind ?_
    intro b
    cases b with
    | false => exact .pure _
    | true =>
      exact (hh hk).elim 1 (.pure _) fun _ _ hk => (ho.boolean 0 hk).bind fun b => .pure _
  | quantified q =>
    exact Compiled.agree_mk fun hk =>
      (ho.double 0 hk).bind fun count => q.scan_agree (hh hk) (ho.boolean 1) _
  | indexOf which =>
    refine Compiled.agree_mk ?_
    intro k k' hk
    refine (ho.double 1 hk).bind ?_
    intro lookback
    cases which with
    | oldest => exact (Scan.firstIndexOf_agree (hh hk) (ho.boolean 0) _).map _
    | newest => exact (Scan.lastIndexOf_agree (hh hk) (ho.boolean 0) _).map _
  | chained mode =>
    exact Compiled.agree_mk fun hk =>
      (ho.double 1 hk).bind fun lookback => (ho.double 2 hk).bind fun steps =>
        (Scan.chainedIndexOf_agree (hh hk) (ho.boolean 0) _ _ mode).map _
  | previous =>
    refine Compiled.agree_mk ?_
    intro k k' hk
    refine (ho.double 1 hk).bind ?_
    intro back
    split
    · exact (hh hk).elim _ (.pure _) fun _ _ hk => ho.double 0 hk
    · exact .pure _
  | statistic s =>
    exact Compiled.agree_mk fun hk =>
      (ho.double 0 hk).bind fun count => (Scan.samples_agree (hh hk) (ho.double 1) _).bind
        fun samples => .pure _
  | percentile =>
    exact Compiled.agree_mk fun hk =>
      (ho.double 0 hk).bind fun count => (Scan.samples_agree (hh hk) (ho.double 1) _).bind
        fun samples => (ho.double 2 hk).bind fun rank => .pure _

theorem HistoryOp.sweptEvaluator_agree (side : Side) (quantifier : Quantifier) (relation : Relation)
    {count left right : Evaluator K Float} {count' left' right' : Evaluator K' Float}
    (hh : ∀ {k k'}, C.keys k k' → History.Agree C (history k) (history' k'))
    (hcount : Evaluator.Agree C count count') (hleft : Evaluator.Agree C left left')
    (hright : Evaluator.Agree C right right') :
    Compiled.Agree C
      (sweptEvaluator history side quantifier count ⟨relation, left, right⟩)
      (sweptEvaluator history' side quantifier count' ⟨relation, left', right'⟩) := by
  refine Compiled.agree_mk ?_
  intro k k' hk
  refine (hcount hk).bind ?_
  intro length
  dsimp only
  split
  · exact .pure _
  · cases side with
    | left =>
      refine (hright hk).bind fun held => quantifier.scan_agree (hh hk) (fun hk => ?_) _
      exact (hleft hk).bind fun x => .pure _
    | right =>
      refine (hleft hk).bind fun held => quantifier.scan_agree (hh hk) (fun hk => ?_) _
      exact (hright hk).bind fun x => .pure _

end Historical

end Lookback
