-- SUMMARY: Lists of parameters: the grammar that their check accepts, the arity counted from them, and what stands for an omitted argument.
import Lookback.Proofs.Construction

/-!
# Lists of parameters

The check of a list goes through it once and remembers only whether a parameter came that
is not required. What it accepts are three blocks (`Parameter.validate_eq_ok_iff`). The
arity is counted from the same list, whatever its order.

On three blocks the two agree: the required parameters are the ones below the least number
of arguments (`InOrder.isRequired_iff`), and only a list that ends in a varargs parameter
takes more arguments than it has parameters. So arguments and parameters can be paired by
position, and what a call leaves out may be left out.
-/

namespace Lookback

namespace Parameter

/-! ## The grammar -/

def IsOptional (p : Parameter) : Prop := ∃ default?, p.mode = .optional default?

/-- Optional parameters, then at most one varargs parameter. -/
def Trailing (ps : List Parameter) : Prop :=
  ∃ optional varargs, ps = optional ++ varargs ∧ (∀ p ∈ optional, p.IsOptional) ∧
    (∀ p ∈ varargs, p.isVarargs = true) ∧ varargs.length ≤ 1

/-- Required parameters, then optional ones, then at most one varargs parameter. -/
def InOrder (ps : List Parameter) : Prop :=
  ∃ required trailing, ps = required ++ trailing ∧ (∀ p ∈ required, p.isRequired = true) ∧
    Trailing trailing

variable {p : Parameter} {ps : List Parameter}

theorem isRequired_iff_mode : p.isRequired = true ↔ p.mode = .required := by
  cases hmode : p.mode <;> simp [isRequired, hmode]

theorem isVarargs_iff_mode : p.isVarargs = true ↔ p.mode = .varargs := by
  cases hmode : p.mode <;> simp [isVarargs, hmode]

theorem trailing_nil : Trailing [] := ⟨[], [], rfl, nofun, nofun, Nat.zero_le 1⟩

theorem trailing_cons :
    Trailing (p :: ps) ↔ p.IsOptional ∧ Trailing ps ∨ p.isVarargs = true ∧ ps = [] := by
  constructor
  · rintro ⟨optional, varargs, hps, hoptional, hvarargs, hlength⟩
    cases optional with
    | nil =>
      obtain rfl : p :: ps = varargs := hps
      have hps : ps = [] := List.eq_nil_of_length_eq_zero (by simpa using hlength)
      exact .inr ⟨hvarargs p List.mem_cons_self, hps⟩
    | cons q optional =>
      obtain ⟨rfl, rfl⟩ := List.cons.inj hps
      obtain ⟨hp, hoptional⟩ := List.forall_mem_cons.1 hoptional
      exact .inl ⟨hp, optional, varargs, rfl, hoptional, hvarargs, hlength⟩
  · rintro (⟨hp, optional, varargs, rfl, hoptional, hvarargs, hlength⟩ | ⟨hp, rfl⟩)
    · refine ⟨p :: optional, varargs, rfl, ?_, hvarargs, hlength⟩
      exact List.forall_mem_cons.2 ⟨hp, hoptional⟩
    · exact ⟨[], [p], rfl, nofun, by simpa using hp, Nat.le_refl 1⟩

theorem inOrder_cons :
    InOrder (p :: ps) ↔ p.isRequired = true ∧ InOrder ps ∨ Trailing (p :: ps) := by
  constructor
  · rintro ⟨required, trailing, hps, hrequired, htrailing⟩
    cases required with
    | nil =>
      obtain rfl : p :: ps = trailing := hps
      exact .inr htrailing
    | cons q required =>
      obtain ⟨rfl, rfl⟩ := List.cons.inj hps
      obtain ⟨hp, hrequired⟩ := List.forall_mem_cons.1 hrequired
      exact .inl ⟨hp, required, trailing, rfl, hrequired, htrailing⟩
  · rintro (⟨hp, required, trailing, rfl, hrequired, htrailing⟩ | htrailing)
    · refine ⟨p :: required, trailing, rfl, ?_, htrailing⟩
      exact List.forall_mem_cons.2 ⟨hp, hrequired⟩
    · exact ⟨[], p :: ps, rfl, nofun, htrailing⟩

/-- Once an optional parameter came, the check goes on with the trailing blocks. -/
theorem validateFrom_true_eq_ok_iff : validateFrom true ps = .ok () ↔ Trailing ps := by
  induction ps with
  | nil => exact ⟨fun _ => trailing_nil, fun _ => rfl⟩
  | cons p ps ih =>
    rw [trailing_cons, validateFrom]
    cases hmode : p.mode with
    | required => simp [IsOptional, isVarargs, hmode]
    | optional default? => simp [IsOptional, isVarargs, hmode, ih]
    | varargs => cases ps <;> simp [IsOptional, isVarargs, hmode, validateFrom]

theorem validate_eq_ok_iff : validate ps = .ok () ↔ InOrder ps := by
  unfold validate
  induction ps with
  | nil => exact ⟨fun _ => ⟨[], [], rfl, nofun, trailing_nil⟩, fun _ => rfl⟩
  | cons p ps ih =>
    rw [inOrder_cons, trailing_cons, validateFrom]
    cases hmode : p.mode with
    | required => simp [isRequired, IsOptional, isVarargs, hmode, ih]
    | optional default? =>
      simp [isRequired, IsOptional, isVarargs, hmode, validateFrom_true_eq_ok_iff]
    | varargs => cases ps <;> simp [isRequired, IsOptional, isVarargs, hmode, validateFrom]

/-! ## The arity -/

theorem Trailing.isOptional_or_isVarargs (h : Trailing ps) (hp : p ∈ ps) :
    p.IsOptional ∨ p.isVarargs = true := by
  obtain ⟨optional, varargs, rfl, hoptional, hvarargs, -⟩ := h
  exact (List.mem_append.1 hp).imp (hoptional p) (hvarargs p)

theorem Trailing.isRequired_eq_false (h : Trailing ps) (hp : p ∈ ps) : p.isRequired = false := by
  rcases h.isOptional_or_isVarargs hp with ⟨default?, hmode⟩ | hvarargs
  · simp only [isRequired, hmode]
  · simp only [isRequired, isVarargs_iff_mode.1 hvarargs]

/-- The least number of arguments is the length of the first block. -/
theorem min_ofParameters {required trailing : List Parameter}
    (hrequired : ∀ p ∈ required, p.isRequired = true) (htrailing : Trailing trailing) :
    (Arity.ofParameters (required ++ trailing)).min = required.length := by
  have hfirst : required.countP isRequired = required.length :=
    List.countP_eq_length.2 hrequired
  have hrest : trailing.countP isRequired = 0 :=
    List.countP_eq_zero.2 fun p hp => by simp [htrailing.isRequired_eq_false hp]
  rw [Arity.ofParameters, List.countP_append, hfirst, hrest, Nat.add_zero]

/-- The required parameters are those below the least number of arguments. -/
theorem InOrder.isRequired_iff (h : InOrder ps) {index : Nat} (hp : ps[index]? = some p) :
    p.isRequired = true ↔ index < (Arity.ofParameters ps).min := by
  obtain ⟨required, trailing, rfl, hrequired, htrailing⟩ := h
  rw [min_ofParameters hrequired htrailing]
  by_cases hindex : index < required.length
  · rw [List.getElem?_append_left hindex] at hp
    exact ⟨fun _ => hindex, fun _ => hrequired p (List.mem_of_getElem? hp)⟩
  · rw [List.getElem?_append_right (by omega)] at hp
    simp [htrailing.isRequired_eq_false (List.mem_of_getElem? hp), hindex]

theorem InOrder.isOptional_or_isVarargs (h : InOrder ps) (hp : p ∈ ps)
    (hrequired : p.isRequired = false) : p.IsOptional ∨ p.isVarargs = true := by
  obtain ⟨required, trailing, rfl, hfirst, htrailing⟩ := h
  rcases List.mem_append.1 hp with hp | hp
  · rw [hfirst p hp] at hrequired
    cases hrequired
  · exact htrailing.isOptional_or_isVarargs hp

/-- A varargs parameter is the last one. -/
theorem InOrder.getLast?_isVarargs (h : InOrder ps) (hany : ps.any isVarargs = true) :
    ∃ p, ps.getLast? = some p ∧ p.isVarargs = true := by
  obtain ⟨required, trailing, rfl, hrequired, htrailing⟩ := h
  obtain ⟨optional, varargs, rfl, hoptional, -, hlength⟩ := htrailing
  obtain ⟨p, hp, hvar⟩ := List.any_eq_true.1 hany
  have hmode := isVarargs_iff_mode.1 hvar
  have hmem : p ∈ varargs := by
    rcases List.mem_append.1 hp with hp | hp
    · have := isRequired_iff_mode.1 (hrequired p hp)
      simp [hmode] at this
    · rcases List.mem_append.1 hp with hp | hp
      · obtain ⟨default?, h⟩ := hoptional p hp
        simp [hmode] at h
      · exact hp
  match varargs, hlength with
  | [q], _ =>
    obtain rfl := List.mem_singleton.1 hmem
    exact ⟨p, by simp, hvar⟩

theorem accepts_ofParameters_iff {count : Nat} :
    (Arity.ofParameters ps).accepts count = true ↔
      (Arity.ofParameters ps).min ≤ count ∧ (ps.any isVarargs = true ∨ count ≤ ps.length) := by
  have hmax : (Arity.ofParameters ps).max =
      if ps.any isVarargs then none else some ps.length := rfl
  rw [Arity.accepts, hmax, Bool.and_eq_true, decide_eq_true_eq]
  cases ps.any isVarargs <;> simp

theorem InOrder.exists_isRequired (h : InOrder ps) {index : Nat}
    (hindex : index < (Arity.ofParameters ps).min) :
    ∃ p, ps[index]? = some p ∧ p.isRequired = true := by
  have hlength : (Arity.ofParameters ps).min ≤ ps.length := List.countP_le_length
  have hp : ps[index]? = some ps[index] := List.getElem?_eq_getElem (by omega)
  exact ⟨_, hp, (h.isRequired_iff hp).2 hindex⟩

/-- What an accepted number of arguments leaves without one is not required. -/
theorem InOrder.isRequired_eq_false (h : InOrder ps) {count index : Nat}
    (haccepts : (Arity.ofParameters ps).accepts count = true) (hindex : count ≤ index)
    (hp : ps[index]? = some p) : p.isRequired = false := by
  have hmin := (accepts_ofParameters_iff.1 haccepts).1
  rw [← Bool.not_eq_true, h.isRequired_iff hp]
  omega

theorem InOrder.exists_parameter (h : InOrder ps) {count index : Nat}
    (haccepts : (Arity.ofParameters ps).accepts count = true) (hindex : index < count) :
    (∃ p, ps[index]? = some p) ∨ ∃ p, ps.getLast? = some p ∧ p.isVarargs = true := by
  rcases (accepts_ofParameters_iff.1 haccepts).2 with hany | hlength
  · exact .inr (h.getLast?_isVarargs hany)
  · exact .inl ⟨_, List.getElem?_eq_getElem (by omega)⟩

end Parameter

/-! ## Calls -/

namespace Function

/-- Every row of the table passes the check. -/
theorem validate_parameters (f : Function) : Parameter.validate f.parameters = .ok () := by
  match f with
  | .element op =>
    cases op with
    | arithmetic op => cases op <;> rfl
    | extremum which => cases which <;> rfl
    | relation r => cases r <;> rfl
    | _ => rfl
  | .historical (.window op) _ =>
    cases op with
    | quantified q => cases q <;> rfl
    | indexOf which => cases which <;> rfl
    | chained mode => cases mode <;> rfl
    | statistic s => cases s <;> rfl
    | _ => rfl
  | .historical (.swept side quantifier) _ => cases side <;> cases quantifier <;> rfl

/-- Where a call has no argument, the default of the parameter stands, or NaN. -/
theorem compiled_omitted {K : Type} (f : Function) {given : List (Compiled K)} {index : Nat}
    (hindex : given.length ≤ index) :
    (Operands.mk given f.defaultArgument).compiled index =
      .constant ⟨.double, (f.parameters[index]?.bind Parameter.default?).getD Double.nan⟩ := by
  rw [Operands.compiled, List.getElem?_eq_none hindex, Option.getD_none]
  rfl

end Function

/-- The check accepts the grammar. For the lists it accepts, the required parameters are the
    ones that every call has to give, and every argument has a parameter, unless the last
    parameter takes any number of them. So where a call leaves an argument out, what stands
    for it is never taken from a required parameter. -/
theorem Parameter.inOrder_arity :
    (∀ ps : List Parameter, validate ps = .ok () ↔ InOrder ps) ∧
      (∀ ps : List Parameter, validate ps = .ok () →
        (∀ max, (Arity.ofParameters ps).max = some max → (Arity.ofParameters ps).min ≤ max) ∧
          (∀ index, index < (Arity.ofParameters ps).min →
            ∃ p, ps[index]? = some p ∧ p.isRequired = true) ∧
          ∀ count, (Arity.ofParameters ps).accepts count = true →
            (∀ index p, count ≤ index → ps[index]? = some p →
              p.IsOptional ∨ p.isVarargs = true) ∧
            ∀ index, index < count → (∃ p, ps[index]? = some p) ∨
              ∃ p, ps.getLast? = some p ∧ p.isVarargs = true) ∧
      ∀ (f : Function) (args : List Expr), f.validate args = .ok () →
        ∀ (M : KeyModel) (given : List (Compiled M.Key)), args.mapM (Expr.compile M) = .ok given →
          ∀ index, args.length ≤ index →
            (∃ p, f.parameters[index]? = some p ∧ p.isRequired = false ∧
              (Operands.mk given f.defaultArgument).compiled index =
                .constant ⟨.double, p.default?.getD Double.nan⟩) ∨
            f.parameters[index]? = none ∧
              (Operands.mk given f.defaultArgument).compiled index =
                .constant ⟨.double, Double.nan⟩ := by
  refine ⟨fun ps => validate_eq_ok_iff, fun ps hps => ⟨?_, ?_, ?_⟩, ?_⟩
  · intro max hmax
    have hlength : (Arity.ofParameters ps).min ≤ ps.length := List.countP_le_length
    simp only [Arity.ofParameters] at hmax
    split at hmax
    · cases hmax
    · rwa [← Option.some.inj hmax]
  · exact fun index hindex => (validate_eq_ok_iff.1 hps).exists_isRequired hindex
  · intro count haccepts
    have horder := validate_eq_ok_iff.1 hps
    refine ⟨fun index p hindex hp => ?_, fun index => horder.exists_parameter haccepts⟩
    exact horder.isOptional_or_isVarargs (List.mem_of_getElem? hp)
      (horder.isRequired_eq_false haccepts hindex hp)
  · intro f args hv M given hgiven index hindex
    have haccepts := (Function.validate_eq_ok.1 hv).1
    have hlength : given.length = args.length := (Except.mapM_eq_ok.1 hgiven).length_eq.symm
    have horder := validate_eq_ok_iff.1 f.validate_parameters
    rw [f.compiled_omitted (by omega)]
    cases hp : f.parameters[index]? with
    | none => exact .inr ⟨rfl, rfl⟩
    | some p => exact .inl ⟨p, rfl, horder.isRequired_eq_false haccepts hindex hp, rfl⟩

/-- A value read back by its default offset, and a list whose optional parameter is followed by
    one that takes the rest. -/
theorem Parameter.inOrder_arity_lag :
    let lag : Function := .historical (.window .previous) .bars
    let value : Parameter := .required "value" .double ""
    let steps : Parameter := .optional "steps" .double 2 ""
    let rest : Parameter := .varargs "rest" .double ""
    InOrder [value, steps, rest] ∧ (Arity.ofParameters [value, steps, rest]).accepts 5 = true ∧
      steps.IsOptional ∧ lag.validate [.literal (.double 7)] = .ok () ∧
      ∃ p, lag.parameters[1]? = some p ∧ p.isRequired = false ∧
        (Operands.mk [.constant ⟨.double, 7⟩] lag.defaultArgument : Operands Int).compiled 1 =
          .constant ⟨.double, 1⟩ := by
  intro lag value steps rest
  obtain ⟨hgrammar, harity, homitted⟩ := inOrder_arity
  have hvalid : validate [value, steps, rest] = .ok () := rfl
  refine ⟨(hgrammar _).1 hvalid, rfl, ?_, rfl, ?_⟩
  · have hleft := ((harity _ hvalid).2.2 1 rfl).1 1 steps (Nat.le_refl 1) rfl
    exact hleft.resolve_right nofun
  · rcases homitted lag [.literal (.double 7)] rfl .bar _ rfl 1 (Nat.le_refl 1) with h | ⟨h, -⟩
    · obtain ⟨p, hp, hrequired, hdefault⟩ := h
      obtain rfl := Option.some.inj hp
      exact ⟨_, rfl, hrequired, hdefault⟩
    · cases h

end Lookback
