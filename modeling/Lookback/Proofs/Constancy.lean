-- SUMMARY: Constant expressions: the constancy flag, what it excludes, and the single value it promises.
import Lookback.Proofs.Simulation

/-!
# Constant expressions

`isConstant` is put together from a column of the function table and the flags of
the arguments. For expressions built from literals, series and calls the flag is
exact. It holds when nothing in the expression needs a key (`KeyFree`), and just
then the expression compiles without a key. A constant expression has one value,
whatever the key model and the key.
-/

namespace Lookback

namespace Expr

/-- Neither a series nor a call of a historical function occurs. -/
structure KeyFree (e : Expr) : Prop where
  series : ∀ s, ¬ Occurs (.series s) e
  historical : ∀ op keys args, ¬ Occurs (.call (.historical op keys) args) e

/-! ## The flag -/

theorem allConstant_iff (es : List Expr) :
    allConstant es = true ↔ ∀ e ∈ es, e.isConstant = true := by
  induction es with
  | nil => simp [allConstant]
  | cons e es ih => simp only [allConstant, Bool.and_eq_true, ih, List.forall_mem_cons, isConstant]

theorem isConstant_call {f : Function} {args : List Expr} :
    (call f args).isConstant = true ↔
      (∃ op, f = .element op) ∧ ∀ a ∈ args, a.isConstant = true := by
  have helement : f.isElementwise = true ↔ ∃ op, f = .element op := by
    match f with
    | .element op => exact ⟨fun _ => ⟨op, rfl⟩, fun _ => rfl⟩
    | .historical op keys => exact ⟨nofun, nofun⟩
  simp only [isConstant, isKeyDependent, Bool.not_not, Bool.and_eq_true, helement]
  rw [allConstant_iff]
  rfl

theorem Built.isConstant_iff_keyFree {e : Expr} (he : e.Built) :
    e.isConstant = true ↔ e.KeyFree := by
  induction e with
  | literal l => exact ⟨fun _ => ⟨nofun, nofun⟩, fun _ => rfl⟩
  | series s => exact ⟨nofun, fun hfree => (hfree.series s .here).elim⟩
  | call f args ih =>
    obtain ⟨hbuilt, -⟩ := builtOver_call.1 he
    rw [isConstant_call]
    constructor
    · rintro ⟨⟨op, rfl⟩, hargs⟩
      have hfree : ∀ a ∈ args, KeyFree a := fun a ha => (ih a ha (hbuilt a ha)).1 (hargs a ha)
      constructor
      · rintro s (_ | ⟨ha, hs⟩)
        exact (hfree _ ha).series s hs
      · rintro op' keys args' (_ | ⟨ha, hcall⟩)
        exact (hfree _ ha).historical op' keys args' hcall
    · intro hfree
      refine ⟨?_, fun a ha => (ih a ha (hbuilt a ha)).2 ⟨?_, ?_⟩⟩
      · match f with
        | .element op => exact ⟨op, rfl⟩
        | .historical op keys => exact (hfree.historical op keys args .here).elim
      · exact fun s hs => hfree.series s (.arg ha hs)
      · exact fun op keys args' h => hfree.historical op keys args' (.arg ha h)
  | custom node inner _ =>
    exact (builtOver_custom.1 he).elim

/-! ## Values -/

/-- A constant expression compiles for every key model, and all evaluators return the
    same value at every key. -/
theorem Built.exists_value {e : Expr} (he : e.Built) (hconstant : e.isConstant = true) :
    ∃ v : Value, ∀ M : KeyModel, ∃ c, e.compile M = .ok c ∧ c.kind = v.kind ∧
      ∀ key, c.valueAt key = pure v := by
  have hfree := he.isConstant_iff_keyFree.1 hconstant
  have hshape : SameShape (fun _ _ => False) (fun _ _ => False) e e :=
    .self he hfree.series hfree.historical
  -- No series and no context is asked for, so the expression agrees with itself across any two
  -- models and any two keys.
  have hpair (M : KeyModel) := hshape.exists_compile .keyless M (R := fun _ _ => True)
    (fun _ _ h => h.elim) (fun _ _ h => h.elim) he
  obtain ⟨c₀, _, hc₀, -⟩ := hpair .keyless
  refine ⟨(c₀.valueAt ()).value, ?_⟩
  intro M
  obtain ⟨c, c', hc, hc', hkind, hvalues⟩ := hpair M
  obtain rfl : c₀ = c := Except.ok.inj (hc₀.symm.trans hc)
  refine ⟨c', hc', hkind.symm, ?_⟩
  intro key
  obtain ⟨v, hv, hv'⟩ := hvalues () key trivial
  rw [hv', hv, Traced.value_pure]

theorem Built.isConstant_of_compile_keyless {e : Expr} (he : e.Built)
    {c : Compiled KeyModel.keyless.Key} (h : e.compile .keyless = .ok c) : e.isConstant = true := by
  induction e generalizing c with
  | literal l => rfl
  | series s => cases h
  | call f args ih =>
    obtain ⟨hbuilt, hv⟩ := builtOver_call.1 he
    rw [compile_call] at h
    match f with
    | .element op =>
      rw [Function.compile_element _ hv] at h
      obtain ⟨given, hgiven, -⟩ := Except.bind_eq_ok.1 h
      refine isConstant_call.2 ⟨⟨op, rfl⟩, fun a ha => ?_⟩
      obtain ⟨c', hc'⟩ := Except.exists_ok_of_mapM hgiven ha
      exact ih a ha (hbuilt a ha) hc'
    | .historical op keys =>
      rw [Function.compile_historical_keyless] at h
      cases h
  | custom node inner _ =>
    exact (builtOver_custom.1 he).elim

/-! ## The flag is exact -/

/-- The flag says that nothing in the expression needs a key; it says that the
    expression compiles without one; and then there is one value for all key models
    and keys. -/
theorem Built.isConstant_exact {e : Expr} (he : e.Built) :
    (e.isConstant = true ↔ e.KeyFree) ∧
      (e.isConstant = true ↔ ∃ c, e.compile .keyless = .ok c) ∧
      (e.isConstant = true → ∃ v : Value, ∀ M : KeyModel, ∃ c, e.compile M = .ok c ∧
        c.kind = v.kind ∧ ∀ key, c.valueAt key = pure v) := by
  refine ⟨he.isConstant_iff_keyFree, ?_, he.exists_value⟩
  constructor
  · intro hconstant
    obtain ⟨v, hv⟩ := he.exists_value hconstant
    obtain ⟨c, hc, -⟩ := hv .keyless
    exact ⟨c, hc⟩
  · rintro ⟨c, hc⟩
    exact he.isConstant_of_compile_keyless hc

/-- A sum over literals, and its distance from a series as many bars ago. -/
theorem isConstant_exact_sum :
    let product : Expr := call (.element (.arithmetic .mul))
      [.literal (.integer 2), .literal (.double 3)]
    let fixed : Expr := call (.element (.arithmetic .add)) [.literal (.integer 1), product]
    let past : Expr := call (.historical (.window .previous) .bars)
      [.series (.undated "close" #[5, 6]), fixed]
    let distance : Expr := call (.element (.arithmetic .sub)) [fixed, past]
    (fixed.KeyFree ∧ (∃ v : Value, ∀ M : KeyModel, ∃ c, fixed.compile M = .ok c ∧
      c.kind = v.kind ∧ ∀ key, c.valueAt key = pure v)) ∧
    ¬ distance.KeyFree ∧ ¬ ∃ c, distance.compile .keyless = .ok c := by
  intro product fixed past distance
  have hproduct : product.Built := builtOver_call.2 ⟨by simp [BuiltOver.literal], rfl⟩
  have hfixed : fixed.Built := builtOver_call.2 ⟨by simp [BuiltOver.literal, hproduct], rfl⟩
  have hpast : past.Built := builtOver_call.2 ⟨by simp [BuiltOver.series, hfixed], rfl⟩
  have hdistance : distance.Built := builtOver_call.2 ⟨by simp [hfixed, hpast], rfl⟩
  obtain ⟨hfree, -, hvalue⟩ := hfixed.isConstant_exact
  obtain ⟨hkeyed, hcompiles, -⟩ := hdistance.isConstant_exact
  have hnot : ¬ distance.isConstant = true := by decide
  exact ⟨⟨hfree.1 rfl, hvalue rfl⟩, mt hkeyed.2 hnot, mt hcompiles.2 hnot⟩

end Expr

end Lookback
