-- SUMMARY: Computations that leave a log of visits, and a bounded loop over them.

/-!
# Traced computations

Evaluating an expression can be observed: user-defined nodes report each time
they are asked for a value. A traced computation is its result together with
the visits made on the way, in order. Running one after another appends their
visits, and this is all that makes the order of evaluation part of a result.
-/

namespace Lookback

/-- A value and the visits made while it was computed. -/
@[ext]
structure Traced (ω α : Type) where
  value : α
  visits : List ω
deriving Repr

namespace Traced

variable {ω α β σ : Type}

instance : Monad (Traced ω) where
  pure a := ⟨a, []⟩
  bind x f := ⟨(f x.value).value, x.visits ++ (f x.value).visits⟩

@[simp] theorem value_pure (a : α) : (pure a : Traced ω α).value = a := rfl

@[simp] theorem visits_pure (a : α) : (pure a : Traced ω α).visits = [] := rfl

@[simp] theorem value_bind (x : Traced ω α) (f : α → Traced ω β) :
    (x >>= f).value = (f x.value).value := rfl

@[simp] theorem visits_bind (x : Traced ω α) (f : α → Traced ω β) :
    (x >>= f).visits = x.visits ++ (f x.value).visits := rfl

@[simp] theorem value_map (g : α → β) (x : Traced ω α) : (g <$> x).value = g x.value := rfl

@[simp] theorem visits_map (g : α → β) (x : Traced ω α) : (g <$> x).visits = x.visits := by
  simp [Functor.map]

instance : LawfulMonad (Traced ω) :=
  LawfulMonad.mk' _
    (fun x => by ext1 <;> simp)
    (fun a f => by ext1 <;> simp)
    (fun x f g => by ext1 <;> simp)

/-- A single visit. -/
def visit (w : ω) : Traced ω Unit := ⟨(), [w]⟩

/-! ## Bounded loops

`iterate step n s` takes at most `n` steps from state `s`. A step either goes on
with a new state (`inl`) or stops with an answer (`inr`). Visits made so far are
carried along, so that long loops run in constant stack space. -/

/-- `iterate` with the visits already made in front. -/
def iterateFrom (seen : List ω) (step : σ → Traced ω (σ ⊕ β)) : Nat → σ → Traced ω (σ ⊕ β)
  | 0, s => ⟨.inl s, seen⟩
  | n + 1, s =>
    let r := step s
    match r.value with
    | .inl s' => iterateFrom (seen ++ r.visits) step n s'
    | .inr b => ⟨.inr b, seen ++ r.visits⟩

/-- At most `n` steps from a state, stopping at the first answer. -/
def iterate (step : σ → Traced ω (σ ⊕ β)) (n : Nat) (s : σ) : Traced ω (σ ⊕ β) :=
  iterateFrom [] step n s

theorem iterateFrom_eq (step : σ → Traced ω (σ ⊕ β)) (n : Nat) (seen : List ω) (s : σ) :
    iterateFrom seen step n s =
      ⟨(iterate step n s).value, seen ++ (iterate step n s).visits⟩ := by
  induction n generalizing seen s with
  | zero => simp [iterate, iterateFrom]
  | succ n ih =>
    simp only [iterate, iterateFrom]
    cases (step s).value with
    | inl s' => simp only [ih (seen ++ (step s).visits), ih ([] ++ (step s).visits)]; simp
    | inr b => simp

@[simp] theorem iterate_zero (step : σ → Traced ω (σ ⊕ β)) (s : σ) :
    iterate step 0 s = pure (.inl s) := rfl

theorem iterate_succ (step : σ → Traced ω (σ ⊕ β)) (n : Nat) (s : σ) :
    iterate step (n + 1) s = step s >>= fun
      | .inl s' => iterate step n s'
      | .inr b => pure (.inr b) := by
  simp only [iterate, iterateFrom, bind]
  cases (step s).value with
  | inl s' => simp [iterateFrom_eq]
  | inr b => simp

end Traced

end Lookback
