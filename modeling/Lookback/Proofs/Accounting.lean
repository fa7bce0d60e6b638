-- SUMMARY: What a manifest reports: the size of the tree that was lowered, and the balance of its calls with those that folding replaced.
import Lookback.Compiler
import Lookback.Proofs.NormalForms

/-!
# Accounts of a compilation

A manifest has its numbers from two traversals that know nothing of each other. The
nodes and calls of the lowered tree are counted with a stack, and `countStack_eq`
says that the stack holds nothing but what the recursion would still go through. The
number of folds is added up while folding, and `Reduces` balances it with the calls
of the tree. Together they account for every call of the root
(`CompileOptions.manifest_accounts`).
-/

namespace Lookback

namespace Expr

/-! ## Counting with a stack -/

theorem callCount_eq : (e : Expr) →
    e.callCount = (if e.asCall?.isSome then 1 else 0) + callCounts e.args
  | .literal _ => rfl
  | .series _ => rfl
  | .call _ _ => by rw [callCount]; rfl
  | .custom node inner => by
    simp only [callCount, args, asCall?]
    split
    · exact callCount_eq inner
    · rfl

theorem callCounts_append (es rest : List Expr) :
    callCounts (es ++ rest) = callCounts es + callCounts rest := by
  induction es with
  | nil => rw [List.nil_append, callCounts, Nat.zero_add]
  | cons e es ih => rw [List.cons_append, callCounts, callCounts, ih, Nat.add_assoc]

theorem callCounts_reverse (es : List Expr) : callCounts es.reverse = callCounts es := by
  induction es with
  | nil => rfl
  | cons e es ih =>
    rw [List.reverse_cons, callCounts_append, ih, callCounts, callCounts, callCounts]
    omega

/-- What is on the stack adds its nodes and calls. -/
theorem countStack_eq (nodes calls : Nat) (stack : List Expr) :
    countStack nodes calls stack = (nodes + nodeCounts stack, calls + callCounts stack) := by
  induction nodes, calls, stack using countStack.induct with
  | case1 nodes calls => rw [countStack]; rfl
  | case2 nodes calls e rest ih =>
    have hnodes := nodeCount_eq e
    have hcalls := callCount_eq e
    have hshown : (if e.asCall?.isSome then calls + 1 else calls) =
        calls + if e.asCall?.isSome then 1 else 0 := by split <;> rfl
    simp only [dite_eq_ite] at ih
    rw [countStack, ih, hshown, nodeCounts_append, nodeCounts_reverse, callCounts_append,
      callCounts_reverse, nodeCounts, callCounts, Prod.mk.injEq]
    omega

theorem counts_eq (e : Expr) : e.counts = (e.nodeCount, e.callCount) := by
  rw [counts, countStack_eq]
  simp only [nodeCounts, callCounts, Nat.zero_add, Nat.add_zero]

end Expr

/-! ## The manifest -/

namespace CompileOptions

variable {root : Expr}

/-- Folding or not, the calls of the root are those of the lowered tree and the folds,
    and the tree has shrunk by a node for each fold at least. -/
theorem prepared_accounts (options : CompileOptions) (he : root.Built) :
    ∃ lowered folds, options.prepared root = .ok (lowered, folds, []) ∧
      lowered.callCount + folds = root.callCount ∧
      lowered.nodeCount + folds ≤ root.nodeCount ∧
      (folds = 0 → lowered = root) ∧ (options.foldConstants = false → folds = 0) := by
  obtain ⟨foldConstants, collectManifest⟩ := options
  cases foldConstants with
  | false => exact ⟨root, 0, rfl, rfl, Nat.le_refl _, fun _ => rfl, fun _ => rfl⟩
  | true =>
    obtain ⟨r, hr, hreduces, -⟩ := Expr.fold_reduces he
    refine ⟨r.expr, r.folds, ?_, hreduces.calls, hreduces.nodes, hreduces.unchanged, nofun⟩
    simp only [prepared, Expr.foldConstants, hr]
    rfl

/-- The manifest of a compilation reports the size of the tree that was lowered. With
    folding, its calls and folds are the calls of the root, and it has fewer nodes than
    the root unless nothing was folded. Without folding it reports the root itself. -/
theorem manifest_accounts {options : CompileOptions} (hcollect : options.collectManifest = true)
    (he : root.Built) {M : KeyModel} {kind : Kind} {compilation : Compilation M.Key}
    (h : options.compile M kind root = .ok compilation) :
    ∃ lowered manifest, options.prepared root = .ok (lowered, manifest.folds, []) ∧
      lowered.compileTo M kind = .ok compilation.compiled ∧
      compilation.manifest = some manifest ∧ manifest.model = M ∧ manifest.kind = kind ∧
      manifest.nodes = lowered.nodeCount ∧ manifest.calls = lowered.callCount ∧
      (options.foldConstants = true →
        manifest.calls + manifest.folds = root.callCount ∧ manifest.nodes ≤ root.nodeCount ∧
          (manifest.nodes = root.nodeCount ↔ manifest.folds = 0)) ∧
      (options.foldConstants = false →
        manifest.folds = 0 ∧ manifest.nodes = root.nodeCount ∧
          manifest.calls = root.callCount) := by
  obtain ⟨lowered, folds, hprepared, hcalls, hnodes, hunchanged, hoff⟩ :=
    options.prepared_accounts he
  simp only [compile, hprepared, hcollect, if_true, Except.bind_eq_ok] at h
  obtain ⟨-, ⟨⟩, compiled, hcompiled, hcompilation⟩ := h
  obtain rfl := Except.ok.inj hcompilation
  refine ⟨lowered, ⟨M, kind, lowered.nodeCount, lowered.callCount, folds⟩, hprepared, hcompiled,
    ?_, rfl, rfl, rfl, rfl, fun _ => ⟨hcalls, by dsimp only; omega, ?_⟩, fun hfold => ?_⟩
  · simp only [Expr.counts_eq]
  · refine ⟨fun hsame => by dsimp only at hsame ⊢; omega, fun hfolds => ?_⟩
    rw [hunchanged hfolds]
  · obtain rfl := hoff hfold
    rw [hunchanged rfl]
    exact ⟨rfl, rfl, rfl⟩

/-- Of four calls two become literals, the count and an operand of the comparison; with
    them two nodes of seven go. -/
theorem manifest_accounts_swept :
    let one : Expr := .call (.element .isTrue) [.literal (.boolean true)]
    let root : Expr := .call (.historical (.swept .left .somewhere) .bars)
      [one, .call (.element (.relation .less)) [.literal .null, one]]
    root.nodeCount = 7 ∧ root.callCount = 4 ∧
      ∃ compilation manifest,
        (CompileOptions.mk true true).compile .bar .boolean root = .ok compilation ∧
        compilation.manifest = some manifest ∧
        manifest.nodes = 5 ∧ manifest.calls = 2 ∧ manifest.folds = 2 := by
  intro one root
  have hone : one.Built := Expr.builtOver_call.2 ⟨by simp [Expr.BuiltOver.literal], rfl⟩
  have hless : Expr.Built (.call (.element (.relation .less)) [.literal .null, one]) :=
    Expr.builtOver_call.2 ⟨by simp [Expr.BuiltOver.literal, hone], rfl⟩
  have hroot : root.Built := Expr.builtOver_call.2 ⟨by simp [hone, hless], rfl⟩
  obtain ⟨compilation, hcompile⟩ : ∃ compilation,
      (CompileOptions.mk true true).compile .bar .boolean root = .ok compilation := ⟨_, rfl⟩
  obtain ⟨lowered, manifest, hprepared, -, hmanifest, -, -, hnodes, hcalls, -⟩ :=
    manifest_accounts rfl hroot hcompile
  have hfolded := Except.ok.inj hprepared
  obtain rfl := congrArg Prod.fst hfolded
  exact ⟨rfl, rfl, compilation, manifest, hcompile, hmanifest, hnodes, hcalls,
    (congrArg (fun r => r.2.1) hfolded).symm⟩

end CompileOptions

end Lookback
