-- SUMMARY: Searches through a history: what the bisection of its length finds, what a search answers, and at which offsets it asks the condition.
import Lookback.Proofs.SteppingBack
import Mathlib.Order.Bounds.Basic

/-!
# Searches

All searches ask the condition at the offsets of some list in turn, until it holds.
`Scan.search` says just this, and one statement gives its answer and its visits
(`search_eq`). What the loops of the searches go through are ranges, downwards for
the oldest match and upwards for the newest.

How far back to begin is found by a bisection. On an initial segment it finds the
end (`Bisection.boundary_eq`). `boundary?` is the same bisection in 64-bit words,
where a sum or a difference out of range has no result; it always has one.
-/

namespace Lookback

/-! ## Words -/

namespace Word

/-- The sum of two words, if that is a word. -/
def add? (a b : Nat) : Option Nat := if a + b ≤ History.maxOffset then some (a + b) else none

/-- The difference of two words, if that is a word. -/
def sub? (a b : Nat) : Option Nat := if b ≤ a then some (a - b) else none

/-- The middle of a range of words. -/
def middle? (low high : Nat) : Option Nat := do
  let width ← sub? high low
  add? low (width / 2)

theorem add?_eq {a b : Nat} (h : a + b ≤ History.maxOffset) : add? a b = some (a + b) := if_pos h

theorem sub?_eq {a b : Nat} (h : b ≤ a) : sub? a b = some (a - b) := if_pos h

theorem eq_add_of_add? {a b c : Nat} (h : add? a b = some c) : c = a + b := by
  unfold add? at h
  split at h
  · exact (Option.some.inj h).symm
  · cases h

theorem middle?_eq {low high : Nat} (hlow : low ≤ high) (hhigh : high ≤ History.maxOffset) :
    middle? low high = some (low + (high - low) / 2) := by
  simp only [middle?, sub?_eq hlow, Option.bind_eq_bind, Option.bind_some]
  exact add?_eq (by omega)

theorem eq_of_middle? {low high middle : Nat} (h : middle? low high = some middle) :
    middle = low + (high - low) / 2 := by
  obtain ⟨width, hwidth, hsum⟩ := Option.bind_eq_some_iff.1 h
  unfold sub? at hwidth
  split at hwidth
  · cases hwidth
    exact eq_add_of_add? hsum
  · cases hwidth

end Word

/-! ## Bisection -/

namespace Bisection

variable {p : Nat → Bool} {low high m : Nat}

theorem boundary_eq (hp : ∀ i < high, p i = decide (i < m)) (hlow : low ≤ m) (hhigh : m ≤ high) :
    boundary p low high = m := by
  fun_induction boundary p low high with
  | case1 low high hlt middle hmiddle ih =>
    rw [hp middle (by omega), decide_eq_true_iff] at hmiddle
    exact ih hp (by omega) hhigh
  | case2 low high hlt middle hmiddle ih =>
    rw [hp middle (by omega), decide_eq_true_iff] at hmiddle
    exact ih (fun i hi => hp i (by omega)) hlow (by omega)
  | case3 low high hlt => omega

/-- `boundary` in words: it has no result once a sum or a difference has none. -/
def boundary? (p : Nat → Bool) (low high : Nat) : Option Nat :=
  if low < high then
    match _hmiddle : Word.middle? low high with
    | none => none
    | some middle =>
      if p middle then
        match _hnext : Word.add? middle 1 with
        | none => none
        | some next => boundary? p next high
      else
        boundary? p low middle
  else
    some low
termination_by high - low
decreasing_by
  · have := Word.eq_of_middle? _hmiddle
    have := Word.eq_add_of_add? _hnext
    omega
  · have := Word.eq_of_middle? _hmiddle
    omega

theorem boundary?_of_lt (hlt : low < high) (hhigh : high ≤ History.maxOffset) :
    boundary? p low high = if p (low + (high - low) / 2) then
      boundary? p (low + (high - low) / 2 + 1) high else boundary? p low (low + (high - low) / 2) := by
  have hmiddle := Word.middle?_eq (Nat.le_of_lt hlt) hhigh
  have hnext : Word.add? (low + (high - low) / 2) 1 = some (low + (high - low) / 2 + 1) :=
    Word.add?_eq (by omega)
  rw [boundary?, if_pos hlt]
  split
  · rename_i hnone
    rw [hmiddle] at hnone
    cases hnone
  · rename_i middle hsome
    obtain rfl := Option.some.inj (hmiddle.symm.trans hsome)
    split
    · split
      · rename_i hnone
        rw [hnext] at hnone
        cases hnone
      · rename_i next hsome
        rw [Option.some.inj (hnext.symm.trans hsome)]
    · rfl

/-- Every sum and every difference of the bisection is a word. -/
theorem boundary?_eq (hhigh : high ≤ History.maxOffset) :
    boundary? p low high = some (boundary p low high) := by
  fun_induction boundary p low high with
  | case1 low high hlt middle hmiddle ih =>
    rw [boundary?_of_lt hlt hhigh, if_pos hmiddle]
    exact ih hhigh
  | case2 low high hlt middle hmiddle ih =>
    rw [boundary?_of_lt hlt hhigh, if_neg hmiddle]
    exact ih (by omega)
  | case3 low high hlt =>
    rw [boundary?, if_neg hlt]

end Bisection

/-! ## How far back to begin -/

namespace Scan

variable {K ω : Type} {history : History K} {condition : K → Traced ω Bool} {n : Nat}

theorem resolvableLength_eq_min (hn : history.EndsAt n) (lookback : Nat) :
    resolvableLength history lookback = min lookback n := by
  unfold resolvableLength
  simp only [hn (lookback - 1)]
  split
  · omega
  · have hsome : ∀ i < lookback - 1, (history i).isSome = decide (i < n) := fun i _ => by
      rw [Bool.eq_iff_iff, decide_eq_true_iff, hn i]
    rw [Bisection.boundary_eq hsome (by omega) (by omega)]
    omega

/-- `resolvableLength` in words. -/
def resolvableLength? (history : History K) (lookback : Nat) : Option Nat := do
  if lookback = 0 then
    return 0
  let last ← Word.sub? lookback 1
  if (history last).isSome then
    return lookback
  Bisection.boundary? (fun offset => (history offset).isSome) 0 last

/-- No sum and no difference is out of range, whatever the history. -/
theorem resolvableLength?_eq {lookback : Nat} (hlookback : lookback ≤ History.maxOffset) :
    resolvableLength? history lookback = some (resolvableLength history lookback) := by
  unfold resolvableLength? resolvableLength
  by_cases hzero : lookback = 0
  · rw [if_pos hzero, if_pos (.inl hzero), hzero]
    rfl
  · rw [if_neg hzero, Word.sub?_eq (by omega)]
    by_cases hlast : (history (lookback - 1)).isSome = true
    · rw [if_pos (.inr hlast)]
      exact if_pos hlast
    · rw [if_neg (by simp [hzero, hlast])]
      exact (if_neg hlast).trans (Bisection.boundary?_eq (by omega))

/-! ## Asking in turn -/

/-- Whether there is a key at an offset, and the condition holds there. -/
def holdsAt (history : History K) (condition : K → Traced ω Bool) (offset : Nat) : Bool :=
  (history offset).any fun key => (condition key).value

/-- The visits of the condition at an offset. -/
def visitsAt (history : History K) (condition : K → Traced ω Bool) (offset : Nat) : List ω :=
  (history offset).elim [] fun key => (condition key).visits

theorem holdsAt_eq_true_iff {offset : Nat} : holdsAt history condition offset = true ↔
    ∃ key, history offset = some key ∧ (condition key).value = true := Option.any_eq_true _ _

/-- The offsets of a list up to the first hit, which is the last one asked about. -/
def upToHit (hits : Nat → Bool) : List Nat → List Nat
  | [] => []
  | offset :: rest => if hits offset then [offset] else offset :: upToHit hits rest

/-- Asks the condition at the offsets of a list in turn, until it holds. -/
def search (history : History K) (condition : K → Traced ω Bool) :
    List Nat → Traced ω (Option Nat)
  | [] => pure none
  | offset :: rest =>
    match history offset with
    | none => search history condition rest
    | some key => do
      if ← condition key then return some offset else search history condition rest

/-- The answer is the first hit, and the condition is asked up to it. -/
theorem search_eq (history : History K) (condition : K → Traced ω Bool) (offsets : List Nat) :
    search history condition offsets = ⟨offsets.find? (holdsAt history condition),
      (upToHit (holdsAt history condition) offsets).flatMap (visitsAt history condition)⟩ := by
  induction offsets with
  | nil => rfl
  | cons offset rest ih =>
    cases hkey : history offset with
    | none =>
      have hmiss : holdsAt history condition offset = false := by simp [holdsAt, hkey]
      have hquiet : visitsAt history condition offset = [] := by simp [visitsAt, hkey]
      simp only [search, hkey, ih, upToHit, List.find?_cons, hmiss, Bool.false_eq_true, if_false,
        List.flatMap_cons, hquiet, List.nil_append]
    | some key =>
      have hholds : holdsAt history condition offset = (condition key).value := by
        simp [holdsAt, hkey]
      have hvisits : visitsAt history condition offset = (condition key).visits := by
        simp [visitsAt, hkey]
      simp only [search, hkey, ih, upToHit, List.find?_cons, hholds]
      cases hvalue : (condition key).value with
      | true => ext1 <;> simp [hvalue, hvisits]
      | false => ext1 <;> simp [hvalue, hvisits]

theorem findDown_eq (history : History K) (condition : K → Traced ω Bool) (count : Nat) :
    findDown history condition count = search history condition (List.range count).reverse := by
  unfold findDown
  induction count with
  | zero => rfl
  | succ count ih =>
    rw [Traced.iterate_succ, List.range_succ, List.reverse_append, List.reverse_singleton,
      List.singleton_append, search, ← ih]
    dsimp only
    cases history count with
    | none => rfl
    | some key =>
      simp only [bind_assoc, map_bind]
      refine bind_congr fun holds => ?_
      cases holds with
      | true => simp
      | false => simp

/-- Within a history that ends, the offsets gone through are those of the window that
    have a key. -/
theorem findFrom_eq (hn : history.EndsAt n) (hmax : n ≤ History.maxOffset + 1)
    (condition : K → Traced ω Bool) (lookback base : Nat) :
    findFrom history condition lookback base =
      search history condition (List.range' base (min lookback (n - base))) := by
  unfold findFrom
  rw [hn.bounded_eq hmax]
  induction lookback generalizing base with
  | zero => simp [search]
  | succ lookback ih =>
    rw [Traced.iterate_succ]
    by_cases hbase : base < n
    · have hrange : List.range' base (min (lookback + 1) (n - base)) =
          base :: List.range' (base + 1) (min lookback (n - (base + 1))) := by
        rw [← List.range'_succ]
        congr 1
        omega
      obtain ⟨key, hkey⟩ := Option.isSome_iff_exists.1 ((hn base).2 hbase)
      rw [hrange, search, ← ih, hkey]
      simp only [bind_assoc, map_bind]
      refine bind_congr fun holds => ?_
      cases holds with
      | true => simp
      | false => simp
    · rw [hn.eq_none_iff.2 (Nat.le_of_not_lt hbase), show min (lookback + 1) (n - base) = 0 by omega]
      simp [search]

/-! ## Ranges -/

section Ranges

variable {hits : Nat → Bool} {count offset : Nat}

theorem range_reverse_succ (count : Nat) :
    (List.range (count + 1)).reverse = count :: (List.range count).reverse := by
  rw [List.range_succ, List.reverse_append, List.reverse_singleton, List.singleton_append]

/-- Downwards, the first hit is the largest. -/
theorem find?_range_reverse : (List.range count).reverse.find? hits = some offset ↔
    IsGreatest {o | o < count ∧ hits o = true} offset := by
  induction count with
  | zero => simp [IsGreatest]
  | succ count ih =>
    rw [range_reverse_succ, List.find?_cons]
    cases hhit : hits count with
    | true =>
      have hgreatest : IsGreatest {o | o < count + 1 ∧ hits o = true} count :=
        ⟨⟨Nat.lt_succ_self count, hhit⟩, fun o ho => Nat.le_of_lt_succ ho.1⟩
      simp only [Option.some.injEq]
      constructor
      · rintro rfl
        exact hgreatest
      · exact fun h => hgreatest.unique h
    | false =>
      have hsame : {o | o < count + 1 ∧ hits o = true} = {o | o < count ∧ hits o = true} := by
        ext o
        simp only [Set.mem_ofPred_eq]
        constructor
        · rintro ⟨ho, hhits⟩
          have hne : o ≠ count := by
            rintro rfl
            rw [hhit] at hhits
            cases hhits
          exact ⟨by omega, hhits⟩
        · rintro ⟨ho, hhits⟩
          exact ⟨by omega, hhits⟩
      rw [ih, hsame]

/-- Downwards, a search goes on to its hit, or to offset 0. -/
theorem upToHit_range_reverse (hits : Nat → Bool) (count : Nat) :
    let stop := ((List.range count).reverse.find? hits).getD 0
    upToHit hits (List.range count).reverse = (List.range' stop (count - stop)).reverse := by
  induction count with
  | zero => rfl
  | succ count ih =>
    rw [range_reverse_succ, List.find?_cons, upToHit]
    cases hhit : hits count with
    | true => simp
    | false =>
      have hstop : ((List.range count).reverse.find? hits).getD 0 ≤ count := by
        cases hfind : (List.range count).reverse.find? hits with
        | none => exact Nat.zero_le _
        | some o => exact Nat.le_of_lt (find?_range_reverse.1 hfind).1.1
      dsimp only at ih ⊢
      rw [if_neg (by simp), ih, Nat.succ_sub hstop, List.range'_1_concat, List.reverse_append,
        List.reverse_singleton, List.singleton_append]
      congr 1
      omega

/-- Upwards, a search goes on to its hit, or to the end. -/
theorem upToHit_range' (hits : Nat → Bool) (base count : Nat) :
    upToHit hits (List.range' base count) =
      List.range' base (((List.range' base count).find? hits).elim count (· + 1 - base)) := by
  induction count generalizing base with
  | zero => rfl
  | succ count ih =>
    rw [List.range'_succ, List.find?_cons, upToHit]
    cases hhit : hits base with
    | true => simp
    | false =>
      rw [if_neg (by simp), ih]
      cases hfind : (List.range' (base + 1) count).find? hits with
      | none => rfl
      | some o =>
        have ho : base + 1 ≤ o := (List.mem_range'_1.1 (List.mem_of_find?_eq_some hfind)).1
        simp only [Option.elim_some]
        rw [← List.range'_succ]
        congr 1
        omega

end Ranges

/-! ## The oldest match -/

/-- Offsets that a search can report are reported as they are. -/
theorem bind_reported {found : Option Nat} (h : ∀ offset ∈ found, offset ≤ maxIndex) :
    found.bind reported = found := by
  cases found with
  | none => rfl
  | some offset => exact if_pos (h offset rfl)

theorem firstIndexOf_eq (hn : history.EndsAt n) (hmax : n ≤ maxIndex + 1)
    (lookback : Nat) (condition : K → Traced ω Bool) :
    let found := (List.range (min lookback n)).reverse.find? (holdsAt history condition)
    firstIndexOf history lookback condition = ⟨found,
      (List.range' (found.getD 0) (min lookback n - found.getD 0)).reverse.flatMap
        (visitsAt history condition)⟩ := by
  intro found
  have hreported : found.bind reported = found := by
    refine bind_reported fun offset hoffset => ?_
    have hlt := (find?_range_reverse.1 hoffset).1.1
    omega
  rw [firstIndexOf, resolvableLength_eq_min hn, findDown_eq, search_eq,
    upToHit_range_reverse]
  exact Traced.ext hreported (by simp [found])

/-- Going through a whole window downwards gives the same answer: the oldest match, if
    there is one. The condition is asked from the oldest key of the window down to the
    answer. This holds of every history that ends where a search can still report it. -/
theorem firstIndexOf_isGreatest :
    (∀ (K : Type) (history : History K), history.BuiltIn →
      ∃ n ≤ maxIndex + 1, history.EndsAt n) ∧
    ∀ (K ω : Type) (history : History K) (condition : K → Traced ω Bool) (n lookback : Nat),
      history.EndsAt n → n ≤ maxIndex + 1 → lookback ≤ History.maxOffset →
      resolvableLength history lookback = min lookback n ∧
      resolvableLength? history lookback = some (min lookback n) ∧
      (∀ o, (firstIndexOf history lookback condition).value = some o ↔
        IsGreatest {o | o < lookback ∧
          ∃ key, history o = some key ∧ (condition key).value = true} o) ∧
      ((firstIndexOf history lookback condition).value = none ↔
        ∀ o < lookback, ∀ key, history o = some key → (condition key).value = false) ∧
      ∃ asked : List Nat, asked.Pairwise (· > ·) ∧
        (∀ o, o ∈ asked ↔ o < lookback ∧ (history o).isSome = true ∧
          (firstIndexOf history lookback condition).value.getD 0 ≤ o) ∧
        (firstIndexOf history lookback condition).visits =
          asked.flatMap (visitsAt history condition) := by
  refine ⟨fun K history h => h.exists_endsAt, ?_⟩
  intro K ω history condition n lookback hn hmax hlookback
  have hlength := resolvableLength_eq_min hn lookback
  have hmatch (o : Nat) : o < min lookback n ∧ holdsAt history condition o = true ↔
      o < lookback ∧ ∃ key, history o = some key ∧ (condition key).value = true := by
    rw [holdsAt_eq_true_iff]
    constructor
    · rintro ⟨ho, hholds⟩
      exact ⟨by omega, hholds⟩
    · rintro ⟨ho, key, hkey, hvalue⟩
      have hon := hn.lt_of_eq_some hkey
      exact ⟨by omega, key, hkey, hvalue⟩
  refine ⟨hlength, (resolvableLength?_eq hlookback).trans (congrArg some hlength), ?_⟩
  rw [firstIndexOf_eq hn hmax]
  refine ⟨fun o => ?_, ?_, ?_⟩
  · simp only [find?_range_reverse, hmatch]
  · simp only [List.find?_eq_none, List.mem_reverse, List.mem_range]
    constructor
    · intro hnone o ho key hkey
      by_contra hvalue
      rw [Bool.not_eq_false] at hvalue
      obtain ⟨hlt, hholds⟩ := (hmatch o).2 ⟨ho, key, hkey, hvalue⟩
      exact hnone o hlt hholds
    · intro hnone o ho hholds
      obtain ⟨hlt, key, hkey, hvalue⟩ := (hmatch o).1 ⟨ho, hholds⟩
      rw [hnone o hlt key hkey] at hvalue
      cases hvalue
  · refine ⟨_, ?_, ?_, rfl⟩
    · rw [List.pairwise_reverse]
      exact List.pairwise_lt_range'
    · intro o
      rw [List.mem_reverse, List.mem_range'_1, hn o]
      dsimp only
      omega

/-- At bar 2, a window of 50 bars reaches back to bar 0, and its oldest match is found
    without asking further. -/
theorem firstIndexOf_isGreatest_bars :
    (firstIndexOf (Bars.history 2) 50
      (fun bar => (⟨bar = 2 ∨ bar = 0, [bar]⟩ : Traced Int Bool))).value = some 2 := by
  have hends : (Bars.history 2).EndsAt 3 := by
    intro offset
    simp only [Option.isSome_iff_exists, Bars.history_eq_some_iff]
    constructor
    · rintro ⟨bar, hbar⟩
      omega
    · exact fun h => ⟨2 - offset, rfl, by omega⟩
  obtain ⟨-, -, hanswer, -⟩ := firstIndexOf_isGreatest.2 Int Int (Bars.history 2)
    (fun bar => ⟨bar = 2 ∨ bar = 0, [bar]⟩) 3 50 hends (by decide) (by decide)
  refine (hanswer 2).2 ⟨⟨by decide, 0, rfl, rfl⟩, ?_⟩
  rintro o ⟨-, key, hkey, -⟩
  exact Nat.le_of_lt_succ (hends.lt_of_eq_some hkey)

end Scan

end Lookback
