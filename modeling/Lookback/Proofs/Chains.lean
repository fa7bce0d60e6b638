-- SUMMARY: Chains of searches: how far a chain gets through the matches of its condition, and at which offsets it asks.
import Lookback.Proofs.Searches
import Mathlib.Data.List.Sort

/-!
# Chains

A chain of searches goes from match to match, newest first, as long as each match
lies within the window that begins after the one before. So its answer can be read
off the list of all matches: `Linked` says that the chain gets to the `m`-th of
them.

A chain that has come to the `j`-th match goes on from `chainBase os j`, and this
is the whole of its state. Its searches therefore ask at consecutive offsets.
-/

namespace Lookback.Scan

variable {K ω : Type} {history : History K} {condition : K → Traced ω Bool}

/-! ## Matches -/

/-- All offsets at which the condition holds, in ascending order. -/
structure Matches (history : History K) (condition : K → Traced ω Bool) (os : List Nat) :
    Prop where
  ascending : os.Pairwise (· < ·)
  mem_iff : ∀ o, o ∈ os ↔ ∃ key, history o = some key ∧ (condition key).value = true

theorem exists_matches {n : Nat} (hn : history.EndsAt n) (condition : K → Traced ω Bool) :
    ∃ os, Matches history condition os := by
  refine ⟨(List.range n).filter (holdsAt history condition), ?_, ?_⟩
  · exact List.pairwise_lt_range.filter _
  · intro o
    rw [List.mem_filter, List.mem_range, holdsAt_eq_true_iff]
    constructor
    · exact And.right
    · rintro ⟨key, hkey, hvalue⟩
      exact ⟨hn.lt_of_eq_some hkey, key, hkey, hvalue⟩

/-- There is only one such list. -/
theorem Matches.unique {os os' : List Nat} (h : Matches history condition os)
    (h' : Matches history condition os') : os = os' := by
  refine h.ascending.eq_of_mem_iff h'.ascending ?_
  intro o
  rw [h.mem_iff, h'.mem_iff]

/-- The `j`-th match, counted from one. -/
def nthMatch (os : List Nat) : Nat → Option Nat
  | 0 => none
  | j + 1 => os[j]?

/-- The offset of the `j`-th match. A chain begins as if there were a match one before
    offset 0. -/
def nthOffset (os : List Nat) (j : Nat) : Int := (nthMatch os j).elim (-1) Int.ofNat

/-- The first `m` matches exist, each at most `lookback` after the one before. -/
def Linked (lookback : Nat) (os : List Nat) (m : Nat) : Prop :=
  m ≤ os.length ∧ ∀ j < m, nthOffset os (j + 1) - nthOffset os j ≤ lookback

instance (lookback : Nat) (os : List Nat) (m : Nat) : Decidable (Linked lookback os m) :=
  inferInstanceAs (Decidable (_ ∧ _))

/-- Where the search after the `j`-th match begins. -/
def chainBase (os : List Nat) (j : Nat) : Nat := (nthMatch os j).elim 0 (· + 1)

theorem nthOffset_eq (os : List Nat) (j : Nat) : nthOffset os j = chainBase os j - 1 := by
  unfold nthOffset chainBase
  cases nthMatch os j with
  | none => rfl
  | some o => simp

theorem chainBase_succ {os : List Nat} {j o : Nat} (h : nthMatch os (j + 1) = some o) :
    chainBase os (j + 1) = o + 1 := by
  rw [chainBase, h]
  rfl

theorem Linked.mono {lookback m m' : Nat} {os : List Nat} (h : Linked lookback os m)
    (hle : m' ≤ m) : Linked lookback os m' :=
  ⟨Nat.le_trans hle h.1, fun j hj => h.2 j (Nat.lt_of_lt_of_le hj hle)⟩

theorem linked_zero (lookback : Nat) (os : List Nat) : Linked lookback os 0 :=
  ⟨Nat.zero_le _, fun _ h => absurd h (Nat.not_lt_zero _)⟩

/-- One match more is linked when the next search has it in its window. -/
theorem linked_succ {lookback m : Nat} {os : List Nat} : Linked lookback os (m + 1) ↔
    Linked lookback os m ∧ ∃ o, nthMatch os (m + 1) = some o ∧ o < chainBase os m + lookback := by
  have hgap {o : Nat} (ho : nthMatch os (m + 1) = some o) :
      nthOffset os (m + 1) - nthOffset os m ≤ lookback ↔ o < chainBase os m + lookback := by
    rw [nthOffset_eq, nthOffset_eq, chainBase_succ ho]
    omega
  constructor
  · intro h
    have hm : m < os.length := h.1
    have ho : nthMatch os (m + 1) = some os[m] := List.getElem?_eq_getElem hm
    exact ⟨h.mono (Nat.le_succ m), _, ho, (hgap ho).1 (h.2 m (Nat.lt_succ_self m))⟩
  · rintro ⟨h, o, ho, hlt⟩
    refine ⟨(List.getElem?_eq_some_iff.1 ho).1, fun j hj => ?_⟩
    rcases Nat.lt_or_eq_of_le (Nat.le_of_lt_succ hj) with hj | rfl
    · exact h.2 j hj
    · exact (hgap ho).2 hlt

/-! ## One search -/

section Search

variable {os : List Nat} {j o : Nat}

theorem Matches.le_of_le (h : Matches history condition os) {i k : Nat} (hik : i ≤ k)
    (hk : k < os.length) : os[i] ≤ os[k] := by
  rcases Nat.lt_or_eq_of_le hik with hlt | rfl
  · exact Nat.le_of_lt (List.pairwise_iff_getElem.1 h.ascending i k (by omega) hk hlt)
  · exact Nat.le_refl _

theorem Matches.holdsAt (h : Matches history condition os) (ho : nthMatch os (j + 1) = some o) :
    holdsAt history condition o = true := by
  rw [holdsAt_eq_true_iff, ← h.mem_iff]
  exact List.mem_of_getElem? ho

/-- The next match lies where the next search begins, or after. -/
theorem Matches.chainBase_le (h : Matches history condition os)
    (ho : nthMatch os (j + 1) = some o) : chainBase os j ≤ o := by
  obtain ⟨hj, rfl⟩ := List.getElem?_eq_some_iff.1 ho
  cases j with
  | zero => exact Nat.zero_le _
  | succ i =>
    rw [chainBase_succ (List.getElem?_eq_getElem (by omega))]
    exact List.pairwise_iff_getElem.1 h.ascending i (i + 1) (by omega) hj (Nat.lt_succ_self i)

theorem Matches.chainBase_le_succ (h : Matches history condition os) (hj : j < os.length) :
    chainBase os j ≤ chainBase os (j + 1) := by
  have ho : nthMatch os (j + 1) = some os[j] := List.getElem?_eq_getElem hj
  rw [chainBase_succ ho]
  exact Nat.le_succ_of_le (h.chainBase_le ho)

/-- Where the condition holds from there on, the next match is no later. -/
theorem Matches.exists_le (h : Matches history condition os) (hj : j ≤ os.length) {i : Nat}
    (hi : Scan.holdsAt history condition i = true) (hbase : chainBase os j ≤ i) :
    ∃ o, nthMatch os (j + 1) = some o ∧ o ≤ i := by
  rw [holdsAt_eq_true_iff, ← h.mem_iff] at hi
  obtain ⟨k, hk, rfl⟩ := List.mem_iff_getElem.1 hi
  have hjk : j ≤ k := by
    cases j with
    | zero => exact Nat.zero_le _
    | succ i =>
      by_contra hlt
      rw [chainBase_succ (List.getElem?_eq_getElem (by omega))] at hbase
      have := h.le_of_le (show k ≤ i by omega) (by omega)
      omega
  exact ⟨os[j], List.getElem?_eq_getElem (by omega), h.le_of_le hjk hk⟩

variable {n lookback : Nat}

theorem Matches.chainBase_le_end (h : Matches history condition os) (hn : history.EndsAt n)
    (hj : j ≤ os.length) : chainBase os j ≤ n := by
  cases j with
  | zero => exact Nat.zero_le _
  | succ i =>
    have ho : nthMatch os (i + 1) = some os[i] := List.getElem?_eq_getElem hj
    obtain ⟨key, hkey, -⟩ := holdsAt_eq_true_iff.1 (h.holdsAt ho)
    rw [chainBase_succ ho]
    exact hn.lt_of_eq_some hkey

/-- A search that can be linked finds the next match. -/
theorem Matches.findFrom_linked (h : Matches history condition os) (hn : history.EndsAt n)
    (hmax : n ≤ History.maxOffset + 1) (hnext : Linked lookback os (j + 1)) :
    findFrom history condition lookback (chainBase os j) =
      ⟨nthMatch os (j + 1), (List.range' (chainBase os j)
        (chainBase os (j + 1) - chainBase os j)).flatMap (visitsAt history condition)⟩ := by
  obtain ⟨hj, o, ho, hlt⟩ := linked_succ.1 hnext
  have hend := h.chainBase_le_end hn hnext.1
  rw [chainBase_succ ho] at hend ⊢
  have hfind : (List.range' (chainBase os j) (min lookback (n - chainBase os j))).find?
      (Scan.holdsAt history condition) = some o := by
    have hle := h.chainBase_le ho
    rw [List.find?_range'_eq_some]
    refine ⟨h.holdsAt ho, List.mem_range'_1.2 ⟨hle, by omega⟩, fun i hi hio => ?_⟩
    rw [Bool.not_eq_true', Bool.eq_false_iff]
    intro hholds
    obtain ⟨o', ho', hle'⟩ := h.exists_le hj.1 hholds hi
    rw [ho] at ho'
    cases ho'
    omega
  rw [findFrom_eq hn hmax, search_eq, upToHit_range', hfind, ho]
  rfl

/-- A search that cannot be linked finds nothing. -/
theorem Matches.findFrom_not_linked (h : Matches history condition os) (hn : history.EndsAt n)
    (hmax : n ≤ History.maxOffset + 1) (hj : Linked lookback os j)
    (hnext : ¬ Linked lookback os (j + 1)) :
    findFrom history condition lookback (chainBase os j) =
      ⟨none, (List.range' (chainBase os j) (min lookback (n - chainBase os j))).flatMap
        (visitsAt history condition)⟩ := by
  have hfind : (List.range' (chainBase os j) (min lookback (n - chainBase os j))).find?
      (Scan.holdsAt history condition) = none := by
    rw [List.find?_eq_none]
    intro i hi hholds
    rw [List.mem_range'_1] at hi
    obtain ⟨o, ho, hle⟩ := h.exists_le hj.1 hholds hi.1
    exact hnext (linked_succ.2 ⟨hj, o, ho, by omega⟩)
  rw [findFrom_eq hn hmax, search_eq, upToHit_range', hfind]
  rfl

end Search

/-! ## The whole chain -/

/-- What a chain reports when a search finds nothing. -/
def ChainMode.afterMiss : ChainMode → Option Nat → Option Nat
  | .strict, _ => none
  | .furthest, found => found

/-- The searches that are left to a chain, from where the next one begins and the last
    match so far. -/
def chainFrom (history : History K) (lookback : Nat) (mode : ChainMode)
    (condition : K → Traced ω Bool) : Nat → Nat × Option Nat → Traced ω (Option Nat)
  | 0, (_, found) => pure found
  | steps + 1, (base, found) => do
    match ← findFrom history condition lookback base with
    | some offset =>
      chainFrom history lookback mode condition steps
        (min (offset + 1) History.maxOffset, reported offset)
    | none => return mode.afterMiss found

theorem chainedIndexOf_eq (history : History K) (lookback steps : Nat) (mode : ChainMode)
    (condition : K → Traced ω Bool) : chainedIndexOf history lookback steps mode condition =
      chainFrom history lookback mode condition steps (0, none) := by
  unfold chainedIndexOf
  generalize ((0, none) : Nat × Option Nat) = state
  induction steps generalizing state with
  | zero => rfl
  | succ steps ih =>
    obtain ⟨base, found⟩ := state
    rw [Traced.iterate_succ, chainFrom]
    simp only [bind_assoc, map_bind]
    refine bind_congr fun next => ?_
    cases next with
    | some offset => exact ih _
    | none => cases mode <;> rfl

section Chain

variable {os : List Nat} {n lookback j : Nat}

/-- From match to match the state stays one that names a match, since no offset is too
    large to be reported or to go on from. -/
theorem Matches.chainFrom_linked (h : Matches history condition os) (hn : history.EndsAt n)
    (hmax : n ≤ maxIndex + 1) (hnext : Linked lookback os (j + 1)) (mode : ChainMode)
    (steps : Nat) (found : Option Nat) :
    chainFrom history lookback mode condition (steps + 1) (chainBase os j, found) =
      (⟨(), (List.range' (chainBase os j) (chainBase os (j + 1) - chainBase os j)).flatMap
        (visitsAt history condition)⟩ : Traced ω Unit) >>= fun _ =>
      chainFrom history lookback mode condition steps
        (chainBase os (j + 1), nthMatch os (j + 1)) := by
  obtain ⟨-, o, ho, -⟩ := linked_succ.1 hnext
  have hend := h.chainBase_le_end hn hnext.1
  rw [chainBase_succ ho] at hend
  have hreported : reported o = some o := if_pos (by omega)
  have hbase : min (o + 1) History.maxOffset = o + 1 := by
    have : maxIndex + 1 ≤ History.maxOffset := by decide
    omega
  rw [chainFrom, h.findFrom_linked hn (Nat.le_trans hmax (by decide)) hnext, chainBase_succ ho, ho]
  refine Traced.ext ?_ ?_
  · simp only [Traced.value_bind, hbase, hreported]
  · simp only [Traced.visits_bind, hbase, hreported]

theorem Matches.chainFrom_not_linked (h : Matches history condition os) (hn : history.EndsAt n)
    (hmax : n ≤ maxIndex + 1) (hj : Linked lookback os j) (hnext : ¬ Linked lookback os (j + 1))
    (mode : ChainMode) (steps : Nat) (found : Option Nat) :
    chainFrom history lookback mode condition (steps + 1) (chainBase os j, found) =
      ⟨mode.afterMiss found, (List.range' (chainBase os j)
        (min lookback (n - chainBase os j))).flatMap (visitsAt history condition)⟩ := by
  rw [chainFrom, h.findFrom_not_linked hn (Nat.le_trans hmax (by decide)) hj hnext]
  exact Traced.ext rfl (List.append_nil _)

/-- Searches that go on where the one before ended ask at consecutive offsets. -/
theorem range'_append_range' {a b c : Nat} (hab : a ≤ b) (hbc : b ≤ c) :
    List.range' a (b - a) ++ List.range' b (c - b) = List.range' a (c - a) := by
  rw [show c - a = b - a + (c - b) by omega, ← List.range'_append_1, Nat.add_sub_cancel' hab]

/-- What is left of a chain that has come to the `j`-th match: it gets to the last match
    that is linked within its steps. -/
theorem Matches.chainFrom_eq (h : Matches history condition os) (hn : history.EndsAt n)
    (hmax : n ≤ maxIndex + 1) (hj : Linked lookback os j) (steps : Nat) :
    ∃ m stop, IsGreatest {m | m ≤ j + steps ∧ Linked lookback os m} m ∧
      chainBase os j ≤ stop ∧ stop ≤ n ∧
      ∀ mode, chainFrom history lookback mode condition steps (chainBase os j, nthMatch os j) =
        ⟨if mode = .furthest ∨ Linked lookback os (j + steps) then nthMatch os m else none,
          (List.range' (chainBase os j) (stop - chainBase os j)).flatMap
            (visitsAt history condition)⟩ := by
  have hend := h.chainBase_le_end hn hj.1
  induction steps generalizing j with
  | zero =>
    refine ⟨j, chainBase os j, ⟨⟨Nat.le_refl j, hj⟩, fun m hm => hm.1⟩, Nat.le_refl _, hend, ?_⟩
    intro mode
    rw [if_pos (.inr hj), Nat.sub_self]
    rfl
  | succ steps ih =>
    by_cases hnext : Linked lookback os (j + 1)
    · obtain ⟨m, stop, hm, hstop, hstopn, heq⟩ := ih hnext (h.chainBase_le_end hn hnext.1)
      have hbase := h.chainBase_le_succ hnext.1
      rw [Nat.add_right_comm] at hm heq
      refine ⟨m, stop, hm, Nat.le_trans hbase hstop, hstopn, fun mode => ?_⟩
      rw [h.chainFrom_linked hn hmax hnext, heq]
      refine Traced.ext rfl ?_
      rw [Traced.visits_bind, ← List.flatMap_append, range'_append_range' hbase hstop]
    · have hlast : ∀ m, Linked lookback os m → m ≤ j := fun m hm => by
        by_contra hlt
        exact hnext (hm.mono (by omega))
      have hall : ¬ Linked lookback os (j + (steps + 1)) := fun hm => by
        have := hlast _ hm
        omega
      refine ⟨j, chainBase os j + min lookback (n - chainBase os j),
        ⟨⟨Nat.le_add_right j _, hj⟩, fun m hm => hlast m hm.2⟩, Nat.le_add_right _ _, by omega,
        fun mode => ?_⟩
      rw [h.chainFrom_not_linked hn hmax hj hnext, Nat.add_sub_cancel_left]
      cases mode with
      | strict => simp [ChainMode.afterMiss, hall]
      | furthest => simp [ChainMode.afterMiss]

end Chain

theorem chainedIndexOf_one (history : History K) (lookback : Nat) (mode : ChainMode)
    (condition : K → Traced ω Bool) :
    chainedIndexOf history lookback 1 mode condition = lastIndexOf history lookback condition := by
  rw [chainedIndexOf_eq, lastIndexOf, map_eq_pure_bind, chainFrom]
  refine bind_congr fun next => ?_
  cases next with
  | some offset => rfl
  | none => cases mode <;> rfl

/-- The closed form of a chain over a built-in history, with `m` the number of matches
    that it gets to. Its condition is asked at the offsets below some bound, all of which
    have a key, and at each only once. -/
theorem chainedIndexOf_closed {history : History K} (h : history.BuiltIn)
    (condition : K → Traced ω Bool) (lookback steps : Nat) :
    ∃ os m stop, Matches history condition os ∧
      IsGreatest {m | m ≤ steps ∧ Linked lookback os m} m ∧
      (chainedIndexOf history lookback steps .strict condition).value =
        (if 1 ≤ steps ∧ Linked lookback os steps then nthMatch os steps else none) ∧
      (chainedIndexOf history lookback steps .furthest condition).value = nthMatch os m ∧
      (∀ o < stop, (history o).isSome = true) ∧
      ∀ mode, (chainedIndexOf history lookback steps mode condition).visits =
          (List.range stop).flatMap (visitsAt history condition) ∧
        chainedIndexOf history lookback 1 mode condition =
          lastIndexOf history lookback condition := by
  obtain ⟨n, hmax, hn⟩ := h.exists_endsAt
  obtain ⟨os, hos⟩ := exists_matches hn condition
  obtain ⟨m, stop, hm, -, hstop, hchain⟩ :=
    hos.chainFrom_eq hn hmax (linked_zero lookback os) steps
  rw [Nat.zero_add] at hm hchain
  have heq (mode : ChainMode) := (chainedIndexOf_eq history lookback steps mode condition).trans
    (hchain mode)
  refine ⟨os, m, stop, hos, hm, ?_, ?_, ?_, ?_⟩
  · rw [heq]
    cases steps with
    | zero => simp [nthMatch, Nat.le_zero.1 hm.1.1]
    | succ steps =>
      by_cases hall : Linked lookback os (steps + 1)
      · have hmsteps : m = steps + 1 := Nat.le_antisymm hm.1.1 (hm.2 ⟨Nat.le_refl _, hall⟩)
        simp [hall, hmsteps]
      · simp [hall]
  · rw [heq, if_pos (.inl rfl)]
  · exact fun o ho => (hn o).2 (Nat.lt_of_lt_of_le ho hstop)
  · intro mode
    refine ⟨?_, chainedIndexOf_one history lookback mode condition⟩
    rw [heq, List.range_eq_range']
    rfl

/-- From bar 20, with matches at the offsets 1, 3 and 4, a fourth step finds nothing. -/
theorem chainedIndexOf_closed_bars :
    let condition (bar : Int) : Traced Int Bool := ⟨bar = 19 ∨ bar = 17 ∨ bar = 16, [bar]⟩
    (chainedIndexOf (Bars.history 20) 2 4 .strict condition).value = none ∧
      (chainedIndexOf (Bars.history 20) 2 4 .furthest condition).value = some 4 := by
  intro condition
  obtain ⟨os, m, -, hos, hm, hstrict, hfurthest, -⟩ :=
    chainedIndexOf_closed (.bars (show (20 : Int) ≤ maxIndex by decide)) condition 2 4
  have hmatches : Matches (Bars.history 20) condition [1, 3, 4] := by
    refine ⟨by decide, fun o => ⟨?_, ?_⟩⟩
    · intro ho
      simp only [List.mem_cons, List.not_mem_nil, or_false] at ho
      rcases ho with rfl | rfl | rfl
      · exact ⟨19, rfl, rfl⟩
      · exact ⟨17, rfl, rfl⟩
      · exact ⟨16, rfl, rfl⟩
    · rintro ⟨bar, hbar, hvalue⟩
      rw [Bars.history_eq_some_iff] at hbar
      simp only [condition, decide_eq_true_iff] at hvalue
      simp only [List.mem_cons, List.not_mem_nil, or_false]
      omega
  obtain rfl := hos.unique hmatches
  have hm3 : m = 3 :=
    hm.unique ⟨⟨by decide, by decide⟩, fun m hm => hm.2.1⟩
  exact ⟨hstrict.trans (if_neg (by decide)), hfurthest.trans (by rw [hm3]; rfl)⟩

end Lookback.Scan
