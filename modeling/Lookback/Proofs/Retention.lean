-- SUMMARY: What order statistics retain: the most recent values, once in order of arrival and once sorted, with no eviction that misses.
import Lookback.Estimator.OrderStatistics
import Lookback.Proofs.Histories
import Mathlib.Data.List.Induction
import Mathlib.Data.List.Perm.Basic

/-!
# Retained values

Order statistics keep two lists, and change them by different means: the newest value
is put at one end of the arrivals and bisected into the sorted list, and the oldest is
taken off the other end and bisected out again. That removal does nothing when the
bisection misses. It never does, because the sorted list stays sorted and a
rearrangement of the arrivals (`OrderStatistics.Retains`).

Only two things are asked of the values: the order is total, and it tells any two of
them apart. So zeros of different signs, and missing values that differ in their bits,
are values like all others.
-/

namespace Lookback

/-! ## The total order of doubles -/

theorem Double.rank_inj {x y : Float} : rank x = rank y ↔ x = y := by
  constructor
  · intro h
    have hbits : x.toBits.toNat = y.toBits.toNat := by
      simp only [rank] at h
      omega
    exact toBits_inj.1 (UInt64.toNat_inj.1 hbits)
  · rintro rfl
    rfl

instance : Std.TransCmp (Scalar.order : Float → Float → Ordering) :=
  inferInstanceAs (Std.TransCmp (compareOn Double.rank))

instance : Std.LawfulEqCmp (Scalar.order : Float → Float → Ordering) where
  compare_self {x} := show compare (Double.rank x) (Double.rank x) = .eq from
    Std.ReflCmp.compare_self
  eq_of_compare {x y} h := Double.rank_inj.1 <| Std.LawfulEqCmp.eq_of_compare <|
    show compare (Double.rank x) (Double.rank y) = .eq from h

/-! ## Bisection for a thing sought -/

namespace Bisection

/-- When the things up to the one sought come first, the halving ends at the last of
    them. -/
theorem find?_eq {place : Nat → Ordering} {n m : Nat} (hpos : 0 < m) (hm : m ≤ n)
    (hplace : ∀ i < n, (place i != .gt) = decide (i < m)) :
    find? place n = if place (m - 1) == .eq then some (m - 1) else none := by
  obtain ⟨-, hbelow, habove⟩ := narrow_spec hplace 0 n (by omega) (by omega) (.inl rfl) (by omega)
  have hlast : narrow (fun i => place i != .gt) 0 n = m - 1 := by omega
  rw [find?, if_neg (by omega)]
  simp only [hlast]

end Bisection

namespace OrderStatistics

variable {α : Type} [Scalar α]

/-! ## What is retained -/

/-- Sorted in the total order. -/
def Ascending (xs : List α) : Prop := xs.Pairwise fun a b => (Scalar.order a b).isLE = true

/-- The values in `kept` are retained, oldest first: they arrived in this order, and
    sorted they are the same values. -/
structure Retains (s : OrderStatistics α) (kept : List α) : Prop where
  arrivals : s.recent.reverse = kept
  perm : s.sorted.Perm s.recent
  ascending : Ascending s.sorted

theorem Retains.recent_eq {s : OrderStatistics α} {kept : List α} (h : s.Retains kept) :
    s.recent = kept.reverse := by
  rw [← h.arrivals, List.reverse_reverse]

theorem Retains.sorted_perm {s : OrderStatistics α} {kept : List α} (h : s.Retains kept) :
    s.sorted.Perm kept := by
  refine h.perm.trans ?_
  rw [h.recent_eq]
  exact List.reverse_perm kept

/-- No values yet, with a bound on how many are retained or without one. -/
def start : Option Nat → OrderStatistics α
  | none => unbounded
  | some window => bounded window

/-- The state after a list of values, added from its head on. -/
def after (window : Option Nat) (values : List α) : OrderStatistics α :=
  values.foldl add (start window)

/-- The last of the values, as many as there is room for. -/
def retained : Option Nat → List α → List α
  | none, values => values
  | some window, values => values.drop (values.length - max window 1)

theorem after_concat (window : Option Nat) (values : List α) (x : α) :
    after window (values ++ [x]) = (after window values).add x := by
  rw [after, List.foldl_append]
  rfl

theorem window_evictOldest (s : OrderStatistics α) : s.evictOldest.window = s.window := by
  unfold evictOldest
  split <;> rfl

theorem window_after (window : Option Nat) (values : List α) :
    (after window values).window = window.map (max · 1) := by
  induction values using List.reverseRecOn with
  | nil => cases window <;> rfl
  | append_singleton values x ih =>
    rw [after_concat, ← ih]
    simp only [add]
    split
    · exact window_evictOldest _
    · rfl

theorem isFull_after_none (values : List α) : (after none values).isFull = false := by
  rw [isFull, window_after]
  rfl

theorem Retains.isFull_iff {window : Nat} {values : List α}
    (h : (after (some window) values).Retains (retained (some window) values)) :
    (after (some window) values).isFull = true ↔ max window 1 ≤ values.length := by
  have hlength := congrArg List.length h.arrivals
  rw [List.length_reverse, retained, List.length_drop] at hlength
  rw [isFull, window_after, Option.map_some, Option.any_some, decide_eq_true_iff, hlength]
  omega

omit [Scalar α] in
/-- With no room left, the next value takes the place of the first one retained. -/
theorem exists_retained_cons {window : Nat} {values : List α} (h : max window 1 ≤ values.length) :
    ∃ oldest kept, retained (some window) values = oldest :: kept ∧
      ∀ x, retained (some window) (values ++ [x]) = kept ++ [x] := by
  have hlt : values.length - max window 1 < values.length := by omega
  refine ⟨_, _, List.drop_eq_getElem_cons hlt, fun x => ?_⟩
  rw [retained, List.length_append, List.length_singleton,
    List.drop_append_of_le_length (by omega), Nat.sub_add_comm h]

theorem percentile_congr {s s' : OrderStatistics α} (h : s.sorted = s'.sorted) (q : α) :
    s.percentile q = s'.percentile q := by
  rw [percentile, percentile, h]

/-! ## Placing a value -/

section Placing

variable [Std.TransCmp (Scalar.order : α → α → Ordering)] {xs : List α}

/-- The bisection that places a value comes out between the smaller ones and the rest. -/
theorem Ascending.exists_insertSorted (h : Ascending xs) (x : α) :
    ∃ below above, xs = below ++ above ∧ insertSorted x xs = below ++ x :: above ∧
      (∀ y ∈ below, Scalar.order y x = .lt) ∧ ∀ y ∈ above, (Scalar.order x y).isLE = true := by
  let smaller (y : α) : Bool := Scalar.order y x == .lt
  have hfirst : xs.Pairwise fun a b => smaller b = true → smaller a = true := by
    refine h.imp fun hab hb => ?_
    rw [beq_iff_eq] at hb ⊢
    exact Std.TransCmp.lt_of_isLE_of_lt hab hb
  have hindex := Bisection.any_getElem? hfirst
  have hcount : xs.countP smaller ≤ xs.length := List.countP_le_length
  obtain ⟨below, above, rfl, hlength, hinsert⟩ := List.exists_of_modifyTailIdx (x :: ·) hcount
  refine ⟨below, above, rfl, ?_, ?_, ?_⟩
  · rw [insertSorted, Bisection.partitionPoint_getElem? hfirst]
    exact hinsert
  · intro y hy
    obtain ⟨i, hi, rfl⟩ := List.mem_iff_getElem.1 hy
    have hsmaller := hindex i
    rw [List.getElem?_append_left hi, List.getElem?_eq_getElem hi, ← hlength,
      decide_eq_true hi, Option.any_some, beq_iff_eq] at hsmaller
    exact hsmaller
  · intro y hy
    obtain ⟨i, hi, rfl⟩ := List.mem_iff_getElem.1 hy
    have hsmaller := hindex (below.length + i)
    rw [List.getElem?_append_right (by omega), Nat.add_sub_cancel_left,
      List.getElem?_eq_getElem hi, ← hlength, decide_eq_false (by omega), Option.any_some,
      beq_eq_false_iff_ne] at hsmaller
    exact Std.OrientedCmp.isGE_iff_isLE.1 (Ordering.isGE_iff_ne_lt.2 hsmaller)

theorem Ascending.insertSorted_perm (h : Ascending xs) (x : α) :
    (insertSorted x xs).Perm (x :: xs) := by
  obtain ⟨below, above, rfl, hinsert, -⟩ := h.exists_insertSorted x
  rw [hinsert]
  exact List.perm_middle

theorem Ascending.insertSorted (h : Ascending xs) (x : α) : Ascending (insertSorted x xs) := by
  obtain ⟨below, above, rfl, hinsert, hbelow, habove⟩ := h.exists_insertSorted x
  obtain ⟨hbelow', habove', hbetween⟩ := List.pairwise_append.1 h
  rw [hinsert]
  refine List.pairwise_append.2 ⟨hbelow', List.pairwise_cons.2 ⟨habove, habove'⟩, ?_⟩
  intro y hy z hz
  rcases List.mem_cons.1 hz with rfl | hz
  · rw [hbelow y hy]
    rfl
  · exact hbetween y hy z hz

theorem Retains.insert {s : OrderStatistics α} {kept : List α} (h : s.Retains kept)
    (window : Option Nat) (x : α) :
    Retains ⟨window, x :: s.recent, OrderStatistics.insertSorted x s.sorted⟩ (kept ++ [x]) := by
  refine ⟨?_, ?_, h.ascending.insertSorted x⟩
  · rw [List.reverse_cons, h.arrivals]
  · exact (h.ascending.insertSorted_perm x).trans (h.perm.cons x)

end Placing

/-! ## Evicting a value -/

section Evicting

variable [Std.TransCmp (Scalar.order : α → α → Ordering)]
  [Std.LawfulEqCmp (Scalar.order : α → α → Ordering)]

/-- The bisection finds whatever is in the list, to the bit. -/
theorem Ascending.exists_findIdentical? {xs : List α} (h : Ascending xs) {x : α} (hx : x ∈ xs) :
    ∃ i, ∃ hi : i < xs.length, findIdentical? x xs = some i ∧ xs[i] = x := by
  let reached (y : α) : Bool := Scalar.order y x != .gt
  have hfirst : xs.Pairwise fun a b => reached b = true → reached a = true := by
    refine h.imp fun hab hb => ?_
    rw [bne_iff_ne, Ne, ← Ordering.isLE_iff_ne_gt] at hb ⊢
    exact Std.TransCmp.isLE_trans hab hb
  have hindex := Bisection.any_getElem? hfirst
  have hat {i : Nat} (hi : i < xs.length) : i < xs.countP reached ↔
      (Scalar.order xs[i] x).isLE = true := by
    have hreached := hindex i
    rw [List.getElem?_eq_getElem hi, Option.any_some] at hreached
    rw [Ordering.isLE_iff_ne_gt, ← Ne, ← bne_iff_ne, show (_ != _) = _ from hreached,
      decide_eq_true_iff]
  have hcount : xs.countP reached ≤ xs.length := List.countP_le_length
  obtain ⟨j, hj, rfl⟩ := List.mem_iff_getElem.1 hx
  have hjcount : j < xs.countP reached := (hat hj).2 Std.ReflCmp.isLE_rfl
  obtain ⟨last, hlast⟩ := Nat.exists_eq_add_of_lt hjcount
  have hi : j + last < xs.length := by omega
  -- The last one that is not greater is not smaller either, since it comes no earlier.
  have hsame : Scalar.order xs[j + last] xs[j] = .eq := by
    apply Std.OrientedCmp.isLE_antisymm ((hat hi).1 (by omega))
    rcases Nat.eq_zero_or_pos last with rfl | hpos
    · exact Std.ReflCmp.isLE_rfl
    · exact List.pairwise_iff_getElem.1 h j (j + last) hj hi (by omega)
  refine ⟨j + last, hi, ?_, Std.LawfulEqCmp.eq_of_compare hsame⟩
  have hplace : ∀ i < xs.length, (xs[i]?.elim .gt (Scalar.order · xs[j]) != .gt) =
      decide (i < xs.countP reached) := by
    intro i hi
    rw [← hindex i, List.getElem?_eq_getElem hi]
    rfl
  rw [findIdentical?, Bisection.find?_eq (by omega) hcount hplace,
    show xs.countP reached - 1 = j + last by omega, List.getElem?_eq_getElem hi, Option.elim_some,
    hsame]
  rfl

/-- An eviction finds the oldest value in the sorted list, and takes it out. -/
theorem Retains.exists_evicted {s : OrderStatistics α} {oldest : α} {kept : List α}
    (h : s.Retains (oldest :: kept)) :
    s.recent.getLast? = some oldest ∧ ∃ i, findIdentical? oldest s.sorted = some i ∧
      s.sorted[i]? = some oldest ∧
      s.evictOldest = ⟨s.window, s.recent.dropLast, s.sorted.eraseIdx i⟩ := by
  have hlast : s.recent.getLast? = some oldest := by
    rw [h.recent_eq, List.getLast?_reverse, List.head?_cons]
  have hmem : oldest ∈ s.sorted := h.perm.mem_iff.2 (List.mem_of_getLast? hlast)
  obtain ⟨i, hi, hfound, hsame⟩ := h.ascending.exists_findIdentical? hmem
  refine ⟨hlast, i, hfound, ?_, ?_⟩
  · rw [List.getElem?_eq_getElem hi, hsame]
  · simp only [evictOldest, hlast, removeOne, hfound]

theorem Retains.evictOldest {s : OrderStatistics α} {oldest : α} {kept : List α}
    (h : s.Retains (oldest :: kept)) : s.evictOldest.Retains kept := by
  obtain ⟨-, i, -, hsame, hevicted⟩ := h.exists_evicted
  obtain ⟨hi, hsame⟩ := List.getElem?_eq_some_iff.1 hsame
  have hrecent : s.recent = kept.reverse ++ [oldest] := by
    rw [h.recent_eq, List.reverse_cons]
  rw [hevicted]
  refine ⟨?_, ?_, h.ascending.sublist (List.eraseIdx_sublist _ _)⟩
  · rw [hrecent, List.dropLast_concat, List.reverse_reverse]
  · -- With the oldest value put back, both sides are what they were before.
    have hsorted := List.getElem_cons_eraseIdx_perm hi
    rw [hsame] at hsorted
    have hperm := hsorted.trans h.perm
    rw [hrecent] at hperm
    rw [hrecent, List.dropLast_concat]
    exact (hperm.trans (List.perm_append_singleton _ _)).cons_inv

/-! ## Runs -/

theorem retains_after (window : Option Nat) (values : List α) :
    (after window values).Retains (retained window values) := by
  induction values using List.reverseRecOn with
  | nil =>
    cases window with
    | none => exact ⟨rfl, .nil, .nil⟩
    | some window => exact ⟨List.drop_nil.symm, .nil, .nil⟩
  | append_singleton values x ih =>
    rw [after_concat, add]
    cases window with
    | none =>
      rw [isFull_after_none]
      exact ih.insert _ x
    | some window =>
      by_cases hfull : max window 1 ≤ values.length
      · obtain ⟨oldest, kept, hkept, hnext⟩ := exists_retained_cons hfull
        rw [if_pos (ih.isFull_iff.2 hfull), hnext]
        rw [hkept] at ih
        exact ih.evictOldest.insert _ x
      · have hnext : retained (some window) (values ++ [x]) =
            retained (some window) values ++ [x] := by
          rw [retained, retained, List.length_append, List.length_singleton,
            Nat.sub_eq_zero_of_le (by omega), Nat.sub_eq_zero_of_le (by omega)]
          rfl
        rw [if_neg (mt ih.isFull_iff.1 hfull), hnext]
        exact ih.insert _ x

/-- The sorted list only depends on which values are retained. -/
theorem sorted_after_eq {window window' : Option Nat} {values values' : List α}
    (h : (retained window' values').Perm (retained window values)) :
    (after window' values').sorted = (after window values).sorted := by
  have hretains := retains_after window values
  have hretains' := retains_after window' values'
  have hperm : (after window' values').sorted.Perm (after window values).sorted :=
    hretains'.sorted_perm.trans (h.trans hretains.sorted_perm.symm)
  refine hperm.eq_of_pairwise ?_ hretains'.ascending hretains.ascending
  intro a b _ _ hab hba
  exact Std.LawfulEqCmp.eq_of_compare (Std.OrientedCmp.isLE_antisymm hab hba)

/-- What order statistics hold after any values, under any bound. In order of arrival
    these are the last values, as many as there is room for; sorted in the total order
    they are the same values. When another value needs room, the oldest one is found in
    the sorted list and taken out. So the sorted list, and with it every quantile,
    depends only on which values are retained and not on how they came. -/
theorem after_retains (window : Option Nat) (values : List α) :
    let s := after window values
    s.recent.reverse = retained window values ∧
      s.sorted.Perm s.recent ∧
      Ascending s.sorted ∧
      (s.isFull = true → ∃ oldest i, s.recent.getLast? = some oldest ∧
        findIdentical? oldest s.sorted = some i ∧ s.sorted[i]? = some oldest ∧
        s.evictOldest = ⟨s.window, s.recent.dropLast, s.sorted.eraseIdx i⟩) ∧
      ∀ (window' : Option Nat) (values' : List α),
        (retained window' values').Perm (retained window values) →
        (after window' values').sorted = s.sorted ∧
          ∀ q, (after window' values').percentile q = s.percentile q := by
  intro s
  have h := retains_after window values
  refine ⟨h.arrivals, h.perm, h.ascending, ?_, ?_⟩
  · intro hfull
    cases window with
    | none =>
      rw [show s.isFull = false from isFull_after_none values] at hfull
      cases hfull
    | some window =>
      obtain ⟨oldest, kept, hkept, -⟩ := exists_retained_cons (h.isFull_iff.1 hfull)
      rw [hkept] at h
      obtain ⟨holdest, i, hevicted⟩ := h.exists_evicted
      exact ⟨oldest, i, holdest, hevicted⟩
  · intro window' values' hsame
    have hsorted := sorted_after_eq hsame
    exact ⟨hsorted, percentile_congr hsorted⟩

end Evicting

/-- With room for three, the first of four doubles is gone and the zeros are kept apart.
    The sorted list is that of another order of arrival, and the next eviction finds
    the positive zero in it. -/
theorem after_retains_zeros :
    let s : OrderStatistics Float := after (some 3) [2.5, 0.0, Double.nan, -0.0]
    s.recent.reverse = [0.0, Double.nan, -0.0] ∧
      s.sorted = (after none [Double.nan, -0.0, 0.0]).sorted ∧
      ∃ i, findIdentical? 0.0 s.sorted = some i ∧ s.sorted[i]? = some 0.0 := by
  intro s
  obtain ⟨hrecent, -, -, hevict, hsorted⟩ := after_retains (some 3) [2.5, 0.0, Double.nan, -0.0]
  obtain ⟨hsame, -⟩ := hsorted none [Double.nan, -0.0, 0.0]
    (List.perm_append_singleton 0.0 [Double.nan, -0.0])
  obtain ⟨oldest, i, holdest, hfound, hat, -⟩ := hevict rfl
  cases holdest
  exact ⟨hrecent, hsame.symm, i, hfound, hat⟩

end OrderStatistics

end Lookback
