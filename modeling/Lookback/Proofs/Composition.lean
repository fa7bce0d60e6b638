-- SUMMARY: Stepping back in stages: going back by one offset and then by another leads to where their sum does, and what follows for lags and chains.
import Lookback.Proofs.CalendarBars
import Lookback.Proofs.Chains

/-!
# Stepping back in stages

Going back by `a` observations and then by `b` more is going back by `a + b`, and one
side ends just when the other does. Bars and intervals are plain differences. On a
calendar in which every time occurs once, the entries before an entry are as many as
its index, so a second stage goes on counting where the first one stopped.

A lag of a lag is therefore one lag by the sum, as long as no offset is negative or
missing: such an offset leads nowhere, although a fraction above -1 truncates to 0
(`Expr.lagged`). A chain of searches, which counts all its offsets from the key it began
at, could as well begin anew at the key where its next search begins
(`Scan.chainedIndexOf_restart`).
-/

namespace Lookback

/-! ## Bars -/

theorem Bars.history_add (bar : Int) (a b : Nat) :
    (history bar a).bind (history · b) = history bar (a + b) := by
  ext earlier
  simp only [Option.bind_eq_some_iff, history_eq_some_iff]
  constructor
  · rintro ⟨middle, hmiddle, hearlier⟩
    omega
  · intro h
    exact ⟨bar - a, by omega, by omega⟩

/-- In words as well: where a first stage leads is a word again. -/
theorem Bars.wordHistory_add (bar : Int64) (a b : Nat) :
    (wordHistory bar a).bind (fun middle => wordHistory (.ofInt middle) b) =
      wordHistory bar (a + b) := by
  rw [wordHistory_eq, ← history_add]
  refine Option.bind_congr fun middle hmiddle => ?_
  have hword : (Int64.ofInt middle).toInt = middle := by
    have hmax : bar.toInt ≤ 9223372036854775807 := bar.toInt_le
    have hmin : -9223372036854775808 ≤ bar.toInt := bar.le_toInt
    have hrange := history_eq_some_iff.1 hmiddle
    exact Int64.toInt_ofInt_of_le (by omega) (by omega)
  rw [wordHistory_eq, hword]

/-! ## Calendars -/

theorem Calendar.history_add {c : Calendar} (hstrict : c.entries.toList.Pairwise (· < ·))
    (time : Timestamp) (a b : Nat) :
    (c.history time a).bind (c.history · b) = c.history time (a + b) := by
  by_cases ha : a = 0
  · subst ha
    rw [Nat.zero_add]
    rfl
  · have hcount : c.countBefore time ≤ c.entries.size := c.countBefore_le time
    by_cases hle : a ≤ c.countBefore time
    · have hlt : c.countBefore time - a < c.entries.size := by omega
      have hmiddle : c.history time a = some c.entries[c.countBefore time - a] := by
        simp only [history, if_neg ha, if_pos hle, Array.getElem?_eq_getElem hlt]
      rw [hmiddle, Option.bind_some]
      by_cases hb : b = 0
      · subst hb
        exact hmiddle.symm
      · -- As many entries lie before the one reached as its index says.
        simp only [history, if_neg hb, if_neg (show a + b ≠ 0 by omega),
          countBefore_entry hstrict hlt, Nat.sub_sub]
        exact if_congr (by omega) rfl rfl
    · simp only [history, if_neg ha, if_neg hle, if_neg (show a + b ≠ 0 by omega),
        if_neg (show ¬ a + b ≤ c.countBefore time by omega), Option.bind_none]

/-! ## Intervals -/

namespace Timestamp

theorem beforeNanos?_zero (t : Timestamp) : t.beforeNanos? (0 : Nat) = some t := by
  have hnano := t.nano_lt
  rw [beforeNanos?_eq_some_iff]
  omega

/-- Leap seconds included: what is left of one after a first shift is left to the second. -/
theorem beforeNanos?_add (t : Timestamp) (near far : Nat) :
    (t.beforeNanos? near).bind (fun middle => middle.beforeNanos? far) =
      t.beforeNanos? (near + far : Nat) := by
  ext earlier
  rw [Option.bind_eq_some_iff]
  constructor
  · rintro ⟨middle, hmiddle, hearlier⟩
    rw [beforeNanos?_eq_some_iff] at hmiddle hearlier ⊢
    omega
  · intro h
    obtain ⟨middle, hmiddle, -⟩ := exists_beforeNanos? (Nat.le_add_right near far) h
    refine ⟨middle, hmiddle, ?_⟩
    rw [beforeNanos?_eq_some_iff] at hmiddle h ⊢
    omega

/-- All of time is shorter than the longest span. -/
theorem le_maxNanos_of_beforeNanos? {t earlier : Timestamp} {nanos : Nat}
    (h : t.beforeNanos? nanos = some earlier) : nanos ≤ Interval.maxNanos := by
  have hfirst := earlier.first_le
  have hlast := t.le_last
  have hnano := t.nano_lt
  rw [beforeNanos?_eq_some_iff] at h
  rw [Interval.maxNanos]
  omega

end Timestamp

namespace Interval

/-- As long as a factor can express the offset, only the range of time ends a history. -/
theorem history_eq (s : Interval) (time : Timestamp) {offset : Nat} (h : offset ≤ maxSteps) :
    s.history time offset = time.beforeNanos? (s.nanos * offset : Nat) := by
  unfold history
  split
  · rename_i hzero
    rw [hzero, Nat.mul_zero, Timestamp.beforeNanos?_zero]
  · split
    · rfl
    · rename_i hlong
      rw [eq_comm, Option.eq_none_iff_forall_ne_some]
      intro earlier hearlier
      exact hlong ⟨h, Timestamp.le_maxNanos_of_beforeNanos? hearlier⟩

theorem history_add (s : Interval) (time : Timestamp) {a b : Nat} (h : a + b ≤ maxSteps) :
    (s.history time a).bind (s.history · b) = s.history time (a + b) := by
  have hsecond : (s.history · b) = fun middle => middle.beforeNanos? (s.nanos * b : Nat) :=
    funext fun middle => s.history_eq middle (by omega)
  rw [hsecond, s.history_eq time (by omega), s.history_eq time h, Nat.mul_add,
    Timestamp.beforeNanos?_add]

end Interval

/-! ## Contexts without repetition -/

namespace PreviousKeys

/-- Contexts in which every step leads to another key: bars, and calendars in which
    every time occurs once. -/
inductive Strict : PreviousKeys → Prop where
  | bars : Strict .bars
  | calendar {c : Calendar} : c.entries.toList.Pairwise (· < ·) → Strict (.calendar c)

theorem Strict.history_add {keys : PreviousKeys} (h : keys.Strict) {M : KeyModel}
    {histories : M.Key → History M.Key} (hM : keys.history? M = some histories) (key : M.Key)
    (a b : Nat) : (histories key a).bind (histories · b) = histories key (a + b) := by
  cases h with
  | bars =>
    cases M with
    | keyless | date => cases hM
    | bar =>
      cases hM
      exact Bars.history_add key a b
  | calendar hstrict =>
    cases M with
    | keyless | bar => cases hM
    | date =>
      cases hM
      exact Calendar.history_add hstrict key a b

end PreviousKeys

/-! ## Lags -/

namespace Expr

/-- The value of an expression some observations earlier. -/
def lag (keys : PreviousKeys) (value offset : Expr) : Expr :=
  .call (.historical (.window .previous) keys) [value, offset]

/-- The expression reads as the same number at every key. -/
def IsAlways (e : Expr) (M : KeyModel) (x : Float) : Prop :=
  ∀ key, e.evalDouble M key = .ok (pure x)

theorem IsAlways.exists_compile {e : Expr} {M : KeyModel} {x : Float} (h : e.IsAlways M x)
    (key : M.Key) : ∃ c, e.compile M = .ok c ∧ ∀ key, c.toDouble key = pure x := by
  obtain ⟨c, hc, -⟩ := Except.bind_eq_ok.1 (h key)
  refine ⟨c, hc, fun key => ?_⟩
  have hkey := h key
  rw [evalDouble, hc] at hkey
  exact Except.ok.inj hkey

/-- What a number of observations back leads to: an expression there, or NaN. -/
def readBack {K : Type} (histories : K → History K) (value : Evaluator K Float) (offset : Nat) :
    Evaluator K Float := fun key => (histories key offset).elim (pure Double.nan) value

/-- What a lag by a number leads to: nowhere unless the number is at least zero. -/
def lagged {K : Type} (histories : K → History K) (value : Evaluator K Float) (x : Float) :
    Evaluator K Float :=
  if 0 ≤ x then readBack histories value x.toUInt64.toNat else fun _ => pure Double.nan

section Lag

variable {keys : PreviousKeys} {M : KeyModel} {histories : M.Key → History M.Key}
  {value offset : Expr} {c : Compiled M.Key} {x : Float}

theorem exists_compile_lag (hM : keys.history? M = some histories)
    (hvalue : value.compile M = .ok c) (hoffset : offset.IsAlways M x) (key : M.Key) :
    ∃ d, (lag keys value offset).compile M = .ok d ∧
      d.toDouble = lagged histories c.toDouble x := by
  obtain ⟨e, he, hconstant⟩ := hoffset.exists_compile key
  have hgiven : [value, offset].mapM (compile M) = .ok [c, e] :=
    Except.mapM_eq_ok.2 (.cons hvalue (.cons he .nil))
  refine ⟨_, Function.compile_window_of_serves hM rfl hgiven, ?_⟩
  refine (Compiled.coerced_kind (.double _)).trans (funext fun key => ?_)
  show e.toDouble key >>= _ = _
  rw [hconstant key, pure_bind, lagged]
  split
  · rw [readBack]
    cases histories key x.toUInt64.toNat with
    | none => rfl
    | some earlier => rfl
  · rfl

/-- A lag of a lag by constant offsets. -/
theorem evalDouble_lag_lag (hM : keys.history? M = some histories)
    (hvalue : value.compile M = .ok c) {near far : Expr} {y : Float} (hnear : near.IsAlways M x)
    (hfar : far.IsAlways M y) (key : M.Key) :
    (lag keys (lag keys value near) far).evalDouble M key =
      .ok (lagged histories (lagged histories c.toDouble x) y key) := by
  obtain ⟨d, hd, hlag⟩ := exists_compile_lag hM hvalue hnear key
  obtain ⟨e, he, hlag'⟩ := exists_compile_lag hM hd hfar key
  rw [evalDouble, he]
  exact congrArg Except.ok (by rw [hlag', hlag])

theorem readBack_readBack (h : keys.Strict) (hM : keys.history? M = some histories)
    (value : Evaluator M.Key Float) (a b : Nat) :
    readBack histories (readBack histories value a) b = readBack histories value (a + b) := by
  funext key
  rw [readBack, readBack, Nat.add_comm, ← h.history_add hM]
  cases histories key b with
  | none => rfl
  | some earlier => rfl

/-- Two lags lead nowhere as soon as one of them does. -/
theorem lagged_lagged_eq_nan {K : Type} (histories : K → History K) (value : Evaluator K Float)
    {y : Float} (h : ¬ (0 ≤ x ∧ 0 ≤ y)) (key : K) :
    lagged histories (lagged histories value x) y key = pure Double.nan := by
  by_cases hy : 0 ≤ y
  · have hx : ¬ 0 ≤ x := fun hx => h ⟨hx, hy⟩
    rw [lagged, if_pos hy, lagged, if_neg hx, readBack]
    cases histories key y.toUInt64.toNat with
    | none => rfl
    | some earlier => rfl
  · rw [lagged, if_neg hy]

end Lag

end Expr

/-! ## Chains -/

/-- What is done next only matters for the value at hand. -/
theorem Traced.bind_congr_value {ω α β : Type} {x : Traced ω α} {f g : α → Traced ω β}
    (h : f x.value = g x.value) : x >>= f = x >>= g :=
  Traced.ext (by rw [value_bind, h, value_bind]) (by rw [visits_bind, h, visits_bind])

namespace Scan

variable {K ω : Type} {history later : History K} {condition : K → Traced ω Bool} {d n : Nat}

/-- Offsets counted from a key `d` observations back, as offsets from the key itself. -/
def shifted (d : Nat) (found : Option Nat) : Option Nat := found.map (d + ·)

theorem search_shift (hlater : ∀ o, later o = history (d + o)) (offsets : List Nat) :
    search history condition (offsets.map (d + ·)) =
      shifted d <$> search later condition offsets := by
  induction offsets with
  | nil => rfl
  | cons offset rest ih =>
    rw [List.map_cons, search, search, hlater offset]
    cases history (d + offset) with
    | none => exact ih
    | some key =>
      dsimp only
      rw [map_bind]
      refine bind_congr fun holds => ?_
      cases holds with
      | true => rfl
      | false => exact ih

theorem lt_of_findFrom (hn : history.EndsAt n) (hmax : n ≤ History.maxOffset + 1)
    {lookback base offset : Nat}
    (h : (findFrom history condition lookback base).value = some offset) : offset < n := by
  rw [findFrom_eq hn hmax, search_eq] at h
  obtain ⟨key, hkey, -⟩ := holdsAt_eq_true_iff.1 (List.find?_some h)
  exact hn.lt_of_eq_some hkey

section Shift

variable (hlater : ∀ o, later o = history (d + o)) (hn : history.EndsAt n)
include hlater hn

theorem endsAt_later : later.EndsAt (n - d) := by
  intro offset
  rw [hlater, hn]
  omega

theorem findFrom_shift (hmax : n ≤ History.maxOffset + 1) (lookback base : Nat) :
    findFrom history condition lookback (d + base) =
      shifted d <$> findFrom later condition lookback base := by
  rw [findFrom_eq hn hmax, findFrom_eq (endsAt_later hlater hn) (by omega), ← search_shift hlater,
    List.map_add_range', Nat.sub_sub]

/-- What is left of a chain is the same chain at the key where its next search begins,
    all offsets being larger by what lies in between. -/
theorem chainFrom_shift (hmax : n ≤ maxIndex + 1) (lookback : Nat) (mode : ChainMode)
    (steps base : Nat) (found : Option Nat) :
    chainFrom history lookback mode condition steps (d + base, shifted d found) =
      shifted d <$> chainFrom later lookback mode condition steps (base, found) := by
  have hwords : n ≤ History.maxOffset + 1 := Nat.le_trans hmax (by decide)
  induction steps generalizing base found with
  | zero => rfl
  | succ steps ih =>
    rw [chainFrom, chainFrom, findFrom_shift hlater hn hwords, bind_map_left, map_bind]
    apply Traced.bind_congr_value
    cases hnext : (findFrom later condition lookback base).value with
    | none => cases mode <;> rfl
    | some offset =>
      have hlt := lt_of_findFrom (endsAt_later hlater hn) (by omega) hnext
      have hlast : maxIndex + 1 ≤ History.maxOffset := by decide
      have hreported : reported (d + offset) = shifted d (reported offset) := by
        rw [reported, reported, if_pos (by omega), if_pos (by omega)]
        rfl
      have hbase : min (d + offset + 1) History.maxOffset =
          d + min (offset + 1) History.maxOffset := by omega
      simp only [shifted, Option.map_some] at hreported ⊢
      rw [hreported, hbase]
      exact ih _ _

end Shift

/-- What a strict chain has found is forgotten once it goes on. -/
theorem chainFrom_strict (history : History K) (lookback : Nat) (condition : K → Traced ω Bool)
    (steps base : Nat) (found found' : Option Nat) :
    chainFrom history lookback .strict condition (steps + 1) (base, found) =
      chainFrom history lookback .strict condition (steps + 1) (base, found') := by
  rw [chainFrom, chainFrom]
  rfl

/-- A strict chain of more than one step goes on after its first match as a chain of one
    step less, which begins anew at the key one back from the match. -/
theorem chainedIndexOf_restart {histories : K → History K} {key : K} {n : Nat}
    (hadd : ∀ key a b, (histories key a).bind (histories · b) = histories key (a + b))
    (hn : (histories key).EndsAt n) (hmax : n ≤ maxIndex + 1)
    (condition : K → Traced ω Bool) (lookback steps : Nat) :
    chainedIndexOf (histories key) lookback (steps + 2) .strict condition =
      lastIndexOf (histories key) lookback condition >>= fun first =>
        first.elim (pure none) fun o =>
          (histories key (o + 1)).elim (pure none) fun restart =>
            shifted (o + 1) <$>
              chainedIndexOf (histories restart) lookback (steps + 1) .strict condition := by
  have hwords : n ≤ History.maxOffset + 1 := Nat.le_trans hmax (by decide)
  rw [chainedIndexOf_eq, chainFrom, lastIndexOf, bind_map_left]
  apply Traced.bind_congr_value
  cases hfirst : (findFrom (histories key) condition lookback 0).value with
  | none => rfl
  | some o =>
    have hlt := lt_of_findFrom hn hwords hfirst
    have hlast : maxIndex + 1 ≤ History.maxOffset := by decide
    have hreported : reported o = some o := if_pos (by omega)
    simp only [Option.bind_some, hreported, Option.elim_some,
      show min (o + 1) History.maxOffset = o + 1 by omega]
    rw [chainFrom_strict _ _ _ _ _ _ none]
    cases hrestart : histories key (o + 1) with
    | none =>
      have hend : n ≤ o + 1 := hn.eq_none_iff.1 hrestart
      have hnone : findFrom (histories key) condition lookback (o + 1) = pure none := by
        rw [findFrom_eq hn hwords, Nat.sub_eq_zero_of_le hend, Nat.min_zero]
        rfl
      rw [chainFrom, hnone]
      rfl
    | some restart =>
      have hlater (i : Nat) : histories restart i = histories key (o + 1 + i) := by
        rw [← hadd, hrestart, Option.bind_some]
      rw [Option.elim_some, chainedIndexOf_eq]
      exact chainFrom_shift hlater hn hmax lookback .strict (steps + 1) 0 none

end Scan

/-! ## All together -/

/-- Stepping back in stages is stepping back at once: for bars, in words or not, for
    calendars in which every time occurs once, and for intervals as long as a factor
    expresses the sum. So under bars and such calendars two lags by constant offsets of at
    least zero are one; with an offset that is negative or missing they read NaN. And a
    strict chain is its first match followed by the rest of the chain, begun anew one key
    further back. -/
theorem PreviousKeys.history_in_stages :
    (∀ (bar : Int) (a b : Nat),
      (Bars.history bar a).bind (Bars.history · b) = Bars.history bar (a + b)) ∧
    (∀ (bar : Int64) (a b : Nat),
      (Bars.wordHistory bar a).bind (fun middle => Bars.wordHistory (.ofInt middle) b) =
        Bars.wordHistory bar (a + b)) ∧
    (∀ (c : Calendar) (time : Timestamp) (a b : Nat), c.entries.toList.Pairwise (· < ·) →
      (c.history time a).bind (c.history · b) = c.history time (a + b)) ∧
    (∀ (s : Interval) (time : Timestamp) (a b : Nat), a + b ≤ Interval.maxSteps →
      (s.history time a).bind (s.history · b) = s.history time (a + b)) ∧
    ∀ (keys : PreviousKeys) (M : KeyModel) (histories : M.Key → History M.Key) (key : M.Key),
      keys.Strict → keys.history? M = some histories →
      (∀ (value near far : Expr) (c : Compiled M.Key) (x y : Float),
        value.compile M = .ok c → near.IsAlways M x → far.IsAlways M y →
        (0 ≤ x → 0 ≤ y → (Expr.lag keys (.lag keys value near) far).evalDouble M key =
          .ok ((histories key (x.toUInt64.toNat + y.toUInt64.toNat)).elim
            (pure Double.nan) c.toDouble)) ∧
        (¬ (0 ≤ x ∧ 0 ≤ y) → (Expr.lag keys (.lag keys value near) far).evalDouble M key =
          .ok (pure Double.nan))) ∧
      ∀ (ω : Type) (condition : M.Key → Traced ω Bool) (lookback steps : Nat),
        (histories key).BuiltIn → 1 ≤ steps →
        Scan.chainedIndexOf (histories key) lookback (steps + 1) .strict condition =
          Scan.lastIndexOf (histories key) lookback condition >>= fun first =>
            first.elim (pure none) fun o =>
              (histories key (o + 1)).elim (pure none) fun restart =>
                (Option.map (o + 1 + ·)) <$>
                  Scan.chainedIndexOf (histories restart) lookback steps .strict condition := by
  refine ⟨Bars.history_add, Bars.wordHistory_add, ?_, ?_, ?_⟩
  · exact fun c time a b hstrict => Calendar.history_add hstrict time a b
  · exact fun s time a b h => s.history_add time h
  · intro keys M histories key h hM
    constructor
    · intro value near far c x y hvalue hnear hfar
      rw [Expr.evalDouble_lag_lag hM hvalue hnear hfar key]
      constructor
      · intro hx hy
        rw [Expr.lagged, if_pos hy, Expr.lagged, if_pos hx, Expr.readBack_readBack h hM]
        rfl
      · intro hnegative
        rw [Expr.lagged_lagged_eq_nan histories c.toDouble hnegative]
    · intro ω condition lookback steps hbuiltIn hsteps
      obtain ⟨n, hmax, hn⟩ := hbuiltIn.exists_endsAt
      obtain ⟨steps, rfl⟩ := Nat.exists_eq_add_of_le' hsteps
      exact Scan.chainedIndexOf_restart (h.history_add hM) hn hmax condition lookback steps

/-- One and one entry back on a calendar, two and three intervals back, lags of a lag by 2.5,
    and two steps of a chain, of which the second begins anew at bar 18. -/
theorem PreviousKeys.history_in_stages_twice :
    ∃ (c : Calendar) (s : Interval) (time : Timestamp) (close : Series),
      let condition (bar : Int) : Traced Int Bool := ⟨bar = 19 ∨ bar = 17, [bar]⟩
      c.entries[2]? = some time ∧ close.values = #[1.5, 2.5, 3.5, 4.5] ∧
      (c.history time 1).bind (c.history · 1) = c.history time 2 ∧
      (s.history time 2).bind (s.history · 3) = s.history time 5 ∧
      (Expr.lag .bars (.lag .bars (.series close) (.literal (.double 2.5)))
        (.literal (.double 1))).evalDouble .bar 3 = .ok (pure 1.5) ∧
      (Expr.lag .bars (.lag .bars (.series close) (.literal (.double 2.5)))
        (.literal (.double (-1)))).evalDouble .bar 3 = .ok (pure Double.nan) ∧
      (Scan.chainedIndexOf (Bars.history 20) 2 2 .strict condition).value = some 3 := by
  let start : Timestamp := ⟨0, 0, by decide, by decide, by decide⟩
  let next : Timestamp := ⟨60, 0, by decide, by decide, by decide⟩
  let time : Timestamp := ⟨180, 0, by decide, by decide, by decide⟩
  let c : Calendar := ⟨#[start, next, time], by decide⟩
  let s : Interval := ⟨1000000000, by decide⟩
  let close : Series := .undated "close" #[1.5, 2.5, 3.5, 4.5]
  obtain ⟨-, -, hcalendar, hinterval, hcontext⟩ := history_in_stages
  refine ⟨c, s, time, close, rfl, rfl, hcalendar c time 1 1 (by decide),
    hinterval s time 2 3 (by decide), ?_, ?_, ?_⟩
  · obtain ⟨hlags, -⟩ := hcontext .bars .bar Bars.history 3 .bars rfl
    obtain ⟨hsum, -⟩ := hlags (.series close) (.literal (.double 2.5)) (.literal (.double 1))
      _ 2.5 1 rfl (fun _ => rfl) (fun _ => rfl)
    exact hsum (by decide) (by decide)
  · obtain ⟨hlags, -⟩ := hcontext .bars .bar Bars.history 3 .bars rfl
    obtain ⟨-, hmissing⟩ := hlags (.series close) (.literal (.double 2.5))
      (.literal (.double (-1))) _ 2.5 (-1) rfl (fun _ => rfl) (fun _ => rfl)
    exact hmissing (by decide)
  · obtain ⟨-, hchain⟩ := hcontext .bars .bar Bars.history 20 .bars rfl
    exact congrArg Traced.value (hchain Int _ 2 1 (.bars (by decide)) (Nat.le_refl 1))

/-- An offset of -0.5 truncates to 0, yet a lag by 1 of a lag by -0.5 is missing at bar 3,
    where the bar that 0 and 1 together lead to has a value. -/
theorem PreviousKeys.history_in_stages_not :
    let close : Expr := .series (.undated "close" #[1, 2, 3, 4])
    let twice : Expr :=
      .lag .bars (.lag .bars close (.literal (.double (-0.5)))) (.literal (.double 1))
    Double.truncate (-0.5) = 0 ∧ (-0.5 : Float).toUInt64.toNat = 0 ∧
      (1 : Float).toUInt64.toNat = 1 ∧ Bars.history 3 (0 + 1) = some 2 ∧
      close.evalDouble .bar 2 = .ok (pure 3) ∧ twice.evalDouble .bar 3 = .ok (pure Double.nan) ∧
      twice.evalDouble .bar 3 ≠ close.evalDouble .bar 2 := by
  intro close twice
  have hM : PreviousKeys.bars.history? .bar = some Bars.history := rfl
  have hnear : (Expr.literal (.double (-0.5))).IsAlways .bar (-0.5) := fun _ => rfl
  have hfar : (Expr.literal (.double 1)).IsAlways .bar 1 := fun _ => rfl
  have hnegative : ¬ ((0 : Float) ≤ -0.5 ∧ (0 : Float) ≤ 1) := by decide
  obtain ⟨c, hc⟩ : ∃ c, close.compile .bar = .ok c := ⟨_, rfl⟩
  have hclose : close.evalDouble .bar 2 = .ok (pure 3) := rfl
  have htwice : twice.evalDouble .bar 3 = .ok (pure Double.nan) := by
    rw [Expr.evalDouble_lag_lag hM hc hnear hfar 3]
    exact congrArg Except.ok (Expr.lagged_lagged_eq_nan Bars.history c.toDouble hnegative 3)
  refine ⟨by decide, by decide, by decide, by decide, hclose, htwice, fun hsame => ?_⟩
  rw [htwice, hclose, Except.ok.injEq] at hsame
  have hnumber : Double.nan = 3 := congrArg Traced.value hsame
  exact absurd (congrArg Float.isNaN hnumber) (by decide)

end Lookback
