-- SUMMARY: Fixed intervals on a regular grid of times: where they step back like the calendar of the grid, and lags and statistics that are then the same.
import Lookback.Proofs.CalendarBars
import Lookback.Proofs.Causality
import Lookback.Proofs.Composition
import Lookback.Proofs.Folding
import Lookback.Proofs.Samples

/-!
# Regular grids

On a calendar whose entries lie one interval apart there are two ways to step back: by
the interval, and through the entries. Up to the first entry both lead to the same keys.
Past it the calendar has ended, while the interval goes on to times before all entries,
where no series on the calendar has a value yet. What counts for lags and statistics is
the value read at each offset of the lag or window (`WindowOp.Reads`), missing where there
is no key (`WindowOp.toDouble_eq_of_read`), and so they cannot tell the two apart.

Only a grid that begins in a leap second and then leaves it is different. Durations take
no notice of leap seconds gone by, so no interval leads back into one. Even then the two
differ only for windows that reach back so far.
-/

namespace Lookback

/-! ## Forward and back again -/

namespace Timestamp

/-- The instant `nanos` nanoseconds later, if it is in range: a negative shift back. -/
def afterNanos? (t : Timestamp) (nanos : Nat) : Option Timestamp :=
  t.beforeNanos? (-(nanos : Int))

theorem isLeap_iff {t : Timestamp} : t.isLeap = true ↔ 1000000000 ≤ t.nano := by
  rw [isLeap, decide_eq_true_iff]
  simp only [nanosPerSecond]
  omega

/-- Where a shift ahead ends: in the leap second it started in, or past it, with one second
    less to go, or at so many more nanoseconds where there is no leap second. -/
theorem afterNanos?_eq_some_iff {t y : Timestamp} {nanos : Nat} :
    t.afterNanos? nanos = some y ↔
      (1000000000 ≤ t.nano ∧ t.nano + nanos < 2000000000 ∧ y.second = t.second ∧
        y.nano = t.nano + nanos) ∨
      (1000000000 ≤ t.nano ∧ 2000000000 ≤ t.nano + nanos ∧ y.nano < 1000000000 ∧
        y.second * 1000000000 + y.nano + 1000000000 =
          t.second * 1000000000 + t.nano + nanos) ∨
      (t.nano < 1000000000 ∧ y.nano < 1000000000 ∧
        y.second * 1000000000 + y.nano = t.second * 1000000000 + t.nano + nanos) := by
  have hleap : (t.isLeap = true ∧ nanosPerSecond ≤ t.nano - (-(nanos : Int))) ↔
      1000000000 ≤ t.nano := by
    rw [isLeap_iff]
    simp only [nanosPerSecond]
    omega
  unfold afterNanos? beforeNanos?
  dsimp only
  by_cases h : 1000000000 ≤ t.nano
  · rw [if_pos (hleap.2 h)]
    split
    · rename_i hstays
      rw [ofParts?_eq_some_iff]
      simp only [nanosPerSecond] at hstays
      omega
    · rename_i hleaves
      rw [ofNanos?, ofParts?_eq_some_iff]
      simp only [nanosPerSecond] at hleaves ⊢
      omega
  · rw [if_neg (mt hleap.1 h), ofNanos?, ofParts?_eq_some_iff]
    simp only [nanosPerSecond]
    omega

section Shifts

variable {t x y : Timestamp} {near far back : Nat}

theorem eq_of_afterNanos?_zero (h : t.afterNanos? 0 = some x) : x = t := by
  have hnano := t.nano_lt
  rw [← place_inj]
  rw [afterNanos?_eq_some_iff] at h
  simp only [place]
  omega

theorem lt_of_afterNanos? (hx : t.afterNanos? near = some x) (hy : t.afterNanos? far = some y)
    (h : near < far) : x < y := by
  have hnano := x.nano_lt
  rw [afterNanos?_eq_some_iff] at hx hy
  simp only [lt_iff, place]
  omega

/-- No way ahead leads into a leap second. -/
theorem isLeap_of_afterNanos? (h : t.afterNanos? near = some x) (hx : x.isLeap = true) :
    t.isLeap = true := by
  rw [isLeap_iff] at hx ⊢
  rw [afterNanos?_eq_some_iff] at h
  omega

/-- What was gained by going further is lost by going back, unless a leap second has been
    left in the meantime. -/
theorem beforeNanos?_of_afterNanos? (hx : t.afterNanos? near = some x)
    (hy : t.afterNanos? (near + back) = some y) (hleap : x.isLeap = true → y.isLeap = true) :
    y.beforeNanos? back = some x := by
  rw [isLeap_iff, isLeap_iff] at hleap
  rw [afterNanos?_eq_some_iff] at hx hy
  rw [beforeNanos?_eq_some_iff]
  omega

/-- No way back leads into one either. -/
theorem isLeap_of_beforeNanos? (h : y.beforeNanos? back = some x) (hx : x.isLeap = true) :
    y.isLeap = true := by
  rw [isLeap_iff] at hx ⊢
  rw [beforeNanos?_eq_some_iff] at h
  omega

/-- Going back by more than one has come leads to before the start, leap seconds
    included. -/
theorem lt_of_beforeNanos? (hy : t.afterNanos? near = some y) (hx : y.beforeNanos? back = some x)
    (h : near < back) : x < t := by
  have hnano := t.nano_lt
  rw [afterNanos?_eq_some_iff] at hy
  rw [beforeNanos?_eq_some_iff] at hx
  simp only [lt_iff, place]
  omega

end Shifts

end Timestamp

/-! ## Grids -/

namespace Interval

/-- The times one interval apart from a start on, without leaving the range of time. -/
def IsGrid (s : Interval) (start : Timestamp) (entries : Array Timestamp) : Prop :=
  ∀ i, (hi : i < entries.size) → start.afterNanos? (s.nanos * i) = some entries[i]

instance (s : Interval) (start : Timestamp) (entries : Array Timestamp) :
    Decidable (s.IsGrid start entries) :=
  inferInstanceAs (Decidable (∀ i, (hi : i < entries.size) →
    start.afterNanos? (s.nanos * i) = some entries[i]))

theorem beforeNanos?_of_history {s : Interval} {time key : Timestamp} {offset : Nat}
    (h : s.history time offset = some key) :
    time.beforeNanos? (s.nanos * offset : Nat) = some key := by
  by_cases hsteps : offset ≤ maxSteps
  · rwa [s.history_eq time hsteps] at h
  · have hpos : offset ≠ 0 := by omega
    rw [history, if_neg hpos, if_neg (fun hspan => hsteps hspan.1)] at h
    cases h

namespace IsGrid

variable {s : Interval} {start : Timestamp} {entries : Array Timestamp}

theorem lt (h : s.IsGrid start entries) {i j : Nat} (hij : i < j) (hj : j < entries.size) :
    entries[i] < entries[j] :=
  Timestamp.lt_of_afterNanos? (h i (by omega)) (h j hj)
    (Nat.mul_lt_mul_of_pos_left hij s.pos)

theorem getElem_zero (h : s.IsGrid start entries) (hpos : 0 < entries.size) :
    entries[0] = start :=
  Timestamp.eq_of_afterNanos?_zero (h 0 hpos)

theorem exists_calendar (h : s.IsGrid start entries) :
    ∃ c, Calendar.ofArray? entries = some c ∧ c.entries = entries := by
  have hascending : ∀ i, (hi : i < entries.size - 1) → entries[i] ≤ entries[i + 1] :=
    fun i hi => Int.le_of_lt (h.lt (Nat.lt_succ_self i) (by omega))
  exact ⟨⟨entries, hascending⟩, dif_pos hascending, rfl⟩

theorem pairwise_lt (h : s.IsGrid start entries) : entries.toList.Pairwise (· < ·) := by
  rw [List.pairwise_iff_getElem]
  intro i j hi hj hij
  simpa using h.lt hij (by simpa using hj)

section Entry

variable {c : Calendar} {i offset : Nat} (h : s.IsGrid start c.entries) (hi : i < c.entries.size)
include h hi

/-- The interval goes back entry by entry as the calendar does (`Calendar.history_entry`),
    unless the grid has left a leap second in between. -/
theorem interval_history (hoffset : offset ≤ i) (hsteps : i ≤ maxSteps)
    (hleap : c.entries[i - offset].isLeap = true → c.entries[i].isLeap = true) :
    s.history c.entries[i] offset = c.entries[i - offset]? := by
  have hsplit : s.nanos * (i - offset) + s.nanos * offset = s.nanos * i := by
    rw [← Nat.mul_add, Nat.sub_add_cancel hoffset]
  rw [s.history_eq _ (by omega), Array.getElem?_eq_getElem (by omega)]
  exact Timestamp.beforeNanos?_of_afterNanos? (h _ (by omega)) (hsplit ▸ h i hi) hleap

/-- Where the interval leads past the first entry, no entry has been passed yet. -/
theorem lt_of_interval_history (hoffset : i < offset) {key : Timestamp}
    (hkey : s.history c.entries[i] offset = some key) {j : Nat} (hj : j < c.entries.size) :
    key < c.entries[j] := by
  have hstart : key < start := Timestamp.lt_of_beforeNanos? (h i hi)
    (beforeNanos?_of_history hkey) (Nat.mul_lt_mul_of_pos_left hoffset s.pos)
  have hfirst : start ≤ c.entries[j] := by
    rw [← h.getElem_zero (Nat.zero_lt_of_lt hj)]
    exact c.entries_le (Nat.zero_le j) hj
  exact Int.lt_of_lt_of_le hstart hfirst

end Entry

end IsGrid

end Interval

/-! ## Before all observations -/

theorem Calendar.countUpTo_of_lt {c : Calendar} {time : Timestamp}
    (h : ∀ j, (hj : j < c.entries.size) → time < c.entries[j]) :
    Series.countUpTo c.entries time = 0 := by
  refine c.countUpTo_eq_zero_iff.2 fun entry hentry => ?_
  obtain ⟨j, hj, rfl⟩ := Array.mem_iff_getElem.1 hentry
  exact h j hj

theorem Series.valueAsOf_of_lt {x : Series} {c : Calendar} (hx : x.calendar = some c.entries)
    {time : Timestamp} (h : ∀ j, (hj : j < c.entries.size) → time < c.entries[j]) :
    x.valueAsOf time = Double.nan := by
  simp only [valueAsOf, hx, readAsOf, Calendar.countUpTo_of_lt h]

/-! ## What is read -/

/-- The value at an offset, missing where the history has ended. -/
def History.read {K : Type} (history : History K) (value : K → Float) (offset : Nat) : Float :=
  (history offset).elim Double.nan value

namespace Scan

variable {K : Type} {history history' : History K}

theorem numberAt_eq_read {ω : Type} (history : History K) (value : K → Float) (offset : Nat) :
    numberAt history (fun key => (pure (value key) : Traced ω Float)) offset =
      (some (history.read value offset)).filter fun x => !x.isNaN := by
  cases hkey : history offset with
  | none =>
    have hnan : Double.nan.isNaN = true := by decide
    rw [numberAt_eq_none hkey, History.read, hkey, Option.elim_none, Option.filter_some, hnan]
    rfl
  | some key =>
    rw [numberAt, History.read, hkey]
    rfl

/-- Values that make no visits leave none when they are sampled. -/
theorem visits_samples (history : History K) (value : K → Float) (length : Nat) :
    (samples history (fun key => (pure (value key) : Traced (Visit K) Float)) length).visits =
      [] := by
  have hself : History.Agree (.along fun k k' => k = k' ∧ True) history history :=
    History.agree_self fun _ _ _ => trivial
  let sampled : Evaluator K Float := fun key => pure (value key)
  have hsampled : Evaluator.Agree (.along fun k k' => k = k' ∧ True) sampled sampled := by
    rintro k _ ⟨rfl, -⟩
    exact .pure _
  exact (samples_agree hself hsampled length).visits_eq_nil.1

/-- Samples depend on what is read at each offset of the window. -/
theorem samples_eq_of_read (h : history.BuiltIn) (h' : history'.BuiltIn) {value : K → Float}
    {length : Nat}
    (hread : ∀ offset < length, history.read value offset = history'.read value offset) :
    samples history (fun key => (pure (value key) : Traced (Visit K) Float)) length =
      samples history' (fun key => pure (value key)) length := by
  obtain ⟨n, -, hn⟩ := h.exists_endsAt
  obtain ⟨n', -, hn'⟩ := h'.exists_endsAt
  refine Traced.ext ?_ ?_
  · rw [samples_eq hn, samples_eq hn', numbers, numbers]
    refine List.filterMap_congr fun offset hoffset => ?_
    rw [numberAt_eq_read, numberAt_eq_read, hread offset (List.mem_range.1 hoffset)]
  · rw [visits_samples, visits_samples]

end Scan

namespace WindowOp

/-- The position of the operand that is read through the window, for the operations that
    use nothing of the window but the numbers read: lags, statistics and quantiles. -/
def sampled? : WindowOp → Option Nat
  | .previous => some 0
  | .statistic _ => some 1
  | .percentile => some 1
  | _ => none

/-- The position of the operand that says how far back they read. -/
def sizedBy : WindowOp → Nat
  | .previous => 1
  | _ => 0

/-- The offsets they read when that operand is a number: one for a lag, unless it leads
    nowhere, and otherwise those of a window. -/
def Reads (op : WindowOp) (size : Float) (offset : Nat) : Prop :=
  match op with
  | .previous => 0 ≤ size ∧ offset = size.toUInt64.toNat
  | _ => offset < Scan.windowLength size

instance (op : WindowOp) (size : Float) (offset : Nat) : Decidable (op.Reads size offset) :=
  match op with
  | .previous => inferInstanceAs (Decidable (0 ≤ size ∧ offset = size.toUInt64.toNat))
  | .once | .quantified _ | .indexOf _ | .chained _ | .statistic _ | .percentile =>
    inferInstanceAs (Decidable (offset < Scan.windowLength size))

variable {K : Type} {histories histories' : K → History K} {key : K}

/-- Such operations tell two histories apart only by what they read at these offsets. -/
theorem toDouble_eq_of_read {op : WindowOp} {index : Nat} (hop : op.sampled? = some index)
    {o : Operands K} {value : K → Float} (hvalue : o.double index = fun key => pure (value key))
    (h : (histories key).BuiltIn) (h' : (histories' key).BuiltIn)
    (hread : ∀ offset, op.Reads (o.double op.sizedBy key).value offset →
      (histories key).read value offset = (histories' key).read value offset) :
    (op.evaluator histories o).toDouble key = (op.evaluator histories' o).toDouble key := by
  cases op with
  | previous =>
    cases hop
    refine congrArg (Kind.convert .double .double <$> ·) (Traced.bind_congr_value ?_)
    dsimp only [sizedBy, Reads] at hread
    generalize (o.double 1 key).value = back at hread ⊢
    simp only [hvalue]
    split
    · rename_i hpos
      -- Whether each history has a key here or not, it reads as the value looked up.
      have hback := hread back.toUInt64.toNat ⟨hpos, rfl⟩
      rw [History.read, History.read] at hback
      generalize histories key back.toUInt64.toNat = found at hback ⊢
      generalize histories' key back.toUInt64.toNat = found' at hback ⊢
      cases found <;> cases found' <;> exact congrArg pure hback
    · rfl
  | statistic | percentile =>
    cases hop
    refine congrArg (Kind.convert .double .double <$> ·) (Traced.bind_congr_value ?_)
    dsimp only [sizedBy, Reads] at hread
    simp only [hvalue, Scan.samples_eq_of_read h h' hread]
  | once | quantified | indexOf | chained => cases hop

end WindowOp

/-! ## Arguments -/

/-- The number that an argument reads as at a key: the default of its parameter where it
    is omitted. -/
def Function.argumentAt (f : Function) (args : List Expr) (M : KeyModel) (key : M.Key)
    (index : Nat) : Except EvalError Float :=
  match args[index]? with
  | some a => Traced.value <$> a.evalDouble M key
  | none => .ok (f.defaultArgument index)

namespace Operands

variable {M : KeyModel} {args : List Expr} {given : List (Compiled M.Key)}
  (hgiven : args.mapM (Expr.compile M) = .ok given)
include hgiven

theorem exists_given {index : Nat} {a : Expr} (ha : args[index]? = some a) :
    ∃ c, a.compile M = .ok c ∧ given[index]? = some c := by
  have hrel := Except.mapM_eq_ok.1 hgiven
  obtain ⟨hindex, rfl⟩ := List.getElem?_eq_some_iff.1 ha
  have hindex' : index < given.length := hrel.length_eq ▸ hindex
  exact ⟨_, hrel.get hindex hindex', List.getElem?_eq_getElem hindex'⟩

theorem argumentAt_eq (f : Function) (key : M.Key) (index : Nat) :
    f.argumentAt args M key index =
      .ok ((Operands.mk given f.defaultArgument).double index key).value := by
  rw [Function.argumentAt, double, compiled]
  cases ha : args[index]? with
  | some a =>
    obtain ⟨c, hc, hindex⟩ := exists_given hgiven ha
    dsimp only
    rw [hindex, Expr.evalDouble, hc]
    rfl
  | none =>
    have hlength : given.length ≤ index := by
      rw [← (Except.mapM_eq_ok.1 hgiven).length_eq]
      exact List.getElem?_eq_none_iff.1 ha
    rw [List.getElem?_eq_none hlength]
    rfl

end Operands

theorem Operands.double_series {args : List Expr} {given : List (Compiled KeyModel.date.Key)}
    (hgiven : args.mapM (Expr.compile .date) = .ok given) {index : Nat} {x : Series}
    (hx : args[index]? = some (.series x)) (hdated : x.calendar.isSome = true)
    (omitted : Nat → Float) :
    (Operands.mk given omitted).double index = fun time => pure (x.valueAsOf time) := by
  obtain ⟨c, hc, hindex⟩ := exists_given hgiven hx
  rw [Expr.compile_series, Series.compile_date hdated, Except.ok.injEq] at hc
  rw [double, compiled, hindex, Option.getD_some, ← hc]
  exact Compiled.coerced_kind (.double _)

namespace Expr

variable {keys keys' : PreviousKeys} {histories histories' : Timestamp → History Timestamp}
  {op : WindowOp} {args : List Expr} {e e' : Expr} {x : Series}

/-- Calls that read a dated series through contexts in which it reads the same. -/
theorem evalDouble_eq_of_read (hkeys : keys.history? .date = some histories)
    (hkeys' : keys'.history? .date = some histories')
    (he : (Function.historical (.window op) keys).call args = .ok e)
    (he' : (Function.historical (.window op) keys').call args = .ok e') {index : Nat}
    (hop : op.sampled? = some index) (hx : args[index]? = some (.series x))
    (hdated : x.calendar.isSome = true) {time : Timestamp} (h : (histories time).BuiltIn)
    (h' : (histories' time).BuiltIn)
    (hread : ∀ size,
      (Function.historical (.window op) keys).argumentAt args .date time op.sizedBy = .ok size →
      ∀ offset, op.Reads size offset → (histories time).read x.valueAsOf offset =
        (histories' time).read x.valueAsOf offset) :
    e.evalDouble .date time = e'.evalDouble .date time := by
  obtain ⟨hv, rfl⟩ := Function.call_eq_ok.1 he
  obtain ⟨hv', rfl⟩ := Function.call_eq_ok.1 he'
  have hkeyed : KeyModel.date ≠ .keyless := by decide
  rw [evalDouble, evalDouble, compile_call, compile_call, Function.compile_window _ hv,
    Function.compile_window _ hv', if_neg hkeyed, if_neg hkeyed]
  cases hgiven : args.mapM (compile .date) with
  | error error => rfl
  | ok given =>
    have hvalue := Operands.double_series hgiven hx hdated
      (Function.historical (.window op) keys).defaultArgument
    have hsize := Operands.argumentAt_eq hgiven (.historical (.window op) keys) time op.sizedBy
    simp only [Function.history, hkeys, hkeys']
    exact congrArg Except.ok (WindowOp.toDouble_eq_of_read hop hvalue h h' (hread _ hsize))

/-- Over a dated series and constants there is a value, and no visit. -/
theorem exists_evalDouble {c : Calendar}
    (he : (Function.historical (.window op) (.calendar c)).call args = .ok e)
    (hdated : x.calendar.isSome = true)
    (hargs : ∀ a ∈ args, a = .series x ∨ a.Built ∧ a.isConstant = true) (time : Timestamp) :
    ∃ v, e.evalDouble .date time = .ok (pure v) := by
  obtain ⟨hv, rfl⟩ := Function.call_eq_ok.1 he
  have hbuilt : Built (.call (.historical (.window op) (.calendar c)) args) := by
    refine builtOver_call.2 ⟨fun a ha => ?_, hv⟩
    rcases hargs a ha with rfl | ⟨hbuilt, -⟩
    · exact .series x
    · exact hbuilt
  have hself : List.Forall₂ (SameShape (Series.SameUpTo time) (PreviousKeys.SameBefore time))
      args args := by
    refine List.forall₂_same.2 fun a ha => ?_
    rcases hargs a ha with rfl | ⟨hbuilt, hconstant⟩
    · exact .series ⟨hdated, hdated, fun _ _ => rfl⟩
    · have hfree := hbuilt.isConstant_iff_keyFree.1 hconstant
      exact .self hbuilt (fun s hs => (hfree.series s hs).elim)
        fun op keys args' h => (hfree.historical op keys args' h).elim
  have hshape : SameShape (Series.SameUpTo time) (PreviousKeys.SameBefore time)
      (.call (.historical (.window op) (.calendar c)) args)
      (.call (.historical (.window op) (.calendar c)) args) :=
    .call_of_forall₂ (.historical _ (.calendar rfl)) hself
  obtain ⟨d, -, hd, -, v, hvalue, -⟩ := hshape.sameValueAt_date hbuilt
  rw [evalDouble, hd]
  exact ⟨_, congrArg Except.ok (Compiled.coerced_eq_pure hvalue .double)⟩

end Expr

/-! ## Intervals against calendars -/

namespace Interval.IsGrid

variable {s : Interval} {start : Timestamp} {entries : Array Timestamp}

/-- A series on the grid reads the same by the interval as by the calendar, unless the
    calendar leads into a leap second that is over. -/
theorem read_eq {c : Calendar} {i offset : Nat} (h : s.IsGrid start c.entries)
    (hi : i < c.entries.size) (hsteps : i ≤ maxSteps)
    (hleap : offset ≤ i → c.entries[i - offset].isLeap = true → c.entries[i].isLeap = true)
    {x : Series} (hx : x.calendar = some c.entries) :
    (s.history c.entries[i]).read x.valueAsOf offset =
      (c.history c.entries[i]).read x.valueAsOf offset := by
  rw [History.read, History.read]
  by_cases hoffset : offset ≤ i
  · rw [h.interval_history hi hoffset hsteps (hleap hoffset),
      Calendar.history_entry h.pairwise_lt hi hoffset]
  · have hpast : i < offset := Nat.lt_of_not_le hoffset
    rw [Calendar.history_entry_eq_none h.pairwise_lt hi hpast]
    cases hkey : s.history c.entries[i] offset with
    | none => rfl
    | some key =>
      exact x.valueAsOf_of_lt hx fun _ hj => h.lt_of_interval_history hi hpast hkey hj

/-- Every grid is a calendar. From an entry on the interval and the calendar lead to the same
    keys, up to the first entry, except where the calendar leads into a leap second that the
    entry does not lie in. Past the first entry the calendar has ended, and the interval
    leads to times at which no series on the grid has a value. So lags and statistics of a
    series on the grid are the same, whatever their other operands, unless they read at an
    offset where the calendar leads into a leap second that the entry does not lie in. There
    is no such offset unless the grid began in a leap second. Over constants they are plain
    numbers. -/
theorem history_refines (h : s.IsGrid start entries) (hsize : entries.size ≤ 2147483648) :
    ∃ c, Calendar.ofArray? entries = some c ∧ ∀ i, (hi : i < entries.size) →
      (∀ offset ≤ i, (∃ key, s.history entries[i] offset = some key ∧
          c.history entries[i] offset = some key) ↔
        (entries[i - offset].isLeap = true → entries[i].isLeap = true)) ∧
      (∀ offset, i < offset → c.history entries[i] offset = none ∧
        ∀ key, s.history entries[i] offset = some key →
          ∀ x : Series, x.calendar = some entries → x.valueAsOf key = Double.nan) ∧
      (∀ offset ≤ i, entries[i - offset].isLeap = true → start.isLeap = true) ∧
      ∀ (op : WindowOp) (index : Nat) (args : List Expr) (x : Series) (e e' : Expr),
        op.sampled? = some index → args[index]? = some (.series x) →
        x.calendar = some entries →
        (Function.historical (.window op) (.interval s)).call args = .ok e →
        (Function.historical (.window op) (.calendar c)).call args = .ok e' →
        ((∀ size, (Function.historical (.window op) (.interval s)).argumentAt args .date entries[i]
            op.sizedBy = .ok size → ∀ offset ≤ i, op.Reads size offset →
              entries[i - offset].isLeap = true → entries[i].isLeap = true) →
          e.evalDouble .date entries[i] = e'.evalDouble .date entries[i]) ∧
        ((∀ a ∈ args, a = .series x ∨ a.Built ∧ a.isConstant = true) →
          ∃ v, e'.evalDouble .date entries[i] = .ok (pure v)) := by
  obtain ⟨c, hc, rfl⟩ := h.exists_calendar
  refine ⟨c, hc, fun i hi => ?_⟩
  have hsteps : i ≤ maxSteps := by
    rw [maxSteps]
    omega
  refine ⟨fun offset hoffset => ⟨?_, fun hleap => ?_⟩,
    fun offset hoffset => ⟨?_, fun key hkey x hx => ?_⟩,
    fun offset hoffset => Timestamp.isLeap_of_afterNanos? (h _ (by omega)),
    fun op index args x e e' hop hindex hx he he' => ⟨fun hleap => ?_, fun hargs => ?_⟩⟩
  · rintro ⟨key, hinterval, hcalendar⟩
    rw [Calendar.history_entry h.pairwise_lt hi hoffset, Array.getElem?_eq_getElem (by omega),
      Option.some.injEq] at hcalendar
    subst hcalendar
    exact Timestamp.isLeap_of_beforeNanos? (beforeNanos?_of_history hinterval)
  · have hkey : c.entries[i - offset]? = some c.entries[i - offset] :=
      Array.getElem?_eq_getElem (by omega)
    exact ⟨_, (h.interval_history hi hoffset hsteps hleap).trans hkey,
      (Calendar.history_entry h.pairwise_lt hi hoffset).trans hkey⟩
  · exact Calendar.history_entry_eq_none h.pairwise_lt hi hoffset
  · exact x.valueAsOf_of_lt hx fun _ hj => h.lt_of_interval_history hi hoffset hkey hj
  · have hwords : c.size ≤ Scan.maxIndex := Nat.le_trans hsize (by decide)
    refine Expr.evalDouble_eq_of_read rfl rfl he he' hop hindex (by rw [hx]; rfl)
      (.interval s _) (.calendar _ hwords) fun size hn offset hreads => ?_
    exact h.read_eq hi hsteps (fun hoffset => hleap size hn offset hoffset hreads) hx
  · exact Expr.exists_evalDouble he' (by rw [hx]; rfl) hargs _

/-- Averages of two on a grid that has left its leap second two entries ago, and of more
    than there are by the calendar. -/
theorem history_refines_seconds :
    ∃ (s : Interval) (start time : Timestamp) (entries : Array Timestamp) (c : Calendar)
      (close : Series),
      let average (keys : PreviousKeys) (count : Float) : Expr :=
        .call (.historical (.window (.statistic .average)) keys)
          [.literal (.double count), .series close]
      s.IsGrid start entries ∧ start.isLeap = true ∧ entries.size = 3 ∧ entries[2]? = some time ∧
        close.values = #[1.5, 2.5, 4.5] ∧ close.calendar = some entries ∧
        Calendar.ofArray? entries = some c ∧
        (∃ key, s.history time 1 = some key ∧ c.history time 1 = some key) ∧
        (¬ ∃ key, s.history time 2 = some key ∧ c.history time 2 = some key) ∧
        c.history time 3 = none ∧
        (∃ v, (average (.interval s) 2).evalDouble .date time = .ok (pure v) ∧
          (average (.calendar c) 2).evalDouble .date time = .ok (pure v)) ∧
        ∃ v, (average (.calendar c) 50).evalDouble .date time = .ok (pure v) := by
  let start : Timestamp := ⟨59, 1500000000, by decide, by decide, by decide⟩
  let next : Timestamp := ⟨60, 500000000, by decide, by decide, by decide⟩
  let time : Timestamp := ⟨61, 500000000, by decide, by decide, by decide⟩
  let entries : Array Timestamp := #[start, next, time]
  let s : Interval := ⟨1000000000, by decide⟩
  let close : Series := ⟨"close", #[1.5, 2.5, 4.5], some entries, by simp [entries]⟩
  have hgrid : s.IsGrid start entries := by decide
  obtain ⟨c, hc, hentry⟩ := hgrid.history_refines (by decide)
  obtain ⟨hkeys, hpast, -, hvalues⟩ := hentry 2 (by decide)
  have haverage (count : Float) := hvalues (.statistic .average) 1
    [.literal (.double count), .series close] close _ _ rfl rfl rfl rfl rfl
  have hconstant (count : Float) :
      ∀ a ∈ [Expr.literal (.double count), .series close],
        a = .series close ∨ a.Built ∧ a.isConstant = true := by
    simp [Expr.BuiltOver.literal, Expr.isConstant, Expr.isKeyDependent]
  -- Windows of two do not reach back to the start.
  have hshort : ∀ offset ≤ 2, (WindowOp.statistic .average).Reads 2 offset →
      ∀ hi : 2 - offset < entries.size, entries[2 - offset].isLeap = true →
        time.isLeap = true := by decide +kernel
  obtain ⟨hsame, hvalue⟩ := haverage 2
  obtain ⟨v, hv⟩ := hvalue (hconstant 2)
  have hread := hsame fun size hsize => by
    obtain rfl : (2 : Float) = size := Except.ok.inj hsize
    exact fun offset hoffset hreads => hshort offset hoffset hreads _
  refine ⟨s, start, time, entries, c, close, hgrid, rfl, rfl, rfl, rfl, rfl, hc,
    (hkeys 1 (by decide)).2 (by decide), mt (hkeys 2 (by decide)).1 (by decide),
    (hpast 3 (by decide)).1, ⟨v, hread.trans hv, hv⟩, ?_⟩
  exact (haverage 50).2 (hconstant 50)

/-- A grid that leaves the leap second it began in: by the interval there is no way back. -/
theorem history_refines_leap :
    let start : Timestamp := ⟨59, 1500000000, by decide, by decide, by decide⟩
    let time : Timestamp := ⟨60, 500000000, by decide, by decide, by decide⟩
    let c : Calendar := ⟨#[start, time], by decide⟩
    let s : Interval := ⟨1000000000, by decide⟩
    Interval.ofMillis? 1000 = some s ∧ s.IsGrid start c.entries ∧
      Calendar.ofArray? c.entries = some c ∧ c.entries[1]? = some time ∧
      c.history time 1 = some start ∧
      s.history time 1 = some ⟨59, 500000000, by decide, by decide, by decide⟩ := by
  intro start time c s
  have hgrid : s.IsGrid start c.entries := by decide
  have hback : c.history time 1 = some start :=
    Calendar.history_entry hgrid.pairwise_lt (show 1 < c.entries.size by decide) (Nat.le_refl 1)
  exact ⟨rfl, hgrid, dif_pos c.ascending, rfl, hback, by decide⟩

end Interval.IsGrid

end Lookback
