-- SUMMARY: Key sources: the keys they count, the keys they have, and the walk that evaluates at each of them once.
import Lookback.Proofs.Observations
import Mathlib.Data.Int.Range

/-!
# Keys of a source

A source counts its keys and looks them up by index, and the two are computed apart. A walk
goes by the count and passes over an index without a key. So it misses nothing when the
keys are found at the counted indices (`KeySource.Supplies`), and the source has no further
ones when no other index has a key (`KeySource.Enumerates`).

Lists and series enumerate their keys. A range of bars works in 64-bit words: its length is
clamped and the sum of start and index is checked. Both are exact as long as the length of
the range is a word. A longer range counts as many keys as a word can say, and is walked no
further.
-/

namespace Lookback

namespace KeySource

variable {ω K α : Type} {source : KeySource K} {keys : List K}

/-- The source counts these keys and has each of them at its index. -/
structure Supplies (source : KeySource K) (keys : List K) : Prop where
  count_eq : source.count = keys.length
  keyAt_eq : ∀ index, index < source.count → source.keyAt index = keys[index]?

/-- The source supplies these keys, and has none but those it counts. -/
structure Enumerates (source : KeySource K) (keys : List K) : Prop extends
    Supplies source keys where
  isSome_iff : ∀ index, (source.keyAt index).isSome = true ↔ index < source.count

theorem Supplies.provided_eq (h : source.Supplies keys) : source.provided = keys := by
  calc source.provided
      = (List.range source.count).filterMap (keys[·]?) :=
        List.filterMap_congr fun index hindex => h.keyAt_eq index (List.mem_range.1 hindex)
    _ = (ofList keys).provided := by rw [h.count_eq, provided, ofList]
    _ = keys := provided_ofList keys

theorem Supplies.walk_eq (h : source.Supplies keys) (evaluate : K → Traced ω α) :
    source.walk evaluate = keys.mapM evaluate := by
  rw [KeySource.walk_eq, h.provided_eq]

/-- Looking up in a list of as many keys as are counted. -/
theorem enumerates_of_getElem? (hcount : source.count = keys.length)
    (hkeyAt : ∀ index, source.keyAt index = keys[index]?) : source.Enumerates keys where
  count_eq := hcount
  keyAt_eq index _ := hkeyAt index
  isSome_iff index := by simp [hkeyAt, hcount]

theorem enumerates_ofList (keys : List K) : (ofList keys).Enumerates keys :=
  enumerates_of_getElem? rfl fun _ => rfl

end KeySource

namespace Series

theorem enumerates_bars (s : Series) :
    s.bars.Enumerates ((List.range s.size).map Int.ofNat) := by
  refine KeySource.enumerates_of_getElem? (by simp [bars]) fun index => ?_
  simp only [bars]
  split <;> simp [*]

theorem enumerates_dates (s : Series) :
    s.dates.Enumerates (s.calendar.elim [] Array.toList) := by
  refine KeySource.enumerates_of_getElem? ?_ fun index => ?_
  · cases hdated : s.calendar <;> simp [dates, hdated]
  · cases hdated : s.calendar <;> simp [dates, hdated]

end Series

/-! ## Ranges of bars -/

namespace BarRange

variable (r : BarRange)

/-- The bars from `start` up to, not including, `stop`. -/
def toList : List Int := Int.range r.start.toInt r.stop.toInt

theorem length_toList : r.toList.length = (r.stop.toInt - r.start.toInt).toNat := by
  rw [toList, Int.range, List.length_map, List.length_range]

theorem pairwise_toList : r.toList.Pairwise (· < ·) := by
  rw [toList, Int.range, List.pairwise_map]
  exact List.pairwise_lt_range.imp fun hlt => by omega

theorem getElem?_toList (index : Nat) :
    r.toList[index]? =
      if r.start.toInt + index < r.stop.toInt then some (r.start.toInt + index) else none := by
  rw [toList, Int.range, List.getElem?_map]
  split
  · rw [List.getElem?_range (by omega), Option.map_some]
  · rw [List.getElem?_eq_none (by rw [List.length_range]; omega), Option.map_none]

theorem supplies : r.keys.Supplies (r.toList.take limit) where
  count_eq := by
    rw [List.length_take, length_toList, Nat.min_comm]
    rfl
  keyAt_eq index hindex := by
    have hcount : index < min (r.stop.toInt - r.start.toInt).toNat limit := hindex
    rw [List.getElem?_take_of_lt (by omega), getElem?_toList]
    simp only [keys, barAt]
    rw [if_pos ⟨by omega, by omega⟩, if_pos (by omega)]

/-- The bars that a walk over the range comes to. -/
theorem mem_provided (bar : Int) : bar ∈ r.keys.provided ↔
    r.start.toInt ≤ bar ∧ bar < r.stop.toInt ∧ bar < r.start.toInt + limit := by
  rw [r.supplies.provided_eq, List.mem_take_iff_getElem]
  simp only [length_toList]
  constructor
  · rintro ⟨index, hindex, hbar⟩
    have hget := getElem?_toList r index
    rw [List.getElem?_eq_getElem (by rw [length_toList]; omega), hbar, if_pos (by omega)] at hget
    have heq : bar = r.start.toInt + index := Option.some.inj hget
    omega
  · rintro ⟨hstart, hstop, hbound⟩
    refine ⟨(bar - r.start.toInt).toNat, by omega, ?_⟩
    have hget := getElem?_toList r (bar - r.start.toInt).toNat
    rw [List.getElem?_eq_getElem (by rw [length_toList]; omega), if_pos (by omega)] at hget
    rw [Option.some.inj hget]
    omega

/-- A range whose length is a word has all its bars, and no bar at a later index. -/
theorem enumerates (h : r.stop.toInt - r.start.toInt ≤ limit) : r.keys.Enumerates r.toList := by
  refine KeySource.enumerates_of_getElem? ?_ fun index => ?_
  · rw [length_toList]
    exact Nat.min_eq_left (by omega)
  · rw [getElem?_toList]
    simp only [keys, barAt]
    split
    · rw [if_pos (by omega)]
    · rw [if_neg (by omega)]

/-! ### Words -/

/-- The length of the range in 64-bit words: the difference of its bounds, clamped. -/
def wordLength : Int64 :=
  if Int64.maxValue.toInt < r.stop.toInt - r.start.toInt then Int64.maxValue
  else if r.stop.toInt - r.start.toInt < Int64.minValue.toInt then Int64.minValue
  else r.stop - r.start

/-- The bar at an index in 64-bit words: the index is turned into a bar, and the sum must not
    overflow. -/
def wordAt (index : Nat) : Option Int64 :=
  if index ≤ limit ∧ r.start.toInt + index ≤ Int64.maxValue.toInt then
    let bar := r.start + Int64.ofNat index
    if bar < r.stop then some bar else none
  else
    none

/-- A negative length counts nothing. -/
theorem toNat_wordLength : r.wordLength.toInt.toNat = r.count := by
  have hmax : Int64.maxValue.toInt = 9223372036854775807 := Int64.toInt_maxValue
  have hmin : Int64.minValue.toInt = -9223372036854775808 := Int64.toInt_minValue
  unfold wordLength count limit
  split
  · rw [hmax]
    omega
  · split
    · rw [hmin]
      omega
    · rw [Int64.toInt_sub, Int.bmod_eq_of_le (by omega) (by omega)]
      omega

/-- A sum that overflows would lie beyond the range anyway. -/
theorem toInt_wordAt (index : Nat) : (r.wordAt index).map Int64.toInt = r.barAt index := by
  have hmax : Int64.maxValue.toInt = 9223372036854775807 := Int64.toInt_maxValue
  have hstart := r.start.le_toInt
  have hstop := r.stop.toInt_le
  unfold wordAt barAt limit
  split
  · rename_i hindex
    have hsum : (r.start + Int64.ofNat index).toInt = r.start.toInt + index := by
      rw [Int64.toInt_add, Int64.toInt_ofNat_of_lt (by omega),
        Int.bmod_eq_of_le (by omega) (by omega)]
    simp only [Int64.lt_iff_toInt_lt, hsum]
    split
    · rw [if_pos ⟨by omega, by assumption⟩, Option.map_some, hsum]
    · rw [if_neg (by omega), Option.map_none]
  · rw [if_neg (by omega), Option.map_none]

end BarRange

/-! ## Walks over sources -/

/-- Lists, series and ranges whose length is a word have a key at the counted indices and at no
    others, and their keys are all the keys there are. A longer range begins with as many bars
    as a word can count. Words compute the count and the bars of every range. A walk
    evaluates once at each key that is supplied, in order. -/
theorem KeySource.enumerates_keys :
    (∀ {K : Type} (keys : List K), (ofList keys).Enumerates keys) ∧
      (∀ s : Series, s.bars.Enumerates ((List.range s.size).map Int.ofNat) ∧
        s.dates.Enumerates (s.calendar.elim [] Array.toList)) ∧
      (∀ r : BarRange,
        (r.toList.Pairwise (· < ·) ∧
          ∀ bar, bar ∈ r.toList ↔ r.start.toInt ≤ bar ∧ bar < r.stop.toInt) ∧
        (r.stop.toInt - r.start.toInt ≤ BarRange.limit → r.keys.Enumerates r.toList ∧
          ∀ index bar, r.keys.keyAt index = some bar ↔
            bar = r.start.toInt + index ∧ bar < r.stop.toInt) ∧
        r.keys.Supplies (r.toList.take BarRange.limit) ∧
        r.wordLength.toInt.toNat = r.keys.count ∧
        ∀ index, (r.wordAt index).map Int64.toInt = r.keys.keyAt index) ∧
      ∀ {ω K α : Type} (source : KeySource K) (keys : List K), source.Supplies keys →
        ∀ evaluate : K → Traced ω α, source.walk evaluate =
          ⟨keys.map fun key => (evaluate key).value,
            keys.flatMap fun key => (evaluate key).visits⟩ := by
  refine ⟨enumerates_ofList, fun s => ⟨s.enumerates_bars, s.enumerates_dates⟩, fun r => ?_, ?_⟩
  · refine ⟨⟨r.pairwise_toList, fun bar => Int.mem_range_iff⟩, fun hlength => ?_, r.supplies,
      r.toNat_wordLength, r.toInt_wordAt⟩
    have henumerates := r.enumerates hlength
    refine ⟨henumerates, fun index bar => ?_⟩
    simp only [BarRange.keys, BarRange.barAt]
    split
    · rename_i hindex
      rw [Option.some.injEq]
      omega
    · simp only [reduceCtorEq, false_iff]
      omega
  · intro ω K α source keys hsupplies evaluate
    rw [hsupplies.walk_eq, Traced.mapM_eq, List.map_map, List.flatMap_map]
    rfl

/-- Five bars about zero. -/
theorem KeySource.enumerates_keys_about :
    let r : BarRange := ⟨-2, 3⟩
    r.stop.toInt - r.start.toInt ≤ BarRange.limit ∧ r.keys.Enumerates [-2, -1, 0, 1, 2] ∧
      r.keys.walk (fun bar => (⟨bar * bar, [bar]⟩ : Traced Int Int)) =
        ⟨[4, 1, 0, 1, 4], [-2, -1, 0, 1, 2]⟩ := by
  intro r
  obtain ⟨-, -, hranges, hwalk⟩ := enumerates_keys
  have hlength : r.stop.toInt - r.start.toInt ≤ BarRange.limit := by decide
  have henumerates := ((hranges r).2.1 hlength).1
  exact ⟨hlength, henumerates, hwalk _ _ henumerates.toSupplies _⟩

/-- A range one bar longer than a word can say: it has a key at an index that it does not count,
    and the walk leaves that key out. -/
theorem KeySource.enumerates_keys_not :
    let r : BarRange := ⟨-1, Int64.maxValue⟩
    r.keys.count = BarRange.limit ∧
      r.keys.keyAt BarRange.limit = some 9223372036854775806 ∧
      r.start.toInt ≤ 9223372036854775806 ∧ 9223372036854775806 < r.stop.toInt ∧
      9223372036854775806 ∉ r.keys.provided := by
  intro r
  refine ⟨by decide, by decide, by decide, by decide, ?_⟩
  rw [r.mem_provided]
  rintro ⟨-, -, hbound⟩
  exact absurd hbound (by decide)

end Lookback
