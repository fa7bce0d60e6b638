-- SUMMARY: Timestamps: instants of the supported years to the nanosecond, their order, and shifting them by durations.
import Lookback.Time.Civil

/-!
# Timestamps

A timestamp counts the seconds since 1970-01-01 00:00:00, sixty to the minute,
and the nanoseconds since its second began. The nanoseconds may run on through a
leap second, from `10 ^ 9` up to `2 * 10 ^ 9`. A clock shows one at the end of a
minute only (`CivilDateTime.isValid`), but any second may be prolonged by one.

There is no table of leap seconds. A duration that is taken from a timestamp in
a leap second passes through that one as a second like any other; all the rest
are taken not to exist. Shifting has no result when it leaves the supported
years.
-/

namespace Lookback

def secondsPerDay : Int := 86400

def nanosPerSecond : Int := 1000000000

def nanosPerMilli : Int := 1000000

structure Timestamp where
  /-- Seconds since 1970-01-01 00:00:00, without leap seconds. -/
  second : Int
  /-- Nanoseconds since the second began; from `10 ^ 9` on, the leap second after it. -/
  nano : Nat
  first_le : -8334601228800 ≤ second
  le_last : second ≤ 8210266876799
  nano_lt : nano < 2000000000
deriving DecidableEq

namespace Timestamp

/-- The first instant, the beginning of the first supported year. -/
def first : Timestamp := ⟨-8334601228800, 0, by decide, by decide, by decide⟩

/-- The last instant outside a leap second, at the end of the last supported year. -/
def last : Timestamp := ⟨8210266876799, 999999999, by decide, by decide, by decide⟩

theorem first_eq_dayNumber :
    first.second = CivilDate.dayNumber ⟨CivilDate.firstYear, 1, 1⟩ * secondsPerDay := by decide

theorem last_eq_dayNumber :
    last.second = (CivilDate.dayNumber ⟨CivilDate.lastYear, 12, 31⟩ + 1) * secondsPerDay - 1 := by
  decide

def ofParts? (second : Int) (nano : Nat) : Option Timestamp :=
  if h : (-8334601228800 ≤ second ∧ second ≤ 8210266876799) ∧ nano < 2000000000 then
    some ⟨second, nano, h.1.1, h.1.2, h.2⟩
  else
    none

/-- The timestamp at a count of nanoseconds since 1970-01-01 00:00:00, if it is in
    range. Leap seconds are not counted, so it never lies in one. -/
def ofNanos? (nanos : Int) : Option Timestamp :=
  ofParts? (nanos / nanosPerSecond) (nanos % nanosPerSecond).toNat

def ofCivil? (t : CivilDateTime) : Option Timestamp :=
  if t.isValid then
    ofParts? (t.date.dayNumber * secondsPerDay + ((t.hour * 60 + t.minute) * 60 + t.second : Nat))
      t.nano
  else
    none

/-- Midnight of a calendar day. -/
def ofDate? (date : CivilDate) : Option Timestamp :=
  ofCivil? ⟨date, 0, 0, 0, 0⟩

def toCivil (t : Timestamp) : CivilDateTime :=
  let ofDay := (t.second % secondsPerDay).toNat
  { date := CivilDate.ofDayNumber (t.second / secondsPerDay)
    hour := ofDay / 3600
    minute := ofDay / 60 % 60
    second := ofDay % 60
    nano := t.nano }

def isLeap (t : Timestamp) : Bool := decide (nanosPerSecond ≤ t.nano)

/-- The instant `nanos` nanoseconds earlier, if it is in range. This is what the date
    library documents of subtracting a signed duration: no leap second is assumed
    but the one the timestamp itself lies in, and a result out of range is refused.
    A shift that starts in a leap second may end there too; if it ends later, the
    leap second has gone by, and is taken off because the count of seconds leaves it
    out. -/
def beforeNanos? (t : Timestamp) (nanos : Int) : Option Timestamp :=
  let nano := t.nano - nanos
  if t.isLeap ∧ nanosPerSecond ≤ nano then
    if nano < 2 * nanosPerSecond then
      ofParts? t.second nano.toNat
    else
      ofNanos? ((t.second - 1) * nanosPerSecond + nano)
  else
    ofNanos? (t.second * nanosPerSecond + nano)

/-- The instant `millis` milliseconds earlier, if it is in range. -/
def before? (t : Timestamp) (millis : Int) : Option Timestamp :=
  t.beforeNanos? (millis * nanosPerMilli)

/-! ## Order -/

/-- Place in the order of time. Every second leaves room for a leap second. -/
def place (t : Timestamp) : Int := t.second * 2000000000 + t.nano

instance : LE Timestamp := ⟨fun a b => a.place ≤ b.place⟩

instance : LT Timestamp := ⟨fun a b => a.place < b.place⟩

instance (a b : Timestamp) : Decidable (a ≤ b) :=
  inferInstanceAs (Decidable (a.place ≤ b.place))

instance (a b : Timestamp) : Decidable (a < b) :=
  inferInstanceAs (Decidable (a.place < b.place))

instance : Ord Timestamp := ⟨fun a b => compare a.place b.place⟩

theorem le_iff {a b : Timestamp} : a ≤ b ↔ a.place ≤ b.place := Iff.rfl

theorem lt_iff {a b : Timestamp} : a < b ↔ a.place < b.place := Iff.rfl

theorem place_inj {a b : Timestamp} : a.place = b.place ↔ a = b := by
  constructor
  · intro h
    have ha := a.nano_lt
    have hb := b.nano_lt
    cases a
    cases b
    simp only [place] at h
    simp only [mk.injEq]
    omega
  · intro h
    rw [h]

end Timestamp

end Lookback
