import Entail.Text.Numeral

/-!
# Dates and moments

`Date.make?` and `Moment.make?` refuse what the calendar does not have, naming the first field that is out of
range. `Moment.sameInstant` compares moments across zones.
-/

namespace Entail

structure Date where
  year : Nat
  month : Nat
  day : Nat
  deriving DecidableEq

/-- A time of day on a date; `zone` is the distance from universal time in minutes, where it is known. -/
structure Moment where
  date : Date
  hour : Nat
  minute : Nat
  second : Nat
  micro : Nat
  zone : Option Int
  deriving DecidableEq

/-- The field of a date or moment that is out of range. -/
inductive CalendarFault where
  | year (n : Nat)
  | month
  | day
  | hour
  | minute
  | second
  | zone (minutes : Int)
  deriving DecidableEq

namespace Date

def isLeapYear (year : Nat) : Bool := year % 4 == 0 && (year % 100 != 0 || year % 400 == 0)

def daysInMonth (year month : Nat) : Nat :=
  if month = 2 then (if isLeapYear year then 29 else 28)
  else if month = 4 ∨ month = 6 ∨ month = 9 ∨ month = 11 then 30
  else 31

def make? (year month day : Nat) : Except CalendarFault Date :=
  if year < 1 ∨ 9999 < year then .error (.year year)
  else if month < 1 ∨ 12 < month then .error .month
  else if day < 1 ∨ daysInMonth year month < day then .error .day
  else .ok ⟨year, month, day⟩

/-- The number of days in the first months of a year. -/
def daysInMonths (year : Nat) : Nat → Nat
  | 0 => 0
  | m + 1 => daysInMonths year m + daysInMonth year (m + 1)

/-- The number of days from the first of January of year one. -/
def ordinal (d : Date) : Nat :=
  let y := d.year - 1
  y * 365 + y / 4 - y / 100 + y / 400 + daysInMonths d.year (d.month - 1) + d.day - 1

def iso (d : Date) : List Char :=
  Text.decimalPadded 4 d.year ++ '-' :: Text.decimalPadded 2 d.month ++ '-' :: Text.decimalPadded 2 d.day

end Date

/-- A span of time: whole days, which may be negative, and the seconds above them. -/
def spanParts (minutes : Int) : Int × Nat := ((minutes * 60).fdiv 86400, ((minutes * 60).fmod 86400).toNat)

namespace Moment

/-- The bound, in minutes, that a zone's distance stays strictly below. -/
def zoneBound : Nat := 1440

def make? (year month day hour minute second micro : Nat) (zone : Option Int) : Except CalendarFault Moment := do
  match zone with
  | some z => if zoneBound ≤ z.natAbs then throw (.zone z)
  | none => pure ()
  let date ← Date.make? year month day
  if 23 < hour then throw .hour
  if 59 < minute then throw .minute
  if 59 < second then throw .second
  return ⟨date, hour, minute, second, micro, zone⟩

/-- The seconds from the first of January of year one, on the moment's own clock. -/
def clockSeconds (m : Moment) : Int :=
  (((m.date.ordinal * 24 + m.hour) * 60 + m.minute) * 60 + m.second : Nat)

/-- Whether two moments are one instant; a moment without a zone is compared with its like only. -/
def sameInstant (a b : Moment) : Bool :=
  match a.zone, b.zone with
  | none, none => decide (a = b)
  | some x, some y => a.clockSeconds - x * 60 == b.clockSeconds - y * 60 && a.micro == b.micro
  | _, _ => false

def zoneIso (z : Int) : List Char :=
  (if z < 0 then '-' else '+') :: Text.decimalPadded 2 (z.natAbs / 60) ++ ':' :: Text.decimalPadded 2 (z.natAbs % 60)

def iso (m : Moment) : List Char :=
  m.date.iso ++ ' ' :: Text.decimalPadded 2 m.hour ++ ':' :: Text.decimalPadded 2 m.minute ++
    ':' :: Text.decimalPadded 2 m.second ++ (if m.micro = 0 then [] else '.' :: Text.decimalPadded 6 m.micro) ++
    (match m.zone with | some z => zoneIso z | none => [])

end Moment

end Entail
