import Entail.Value

/-!
# Dates and moments in documents

A `Timestamp` is a date as it is written, with a time of day or without; `read?` recognises it, and `toValue`
asks the calendar. A clock may have a fraction of a second, of which six places count, and a zone.
-/

namespace Entail.Yaml

/-- A time of day; `zone` is the distance from universal time in minutes. -/
structure Clock where
  hour : Nat
  minute : Nat
  second : Nat
  fraction : List Char
  zone : Option Int

structure Timestamp where
  year : Nat
  month : Nat
  day : Nat
  clock : Option Clock

namespace Timestamp

/-- Cuts a number of `least` to `most` digits off a text. -/
def number? (least most : Nat) (s : List Char) : Option (Nat × List Char) :=
  let ds := (s.take most).takeWhile Char.isDigit
  if ds.length < least then none else (Text.ofDigits? 10 ds).map fun n => (n, s.drop ds.length)

def mark? (c : Char) : List Char → Option (List Char)
  | x :: rest => if x = c then some rest else none
  | [] => none

def isInnerBlank (c : Char) : Bool := c = ' ' || c = '\t'

/-- Reads the zone, before which blanks may stand; nothing is no zone. -/
def zone? (s : List Char) : Option (Option Int) :=
  match s, s.dropWhile isInnerBlank with
  | [], _ => some none
  | _, ['Z'] => some (some 0)
  | _, x :: rest =>
    if x = '+' ∨ x = '-' then do
      let (hours, rest) ← number? 1 2 rest
      let minutes ← match rest with
        | [] => some 0
        | ':' :: rest => do
          let (minutes, rest) ← number? 2 2 rest
          if rest.isEmpty then some minutes else none
        | _ => none
      let distance : Int := ((hours * 60 + minutes : Nat) : Int)
      return some (if x = '-' then -distance else distance)
    else none
  | _, [] => none

/-- Reads what follows the letter or the blanks between date and time. -/
def clock? (s : List Char) : Option Clock := do
  let (hour, s) ← number? 1 2 s
  let (minute, s) ← number? 2 2 (← mark? ':' s)
  let (second, s) ← number? 2 2 (← mark? ':' s)
  let (fraction, s) := match s with
    | '.' :: rest => rest.span Char.isDigit
    | _ => ([], s)
  return ⟨hour, minute, second, fraction, ← zone? s⟩

def dropLastBreak (s : List Char) : List Char := if s.getLast? = some '\n' then s.dropLast else s

def read? (s : List Char) : Option Timestamp := do
  let (year, s) ← number? 4 4 s
  let (month, s) ← number? 1 2 (← mark? '-' s)
  let (day, s) ← number? 1 2 (← mark? '-' s)
  match s with
  | [] => return ⟨year, month, day, none⟩
  | c :: rest =>
    if c = 'T' ∨ c = 't' then return ⟨year, month, day, some (← clock? rest)⟩
    else if isInnerBlank c then return ⟨year, month, day, some (← clock? (rest.dropWhile isInnerBlank))⟩
    else none

/-- Whether a plain text is a timestamp; a date alone is written with two digits for month and day. -/
def isPlain (s : List Char) : Bool :=
  match read? s with
  | some t => t.clock.isSome || s.length = 10
  | none => false

/-- The millionths of a second in a fraction. -/
def micro (fraction : List Char) : Nat :=
  (Text.ofDigits? 10 ((fraction ++ List.replicate 6 '0').take 6)).getD 0

/-- The date or moment, if the calendar has it. -/
def toValue (t : Timestamp) : Except CalendarFault Value :=
  match t.clock with
  | none => (Date.make? t.year t.month t.day).map .date
  | some k =>
    (Moment.make? t.year t.month t.day k.hour k.minute k.second (micro k.fraction) k.zone).map .moment

end Timestamp

end Entail.Yaml
