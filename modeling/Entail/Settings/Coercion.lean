import Entail.Settings
import Entail.Text.Characters
import Entail.Value.Literal

/-!
# Reading a setting from a value

Values of settings arrive as text, numbers or booleans. `ceilingOf`, `switchOf`, `nameOf` and `levelOf` read one
setting each; a `SettingFault` says what is wrong with a value. Ceilings are checked to be positive and levels to
be known after they are read.
-/

namespace Entail

inductive SettingFault where
  | integerText
  | integerSize
  | integerFraction
  | integerKind
  | notFinite
  | switchText
  | switchKind
  | textKind
  | ceilingNotPositive
  | levelUnknown (text : String)
  deriving DecidableEq

namespace SettingFault

def code : SettingFault → String
  | .integerText => "int_parsing"
  | .integerSize => "int_parsing_size"
  | .integerFraction => "int_from_float"
  | .integerKind => "int_type"
  | .notFinite => "finite_number"
  | .switchText => "bool_parsing"
  | .switchKind => "bool_type"
  | .textKind => "string_type"
  | .ceilingNotPositive | .levelUnknown _ => "value_error"

/-- The wording of the faults that this library finds itself. -/
def message? : SettingFault → Option String
  | .ceilingNotPositive => some "Value error, ceiling must be positive or None"
  | .levelUnknown s => some ("Value error, unknown log level " ++ s.inQuotes)
  | _ => none

end SettingFault

namespace Settings

/-- Cuts a point with one or more zeros behind it off a number. -/
def dropZeroPlaces (s : List Char) : List Char :=
  let (whole, rest) := s.span (· ≠ '.')
  match rest with
  | '.' :: places => if !places.isEmpty && places.all (· = '0') then whole else s
  | _ => s

/-- Cuts leading zeros off a number that starts with a digit, with the underscores among them; one zero stays
before a point and at the end. -/
def dropLeadingZeros? : List Char → Option (List Char)
  | '0' :: s =>
    let rest := s.dropWhile fun c => c = '0' ∨ c = '_'
    match rest with
    | [] => some [(('0' :: s).getLast?).getD '0']
    | '.' :: _ => if (s.take (s.length - rest.length)).getLast? = some '_' then some ('_' :: rest) else some ('0' :: rest)
    | c :: _ => if c.isDigit ∨ c = '-' then some rest else none
  | c :: s => if c.isDigit ∨ c = '-' then some (c :: s) else none
  | [] => none

/-- Drops the underscores of a number if they stand one at a time between digits. -/
def dropUnderscores (s : List Char) : List Char :=
  let digits := if s.head? = some '-' then s.tail else s
  let doubled := (s.zip s.tail).any fun p => p.1 = '_' && p.2 = '_'
  if digits.head? = some '_' ∨ s.getLast? = some '_' ∨ doubled then s else s.filter (· ≠ '_')

/-- Reads digits with an optional minus sign. -/
def signedDigits? : List Char → Option Int
  | '-' :: s => if s = [] then none else (Text.ofDigits? 10 s).map fun n => -(n : Int)
  | s => if s = [] then none else (Text.ofDigits? 10 s).map fun n => (n : Int)

/-- The digits of an integer: white space around it, a sign, single underscores between digits and zero places after
a point are allowed. -/
def digitsOfText? (s : List Char) : Option (List Char) := do
  let s ← match Text.trimWhere Text.isWhiteSpace s with
    | '+' :: '-' :: _ => none
    | '+' :: t => some t
    | t => some t
  return dropUnderscores (dropZeroPlaces (← dropLeadingZeros? s))

def integerOfText (s : String) : Except SettingFault Int :=
  match digitsOfText? s.toList with
  | none => .error .integerText
  | some digits =>
    if Value.digitLimit < (String.ofList digits).utf8ByteSize then .error .integerSize
    else
      match signedDigits? digits with
      | some n => .ok n
      | none => .error .integerText

/-- The bound of the integers that fit a machine word. -/
def wordBound : Int := 9223372036854775808

def integerOf : Value → Except SettingFault Int
  | .bool b => .ok (if b then 1 else 0)
  | .int n => .ok n
  | .float (.finite s m e) =>
    match (Number.Binary64.finite s m e).toInt? with
    | some n => if -wordBound < n ∧ n < wordBound then .ok n else .error .integerSize
    | none => .error .integerFraction
  | .float _ => .error .notFinite
  | .str s => integerOfText s
  | _ => .error .integerKind

/-- A ceiling: nothing, or a positive integer. -/
def ceilingOf : Value → Except SettingFault (Option Limit)
  | .null => .ok none
  | v => do
    let n ← integerOf v
    if n < 1 then throw .ceilingNotPositive
    return some (.count n)

/-- The words for on and off, in any case. -/
def switchOfText? (s : String) : Option Bool :=
  let s := s.map Char.toLower
  if s ∈ ["1", "on", "t", "true", "y", "yes"] then some true
  else if s ∈ ["0", "off", "f", "false", "n", "no"] then some false
  else none

/-- A switch: a boolean, the numbers one and zero, or a word. -/
def switchOf : Value → Except SettingFault Bool
  | .bool b => .ok b
  | .int n =>
    if n = 0 then .ok false
    else if n = 1 then .ok true
    else if -wordBound ≤ n ∧ n < wordBound then .error .switchText
    else .error .switchKind
  | .float x =>
    if x.toInt? = some 0 then .ok false else if x.toInt? = some 1 then .ok true else .error .switchKind
  | .str s =>
    match switchOfText? s with
    | some b => .ok b
    | none => .error .switchText
  | _ => .error .switchKind

def nameOf : Value → Except SettingFault (Option String)
  | .null => .ok none
  | .str s => .ok (some s)
  | _ => .error .textKind

/-- The upper-case form of a text where it is ASCII; no name of a level has another character. -/
def upperCase? (s : String) : Option String := do
  let parts ← s.toList.mapM Text.asciiUpper?
  return String.ofList parts.flatten

/-- A level: the name of a known level in any case, kept in upper case. -/
def levelOf : Value → Except SettingFault String
  | .str s =>
    match upperCase? s with
    | some level => if (levelNumber? level).isSome then .ok level else .error (.levelUnknown s)
    | none => .error (.levelUnknown s)
  | _ => .error .textKind

def assign (s : Settings) (v : Value) : Setting → Except SettingFault Settings
  | .bottomPredicate => do return { s with bottomPredicate := ← nameOf v }
  | .exhaustiveMatching => do return { s with exhaustiveMatching := ← switchOf v }
  | .logLevel => do return { s with logLevel := .named (← levelOf v) }
  | .maxFacts => do return { s with maxFacts := ← ceilingOf v }
  | .maxRounds => do return { s with maxRounds := ← ceilingOf v }

/-- Reads all settings from what a source has for them, over the defaults; the faults come in the order of the
settings' names. -/
def ofSource (source : Setting → Option Value) : Except (List (Setting × SettingFault)) Settings :=
  let (settings, faults) := Setting.all.foldl
    (fun (acc : Settings × List (Setting × SettingFault)) x =>
      match source x with
      | none => acc
      | some v =>
        match acc.1.assign v x with
        | .ok s => (s, acc.2)
        | .error e => (acc.1, acc.2 ++ [(x, e)]))
    ({}, [])
  if faults.isEmpty then .ok settings else .error faults

end Settings

end Entail
