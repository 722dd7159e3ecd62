import Entail.Number.Shortest
import Entail.Text.Quoted
import Entail.Value

/-!
# Values in messages

* `Value.kindName` : the name of a value's kind;
* `Value.literal` : a value as messages show it, nested values included; a collection inside itself is shown by
  three points between its brackets;
* `Value.plain` : a value as a name, which is its literal except that texts, dates and moments stand bare;
* `Value.exceedsDigitLimit` : whether the value holds an integer that is too long to be written out;
* `CalendarFault.message` : what is wrong with a date or a moment.
-/

namespace Entail.Value

def kindName : Value → String
  | .null => "NoneType"
  | .bool _ => "bool"
  | .int _ => "int"
  | .float _ => "float"
  | .str _ => "str"
  | .bytes _ => "bytes"
  | .date _ => "date"
  | .moment _ => "datetime"
  | .list _ => "list"
  | .map _ => "dict"
  | .set _ => "set"
  | .pair _ _ => "tuple"
  | .knot _ => "knot"

def commaSeparated (items : List (List Char)) : List Char := [',', ' '].intercalate items

def call (name : String) (args : List (List Char)) : List Char := name.toList ++ '(' :: commaSeparated args ++ [')']

/-- A span of time by its days and seconds, leaving out what is zero. -/
def spanLiteral (minutes : Int) : List Char :=
  let (days, seconds) := spanParts minutes
  let parts := (if days = 0 then [] else ["days=".toList ++ Text.signed days]) ++
    (if seconds = 0 then [] else ["seconds=".toList ++ Text.decimal seconds])
  call "datetime.timedelta" (if parts = [] then [['0']] else parts)

def zoneLiteral (z : Int) : List Char :=
  if z = 0 then "datetime.timezone.utc".toList else call "datetime.timezone" [spanLiteral z]

/-- Fields of a moment without the seconds and fractions that are zero. -/
def clockFields (m : Moment) : List Nat :=
  [m.date.year, m.date.month, m.date.day, m.hour, m.minute] ++
    (if m.micro = 0 then (if m.second = 0 then [] else [m.second]) else [m.second, m.micro])

def momentLiteral (m : Moment) : List Char :=
  call "datetime.datetime" ((clockFields m).map Text.decimal ++
    match m.zone with
    | some z => ["tzinfo=".toList ++ zoneLiteral z]
    | none => [])

def inBrackets : Value → List Char → List Char
  | .map _, inner | .set _, inner => '{' :: inner ++ ['}']
  | .pair _ _, inner => '(' :: inner ++ [')']
  | _, inner => '[' :: inner ++ [']']

mutual

/-- A value as messages show it, given how its knots are shown. -/
def literalChars (knotChars : Nat → List Char) : Value → List Char
  | .null => "None".toList
  | .bool true => "True".toList
  | .bool false => "False".toList
  | .int n => Text.signed n
  | .float x => x.text
  | .str s => Text.quoted s.toList
  | .bytes bs => Text.quotedBytes bs
  | .date d => call "datetime.date" [Text.decimal d.year, Text.decimal d.month, Text.decimal d.day]
  | .moment m => momentLiteral m
  | .list items => inBrackets (.list []) (commaSeparated (itemLiterals knotChars items))
  | .map entries => inBrackets (.map []) (commaSeparated (entryLiterals knotChars entries))
  | .set [] => call "set" []
  | .set (v :: rest) => inBrackets (.set []) (commaSeparated (literalChars knotChars v :: itemLiterals knotChars rest))
  | .pair a b =>
    inBrackets (.pair .null .null) (commaSeparated [literalChars knotChars a, literalChars knotChars b])
  | .knot n => knotChars n

def itemLiterals (knotChars : Nat → List Char) : List Value → List (List Char)
  | [] => []
  | v :: rest => literalChars knotChars v :: itemLiterals knotChars rest

def entryLiterals (knotChars : Nat → List Char) : List (Value × Value) → List (List Char)
  | [] => []
  | (k, v) :: rest =>
    (literalChars knotChars k ++ ':' :: ' ' :: literalChars knotChars v) :: entryLiterals knotChars rest

end

/-- What a function on values gives for a knot, given what it gives for the knots inside: for a knot that is open
already, what it gives for a knot in itself. The knots that are open are all different, so that `ks.size` steps are
enough. -/
def atKnot {β : Type} (ks : Knots) (again : Value → β) (f : (Nat → β) → Value → β) : Nat → List Nat → Nat → β
  | 0, _, n => again (ks.getD n .null)
  | fuel + 1, isOpen, n =>
    if n ∈ isOpen then again (ks.getD n .null) else f (atKnot ks again f fuel (n :: isOpen)) (ks.getD n .null)

def ellipsis (v : Value) : List Char := inBrackets v ['.', '.', '.']

def literalIn (ks : Knots) (v : Value) : String :=
  String.ofList (v.literalChars (atKnot ks ellipsis literalChars ks.size []))

def literal (v : Value) : String := v.literalIn #[]

/-- A value as a name. -/
def plainIn (ks : Knots) : Value → String
  | .str s => s
  | .date d => String.ofList d.iso
  | .moment m => String.ofList m.iso
  | v => v.literalIn ks

/-- The number of digits beyond which an integer is neither read nor written in base ten. -/
def digitLimit : Nat := 4300

mutual

/-- Whether an integer with too many digits occurs in the value, given whether one occurs in its knots. -/
def holdsLongInteger (inKnot : Nat → Bool) : Value → Bool
  | .int n => Nat.pow 10 digitLimit ≤ n.natAbs
  | .list items | .set items => itemsHoldLong inKnot items
  | .map entries => entriesHoldLong inKnot entries
  | .pair a b => holdsLongInteger inKnot a || holdsLongInteger inKnot b
  | .knot n => inKnot n
  | _ => false

def itemsHoldLong (inKnot : Nat → Bool) : List Value → Bool
  | [] => false
  | v :: rest => holdsLongInteger inKnot v || itemsHoldLong inKnot rest

def entriesHoldLong (inKnot : Nat → Bool) : List (Value × Value) → Bool
  | [] => false
  | (k, v) :: rest => holdsLongInteger inKnot k || holdsLongInteger inKnot v || entriesHoldLong inKnot rest

end

def exceedsDigitLimit (ks : Knots) (v : Value) : Bool :=
  v.holdsLongInteger (atKnot ks (fun _ => false) holdsLongInteger ks.size [])

end Entail.Value

namespace Entail.CalendarFault

def message : CalendarFault → String
  | .year n => "year " ++ toString n ++ " is out of range"
  | .month => "month must be in 1..12"
  | .day => "day is out of range for month"
  | .hour => "hour must be in 0..23"
  | .minute => "minute must be in 0..59"
  | .second => "second must be in 0..59"
  | .zone minutes =>
    "offset must be a timedelta strictly between -timedelta(hours=24) and timedelta(hours=24), not " ++
      String.ofList (Value.spanLiteral minutes) ++ "."

end Entail.CalendarFault
