import Entail.Number.Binary64
import Entail.Text.Characters
import Entail.Text.Numeral
import Entail.Value.Literal
import Entail.Yaml.Kind
import Entail.Yaml.Token

/-!
# Values of scalars

`scalarValue` reads the text of a scalar as a value of its kind. A plain scalar of a kind has the form of that
kind, but its value may still be out of range; a scalar with a tag may have any text. `ReadFault` says what is
wrong with a document: its form or one of its values.
-/

namespace Entail.Yaml

inductive ReadFault where
  | form (f : Fault)
  | integer (base : Nat) (text : String)
  | integerLength (digits : Nat)
  | number (text : String)
  | numberSize
  | noNumber
  | truthWord (word : String)
  | timestampForm
  | timestampText
  | calendar (e : CalendarFault)
  | endless
  deriving DecidableEq

namespace ReadFault

/-- The longest text that is shown of an integer that cannot be read. -/
def shownLength : Nat := 200

/-- The bound of the code points that fit a machine word. -/
def wordBound : Nat := 2147483648

def integerLengthMessage (digits : Nat) : String :=
  "Exceeds the limit (" ++ toString Value.digitLimit ++ " digits) for integer string conversion: value has " ++
    toString digits ++ " digits; use sys.set_int_max_str_digits() to increase the limit"

/-- The wording of the faults that this library words itself. -/
def message? : ReadFault → Option String
  | .form (.codePoint n) =>
    some (if n < wordBound then "chr() arg not in range(0x110000)" else "Python int too large to convert to C int")
  | .form (.versionLength n) => some (integerLengthMessage n)
  | .form _ => none
  | .integer base text =>
    some ("invalid literal for int() with base " ++ toString base ++ ": " ++
      String.ofList ((Text.quoted text.toList).take shownLength))
  | .integerLength n => some (integerLengthMessage n)
  | .number text => some ("could not convert string to float: " ++ text.inQuotes)
  | .numberSize => some "int too large to convert to float"
  | .noNumber => some "string index out of range"
  | .truthWord word => some word.inQuotes
  | .timestampForm => some "'NoneType' object has no attribute 'groupdict'"
  | .timestampText => some "expected string or bytes-like object, got 'list'"
  | .calendar e => some e.message
  | .endless => some "maximum recursion depth exceeded"

end ReadFault

/-- The sign in front of a number and the rest; an empty text has none. -/
def splitSign? : List Char → Option (Bool × List Char)
  | [] => none
  | '-' :: s => some (true, s)
  | '+' :: s => some (false, s)
  | s => some (false, s)

/-- The text without the mark of its base, if it starts with it. -/
def dropBaseMark (base : Nat) (s : List Char) : List Char :=
  match s with
  | '0' :: c :: rest =>
    if (base = 2 ∧ (c = 'b' ∨ c = 'B')) ∨ (base = 8 ∧ (c = 'o' ∨ c = 'O')) ∨ (base = 16 ∧ (c = 'x' ∨ c = 'X'))
    then rest else s
  | _ => s

/-- Reads a numeral in the digits of any script, with an optional sign and blanks around it; in base ten its length is
limited. -/
def numeral (base : Nat) (s : List Char) : Except ReadFault Int :=
  match splitSign? (Text.bareNumeral s) with
  | none => .error (.integer base (String.ofList s))
  | some (negative, t) =>
    let digits := dropBaseMark base t
    let length := (digits.takeWhile Char.isDigit).length
    if base = 10 ∧ Value.digitLimit < length then .error (.integerLength length)
    else
      match Text.ofDigits? base digits with
      | some n =>
        if digits.isEmpty then .error (.integer base (String.ofList s))
        else .ok (if negative then -(n : Int) else n)
      | none => .error (.integer base (String.ofList s))

/-- The text without underscores. -/
def dropSpacing (text : String) : List Char := text.toList.filter (· ≠ '_')

def integer (text : String) : Except ReadFault Int :=
  match splitSign? (dropSpacing text) with
  | none | some (_, []) => .error .noNumber
  | some (negative, s) => do
    let n ← match s with
      | ['0'] => .ok 0
      | '0' :: 'b' :: rest => numeral 2 rest
      | '0' :: 'x' :: rest => numeral 16 rest
      | '0' :: _ => numeral 8 s
      | _ =>
        if ':' ∈ s then do
          let parts ← (Kind.colonParts s).mapM (numeral 10)
          pure (parts.foldl (fun acc p => acc * 60 + p) 0)
        else numeral 10 s
    return if negative then -n else n

def decimalNumber (s : List Char) : Except ReadFault Number.Binary64 :=
  match Number.Binary64.ofText? s with
  | some x => .ok x
  | none => .error (.number (String.ofList s))

/-- The sum of the last part, sixty times the one before it, and so on, rounded at each step. -/
def sexagesimalSum (parts : List Number.Binary64) : Except ReadFault Number.Binary64 :=
  parts.reverse.zipIdx.foldlM
    (fun acc p =>
      match Number.Binary64.ofInt? (Nat.pow 60 p.2) with
      | some unit => .ok (acc.plus (p.1.times unit))
      | none => .error .numberSize)
    (Number.Binary64.zero false)

/-- Reads a number with a point in any of its written forms. -/
def number (text : String) : Except ReadFault Number.Binary64 :=
  match splitSign? (Text.lowercase (dropSpacing text)) with
  | none => .error .noNumber
  | some (negative, s) => do
    let x ←
      if s = ".inf".toList then .ok (.infinite false)
      else if s = ".nan".toList then .ok .nan
      else if ':' ∈ s then do sexagesimalSum (← (Kind.colonParts s).mapM decimalNumber)
      else decimalNumber s
    return if negative then x.negate else x

def truthValue (text : String) : Except ReadFault Bool :=
  let word := String.ofList (Text.lowercase text.toList)
  if word ∈ ["yes", "true", "on"] then .ok true
  else if word ∈ ["no", "false", "off"] then .ok false
  else .error (.truthWord word)

/-- Whether a text is the word for no number, which is one and the same value wherever it stands. -/
def isNoNumberWord (text : String) : Bool :=
  (splitSign? (Text.lowercase (dropSpacing text))).any fun r => r.2 = ".nan".toList

def timestamp (text : String) : Except ReadFault Value :=
  match Timestamp.read? (Timestamp.dropLastBreak text.toList) with
  | some t =>
    match t.toValue with
    | .ok v => .ok v
    | .error e => .error (.calendar e)
  | none => .error .timestampForm

def binary (text : String) : Except ReadFault Value :=
  match if text.toList.all (·.toNat < 0x80) then Text.Base64.decode? text.toList else none with
  | some bs => .ok (.bytes bs)
  | none => .error (.form .binary)

/-- The value of a scalar. A key that merges or that stands for the value itself has none. -/
def scalarValue (kind : Kind) (text : String) : Except ReadFault Value :=
  match kind with
  | .str => .ok (.str text)
  | .null => .ok .null
  | .bool => (truthValue text).map .bool
  | .int => (integer text).map .int
  | .float => (number text).map .float
  | .timestamp => timestamp text
  | .binary => binary text
  | .seq | .omap | .pairs | .map | .set => .error (.form .kind)
  | .merge | .value | .other => .error (.form .unknownTag)

end Entail.Yaml
