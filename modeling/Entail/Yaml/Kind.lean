import Entail.Yaml.Timestamp

/-!
# Kinds of values

A `Kind` is what a tag says a node is. A plain scalar without a tag is of the kind that its text shows:
`Kind.ofPlain` recognises truth values, numbers, null, dates and moments, and the keys `<<` and `=`; all other
texts are strings. A line break at the end of a text is not looked at.
-/

namespace Entail.Yaml

inductive Kind where
  | str
  | null
  | bool
  | int
  | float
  | timestamp
  | binary
  | seq
  | omap
  | pairs
  | map
  | set
  | merge
  | value
  | other
  deriving DecidableEq

namespace Kind

def commonTag : String := "tag:yaml.org,2002:"

def ofTag (tag : String) : Kind :=
  if tag = commonTag ++ "str" then .str
  else if tag = commonTag ++ "null" then .null
  else if tag = commonTag ++ "bool" then .bool
  else if tag = commonTag ++ "int" then .int
  else if tag = commonTag ++ "float" then .float
  else if tag = commonTag ++ "timestamp" then .timestamp
  else if tag = commonTag ++ "binary" then .binary
  else if tag = commonTag ++ "seq" then .seq
  else if tag = commonTag ++ "omap" then .omap
  else if tag = commonTag ++ "pairs" then .pairs
  else if tag = commonTag ++ "set" then .set
  else if tag = commonTag ++ "map" then .map
  else if tag = commonTag ++ "merge" then .merge
  else if tag = commonTag ++ "value" then .value
  else .other

/-! ## Plain scalars -/

/-- The words for true and false, each in lower, title and upper case. -/
def boolWords : List String :=
  ["yes", "Yes", "YES", "no", "No", "NO", "true", "True", "TRUE", "false", "False", "FALSE",
   "on", "On", "ON", "off", "Off", "OFF"]

def nullWords : List String := ["~", "null", "Null", "NULL", ""]

/-- The text without a sign in front. -/
def unsigned : List Char → List Char
  | '+' :: s => s
  | '-' :: s => s
  | s => s

/-- A digit or an underscore. -/
def isSpacedDigit (c : Char) : Bool := c.isDigit || c = '_'

/-- Whether a text is a digit with digits and underscores behind it. -/
def isSpacedNumber : List Char → Bool
  | c :: rest => c.isDigit && rest.all isSpacedDigit
  | [] => false

/-- Whether a text is one digit, or two of a number below sixty. -/
def isSixtieth : List Char → Bool
  | [c] => c.isDigit
  | [c, d] => '0' ≤ c && c ≤ '5' && d.isDigit
  | _ => false

def colonParts (s : List Char) : List (List Char) := s.splitOn ':'

/-- Whether a text is a number with groups of sixtieths behind it. -/
def isSexagesimal (s : List Char) : Bool :=
  match colonParts s with
  | whole :: p :: parts => isSpacedNumber whole && (p :: parts).all isSixtieth
  | _ => false

def isRun (p : Char → Bool) (s : List Char) : Bool := !s.isEmpty && s.all p

def isHexDigit (c : Char) : Bool := (Text.digitValue? 16 c).isSome

/-- Integers: binary, octal and hexadecimal after `0b`, `0` and `0x`, decimal, and in base sixty. -/
def isInt (s : List Char) : Bool :=
  match unsigned s with
  | '0' :: 'b' :: rest => isRun (fun c => c = '0' || c = '1' || c = '_') rest
  | '0' :: 'x' :: rest => isRun (fun c => isHexDigit c || c = '_') rest
  | '0' :: rest => rest.all fun c => ('0' ≤ c && c ≤ '7') || c = '_'
  | t => isSpacedNumber t || isSexagesimal t

/-- An exponent with its sign, or nothing. -/
def isExponent : List Char → Bool
  | [] => true
  | c :: d :: rest => (c = 'e' || c = 'E') && (d = '+' || d = '-') && isRun Char.isDigit rest
  | _ => false

/-- Digits around a point and an exponent. Without digits before the point there is no sign. -/
def isPointed (s : List Char) : Bool :=
  match (unsigned s).span isSpacedDigit with
  | (whole, '.' :: rest) =>
    let (places, exponent) := rest.span isSpacedDigit
    isExponent exponent &&
      (isSpacedNumber whole || (whole.isEmpty && isSpacedNumber places && unsigned s = s))
  | _ => false

def isPointedSexagesimal (s : List Char) : Bool :=
  match (unsigned s).span (· ≠ '.') with
  | (whole, '.' :: places) => isSexagesimal whole && places.all isSpacedDigit
  | _ => false

/-- The words for infinity and for no number, signs apart. -/
def isFloatWord (s : List Char) : Bool :=
  String.ofList (unsigned s) ∈ [".inf", ".Inf", ".INF"] || String.ofList s ∈ [".nan", ".NaN", ".NAN"]

def isFloat (s : List Char) : Bool := isPointed s || isPointedSexagesimal s || isFloatWord s

/-- The marks that stand for no value when they stand alone. -/
def loneMarks : List String := ["!", "&", "*"]

/-- The kind of a text without a line break at its end. -/
def ofLine (text : String) : Kind :=
  let s := text.toList
  if text ∈ boolWords then .bool
  else if isFloat s then .float
  else if isInt s then .int
  else if text = "<<" then .merge
  else if text ∈ nullWords then .null
  else if Timestamp.isPlain s then .timestamp
  else if text = "=" then .value
  else if text ∈ loneMarks then .other
  else .str

def ofPlain (text : String) : Kind :=
  if text = "\n" then .str else ofLine (String.ofList (Timestamp.dropLastBreak text.toList))

end Kind

end Entail.Yaml
