import Entail.Text.Characters

/-!
# Files of variables

* `DotEnv.parse` : lines of the form `NAME=value`. A line may start with `export`, blanks may stand around the equals
  sign, a value may stand in single or double quotes, where a backslash escapes, and a comment starts with `#` after a
  blank. A name without an equals sign has no value. A line that cannot be read is skipped;
* `Reference.expand` : a text refers to a variable as `${NAME}` or, with a text for the case that the variable is not
  set, as `${NAME:-text}`, and gets what the variable holds; where a reference is not well formed its characters stand
  for themselves.
-/

namespace Entail.DotEnv

structure Binding where
  name : String
  value : Option String

/-- A blank character that does not end a line. -/
def isInnerBlank (c : Char) : Bool := Text.isBlank c && c ≠ '\n'

def dropLine (s : List Char) : List Char := (s.dropWhile (· ≠ '\n')).tail

/-- What follows the end of the line, if only blanks and a comment stand before it. -/
def endOfLine? (s : List Char) : Option (List Char) :=
  let s := s.dropWhile isInnerBlank
  match s with
  | [] => some []
  | c :: _ => if c = '#' ∨ c = '\n' then some (dropLine s) else none

/-- Drops the word `export` and the blanks that must follow it. -/
def dropExport (s : List Char) : List Char :=
  match s with
  | 'e' :: 'x' :: 'p' :: 'o' :: 'r' :: 't' :: c :: t => if isInnerBlank c then t.dropWhile isInnerBlank else s
  | _ => s

/-- Cuts off a name, which may stand in single quotes. A comment has none. -/
def name? (s : List Char) : Option (Option (List Char) × List Char) :=
  match s with
  | '#' :: _ => some (none, s)
  | '\'' :: t =>
    match t.span (· ≠ '\'') with
    | ([], _) => none
    | (n, '\'' :: rest) => some (some n, rest)
    | _ => none
  | _ =>
    match s.span fun c => c ≠ '=' && c ≠ '#' && !Text.isBlank c with
    | ([], _) => none
    | (n, rest) => some (some n, rest)

/-- Cuts off quoted text up to its closing mark; a backslash and the character behind it are taken together. -/
def quotedBody? (mark : Char) : List Char → Option (List Char × List Char)
  | [] => none
  | '\\' :: c :: t => (quotedBody? mark t).map fun r => ('\\' :: c :: r.1, r.2)
  | c :: t => if c = mark then some ([], t) else (quotedBody? mark t).map fun r => (c :: r.1, r.2)

def escaped? (mark : Char) : Char → Option Char
  | '\\' => some '\\'
  | '\'' => some '\''
  | c =>
    if mark = '"' then
      match c with
      | '"' => some '"'
      | 'a' => some '\x07'
      | 'b' => some '\x08'
      | 'f' => some '\x0c'
      | 'n' => some '\n'
      | 'r' => some '\r'
      | 't' => some '\t'
      | 'v' => some '\x0b'
      | _ => none
    else none

/-- Replaces the escapes that are known between the given marks. -/
def unescape (mark : Char) : List Char → List Char
  | '\\' :: c :: t =>
    match escaped? mark c with
    | some e => e :: unescape mark t
    | none => '\\' :: unescape mark (c :: t)
  | c :: t => c :: unescape mark t
  | [] => []

/-- The text up to a blank followed by `#`, or all of it. -/
def dropComment : List Char → List Char
  | [] => []
  | c :: t => if Text.isBlank c ∧ (t.dropWhile Text.isBlank).head? = some '#' then [] else c :: dropComment t

/-- Cuts off a value, from the equals sign on. Without quotes it runs to the end of the line or to a comment, which
may follow the equals sign at once if a blank stands between them. -/
def value? (s : List Char) : Option (List Char × List Char) :=
  match s.dropWhile isInnerBlank with
  | '\'' :: t => (quotedBody? '\'' t).map fun r => (unescape '\'' r.1, r.2)
  | '"' :: t => (quotedBody? '"' t).map fun r => (unescape '"' r.1, r.2)
  | _ =>
    let (raw, rest) := s.span (· ≠ '\n')
    some (Text.trimWhere Text.isBlank (dropComment raw), rest)

/-- The result, or the place where the reading stopped. -/
def orStop {β : Type} (place : List Char) : Option β → Except (List Char) β
  | some r => .ok r
  | none => .error place

/-- Reads one line, from a character that is not blank on: a binding if there is one, and the rest. A line that
cannot be read gives the place where its reading stopped. -/
def line (s : List Char) : Except (List Char) (Option Binding × List Char) := do
  let s := dropExport s
  let (name, s) ← orStop s (name? s)
  let s := s.dropWhile isInnerBlank
  let (value, s) ← match s with
    | '=' :: t => (orStop t (value? t)).map fun r => (some r.1, r.2)
    | _ => .ok (none, s)
  let rest ← orStop s (endOfLine? s)
  return (name.map fun n => ⟨String.ofList n, value.map String.ofList⟩, rest)

/-- Reads line after line; each takes at least one character. -/
def parseFrom : Nat → List Char → List Binding
  | 0, _ => []
  | fuel + 1, s =>
    match s.dropWhile Text.isBlank with
    | [] => []
    | s =>
      match line s with
      | .ok (b, rest) => b.toList ++ parseFrom fuel rest
      | .error place => parseFrom fuel (dropLine place)

def dropMark : List Char → List Char
  | '\ufeff' :: s => s
  | s => s

def parse (text : String) : List Binding :=
  let s := Text.unifyBreaks (dropMark text.toList)
  parseFrom (s.length + 1) s

end Entail.DotEnv

/-! ## References to variables -/

namespace Entail.Reference

/-- Cuts off the rest of a reference, after its opening brace: the name, and the text in default of it. -/
def body? (s : List Char) : Option ((List Char × List Char) × List Char) :=
  let (name, s) := s.span fun c => c ≠ '\x7d' && c ≠ ':'
  match s with
  | '\x7d' :: rest => some ((name, []), rest)
  | ':' :: '-' :: s =>
    match s.span (· ≠ '\x7d') with
    | (usual, '\x7d' :: rest) => some ((name, usual), rest)
    | _ => none
  | _ => none

/-- Puts in the values of variables; each step takes at least one character. -/
def expandFrom (lookup : String → Option String) : Nat → List Char → List Char
  | 0, s => s
  | _, [] => []
  | fuel + 1, c :: s =>
    match c, s with
    | '$', '\x7b' :: t =>
      match body? t with
      | some ((name, usual), rest) =>
        ((lookup (String.ofList name)).map String.toList).getD usual ++ expandFrom lookup fuel rest
      | none => c :: expandFrom lookup fuel s
    | _, _ => c :: expandFrom lookup fuel s

def expand (lookup : String → Option String) (text : String) : String :=
  String.ofList (expandFrom lookup text.length text.toList)

end Entail.Reference
