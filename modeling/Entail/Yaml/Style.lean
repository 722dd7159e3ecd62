import Entail.Yaml.Cursor
import Entail.Yaml.Kind

/-!
# How a text is written in a document

A text is written plain where reading it back as a plain scalar gives the same text, else between single quotes
where they can hold it, else between double quotes. A long text is folded at its spaces.

* `Style.ofText` : the style of a text;
* `scalarChars` : a text in its style.
-/

namespace Entail.Yaml

inductive Style where
  | plain
  | single
  | double
  deriving DecidableEq

/-- The column behind which a text is folded. -/
def foldColumn : Nat := 80

/-- The line breaks that single quotes can hold. -/
def isKeptBreak (c : Char) : Bool := c = '\n' || c = '\u0085' || c = '\u2028' || c = '\u2029'

/-- The characters that stand for themselves inside double quotes. -/
def isShown (c : Char) : Bool :=
  (' ' ≤ c && c ≤ '~') || ('\u00a0' ≤ c && c ≤ '\ufffd' && c ≠ '\ufeff')

/-- The characters that need no escape. -/
def isUnescaped (c : Char) : Bool :=
  isShown c || c = '\n' || c = '\u0085' || (0x10000 ≤ c.toNat && c.toNat < 0x10ffff)

/-- The characters that no plain text starts with. -/
def isIndicator (c : Char) : Bool := c ∈ "#,[]{}&*!|>'\"%@".toList || c = '\x60'

/-- Whether a text starts with three hyphens or three points. -/
def startsLikeSeparator (s : List Char) : Bool := s.take 3 = ['-', '-', '-'] || s.take 3 = ['.', '.', '.']

/-- Whether the rest of a text is empty or starts with a gap. -/
def startsWithGap (rest : List Char) : Bool := isGap (rest.headD endMark)

/-- Whether a colon before a gap, or a hash mark after one, occurs behind a character. -/
def hasInnerMark (before : Char) : List Char → Bool
  | [] => false
  | c :: rest => (c = ':' && startsWithGap rest) || (c = '#' && isGap before) || hasInnerMark c rest

def hasBlockMark (s : List Char) : Bool :=
  startsLikeSeparator s ||
    match s with
    | [] => false
    | c :: rest =>
      isIndicator c || ((c = '?' || c = ':' || c = '-') && startsWithGap rest) || hasInnerMark c rest

/-- Whether one of two adjacent characters is a space and the other a line break. -/
def hasSpaceAtBreak (s : List Char) : Bool :=
  (s.zip s.tail).any fun p => (p.1 = ' ' && isKeptBreak p.2) || (isKeptBreak p.1 && p.2 = ' ')

def allowsPlain (s : List Char) : Bool :=
  !(s.head? = some ' ' || s.getLast? = some ' ' || s.any isKeptBreak || !s.all isUnescaped || hasBlockMark s) &&
    Kind.ofPlain (String.ofList s) = .str

def allowsSingle (s : List Char) : Bool := !hasSpaceAtBreak s && s.all isUnescaped

def Style.ofText (s : List Char) : Style :=
  if allowsPlain s then .plain else if allowsSingle s then .single else .double

def spaces (n : Nat) : List Char := List.replicate n ' '

/-- Whether the space before a rest of a text stands alone between two other characters. -/
def isLoneSpace (before : Option Char) (rest : List Char) : Bool :=
  match before, rest with
  | some b, c :: _ => b ≠ ' ' && c ≠ ' '
  | _, _ => false

/-- A text outside double quotes: lone spaces behind the fold column become line breaks, a run of line breaks is
written with one more, and apostrophes are doubled if they close the text. -/
def foldedChars (indent : Nat) (doubled : Bool) : Nat → Option Char → List Char → List Char
  | _, _, [] => []
  | column, before, c :: rest =>
    if c = ' ' then
      if isLoneSpace before rest ∧ foldColumn < column then
        '\n' :: spaces indent ++ foldedChars indent doubled indent (some c) rest
      else c :: foldedChars indent doubled (column + 1) (some c) rest
    else if isKeptBreak c then
      let starts := !(before.map isKeptBreak).getD false
      let ends := !(rest.head?.map isKeptBreak).getD false
      (if starts ∧ c = '\n' then ['\n'] else []) ++ c :: (if ends then spaces indent else []) ++
        foldedChars indent doubled (if ends then indent else 0) (some c) rest
    else if doubled ∧ c = '\'' then c :: c :: foldedChars indent doubled (column + 2) (some c) rest
    else c :: foldedChars indent doubled (column + 1) (some c) rest

def escapeLetter? : Char → Option Char
  | '\x00' => some '0'
  | '\x07' => some 'a'
  | '\x08' => some 'b'
  | '\t' => some 't'
  | '\n' => some 'n'
  | '\x0b' => some 'v'
  | '\x0c' => some 'f'
  | '\r' => some 'r'
  | '\x1b' => some 'e'
  | '"' => some '"'
  | '\\' => some '\\'
  | '\u0085' => some 'N'
  | '\u00a0' => some '_'
  | '\u2028' => some 'L'
  | '\u2029' => some 'P'
  | _ => none

def isEscaped (c : Char) : Bool := !isShown c || c = '"' || c = '\\' || c = '\u2028' || c = '\u2029'

/-- A character behind a backslash, or its code. -/
def escapeChars (c : Char) : List Char :=
  match escapeLetter? c with
  | some x => ['\\', x]
  | none =>
    if c.toNat < 0x100 then '\\' :: 'x' :: Text.hexadecimal true 2 c.toNat
    else if c.toNat < 0x10000 then '\\' :: 'u' :: Text.hexadecimal true 4 c.toNat
    else '\\' :: 'U' :: Text.hexadecimal true 8 c.toNat

/-- A line break inside double quotes, which reads as nothing; a space behind it needs a backslash. -/
def escapedBreak (indent : Nat) (following : Option Char) : List Char × Nat :=
  let mark := if following = some ' ' then ['\\'] else []
  ('\\' :: '\n' :: spaces indent ++ mark, indent + mark.length)

/-- A text between double quotes. It is folded at spaces and at escapes, but not at its ends. -/
def escapedChars (indent : Nat) : Nat → Bool → Bool → List Char → List Char
  | _, _, _, [] => []
  | column, isFirst, afterEscape, c :: rest =>
    let isInner := !isFirst && !rest.isEmpty
    if isEscaped c then
      let e := escapeChars c
      let column := column + e.length
      if isInner ∧ foldColumn + 1 < column then
        let (fold, column) := escapedBreak indent rest.head?
        e ++ fold ++ escapedChars indent column false true rest
      else e ++ escapedChars indent column false true rest
    else if isInner ∧ (c = ' ' ∨ afterEscape) ∧ foldColumn < column then
      let (fold, column) := escapedBreak indent (some c)
      fold ++ c :: escapedChars indent (column + 1) false false rest
    else c :: escapedChars indent (column + 1) false false rest

/-- A text in its style, from a column on; its further lines stand at an indentation. -/
def scalarChars (indent column : Nat) (s : List Char) : List Char :=
  match Style.ofText s with
  | .plain => foldedChars indent false column none s
  | .single => '\'' :: foldedChars indent true (column + 1) none s ++ ['\'']
  | .double => '"' :: escapedChars indent (column + 1) true false s ++ ['"']

end Entail.Yaml
