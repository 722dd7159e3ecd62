/-!
# Positions in a text

A `Cursor` is what is left of a text and where that stands: the number of characters before it, the line and the
column, and the number of characters of the whole text. Beyond the end a cursor shows the character NUL, which no text
holds.

* `isBreak`, `isGap` : line breaks, and blanks, breaks and the end;
* `Cursor.skip`, `Cursor.skipWhile` : moving on, keeping count;
* `Cursor.left` : the number of characters that are left, by which steps through the text are bounded;
* `Cursor.lineBreak?` : takes one line break, of which a carriage return with a line feed is one.
-/

namespace Entail.Yaml

/-- The character that stands for the end of the text. -/
def endMark : Char := '\x00'

def isBreak (c : Char) : Bool :=
  c = '\n' || c = '\r' || c = '\u0085' || c = '\u2028' || c = '\u2029'

def isBreakOrEnd (c : Char) : Bool := isBreak c || c = endMark

def isSpaceOrEnd (c : Char) : Bool := isBreakOrEnd c || c = ' '

def isGap (c : Char) : Bool := isSpaceOrEnd c || c = '\t'

structure Cursor where
  rest : List Char
  index : Nat
  line : Nat
  column : Nat
  size : Nat

namespace Cursor

def start (text : List Char) : Cursor := ⟨text, 0, 0, 0, text.length⟩

def left (c : Cursor) : Nat := c.size - c.index

def ahead (c : Cursor) (n : Nat) : Char := c.rest.getD n endMark

def peek (c : Cursor) : Char := c.ahead 0

/-- The cursor behind the next character. A byte order mark takes no column. -/
def next (c : Cursor) : Cursor :=
  match c.rest with
  | [] => c
  | x :: rest =>
    if isBreak x && !(x = '\r' && rest.head? = some '\n') then ⟨rest, c.index + 1, c.line + 1, 0, c.size⟩
    else if x = '\ufeff' then ⟨rest, c.index + 1, c.line, c.column, c.size⟩
    else ⟨rest, c.index + 1, c.line, c.column + 1, c.size⟩

def skip : Nat → Cursor → Cursor
  | 0, c => c
  | n + 1, c => skip n c.next

/-- The characters ahead as far as they are of a class. -/
def run (c : Cursor) (p : Char → Bool) : List Char := c.rest.takeWhile p

def skipWhile (c : Cursor) (p : Char → Bool) : Cursor := c.skip (c.run p).length

/-- Takes a line break, which reads as a line feed unless it separates lines or paragraphs. -/
def lineBreak? (c : Cursor) : Option (Char × Cursor) :=
  if c.peek = '\r' ∧ c.ahead 1 = '\n' then some ('\n', c.skip 2)
  else if c.peek = '\r' ∨ c.peek = '\n' ∨ c.peek = '\u0085' then some ('\n', c.next)
  else if c.peek = '\u2028' ∨ c.peek = '\u2029' then some (c.peek, c.next)
  else none

/-- Moves behind a comment, if one starts here. -/
def skipComment (c : Cursor) : Cursor := if c.peek = '#' then c.skipWhile fun x => !isBreakOrEnd x else c

/-- Whether three of a character stand here with a gap behind them. -/
def hasMarker (c : Cursor) (x : Char) : Bool := c.rest.take 3 = [x, x, x] && isGap (c.ahead 3)

/-- Whether a line that separates documents starts here. -/
def atSeparator (c : Cursor) : Bool := c.hasMarker '-' || c.hasMarker '.'

end Cursor

end Entail.Yaml
