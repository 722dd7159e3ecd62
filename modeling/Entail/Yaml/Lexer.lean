import Entail.Yaml.Lexeme

/-!
# From text to tokens

A `Lexer` reads a text token by token. Indentation opens and closes blocks, and a token that turns out to be a
key, because a colon follows on its line, gets a key token in front of it afterwards: every token with which a
key may start is kept as a `Candidate` until its line ends.

* `Lexer.approach`, `Lexer.token` : close the blocks that end before a token, and read it;
* `tokens` : the tokens of a whole text, as `Lexed`: up to its end or to a fault.
-/

namespace Entail.Yaml

/-- Where a key may have started: the number of tokens before it and its position. In a block at its own
indentation nothing but a key may stand, so that the candidate is required. -/
structure Candidate where
  place : Nat
  isRequired : Bool
  index : Nat
  line : Nat
  column : Nat

/-- The tokens of a text, of which a fault may be the last. -/
structure Lexed where
  tokens : List Token
  fault : Option Fault

/-- The tokens read so far, the last first, and their number. -/
structure Trail where
  tokens : List Token := []
  count : Nat := 0

namespace Trail

def add (ts : Trail) (t : Token) : Trail := ⟨t :: ts.tokens, ts.count + 1⟩

def insert (ts : Trail) (place : Nat) (t : Token) : Trail := ⟨ts.tokens.insertIdx (ts.count - place) t, ts.count + 1⟩

def firsts (ts : Trail) (n : Nat) : List Token := ts.tokens.reverse.take n

end Trail

structure Lexer where
  cursor : Cursor
  flowDepth : Nat := 0
  indent : Int := -1
  outer : List Int := []
  keysAllowed : Bool := true
  candidates : List (Nat × Candidate) := []
  trail : Trail := {}

namespace Lexer

def inFlow (l : Lexer) : Bool := l.flowDepth ≠ 0

def emit (l : Lexer) (t : Token) (c : Cursor) : Lexer := { l with trail := l.trail.add t, cursor := c }

def allowing (l : Lexer) (keys : Bool) : Lexer := { l with keysAllowed := keys }

/-! ## Candidates -/

/-- The length of the longest key that needs no mark of its own. -/
def keyReach : Nat := 1024

def candidate? (l : Lexer) : Option Candidate := l.candidates.lookup l.flowDepth

/-- The lexer without the candidate of the present flow. -/
def forgetCandidate (l : Lexer) : Lexer :=
  { l with candidates := l.candidates.filter fun k => k.1 ≠ l.flowDepth }

/-- Gives up the candidate of the present flow, which must not be required. -/
def dropCandidate (l : Lexer) : Except Fault Lexer :=
  match l.candidate? with
  | some k => if k.isRequired then .error .key else .ok l.forgetCandidate
  | none => .ok l

/-- Notes that a key may start here. -/
def saveCandidate (l : Lexer) : Except Fault Lexer :=
  if l.keysAllowed then do
    let l ← l.dropCandidate
    let c := l.cursor
    let k : Candidate := ⟨l.trail.count, !l.inFlow && l.indent == (c.column : Int), c.index, c.line, c.column⟩
    return { l with candidates := (l.flowDepth, k) :: l.candidates }
  else .ok l

/-- Whether a key that starts at a candidate can no longer end here. -/
def isStale (l : Lexer) (k : Candidate) : Bool := k.line != l.cursor.line || k.index + keyReach < l.cursor.index

/-- Gives up the candidates that are out of reach. -/
def dropStale (l : Lexer) : Except Fault Lexer :=
  if l.candidates.any fun k => l.isStale k.2 && k.2.isRequired then .error .key
  else .ok { l with candidates := l.candidates.filter fun k => !l.isStale k.2 }

/-! ## Indentation -/

/-- Closes blocks, of which the first is the innermost, down to a column. -/
def closeBlocks (column : Int) : Int → List Int → Trail → Int × List Int × Trail
  | indent, [], ts => (indent, [], ts)
  | indent, i :: outer, ts =>
    if column < indent then closeBlocks column i outer (ts.add .blockEnd) else (indent, i :: outer, ts)

/-- Closes the blocks that are indented further than a column, unless a flow is open. -/
def unwind (l : Lexer) (column : Int) : Lexer :=
  if l.inFlow then l
  else
    let (indent, outer, ts) := closeBlocks column l.indent l.outer l.trail
    { l with indent := indent, outer := outer, trail := ts }

/-- Opens a block at a column, unless one is open there; its first token takes the given place. -/
def openBlock (l : Lexer) (column place : Nat) (t : Token) : Lexer :=
  if l.indent < (column : Int) then
    { l with indent := column, outer := l.indent :: l.outer, trail := l.trail.insert place t }
  else l

/-! ## One token -/

/-- A directive, or a line that separates documents: all blocks end before it. -/
def topLevel (l : Lexer) (t : Token) (c : Cursor) : Except Fault Lexer := do
  let l ← (l.unwind (-1)).dropCandidate
  return (l.allowing false).emit t c

def openFlow (l : Lexer) (t : Token) : Except Fault Lexer := do
  let l ← l.saveCandidate
  return ({ l with flowDepth := l.flowDepth + 1 }.allowing true).emit t l.cursor.next

def closeFlow (l : Lexer) (t : Token) : Except Fault Lexer := do
  let l ← l.dropCandidate
  if !l.inFlow then throw .misplaced
  return ({ l with flowDepth := l.flowDepth - 1 }.allowing false).emit t l.cursor.next

def flowEntry (l : Lexer) : Except Fault Lexer := do
  let l ← l.dropCandidate
  return (l.allowing true).emit .flowEntry l.cursor.next

/-- Opens a block here for an entry or a key with a mark of its own. -/
def openHere (l : Lexer) (t : Token) : Except Fault Lexer :=
  if l.inFlow then .ok l
  else if l.keysAllowed then .ok (l.openBlock l.cursor.column l.trail.count t)
  else .error .misplaced

def blockEntry (l : Lexer) : Except Fault Lexer := do
  let l ← (← l.openHere .blockSequenceStart).dropCandidate
  return (l.allowing true).emit .blockEntry l.cursor.next

def markedKey (l : Lexer) : Except Fault Lexer := do
  let l ← (← l.openHere .blockMappingStart).dropCandidate
  return (l.allowing !l.inFlow).emit .key l.cursor.next

/-- The colon of a value. The candidate of the present flow, if there is one, turns out to be its key. -/
def value (l : Lexer) : Except Fault Lexer :=
  match l.candidate? with
  | some k =>
    let l := l.forgetCandidate
    let l := { l with trail := l.trail.insert k.place .key }
    let l := if l.inFlow then l else l.openBlock k.column k.place .blockMappingStart
    .ok ((l.allowing false).emit .value l.cursor.next)
  | none => do
    let l ← (← l.openHere .blockMappingStart).dropCandidate
    return (l.allowing !l.inFlow).emit .value l.cursor.next

/-- A token with which a key may start. -/
def keyStart (l : Lexer) (read : Cursor → Except Fault (Token × Cursor)) : Except Fault Lexer := do
  let l ← l.saveCandidate
  let (t, c) ← read l.cursor
  return (l.allowing false).emit t c

def block (l : Lexer) : Except Fault Lexer := do
  let l ← l.dropCandidate
  let (text, c) ← blockScalar l.indent l.cursor
  return (l.allowing true).emit (.scalar (String.ofList text) false) c

/-- A plain scalar, after which a key may start if it ends with its line. -/
def plain (l : Lexer) : Except Fault Lexer := do
  let l ← l.saveCandidate
  let ((text, lineEnds), c) := plainScalar l.inFlow l.indent l.cursor
  return (l.allowing lineEnds).emit (.scalar (String.ofList text) true) c

/-- Whether a plain scalar may start with a character, given the one behind it. -/
def startsPlain (inFlow : Bool) (x following : Char) : Bool :=
  !(isGap x || x ∈ "-?:,[]{}#&*!|>'\"%@".toList || x = '\x60') ||
    (!isGap following && (x = '-' || (!inFlow && (x = '?' || x = ':'))))

def token (l : Lexer) : Except Fault Lexer :=
  let c := l.cursor
  let atGap := isGap (c.ahead 1)
  if c.peek = '%' ∧ c.column = 0 then do
    let (d, c) ← directive c
    l.topLevel (.directive d) c
  else if c.column = 0 ∧ c.hasMarker '-' then l.topLevel .documentStart (c.skip 3)
  else if c.column = 0 ∧ c.hasMarker '.' then l.topLevel .documentEnd (c.skip 3)
  else if c.peek = '[' then l.openFlow .flowSequenceStart
  else if c.peek = '{' then l.openFlow .flowMappingStart
  else if c.peek = ']' then l.closeFlow .flowSequenceEnd
  else if c.peek = '}' then l.closeFlow .flowMappingEnd
  else if c.peek = ',' then l.flowEntry
  else if c.peek = '-' ∧ atGap then l.blockEntry
  else if c.peek = '?' ∧ (l.inFlow ∨ atGap) then l.markedKey
  else if c.peek = ':' ∧ (l.inFlow ∨ atGap) then l.value
  else if c.peek = '*' then l.keyStart fun c => (anchorName c).map fun r => (.alias (String.ofList r.1), r.2)
  else if c.peek = '&' then l.keyStart fun c => (anchorName c).map fun r => (.anchor (String.ofList r.1), r.2)
  else if c.peek = '!' then l.keyStart fun c => (tag c).map fun r => (.tag r.1, r.2)
  else if (c.peek = '|' ∨ c.peek = '>') ∧ !l.inFlow then l.block
  else if c.peek = '\'' ∨ c.peek = '"' then
    l.keyStart fun c => (quotedScalar c).map fun r => (.scalar (String.ofList r.1) false, r.2)
  else if startsPlain l.inFlow c.peek (c.ahead 1) then l.plain
  else .error .character

/-- Moves to the next token; a line break in a block allows a key behind it. -/
def skipGap (inFlow : Bool) : Nat → Bool → Cursor → Bool × Cursor
  | 0, keys, c => (keys, c)
  | fuel + 1, keys, c =>
    let c := (c.skipWhile (· = ' ')).skipComment
    match c.lineBreak? with
    | some (_, c) => skipGap inFlow fuel (keys || !inFlow) c
    | none => (keys, c)

/-- Moves to the next token and closes what ends before it. -/
def approach (l : Lexer) : Except Fault Lexer := do
  let c := if l.cursor.index = 0 ∧ l.cursor.peek = '\ufeff' then l.cursor.next else l.cursor
  let (keys, c) := skipGap l.inFlow (c.left + 1) l.keysAllowed c
  let l ← { l with cursor := c, keysAllowed := keys }.dropStale
  return l.unwind c.column

/-- The tokens in front of which none can come any more, because no key may start before them. -/
def settled (l : Lexer) : List Token :=
  let live := l.candidates.filter fun k => !l.isStale k.2
  l.trail.firsts (live.foldl (fun n k => min n k.2.place) l.trail.count)

/-- Reads tokens up to the end or to a fault; each takes at least one character. -/
def run : Nat → Lexer → Lexed
  | 0, l => ⟨l.settled, some .misplaced⟩
  | fuel + 1, l =>
    match l.approach with
    | .error f => ⟨l.settled, some f⟩
    | .ok ahead =>
      if ahead.cursor.peek = endMark then
        match (ahead.unwind (-1)).dropCandidate with
        | .error f => ⟨l.settled, some f⟩
        | .ok done => ⟨done.trail.tokens.reverse, none⟩
      else
        match ahead.token with
        | .error f => ⟨l.settled, some f⟩
        | .ok next => run fuel next

end Lexer

def isAdmissible (c : Char) : Bool :=
  let n := c.toNat
  n = 9 || n = 10 || n = 13 || (0x20 ≤ n && n ≤ 0x7e) || n = 0x85 || (0xa0 ≤ n && n ≤ 0xfffd) || 0x10000 ≤ n

def tokens (text : List Char) : Lexed :=
  if text.all isAdmissible then Lexer.run (text.length + 2) { cursor := .start text } else ⟨[], some .character⟩

end Entail.Yaml
