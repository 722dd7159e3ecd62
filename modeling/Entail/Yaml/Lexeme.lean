import Entail.Value.Literal
import Entail.Yaml.Cursor
import Entail.Yaml.Token

/-!
# Tokens that carry text

Each function reads one kind of token at a cursor and gives the text and the cursor behind it: plain, quoted and
block scalars, the names of anchors and aliases, tags, and directives. A line break inside a scalar is folded to
a space, and breaks after it are kept.
-/

namespace Entail.Yaml

/-! ## Plain scalars -/

/-- The characters that structure flow collections. -/
def isFlowMark (c : Char) : Bool := c = ',' || c = '[' || c = ']' || c = '{' || c = '}'

/-- The characters of a plain scalar up to the first gap, the colon of a key, or a flow mark inside a flow. -/
def plainRun (inFlow : Bool) : List Char → List Char
  | [] => []
  | c :: rest =>
    let following := rest.headD endMark
    if isGap c || (c = ':' && (isGap following || (inFlow && isFlowMark following))) ||
      (inFlow && (isFlowMark c || c = '?')) then []
    else c :: plainRun inFlow rest

/-- The line breaks from here on with the spaces between them; none at a separator of documents. -/
def plainBreaks : Nat → Cursor → Option (List Char × Cursor)
  | 0, c => some ([], c)
  | fuel + 1, c =>
    if c.peek = ' ' then plainBreaks fuel c.next
    else
      match c.lineBreak? with
      | none => some ([], c)
      | some (b, c) => if c.atSeparator then none else (plainBreaks fuel c).map fun r => (b :: r.1, r.2)

/-- What a line break and the breaks after it read as. -/
def foldBreaks (first : Char) (breaks : List Char) : List Char :=
  if first ≠ '\n' then first :: breaks else if breaks.isEmpty then [' '] else breaks

/-- The gap behind a run of a plain scalar: what it reads as, whether it holds a line break, and where it ends.
Nothing is read before a separator of documents. -/
def plainGap (c : Cursor) : List Char × Bool × Cursor :=
  let spaces := c.run (· = ' ')
  let c := c.skip spaces.length
  match c.lineBreak? with
  | none => (spaces, false, c)
  | some (b, c) =>
    if c.atSeparator then ([], true, c)
    else
      match plainBreaks (c.left + 1) c with
      | some (breaks, c) => (foldBreaks b breaks, true, c)
      | none => ([], true, c)

/-- The runs of a plain scalar with the gaps between them; gives also whether the last gap holds a line break. -/
def plainRuns (inFlow : Bool) (indent : Int) : Nat → List Char → Bool → Cursor → (List Char × Bool) × Cursor
  | 0, _, broken, c => (([], broken), c)
  | fuel + 1, gap, broken, c =>
    let run := if c.peek = '#' then [] else plainRun inFlow c.rest
    if run.isEmpty then (([], broken), c)
    else
      let (gap', broken, c) := plainGap (c.skip run.length)
      if gap'.isEmpty || c.peek = '#' || (!inFlow && (c.column : Int) < indent) then ((gap ++ run, broken), c)
      else
        let r := plainRuns inFlow indent fuel gap' broken c
        ((gap ++ run ++ r.1.1, r.1.2), r.2)

/-- A plain scalar of a block at the given indentation, and whether a line ends behind it. -/
def plainScalar (inFlow : Bool) (indent : Int) (c : Cursor) : (List Char × Bool) × Cursor :=
  plainRuns inFlow (indent + 1) (c.left + 1) [] false c

/-! ## Quoted scalars -/

def escapedChar? : Char → Option Char
  | '0' => some '\x00'
  | 'a' => some '\x07'
  | 'b' => some '\x08'
  | 't' => some '\t'
  | '\t' => some '\t'
  | 'n' => some '\n'
  | 'v' => some '\x0b'
  | 'f' => some '\x0c'
  | 'r' => some '\r'
  | 'e' => some '\x1b'
  | ' ' => some ' '
  | '"' => some '"'
  | '\\' => some '\\'
  | '/' => some '/'
  | 'N' => some '\u0085'
  | '_' => some '\u00a0'
  | 'L' => some '\u2028'
  | 'P' => some '\u2029'
  | _ => none

/-- The number of digits behind a backslash and a letter that start a code. -/
def codeWidth? : Char → Option Nat
  | 'x' => some 2
  | 'u' => some 4
  | 'U' => some 8
  | _ => none

/-- The blanks and line breaks at the start of a line inside quotes, of which the breaks are kept. -/
def quotedBreaks : Nat → Cursor → Except Fault (List Char × Cursor)
  | 0, c => .ok ([], c)
  | fuel + 1, c =>
    if c.atSeparator then .error .quotation
    else
      let c := c.skipWhile fun x => x = ' ' || x = '\t'
      match c.lineBreak? with
      | none => .ok ([], c)
      | some (b, c) => (quotedBreaks fuel c).map fun r => (b :: r.1, r.2)

/-- A gap inside quotes. -/
def quotedGap (c : Cursor) : Except Fault (List Char × Cursor) :=
  let blanks := c.run fun x => x = ' ' || x = '\t'
  let c := c.skip blanks.length
  if c.peek = endMark then .error .quotation
  else
    match c.lineBreak? with
    | none => .ok (blanks, c)
    | some (b, c) => (quotedBreaks (c.left + 1) c).map fun r => (foldBreaks b r.1, r.2)

def codePointBound : Nat := 0x110000

/-- What an escape reads as, at the character behind its backslash. Half a surrogate pair is no character and reads as
the one that stands in for such. -/
def escape (c : Cursor) : Except Fault (List Char × Cursor) :=
  match escapedChar? c.peek, codeWidth? c.peek, c.lineBreak? with
  | some x, _, _ => .ok ([x], c.next)
  | none, some width, _ =>
    let digits := c.next.rest.take width
    match Text.ofDigits? 16 digits with
    | some n =>
      if digits.length < width then .error .escape
      else if codePointBound ≤ n then .error (.codePoint n)
      else .ok ([if n.isValidChar then Char.ofNat n else '\ufffd'], c.next.skip width)
    | none => .error .escape
  | none, none, some (_, c) => quotedBreaks (c.left + 1) c
  | none, none, none => .error .escape

/-- Whether a character inside quotes stands for itself whatever the quotes are. -/
def isQuotedText (c : Char) : Bool := !isGap c && c ≠ '\'' && c ≠ '"' && c ≠ '\\'

/-- The text inside quotes up to the next gap or the closing mark. -/
def quotedRun (mark : Char) : Nat → Cursor → Except Fault (List Char × Cursor)
  | 0, c => .ok ([], c)
  | fuel + 1, c =>
    let x := c.peek
    if isQuotedText x then (quotedRun mark fuel c.next).map fun r => (x :: r.1, r.2)
    else if mark = '\'' ∧ x = '\'' ∧ c.ahead 1 = '\'' then
      (quotedRun mark fuel (c.skip 2)).map fun r => (x :: r.1, r.2)
    else if (mark = '"' ∧ x = '\'') ∨ (mark = '\'' ∧ (x = '"' ∨ x = '\\')) then
      (quotedRun mark fuel c.next).map fun r => (x :: r.1, r.2)
    else if mark = '"' ∧ x = '\\' then do
      let (text, c) ← escape c.next
      let r ← quotedRun mark fuel c
      return (text ++ r.1, r.2)
    else .ok ([], c)

/-- Runs and gaps inside quotes up to the closing mark, which is taken. -/
def quotedRuns (mark : Char) : Nat → Cursor → Except Fault (List Char × Cursor)
  | 0, _ => .error .quotation
  | fuel + 1, c => do
    let (run, c) ← quotedRun mark (c.left + 1) c
    if c.peek = mark then return (run, c.next)
    let (gap, c) ← quotedGap c
    let r ← quotedRuns mark fuel c
    return (run ++ gap ++ r.1, r.2)

def quotedScalar (c : Cursor) : Except Fault (List Char × Cursor) := quotedRuns c.peek (c.left + 1) c.next

/-! ## Block scalars -/

/-- What becomes of the line breaks at the end of a block scalar. -/
inductive Chomping where
  | clip
  | strip
  | keep
  deriving DecidableEq

/-- The sign that says what becomes of the last line breaks. -/
def chomping? : Char → Option Chomping
  | '+' => some .keep
  | '-' => some .strip
  | _ => none

/-- The digit that says how far a block scalar is indented. -/
def increment? (c : Char) : Option Nat := if c.isDigit then some (c.toNat - 48) else none

/-- The signs at the head of a block scalar, in either order. -/
def blockSigns (c : Cursor) : Except Fault ((Chomping × Option Nat) × Cursor) :=
  let (signs, c) := match chomping? c.peek, increment? c.peek with
    | some ch, _ =>
      match increment? c.next.peek with
      | some n => ((ch, some n), c.skip 2)
      | none => ((ch, none), c.next)
    | none, some n =>
      match chomping? c.next.peek with
      | some ch => ((ch, some n), c.skip 2)
      | none => ((.clip, some n), c.next)
    | none, none => ((.clip, none), c)
  if signs.2 = some 0 ∨ !isSpaceOrEnd c.peek then .error .blockHeader else .ok (signs, c)

/-- The rest of a line that may hold nothing but a comment. -/
def restOfLine (f : Fault) (c : Cursor) : Except Fault Cursor :=
  let c := (c.skipWhile (· = ' ')).skipComment
  match c.lineBreak? with
  | some (_, c) => .ok c
  | none => if c.peek = endMark then .ok c else .error f

/-- The empty lines in front of a block scalar, and the widest indentation seen there. -/
def leadingBreaks : Nat → Nat → Cursor → (List Char × Nat) × Cursor
  | 0, widest, c => (([], widest), c)
  | fuel + 1, widest, c =>
    if c.peek = ' ' then leadingBreaks fuel (max widest c.next.column) c.next
    else
      match c.lineBreak? with
      | none => (([], widest), c)
      | some (b, c) =>
        let r := leadingBreaks fuel widest c
        ((b :: r.1.1, r.1.2), r.2)

/-- Moves over spaces up to a column. -/
def indentTo (indent : Nat) : Nat → Cursor → Cursor
  | 0, c => c
  | fuel + 1, c => if c.column < indent ∧ c.peek = ' ' then indentTo indent fuel c.next else c

/-- The empty lines inside a block scalar, and the indentation of the line behind them. -/
def innerBreaks (indent : Nat) : Nat → Cursor → List Char × Cursor
  | 0, c => ([], c)
  | fuel + 1, c =>
    let c := indentTo indent indent c
    match c.lineBreak? with
    | none => ([], c)
    | some (b, c) =>
      let r := innerBreaks indent fuel c
      (b :: r.1, r.2)

/-- The lines of a block scalar; `breaks` are the empty lines in front of the next one. -/
def blockLines (folded : Bool) (indent : Nat) (ch : Chomping) :
    Nat → List Char → Option Char → Cursor → List Char × Cursor
  | 0, _, _, c => ([], c)
  | fuel + 1, breaks, lineEnd, c =>
    if c.column = indent ∧ c.peek ≠ endMark then
      let leadingBlank := c.peek = ' ' ∨ c.peek = '\t'
      let text := c.run fun x => !isBreakOrEnd x
      let c := c.skip text.length
      let (lineEnd, c) := match c.lineBreak? with
        | some (b, c) => (some b, c)
        | none => (none, c)
      let (breaks', c) := innerBreaks indent (c.left + 1) c
      let joint :=
        if c.column = indent ∧ c.peek ≠ endMark then
          if folded ∧ lineEnd = some '\n' ∧ ¬leadingBlank ∧ c.peek ≠ ' ' ∧ c.peek ≠ '\t' then
            (if breaks'.isEmpty then [' '] else [])
          else lineEnd.toList
        else []
      let r := blockLines folded indent ch fuel breaks' lineEnd c
      (breaks ++ text ++ joint ++ r.1, r.2)
    else
      (match ch with
        | .strip => []
        | .clip => lineEnd.toList
        | .keep => lineEnd.toList ++ breaks, c)

def blockScalar (indent : Int) (c : Cursor) : Except Fault (List Char × Cursor) := do
  let folded := c.peek = '>'
  let ((ch, increment), c) ← blockSigns c.next
  let c ← restOfLine .blockHeader c
  let least := max 1 (indent + 1).toNat
  let fuel := c.left + 1
  match increment with
  | none =>
    let ((breaks, widest), c) := leadingBreaks fuel 0 c
    return blockLines folded (max least widest) ch fuel breaks none c
  | some n =>
    let (breaks, c) := innerBreaks (least + n - 1) fuel c
    return blockLines folded (least + n - 1) ch fuel breaks none c

/-! ## Names, tags and directives -/

def isNameChar (c : Char) : Bool := c.isAlphanum || c = '-' || c = '_'

def anchorName (c : Cursor) : Except Fault (List Char × Cursor) :=
  let name := c.next.run isNameChar
  let c := c.next.skip name.length
  let closes := isGap c.peek || c.peek ∈ ['?', ':', ',', ']', '}', '%', '@', '\x60']
  if name.isEmpty || !closes then .error .anchor else .ok (name, c)

/-- The characters of tags, percent signs apart. -/
def isTagChar (c : Char) : Bool :=
  c.isAlphanum || c ∈ "-;/?:@&=+$,_.!~*'()[]".toList

/-- The bytes written as percent signs with two digits each. -/
def percentBytes : Nat → Cursor → Except Fault (List UInt8 × Cursor)
  | 0, c => .ok ([], c)
  | fuel + 1, c =>
    if c.peek = '%' then
      match Text.ofDigits? 16 (c.next.rest.take 2) with
      | some n =>
        if 2 ≤ c.next.left then do
          let r ← percentBytes fuel (c.skip 3)
          return (UInt8.ofNat n :: r.1, r.2)
        else .error .tag
      | none => .error .tag
    else .ok ([], c)

def tagText : Nat → Cursor → Except Fault (List Char × Cursor)
  | 0, c => .ok ([], c)
  | fuel + 1, c =>
    if c.peek = '%' then do
      let (bytes, c) ← percentBytes fuel c
      match String.fromUTF8? ⟨bytes.toArray⟩ with
      | some s =>
        let r ← tagText fuel c
        return (s.toList ++ r.1, r.2)
      | none => throw .tag
    else if isTagChar c.peek then (tagText fuel c.next).map fun r => (c.peek :: r.1, r.2)
    else .ok ([], c)

/-- The text of a tag, which must not be empty. -/
def tagSuffix (c : Cursor) : Except Fault (List Char × Cursor) := do
  let r ← tagText (c.left + 1) c
  if r.1.isEmpty then throw .tag
  return r

/-- A handle: an exclamation mark alone, or a name between two. -/
def tagHandle (c : Cursor) : Except Fault (List Char × Cursor) :=
  if c.peek ≠ '!' then .error .tag
  else if c.ahead 1 = ' ' then .ok (['!'], c.next)
  else
    let name := c.next.run isNameChar
    let c := c.next.skip name.length
    if c.peek = '!' then .ok ('!' :: name ++ ['!'], c.next) else .error .tag

def tag (c : Cursor) : Except Fault (Tag × Cursor) := do
  let (t, c) ←
    if c.ahead 1 = '<' then do
      let (suffix, c) ← tagSuffix (c.skip 2)
      if c.peek ≠ '>' then throw .tag
      pure (Tag.mk none (String.ofList suffix), c.next)
    else if isGap (c.ahead 1) then pure (Tag.mk none "!", c.next)
    else do
      let hasHandle := (c.next.run fun x => !isSpaceOrEnd x).contains '!'
      let (handle, c) ← if hasHandle then tagHandle c else pure (['!'], c.next)
      let (suffix, c) ← tagSuffix c
      pure (Tag.mk (some (String.ofList handle)) (String.ofList suffix), c)
  if !isSpaceOrEnd c.peek then throw .tag
  return (t, c)

/-- A run of digits, which must be neither empty nor too long. -/
def digits (c : Cursor) : Except Fault (Nat × Cursor) :=
  let ds := c.run Char.isDigit
  if Value.digitLimit < ds.length then .error (.versionLength ds.length)
  else
    match Text.ofDigits? 10 ds with
    | some n => if ds.isEmpty then .error .directive else .ok (n, c.skip ds.length)
    | none => .error .directive

/-- What follows the name of a directive. -/
def directiveBody (name : List Char) (c : Cursor) : Except Fault (Directive × Cursor) :=
  if name = "YAML".toList then do
    let (major, c) ← digits (c.skipWhile (· = ' '))
    if c.peek ≠ '.' then throw .directive
    let (_, c) ← digits c.next
    if !isSpaceOrEnd c.peek then throw .directive
    return (.version major, c)
  else if name = "TAG".toList then do
    let (handle, c) ← tagHandle (c.skipWhile (· = ' '))
    if c.peek ≠ ' ' then throw .directive
    let (beginning, c) ← tagSuffix (c.skipWhile (· = ' '))
    if !isSpaceOrEnd c.peek then throw .directive
    return (.tag (String.ofList handle) (String.ofList beginning), c)
  else .ok (.other, c.skipWhile fun x => !isBreakOrEnd x)

/-- A directive, at its percent sign; the line must end behind it. -/
def directive (c : Cursor) : Except Fault (Directive × Cursor) := do
  let name := c.next.run isNameChar
  let c := c.next.skip name.length
  if name.isEmpty || !isSpaceOrEnd c.peek then throw .directive
  let (d, c) ← directiveBody name c
  let c ← restOfLine .directive c
  return (d, c)

end Entail.Yaml
