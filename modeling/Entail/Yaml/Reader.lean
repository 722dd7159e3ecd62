import Entail.Yaml.Graph
import Entail.Yaml.Lexer

/-!
# From tokens to nodes

A `Reader` follows the grammar of blocks and flows and makes a graph of nodes; an alias stands for the node that its
anchor named before, which may still be open. A fault of the text is met when the token in its place is asked for, so
that faults of the grammar before it come first.

* `Reader.node` : one node;
* `Graph.ofText` : the root and the nodes of a text, which holds at most one document.
-/

namespace Entail.Yaml

/-- The tokens ahead and the fault behind them, what tag handles stand for, the nodes that anchors name, and the nodes
read so far. -/
structure Reader where
  tokens : List Token
  fault : Option Fault
  handles : List (String × String) := []
  anchors : List (String × Nat) := []
  graph : Graph := #[]

namespace Reader

def next (r : Reader) : Reader := { r with tokens := r.tokens.tail }

def peek (r : Reader) : Except Fault (Option Token) :=
  match r.tokens, r.fault with
  | t :: _, _ => .ok (some t)
  | [], none => .ok none
  | [], some f => .error f

def sees (r : Reader) (p : Token → Bool) : Except Fault Bool := do return ((← r.peek).map p).getD false

def isAt (r : Reader) (ts : List Token) : Except Fault Bool := r.sees (ts.contains ·)

/-- Takes a token that must come next. -/
def expect (r : Reader) (t : Token) : Except Fault Reader := do
  if ← r.isAt [t] then return r.next else throw .misplaced

/-! ## Nodes -/

def add (r : Reader) (kind : Kind) (content : Content) : Nat × Reader :=
  let (n, g) := r.graph.add kind content
  (n, { r with graph := g })

def fill (r : Reader) (n : Nat) (content : Content) : Reader := { r with graph := r.graph.fill n content }

/-- A node that is not written out. -/
def addEmpty (r : Reader) : Nat × Reader := r.add (.ofPlain "") (.scalar "")

/-! ## Properties of a node -/

def anchor (r : Reader) : Except Fault (Option String × Reader) := do
  match ← r.peek with
  | some (.anchor a) => return (some a, r.next)
  | _ => return (none, r)

def tag (r : Reader) : Except Fault (Option Tag × Reader) := do
  match ← r.peek with
  | some (.tag t) => return (some t, r.next)
  | _ => return (none, r)

/-- An anchor and a tag in either order, each at most once. -/
def properties (r : Reader) : Except Fault ((Option String × Option Tag) × Reader) := do
  let (a, r) ← r.anchor
  let (t, r) ← r.tag
  match a, t with
  | none, some t =>
    let (a, r) ← r.anchor
    return ((a, some t), r)
  | a, t => return ((a, t), r)

def fullTag (r : Reader) (t : Tag) : Except Fault String :=
  match t.handle with
  | none => .ok t.suffix
  | some h =>
    match r.handles.lookup h with
    | some beginning => .ok (beginning ++ t.suffix)
    | none => .error .tag

/-- The tag that leaves the kind open. -/
def openTag : String := "!"

/-- Gives an anchor the next node; an anchor has one node. -/
def declare (r : Reader) : Option String → Except Fault Reader
  | none => .ok r
  | some a =>
    if (r.anchors.lookup a).isSome then .error .repeatedAnchor
    else .ok { r with anchors := (a, r.graph.size) :: r.anchors }

def named (r : Reader) (a : String) : Except Fault Nat :=
  match r.anchors.lookup a with
  | some n => .ok n
  | none => .error .unknownAlias

/-- The kind of a scalar: what its tag says, or else what a plain text shows. -/
def scalarKind (tag : Option String) (text : String) (isPlain : Bool) : Kind :=
  match tag with
  | none => if isPlain then .ofPlain text else .str
  | some t => if t = openTag then .ofPlain text else .ofTag t

/-- The kind of a collection: what its tag says, or else the usual one. -/
def collectionKind (tag : Option String) (usual : Kind) : Kind :=
  match tag with
  | none => usual
  | some t => if t = openTag then usual else .ofTag t

/-- Nothing, which is a node only if it has properties. -/
def emptyContent (hasProperties : Bool) (tag : Option String) (r : Reader) : Except Fault (Nat × Reader) :=
  if hasProperties then .ok (r.add (scalarKind tag "" tag.isNone) (.scalar "")) else .error .misplaced

def listNode (tag : Option String) (items : Reader → Except Fault (List Nat × Reader)) (r : Reader) :
    Except Fault (Nat × Reader) := do
  let (n, r) := r.add (collectionKind tag .seq) (.list [])
  let (ns, r) ← items r
  return (n, r.fill n (.list ns))

def mapNode (tag : Option String) (entries : Reader → Except Fault (List (Nat × Nat) × Reader)) (r : Reader) :
    Except Fault (Nat × Reader) := do
  let (n, r) := r.add (collectionKind tag .map) (.map [])
  let (es, r) ← entries r
  return (n, r.fill n (.map es))

/-! ## The grammar -/

mutual

/-- A node. Block collections start one only in a block, and the entries of a list without indentation of its
own only behind a key. -/
def node : Nat → Bool → Bool → Reader → Except Fault (Nat × Reader)
  | 0, _, _, _ => .error .misplaced
  | fuel + 1, inBlock, bare, r => do
    match ← r.peek with
    | some (.alias a) => return (← r.named a, r.next)
    | _ =>
      let ((anchor, tag), r) ← r.properties
      let tag ← tag.mapM r.fullTag
      let following ← r.peek
      let r ← r.declare anchor
      content fuel inBlock bare (anchor.isSome || tag.isSome) tag following r

/-- What a node holds, after its properties, given the token that comes next. -/
def content : Nat → Bool → Bool → Bool → Option String → Option Token → Reader → Except Fault (Nat × Reader)
  | 0, _, _, _, _, _, _ => .error .misplaced
  | fuel + 1, inBlock, bare, hasProperties, tag, following, r =>
    match following with
    | some (.scalar text isPlain) => .ok (r.next.add (scalarKind tag text isPlain) (.scalar text))
    | some .blockEntry => if bare then listNode tag (bareEntries fuel) r else emptyContent hasProperties tag r
    | some .flowSequenceStart => listNode tag (flowItems fuel true) r.next
    | some .flowMappingStart => mapNode tag (flowEntries fuel true) r.next
    | some .blockSequenceStart =>
      if inBlock then listNode tag (blockEntries fuel) r.next else emptyContent hasProperties tag r
    | some .blockMappingStart =>
      if inBlock then mapNode tag (blockPairs fuel) r.next else emptyContent hasProperties tag r
    | _ => emptyContent hasProperties tag r

/-- A node, or an empty one before certain tokens. -/
def nodeUnless : Nat → Bool → Bool → List Token → Reader → Except Fault (Nat × Reader)
  | 0, _, _, _, _ => .error .misplaced
  | fuel + 1, inBlock, bare, ends, r => do
    if ← r.isAt ends then return r.addEmpty else node fuel inBlock bare r

def blockEntries : Nat → Reader → Except Fault (List Nat × Reader)
  | 0, _ => .error .misplaced
  | fuel + 1, r => do
    if ← r.isAt [.blockEntry] then
      let (n, r) ← nodeUnless fuel true false [.blockEntry, .blockEnd] r.next
      let (ns, r) ← blockEntries fuel r
      return (n :: ns, r)
    else return ([], ← r.expect .blockEnd)

/-- Entries that stand at the indentation of the key before them. -/
def bareEntries : Nat → Reader → Except Fault (List Nat × Reader)
  | 0, _ => .error .misplaced
  | fuel + 1, r => do
    if ← r.isAt [.blockEntry] then
      let (n, r) ← nodeUnless fuel true false [.blockEntry, .key, .value, .blockEnd] r.next
      let (ns, r) ← bareEntries fuel r
      return (n :: ns, r)
    else return ([], r)

/-- The value behind a key of a block; a missing one is empty. -/
def blockValue : Nat → Reader → Except Fault (Nat × Reader)
  | 0, _ => .error .misplaced
  | fuel + 1, r => do
    if ← r.isAt [.value] then nodeUnless fuel true true [.key, .value, .blockEnd] r.next else return r.addEmpty

def blockPairs : Nat → Reader → Except Fault (List (Nat × Nat) × Reader)
  | 0, _ => .error .misplaced
  | fuel + 1, r => do
    if ← r.isAt [.key] then
      let (k, r) ← nodeUnless fuel true true [.key, .value, .blockEnd] r.next
      let (v, r) ← blockValue fuel r
      let (es, r) ← blockPairs fuel r
      return ((k, v) :: es, r)
    else return ([], ← r.expect .blockEnd)

/-- The value behind a key of a flow, which ends with the given token; a missing one is empty. -/
def flowValue : Nat → Token → Reader → Except Fault (Nat × Reader)
  | 0, _, _ => .error .misplaced
  | fuel + 1, ending, r => do
    if ← r.isAt [.value] then nodeUnless fuel false false [.flowEntry, ending] r.next else return r.addEmpty

/-- A key and its value in a flow that ends with the given token, at the mark of the key. -/
def flowPair : Nat → Token → Reader → Except Fault ((Nat × Nat) × Reader)
  | 0, _, _ => .error .misplaced
  | fuel + 1, ending, r => do
    let (k, r) ← nodeUnless fuel false false [.value, .flowEntry, ending] r.next
    let (v, r) ← flowValue fuel ending r
    return ((k, v), r)

/-- Items of a flow up to its end, with commas between them; a key and its value are a mapping of their own. -/
def flowItems : Nat → Bool → Reader → Except Fault (List Nat × Reader)
  | 0, _, _ => .error .misplaced
  | fuel + 1, isFirst, r => do
    if ← r.isAt [.flowSequenceEnd] then return ([], r.next)
    let r ← if isFirst then pure r else r.expect .flowEntry
    if ← r.isAt [.flowSequenceEnd] then return ([], r.next)
    let (n, r) ←
      if ← r.isAt [.key] then do
        let (n, r) := r.add .map (.map [])
        let (e, r) ← flowPair fuel .flowSequenceEnd r
        pure (n, r.fill n (.map [e]))
      else node fuel false false r
    let (ns, r) ← flowItems fuel false r
    return (n :: ns, r)

/-- Entries of a flow up to its end, with commas between them; a key may stand without a value. -/
def flowEntries : Nat → Bool → Reader → Except Fault (List (Nat × Nat) × Reader)
  | 0, _, _ => .error .misplaced
  | fuel + 1, isFirst, r => do
    if ← r.isAt [.flowMappingEnd] then return ([], r.next)
    let r ← if isFirst then pure r else r.expect .flowEntry
    if ← r.isAt [.flowMappingEnd] then return ([], r.next)
    let (e, r) ←
      if ← r.isAt [.key] then flowPair fuel .flowMappingEnd r
      else do
        let (k, r) ← node fuel false false r
        let (v, r) := r.addEmpty
        pure ((k, v), r)
    let (es, r) ← flowEntries fuel false r
    return (e :: es, r)

end

/-! ## Documents -/

/-- The tag handles that need no directive. -/
def usualHandles : List (String × String) := [("!", "!"), ("!!", Kind.commonTag)]

/-- Takes the directives in front of a document: at most one version, which must be one, and at most one
beginning for each tag handle. Each step takes a token. -/
def directives : Nat → Bool → Reader → Except Fault Reader
  | 0, _, r => .ok r
  | fuel + 1, hasVersion, r => do
    match ← r.peek with
    | some (.directive d) =>
      match d with
      | .version major =>
        if hasVersion ∨ major ≠ 1 then throw .directive else directives fuel true r.next
      | .tag h beginning =>
        if (r.handles.lookup h).isSome then throw .directive
        else directives fuel hasVersion { r.next with handles := (h, beginning) :: r.handles }
      | .other => directives fuel hasVersion r.next
    | _ => return r

def isDocumentStart : Token → Bool
  | .directive _ | .documentStart => true
  | _ => false

def isDocumentEdge (t : Token) : Bool := isDocumentStart t || t = .documentEnd

/-- A bound on the steps that reading the tokens takes. -/
def budget (r : Reader) : Nat := 4 * r.tokens.length + 4

def documentStart (r : Reader) : Except Fault Reader := do
  let r ← directives r.budget false { r with handles := [] }
  let r ← r.expect .documentStart
  return { r with handles := r.handles ++ usualHandles }

def document (r : Reader) : Except Fault (Nat × Reader) := do
  if ← r.sees isDocumentStart then
    let r ← r.documentStart
    if (← r.peek).isNone || (← r.sees isDocumentEdge) then return r.addEmpty
    node r.budget true false r
  else node r.budget true false { r with handles := usualHandles }

def documentEnds : Nat → Reader → Except Fault Reader
  | 0, r => .ok r
  | fuel + 1, r => do if ← r.isAt [.documentEnd] then documentEnds fuel r.next else return r

/-- The root and the nodes of the tokens ahead, if there is a document; no second one may follow. -/
def onlyDocument (r : Reader) : Except Fault (Nat × Graph) := do
  if (← r.peek).isNone then
    let (n, r) := r.addEmpty
    return (n, r.graph)
  let (n, r) ← r.document
  let r ← documentEnds r.budget r
  if (← r.peek).isSome then
    let _ ← r.documentStart
    throw .tooManyDocuments
  return (n, r.graph)

end Reader

def Graph.ofText (text : String) : Except Fault (Nat × Graph) :=
  let lexed := tokens text.toList
  Reader.onlyDocument { tokens := lexed.tokens, fault := lexed.fault }

end Entail.Yaml
