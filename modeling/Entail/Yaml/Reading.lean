import Entail.Yaml.Knot
import Entail.Yaml.Reader
import Entail.Yaml.Scalar

/-!
# Values of documents

A `Reading` makes values of nodes. A scalar gets its value when it is met; a collection is noted and gets its items
later, after all that were noted before it. So, of several faults, the one nearest to the root counts, and of those at
one depth the first. A node that is met again through an alias is the same value.

* `Reading.meet` : a node that is met for the first time or again;
* `Reading.complete` : what a collection that was noted holds;
* `read` : the value of a text, with its knots.
-/

namespace Entail.Yaml

/-- The nodes, what was made of them so far, and the collections that were met last and are still to be completed,
the last first. -/
structure Reading where
  graph : Graph
  parts : Array (Option Part)
  noted : List Nat

namespace Reading

def ofGraph (g : Graph) : Reading := ⟨g, Array.replicate g.size none, []⟩

/-- What was made of a node. -/
def part? (r : Reading) (n : Nat) : Option Part := (r.parts[n]?).join

def setPart (r : Reading) (n : Nat) (p : Part) : Reading := { r with parts := r.parts.setIfInBounds n (some p) }

/-! ## Scalars -/

/-- The text of a node: of a scalar its own, of a mapping that of the value under the key that stands for the value
itself. A mapping may lead back to itself, and then has none. -/
def textOf (g : Graph) : Nat → Nat → Except ReadFault String
  | 0, _ => .error .endless
  | fuel + 1, n =>
    match g.contentOf n with
    | .scalar text => .ok text
    | .list _ => .error (.form .kind)
    | .map entries =>
      match entries.find? fun e => g.kindOf e.1 = .value with
      | some e => textOf g fuel e.2
      | none => .error (.form .kind)

def scalar (g : Graph) (n : Nat) (kind : Kind) : Except ReadFault Part := do
  let text ← textOf g (g.size + 1) n
  match kind, g.contentOf n with
  | .timestamp, .map _ => throw .timestampText
  | _, _ => return .value (← scalarValue kind text) (kind = .float && !isNoNumberWord text)

/-- What a node of a kind is before it is completed; nothing for kinds of scalars. -/
def emptyPart? : Kind → Option Part
  | .seq => some (.list [])
  | .omap | .pairs => some (.pairs [])
  | .map => some (.map [])
  | .set => some (.set [])
  | _ => none

def meet (r : Reading) (n : Nat) : Except ReadFault Reading :=
  if (r.part? n).isSome then .ok r
  else
    let kind := r.graph.kindOf n
    match emptyPart? kind with
    | some p => .ok { r.setPart n p with noted := n :: r.noted }
    | none =>
      if kind = .merge ∨ kind = .value ∨ kind = .other then .error (.form .unknownTag)
      else (scalar r.graph n kind).map (r.setPart n)

/-! ## Collections -/

/-- Whether two keys are the same: the same node, or values that are the same key. Numbers that are no numbers differ
from each other, apart from those that are written as the word for it. -/
def sameKey (r : Reading) (m n : Nat) : Bool :=
  m == n ||
    match r.part? m, r.part? n with
    | some (.value (.float .nan) own), some (.value (.float .nan) own') => !own && !own'
    | some (.value v _), some (.value w _) => v.sameKey w
    | _, _ => false

/-- Puts an entry into a mapping: the first key stays, the last value counts. -/
def putEntry (r : Reading) (entries : List (Nat × Nat)) (k v : Nat) : List (Nat × Nat) :=
  match entries with
  | [] => [(k, v)]
  | (k', v') :: rest => if r.sameKey k' k then (k', v) :: rest else (k', v') :: r.putEntry rest k v

/-- Whether what was made of a node is no key. -/
def isCollection (r : Reading) (n : Nat) : Bool :=
  match r.part? n with
  | some (.value _ _) => false
  | _ => true

/-- Meets the keys and values of a mapping, which is flattened before; gives its entries. -/
def entries (r : Reading) (n : Nat) : Except ReadFault (List (Nat × Nat) × Reading) := do
  match r.graph.contentOf n with
  | .map _ =>
    let r ← match r.graph.flatten n with
      | .ok g => pure { r with graph := g }
      | .error f => throw (.form f)
    (r.graph.entriesOf n).foldlM
      (fun (acc : List (Nat × Nat) × Reading) e => do
        let r ← acc.2.meet e.1
        if r.isCollection e.1 then throw (.form .unhashableKey)
        let r ← r.meet e.2
        return (r.putEntry acc.1 e.1 e.2, r))
      ([], r)
  | _ => throw (.form .kind)

/-- Meets the key and the value of each item of a list, which are mappings with one entry. -/
def singleEntries (r : Reading) (n : Nat) : Except ReadFault (List (Nat × Nat) × Reading) :=
  match r.graph.contentOf n with
  | .list items =>
    items.foldlM
      (fun (acc : List (Nat × Nat) × Reading) m =>
        match acc.2.graph.contentOf m with
        | .map [e] => do
          let r ← acc.2.meet e.1
          let r ← r.meet e.2
          return (acc.1 ++ [e], r)
        | _ => .error (.form .entry))
      ([], r)
  | _ => .error (.form .kind)

/-- Completes a collection that was noted. -/
def complete (r : Reading) (n : Nat) : Except ReadFault Reading :=
  match r.part? n with
  | some (.list _) =>
    match r.graph.contentOf n with
    | .list items => do return (← items.foldlM meet r).setPart n (.list items)
    | _ => .error (.form .kind)
  | some (.pairs _) => do
    let (es, r) ← r.singleEntries n
    return r.setPart n (.pairs es)
  | some (.map _) => do
    let (es, r) ← r.entries n
    return r.setPart n (.map es)
  | some (.set _) => do
    let (es, r) ← r.entries n
    return r.setPart n (.set (es.map (·.1)))
  | _ => .ok r

/-- Completes what was noted, round by round; every round completes nodes that were not met before. -/
def completeAll : Nat → Reading → Except ReadFault Reading
  | 0, r => .ok r
  | fuel + 1, r =>
    if r.noted.isEmpty then .ok r
    else do completeAll fuel (← r.noted.reverse.foldlM complete { r with noted := [] })

end Reading

def Graph.read (g : Graph) (root : Nat) : Except ReadFault (Value × Value.Knots) := do
  let r ← (Reading.ofGraph g).meet root
  let r ← r.completeAll (g.size + 1)
  return Part.tie r.parts root

def read (text : String) : Except ReadFault (Value × Value.Knots) :=
  match Graph.ofText text with
  | .ok (root, g) => g.read root
  | .error f => .error (.form f)

end Entail.Yaml
