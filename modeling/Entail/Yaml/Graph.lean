import Entail.Yaml.Kind
import Entail.Yaml.Token

/-!
# Nodes

A `Graph` holds the nodes of a document, which know each other by number: a scalar, a list or a mapping, with the kind
that its tag gives it. An alias is one more use of the number of a node, so that a node may hold itself.

* `Graph.add`, `Graph.fill` : a new node, and what it holds once that is known;
* `Graph.flatten` : what stands under the key `<<` of a mapping moved into the mapping.
-/

namespace Entail.Yaml

inductive Content where
  | scalar (text : String)
  | list (items : List Nat)
  | map (entries : List (Nat × Nat))

structure Node where
  kind : Kind
  content : Content

abbrev Graph := Array Node

namespace Graph

/-- Adds a node; its number is the number of nodes before. -/
def add (g : Graph) (kind : Kind) (content : Content) : Nat × Graph := (g.size, g.push ⟨kind, content⟩)

def fill (g : Graph) (n : Nat) (content : Content) : Graph := g.modify n fun node => { node with content := content }

def kindOf (g : Graph) (n : Nat) : Kind := (g[n]?.map Node.kind).getD .other

def contentOf (g : Graph) (n : Nat) : Content := (g[n]?.map Node.content).getD (.list [])

def entriesOf (g : Graph) (n : Nat) : List (Nat × Nat) :=
  match g.contentOf n with
  | .map entries => entries
  | _ => []

/-! ## Merging -/

def entryCount (g : Graph) : Nat := g.foldl (fun k node => match node.content with | .map es => k + es.length | _ => k) 0

/-- The value under the first key of a mapping that merges, and the graph without that entry. -/
def takeMerge? (g : Graph) (n : Nat) : Option (Nat × Graph) :=
  let (front, rest) := (g.entriesOf n).span fun e => g.kindOf e.1 ≠ .merge
  match rest with
  | e :: back => some (e.2, g.fill n (.map (front ++ back)))
  | [] => none

/-- Puts entries in front of those of a mapping, and makes texts of those of its keys that stand for the value itself. -/
def prepend (g : Graph) (n : Nat) (entries : List (Nat × Nat)) : Graph :=
  let entries := entries ++ g.entriesOf n
  entries.foldl
    (fun g e => if g.kindOf e.1 = .value then g.modify e.1 fun node => { node with kind := .str } else g)
    (g.fill n (.map entries))

/-- The entries that a mapping merges, key by key, and the graph without the keys that merge. What is merged is a
mapping, or a list of mappings of which the last comes first; each is flattened before. The tag of what is merged does
not count. Every step takes a key that merges out of the graph and none puts one in. -/
def gather : Nat → Graph → Nat → Except Fault (List (Nat × Nat) × Graph)
  | 0, g, _ => .ok ([], g)
  | fuel + 1, g, n =>
    match g.takeMerge? n with
    | none => .ok ([], g)
    | some (source, g) => do
      let flat (g : Graph) (m : Nat) : Except Fault (List (Nat × Nat) × Graph) :=
        match g.contentOf m with
        | .map _ => do
          let (merged, g) ← gather fuel g m
          let g := g.prepend m merged
          return (g.entriesOf m, g)
        | _ => .error .mergeSource
      let (merged, g) ← match g.contentOf source with
        | .list items =>
          items.foldlM
            (fun (acc : List (Nat × Nat) × Graph) m => do
              let (es, g) ← flat acc.2 m
              return (es ++ acc.1, g))
            ([], g)
        | _ => flat g source
      let (rest, g) ← gather fuel g n
      return (merged ++ rest, g)

/-- The graph with a mapping flattened: the merged entries come before its own, which win. -/
def flatten (g : Graph) (n : Nat) : Except Fault Graph :=
  if (g.entriesOf n).any fun e => g.kindOf e.1 = .merge then do
    let (merged, g) ← gather (g.entryCount + 1) g n
    return g.prepend n merged
  else .ok (g.prepend n [])

end Graph

end Entail.Yaml
