import Entail.Value

/-!
# Values of nodes that refer to each other

A `Part` is what is made of a node: a value, or a collection of other nodes by their numbers. `Part.tie` turns parts
into values: a part all of whose nodes have values gets a value of its own, and the parts that are left over, which
hold themselves or something that does, become knots.
-/

namespace Entail.Yaml

/-- What is made of a node. A value that is its own differs as a key from every other value that is no number. -/
inductive Part where
  | value (v : Value) (isOwn : Bool)
  | list (items : List Nat)
  | map (entries : List (Nat × Nat))
  | set (items : List Nat)
  | pairs (entries : List (Nat × Nat))

namespace Part

def both? (valueOf : Nat → Option Value) (e : Nat × Nat) : Option (Value × Value) := do
  return (← valueOf e.1, ← valueOf e.2)

/-- The value of a part, if all its nodes have values. -/
def value? (valueOf : Nat → Option Value) : Part → Option Value
  | .value v _ => some v
  | .list items => (items.mapM valueOf).map .list
  | .map entries => (entries.mapM (both? valueOf)).map .map
  | .set items => (items.mapM valueOf).map fun vs => .set (Value.inTableOrder vs)
  | .pairs entries => (entries.mapM (both? valueOf)).map fun es => .list (es.map fun e => .pair e.1 e.2)

/-- Values by the numbers of their nodes, as far as they are known. -/
abbrev Values := Array (Option Value)

def Values.at? (vs : Values) (n : Nat) : Option Value := (vs[n]?).join

def settle (parts : Array (Option Part)) (vs : Values) (n : Nat) : Values :=
  match vs.at? n, (parts[n]?).join with
  | none, some p => vs.setIfInBounds n (p.value? vs.at?)
  | _, _ => vs

def known (vs : Values) : Nat := vs.foldl (fun k v => if v.isSome then k + 1 else k) 0

/-- Gives values to nodes, the last first, again and again until none gets one. -/
def settleAll (parts : Array (Option Part)) : Nat → Values → Values
  | 0, vs => vs
  | fuel + 1, vs =>
    let vs' := (List.range parts.size).reverse.foldl (settle parts) vs
    if known vs' = known vs then vs' else settleAll parts fuel vs'

/-- The nodes without values, to each the place of its knot. The pairs of a list of pairs have knots behind its own. -/
def places (parts : Array (Option Part)) (vs : Values) : Array (Option Nat) × Nat :=
  (List.range parts.size).foldl
    (fun (acc : Array (Option Nat) × Nat) n =>
      match vs.at? n, (parts[n]?).join with
      | none, some (.pairs entries) => (acc.1.push (some acc.2), acc.2 + 1 + entries.length)
      | none, some _ => (acc.1.push (some acc.2), acc.2 + 1)
      | _, _ => (acc.1.push none, acc.2))
    (#[], 0)

/-- The knots of a part at a place, given the values of all nodes. -/
def knots (valueOf : Nat → Value) (place : Nat) : Part → List Value
  | .value v _ => [v]
  | .list items => [.list (items.map valueOf)]
  | .map entries => [.map (entries.map fun e => (valueOf e.1, valueOf e.2))]
  | .set items => [.set (Value.inTableOrder (items.map valueOf))]
  | .pairs entries =>
    .list ((List.range entries.length).map fun i => .knot (place + 1 + i)) ::
      entries.map fun e => .pair (valueOf e.1) (valueOf e.2)

/-- The value of a node, and the knots that values refer to. -/
def tie (parts : Array (Option Part)) (root : Nat) : Value × Value.Knots :=
  let vs := settleAll parts parts.size (Array.replicate parts.size none)
  let (ps, _) := places parts vs
  let valueOf (n : Nat) : Value :=
    match vs.at? n, (ps[n]?).join with
    | some v, _ => v
    | none, some place => .knot place
    | none, none => .null
  let ks := (List.range parts.size).flatMap fun n =>
    match (ps[n]?).join, (parts[n]?).join with
    | some place, some p => p.knots valueOf place
    | _, _ => []
  (valueOf root, ks.toArray)

end Part

end Entail.Yaml
