import Entail.Rule

/-!
# Derivations

A `Derivation` is a proof tree: the atom it proves, the derivations of the premises used, and the rule that was
applied. A leaf is an atom that was stated.
-/

namespace Entail

inductive Derivation where
  | node (atom : Atom) (children : List Derivation) (rule : Option Rule)

namespace Derivation

def atom : Derivation → Atom
  | .node a _ _ => a

def children : Derivation → List Derivation
  | .node _ cs _ => cs

def rule : Derivation → Option Rule
  | .node _ _ r => r

def isLeaf (d : Derivation) : Bool := d.children.isEmpty

mutual

/-- The longest way from the root to a leaf, in steps. -/
def depth : Derivation → Nat
  | .node _ [] _ => 0
  | .node _ (c :: cs) _ => 1 + max c.depth (greatestDepth cs)

def greatestDepth : List Derivation → Nat
  | [] => 0
  | c :: cs => max c.depth (greatestDepth cs)

end

mutual

def size : Derivation → Nat
  | .node _ cs _ => 1 + totalSize cs

def totalSize : List Derivation → Nat
  | [] => 0
  | c :: cs => c.size + totalSize cs

end

mutual

/-- All subtrees, each before its children. -/
def walk : Derivation → List Derivation
  | .node a cs r => .node a cs r :: walkAll cs

def walkAll : List Derivation → List Derivation
  | [] => []
  | c :: cs => c.walk ++ walkAll cs

end

def leaves (d : Derivation) : List Atom := (d.walk.filter isLeaf).map atom

mutual

def decEq : (d e : Derivation) → Decidable (d = e)
  | .node a cs r, .node b ds s =>
    if ha : a = b then
      if hr : r = s then
        match decEqAll cs ds with
        | .isTrue hc => .isTrue (by rw [ha, hr, hc])
        | .isFalse hc => .isFalse (fun h => hc (by injection h))
      else .isFalse (fun h => hr (by injection h))
    else .isFalse (fun h => ha (by injection h))

def decEqAll : (cs ds : List Derivation) → Decidable (cs = ds)
  | [], [] => .isTrue rfl
  | [], _ :: _ => .isFalse (fun h => by injection h)
  | _ :: _, [] => .isFalse (fun h => by injection h)
  | c :: cs, d :: ds =>
    match decEq c d with
    | .isFalse h => .isFalse (fun e => h (by injection e))
    | .isTrue h =>
      match decEqAll cs ds with
      | .isFalse h' => .isFalse (fun e => h' (by injection e))
      | .isTrue h' => .isTrue (by rw [h, h'])

end

instance : DecidableEq Derivation := decEq

end Derivation

end Entail
