/-!
# Labelled disjoint sets

A `Forest` keeps a partition of the numbers below its size: every number points to a parent, a root to itself,
and the root of a class may carry a label.

* `root` : the root of a class, changing nothing;
* `find`, `value` : the root and the label of a class, pointing all numbers on the way at the root;
* `bind` : labels a class that has no label;
* `union` : merges two classes whose labels do not differ, the root of lower rank under the other;
* `position`, `bindAt` : numbers counted from the end.

Each operation gives its outcome together with the forest it leaves behind.
-/

namespace Entail

structure Forest (α : Type) where
  parent : Array Nat
  rank : Array Nat
  label : Array (Option α)

/-- Why an operation on a forest fails: a number is not below the size, the class of a number, as it was given, has a
label already, or two classes have different labels. -/
inductive ForestFault (α : Type) where
  | outOfRange
  | labelled (i : Int)
  | conflict (a b : α)

def ForestFault.message {α : Type} (text : α → String) : ForestFault α → String
  | .outOfRange => "list index out of range"
  | .labelled i => "class of " ++ toString i ++ " is already bound"
  | .conflict a b => "cannot merge classes bound to " ++ text a ++ " and " ++ text b

namespace Forest

variable {α : Type}

/-- The forest in which every number is alone and without a label. -/
def singletons (size : Nat) : Forest α := ⟨Array.range size, Array.replicate size 0, Array.replicate size none⟩

def size (f : Forest α) : Nat := f.parent.size

def labelOf (f : Forest α) (i : Nat) : Option α := (f.label[i]?).join

def rankOf (f : Forest α) (i : Nat) : Nat := f.rank.getD i 0

/-- Follows parents until a number is its own, for at most the given number of links. -/
def climb (parent : Array Nat) : Nat → Nat → Nat
  | 0, i => i
  | fuel + 1, i => if parent.getD i i = i then i else climb parent fuel (parent.getD i i)

/-- The root of a class; a path has fewer links than there are numbers. -/
def root (f : Forest α) (i : Nat) : Nat := climb f.parent f.size i

/-- Points every number on the way to the root straight at it. -/
def repoint (root : Nat) : Nat → Array Nat → Nat → Array Nat
  | 0, parent, _ => parent
  | fuel + 1, parent, i =>
    if parent.getD i i = root then parent
    else repoint root fuel (parent.setIfInBounds i root) (parent.getD i i)

/-- The forest with the path from a number shortened. -/
def compress (f : Forest α) (i : Nat) : Forest α :=
  { f with parent := repoint (f.root i) f.size f.parent i }

def find (f : Forest α) (i : Nat) : Except (ForestFault α) Nat × Forest α :=
  if i < f.size then (.ok (f.root i), f.compress i) else (.error .outOfRange, f)

def value (f : Forest α) (i : Nat) : Except (ForestFault α) (Option α) × Forest α :=
  match f.find i with
  | (.ok r, f) => (.ok (f.labelOf r), f)
  | (.error e, f) => (.error e, f)

def bind (f : Forest α) (i : Nat) (v : Option α) : Except (ForestFault α) Unit × Forest α :=
  match f.find i with
  | (.ok r, f) =>
    match f.labelOf r with
    | some _ => (.error (.labelled i), f)
    | none => (.ok (), { f with label := f.label.setIfInBounds r v })
  | (.error e, f) => (.error e, f)

/-- Puts the root `low` under the root `high`, which gets the label and, from an equal, one more rank. -/
def link (f : Forest α) (high low : Nat) (v : Option α) : Forest α where
  parent := f.parent.setIfInBounds low high
  rank := if f.rankOf high = f.rankOf low then f.rank.setIfInBounds high (f.rankOf high + 1) else f.rank
  label := f.label.setIfInBounds high v

/-- Merges the classes of two different roots, the first staying on top unless its rank is lower. -/
def linkByRank (f : Forest α) (i j : Nat) (v : Option α) : Nat × Forest α :=
  if f.rankOf i < f.rankOf j then (j, f.link j i v) else (i, f.link i j v)

/-- Merges the classes of two roots, unless their labels differ. -/
def merge [DecidableEq α] (f : Forest α) (i j : Nat) : Except (ForestFault α) Nat × Forest α :=
  if i = j then (.ok i, f)
  else
    match f.labelOf i, f.labelOf j with
    | some a, some b =>
      if a = b then
        let (r, f) := f.linkByRank i j (some a)
        (.ok r, f)
      else (.error (.conflict a b), f)
    | a, b =>
      let (r, f) := f.linkByRank i j (a <|> b)
      (.ok r, f)

/-- Merges the classes of two numbers and gives the root of both. -/
def union [DecidableEq α] (f : Forest α) (i j : Nat) : Except (ForestFault α) Nat × Forest α :=
  match f.find i with
  | (.error e, f) => (.error e, f)
  | (.ok ri, f) =>
    match f.find j with
    | (.error e, f) => (.error e, f)
    | (.ok rj, f) => f.merge ri rj

/-- The number that an index means. Below zero it counts from the end; one that reaches beyond the first number means
no number of the forest. -/
def position (f : Forest α) (i : Int) : Nat :=
  if 0 ≤ i then i.toNat else if i.natAbs ≤ f.size then f.size - i.natAbs else f.size

def bindAt (f : Forest α) (i : Int) (v : Option α) : Except (ForestFault α) Unit × Forest α :=
  match f.bind (f.position i) v with
  | (.error (.labelled _), f) => (.error (.labelled i), f)
  | r => r

end Forest

end Entail
