import Entail.Coded.Basic
import Entail.Forest

/-!
# Unification of coded atoms

`Bindings` is a forest over the slots of a rule: slots in one class stand for the same thing, and the label of a class
is the symbol that its slots are bound to.

* `Bindings.resolve`, `Bindings.substitute` : a term and an atom under the bindings;
* `Bindings.unify` : makes two atoms equal, argument by argument from the left, and keeps what was bound before an
  argument that fails;
* `Rule.apply` : matches the premises of a rule with facts, the first with the first and so on, under one set of
  bindings, and gives the conclusion that follows.
-/

namespace Entail.Coded

abbrev Bindings := Forest Symbol

/-- Why two atoms do not unify: predicate or number of arguments differ, or two different symbols meet. A forest's
own faults are passed on. -/
inductive UnifyFault where
  | shape (p : Symbol) (m : Nat) (q : Symbol) (n : Nat)
  | clash (a b : Symbol)
  | forest (e : ForestFault Symbol)

def UnifyFault.message : UnifyFault → String
  | .shape p m q n => p.text ++ "/" ++ toString m ++ " vs " ++ q.text ++ "/" ++ toString n
  | .clash a b => a.text ++ " does not unify with " ++ b.text
  | .forest e => e.message Symbol.text

namespace Bindings

/-- A symbol for itself; a slot for the symbol of its class, or for the class's root while it has none. -/
def resolve (θ : Bindings) : Term → Except (ForestFault Symbol) Term
  | .sym s => .ok (.sym s)
  | .slot i =>
    if i < θ.size then
      match θ.labelOf (θ.root i) with
      | some s => .ok (.sym s)
      | none => .ok (.slot (θ.root i))
    else .error .outOfRange

def substitute (θ : Bindings) (a : Atom) : Except (ForestFault Symbol) Atom := do
  let args ← a.args.mapM θ.resolve
  return ⟨a.predicate, args⟩

/-- The forest's outcome without its value, as an outcome of unification. -/
def lift {β : Type} (r : Except (ForestFault Symbol) β × Bindings) : Except UnifyFault Unit × Bindings :=
  match r with
  | (.ok _, θ) => (.ok (), θ)
  | (.error e, θ) => (.error (.forest e), θ)

def unifyResolved (θ : Bindings) : Term → Term → Except UnifyFault Unit × Bindings
  | .slot i, .slot j => if i = j then (.ok (), θ) else lift (θ.union i j)
  | .slot i, .sym s => lift (θ.bind i (some s))
  | .sym s, .slot i => lift (θ.bind i (some s))
  | .sym s, .sym t => if s = t then (.ok (), θ) else (.error (.clash s t), θ)

def unifyTerms (θ : Bindings) (a b : Term) : Except UnifyFault Unit × Bindings :=
  match θ.resolve a, θ.resolve b with
  | .ok a, .ok b => θ.unifyResolved a b
  | .error e, _ => (.error (.forest e), θ)
  | _, .error e => (.error (.forest e), θ)

def unifyArgs (θ : Bindings) : List Term → List Term → Except UnifyFault Unit × Bindings
  | a :: as, b :: bs =>
    match θ.unifyTerms a b with
    | (.ok (), θ) => unifyArgs θ as bs
    | failed => failed
  | _, _ => (.ok (), θ)

def unify (θ : Bindings) (a b : Atom) : Except UnifyFault Unit × Bindings :=
  if a.predicate = b.predicate ∧ a.arity = b.arity then θ.unifyArgs a.args b.args
  else (.error (.shape a.predicate a.arity b.predicate b.arity), θ)

end Bindings

/-! ## Applying a rule to facts -/

/-- A rule at work: what follows, from which facts, by which rule. -/
structure Application where
  conclusion : Atom
  premises : List Atom
  rule : Rule

/-- Why a rule does not apply: it has another number of premises, a premise does not match its fact, or the
conclusion keeps a variable. A forest's own faults are passed on. -/
inductive ApplyFault where
  | count (premises facts : Nat)
  | premise (position : Nat) (cause : UnifyFault)
  | unbound (conclusion : Atom)
  | forest (e : ForestFault Symbol)

def ApplyFault.message : ApplyFault → String
  | .count m n => "Rule has " ++ toString m ++ " premises, got " ++ toString n ++ " facts"
  | .premise k e => "premise " ++ toString k ++ ": " ++ e.message
  | .unbound a => "conclusion " ++ a.text ++ " left unbound"
  | .forest e => e.message Symbol.text

/-- Unifies premises with facts in order, from the premise at the given position on. -/
def matchFrom (θ : Bindings) (position : Nat) : List Atom → List Atom → Except ApplyFault Bindings
  | p :: ps, f :: fs =>
    match θ.unify p f with
    | (.ok (), θ) => matchFrom θ (position + 1) ps fs
    | (.error (.forest e), _) => .error (.forest e)
    | (.error e, _) => .error (.premise position e)
  | _, _ => .ok θ

def Rule.apply (r : Rule) (facts : List Atom) : Except ApplyFault Application :=
  if facts.length = r.premises.length then do
    let θ ← matchFrom (.singletons r.slots) 0 r.premises facts
    match θ.substitute r.conclusion with
    | .ok conclusion => if conclusion.isGround then return ⟨conclusion, facts, r⟩ else throw (.unbound conclusion)
    | .error e => throw (.forest e)
  else .error (.count r.premises.length facts.length)

end Entail.Coded
