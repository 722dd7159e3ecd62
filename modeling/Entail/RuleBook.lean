import Entail.Rule

/-!
# Rule books

A `RuleBook` collects rules in the order in which they are written. A fact of a declared relation must have the
relation's number of arguments, of which the latest declaration counts. A `Draft` is a rule whose premises are
being written; it is finished when it has one.
-/

namespace Entail

/-- A rule with a conclusion whose premises are being written. -/
structure Draft where
  conclusion : Atom
  premises : List Atom

inductive BookFault where
  | atom (e : AtomFault)
  | noPremise (conclusion : Atom)

def BookFault.message : BookFault → String
  | .atom e => e.message
  | .noPremise a => "Rule for " ++ a.text ++ " needs at least one premise; use fact()"

namespace Draft

def start (predicate : String) (args : List Argument) : Except AtomFault Draft :=
  (Atom.ofArguments predicate args).map fun a => ⟨a, []⟩

def premise (d : Draft) (predicate : String) (args : List Argument) : Except AtomFault Draft :=
  (Atom.ofArguments predicate args).map fun a => { d with premises := d.premises ++ [a] }

/-- The rule as far as it is written. -/
def finish (d : Draft) : Except BookFault Rule :=
  if d.premises.isEmpty then .error (.noPremise d.conclusion) else .ok ⟨d.premises, d.conclusion⟩

end Draft

structure RuleBook where
  rules : List Rule
  declared : List Predicate

namespace RuleBook

def ofRules (rules : List Rule) : RuleBook := ⟨rules, []⟩

def size (b : RuleBook) : Nat := b.rules.length

/-- The names that rules may use for variables without further ado. -/
def commonVariables : List Term := ["X", "Y", "Z", "A", "B", "C"].map Term.var

def declare (b : RuleBook) (p : Predicate) : RuleBook := { b with declared := p :: b.declared }

/-- The latest declaration of a name. -/
def declared? (b : RuleBook) (name : String) : Option Predicate := b.declared.find? fun p => p.name = name

def add (b : RuleBook) (r : Rule) : RuleBook := { b with rules := b.rules ++ [r] }

/-- States a fact, whose arguments are counted if its relation is declared. -/
def fact (b : RuleBook) (predicate : String) (args : List Argument) : Except AtomFault (Rule × RuleBook) := do
  let a ← match b.declared? predicate with
    | some p => p.apply args
    | none => Atom.ofArguments predicate args
  return (.fact a, b.add (.fact a))

def addDraft (b : RuleBook) (d : Draft) : Except BookFault (Rule × RuleBook) := do
  let r ← d.finish
  return (r, b.add r)

end RuleBook

end Entail
