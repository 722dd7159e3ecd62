import Entail.Value.Literal

/-!
# Atoms and rules

Flat Horn clauses over names: an atom is a predicate with constants and variables for arguments, a rule has
premises and a conclusion, and a rule without premises states its conclusion. `text` is the written form of
each. `Atom.ofArguments` builds an atom from arguments of any kind and refuses those that are no terms.
-/

namespace Entail

inductive Term where
  | var (name : String)
  | const (name : String)
  deriving DecidableEq

structure Atom where
  predicate : String
  args : List Term
  deriving DecidableEq

structure Rule where
  premises : List Atom
  conclusion : Atom
  deriving DecidableEq

namespace Term

def name : Term → String
  | .var n => n
  | .const n => n

def isGround : Term → Bool
  | .var _ => false
  | .const _ => true

def variableName? : Term → Option String
  | .var n => some n
  | .const _ => none

/-- A constant by its name, a variable with a question mark in front. -/
def text : Term → String
  | .var n => "?" ++ n
  | .const n => n

end Term

namespace Atom

def arity (a : Atom) : Nat := a.args.length

def isGround (a : Atom) : Bool := a.args.all Term.isGround

def variableNames (a : Atom) : List String := (a.args.filterMap Term.variableName?).eraseDups

def text (a : Atom) : String :=
  if a.args.isEmpty then a.predicate
  else a.predicate ++ "(" ++ ", ".intercalate (a.args.map Term.text) ++ ")"

end Atom

namespace Rule

/-- Whether the rule states its conclusion outright. -/
def isAxiom (r : Rule) : Bool := r.premises.isEmpty

def fact (a : Atom) : Rule := ⟨[], a⟩

/-- The variables by first occurrence, premises first. -/
def variableNames (r : Rule) : List String :=
  ((r.premises ++ [r.conclusion]).flatMap fun a => a.args.filterMap Term.variableName?).eraseDups

def text (r : Rule) : String :=
  if r.isAxiom then r.conclusion.text ++ "."
  else ", ".intercalate (r.premises.map Atom.text) ++ " => " ++ r.conclusion.text ++ "."

end Rule

/-- What may be passed as an argument of an atom: a term, or a value that is none. -/
inductive Argument where
  | term (t : Term)
  | value (v : Value)

inductive AtomFault where
  | argument (v : Value) (predicate : String)
  | arity (predicate : String) (expected : Int) (given : Nat)

namespace AtomFault

def message : AtomFault → String
  | .argument v p => "Unsupported argument " ++ v.literal ++ " for " ++ p
  | .arity p n k =>
    "Predicate " ++ p ++ "/" ++ String.ofList (Text.signed n) ++ " expects " ++ String.ofList (Text.signed n) ++
      " args, got " ++ toString k

end AtomFault

def Argument.toTerm (predicate : String) : Argument → Except AtomFault Term
  | .term t => .ok t
  | .value v => .error (.argument v predicate)

/-- The atom with the given arguments; the first that is no term is refused. -/
def Atom.ofArguments (predicate : String) (args : List Argument) : Except AtomFault Atom :=
  (args.mapM (Argument.toTerm predicate)).map (Atom.mk predicate)

structure Predicate where
  name : String
  arity : Int

namespace Predicate

def text (p : Predicate) : String := p.name ++ "/" ++ String.ofList (Text.signed p.arity)

/-- The atom of the relation with the given arguments, whose number is checked first. -/
def apply (p : Predicate) (args : List Argument) : Except AtomFault Atom :=
  if (args.length : Int) = p.arity then Atom.ofArguments p.name args else .error (.arity p.name p.arity args.length)

end Predicate

end Entail
