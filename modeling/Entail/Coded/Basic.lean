import Entail.Symbol

/-!
# Coded atoms and rules

Atoms and rules over symbols and numbered slots. A slot stands for a variable of one rule; a rule numbers its
slots by first occurrence and remembers the variables' names, which play no part in its `Clause`. Two rules are
variants of each other when their clauses are equal.
-/

namespace Entail.Coded

inductive Term where
  | sym (s : Symbol)
  | slot (i : Nat)
  deriving DecidableEq

structure Atom where
  predicate : Symbol
  args : List Term
  deriving DecidableEq

/-- What a rule says, with its variables known by number only. -/
structure Clause where
  premises : List Atom
  conclusion : Atom
  slots : Nat
  deriving DecidableEq

/-- A clause with the names of its variables in slot order. -/
structure Rule extends Clause where
  names : List String
  deriving DecidableEq

/-- A slot as messages show it. -/
def slotText (i : Nat) : String := "_" ++ toString i

namespace Term

def isSlot : Term → Bool
  | .sym _ => false
  | .slot _ => true

def symbol? : Term → Option Symbol
  | .sym s => some s
  | .slot _ => none

def text : Term → String
  | .sym s => s.text
  | .slot i => slotText i

end Term

namespace Atom

def arity (a : Atom) : Nat := a.args.length

def isGround (a : Atom) : Bool := !a.args.any Term.isSlot

/-- The arguments in round brackets, with a comma after a lone one. -/
def argsText (a : Atom) : String :=
  match a.args with
  | [t] => "(" ++ t.text ++ ",)"
  | ts => "(" ++ ", ".intercalate (ts.map Term.text) ++ ")"

def text (a : Atom) : String := "InnerAtom(predicate=" ++ a.predicate.text ++ ", args=" ++ a.argsText ++ ")"

end Atom

end Entail.Coded
