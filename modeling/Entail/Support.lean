import Entail.Coded.Naming
import Entail.Derivation

/-!
# Supports

A `Support` says why a fact is held: the premises and the rule it was first derived with, or nothing for a fact
that was stated. `Supports` keeps facts in order of arrival, each with its support.

* `Supports.get?`, `Supports.put` : the support of a fact, and its replacement in place;
* `Supports.derivation?` : the proof tree of a fact, unfolded from the supports. A fact that leads back to
  itself and a premise without a support are refused.
-/

namespace Entail

/-- Why a fact is held, and the round it came in with. -/
structure Support where
  premises : List Coded.Atom
  rule : Option Coded.Rule
  generation : Nat
  deriving DecidableEq

namespace Support

/-- The support of a fact that was stated. -/
def seed : Support := ⟨[], none, 0⟩

def isSeed (s : Support) : Bool := s.premises.isEmpty

end Support

abbrev Supports := List (Coded.Atom × Support)

inductive DerivationFault where
  | cycle (a : Atom)
  | unsupported (a : Atom)
  | decode (e : Coded.DecodeFault)

def DerivationFault.message : DerivationFault → String
  | .cycle a => "justification cycle through " ++ a.text
  | .unsupported a => "No justification for premise " ++ a.text
  | .decode e => e.message

namespace Supports

def get? (ss : Supports) (a : Coded.Atom) : Option Support := (ss.find? fun e => e.1 = a).map (·.2)

/-- The supports with a new one for a fact, which keeps its place if it is there already. -/
def put : Supports → Coded.Atom → Support → Supports
  | [], a, s => [(a, s)]
  | (b, t) :: rest, a, s => if b = a then (b, s) :: rest else (b, t) :: put rest a s

/-- The rules written so far: variants of a clause are all written like the first of them. -/
abbrev Written := List (Coded.Clause × Rule)

/-- The written form of a rule, and the rules written with it. -/
def writeRule (t : SymbolTable) (written : Written) (r : Coded.Rule) :
    Except DerivationFault (Rule × Written) :=
  match written.find? fun e => e.1 = r.toClause with
  | some e => .ok (e.2, written)
  | none =>
    match r.decode t with
    | .ok rule => .ok (rule, written ++ [(r.toClause, rule)])
    | .error e => .error (.decode e)

def nameAtom (t : SymbolTable) (a : Coded.Atom) : Except DerivationFault Atom :=
  match a.decode t none with
  | .ok a => .ok a
  | .error e => .error (.decode e)

/-- Runs a step over a list from the left, handing the rules written on from one to the next. -/
def unfoldAll (step : Written → Coded.Atom → Except DerivationFault (Derivation × Written)) :
    Written → List Coded.Atom → Except DerivationFault (List Derivation × Written)
  | written, [] => .ok ([], written)
  | written, a :: rest => do
    let (d, written) ← step written a
    let (ds, written) ← unfoldAll step written rest
    return (d :: ds, written)

/-- The derivation of an atom below the atoms that wait for it; a path of different facts has at most `fuel` of
them left. -/
def unfold (ss : Supports) (t : SymbolTable) :
    Nat → List Coded.Atom → Written → Coded.Atom → Except DerivationFault (Derivation × Written)
  | 0, _, _, a => do throw (.cycle (← nameAtom t a))
  | fuel + 1, waiting, written, a => do
    if a ∈ waiting then throw (.cycle (← nameAtom t a))
    match ss.get? a with
    | none => throw (.unsupported (← nameAtom t a))
    | some s =>
      let atom ← nameAtom t a
      if s.isSeed then return (.node atom [] none, written)
      let (children, written) ← unfoldAll (unfold ss t fuel (a :: waiting)) written s.premises
      match s.rule with
      | none => return (.node atom children none, written)
      | some r =>
        let (rule, written) ← writeRule t written r
        return (.node atom children (some rule), written)

/-- The derivation of an atom, and nothing for an atom that is not held. -/
def derivation? (ss : Supports) (t : SymbolTable) (a : Coded.Atom) : Except DerivationFault (Option Derivation) :=
  match ss.get? a with
  | none => .ok none
  | some _ => (ss.unfold t (ss.length + 1) [] [] a).map (some ·.1)

end Supports

end Entail
