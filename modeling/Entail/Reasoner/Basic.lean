import Entail.Coded.Naming
import Entail.Coded.Unify
import Entail.Journal
import Entail.Settings
import Entail.Support

/-!
# Reasoners

A `Reasoner` holds facts and rules and derives what follows. Facts and rules stay in order of arrival; `known` has
the round each fact came in with, and `supports` the first reason it was held for. The first fact with the
contradiction predicate is kept as the contradiction.

* `addFact`, `addRule`, `create` : stating facts and rules;
* `Failure` : why a request is refused or ends without an answer.

Each operation gives its outcome together with the reasoner it leaves behind.
-/

namespace Entail

inductive Ceiling where
  | round
  | fact
  deriving DecidableEq

def Ceiling.name : Ceiling → String
  | .round => "round"
  | .fact => "fact"

/-- Why a request is refused or ends without an answer: a variable in a target or in a stated fact, a fixpoint
without the target, a contradiction with its derivation, a ceiling that is reached or that no count can be compared
with, or no written form. -/
inductive Failure where
  | notGround (a : Atom)
  | factNotGround (a : Atom)
  | notEntailed (a : Atom)
  | contradiction (a : Atom) (d : Option Derivation)
  | exhausted (c : Ceiling) (limit : Limit) (rounds : Nat)
  | incomparable (v : Value)
  | derivation (e : DerivationFault)

def notGroundMessage (a : Atom) : String := "Expected a ground atom, got " ++ a.text

def Failure.message : Failure → String
  | .notGround a => notGroundMessage a
  | .factNotGround a => "Axiom must be ground, got " ++ a.text
  | .notEntailed a => a.text ++ " is not entailed by the rule set"
  | .contradiction a _ => "derived contradiction " ++ a.text
  | .exhausted c limit rounds =>
    c.name ++ " ceiling of " ++ limit.text ++ " reached after " ++ toString rounds ++ " rounds"
  | .incomparable v => "'>=' not supported between instances of 'int' and '" ++ v.kindName ++ "'"
  | .derivation e => e.message

structure Tally where
  rounds : Nat := 0
  tried : Nat := 0
  rejected : Nat := 0
  derived : Nat := 0
  queries : Nat := 0
  deriving DecidableEq

structure Reasoner where
  settings : Settings
  symbols : SymbolTable
  known : List (Coded.Atom × Nat)
  supports : Supports
  rules : List Coded.Rule
  generation : Nat
  bottom : Option Symbol
  contradiction : Option Coded.Atom
  tally : Tally
  journal : Journal

namespace Reasoner

/-- A reasoner without facts and rules; the contradiction predicate has the first symbol. -/
def empty (settings : Settings) (journal : Journal) : Reasoner :=
  let (bottom, symbols) := match settings.bottom? with
    | some name => let (s, t) := (SymbolTable.empty 1).intern name; (some s, t)
    | none => (none, SymbolTable.empty 1)
  ⟨settings, symbols, [], [], [], 0, bottom, none, {}, journal⟩

/-- The facts in order of arrival. -/
def atoms (r : Reasoner) : List Coded.Atom := r.known.map (·.1)

def holds (r : Reasoner) (a : Coded.Atom) : Bool := r.known.any fun e => e.1 = a

def isConsistent (r : Reasoner) : Bool := r.contradiction.isNone

def factCount (r : Reasoner) : Nat := r.known.length

def ruleCount (r : Reasoner) : Nat := r.rules.length

def write (r : Reasoner) (level : Level) (text : String) : Reasoner :=
  { r with journal := r.journal.write level text }

def isBottom (r : Reasoner) (a : Coded.Atom) : Bool := r.bottom = some a.predicate

/-- Holds a new fact with its support; a fact that is held already is left as it is. -/
def insert (r : Reasoner) (a : Coded.Atom) (s : Support) : Bool × Reasoner :=
  if r.holds a then (false, r)
  else
    (true, { r with
      known := r.known ++ [(a, s.generation)]
      supports := r.supports.put a s
      contradiction := if r.isConsistent && r.isBottom a then some a else r.contradiction })

/-- States a ground atom; true if it was not held before. -/
def addFact (r : Reasoner) (a : Atom) : Except Failure Bool × Reasoner :=
  match a.encode r.symbols with
  | .error a => (.error (.notGround a), r)
  | .ok (c, symbols) =>
    let (isNew, r) := { r with symbols := symbols }.insert c .seed
    if isNew && !r.isConsistent then
      (.ok isNew, r.write .warning ("Seed axiom " ++ a.text ++ " is a contradiction"))
    else (.ok isNew, r)

/-- Adds a rule, or states its conclusion if it has no premises; true if it is new. A variant of a rule that is
there already is not new. -/
def addRule (r : Reasoner) (rule : Rule) : Except Failure Bool × Reasoner :=
  if rule.isAxiom then
    if rule.conclusion.isGround then r.addFact rule.conclusion else (.error (.factNotGround rule.conclusion), r)
  else
    let (c, symbols) := rule.encode r.symbols
    let r := { r with symbols := symbols }
    if r.rules.any fun old => old.toClause = c.toClause then (.ok false, r)
    else (.ok true, { r with rules := r.rules ++ [c] })

/-- Adds rules in order, up to the first that is refused. -/
def addRules (r : Reasoner) : List Rule → Except Failure Unit × Reasoner
  | [] => (.ok (), r)
  | rule :: rest =>
    match r.addRule rule with
    | (.ok _, r) => r.addRules rest
    | (.error e, r) => (.error e, r)

def create (settings : Settings) (journal : Journal) (rules : List Rule) : Except Failure Unit × Reasoner :=
  match (empty settings journal).addRules rules with
  | (.ok (), r) =>
    (.ok (), r.write .info
      ("Loaded " ++ toString r.ruleCount ++ " rules and " ++ toString r.factCount ++ " axioms"))
  | (.error e, r) => (.error e, r)

end Reasoner

end Entail
