import Entail.Reasoner.Round

/-!
# Queries and views

* `saturate` : rounds until nothing new follows;
* `query` : rounds until the target is held, with its derivation;
* `contains`, `generationOf`, `derivationOf`, `facts` and so on : what a reasoner holds, in names. Looking changes
  nothing, and a name that the reasoner has never seen belongs to no fact.

Queries and saturation stop at a ceiling and at a contradiction. Without ceilings they stop because a round that finds
something new holds another of finitely many atoms: `roundBudget` bounds the number of rounds by the number of atoms
that the rules can conclude.
-/

namespace Entail.Reasoner

/-- The symbols that stand as arguments of facts and of conclusions. -/
def constants (r : Reasoner) : List Symbol :=
  ((r.atoms ++ r.rules.map (·.conclusion)).flatMap fun a => a.args.filterMap Coded.Term.symbol?).eraseDups

/-- One more than the number of atoms that the rules can conclude, counted for each rule. -/
def roundBudget (r : Reasoner) : Nat :=
  (r.rules.map fun rule => Nat.pow r.constants.length rule.conclusion.arity).foldr (· + ·) 1

/-- Fails if a count has reached its ceiling, and writes a line then. -/
def checkCeiling (r : Reasoner) (c : Ceiling) (limit? : Option Limit) (count rounds : Nat) (line : String → String) :
    Except Failure Unit × Reasoner :=
  match limit? with
  | none => (.ok (), r)
  | some limit =>
    match limit.isReached? count with
    | some true => (.error (.exhausted c limit rounds), r.write .warning (line limit.text))
    | some false => (.ok (), r)
    | none => (.error (.incomparable limit.toValue), r)

/-- Fails if a ceiling is reached after the given number of rounds; the round ceiling is looked at first. -/
def checkCeilings (r : Reasoner) (rounds : Nat) : Except Failure Unit × Reasoner :=
  match r.checkCeiling .round r.settings.maxRounds rounds rounds fun limit => "Round ceiling " ++ limit ++ " reached" with
  | (.error e, r) => (.error e, r)
  | (.ok (), r) =>
    r.checkCeiling .fact r.settings.maxFacts r.factCount rounds fun limit =>
      "Fact ceiling " ++ limit ++ " reached with " ++ toString r.factCount ++ " facts"

/-- Rounds until one finds nothing new, at most `fuel` of them; gives the number of those that did. -/
def saturateFrom : Nat → Nat → Reasoner → Except Failure Nat × Reasoner
  | 0, rounds, r => (.ok rounds, r)
  | fuel + 1, rounds, r =>
    match r.checkCeilings rounds with
    | (.error e, r) => (.error e, r)
    | (.ok (), r) =>
      match r.round with
      | (.error e, r) => (.error e, r)
      | (.ok 0, r) => (.ok rounds, r)
      | (.ok (_ + 1), r) => saturateFrom fuel (rounds + 1) r

/-- Rounds until a fixpoint; gives the number of rounds that found something new. -/
def saturate (r : Reasoner) : Except Failure Nat × Reasoner :=
  match saturateFrom (r.roundBudget + 1) 0 r with
  | (.ok rounds, r) =>
    (.ok rounds, r.write .info
      ("Fixpoint reached after " ++ toString rounds ++ " productive rounds, " ++ toString r.factCount ++ " facts"))
  | (.error e, r) => (.error e, r)

/-- What is written when a round of a query fails. -/
def writeAborted (r : Reasoner) (target : Atom) : Failure → Reasoner
  | .contradiction _ _ => r.write .warning ("Query " ++ target.text ++ " aborted: rule set is contradictory")
  | _ => r

/-- Rounds until the target is held, at most `fuel` of them; gives their number. -/
def searchFrom (target : Atom) (goal : Coded.Atom) : Nat → Nat → Reasoner → Except Failure Nat × Reasoner
  | 0, _, r => (.error (.notEntailed target), r)
  | fuel + 1, rounds, r =>
    if r.holds goal then (.ok rounds, r)
    else
      match r.checkCeilings rounds with
      | (.error e, r) => (.error e, r)
      | (.ok (), r) =>
        match r.round with
        | (.error e, r) => (.error e, r.writeAborted target e)
        | (.ok 0, r) =>
          (.error (.notEntailed target), r.write .info
            ("Query " ++ target.text ++ " not entailed (" ++ toString r.factCount ++ " facts at fixpoint)"))
        | (.ok (_ + 1), r) => searchFrom target goal fuel (rounds + 1) r

/-- Rounds until a ground atom is held; gives its derivation. -/
def query (r : Reasoner) (target : Atom) : Except Failure (Option Derivation) × Reasoner :=
  let r := { r with tally := { r.tally with queries := r.tally.queries + 1 } }
  match r.checkConsistent with
  | .error e => (.error e, r)
  | .ok () =>
    match target.encode r.symbols with
    | .error a => (.error (.notGround a), r)
    | .ok (goal, symbols) =>
      match searchFrom target goal (r.roundBudget + 1) 0 { r with symbols := symbols } with
      | (.error e, r) => (.error e, r)
      | (.ok rounds, r) =>
        let r := r.write .info ("Query " ++ target.text ++ " proved after " ++ toString rounds ++ " rounds")
        (r.derive goal, r)

/-! ## Views -/

def contains (r : Reasoner) (a : Atom) : Bool := (a.lookup? r.symbols).any r.holds

def roundOf? (r : Reasoner) (a : Coded.Atom) : Option Nat := (r.known.find? fun e => e.1 = a).map (·.2)

/-- The round that an atom came in with, zero for a stated one. -/
def generationOf (r : Reasoner) (a : Atom) : Option Nat := (a.lookup? r.symbols).bind r.roundOf?

def derivationOf (r : Reasoner) (a : Atom) : Except Failure (Option Derivation) :=
  match a.lookup? r.symbols with
  | some c => r.derive c
  | none => .ok none

def facts (r : Reasoner) : Except Failure (List Atom) := r.atoms.mapM r.nameFact

def statedFacts (r : Reasoner) : Except Failure (List Atom) :=
  ((r.supports.filter (·.2.isSeed)).map (·.1)).mapM r.nameFact

def nameRule (r : Reasoner) (rule : Coded.Rule) : Except Failure Rule :=
  match rule.decode r.symbols with
  | .ok rule => .ok rule
  | .error e => .error (.derivation (.decode e))

/-- The rules in order of arrival, with the variable names they came with. -/
def statedRules (r : Reasoner) : Except Failure (List Rule) := r.rules.mapM r.nameRule

/-- The facts, each with the premises of its support. -/
def justifications (r : Reasoner) : Except Failure (List (Atom × List Atom)) :=
  r.supports.mapM fun e => do return (← r.nameFact e.1, ← e.2.premises.mapM r.nameFact)

def contradictionAtom (r : Reasoner) : Except Failure (Option Atom) := r.contradiction.mapM r.nameFact

def generations (r : Reasoner) : Except Failure (List (Atom × Nat)) :=
  r.known.mapM fun e => do return (← r.nameFact e.1, e.2)

/-- Everything that is held as rules: each fact as a rule without premises, then the rules. -/
def records (r : Reasoner) : Except Failure (List Rule) := do
  return (← r.facts).map Rule.fact ++ (← r.statedRules)

end Entail.Reasoner
