import Entail.Proofs.Renaming
import Entail.Proofs.Requests

/-!
# A reasoner over names

`PlainReasoner` takes the requests of a reasoner and knows nothing of symbols and slots: its facts, reasons and rules
are the written ones.

* `Assignment` : a finite map from variables to constants; `Rule.conclude` matches the premises of a rule with facts
  under one assignment and fills its conclusion in;
* `PlainReasoner.derivation?` : the proof of a fact, its premises proved by the facts held before it;
* `PlainReasoner.round`, `PlainReasoner.saturate`, `PlainReasoner.query`, `PlainReasoner.answer` : the requests. Rounds
  are repeated without a bound on their number, so `none` is what comes of a request that has no end.
-/

namespace Entail

/-! ## Matching -/

abbrev Assignment := List (String × String)

namespace Assignment

/-- Gives a variable a constant; it must not have another one. -/
def give (m : Assignment) (v n : String) : Option Assignment :=
  match m.lookup v with
  | none => some ((v, n) :: m)
  | some k => if k = n then some m else none

/-- Extends an assignment so that a term stands for a constant. -/
def matchTerm (m : Assignment) : Term → Term → Option Assignment
  | .const k, .const n => if k = n then some m else none
  | .var v, .const n => m.give v n
  | _, .var _ => none

def matchAll {α : Type} (step : Assignment → α → α → Option Assignment) :
    Assignment → List α → List α → Option Assignment
  | m, [], [] => some m
  | m, x :: xs, y :: ys => (step m x y).bind fun m => matchAll step m xs ys
  | _, _, _ => none

def matchAtom (m : Assignment) (p f : Atom) : Option Assignment :=
  if p.predicate = f.predicate then matchAll matchTerm m p.args f.args else none

def fill (m : Assignment) : Term → Option Term
  | .const n => some (.const n)
  | .var v => (m.lookup v).map .const

end Assignment

/-- What follows by a rule from facts for all its premises, if it says what all variables of its conclusion are. -/
def Rule.conclude (r : Rule) (facts : List Atom) : Option Atom := do
  let m ← Assignment.matchAll Assignment.matchAtom [] r.premises facts
  let args ← r.conclusion.args.mapM m.fill
  return ⟨r.conclusion.predicate, args⟩

/-! ## The state -/

/-- Why a fact is held: the premises and the rule it was first derived with, or nothing for a stated one, and the round
it came in with. -/
structure Reason where
  premises : List Atom
  rule : Option Rule
  generation : Nat

structure Inference where
  conclusion : Atom
  premises : List Atom
  rule : Rule

def Inference.reason (i : Inference) (generation : Nat) : Reason := ⟨i.premises, some i.rule, generation⟩

structure PlainReasoner where
  settings : Settings
  facts : List (Atom × Reason)
  rules : List Rule
  generation : Nat
  contradiction : Option Atom
  tally : Tally

namespace PlainReasoner

def empty (settings : Settings) : PlainReasoner := ⟨settings, [], [], 0, none, {}⟩

def atoms (p : PlainReasoner) : List Atom := p.facts.map (·.1)

def isBottom (p : PlainReasoner) (a : Atom) : Bool := p.settings.bottom? = some a.predicate

def hold (p : PlainReasoner) (a : Atom) (s : Reason) : PlainReasoner :=
  { p with
    facts := p.facts ++ [(a, s)]
    contradiction := if p.contradiction.isNone && p.isBottom a then some a else p.contradiction }

/-- The derivation of an atom, given the facts with the latest first. -/
def derivationIn : List (Atom × Reason) → Atom → Option Derivation
  | [], _ => none
  | (b, s) :: earlier, a =>
    if b = a then (s.premises.mapM (derivationIn earlier)).map fun ds => .node a ds s.rule
    else derivationIn earlier a

def derivation? (p : PlainReasoner) (a : Atom) : Option Derivation := derivationIn p.facts.reverse a

def generationOf (p : PlainReasoner) (a : Atom) : Option Nat := (p.facts.find? fun e => e.1 = a).map (·.2.generation)

/-! ## Stating facts and rules -/

def addFact (p : PlainReasoner) (a : Atom) : Except Failure Bool × PlainReasoner :=
  if a.isGround then if a ∈ p.atoms then (.ok false, p) else (.ok true, p.hold a ⟨[], none, 0⟩)
  else (.error (.notGround a), p)

/-- Adds a rule that is no variant of another, or states the conclusion of one without premises. -/
def addRule (p : PlainReasoner) (rule : Rule) : Except Failure Bool × PlainReasoner :=
  if rule.isAxiom then
    if rule.conclusion.isGround then p.addFact rule.conclusion else (.error (.factNotGround rule.conclusion), p)
  else if ∃ old ∈ p.rules, old.IsVariant rule then (.ok false, p)
  else (.ok true, { p with rules := p.rules ++ [rule] })

def addRules (p : PlainReasoner) : List Rule → Except Failure Unit × PlainReasoner
  | [] => (.ok (), p)
  | rule :: rest =>
    match p.addRule rule with
    | (.ok _, p) => p.addRules rest
    | (.error e, p) => (.error e, p)

def create (settings : Settings) (rules : List Rule) : Except Failure Unit × PlainReasoner :=
  (empty settings).addRules rules

/-! ## Rounds -/

def selections (p : PlainReasoner) (k : Nat) : List (List Atom) :=
  if p.settings.exhaustiveMatching then Selection.unrestricted k p.atoms else Selection.increasing k p.atoms

def attempts (p : PlainReasoner) : List (Option Inference) :=
  p.rules.flatMap fun rule => (p.selections rule.premises.length).map fun facts =>
    (rule.conclude facts).map fun a => ⟨a, facts, rule⟩

def inferences (p : PlainReasoner) : List Inference := p.attempts.filterMap id

/-- The inferences whose conclusions are held when some atoms are known: the first for each new conclusion, up to the
first contradiction. -/
def admitted (bottom : Option String) : List Atom → List Inference → List Inference
  | _, [] => []
  | known, i :: rest =>
    if i.conclusion ∈ known then admitted bottom known rest
    else if bottom = some i.conclusion.predicate then [i]
    else i :: admitted bottom (known ++ [i.conclusion]) rest

def fresh (p : PlainReasoner) : List Inference := admitted p.settings.bottom? p.atoms p.inferences

/-- The reasoner after a round that is begun without a contradiction. -/
def advance (p : PlainReasoner) : PlainReasoner :=
  { p.fresh.foldl (fun q i => q.hold i.conclusion (i.reason (p.generation + 1))) p with
    generation := if p.fresh = [] then p.generation else p.generation + 1
    tally := { p.tally with
      rounds := p.tally.rounds + 1
      tried := p.tally.tried + p.attempts.length
      rejected := p.tally.rejected + (p.attempts.length - p.inferences.length)
      derived := p.tally.derived + p.fresh.length } }

def checkConsistent (p : PlainReasoner) : Except Failure Unit :=
  match p.contradiction with
  | none => .ok ()
  | some a => .error (.contradiction a (p.derivation? a))

def round (p : PlainReasoner) : Except Failure Nat × PlainReasoner :=
  match p.checkConsistent with
  | .error e => (.error e, p)
  | .ok () => (p.advance.checkConsistent.map fun _ => p.fresh.length, p.advance)

/-! ## Queries -/

/-- Why a count has reached its ceiling, if it has. -/
def atCeiling (c : Ceiling) (limit? : Option Limit) (count rounds : Nat) : Option Failure :=
  limit?.bind fun limit =>
    match limit.isReached? count with
    | some true => some (.exhausted c limit rounds)
    | some false => none
    | none => some (.incomparable limit.toValue)

/-- Why no further round may begin after the given number of rounds, if none may. -/
def atCeilings (p : PlainReasoner) (rounds : Nat) : Option Failure :=
  (atCeiling .round p.settings.maxRounds rounds rounds).or
    (atCeiling .fact p.settings.maxFacts p.facts.length rounds)

/-- Rounds until one finds nothing new; gives the number of those that did. -/
def saturateFrom (rounds : Nat) (p : PlainReasoner) : Option (Except Failure Nat × PlainReasoner) :=
  match p.atCeilings rounds with
  | some e => some (.error e, p)
  | none =>
    match p.round with
    | (.error e, p) => some (.error e, p)
    | (.ok 0, p) => some (.ok rounds, p)
    | (.ok (_ + 1), p) => p |>.saturateFrom (rounds + 1)
partial_fixpoint

def saturate (p : PlainReasoner) : Option (Except Failure Nat × PlainReasoner) := saturateFrom 0 p

/-- Rounds until the target is held; gives their number. -/
def searchFrom (target : Atom) (rounds : Nat) (p : PlainReasoner) : Option (Except Failure Nat × PlainReasoner) :=
  if target ∈ p.atoms then some (.ok rounds, p)
  else
    match p.atCeilings rounds with
    | some e => some (.error e, p)
    | none =>
      match p.round with
      | (.error e, p) => some (.error e, p)
      | (.ok 0, p) => some (.error (.notEntailed target), p)
      | (.ok (_ + 1), p) => p |>.searchFrom target (rounds + 1)
partial_fixpoint

def counted (p : PlainReasoner) : PlainReasoner := { p with tally := { p.tally with queries := p.tally.queries + 1 } }

def query (p : PlainReasoner) (target : Atom) : Option (Except Failure (Option Derivation) × PlainReasoner) :=
  match p.checkConsistent with
  | .error e => some (.error e, p.counted)
  | .ok () =>
    if target.isGround then
      (p.counted.searchFrom target 0).map fun x => (x.1.map fun _ => x.2.derivation? target, x.2)
    else some (.error (.notGround target), p.counted)

/-! ## Requests -/

def answer (p : PlainReasoner) : Request → Option (Reply × PlainReasoner)
  | .addRule rule => some (.added (p.addRule rule).1, (p.addRule rule).2)
  | .addFact a => some (.added (p.addFact a).1, (p.addFact a).2)
  | .query target => (p.query target).map fun x => (.proved x.1, x.2)
  | .saturate => p.saturate.map fun x => (.counted x.1, x.2)
  | .round => some (.counted p.round.1, p.round.2)

def performAll (p : PlainReasoner) (qs : List Request) : Option PlainReasoner :=
  qs.foldlM (fun p q => (p.answer q).map (·.2)) p

def after (settings : Settings) (rules : List Rule) (qs : List Request) : Option PlainReasoner :=
  (create settings rules).2.performAll qs

end PlainReasoner

end Entail
