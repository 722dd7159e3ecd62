import Entail.Reasoner.Basic

/-!
# Rounds

A round tries every rule on every selection of the facts held when it starts, and only then holds what follows,
in the order in which it was found. Selections take facts in order of arrival without repeating them, or, in
exhaustive matching, in any order with repeats. A round ends at the first contradiction it holds.
-/

namespace Entail

namespace Selection

/-- The selections of `k` items in increasing order of places. -/
def increasing {α : Type} : Nat → List α → List (List α)
  | 0, _ => [[]]
  | _ + 1, [] => []
  | k + 1, x :: xs => (increasing k xs).map (x :: ·) ++ increasing (k + 1) xs

/-- The selections of `k` items with repeats, in the order of their places. -/
def unrestricted {α : Type} : Nat → List α → List (List α)
  | 0, _ => [[]]
  | k + 1, xs => xs.flatMap fun x => (unrestricted k xs).map (x :: ·)

end Selection

namespace Reasoner

def selections (r : Reasoner) (k : Nat) : List (List Coded.Atom) :=
  if r.settings.exhaustiveMatching then Selection.unrestricted k r.atoms else Selection.increasing k r.atoms

/-- What comes of trying every rule on every selection. -/
def attempts (r : Reasoner) : List (Except Coded.ApplyFault Coded.Application) :=
  r.rules.flatMap fun rule => (r.selections rule.premises.length).map rule.apply

/-- The rules that apply, in the order in which they were tried. -/
def applications (r : Reasoner) : List Coded.Application := r.attempts.filterMap Except.toOption

/-- Holds the conclusions of applications in order, up to the first contradiction; gives how many were new. -/
def commit (generation : Nat) : Reasoner → List Coded.Application → Nat × Reasoner
  | r, [] => (0, r)
  | r, c :: rest =>
    match r.insert c.conclusion ⟨c.premises, some c.rule, generation⟩ with
    | (false, r) => commit generation r rest
    | (true, r) =>
      if r.isConsistent then
        let (n, r) := commit generation r rest
        (n + 1, r)
      else (1, r)

def derive (r : Reasoner) (a : Coded.Atom) : Except Failure (Option Derivation) :=
  match r.supports.derivation? r.symbols a with
  | .ok d => .ok d
  | .error e => .error (.derivation e)

def nameFact (r : Reasoner) (a : Coded.Atom) : Except Failure Atom :=
  match Supports.nameAtom r.symbols a with
  | .ok a => .ok a
  | .error e => .error (.derivation e)

def checkConsistent (r : Reasoner) : Except Failure Unit :=
  match r.contradiction with
  | none => .ok ()
  | some a => do
    let atom ← r.nameFact a
    let d ← r.derive a
    throw (.contradiction atom d)

/-- The reasoner after the selections of a round were tried and their conclusions held. -/
def advance (r : Reasoner) : Nat × Reasoner :=
  let tried := r.attempts.length
  let found := r.applications
  let (inserted, after) := commit (r.generation + 1) r found
  let after := { after with
    generation := if inserted = 0 then r.generation else r.generation + 1
    tally := { r.tally with
      rounds := r.tally.rounds + 1
      tried := r.tally.tried + tried
      rejected := r.tally.rejected + (tried - found.length)
      derived := r.tally.derived + inserted } }
  (inserted, after.write .debug
    ("Round " ++ toString (r.generation + 1) ++ ": " ++ toString tried ++ " candidates, " ++
      toString (tried - found.length) ++ " discarded, " ++ toString inserted ++ " new facts (" ++
      toString after.factCount ++ " total)"))

/-- One round; gives the number of new facts, which is zero at a fixpoint. -/
def round (r : Reasoner) : Except Failure Nat × Reasoner :=
  match r.checkConsistent with
  | .error e => (.error e, r)
  | .ok () =>
    let (inserted, r) := r.advance
    match r.checkConsistent with
    | .error e => (.error e, r)
    | .ok () => (.ok inserted, r)

end Reasoner

end Entail
