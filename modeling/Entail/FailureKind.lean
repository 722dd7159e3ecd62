/-!
# Kinds of failure

Failures are of three families: a rule source that cannot be loaded, a rule that does not apply to some facts, and
a query that ends without its target. A `FailureKind` names a family or one of its members; `lineage` leads from
a kind to the kind of all failures.
-/

namespace Entail

inductive FailureKind where
  | saturationError
  | loadError
  | parseRejected
  | unknownIdentifier
  | unifyFailure
  | predicateMismatch
  | constantClash
  | assignFailure
  | premiseMismatch
  | unboundConclusion
  | saturationFailure
  | saturated
  | derivedBottom
  | resourceExhausted
  | cyclicJustification
  deriving DecidableEq

namespace FailureKind

def all : List FailureKind :=
  [.saturationError, .loadError, .parseRejected, .unknownIdentifier, .unifyFailure, .predicateMismatch,
   .constantClash, .assignFailure, .premiseMismatch, .unboundConclusion, .saturationFailure, .saturated,
   .derivedBottom, .resourceExhausted, .cyclicJustification]

def name : FailureKind → String
  | .saturationError => "SaturationError"
  | .loadError => "LoadError"
  | .parseRejected => "ParseRejected"
  | .unknownIdentifier => "UnknownIdentifier"
  | .unifyFailure => "UnifyFailure"
  | .predicateMismatch => "PredicateMismatch"
  | .constantClash => "ConstantClash"
  | .assignFailure => "AssignFailure"
  | .premiseMismatch => "PremiseMismatch"
  | .unboundConclusion => "UnboundConclusion"
  | .saturationFailure => "SaturationFailure"
  | .saturated => "Saturated"
  | .derivedBottom => "DerivedBottom"
  | .resourceExhausted => "ResourceExhausted"
  | .cyclicJustification => "CyclicJustification"

def parent? : FailureKind → Option FailureKind
  | .saturationError => none
  | .parseRejected => some .loadError
  | .predicateMismatch | .constantClash => some .unifyFailure
  | .premiseMismatch | .unboundConclusion => some .assignFailure
  | .saturated | .derivedBottom | .resourceExhausted => some .saturationFailure
  | .loadError | .unknownIdentifier | .unifyFailure | .assignFailure | .saturationFailure | .cyclicJustification =>
    some .saturationError

/-- A kind and those above it, up to the given number of steps. -/
def above : Nat → FailureKind → List FailureKind
  | 0, k => [k]
  | n + 1, k =>
    k :: match k.parent? with
      | some p => above n p
      | none => []

/-- A kind and all kinds above it; none has more than two steps to go. -/
def lineage (k : FailureKind) : List FailureKind := above 2 k

def ofName? (name : String) : Option FailureKind := all.find? fun k => k.name = name

end FailureKind

end Entail
