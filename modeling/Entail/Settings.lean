import Entail.Value.Literal

/-!
# Settings

The five settings of a reasoner and the names of the journal's levels. A ceiling of `none` is no ceiling. Settings
that are read from a source have whole numbers for ceilings and names for levels; settings that are put in place as
they are may have other values there, and `Settings.override` puts them.
-/

namespace Entail

/-- What a count is held against: an integer, a number of another kind, or a value that is no number. -/
inductive Limit where
  | count (n : Int)
  | real (x : Number.Binary64)
  | switch (b : Bool)
  | other (v : Value)

namespace Limit

/-- The limit that a value sets; null sets none. -/
def ofValue? : Value → Option Limit
  | .null => none
  | .int n => some (.count n)
  | .float x => some (.real x)
  | .bool b => some (.switch b)
  | v => some (.other v)

def toValue : Limit → Value
  | .count n => .int n
  | .real x => .float x
  | .switch b => .bool b
  | .other v => v

def text (l : Limit) : String := l.toValue.literal

/-- Whether a count has reached a limit, if the two can be compared. -/
def isReached? (n : Nat) : Limit → Option Bool
  | .count limit => some (limit ≤ (n : Int))
  | .real x => some (x.atMost n)
  | .switch b => some (b.toNat ≤ n)
  | .other _ => none

end Limit

/-- The level of the journal: a name, a rank, or a value that is neither. -/
inductive LevelChoice where
  | named (name : String)
  | ranked (n : Int)
  | other (v : Value)

/-- The level that a value chooses; a boolean is a rank. -/
def LevelChoice.ofValue : Value → LevelChoice
  | .str s => .named s
  | .int n => .ranked n
  | .bool b => .ranked b.toNat
  | v => .other v

def LevelChoice.toValue : LevelChoice → Value
  | .named s => .str s
  | .ranked n => .int n
  | .other v => v

inductive LevelFault where
  | unknown (name : String)
  | noLevel (v : Value)

def LevelFault.message : LevelFault → String
  | .unknown name => "Unknown level: " ++ name.inQuotes
  | .noLevel v => "Level not an integer or a valid string: " ++ v.literal

structure Settings where
  maxRounds : Option Limit := some (.count 1000)
  maxFacts : Option Limit := some (.count 100000)
  bottomPredicate : Option String := some "bottom"
  exhaustiveMatching : Bool := false
  logLevel : LevelChoice := .named "WARNING"

namespace Settings

/-- The predicate whose facts are contradictions; an empty name is no predicate. -/
def bottom? (s : Settings) : Option String := s.bottomPredicate.filter (· ≠ "")

/-- The number of a named level. -/
def levelNumber? : String → Option Nat
  | "CRITICAL" => some 50
  | "FATAL" => some 50
  | "ERROR" => some 40
  | "WARNING" => some 30
  | "WARN" => some 30
  | "INFO" => some 20
  | "DEBUG" => some 10
  | "NOTSET" => some 0
  | _ => none

def levelRank (s : Settings) : Except LevelFault Int :=
  match s.logLevel with
  | .named name =>
    match levelNumber? name with
    | some n => .ok n
    | none => .error (.unknown name)
  | .ranked n => .ok n
  | .other v => .error (.noLevel v)

/-- Puts a value in the place of the named setting, without asking whether it fits. -/
def override (s : Settings) (name : String) (v : Value) : Settings :=
  match name with
  | "max_rounds" => { s with maxRounds := Limit.ofValue? v }
  | "max_facts" => { s with maxFacts := Limit.ofValue? v }
  | "bottom_predicate" => { s with bottomPredicate := match v with | .str p => some p | _ => none }
  | "exhaustive_matching" => { s with exhaustiveMatching := !v.isVoid }
  | "log_level" => { s with logLevel := .ofValue v }
  | _ => s

end Settings

inductive Setting where
  | bottomPredicate
  | exhaustiveMatching
  | logLevel
  | maxFacts
  | maxRounds
  deriving DecidableEq

namespace Setting

def name : Setting → String
  | .bottomPredicate => "bottom_predicate"
  | .exhaustiveMatching => "exhaustive_matching"
  | .logLevel => "log_level"
  | .maxFacts => "max_facts"
  | .maxRounds => "max_rounds"

def all : List Setting := [.bottomPredicate, .exhaustiveMatching, .logLevel, .maxFacts, .maxRounds]

end Setting

end Entail
