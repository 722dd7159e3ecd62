/-!
# The journal

A `Journal` holds the lines written since it was last read. A line below the journal's threshold is dropped when
it is written.
-/

namespace Entail

inductive Level where
  | debug
  | info
  | warning
  deriving DecidableEq

namespace Level

def rank : Level → Nat
  | .debug => 10
  | .info => 20
  | .warning => 30

def name : Level → String
  | .debug => "DEBUG"
  | .info => "INFO"
  | .warning => "WARNING"

end Level

structure Line where
  level : Level
  text : String
  deriving DecidableEq

structure Journal where
  threshold : Nat
  lines : List Line
  deriving DecidableEq

namespace Journal

def empty : Journal := ⟨Level.warning.rank, []⟩

/-- The journal with another threshold; zero stands for the usual one, and below zero nothing is dropped. -/
def withThreshold (j : Journal) (n : Int) : Journal :=
  { j with threshold := if n = 0 then Level.warning.rank else n.toNat }

/-- Writes a line, unless it is below the threshold. -/
def write (j : Journal) (level : Level) (text : String) : Journal :=
  if j.threshold ≤ level.rank then { j with lines := j.lines ++ [⟨level, text⟩] } else j

def drained (j : Journal) : Journal := { j with lines := [] }

end Journal

end Entail
