import Entail.Reasoner.Basic
import Entail.Source

/-!
# Reasoners from rule sources

`Reasoner.load` reads a source, has a parser make rules of it and creates a reasoner with them. A parser refuses
a text, which is passed on, or runs into trouble of its own, which is reported as a refusal.
-/

namespace Entail

inductive ParserFault where
  | document (f : Record.ParseFault)
  | refused (message : String)
  | trouble (text : String)

namespace ParserFault

/-- The text of trouble that is no refusal. -/
def trouble? : ParserFault → Option String
  | .document (.document f) => f.message?
  | .document (.record .digitLimit) => some (Record.Fault.digitLimit).message
  | .document (.record _) => none
  | .refused _ => none
  | .trouble text => some text

/-- The wording of a refusal, where this library words it. -/
def message? (f : ParserFault) : Option String :=
  match f.trouble?, f with
  | some text, _ => some ("Parser rejected rule source: " ++ text)
  | none, .refused message => some message
  | none, .document (.record f) => some f.message
  | none, _ => none

end ParserFault

abbrev Parser := String → Except ParserFault (List Rule)

def Parser.ofRecords : Parser := fun text =>
  match Record.parse text with
  | .ok rules => .ok rules
  | .error f => .error (.document f)

inductive LoadFault where
  | source (f : SourceFault)
  | parser (f : ParserFault)
  | reasoner (f : Failure)

/-- The kind under which a fault is reported, or the kind above it. What a parser refuses is a load error that it chose;
a reasoner is not created only for a stated fact that is not ground. -/
def LoadFault.kind? : LoadFault → Option FailureKind
  | .source f => f.kind?
  | .parser (.document _) | .parser (.trouble _) => some .parseRejected
  | .parser (.refused _) => some .loadError
  | .reasoner (.factNotGround _) => some .loadError
  | .reasoner _ => none

namespace Reasoner

/-- A reasoner with the rules of a source, and what was written on the way. -/
def load (files : Files) (source : Source) (parser : Parser) (settings : Settings) (journal : Journal) :
    Except LoadFault Reasoner × Journal :=
  match source.read files with
  | .error f => (.error (.source f), journal)
  | .ok text =>
    match parser text with
    | .error f => (.error (.parser f), journal)
    | .ok rules =>
      match create settings journal rules with
      | (.ok (), r) => (.ok r, r.journal)
      | (.error e, r) => (.error (.reasoner e), r.journal)

end Reasoner

end Entail
