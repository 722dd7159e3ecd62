import Entail.FailureKind
import Entail.Rule
import Entail.Text.Characters
import Entail.Value.Literal
import Entail.Yaml.Reading

/-!
# Rules and records

A document is a list of records, or a mapping with such a list under `rules`; a record states an atom under `fact`, or
has a `conclusion` and perhaps `premises`; an atom has a `predicate` and perhaps `args`. An argument is a mapping that
says what it is, a number or a boolean, or a text, which is a variable if it starts with an upper-case letter or an
underscore.

* `Record.rules` : a document value read as rules. The functions take the document's knots along, which stand for
  collections that hold themselves. `Fault` says what a document lacks, and shows the value that does not do;
* `Record.document` : rules as a document in which every argument says whether it is a variable or a constant;
* `Record.parse` : the rules of a text. A fault lies in the document or in the records.
-/

namespace Entail.Record

/-! ## Rules from records -/

/-- What is wrong with a document; faults of a record carry its position. The last one is met when an integer is
too long to be written out as a name or in a message. -/
inductive Fault where
  | noRules
  | notList (kind : String)
  | notMapping (position : Nat) (shown : String)
  | noConclusion (position : Nat)
  | premisesNotList (position : Nat)
  | notAtom (position : Nat) (shown : String)
  | argsNotList (position : Nat)
  | unknownTerm (position : Nat) (shown : String)
  | unsupportedTerm (position : Nat) (shown : String)
  | digitLimit
  deriving DecidableEq

def Fault.message : Fault → String
  | .noRules => "Rule document must have a 'rules' list"
  | .notList kind => "Expected a list of records, got " ++ kind
  | .notMapping i shown => "Record " ++ toString i ++ ": expected a mapping, got " ++ shown
  | .noConclusion i => "Record " ++ toString i ++ ": missing 'conclusion'"
  | .premisesNotList i => "Record " ++ toString i ++ ": 'premises' must be a list"
  | .notAtom i shown => "Record " ++ toString i ++ ": atom needs a 'predicate' string, got " ++ shown
  | .argsNotList i => "Record " ++ toString i ++ ": 'args' must be a list"
  | .unknownTerm i shown => "Record " ++ toString i ++ ": unknown term " ++ shown
  | .unsupportedTerm i shown => "Record " ++ toString i ++ ": unsupported term " ++ shown
  | .digitLimit =>
    "Exceeds the limit (" ++ toString Value.digitLimit ++
      " digits) for integer string conversion; use sys.set_int_max_str_digits() to increase the limit"

/-- Refuses a value, which the fault shows. -/
def refuse {α : Type} (ks : Value.Knots) (v : Value) (f : String → Fault) : Except Fault α :=
  .error (if v.exceedsDigitLimit ks then .digitLimit else f (v.literalIn ks))

def nameOf (ks : Value.Knots) : Value → Except Fault String
  | .bool true => .ok "true"
  | .bool false => .ok "false"
  | v => if v.exceedsDigitLimit ks then .error .digitLimit else .ok (v.plainIn ks)

/-- Whether a bare text is a variable. -/
def isVariableName (s : String) : Bool :=
  match s.toList with
  | c :: _ => Text.isUppercase c || c == '_'
  | [] => false

def isText (v : Value) (s : String) : Bool :=
  match v with
  | .str t => t == s
  | _ => false

/-- The argument that a mapping describes, given what to do if it describes none. -/
def describedTerm (ks : Value.Knots) (entries : List (Value × Value)) (refused : Except Fault Term) :
    Except Fault Term :=
  if isText (Value.lookup entries "type") "var" then
    match Value.lookup entries "name" with
    | .str n => .ok (.var n)
    | _ => refused
  else if isText (Value.lookup entries "type") "const" then
    match Value.lookup? entries "value" with
    | some v => (nameOf ks v).map .const
    | none => refused
  else refused

def term (ks : Value.Knots) (position : Nat) (v : Value) : Except Fault Term :=
  match ks.opened v with
  | .map entries => describedTerm ks entries (refuse ks v (.unknownTerm position))
  | .str s => .ok (if isVariableName s then .var s else .const s)
  | .bool b => (nameOf ks (.bool b)).map .const
  | .int n => (nameOf ks (.int n)).map .const
  | .float x => (nameOf ks (.float x)).map .const
  | _ => refuse ks v (.unsupportedTerm position)

/-- What a mapping has for a text key, a knot being opened and what counts as absent being the empty list. -/
def listEntry (ks : Value.Knots) (entries : List (Value × Value)) (key : String) : Value :=
  ks.opened (Value.lookup entries key).orEmptyList

def atom (ks : Value.Knots) (position : Nat) (v : Value) : Except Fault Atom :=
  match ks.opened v with
  | .map entries =>
    match Value.lookup entries "predicate" with
    | .str p =>
      match listEntry ks entries "args" with
      | .list items => (items.mapM (term ks position)).map (Atom.mk p)
      | _ => .error (.argsNotList position)
    | _ => refuse ks v (.notAtom position)
  | _ => refuse ks v (.notAtom position)

def rule (ks : Value.Knots) (position : Nat) (v : Value) : Except Fault Rule :=
  match ks.opened v with
  | .map entries =>
    match Value.lookup? entries "fact" with
    | some fact => (atom ks position fact).map Rule.fact
    | none =>
      match Value.lookup? entries "conclusion" with
      | none => .error (.noConclusion position)
      | some conclusion =>
        match listEntry ks entries "premises" with
        | .list items => do
          let premises ← items.mapM (atom ks position)
          let conclusion ← atom ks position conclusion
          return ⟨premises, conclusion⟩
        | _ => .error (.premisesNotList position)
  | _ => refuse ks v (.notMapping position)

def rulesFrom (ks : Value.Knots) (position : Nat) : List Value → Except Fault (List Rule)
  | [] => .ok []
  | v :: rest => do
    let r ← rule ks position v
    let rs ← rulesFrom ks (position + 1) rest
    return r :: rs

def ruleList (ks : Value.Knots) (v : Value) : Except Fault (List Rule) :=
  match ks.opened v with
  | .list items => rulesFrom ks 0 items
  | v => .error (.notList v.kindName)

/-- The rules of a document with knots; the empty document has none. -/
def rulesIn (ks : Value.Knots) (v : Value) : Except Fault (List Rule) :=
  match ks.opened v with
  | .null => .ok []
  | .map entries =>
    match Value.lookup? entries "rules" with
    | some v => ruleList ks v.orEmptyList
    | none => .error .noRules
  | v => ruleList ks v

def rules (v : Value) : Except Fault (List Rule) := rulesIn #[] v

/-! ## Rules as records -/

def termDocument : Term → Document
  | .var n => .fields [("type", .text "var"), ("name", .text n)]
  | .const n => .fields [("type", .text "const"), ("value", .text n)]

def atomDocument (a : Atom) : Document :=
  .fields [("predicate", .text a.predicate), ("args", .list (a.args.map termDocument))]

def ruleDocument (r : Rule) : Document :=
  if r.isAxiom then .fields [("fact", atomDocument r.conclusion)]
  else .fields [("premises", .list (r.premises.map atomDocument)), ("conclusion", atomDocument r.conclusion)]

def documentFields (rules : List Rule) : List (String × Document) := [("rules", .list (rules.map ruleDocument))]

def document (rules : List Rule) : Document := .fields (documentFields rules)

/-! ## Rules from text -/

inductive ParseFault where
  | document (f : Yaml.ReadFault)
  | record (f : Fault)

/-- The kind under which a fault is reported. Code points and version numbers that are out of range, scalars that have
no value and integers that are too long are no faults of this library, and are passed on as they are. -/
def ParseFault.kind? : ParseFault → Option FailureKind
  | .document (.form (.codePoint _)) | .document (.form (.versionLength _)) => none
  | .document (.form _) => some .parseRejected
  | .document _ => none
  | .record .digitLimit => none
  | .record _ => some .parseRejected

def parse (text : String) : Except ParseFault (List Rule) :=
  match Yaml.read text with
  | .error f => .error (.document f)
  | .ok v =>
    match rulesIn v.2 v.1 with
    | .ok rs => .ok rs
    | .error f => .error (.record f)

end Entail.Record
