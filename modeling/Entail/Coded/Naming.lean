import Entail.Coded.Basic
import Entail.Rule

/-!
# Names and symbols

* `Atom.encode` : the coded form of a ground atom, its predicate interned before its arguments;
* `Rule.encode` : that of a rule, the arguments of each atom interned before its predicate, and its variables numbered
  by first occurrence, premises first;
* `Atom.lookup?` : that of a ground atom all of whose names the table has, interning nothing;
* `Coded.Atom.decode` : a coded atom in names, its symbols named by a table and its slots by a list of variable names.
  A slot beyond the list gets a name of its own. `Coded.Rule.decode` does so for a rule with the names it carries.
-/

namespace Entail

/-! ## From names to symbols -/

/-- The coded form of a ground atom and the table with its names; an atom with a variable is refused. -/
def Atom.encode (a : Atom) (t : SymbolTable) : Except Atom (Coded.Atom × SymbolTable) :=
  if a.isGround then
    let (p, t) := t.intern a.predicate
    let (args, t) := t.internAll (a.args.map Term.name)
    .ok (⟨p, args.map .sym⟩, t)
  else .error a

def Atom.lookup? (a : Atom) (t : SymbolTable) : Option Coded.Atom :=
  if a.isGround then do
    let p ← t.lookup? a.predicate
    let args ← a.args.mapM fun arg => t.lookup? arg.name
    return ⟨p, args.map .sym⟩
  else none

namespace Coded

/-- What grows while a rule is encoded: the variables seen, in slot order, and the table. -/
structure Scope where
  names : List String
  table : SymbolTable

namespace Scope

/-- The slot of a variable, the next free one at its first occurrence. -/
def slot (sc : Scope) (name : String) : Nat × Scope :=
  match sc.names.idxOf? name with
  | some i => (i, sc)
  | none => (sc.names.length, { sc with names := sc.names ++ [name] })

def encodeTerm (sc : Scope) : Entail.Term → Term × Scope
  | .var name => let (i, sc) := sc.slot name; (.slot i, sc)
  | .const name => let (s, t) := sc.table.intern name; (.sym s, { sc with table := t })

def encodeTerms (sc : Scope) : List Entail.Term → List Term × Scope
  | [] => ([], sc)
  | t :: rest =>
    let (t, sc) := sc.encodeTerm t
    let (ts, sc) := sc.encodeTerms rest
    (t :: ts, sc)

def encodeAtom (sc : Scope) (a : Entail.Atom) : Atom × Scope :=
  let (args, sc) := sc.encodeTerms a.args
  let (p, t) := sc.table.intern a.predicate
  (⟨p, args⟩, { sc with table := t })

def encodeAtoms (sc : Scope) : List Entail.Atom → List Atom × Scope
  | [] => ([], sc)
  | a :: rest =>
    let (a, sc) := sc.encodeAtom a
    let (as, sc) := sc.encodeAtoms rest
    (a :: as, sc)

end Scope

end Coded

def Rule.encode (r : Rule) (t : SymbolTable) : Coded.Rule × SymbolTable :=
  let (premises, sc) := Coded.Scope.encodeAtoms ⟨[], t⟩ r.premises
  let (conclusion, sc) := sc.encodeAtom r.conclusion
  (⟨⟨premises, conclusion, sc.names.length⟩, sc.names⟩, sc.table)

/-! ## From symbols to names -/

namespace Coded

inductive DecodeFault where
  | unscoped (slot : Nat)
  | unknown (h : Handle)

namespace DecodeFault

def message : DecodeFault → String
  | .unscoped i => "Cannot resolve unscoped variable slot " ++ slotText i
  | .unknown h => h.text ++ " was not issued by this interner"

end DecodeFault

def nameOf (t : SymbolTable) (s : Symbol) : Except DecodeFault String :=
  match t.nameOf? s with
  | some name => .ok name
  | none => .error (.unknown (.ofSymbol s))

/-- The name of a slot, made up for slots beyond the list. -/
def slotName (names : List String) (i : Nat) : String := names.getD i ("V" ++ toString i)

def Term.decode (t : SymbolTable) (names : Option (List String)) : Term → Except DecodeFault Entail.Term
  | .sym s => (nameOf t s).map .const
  | .slot i =>
    match names with
    | some names => .ok (.var (slotName names i))
    | none => .error (.unscoped i)

/-- The atom in names; the arguments are named before the predicate. -/
def Atom.decode (t : SymbolTable) (names : Option (List String)) (a : Atom) : Except DecodeFault Entail.Atom := do
  let args ← a.args.mapM (Term.decode t names)
  let p ← nameOf t a.predicate
  return ⟨p, args⟩

def Rule.decode (t : SymbolTable) (r : Rule) : Except DecodeFault Entail.Rule := do
  let premises ← r.premises.mapM (Atom.decode t (some r.names))
  let conclusion ← r.conclusion.decode t (some r.names)
  return ⟨premises, conclusion⟩

end Coded

end Entail
