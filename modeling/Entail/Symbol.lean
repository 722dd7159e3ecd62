import Entail.Value.Literal

/-!
# Symbols

A `SymbolTable` gives each name a `Symbol`, numbered by first sight and marked with the table's owner number, so
that symbols of different tables are never equal.

* `intern`, `lookup?` : the symbol of a name, with and without adding it;
* `nameOf?`, `resolve` : the name of a symbol, which only the table that issued it knows;
* `Registry` : tables with the owner numbers 1, 2, ... in order of opening.
-/

namespace Entail

/-- The number of a name in the table of an owner. -/
structure Symbol where
  owner : Nat
  index : Nat
  deriving DecidableEq

/-- An owner and an index with the marks between them, as messages show them. -/
def numberedText (owner index : Int) : String :=
  String.ofList ('#' :: Text.signed owner ++ ':' :: Text.signed index)

def Symbol.text (s : Symbol) : String := numberedText s.owner s.index

/-- What may be passed in the place of a symbol: any two numbers, or a value that is no symbol at all. -/
inductive Handle where
  | numbered (owner index : Int)
  | value (v : Value)

namespace Handle

def ofSymbol (s : Symbol) : Handle := .numbered s.owner s.index

def text : Handle → String
  | .numbered owner index => numberedText owner index
  | .value v => v.literal

end Handle

/-- The names of one owner, in order of first sight. -/
structure SymbolTable where
  owner : Nat
  names : List String
  deriving DecidableEq

namespace SymbolTable

def empty (owner : Nat) : SymbolTable := ⟨owner, []⟩

def size (t : SymbolTable) : Nat := t.names.length

def lookup? (t : SymbolTable) (name : String) : Option Symbol := (t.names.idxOf? name).map (Symbol.mk t.owner)

/-- The symbol of a name, which is added if the table does not have it. -/
def intern (t : SymbolTable) (name : String) : Symbol × SymbolTable :=
  match t.lookup? name with
  | some s => (s, t)
  | none => (⟨t.owner, t.size⟩, { t with names := t.names ++ [name] })

def internAll (t : SymbolTable) : List String → List Symbol × SymbolTable
  | [] => ([], t)
  | name :: rest =>
    let (s, t) := t.intern name
    let (ss, t) := t.internAll rest
    (s :: ss, t)

def nameOf? (t : SymbolTable) (s : Symbol) : Option String := if s.owner = t.owner then t.names[s.index]? else none

/-- The name behind a handle; a handle that this table did not issue comes back. -/
def resolve (t : SymbolTable) : Handle → Except Handle String
  | .numbered owner index =>
    if owner = t.owner ∧ 0 ≤ index then
      match t.names[index.toNat]? with
      | some name => .ok name
      | none => .error (.numbered owner index)
    else .error (.numbered owner index)
  | .value v => .error (.value v)

end SymbolTable

/-- Symbol tables in order of opening. -/
structure Registry where
  tables : List SymbolTable

namespace Registry

def empty : Registry := ⟨[]⟩

/-- Adds an empty table, whose owner number is one more than its place. -/
def openTable (r : Registry) : Registry := ⟨r.tables ++ [.empty (r.tables.length + 1)]⟩

def table? (r : Registry) (i : Nat) : Option SymbolTable := r.tables[i]?

def intern? (r : Registry) (i : Nat) (name : String) : Option (Symbol × Registry) :=
  (r.table? i).map fun t => ((t.intern name).1, ⟨r.tables.set i (t.intern name).2⟩)

end Registry

end Entail
