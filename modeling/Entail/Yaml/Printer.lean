import Entail.Value
import Entail.Yaml.Style

/-!
# Documents in block style

`Document.yaml` writes a document line by line: an entry of a list after a hyphen, a field after its name and a
colon. A mapping under a name is indented by two, a list is not; an empty list or mapping stands on the line of
its name. Field names are words that need no quotes.
-/

namespace Entail.Document

open Yaml (spaces scalarChars)

/-- How far a mapping is indented under its name. -/
def step : Nat := 2

/-- Blocks at an indentation, each on a line of its own. -/
def indented (indent : Nat) (blocks : List (List Char)) : List Char :=
  blocks.flatMap fun b => spaces indent ++ b

/-- Blocks at an indentation of which the first stands on a line that is begun. -/
def continued (indent : Nat) : List (List Char) → List Char
  | [] => []
  | b :: rest => b ++ indented indent rest

mutual

/-- What follows the name of a field at an indentation, whose colon ends at a column. -/
def fieldChars (indent column : Nat) : Document → List Char
  | .text s => ' ' :: scalarChars (indent + step) (column + 1) s.toList ++ ['\n']
  | .list [] => " []\n".toList
  | .list (d :: rest) => '\n' :: indented indent (itemBlocks indent (d :: rest))
  | .fields [] => " \x7b\x7d\n".toList
  | .fields (e :: rest) => '\n' :: indented (indent + step) (fieldBlocks (indent + step) (e :: rest))

/-- What follows the hyphen of an entry at an indentation. -/
def itemChars (indent : Nat) : Document → List Char
  | .text s => scalarChars (indent + step) (indent + step) s.toList ++ ['\n']
  | .list [] => "[]\n".toList
  | .list (d :: rest) => continued (indent + step) (itemBlocks (indent + step) (d :: rest))
  | .fields [] => "\x7b\x7d\n".toList
  | .fields (e :: rest) => continued (indent + step) (fieldBlocks (indent + step) (e :: rest))

def itemBlocks (indent : Nat) : List Document → List (List Char)
  | [] => []
  | d :: rest => ('-' :: ' ' :: d.itemChars indent) :: itemBlocks indent rest

def fieldBlocks (indent : Nat) : List (String × Document) → List (List Char)
  | [] => []
  | (k, d) :: rest =>
    (k.toList ++ ':' :: d.fieldChars indent (indent + k.length + 1)) :: fieldBlocks indent rest

end

def yaml (entries : List (String × Document)) : String := String.ofList (indented 0 (fieldBlocks 0 entries))

end Entail.Document
