import Entail.Text.Numeral
import Entail.Value

/-!
# Documents as JSON

`Document.json` writes a document with each item and field on a line of its own, indented by two for each level.
A text stands between double quotes; control characters, the quote and the backslash are escaped.
-/

namespace Entail.Document

namespace Json

def textChar (c : Char) : List Char :=
  if c = '"' ∨ c = '\\' then ['\\', c]
  else if c = '\n' then ['\\', 'n']
  else if c = '\r' then ['\\', 'r']
  else if c = '\t' then ['\\', 't']
  else if c = '\x0c' then ['\\', 'f']
  else if c = '\x08' then ['\\', 'b']
  else if c < ' ' then '\\' :: 'u' :: Text.hexadecimal false 4 c.toNat
  else [c]

def textChars (s : String) : List Char := '"' :: s.toList.flatMap textChar ++ ['"']

def newLine (level : Nat) : List Char := '\n' :: List.replicate (2 * level) ' '

/-- Items with commas between them, each on a line of its own, between two marks; empty marks stand together. -/
def enclosed (opening closing : Char) (level : Nat) (items : List (List Char)) : List Char :=
  if items.isEmpty then [opening, closing]
  else
    opening :: newLine (level + 1) ++ (',' :: newLine (level + 1)).intercalate items ++ newLine level ++ [closing]

end Json

open Json

mutual

def jsonChars (level : Nat) : Document → List Char
  | .text s => textChars s
  | .list items => enclosed '[' ']' level (jsonItems (level + 1) items)
  | .fields entries => enclosed '\x7b' '\x7d' level (jsonFields (level + 1) entries)

def jsonItems (level : Nat) : List Document → List (List Char)
  | [] => []
  | d :: rest => d.jsonChars level :: jsonItems level rest

def jsonFields (level : Nat) : List (String × Document) → List (List Char)
  | [] => []
  | (k, d) :: rest => (textChars k ++ ':' :: ' ' :: d.jsonChars level) :: jsonFields level rest

end

def json (d : Document) : String := String.ofList (d.jsonChars 0)

end Entail.Document
