/-!
# Tokens

The tokens of a document text and the faults of its form.
-/

namespace Entail.Yaml

inductive Fault where
  | character
  | directive
  | versionLength (digits : Nat)
  | indentation
  | key
  | quotation
  | escape
  | codePoint (n : Nat)
  | blockHeader
  | anchor
  | tag
  | misplaced
  | tooManyDocuments
  | unknownAlias
  | repeatedAnchor
  | unknownTag
  | kind
  | binary
  | entry
  | mergeSource
  | unhashableKey
  deriving DecidableEq

/-- A tag as it is written: a handle, if it has one, and what follows. -/
structure Tag where
  handle : Option String
  suffix : String
  deriving DecidableEq

inductive Directive where
  | version (major : Nat)
  | tag (handle beginning : String)
  | other
  deriving DecidableEq

inductive Token where
  | directive (d : Directive)
  | documentStart
  | documentEnd
  | blockSequenceStart
  | blockMappingStart
  | blockEnd
  | flowSequenceStart
  | flowSequenceEnd
  | flowMappingStart
  | flowMappingEnd
  | blockEntry
  | flowEntry
  | key
  | value
  | alias (name : String)
  | anchor (name : String)
  | tag (t : Tag)
  | scalar (text : String) (isPlain : Bool)
  deriving DecidableEq

end Entail.Yaml
