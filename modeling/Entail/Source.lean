import Entail.FailureKind
import Entail.Files
import Entail.Json.Printer
import Entail.Record
import Entail.Text.Characters
import Entail.Yaml.Printer

/-!
# Rule sources

A rule source is a file or the text itself: `Source.read` takes a single line for a path if it names a file or
ends like the name of a rule file. Line breaks are read as line feeds. `Source.loadRecords` reads rules from a file,
and `Source.write` writes rules as JSON or as YAML, by the ending of the path.
-/

namespace Entail

/-- A source by its path, or a text that may be a path. -/
inductive Source where
  | path (path : String)
  | text (text : String)

inductive SourceFault where
  | path (path : String) (f : PathFault)
  | embeddedNul
  | notText

namespace SourceFault

def systemText (path : String) (f : PathFault) : String :=
  "[Errno " ++ toString f.number ++ "] " ++ f.text ++ ": " ++ path.inQuotes

def message : SourceFault → String
  | .path p f => "Cannot read rule source " ++ p ++ ": " ++ systemText p f
  | .embeddedNul => "embedded null byte"
  | .notText => "not UTF-8"

/-- The kind under which a fault is reported; only those of the system have one. -/
def kind? : SourceFault → Option FailureKind
  | .path _ _ => some .loadError
  | .embeddedNul | .notText => none

end SourceFault

inductive RecordsFault where
  | source (f : SourceFault)
  | document (f : Record.ParseFault)

def RecordsFault.kind? : RecordsFault → Option FailureKind
  | .source f => f.kind?
  | .document f => f.kind?

namespace Source

def rawText (f : Files) (path : String) : Except SourceFault String :=
  if path.contains '\x00' then .error .embeddedNul
  else
    match f.entry path with
    | .error e => .error (.path path e)
    | .ok .directory => .error (.path path .isDirectory)
    | .ok (.file none) => .error .notText
    | .ok (.file (some s)) => .ok s

/-- The text of a file with line feeds for line breaks. -/
def readText (f : Files) (path : String) : Except SourceFault String :=
  (rawText f path).map fun s => String.ofList (Text.unifyBreaks s.toList)

/-- The endings of the names of rule files. -/
def recordEndings : List String := [".yaml", ".yml", ".json"]

/-- Whether a text ends like the name of a rule file, whatever its case and the blanks around it. -/
def looksLikePath (s : String) : Bool :=
  let name := (Text.trim s.toList).map Char.toLower
  recordEndings.any fun e => e.toList.isSuffixOf name

def path? (f : Files) : Source → Option String
  | .path p => some (normalPath p)
  | .text s => if !s.contains '\n' && (f.isFile s || looksLikePath s) then some s else none

def read (f : Files) (s : Source) : Except SourceFault String :=
  match s.path? f, s with
  | some p, _ => readText f p
  | none, .text t => .ok t
  | none, .path p => readText f p

/-- The path that a source stands for when it must be a file. -/
def filePath : Source → String
  | .path p => normalPath p
  | .text s => s

def loadRecords (f : Files) (path : String) : Except RecordsFault (List Rule) :=
  match readText f path with
  | .error e => .error (.source e)
  | .ok s => (Record.parse s).mapError .document

/-- Rules as the text of a file of the given name. -/
def written (path : String) (rules : List Rule) : String :=
  if path.endsWith ".json" then (Record.document rules).json else Document.yaml (Record.documentFields rules)

def write (f : Files) (path : String) (rules : List Rule) : Except SourceFault Files :=
  if path.contains '\x00' then .error .embeddedNul
  else
    match f.write path (written path rules) with
    | .ok f => .ok f
    | .error e => .error (.path path e)

end Source

end Entail
