/-!
# Files by path

`Files` is what a working directory holds: directories, and files with their texts. A path is resolved name by
name from the working directory; what lies outside it is not known, except that it is a directory.

* `Files.entry` : what a path names;
* `Files.write` : writes a file, which replaces one of that name;
* `normalPath` : a path without its redundant parts.
-/

namespace Entail

/-- What a name stands for. A file has no text if its bytes are no UTF-8. -/
inductive Entry where
  | directory
  | file (text : Option String)

inductive PathFault where
  | missing
  | notDirectory
  | isDirectory
  | nameTooLong
  deriving DecidableEq

namespace PathFault

def number : PathFault → Nat
  | .missing => 2
  | .notDirectory => 20
  | .isDirectory => 21
  | .nameTooLong => 36

def text : PathFault → String
  | .missing => "No such file or directory"
  | .notDirectory => "Not a directory"
  | .isDirectory => "Is a directory"
  | .nameTooLong => "File name too long"

end PathFault

def pathNames (path : String) : List String := ((path.toList.splitOn '/').map String.ofList).filter (· ≠ "")

/-- A path without empty names and single points; the empty path is a point. Two slashes in front are kept. -/
def normalPath (path : String) : String :=
  let root := match path.toList with
    | '/' :: '/' :: '/' :: _ => "/"
    | '/' :: '/' :: _ => "//"
    | '/' :: _ => "/"
    | _ => ""
  let normal := root ++ "/".intercalate ((pathNames path).filter (· ≠ "."))
  if normal = "" then "." else normal

/-- Entries by the names of their paths, from the working directory on. -/
structure Files where
  entries : List (List String × Entry)

namespace Files

def empty : Files := ⟨[]⟩

/-- The longest name and the longest path, in bytes. -/
def nameLimit : Nat := 255

def pathLimit : Nat := 4095

/-- A place by its names from the working directory, or outside it. -/
abbrev Place := Option (List String)

/-- What stands at a place. -/
def entryAt? (f : Files) : Place → Option Entry
  | none => some .directory
  | some [] => some .directory
  | some names => f.entries.lookup names

/-- The place of a name at a place. -/
def enter (f : Files) (place : Place) (name : String) : Except PathFault Place :=
  match f.entryAt? place with
  | none => .error .missing
  | some (.file _) => .error .notDirectory
  | some .directory =>
    if name = "." then .ok place
    else if name = ".." then .ok (match place with | some (n :: ns) => some (n :: ns).dropLast | _ => none)
    else if nameLimit < name.utf8ByteSize then .error .nameTooLong
    else
      match place with
      | none => .error .missing
      | some names => .ok (some (names ++ [name]))

/-- Where a path starts. -/
def origin (path : String) : Place := if path.startsWith "/" then none else some []

/-- Whether a path can only name a directory. -/
def namesDirectory (path : String) : Bool := path.toList.getLast? = some '/'

def entry (f : Files) (path : String) : Except PathFault Entry :=
  if path = "" then .error .missing
  else if pathLimit < path.utf8ByteSize then .error .nameTooLong
  else do
    let place ← (pathNames path).foldlM f.enter (origin path)
    match f.entryAt? place with
    | none => .error .missing
    | some (.file text) => if namesDirectory path then .error .notDirectory else .ok (.file text)
    | some .directory => .ok .directory

def isFile (f : Files) (path : String) : Bool :=
  !path.contains '\x00' &&
    match f.entry path with
    | .ok (.file _) => true
    | _ => false

def put (f : Files) (names : List String) (e : Entry) : Files :=
  ⟨(names, e) :: f.entries.filter fun x => x.1 ≠ names⟩

def write (f : Files) (path text : String) : Except PathFault Files :=
  if path = "" then .error .missing
  else if pathLimit < path.utf8ByteSize then .error .nameTooLong
  else do
    let place ← (pathNames path).foldlM f.enter (origin path)
    match place, f.entryAt? place with
    | _, some .directory => .error .isDirectory
    | none, _ => .error .isDirectory
    | some names, _ => if namesDirectory path then .error .isDirectory else .ok (f.put names (.file (some text)))

/-- The files with an entry added at a path, and with the directories that it needs. -/
def create (f : Files) (path : String) (e : Entry) : Files :=
  let names := pathNames path
  let f := (List.range names.length).foldl
    (fun f n => if (f.entryAt? (some (names.take n))).isNone then f.put (names.take n) .directory else f) f
  f.put names e

end Files

end Entail
