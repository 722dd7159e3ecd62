import Entail.Settings.Coercion
import Entail.Settings.DotEnv

/-!
# Where settings come from

A setting is taken from the first of these that has it: keywords, environment variables, a file of variables,
and the default. Variables carry a common beginning, and names match in any case. The settings of an
environment without keywords are read once and kept until they are forgotten; faulty ones are not kept.
-/

namespace Entail

/-- The variables that are set, the file of variables, and the settings that were read from them. -/
structure Environment where
  assigned : List (String × String) := []
  file : Option String := none
  kept : Option Settings := none

namespace Environment

def variableBeginning : String := "saturation_"

def lowerCase (s : String) : String := s.map Char.toLower

/-- Replaces the value of a name, which keeps its place, or adds it at the end. -/
def put {β : Type} : List (String × β) → String → β → List (String × β)
  | [], k, v => [(k, v)]
  | (k', v') :: rest, k, v => if k' = k then (k, v) :: rest else (k', v') :: put rest k v

def set (e : Environment) (name value : String) : Environment := { e with assigned := put e.assigned name value }

def unset (e : Environment) (name : String) : Environment :=
  { e with assigned := e.assigned.filter (·.1 ≠ name) }

/-- The entries whose name is the given one in any case. -/
def named {β : Type} (entries : List (String × β)) (name : String) : List β :=
  (entries.filter fun p => lowerCase p.1 = name).map (·.2)

/-- What a reference in the file stands for: what the file has for the name so far, which is no text if it has no
value, and else what the variable of that name holds. -/
def referent (e : Environment) (entries : List (String × Option String)) (name : String) : Option String :=
  match entries.lookup name with
  | some value => some (value.getD "")
  | none => e.assigned.lookup name

/-- The entries of the file, a repeated name keeping its first place and its last value. -/
def fileEntries (e : Environment) : List (String × Option String) :=
  match e.file with
  | some text =>
    (DotEnv.parse text).foldl
      (fun acc b => put acc b.name (b.value.map (Reference.expand (e.referent acc)))) []
  | none => []

/-- What keywords, variables and, if it is to be read, the file have for a setting. Of keywords that differ only in
case the first counts, of variables and entries of the file the last. -/
def source (e : Environment) (keywords : List (String × Value)) (readFile : Bool) (x : Setting) : Option Value :=
  let name := variableBeginning ++ x.name
  (named keywords x.name).head? <|> ((named e.assigned name).getLast?.map .str) <|>
    (if readFile then ((named e.fileEntries name).getLast?.join).map .str else none)

def settings (e : Environment) (keywords : List (String × Value)) (readFile : Bool) :
    Except (List (Setting × SettingFault)) Settings :=
  Settings.ofSource (e.source keywords readFile)

/-- The settings without keywords, which are kept once they are read. -/
def keptSettings (e : Environment) : Except (List (Setting × SettingFault)) Settings × Environment :=
  match e.kept with
  | some s => (.ok s, e)
  | none =>
    match e.settings [] true with
    | .ok s => (.ok s, { e with kept := some s })
    | .error fs => (.error fs, e)

def forget (e : Environment) : Environment := { e with kept := none }

end Environment

end Entail
