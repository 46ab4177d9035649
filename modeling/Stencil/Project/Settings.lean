import Stencil.Compile.Basic
import Stencil.Glob.Reader
import Stencil.Json.Reader
import Stencil.Path
import Stencil.Project.Error
import Stencil.Project.Files

namespace Stencil

-- What the settings file of a project says.
structure SettingsFile where
  extensions : Option (List String)
  ignore : List String
  names : LoopNames

namespace SettingsFile

def default : SettingsFile :=
  ⟨none, [], .default⟩

def name : String :=
  "tmplc.json"

def text? : Json → Option String
  | .string s => some s
  | _ => none

def texts? : Json → Option (List String)
  | .array items => items.mapM text?
  | _ => none

-- A member that is known is written at most once.
def member? (members : List (String × Json)) (name : String) : Option (Option Json) :=
  match members.filter (·.1 == name) with
  | [] => some none
  | [(_, value)] => some (some value)
  | _ => none

def setting? {α : Type} (members : List (String × Json)) (name : String) (missing : α)
    (read? : Json → Option α) : Option α := do
  match ← member? members name with
  | none => return missing
  | some value => read? value

-- Members that are not known are left alone.
def ofJson? : Json → Option SettingsFile
  | .object members => do
    let extensions ← setting? members "extensions" none extensions?
    let ignore ← setting? members "ignore" [] texts?
    let key ← setting? members "keyVar" LoopNames.default.key text?
    let value ← setting? members "valueVar" LoopNames.default.value text?
    return ⟨extensions, ignore, key, value⟩
  | _ => none
where
  extensions? : Json → Option (Option (List String))
    | .null => some none
    | value => (texts? value).map some

def load (files : Files) (path : String) : Except ProjectError SettingsFile :=
  match files.read? path with
  | none => .ok default
  | some none => .error (.unreadable path)
  | some (some text) =>
    match (Json.read? Json.fileDepth text).bind ofJson? with
    | some file => .ok file
    | none => .error (.invalidSettings path)

end SettingsFile

-- How the templates of a project are found and compiled.
structure Settings where
  root : String
  -- What the names of template files end in, each with a leading dot.
  extensions : List String
  patterns : List String
  ignore : List Glob
  names : LoopNames

namespace Settings

def dotted (extension : String) : String :=
  match extension.toList with
  | '.' :: _ => extension
  | _ => "." ++ extension

def alwaysIgnored : List String :=
  ["**/node_modules/**", "**/.git/**"]

def globs : List String → Except ProjectError (List Glob)
  | [] => .ok []
  | pattern :: patterns =>
    match Glob.read? pattern with
    | none => .error (.invalidIgnore pattern)
    | some glob =>
      match globs patterns with
      | .ok rest => .ok (glob :: rest)
      | .error e => .error e

def filePath (root : String) : String :=
  Path.join root SettingsFile.name

def load (files : Files) (root : String) (ignore : List String) : Except ProjectError Settings := do
  let file ← SettingsFile.load files (filePath root)
  let extensions := (file.extensions.getD [".tmpl.json"]).map dotted
  let patterns := alwaysIgnored ++ file.ignore ++ ignore
  return ⟨root, extensions, patterns, ← globs patterns, file.names⟩

-- The longest extension that a path ends in.
def extension? (s : Settings) (path : String) : Option String :=
  s.extensions.foldl (fun longest extension =>
    if extension.toList.isSuffixOf path.toList then
      match longest with
      | some l => if l.utf8ByteSize < extension.utf8ByteSize then some extension else some l
      | none => some extension
    else longest) none

-- Whether a path is that of a template file.
def covers (s : Settings) (path : String) : Bool :=
  let relative := (Path.relative? s.root path).getD path
  (s.extension? path).isSome && !s.ignore.any (·.isMatch relative)

-- The name of a template: its path below the root without the extension.
def templateName? (s : Settings) (path : String) : Option String := do
  let relative ← Path.relative? s.root path
  let extension ← s.extension? relative
  let cs := relative.toList
  match cs.take (cs.length - extension.toList.length) with
  | [] => none
  | stem => some (.ofList (stem.map fun c => if c = '\\' then '/' else c))

end Settings
end Stencil
