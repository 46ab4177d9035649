import Stencil.Project.Settings
import Stencil.Render.Template
import Stencil.Tree.Json

namespace Stencil

-- A template file with the name of its template.
structure TemplateFile where
  name : String
  path : String
  text : Option String
deriving DecidableEq

namespace TemplateFile

-- Files are in the order of their names, and those of one name in the order of their paths.
def before (a b : TemplateFile) : Bool :=
  if a.name = b.name then Path.pieces a.path.toList < Path.pieces b.path.toList
  else a.name < b.name

def insert (f : TemplateFile) : List TemplateFile → List TemplateFile
  | [] => [f]
  | g :: gs => if f.before g then f :: g :: gs else g :: insert f gs

def sort (fs : List TemplateFile) : List TemplateFile :=
  fs.foldr insert []

-- The template files of a project.
def find (settings : Settings) (files : Files) : List TemplateFile :=
  sort <| (files.inside settings.root).filterMap fun (path, text) =>
    if settings.covers path then
      (settings.templateName? path).map fun name => ⟨name, path, text⟩
    else none

end TemplateFile

-- Why there is no template in a file.
inductive Failure
  | unreadable (detail : String)
  | noTree (detail : String)
  | compile (e : CompileError)

namespace Failure

def code : Failure → String
  | unreadable _ | noTree _ => "load"
  | compile e => e.code

def message : Failure → String
  | unreadable detail => "Failed to read file: " ++ detail
  | noTree detail => "Invalid parse tree: " ++ detail
  | compile e => e.message

def directive? : Failure → Option String
  | unreadable _ | noTree _ => none
  | compile e => some e.directive

end Failure

-- The templates of a project in the order of their files, also those whose name another file has,
-- and the files without one.
structure Build where
  registry : Registry Template
  templates : List (String × Program)
  failures : List (String × Failure)

namespace Build

def compileText (names : LoopNames) (text : Option String) : Except Failure Program :=
  match text with
  | none => .error (.unreadable "stream did not contain valid UTF-8")
  | some text =>
    match Json.read? Json.fileDepth text with
    | none => .error (.noTree "not a JSON document")
    | some j =>
      match Node.treeOfJson j with
      | .error e => .error (.noTree e.message)
      | .ok tree =>
        match compile names tree with
        | .error e => .error (.compile e)
        | .ok p => .ok p

def empty : Build :=
  ⟨.empty, [], []⟩

-- A later file of the same name takes the place of an earlier one in the registry.
def add (names : LoopNames) (b : Build) (file : TemplateFile) : Build :=
  match compileText names file.text with
  | .ok p =>
    { b with
      registry := b.registry.insert file.name (.compiled p)
      templates := b.templates ++ [(file.name, p)] }
  | .error e => { b with failures := b.failures ++ [(file.path, e)] }

def ofFiles (names : LoopNames) (files : List TemplateFile) : Build :=
  files.foldl (add names) empty

def run (settings : Settings) (files : Files) : Build :=
  ofFiles settings.names (TemplateFile.find settings files)

def fileCount (b : Build) : Nat :=
  b.templates.length + b.failures.length

end Build
end Stencil
