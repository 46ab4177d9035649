import Stencil.Json.Writer
import Stencil.Project.Arguments
import Stencil.Project.Build
import Stencil.Render.Native
import Stencil.Source.Code
import Stencil.Source.Literal
import Stencil.Value.Json

namespace Stencil

-- What a run has printed.
structure Printed where
  output : String
  errors : String
deriving DecidableEq

namespace Printed

def nothing : Printed :=
  ⟨"", ""⟩

def out (p : Printed) (s : String) : Printed :=
  { p with output := p.output ++ s }

def err (p : Printed) (s : String) : Printed :=
  { p with errors := p.errors ++ s }

def outLine (p : Printed) (s : String) : Printed :=
  p.out (s ++ "\n")

def errLine (p : Printed) (s : String) : Printed :=
  p.err (s ++ "\n")

def json (p : Printed) (members : List (String × Json)) : Printed :=
  p.outLine (Json.object members).text

end Printed

-- A message about a file, or about the rendering of an entry.
structure Diagnostic where
  place : String
  code : String
  message : String
deriving DecidableEq

namespace Diagnostic

def ofFailure (path : String) (f : Failure) : Diagnostic :=
  ⟨path, f.code, f.message⟩

def ofRenderError (entry : String) (e : RenderError) : Diagnostic :=
  ⟨entry, "render", e.message⟩

def escapeColons (cs : List Char) : List Char :=
  cs.flatMap fun c => if c = ':' then ['\\', ':'] else [c]

-- One record for other programs. The colons of a message are escaped.
def machine (d : Diagnostic) : String :=
  d.place ++ ":error:" ++ d.code ++ ":" ++ .ofList (escapeColons d.message.toList)

def human (d : Diagnostic) : String :=
  d.place ++ ": \x1b[31merror\x1b[0m[" ++ d.code ++ "]: " ++ d.message

end Diagnostic

-- What comes of a run over a project.
structure Summary where
  templates : Nat
  errors : Nat
  milliseconds : Nat
deriving DecidableEq

namespace Format

def failure (f : Format) (path : String) (e : Failure) (p : Printed) : Printed :=
  let d := Diagnostic.ofFailure path e
  match f with
  | human =>
    match e.directive? with
    | some directive => p.errLine (d.human ++ " in `" ++ directive ++ "`")
    | none => p.errLine d.human
  | json =>
    p.json [("type", .string "compile"), ("file", .string path), ("code", .string d.code),
      ("message", .string d.message),
      ("directive", match e.directive? with
        | some directive => .string directive
        | none => .null)]
  | machine => p.outLine d.machine

def renderError (f : Format) (entry : String) (e : RenderError) (p : Printed) : Printed :=
  let d := Diagnostic.ofRenderError entry e
  match f with
  | human => p.errLine d.human
  | json =>
    p.json [("type", .string "render"), ("template", .string entry), ("message", .string d.message)]
  | machine => p.outLine d.machine

def rendered (f : Format) (entry output : String) (p : Printed) : Printed :=
  match f with
  | human => p.outLine output
  | json =>
    p.json [("type", .string "output"), ("template", .string entry), ("output", .string output)]
  | machine => p.out output

def source (f : Format) (name source : String) (p : Printed) : Printed :=
  match f with
  | human => (p.outLine ("\x1b[2m// " ++ name ++ "\x1b[0m")).outLine source
  | json =>
    p.json [("type", .string "source"), ("template", .string name), ("source", .string source)]
  | machine => p.out source

def plural (n : Nat) (noun : String) : String :=
  toString n ++ " " ++ noun ++ if n = 1 then "" else "s"

def summary (f : Format) (s : Summary) (p : Printed) : Printed :=
  match f with
  | human =>
    if s.errors = 0 then
      p.errLine ("\n\x1b[32m✓\x1b[0m Compiled " ++ plural s.templates "template"
        ++ " (" ++ toString s.milliseconds ++ "ms)")
    else
      (p.errLine ("\n\x1b[31m✗\x1b[0m Found " ++ plural s.errors "error" ++ " in "
        ++ plural s.templates "template")).errLine ("Time: " ++ toString s.milliseconds ++ "ms")
  | json =>
    p.json [("type", .string "summary"), ("templates", .number (.int s.templates)),
      ("errors", .number (.int s.errors)), ("duration_ms", .number (.int s.milliseconds))]
  | machine => p

end Format

namespace Build

-- The name of a function in generated source: what no name may hold becomes an underscore.
def functionName (name : String) : String :=
  let cs := name.toList.map fun c => if isLetter c || isDigit c || c == '$' then c else '_'
  match cs with
  | c :: _ => .ofList (if isDigit c then '_' :: cs else cs)
  | [] => ""

def printVerbose (b : Build) (settings : Settings) (p : Printed) : Printed :=
  (p.errLine ("Ignoring " ++ ", ".intercalate settings.patterns)).errLine
    ("Compiled " ++ toString b.templates.length ++ " of " ++ toString b.fileCount ++ " templates")

def printFailures (b : Build) (f : Format) (p : Printed) : Printed :=
  b.failures.foldl (fun p (path, e) => f.failure path e p) p

def printSources (b : Build) (f : Format) (p : Printed) : Printed :=
  b.templates.foldl (fun p (name, program) =>
    f.source name (program.source Source.literal (some (functionName name))) p) p

-- A value that a file holds. Without a file it is undefined.
def loadValue (files : Files) (path : Option String) (next : Nat) :
    Except ProjectError (Value × Nat) :=
  match path with
  | none => .ok (.undefined, next)
  | some path =>
    match (files.read? path).join with
    | none => .error (.unreadable path)
    | some text =>
      match Json.read? Json.fileDepth text with
      | none => .error (.invalidJson path)
      | some j => .ok (Value.ofJson j next)

def renderEntry (b : Build) (files : Files) (a : Arguments) (entry : String) :
    Except ProjectError (Except RenderError String) := do
  let (data, next) ← loadValue files a.data 0
  let (options, next) ← loadValue files a.options next
  let store := { Store.start with next }
  return (Template.renderSelected Store.services b.registry (.string entry) data options store).1

-- Prints a build as the arguments ask for it. What was printed before an error is kept.
def report (b : Build) (settings : Settings) (files : Files) (a : Arguments) (milliseconds : Nat) :
    Printed × Except ProjectError Summary :=
  let f := a.format
  let p := if a.verbose then b.printVerbose settings .nothing else .nothing
  let p := b.printFailures f p
  let p := if a.emitSource then b.printSources f p else p
  match entryOutcome f p with
  | (p, .error e) => (p, .error e)
  | (p, .ok failed) =>
    let s : Summary := ⟨b.fileCount, b.failures.length + failed, milliseconds⟩
    let p := if a.timings then p.errLine ("\nTiming: " ++ toString milliseconds ++ "ms") else p
    (f.summary s p, .ok s)
where
  -- The number of errors in rendering the entry.
  entryOutcome (f : Format) (p : Printed) : Printed × Except ProjectError Nat :=
    match a.renderEntry with
    | none => (p, .ok 0)
    | some entry =>
      match b.renderEntry files a entry with
      | .error e => (p, .error e)
      | .ok (.ok output) => (f.rendered entry output p, .ok 0)
      | .ok (.error e) => (f.renderError entry e p, .ok 1)

end Build
end Stencil
