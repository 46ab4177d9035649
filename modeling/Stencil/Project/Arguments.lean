namespace Stencil

-- How results and diagnostics are printed.
inductive Format
  | human
  | json
  | machine
deriving DecidableEq

def Format.ofText? : String → Option Format
  | "human" => some .human
  | "json" => some .json
  | "machine" => some .machine
  | _ => none

-- What a command line asks for.
structure Arguments where
  entry : Option String := none
  templates : Option String := none
  data : Option String := none
  options : Option String := none
  check : Bool := false
  emitSource : Bool := false
  watch : Bool := false
  output : Option Format := none
  timings : Bool := false
  ignore : List String := []
  verbose : Bool := false
  preserveWatchOutput : Bool := false
deriving DecidableEq, Inhabited

-- Why a command line asks for no run.
inductive UsageError
  | unknownArgument
  | invalidValue
  | argumentConflict
  | tooManyValues
  | displayHelp
  | displayVersion
deriving DecidableEq

namespace Arguments

inductive Flag
  | check | emitSource | watch | timings | verbose | preserveWatchOutput
deriving DecidableEq

inductive Setting
  | templates | data | options | output | ignore
deriving DecidableEq

inductive Switch
  | flag (f : Flag)
  | setting (s : Setting)
  | help
  | version
deriving DecidableEq

def Switch.ofName? : String → Option Switch
  | "templates" => some (.setting .templates)
  | "data" => some (.setting .data)
  | "options" => some (.setting .options)
  | "output" => some (.setting .output)
  | "ignore" => some (.setting .ignore)
  | "check" => some (.flag .check)
  | "emit-source" => some (.flag .emitSource)
  | "watch" => some (.flag .watch)
  | "timings" => some (.flag .timings)
  | "verbose" => some (.flag .verbose)
  | "preserve-watch-output" => some (.flag .preserveWatchOutput)
  | "help" => some .help
  | "version" => some .version
  | _ => none

def Switch.ofLetter? : Char → Option Switch
  | 't' => some (.setting .templates)
  | 'd' => some (.setting .data)
  | 'w' => some (.flag .watch)
  | 'v' => some (.flag .verbose)
  | 'h' => some .help
  | 'V' => some .version
  | _ => none

def format (a : Arguments) : Format :=
  a.output.getD .human

-- Nothing is rendered if the templates are only checked.
def renderEntry (a : Arguments) : Option String :=
  if a.check then none else a.entry

-- A flag is given at most once.
def raise (a : Arguments) (f : Flag) : Except UsageError Arguments :=
  let (given, raised) :=
    match f with
    | .check => (a.check, { a with check := true })
    | .emitSource => (a.emitSource, { a with emitSource := true })
    | .watch => (a.watch, { a with watch := true })
    | .timings => (a.timings, { a with timings := true })
    | .verbose => (a.verbose, { a with verbose := true })
    | .preserveWatchOutput => (a.preserveWatchOutput, { a with preserveWatchOutput := true })
  if given then .error .argumentConflict else .ok raised

-- A file name is given at most once and is not empty.
def file (old : Option String) (value : String) (set : Option String → Arguments) :
    Except UsageError Arguments :=
  if old.isSome then .error .argumentConflict
  else if value.isEmpty then .error .invalidValue
  else .ok (set (some value))

def put (a : Arguments) (s : Setting) (value : String) : Except UsageError Arguments :=
  match s with
  | .templates => file a.templates value fun v => { a with templates := v }
  | .data => file a.data value fun v => { a with data := v }
  | .options => file a.options value fun v => { a with options := v }
  | .output =>
    if a.output.isSome then .error .argumentConflict
    else
      match Format.ofText? value with
      | some f => .ok { a with output := some f }
      | none => .error .invalidValue
  | .ignore => .ok { a with ignore := a.ignore ++ [value] }

-- A setting whose value stands in an argument of its own is judged when the next thing comes up.
structure Pending where
  setting : Setting
  value : Option String

structure Reading where
  arguments : Arguments
  pending : Option Pending
  -- Whether all that follows is operands.
  onlyOperands : Bool

namespace Reading

def start : Reading :=
  ⟨{}, none, false⟩

def settle (r : Reading) : Except UsageError Reading :=
  match r.pending with
  | none => .ok r
  | some ⟨_, none⟩ => .error .invalidValue
  | some ⟨s, some value⟩ => do
    return { r with arguments := ← r.arguments.put s value, pending := none }

def flag (r : Reading) (f : Flag) : Except UsageError Reading := do
  let r ← r.settle
  return { r with arguments := ← r.arguments.raise f }

def setting (r : Reading) (s : Setting) (attached : Option String) : Except UsageError Reading := do
  let r ← r.settle
  match attached with
  | some value => return { r with arguments := ← r.arguments.put s value }
  | none => return { r with pending := some ⟨s, none⟩ }

-- Asking for information ends the reading.
def inform (r : Reading) (e : UsageError) : Except UsageError Reading := do
  let _ ← r.settle
  .error e

-- `--name` or `--name=value`.
def long (r : Reading) (cs : List Char) : Except UsageError Reading :=
  let name := cs.takeWhile (· != '=')
  let attached :=
    match cs.drop name.length with
    | _ :: value => some (String.ofList value)
    | [] => none
  match Switch.ofName? (.ofList name), attached with
  | none, _ => .error .unknownArgument
  | some (.setting s), attached => r.setting s attached
  | some _, some _ => .error .tooManyValues
  | some (.flag f), none => r.flag f
  | some .help, none => r.inform .displayHelp
  | some .version, none => r.inform .displayVersion

-- Letters after one hyphen. What follows the letter of a setting is its value.
def letters (r : Reading) : List Char → Except UsageError Reading
  | [] => .ok r
  | c :: cs =>
    match Switch.ofLetter? c with
    | none => .error .unknownArgument
    | some (.flag f) => do (← r.flag f).letters cs
    | some .help => r.inform .displayHelp
    | some .version => r.inform .displayVersion
    | some (.setting s) =>
      match cs with
      | [] => r.setting s none
      | '=' :: value => r.setting s (some (.ofList value))
      | value => r.setting s (some (.ofList value))

-- The only operand is the entry.
def operand (r : Reading) (value : String) : Except UsageError Reading :=
  if r.arguments.entry.isSome then .error .unknownArgument
  else do
    let r ← r.settle
    return { r with arguments := { r.arguments with entry := some value } }

def step (r : Reading) (argument : String) : Except UsageError Reading :=
  if r.onlyOperands then r.operand argument
  else
    match argument.toList, r.pending with
    | ['-', '-'], _ => .ok { r with onlyOperands := true }
    | '-' :: '-' :: cs, _ => r.long cs
    | '-' :: c :: cs, _ => r.letters (c :: cs)
    | _, some ⟨s, none⟩ => .ok { r with pending := some ⟨s, some argument⟩ }
    | _, _ => r.operand argument

end Reading

def read (arguments : List String) : Except UsageError Arguments := do
  let r ← arguments.foldlM Reading.step .start
  return (← r.settle).arguments

end Arguments
end Stencil
