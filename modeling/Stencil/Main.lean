import Stencil.Project.Report

namespace Stencil.CommandLine

def help : String :=
  "Compile parse trees and render templates

Usage: tmplc [OPTIONS] [ENTRY]

Arguments:
  [ENTRY]  Template to render, named by its path relative to the template directory

Options:
  -t, --templates <TEMPLATES>  Directory containing the parse tree files
  -d, --data <DATA>            JSON file with the data object passed to the entry template
      --options <OPTIONS>      JSON file with the options object passed to the entry template
      --check                  Only compile, never render
      --emit-source            Print the generated source of every compiled template
  -w, --watch                  Run in watch mode
      --output <OUTPUT>        Output format [default: human] [possible values: human, json, machine]
      --timings                Show timing information
      --ignore <IGNORE>        Ignore patterns (glob)
  -v, --verbose                Verbose output
      --preserve-watch-output  Preserve watch output (don't clear screen)
  -h, --help                   Print help
  -V, --version                Print version
"

def usageText : UsageError → String
  | .unknownArgument => "unexpected argument found"
  | .invalidValue => "invalid value for an argument"
  | .argumentConflict => "an argument cannot be used multiple times"
  | .tooManyValues => "unexpected value for an argument found"
  | .displayHelp => help
  | .displayVersion => "tmplc 0.1.0\n"

-- What a file holds. Directories are no files.
def readFile? (path : String) : IO (Option (Option String)) := do
  try
    return some (some (← IO.FS.readFile path))
  catch
    | .noFileOrDirectory .. | .inappropriateType .. => return none
    | _ => return some none

partial def walk (entry : IO.FS.DirEntry) (path : String) : IO (List (String × Option String)) := do
  if ← entry.path.isDir then
    try
      let entries ← entry.path.readDir
      let found ← entries.toList.mapM fun e => walk e (Path.join path e.fileName)
      return found.flatten
    catch _ => return []
  else return [(path, (← readFile? path).join)]

-- The files that a run may ask for, as they are now.
def gather (root : String) (a : Arguments) : IO (List (String × Option String) × Files) := do
  let found ← walk ⟨root, "."⟩ root
  let asked := Settings.filePath root :: [a.data, a.options].filterMap id
  let single ← asked.filterMapM fun path => return (← readFile? path).map (path, ·)
  return (found ++ single, ⟨(single.lookup ·), fun _ => found⟩)

def diagnose (e : ProjectError) : IO UInt32 := do
  IO.eprintln ("Error: " ++ e.message)
  return 1

def runOnce (root : String) (a : Arguments) (files : Files) : IO UInt32 := do
  let start ← IO.monoMsNow
  match Settings.load files root a.ignore with
  | .error e => diagnose e
  | .ok settings =>
    let build := Build.run settings files
    let (printed, result) := build.report settings files a ((← IO.monoMsNow) - start)
    IO.print printed.output
    IO.eprint printed.errors
    match result with
    | .error e => diagnose e
    | .ok summary => return if 0 < summary.errors then 1 else 0

-- Runs again whenever a file has changed.
partial def watch (root : String) (a : Arguments) (seen : List (String × Option String)) : IO Unit := do
  IO.sleep 500
  let (contents, files) ← gather root a
  if contents != seen then
    if !a.preserveWatchOutput then IO.print "\x1b[2J\x1b[1;1H"
    IO.eprintln "File change detected. Rerunning...\n"
    discard <| runOnce root a files
  watch root a contents

end Stencil.CommandLine

open Stencil CommandLine in
def main (arguments : List String) : IO UInt32 := do
  match Arguments.read arguments with
  | .error e =>
    if e = .displayHelp || e = .displayVersion then
      IO.print (usageText e)
      return 0
    else
      IO.eprintln ("error: " ++ usageText e)
      return 2
  | .ok a =>
    let root ← match a.templates with
      | some root => pure root
      | none => pure (← IO.currentDir).toString
    let (contents, files) ← gather root a
    if a.watch then
      IO.eprintln "Starting watch mode...\n"
      discard <| runOnce root a files
      watch root a contents
      return 0
    else runOnce root a files
