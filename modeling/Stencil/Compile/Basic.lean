import Stencil.Act
import Stencil.Expr.Reader
import Stencil.Header.If
import Stencil.Header.Tmpl
import Stencil.Tree.Basic

namespace Stencil

-- The names that a loop binds if it names none itself.
def LoopNames.default : LoopNames :=
  ⟨"$index", "$value"⟩

-- The state of a compilation. `pending` holds once the group of siblings at hand has a part, so that
-- what follows is joined to a text.
structure Compile.Context where
  scope : Scope
  pending : Bool
deriving DecidableEq

abbrev Compile :=
  Act Compile.Context CompileError

-- The code of one node: one that always gives a text, or one that may give any value.
inductive Compile.Fragment
  | text (code : Code)
  | value (code : Code)

namespace Compile

def Fragment.code : Fragment → Code
  | text code | value code => code

def scope : Compile Scope := do
  return (← Act.get).scope

def check (directive : String) {α : Type} (x : Except CompileFault α) : Compile α :=
  match x with
  | .ok a => pure a
  | .error fault => Act.fail ⟨fault, directive⟩

def expression (directive : String) (cs : List Char) : Compile Code := do
  match Expr.read cs with
  | .ok e => return e.toCode (← scope)
  | .error e => Act.fail ⟨.expression e, directive⟩

-- Compiles a group of siblings of its own.
def group {α : Type} (x : Compile α) : Compile α :=
  Act.within (fun c => { c with pending := false }) x (fun c c' => { c' with pending := c.pending })

def startGroup : Compile Unit :=
  Act.modify fun c => { c with pending := false }

def inLoop (names : LoopNames) {α : Type} (x : Compile α) : Compile α :=
  Act.within (fun c => { c with scope := (c.scope.push names).enter }) x
    (fun _ c => { c with scope := c.scope.leave.pop })

-- Adjacent texts become one.
def join : Code → Code → Code
  | .text s, .text t => .text (s ++ t)
  | lhs, rhs => .concat lhs rhs

-- Adds a fragment to the code of its group. A group that starts with a value is seeded with the
-- empty text, so that its parts are joined and not added.
def append (code : Code) (fragment : Fragment) : Compile Code := do
  let pending := (← Act.get).pending
  Act.modify fun c => { c with pending := true }
  return if pending then join code fragment.code
    else
      match fragment with
      | .text code => code
      | .value code => .concat .empty code

def accessors (directive : String) (code : Code) : List (List Char) → Compile Code
  | [] => pure code
  | piece :: pieces => do
    match trim piece with
    | [] => Act.fail ⟨.emptyAccessor, directive⟩
    | accessor =>
      let callee ← expression directive accessor
      accessors directive (.call callee [code]) pieces

-- The value of an expression, passed through the accessors that follow it after arrows.
def substitution (directive : String) (content : List Char) : Compile Code := do
  match splitOutside ['=', '>'] content with
  | [] => Act.fail ⟨.emptySubstitution, directive⟩
  | base :: pieces =>
    match trim base with
    | [] => Act.fail ⟨.emptySubstitution, directive⟩
    | base =>
      let value ← expression directive base
      accessors directive (.dethunk (← scope).valueTemp value) pieces

-- The data for a sub-template that is given none: the data at hand, with the loop variables.
def passedData (s : Scope) : Code :=
  if s.loops.isEmpty then .data
  else .merge [.data, .object (s.names.map fun (name, slot) => (name, .slot slot))]

-- An argument of a sub-template: an expression, or what takes its place if it is missing.
def argument (directive : String) (given : Option (List Char)) (missing : Code) : Compile Code :=
  match given with
  | some cs => expression directive cs
  | none => pure missing

-- A selector that is a bare name stands for itself if it has no value.
def ownName : Code → Option String
  | .ambient name => some name
  | _ => none

def invocation (directive : String) (content : List Char) : Compile Code := do
  let header ← check directive (TmplHeader.read content)
  let first ← argument directive header.data (passedData (← scope))
  let second ← argument directive header.options .options
  let selector ← expression directive header.selector
  return .invoke first second selector (ownName selector)

-- A branch of a conditional after the first: its condition, if it has one, and its output.
structure Arm where
  test : Option Code
  body : Code

-- The first branch that applies, and the empty text if none does.
def choose : List Arm → Code
  | [] => .empty
  | ⟨some test, body⟩ :: arms => .cond test body (choose arms)
  | ⟨none, body⟩ :: _ => body

def firstTest (directive : String) (content : List Char) : Compile Code :=
  match IfHeader.condition? content with
  | some condition => expression directive condition
  | none => Act.fail ⟨.missingCondition, directive⟩

def elseTest (directive : String) (content : List Char) (isLast : Bool) : Compile (Option Code) :=
  match IfHeader.elseCondition? content with
  | some condition => return some (← expression directive condition)
  | none => if isLast then pure none else Act.fail ⟨.elseNotLast, directive⟩

mutual

def node (defaults : LoopNames) : Node → Compile Fragment
  | .text s => return .text (.text s)
  | .tag kind content children => do
    let directive := (Node.tag kind content children).source
    match kind with
    | "=" => return .value (← substitution directive content.toList)
    | "if" =>
      let test ← firstTest directive content.toList
      let (body, arms) ← group (branches defaults directive children .empty)
      return .text (choose (⟨some test, body⟩ :: arms))
    | "each" =>
      let header ← check directive (EachHeader.read defaults content.toList)
      let container ← expression directive header.container
      let s ← scope
      let body ← inLoop header.names (group (nodes defaults children .empty))
      return .text
        (.each s.bufferTemp s.slotCount header.names.key header.names.value container body)
    | "tmpl" => return .text (← invocation directive content.toList)
    | "else" => Act.fail ⟨.elseOutside, directive⟩
    | kind => Act.fail ⟨.unknownKind kind, directive⟩

-- Adds the code of siblings to that of the siblings before them.
def nodes (defaults : LoopNames) : List Node → Code → Compile Code
  | [], code => pure code
  | n :: ns, code => do
    let fragment ← node defaults n
    nodes defaults ns (← append code fragment)

-- What remains of a branch whose code so far is given, and the branches after it. Each `else`
-- starts a branch, with its own children at the head.
def branches (defaults : LoopNames) (directive : String) :
    List Node → Code → Compile (Code × List Arm)
  | [], code => pure (code, [])
  | .tag "else" content children :: ns, code => do
    let test ← elseTest directive content.toList (!ns.any Node.isElse)
    startGroup
    let start ← nodes defaults children .empty
    let (body, arms) ← branches defaults directive ns start
    return (code, ⟨test, body⟩ :: arms)
  | n :: ns, code => do
    let fragment ← node defaults n
    branches defaults directive ns (← append code fragment)

end

end Compile

-- Compiles a template whose loops bind `defaults` where they name nothing else.
def compile (defaults : LoopNames) (tree : List Node) : Except CompileError Program :=
  match Compile.group (Compile.nodes defaults tree .empty) ⟨.empty, false⟩ with
  | (.ok body, context) => .ok ⟨body, context.scope.maxDepth⟩
  | (.error e, _) => .error e

end Stencil
