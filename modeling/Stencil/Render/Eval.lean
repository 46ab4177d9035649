import Stencil.Act
import Stencil.Code.Basic
import Stencil.Render.Frame
import Stencil.Render.Host
import Stencil.Value.Operator
import Stencil.Value.Property

namespace Stencil

-- What a template is applied to.
structure Input where
  data : Value
  options : Value

structure Eval.State (σ : Type) where
  frame : Frame
  store : σ

abbrev Eval (σ : Type) :=
  Act (Eval.State σ) RenderError

-- A bare name is a field of the data or, if they have none of that name, of the options.
def Input.lookup (input : Input) (name : String) : Value :=
  let field (v : Value) := v.fields?.bind (Fields.get? · name)
  ((field input.data).or (field input.options)).getD .undefined

namespace Eval

variable {σ : Type}

def onFrame (f : Frame → Frame) : Eval σ Unit :=
  Act.modify fun s => { s with frame := f s.frame }

def onStore {α : Type} (x : σ → α × σ) : Eval σ α :=
  fun s =>
    let (a, store) := x s.store
    (.ok a, { s with store })

def tryOnStore {α : Type} (x : σ → Except RenderError α × σ) : Eval σ α :=
  fun s =>
    let (r, store) := x s.store
    (r, { s with store })

def newArray (host : Host σ) (items : List Value) : Eval σ Value := do
  return .array (← onStore host.fresh) items

def newObject (host : Host σ) (fields : List (String × Value)) : Eval σ Value := do
  return .object (← onStore host.fresh) fields

-- Leaves an empty buffer in the frame.
def takeBuffer (depth : Nat) : Eval σ Buffer := do
  let b := (← Act.get).frame.buffer depth
  onFrame (Frame.putBuffer depth [])
  return b

-- Renders the body of a loop for each pair, with the pair in the slots from `slot` on, and adds
-- what is rendered to a buffer.
def rounds (slot : Nat) (body : Eval σ Value) : List (Value × Value) → Buffer → Eval σ Buffer
  | [], b => return b
  | (key, value) :: pairs, b => do
    onFrame (Frame.bind slot key value)
    let piece ← body
    rounds slot body pairs (b.push piece.text)

-- A value or, if it is a function, what it gives for the data and options. The value is kept in a
-- temporary meanwhile.
def dethunk (host : Host σ) (input : Input) (depth : Nat) (v : Value) : Eval σ Value := do
  onFrame (Frame.putValue depth v)
  let v := (← Act.get).frame.value depth
  onFrame (Frame.putValue depth .undefined)
  match v with
  | .function f => tryOnStore (host.call f [input.data, input.options])
  | v => return v

mutual

def eval (host : Host σ) (input : Input) : Code → Eval σ Value
  | .text s => return .string s
  | .literal v => return v
  | .slot n => return (← Act.get).frame.slot n
  | .ambient name => return input.lookup name
  | .data => return input.data
  | .options => return input.options
  | .array items => do newArray host (← evalAll host input items)
  | .object entries => do newObject host (Fields.ofList (← evalEntries host input entries))
  | .member o property => do Act.ofExcept ((← eval host input o).get property)
  | .index o i => do
    let o ← eval host input o
    let i ← eval host input i
    Act.ofExcept (o.getIndex i)
  | .call callee arguments => do
    let f ← eval host input callee
    let arguments ← evalAll host input arguments
    match f with
    | .function f => tryOnStore (host.call f arguments)
    | _ => Act.fail (.notCallable callee.describe)
  | .unary op operand => do return (← eval host input operand).unary op
  | .binary op lhs rhs => do
    let lhs ← eval host input lhs
    match op, lhs.isTruthy with
    | .and, false | .or, true => return lhs
    | .and, true | .or, false => eval host input rhs
    | op, _ => return lhs.binary op (← eval host input rhs)
  | .cond test consequent alternate => do
    if (← eval host input test).isTruthy then eval host input consequent
    else eval host input alternate
  | .dethunk temp value => do dethunk host input temp.depth (← eval host input value)
  | .each buffer slot _ _ container body => do
    let container ← eval host input container
    let b ← takeBuffer buffer.depth
    let b ← rounds slot (eval host input body) (host.pairs container) b.clear
    onFrame (Frame.truncate slot)
    let output := String.join b
    onFrame (Frame.putBuffer buffer.depth b.clear)
    return .string output
  | .invoke d o selector name => do
    let d ← eval host input d
    let o ← eval host input o
    let selector ← eval host input selector
    let selector :=
      match name with
      | some name => if selector.isNullish then .string name else selector
      | none => selector
    return .string (← tryOnStore (host.invoke selector d o))
  | .merge sources => do
    let sources ← evalAll host input sources
    newObject host (← onStore (host.merge sources))

def evalAll (host : Host σ) (input : Input) : List Code → Eval σ (List Value)
  | [] => return []
  | c :: cs => do
    let v ← eval host input c
    let vs ← evalAll host input cs
    return v :: vs

def evalEntries (host : Host σ) (input : Input) : List (String × Code) → Eval σ (List (String × Value))
  | [] => return []
  | (key, c) :: entries => do
    let v ← eval host input c
    let vs ← evalEntries host input entries
    return (key, v) :: vs

end
end Eval

namespace Program

variable {σ : Type}

-- Empty objects take the place of data and options that are undefined or null.
def orEmpty (id : Nat) (v : Value) : Value :=
  if v.isNullish then .object id [] else v

-- The output of a template for its data and options.
def apply (p : Program) (host : Host σ) (data options : Value) (store : σ) :
    Except RenderError String × σ :=
  let (i, store) := host.fresh store
  let (j, store) := host.fresh store
  let input : Input := ⟨orEmpty i data, orEmpty j options⟩
  match Eval.eval host input p.body ⟨.start p.maxDepth, store⟩ with
  | (.ok v, s) => (.ok v.text, s.store)
  | (.error e, s) => (.error e, s.store)

end Program
end Stencil
