import Stencil.Code.Basic
import Stencil.Number.Remainder
import Stencil.Source.Literal
import Stencil.Source.Writer

-- The code of a template as the source of a function. The function relies on four helpers: a lookup
-- of names, a loop, a merge of objects and a call of templates.
namespace Stencil.Source

variable (literal : String → String)

def writeKey (key : String) (w : Writer) : Writer :=
  w.push (if isName key.toList then key else literal key)

def numberText (x : Float) : String :=
  if Number.isNegative x && !(x == 0) then "(" ++ Number.text x ++ ")" else Number.text x

mutual

def writeValue : Value → Writer → Writer
  | .undefined, w => w.push "undefined"
  | .null, w => w.push "null"
  | .bool b, w => w.push (if b then "true" else "false")
  | .number x, w => w.push (numberText x)
  | .string s, w => w.push (literal s)
  | .array _ items, w => (writeItems items (w.push "[")).push "]"
  | .object _ fields, w => (writeFields fields (w.push "\x7b")).push "\x7d"
  | .function f, w => w.push f.name

def writeItems : List Value → Writer → Writer
  | [], w => w
  | [v], w => writeValue v w
  | v :: vs, w => writeItems vs ((writeValue v w).push ", ")

def writeFields : List (String × Value) → Writer → Writer
  | [], w => w
  | [(key, v)], w => writeValue v ((writeKey literal key w).push ": ")
  | (key, v) :: fields, w =>
    writeFields fields ((writeValue v ((writeKey literal key w).push ": ")).push ", ")

end

mutual

def write : Code → Writer → Writer
  | .text s, w => w.push (literal s)
  | .literal v, w => writeValue literal v w
  | .slot n, w => w.push (w.nameOf n)
  | .ambient name, w => w.push ("$lookup(" ++ literal name ++ ")")
  | .data, w => w.push "$data"
  | .options, w => w.push "$options"
  | .array items, w => (writeList items (w.push "[")).push "]"
  | .object entries, w => (writeEntries entries (w.push "\x7b")).push "\x7d"
  | .member o property, w =>
    (write o w).push
      (if isName property.toList then "." ++ property else "[" ++ literal property ++ "]")
  | .index o i, w => (write i ((write o w).push "[")).push "]"
  | .call callee arguments, w => (writeList arguments ((write callee w).push "(")).push ")"
  | .unary op operand, w =>
    if operand.isUnary then (write operand (w.push (op.text ++ "("))).push ")"
    else write operand (w.push op.text)
  | .binary op lhs rhs, w =>
    (write rhs ((write lhs (w.push "(")).push (" " ++ op.text ++ " "))).push ")"
  | .cond test consequent alternate, w =>
    let w := (write test (w.push "(")).push " ? "
    (write alternate ((write consequent w).push " : ")).push ")"
  | .dethunk temp value, w =>
    let w := write value (w.push ("(typeof (" ++ temp.name ++ " = "))
    w.push (") === \"function\" ? " ++ temp.name ++ ".call(this, $data, $options) : "
      ++ temp.name ++ ")")
  | .each buffer _ key value container body, w =>
    let w := write container (w.push ("((" ++ buffer.name ++ " = []), $each("))
    let w := w.push (", function (" ++ key ++ ", " ++ value ++ ") \x7b")
    let mark := w.mark
    let w := ((w.bind key value).indent.newline).push (buffer.name ++ ".push(")
    let w := ((write body w).push ");").dedent.newline.unbind mark
    w.push ("\x7d), " ++ buffer.name ++ ".join(\"\"))")
  | .invoke d o selector name, w =>
    let w := (write o ((write d (w.push "$tmpl(")).push ", ")).push ", "
    match name with
    | some name => (write selector (w.push "(")).push (" ?? " ++ literal name ++ "))")
    | none => (write selector w).push ")"
  | .merge sources, w => (writeSources sources (w.push "$merge(\x7b\x7d")).push ")"

def writeList : List Code → Writer → Writer
  | [], w => w
  | [c], w => write c w
  | c :: cs, w => writeList cs ((write c w).push ", ")

def writeEntries : List (String × Code) → Writer → Writer
  | [], w => w
  | [(key, c)], w => write c ((writeKey literal key w).push ": ")
  | (key, c) :: entries, w =>
    writeEntries entries ((write c ((writeKey literal key w).push ": ")).push ", ")

def writeSources : List Code → Writer → Writer
  | [], w => w
  | c :: cs, w => writeSources cs (write c (w.push ", "))

end

def writeTemps (temps : List Temp) (w : Writer) : Writer :=
  match temps with
  | [] => w
  | temps => w.newline.push ("var " ++ ", ".intercalate (temps.map Temp.name) ++ ";")

-- The function of a program, with a name if it is given one.
def writeProgram (p : Program) (name : Option String) : Writer :=
  let w := (Writer.start.push ("function " ++ name.getD "" ++ "($data, $options) \x7b")).indent
  let w := (writeTemps p.body.temps w).newline.push "return "
  ((write literal p.body w).push ";").dedent.newline.push "\x7d" |>.newline

end Stencil.Source

namespace Stencil

def Program.source (p : Program) (literal : String → String) (name : Option String) : String :=
  (Source.writeProgram literal p name).code

end Stencil
