import Stencil.Proofs.Compiling.Scoping
import Stencil.Proofs.Printing.Basic

-- How the source of a node is put together from pieces that are written one after another.
namespace Stencil
namespace Code

-- The nodes right below a node, apart from the body of a loop.
def operands : Code → List Code
  | text _ | literal _ | slot _ | ambient _ | data | options => []
  | array items => items
  | object entries => entries.map (·.2)
  | member o _ => [o]
  | index o i => [o, i]
  | call callee arguments => callee :: arguments
  | unary _ operand => [operand]
  | binary _ lhs rhs => [lhs, rhs]
  | cond test consequent alternate => [test, consequent, alternate]
  | dethunk _ value => [value]
  | each _ _ _ _ container _ => [container]
  | invoke d o selector _ => [d, o, selector]
  | merge sources => sources

-- The names that are written for a node itself and are not those of loop variables.
def ownNames : Code → List String
  | ambient _ => ["$lookup"]
  | data => ["$data"]
  | options => ["$options"]
  | dethunk temp _ => [temp.name, "$data", "$options"]
  | each buffer _ _ _ _ _ => [buffer.name, "$each"]
  | invoke _ _ _ _ => ["$tmpl"]
  | merge _ => ["$merge"]
  | _ => []

theorem nodesAllAt_eq (d : Nat) (cs : List Code) : nodesAllAt d cs = cs.flatMap (nodesAt d) := by
  induction cs
  case nil => rfl
  case cons c cs hi => rw [nodesAllAt, hi, List.flatMap_cons]

theorem nodesEntriesAt_eq (d : Nat) (entries : List (String × Code)) :
    nodesEntriesAt d entries = (entries.map (·.2)).flatMap (nodesAt d) := by
  induction entries
  case nil => rfl
  case cons e entries hi => rw [nodesEntriesAt, hi, List.map_cons, List.flatMap_cons]

theorem nodesAt_eq (d : Nat) (c : Code) :
    c.nodesAt d = (d, c) ::
      (c.operands.flatMap (nodesAt d) ++ c.loopBody?.toList.flatMap (nodesAt (d + 1))) := by
  cases c <;> simp [nodesAt, operands, loopBody?, nodesAllAt_eq, nodesEntriesAt_eq]

theorem nodes_eq (c : Code) :
    c.nodes = c :: (c.operands ++ c.loopBody?.toList).flatMap nodes := by
  rw [←map_nodesAt 0 c, nodesAt_eq]
  simp [List.map_flatMap, map_nodesAt]

theorem nodes_subset {c c' : Code} (h : c' ∈ c.operands ++ c.loopBody?.toList) :
    c'.nodes ⊆ c.nodes := by
  intro n hn
  rw [nodes_eq c]
  exact .tail _ (List.mem_flatMap.mpr ⟨c', h, hn⟩)

theorem length_nodes_lt {c c' : Code} (h : c' ∈ c.operands ++ c.loopBody?.toList) :
    c'.nodes.length < c.nodes.length := by
  have ⟨cs, ds, hs⟩ := List.append_of_mem h
  rw [nodes_eq c, hs, List.flatMap_append, List.flatMap_cons, List.length_cons]
  simp only [List.length_append]
  omega

theorem mem_nodes_self (c : Code) : c ∈ c.nodes := by
  rw [nodes_eq]
  exact .head _

end Code

namespace Source

-- A loop whose function is around a place: its first slot, and the names of the two parameters.
structure Loop where
  slot : Nat
  key : String
  value : String
deriving DecidableEq

inductive Piece
  -- Text without a variable in it.
  | raw (s : String)
  | constant (v : Value)
  -- A variable of the function itself, or a helper that it relies on.
  | own (x : String)
  -- A loop variable.
  | slot (n : Nat)
  | node (c : Code)
  -- The start and the end of the function that a loop calls.
  | enter (loop : Loop)
  | leave

variable (literal : String → String)

def Piece.write : Piece → Writer → Writer
  | raw s, w => w.push s
  | constant v, w => writeValue literal v w
  | own x, w => w.push x
  | slot n, w => w.push (w.nameOf n)
  | node c, w => Source.write literal c w
  | enter l, w =>
    let w := w.push ("function (" ++ l.key ++ ", " ++ l.value ++ ") \x7b")
    (w.bind l.key l.value).indent.newline
  | leave, w => (w.dedent.newline.unbind (w.names.length - 2)).push "\x7d"

def writePieces : List Piece → Writer → Writer
  | [], w => w
  | p :: ps, w => writePieces ps (p.write literal w)

def separated : List (List Piece) → List Piece
  | [] => []
  | [ps] => ps
  | ps :: pss => ps ++ .raw ", " :: separated pss

def keyPiece (key : String) : Piece :=
  .raw ((if isName key.toList then key else literal key) ++ ": ")

def layout : Code → List Piece
  | .text s => [.raw (literal s)]
  | .literal v => [.constant v]
  | .slot n => [.slot n]
  | .ambient name => [.own "$lookup", .raw ("(" ++ literal name ++ ")")]
  | .data => [.own "$data"]
  | .options => [.own "$options"]
  | .array items => .raw "[" :: separated (items.map fun c => [.node c]) ++ [.raw "]"]
  | .object entries =>
    .raw "\x7b" :: separated (entries.map fun (key, c) => [keyPiece literal key, .node c]) ++
      [.raw "\x7d"]
  | .member o property =>
    [.node o, .raw
      (if isName property.toList then "." ++ property else "[" ++ literal property ++ "]")]
  | .index o i => [.node o, .raw "[", .node i, .raw "]"]
  | .call callee arguments =>
    .node callee :: .raw "(" :: separated (arguments.map fun c => [.node c]) ++ [.raw ")"]
  | .unary op operand =>
    if operand.isUnary then [.raw (op.text ++ "("), .node operand, .raw ")"]
    else [.raw op.text, .node operand]
  | .binary op lhs rhs => [.raw "(", .node lhs, .raw (" " ++ op.text ++ " "), .node rhs, .raw ")"]
  | .cond test consequent alternate =>
    [.raw "(", .node test, .raw " ? ", .node consequent, .raw " : ", .node alternate, .raw ")"]
  | .dethunk temp value =>
    [.raw "(typeof (", .own temp.name, .raw " = ", .node value, .raw ") === \"function\" ? ",
      .own temp.name, .raw ".call(this, ", .own "$data", .raw ", ", .own "$options",
      .raw ") : ", .own temp.name, .raw ")"]
  | .each buffer slot key value container body =>
    [.raw "((", .own buffer.name, .raw " = []), ", .own "$each", .raw "(", .node container,
      .raw ", ", .enter ⟨slot, key, value⟩, .own buffer.name, .raw ".push(", .node body, .raw ");",
      .leave, .raw "), ", .own buffer.name, .raw ".join(\"\"))"]
  | .invoke d o selector name =>
    [.own "$tmpl", .raw "(", .node d, .raw ", ", .node o, .raw ", "] ++
      match name with
      | some name => [.raw "(", .node selector, .raw (" ?? " ++ literal name ++ "))")]
      | none => [.node selector, .raw ")"]
  | .merge sources =>
    .own "$merge" :: .raw "(\x7b\x7d" :: sources.flatMap (fun c => [.raw ", ", .node c]) ++
      [.raw ")"]

-- Text is all that a node leaves behind, so that it is written with the same names as what follows.
def Appends (w w' : Writer) : Prop :=
  ∃ s, w' = w.push s

namespace Appends

variable {w w₁ w₂ : Writer} {s : String}

theorem refl : Appends w w :=
  ⟨"", w.push_empty.symm⟩

theorem push (h : Appends w w₁) : Appends w (w₁.push s) := by
  have ⟨t, ht⟩ := h
  exact ⟨t ++ s, by rw [ht, Writer.push_push]⟩

theorem trans (h : Appends w w₁) (h' : Appends w₁ w₂) : Appends w w₂ := by
  have ⟨s, hs⟩ := h
  have ⟨t, ht⟩ := h'
  exact ⟨s ++ t, by rw [ht, hs, Writer.push_push]⟩

-- A scope of names is left as it was found.
theorem unbind {key value : String} (h : Appends (w.bind key value).indent w₁) :
    Appends w (w₁.dedent.newline.unbind w.mark) := by
  have ⟨s, hs⟩ := h
  refine ⟨s ++ .ofList ('\n' :: List.replicate (2 * w.level) ' '), ?_⟩
  simp [hs, Writer.bind, Writer.indent, Writer.push, Writer.dedent, Writer.newline, Writer.unbind,
    Writer.mark, String.append_assoc]

theorem names_eq (h : Appends w w₁) : w₁.names = w.names := by
  have ⟨_, hs⟩ := h
  rw [hs, Writer.push]

end Appends

mutual

theorem appends_writeValue (w : Writer) : (v : Value) → Appends w (writeValue literal v w)
  | .undefined | .null | .bool _ | .number _ | .string _ | .function _ => Appends.refl.push
  | .array _ items => (Appends.refl.push.trans (appends_writeItems _ items)).push
  | .object _ fields => (Appends.refl.push.trans (appends_writeFields _ fields)).push

theorem appends_writeItems (w : Writer) : (vs : List Value) → Appends w (writeItems literal vs w)
  | [] => .refl
  | [v] => appends_writeValue w v
  | v :: v' :: vs => (appends_writeValue w v).push.trans (appends_writeItems _ (v' :: vs))

theorem appends_writeFields (w : Writer) : (fields : List (String × Value)) →
    Appends w (writeFields literal fields w)
  | [] => .refl
  | [(_, v)] => Appends.refl.push.push.trans (appends_writeValue _ v)
  | (_, v) :: field :: fields =>
    (Appends.refl.push.push.trans (appends_writeValue _ v)).push.trans
      (appends_writeFields _ (field :: fields))

end

mutual

theorem appends_write (w : Writer) : (c : Code) → Appends w (write literal c w)
  | .text _ | .slot _ | .ambient _ | .data | .options => Appends.refl.push
  | .literal v => appends_writeValue literal w v
  | .array items => (Appends.refl.push.trans (appends_writeList _ items)).push
  | .object entries => (Appends.refl.push.trans (appends_writeEntries _ entries)).push
  | .member o _ => (appends_write w o).push
  | .index o i => ((appends_write w o).push.trans (appends_write _ i)).push
  | .call callee arguments =>
    ((appends_write w callee).push.trans (appends_writeList _ arguments)).push
  | .unary op operand => by
    rw [write]
    split
    case isTrue => exact (Appends.refl.push.trans (appends_write _ operand)).push
    case isFalse => exact Appends.refl.push.trans (appends_write _ operand)
  | .binary _ lhs rhs =>
    ((Appends.refl.push.trans (appends_write _ lhs)).push.trans (appends_write _ rhs)).push
  | .cond test consequent alternate =>
    (((Appends.refl.push.trans (appends_write _ test)).push.trans
      (appends_write _ consequent)).push.trans (appends_write _ alternate)).push
  | .dethunk _ value => (Appends.refl.push.trans (appends_write _ value)).push
  | .each _ _ _ _ container body =>
    ((Appends.refl.push.trans (appends_write _ container)).push.trans
      (Appends.refl.push.push.trans (appends_write _ body)).push.unbind).push
  | .invoke d o selector none =>
    (((Appends.refl.push.trans (appends_write _ d)).push.trans (appends_write _ o)).push.trans
      (appends_write _ selector)).push
  | .invoke d o selector (some _) =>
    (((Appends.refl.push.trans (appends_write _ d)).push.trans (appends_write _ o)).push.push.trans
      (appends_write _ selector)).push
  | .merge sources => (Appends.refl.push.trans (appends_writeSources _ sources)).push

theorem appends_writeList (w : Writer) : (cs : List Code) → Appends w (writeList literal cs w)
  | [] => .refl
  | [c] => appends_write w c
  | c :: c' :: cs => (appends_write w c).push.trans (appends_writeList _ (c' :: cs))

theorem appends_writeEntries (w : Writer) : (entries : List (String × Code)) →
    Appends w (writeEntries literal entries w)
  | [] => .refl
  | [(_, c)] => Appends.refl.push.push.trans (appends_write _ c)
  | (_, c) :: entry :: entries =>
    (Appends.refl.push.push.trans (appends_write _ c)).push.trans
      (appends_writeEntries _ (entry :: entries))

theorem appends_writeSources (w : Writer) : (cs : List Code) →
    Appends w (writeSources literal cs w)
  | [] => .refl
  | c :: cs => (Appends.refl.push.trans (appends_write _ c)).trans (appends_writeSources _ cs)

end

variable {literal}

theorem writePieces_append (ps qs : List Piece) (w : Writer) :
    writePieces literal (ps ++ qs) w = writePieces literal qs (writePieces literal ps w) := by
  induction ps generalizing w
  case nil => rfl
  case cons p ps hi => exact hi _

theorem writeList_eq : (cs : List Code) → (w : Writer) →
    writeList literal cs w = writePieces literal (separated (cs.map fun c => [.node c])) w
  | [], _ | [_], _ => rfl
  | _ :: c :: cs, _ => writeList_eq (c :: cs) _

theorem writeEntries_eq : (entries : List (String × Code)) → (w : Writer) →
    writeEntries literal entries w = writePieces literal
      (separated (entries.map fun (key, c) => [keyPiece literal key, .node c])) w
  | [], _ => rfl
  | [(key, c)], w => by
    simp only [writeEntries, writeKey, Writer.push_push]
    rfl
  | (key, c) :: entry :: entries, w => by
    simp only [writeEntries, writeKey, Writer.push_push]
    exact writeEntries_eq (entry :: entries) _

theorem writeSources_eq (cs : List Code) (w : Writer) :
    writeSources literal cs w =
      writePieces literal (cs.flatMap fun c => [.raw ", ", .node c]) w := by
  induction cs generalizing w
  case nil => rfl
  case cons c cs hi => exact hi _

theorem write_eq (c : Code) (w : Writer) :
    write literal c w = writePieces literal (layout literal c) w := by
  cases c
  case text | literal | slot | data | options | member | index | binary | cond => rfl
  case ambient =>
    have hs : "$lookup(" = "$lookup" ++ "(" := rfl
    simp only [write, layout, writePieces, Piece.write, Writer.push_push, hs, String.append_assoc]
  case array | object | call | merge =>
    simp only [write, layout, writePieces, writePieces_append, List.cons_append, Piece.write,
      writeList_eq, writeEntries_eq, writeSources_eq, Writer.push_push, String.reduceAppend]
  case unary op operand =>
    rw [write, layout]
    split <;> rfl
  case dethunk =>
    have hs : ".call(this, $data, $options) : " =
      ".call(this, " ++ ("$data" ++ (", " ++ ("$options" ++ ") : "))) := rfl
    simp only [write, layout, writePieces, Piece.write, Writer.push_push, hs, String.append_assoc]
  case invoke d o selector name =>
    cases name <;>
      simp only [write, layout, writePieces, List.cons_append, List.nil_append, Piece.write,
        Writer.push_push, String.reduceAppend]
  case each buffer slot key value container body =>
    have hs (s : String) : ", function (" ++ s = ", " ++ ("function (" ++ s) :=
      @String.append_assoc ", " "function (" s
    simp only [write, layout, writePieces, Piece.write, Writer.push_push, String.append_assoc,
      String.reduceAppend, hs]
    congr 2
    -- The body leaves the two names at the end.
    have hb (w : Writer) := (appends_write literal w body).names_eq
    simp [Writer.mark, Writer.push, Writer.newline, Writer.indent, Writer.bind, hb]

end Source
end Stencil
