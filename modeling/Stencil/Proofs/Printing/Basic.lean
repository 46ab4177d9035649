import Stencil.Code.Scope
import Stencil.Source.Code

-- The source of an expression, apart from the writer that it is written with.
namespace Stencil

def Expr.isUnary : Expr → Bool
  | unary _ _ => true
  | _ => false

namespace Source

def key (k : String) : String :=
  if isName k.toList then k else literal k

def name (s : Scope) (x : String) : String :=
  if (s.slot? x).isSome ∨ x = "$data" ∨ x = "$options" then x else "$lookup(" ++ literal x ++ ")"

def constant : Literal → String
  | .undefined => "undefined"
  | .null => "null"
  | .bool b => if b then "true" else "false"
  | .number x => numberText x
  | .string s => literal s

mutual

def expression (s : Scope) : Expr → String
  | .literal l => constant l
  | .name x => name s x
  | .array items => "[" ++ expressions s items ++ "]"
  | .object entries => "\x7b" ++ fields s entries ++ "\x7d"
  | .member o p =>
    expression s o ++ (if isName p.toList then "." ++ p else "[" ++ literal p ++ "]")
  | .index o i => expression s o ++ "[" ++ expression s i ++ "]"
  | .call callee arguments => expression s callee ++ "(" ++ expressions s arguments ++ ")"
  | .unary op operand =>
    if operand.isUnary then op.text ++ "(" ++ expression s operand ++ ")"
    else op.text ++ expression s operand
  | .binary op lhs rhs =>
    "(" ++ expression s lhs ++ (" " ++ op.text ++ " ") ++ expression s rhs ++ ")"
  | .cond test consequent alternate =>
    "(" ++ expression s test ++ " ? " ++ expression s consequent ++ " : " ++
      expression s alternate ++ ")"

def expressions (s : Scope) : List Expr → String
  | [] => ""
  | [e] => expression s e
  | e :: es => expression s e ++ ", " ++ expressions s es

def fields (s : Scope) : List (String × Expr) → String
  | [] => ""
  | [(k, e)] => key k ++ ": " ++ expression s e
  | (k, e) :: entries => key k ++ ": " ++ expression s e ++ ", " ++ fields s entries

end
end Source

theorem Expr.isUnary_toCode (s : Scope) (e : Expr) : (e.toCode s).isUnary = e.isUnary := by
  cases e
  case name x =>
    simp only [toCode, Scope.resolve]
    split
    case h_1 => rfl
    case h_2 =>
      split
      case isTrue => rfl
      case isFalse => split <;> rfl
  all_goals rfl

namespace Scope

theorem length_namesOf (loops : List LoopNames) : (namesOf loops).length = 2 * loops.length := by
  induction loops
  case nil => rfl
  case cons hi =>
    simp only [namesOf, List.length_append, List.length_cons, List.length_nil, hi]
    omega

theorem getElem?_namesOf {x : String} {n : Nat} {loops : List LoopNames}
    (h : slotIn? x loops = some n) : (namesOf loops)[n]? = some (x, n) := by
  induction loops <;> simp only [slotIn?, reduceCtorEq] at h
  case cons names loops hi =>
    have hl := length_namesOf loops
    simp only [namesOf]
    split at h
    case isTrue hx =>
      cases h
      rw [List.getElem?_append_right (by omega)]
      simp [hl, hx]
    case isFalse =>
      split at h
      case isTrue hx =>
        cases h
        rw [List.getElem?_append_right (by omega)]
        simp [hl, hx]
      case isFalse =>
        have hn := hi h
        have ⟨hb, _⟩ := List.getElem?_eq_some_iff.mp hn
        rw [List.getElem?_append_left hb, hn]

end Scope

namespace Source

-- The loop variables of a scope are those that the writer has names for.
def Writer.Names (s : Scope) (w : Writer) : Prop :=
  w.names = s.names.map (·.1)

variable {s : Scope} {w : Writer}

theorem Writer.push_push (a b : String) (w : Writer) : (w.push a).push b = w.push (a ++ b) := by
  simp [push, String.append_assoc]

theorem Writer.push_empty (w : Writer) : w.push "" = w := by
  simp [push]

theorem write_resolve (hw : w.Names s) (x : String) :
    write literal (s.resolve x) w = w.push (name s x) := by
  cases h : s.slot? x
  case some n =>
    have hn : w.names[n]? = some x := by
      rw [hw, List.getElem?_map, Scope.names, Scope.getElem?_namesOf h]
      rfl
    simp [Scope.resolve, name, h, write, Writer.nameOf, hn]
  case none =>
    simp only [Scope.resolve, name, h, Option.isSome_none, Bool.false_eq_true, false_or]
    by_cases hd : x = "$data"
    case pos => simp [hd, write]
    by_cases ho : x = "$options"
    case pos => simp [ho, write]
    simp [hd, ho, write]

theorem writeValue_value (l : Literal) (w : Writer) :
    writeValue literal l.value w = w.push (constant l) := by
  cases l <;> simp [Literal.value, writeValue, constant]

mutual

theorem write_toCode (s : Scope) (w : Writer) (hw : w.Names s) : (e : Expr) →
    write literal (e.toCode s) w = w.push (expression s e)
  | .literal l => writeValue_value l w
  | .name x => write_resolve hw x
  | .array items => by
    have h (t : String) := writeList_listToCode s (w.push t) hw items
    simp only [Expr.toCode, write, expression, h, Writer.push_push]
  | .object entries => by
    have h (t : String) := writeEntries_entriesToCode s (w.push t) hw entries
    simp only [Expr.toCode, write, expression, h, Writer.push_push]
  | .member o p => by
    simp only [Expr.toCode, write, expression, write_toCode s w hw o, Writer.push_push]
  | .index o i => by
    have h (t : String) := write_toCode s (w.push t) hw i
    simp only [Expr.toCode, write, expression, write_toCode s w hw o, h, Writer.push_push]
  | .call callee arguments => by
    have h (t : String) := writeList_listToCode s (w.push t) hw arguments
    simp only [Expr.toCode, write, expression, write_toCode s w hw callee, h, Writer.push_push]
  | .unary op operand => by
    have h (t : String) := write_toCode s (w.push t) hw operand
    simp only [Expr.toCode, write, expression, Expr.isUnary_toCode]
    split <;> simp only [h, Writer.push_push]
  | .binary op lhs rhs => by
    have hl (t : String) := write_toCode s (w.push t) hw lhs
    have hr (t : String) := write_toCode s (w.push t) hw rhs
    simp only [Expr.toCode, write, expression, hl, hr, Writer.push_push]
  | .cond test consequent alternate => by
    have ht (t : String) := write_toCode s (w.push t) hw test
    have hc (t : String) := write_toCode s (w.push t) hw consequent
    have ha (t : String) := write_toCode s (w.push t) hw alternate
    simp only [Expr.toCode, write, expression, ht, hc, ha, Writer.push_push]

theorem writeList_listToCode (s : Scope) (w : Writer) (hw : w.Names s) : (es : List Expr) →
    writeList literal (Expr.listToCode s es) w = w.push (expressions s es)
  | [] => w.push_empty.symm
  | [e] => write_toCode s w hw e
  | e :: e' :: es => by
    have h (t : String) := writeList_listToCode s (w.push t) hw (e' :: es)
    simp only [Expr.listToCode] at h
    simp only [Expr.listToCode, writeList, expressions, write_toCode s w hw e, h, Writer.push_push]

theorem writeEntries_entriesToCode (s : Scope) (w : Writer) (hw : w.Names s) :
    (entries : List (String × Expr)) →
    writeEntries literal (Expr.entriesToCode s entries) w = w.push (fields s entries)
  | [] => w.push_empty.symm
  | [(k, e)] => by
    have h (t : String) := write_toCode s (w.push t) hw e
    simp only [Expr.entriesToCode, writeEntries, fields, writeKey, key, h, Writer.push_push]
  | (k, e) :: entry :: entries => by
    have h (t : String) := write_toCode s (w.push t) hw e
    have hs (t : String) := writeEntries_entriesToCode s (w.push t) hw (entry :: entries)
    simp only [Expr.entriesToCode] at hs
    simp only [Expr.entriesToCode, writeEntries, fields, writeKey, key, h, hs, Writer.push_push]

end

end Source
end Stencil
