import Stencil.Proofs.Printing.Readback

-- When the source of an expression is read as the expression that it is the source of.
namespace Stencil

namespace Token

variable {c : Char} {cs : List Char} {ks : List Kind} {x : String}

theorem isName_of_read {offset n : Nat} (h : read offset c cs = .ok (.name x, n)) :
    isName x.toList = true := by
  unfold read at h
  split at h
  case isTrue =>
    simp only at h
    split at h <;> cases h
  case isFalse =>
    split at h
    case isTrue => split at h <;> cases h
    case isFalse =>
      split at h
      case isTrue hn =>
        cases h
        simp [isName, hn, List.all_takeWhile]
      case isFalse => split at h <;> cases h

theorem Lexed.isName (h : Lexed cs ks) (hx : .name x ∈ ks) : isName x.toList = true := by
  induction h
  case nil => cases hx
  case blank hi => exact hi hx
  case token bs _ _ he _ hi =>
    cases hx
    case head => exact isName_of_read (he.stable 0 bs (.refl bs))
    case tail hx => exact hi hx

end Token

namespace Grammar

open Token (Kind)

-- The properties in an expression are among its tokens.
mutual

theorem Conditional.mem_of_member {ks e o x} (hm : .member o x ∈ e.nodes) :
    Conditional ks e → Kind.name x ∈ ks
  | .plain h => h.mem_of_member hm
  | .cond h₁ h₂ h₃ => by
    simp only [Expr.nodes, List.mem_cons, List.mem_append, reduceCtorEq, false_or] at hm
    rcases hm with (hm | hm) | hm
    · simp [h₁.mem_of_member hm]
    · simp [h₂.mem_of_member hm]
    · simp [h₃.mem_of_member hm]

theorem Binary.mem_of_member {p ks e o x} (hm : .member o x ∈ e.nodes) :
    Binary p ks e → Kind.name x ∈ ks
  | .unary h => h.mem_of_member hm
  | .tighter _ h => h.mem_of_member hm
  | .chain _ _ h₁ h₂ => by
    simp only [Expr.nodes, List.mem_cons, List.mem_append, reduceCtorEq, false_or] at hm
    rcases hm with hm | hm
    · simp [h₁.mem_of_member hm]
    · simp [h₂.mem_of_member hm]

theorem Unary.mem_of_member {ks e o x} (hm : .member o x ∈ e.nodes) :
    Unary ks e → Kind.name x ∈ ks
  | .plain h => h.mem_of_member hm
  | .op _ h => by
    simp only [Expr.nodes, List.mem_cons, reduceCtorEq, false_or] at hm
    simp [h.mem_of_member hm]

theorem Postfix.mem_of_member {ks e o x} (hm : .member o x ∈ e.nodes) :
    Postfix ks e → Kind.name x ∈ ks
  | .plain h => h.mem_of_member hm
  | .member h => by
    simp only [Expr.nodes, List.mem_cons, Expr.member.injEq] at hm
    rcases hm with ⟨_, hx⟩ | hm
    · simp [hx]
    · simp [h.mem_of_member hm]
  | .index h₁ h₂ => by
    simp only [Expr.nodes, List.mem_cons, List.mem_append, reduceCtorEq, false_or] at hm
    rcases hm with hm | hm
    · simp [h₁.mem_of_member hm]
    · simp [h₂.mem_of_member hm]
  | .call h₁ h₂ => by
    simp only [Expr.nodes, List.mem_cons, List.mem_append, reduceCtorEq, false_or] at hm
    rcases hm with hm | hm
    · simp [h₁.mem_of_member hm]
    · simp [h₂.mem_of_member hm]

theorem Primary.mem_of_member {ks e o x} (hm : .member o x ∈ e.nodes) :
    Primary ks e → Kind.name x ∈ ks
  | .number | .string => by simp [Expr.nodes] at hm
  | .name => by
    unfold Expr.ofName at hm
    split at hm <;> simp [Expr.nodes] at hm
  | .group h => by simp [h.mem_of_member hm]
  | .array h => by
    simp only [Expr.nodes, List.mem_cons, reduceCtorEq, false_or] at hm
    simp [h.mem_of_member hm]
  | .object h => by
    simp only [Expr.nodes, List.mem_cons, reduceCtorEq, false_or] at hm
    simp [h.mem_of_member hm]

theorem Items.mem_of_member {ks es o x} (hm : .member o x ∈ Expr.nodesAll es) :
    Items ks es → Kind.name x ∈ ks
  | .nil => nomatch hm
  | .last h => by
    simp only [Expr.nodesAll, List.append_nil] at hm
    exact h.mem_of_member hm
  | .cons h₁ h₂ => by
    simp only [Expr.nodesAll, List.mem_append] at hm
    rcases hm with hm | hm
    · simp [h₁.mem_of_member hm]
    · simp [h₂.mem_of_member hm]

theorem Entries.mem_of_member {ks entries o x} (hm : .member o x ∈ Expr.nodesEntries entries) :
    Entries ks entries → Kind.name x ∈ ks
  | .nil => nomatch hm
  | .last h => by
    simp only [Expr.nodesEntries, List.append_nil] at hm
    exact h.mem_of_member hm
  | .cons h₁ h₂ => by
    simp only [Expr.nodesEntries, List.mem_append] at hm
    rcases hm with hm | hm
    · simp [h₁.mem_of_member hm]
    · simp [h₂.mem_of_member hm]

theorem Entry.mem_of_member {ks entry o x} (hm : .member o x ∈ entry.2.nodes) :
    Entry ks entry → Kind.name x ∈ ks
  | .short _ => by simp [Expr.nodes] at hm
  | .full _ h => by simp [h.mem_of_member hm]

end
end Grammar

namespace Expr

mutual

-- The names that are no variables are looked up.
def looked (s : Scope) : Expr → Expr
  | literal l => .literal l
  | name x => ofVariable s x
  | array items => .array (lookedAll s items)
  | object entries => .object (lookedEntries s entries)
  | member o p => .member (looked s o) p
  | index o i => .index (looked s o) (looked s i)
  | call callee arguments => .call (looked s callee) (lookedAll s arguments)
  | unary op operand => .unary op (looked s operand)
  | binary op lhs rhs => .binary op (looked s lhs) (looked s rhs)
  | cond test consequent alternate =>
    .cond (looked s test) (looked s consequent) (looked s alternate)

def lookedAll (s : Scope) : List Expr → List Expr
  | [] => []
  | e :: es => looked s e :: lookedAll s es

def lookedEntries (s : Scope) : List (String × Expr) → List (String × Expr)
  | [] => []
  | (k, e) :: entries => (k, looked s e) :: lookedEntries s entries

end

-- Nothing is appended to an operator that stands before its operand, and no property to a number
-- that is written with digits only.
def isClear : Expr → Bool
  | member o _ => !o.isUnary && o.wholeNumber?.isNone
  | index o _ | call o _ => !o.isUnary
  | _ => true

variable {s : Scope} {e : Expr} {q : Prefixed}

theorem isUnary_looked (s : Scope) (e : Expr) : (e.looked s).isUnary = e.isUnary := by
  cases e
  case name x =>
    simp only [looked, ofVariable]
    split <;> rfl
  all_goals rfl

theorem ops_of_isUnary (h : e.reread s = some q) (hu : e.isUnary = true) : q.ops ≠ [] := by
  cases e
  case unary op operand =>
    have ⟨q', _, hq⟩ := Option.map_eq_some_iff.mp h
    subst hq
    split <;> simp
  all_goals cases hu

theorem Prefixed.expr_eq_iff (hu : e.isUnary = false) : q.expr = e ↔ q.ops = [] ∧ q.core = e := by
  unfold expr
  cases q.ops
  case nil => simp
  case cons =>
    simp only [List.foldr_cons, reduceCtorEq, false_and, iff_false]
    rintro rfl
    cases hu

-- What is appended to an expression is appended to all of it if there are no operators before it.
theorem suffix_eq_looked_iff {α : Type} {a : Option α} {x : α} {f : Expr → α → Expr} (s : Scope)
    (o : Expr) (hf : ∀ e y, f e y = f (looked s o) x ↔ e = looked s o ∧ y = x)
    (hu : (f (looked s o) x).isUnary = false) :
    ((reread s o).bind fun q => a.map fun y => ⟨q.ops, f q.core y⟩).map Prefixed.expr =
      some (f (looked s o) x) ↔
    o.isUnary = false ∧ (reread s o).map Prefixed.expr = some (looked s o) ∧ a = some x := by
  cases hq : reread s o <;> cases a
  case some.some q y =>
    simp only [Option.bind_some, Option.map_some, Option.some.injEq, Prefixed.expr_eq_iff hu, hf]
    cases hu : o.isUnary
    case false =>
      rw [←isUnary_looked s] at hu
      simp [Prefixed.expr_eq_iff hu, and_assoc]
    case true => simp [ops_of_isUnary hq hu]
  all_goals simp

mutual

theorem reread_eq_looked_iff (s : Scope) : (e : Expr) →
    ((reread s e).map Prefixed.expr = some (looked s e) ↔ ∀ n ∈ e.nodes, n.isClear = true)
  | literal l => by simp [reread, looked, nodes, isClear, Prefixed.expr]
  | name x => by simp [reread, looked, nodes, isClear, Prefixed.expr]
  | array items => by
    simp only [nodes, List.forall_mem_cons, ←rereadAll_eq_looked_iff s items, reread, looked]
    cases rereadAll s items <;> simp [isClear, Prefixed.expr]
  | object entries => by
    simp only [nodes, List.forall_mem_cons, ←rereadEntries_eq_looked_iff s entries, reread, looked]
    cases rereadEntries s entries <;> simp [isClear, Prefixed.expr]
  | member o p => by
    have h := suffix_eq_looked_iff (a := some ()) (x := ()) (f := fun e _ => .member e p) s o
      (by simp) rfl
    have hu : (member (looked s o) p).isUnary = false := rfl
    simp only [nodes, List.forall_mem_cons, ←reread_eq_looked_iff s o, looked]
    cases hw : o.wholeNumber?
    case none => simpa [reread, hw, isClear, Option.bind_eq_some_iff] using h
    case some => simp [reread, hw, isClear, Prefixed.expr_eq_iff hu]
  | index o i => by
    have h := suffix_eq_looked_iff (a := (reread s i).map Prefixed.expr) (x := looked s i)
      (f := .index) s o (by simp) rfl
    simp only [nodes, List.forall_mem_cons, List.forall_mem_append, ←reread_eq_looked_iff s o,
      ←reread_eq_looked_iff s i, looked]
    simpa [reread, isClear, Function.comp_def] using h
  | call callee arguments => by
    have h := suffix_eq_looked_iff (a := rereadAll s arguments) (x := lookedAll s arguments)
      (f := .call) s callee (by simp) rfl
    simp only [nodes, List.forall_mem_cons, List.forall_mem_append,
      ←reread_eq_looked_iff s callee, ←rereadAll_eq_looked_iff s arguments, looked]
    simpa [reread, isClear] using h
  | unary op operand => by
    simp only [nodes, List.forall_mem_cons, ←reread_eq_looked_iff s operand, reread, looked]
    cases reread s operand <;> cases operand.isUnary <;> simp [isClear, Prefixed.expr]
  | binary op lhs rhs => by
    simp only [nodes, List.forall_mem_cons, List.forall_mem_append, ←reread_eq_looked_iff s lhs,
      ←reread_eq_looked_iff s rhs, reread, looked]
    cases reread s lhs <;> cases reread s rhs <;> simp [isClear, Prefixed.expr]
  | cond test consequent alternate => by
    simp only [nodes, List.forall_mem_cons, List.forall_mem_append, ←reread_eq_looked_iff s test,
      ←reread_eq_looked_iff s consequent, ←reread_eq_looked_iff s alternate, reread, looked]
    cases reread s test <;> cases reread s consequent <;> cases reread s alternate <;>
      simp [isClear, Prefixed.expr, and_assoc]

theorem rereadAll_eq_looked_iff (s : Scope) : (es : List Expr) →
    (rereadAll s es = some (lookedAll s es) ↔ ∀ n ∈ nodesAll es, n.isClear = true)
  | [] => by simp [rereadAll, lookedAll, nodesAll]
  | e :: es => by
    simp only [nodesAll, List.forall_mem_append, ←reread_eq_looked_iff s e,
      ←rereadAll_eq_looked_iff s es, rereadAll, lookedAll]
    cases reread s e <;> cases rereadAll s es <;> simp

theorem rereadEntries_eq_looked_iff (s : Scope) : (entries : List (String × Expr)) →
    (rereadEntries s entries = some (lookedEntries s entries) ↔
      ∀ n ∈ nodesEntries entries, n.isClear = true)
  | [] => by simp [rereadEntries, lookedEntries, nodesEntries]
  | (k, e) :: entries => by
    simp only [nodesEntries, List.forall_mem_append, ←reread_eq_looked_iff s e,
      ←rereadEntries_eq_looked_iff s entries, rereadEntries, lookedEntries]
    cases reread s e <;> cases rereadEntries s entries <;> simp

end

end Expr

open Token Stencil.Expr

variable {s : Scope} {e : Expr}

theorem read_eq_ok_iff_conditional {cs : List Char} :
    Expr.read cs = .ok e ↔ ∃ ks, kinds cs = some ks ∧ Grammar.Conditional ks e := by
  simp only [Expr.read_eq_ok_iff, kinds_eq_some_iff, ←Reading.steps_finish_iff_conditional,
    exists_and_left]

theorem read_expression_eq_ok_iff {e' : Expr}
    (hs : ∀ x, (s.slot? x).isSome → isVariable x = true) (h : ∀ n ∈ e.nodes, n.Legible) :
    Expr.read (Source.expression s e).toList = .ok e' ↔
      (reread s e).map Prefixed.expr = some e' := by
  have ⟨r, hr, hl⟩ := reads_expression hs e h
  have hl : kinds ((Source.expression s e).toList ++ []) = joined r (some []) := hl [] rfl
  rw [List.append_nil] at hl
  generalize reread s e = a at hr ⊢
  cases hr
  case none => simp [read_eq_ok_iff_conditional, hl]
  case some hq _ =>
    rw [joined_some, List.append_nil] at hl
    rw [read_eq_ok_iff_conditional.mpr ⟨_, hl, hq.conditional⟩]
    simp

theorem isVariable_of_slot? (hs : ∀ p ∈ s.names, isVariable p.1 = true) {x : String}
    (hx : (s.slot? x).isSome) : isVariable x = true := by
  have ⟨n, hn⟩ := Option.isSome_iff_exists.mp hx
  exact hs (x, n) (List.mem_of_getElem? (Scope.getElem?_namesOf hn))

theorem legible_of_read {cs : List Char} (h : Expr.read cs = .ok e)
    (hn : ∀ x, .literal (.number x) ∈ e.nodes → Number.ReadsBack x) :
    ∀ n ∈ e.nodes, n.Legible := by
  have ⟨ks, hk, hc⟩ := read_eq_ok_iff_conditional.mp h
  intro n hm
  unfold Legible
  split
  case h_1 x => exact hn x hm
  case h_2 => exact (kinds_eq_some_iff.mp hk).isName (hc.mem_of_member hm)
  case h_3 => trivial

-- An expression that was read is written in a way that is read as the same expression, with the
-- names looked up, unless it appends something to an operator or a property to a whole number.
theorem source_reads_back_iff {cs : List Char} (h : Expr.read cs = .ok e)
    (hs : ∀ p ∈ s.names, isVariable p.1 = true)
    (hn : ∀ x, .literal (.number x) ∈ e.nodes → Number.ReadsBack x) :
    ∃ text : String,
      (∀ w, w.Names s → Source.write Source.literal (e.toCode s) w = w.push text) ∧
      (Expr.read text.toList = .ok (e.looked s) ↔ ∀ n ∈ e.nodes, n.isClear = true) := by
  refine ⟨Source.expression s e, fun w hw => Source.write_toCode s w hw e, ?_⟩
  rw [read_expression_eq_ok_iff (fun _ => isVariable_of_slot? hs) (legible_of_read h hn),
    reread_eq_looked_iff]

theorem source_reads_back_iff_row :
    ∃ text : String,
      (∀ w, w.Names ⟨[⟨"i", "row"⟩], 0, 0⟩ →
        Source.write Source.literal
          ((Expr.call (.index (.member (.name "row") "cells") (.name "i"))
            [.unary .not (.name "x"), .literal (.number 2.5)]).toCode ⟨[⟨"i", "row"⟩], 0, 0⟩) w =
          w.push text) ∧
      Expr.read text.toList =
        .ok (.call (.index (.member (.name "row") "cells") (.name "i"))
          [.unary .not (.call (.name "$lookup") [.literal (.string "x")]),
            .literal (.number 2.5)]) := by
  have hr : Expr.read "row.cells[i](!x, 2.5)".toList =
      .ok (.call (.index (.member (.name "row") "cells") (.name "i"))
        [.unary .not (.name "x"), .literal (.number 2.5)]) := rfl
  have hn : Number.ReadsBack 2.5 := rfl
  have ⟨text, hw, hi⟩ := source_reads_back_iff (s := ⟨[⟨"i", "row"⟩], 0, 0⟩) hr (by decide)
    (by simpa [nodes, nodesAll] using hn)
  exact ⟨text, hw, hi.mpr (by simp [nodes, nodesAll, isClear, isUnary, wholeNumber?])⟩

-- The minus applies to the property in the source, though it was applied to the variable.
theorem negated_reads_otherwise :
    Expr.read "(-x).b".toList = .ok (.member (.unary .neg (.name "x")) "b") ∧
    (Source.write Source.literal ((Expr.member (.unary .neg (.name "x")) "b").toCode .empty)
      .start).code = "-$lookup(\"x\").b" ∧
    Expr.read "-$lookup(\"x\").b".toList ≠
      .ok ((Expr.member (.unary .neg (.name "x")) "b").looked .empty) := by
  have hr : Expr.read "-$lookup(\"x\").b".toList =
      .ok (.unary .neg (.member (.call (.name "$lookup") [.literal (.string "x")]) "b")) := rfl
  refine ⟨rfl, by decide, ?_⟩
  rw [hr]
  nofun

end Stencil
