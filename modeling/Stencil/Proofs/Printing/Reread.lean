import Stencil.Proofs.Grammar.Viable
import Stencil.Proofs.Printing.Basic
import Stencil.Proofs.Printing.Numeral

-- What the source of an expression is read as. A prefix operator is written without parentheses
-- around it. If something is appended to it, such as a call, that belongs to its operand then.
namespace Stencil

def UnaryOp.punct : UnaryOp → Punct
  | not => .bang
  | neg => .minus
  | plus => .plus

def BinaryOp.punct : BinaryOp → Punct
  | mul => .star
  | div => .slash
  | rem => .percent
  | add => .plus
  | sub => .minus
  | lt => .less
  | le => .lessEq
  | gt => .greater
  | ge => .greaterEq
  | eq => .eqEq
  | notEq => .notEq
  | strictEq => .eqEqEq
  | strictNotEq => .notEqEq
  | and => .andAnd
  | or => .orOr

namespace Expr

-- A number that is written with digits only, with the operators before it.
def wholeNumber? : Expr → Option (List UnaryOp × Float)
  | literal (.number x) => if isWhole x then some ([], x) else none
  | unary op (literal (.number x)) => if isWhole x then some ([op], x) else none
  | _ => none
where
  isWhole (x : Float) : Bool := (Source.numberText x).toList.all isDigit

-- The name of a loop variable, of the data or of the options, or else a call of the lookup.
def ofVariable (s : Scope) (x : String) : Expr :=
  if (s.slot? x).isSome ∨ x = "$data" ∨ x = "$options" then .name x
  else .call (.name "$lookup") [.literal (.string x)]

-- An expression, apart from the operators before it.
structure Prefixed where
  ops : List UnaryOp
  core : Expr

def Prefixed.expr (e : Prefixed) : Expr :=
  e.ops.foldr .unary e.core

mutual

-- A point after a whole number belongs to the number, and so does the name after the point.
def reread (s : Scope) : Expr → Option Prefixed
  | literal l => some ⟨[], .literal l⟩
  | name x => some ⟨[], ofVariable s x⟩
  | array items => (rereadAll s items).map fun items => ⟨[], .array items⟩
  | object entries => (rereadEntries s entries).map fun entries => ⟨[], .object entries⟩
  | member o p =>
    match o.wholeNumber? with
    | some (ops, x) =>
      (Decimal.read? ((Source.numberText x).toList ++ '.' :: p.toList)).map fun d =>
        ⟨ops, .literal (.number d.toFloat)⟩
    | none => (reread s o).map fun o => ⟨o.ops, .member o.core p⟩
  | index o i => (reread s o).bind fun o => (reread s i).map fun i => ⟨o.ops, .index o.core i.expr⟩
  | call callee arguments =>
    (reread s callee).bind fun callee => (rereadAll s arguments).map fun arguments =>
      ⟨callee.ops, .call callee.core arguments⟩
  | unary op operand =>
    (reread s operand).map fun e =>
      if operand.isUnary then ⟨[op], e.expr⟩ else ⟨op :: e.ops, e.core⟩
  | binary op lhs rhs =>
    (reread s lhs).bind fun lhs => (reread s rhs).map fun rhs => ⟨[], .binary op lhs.expr rhs.expr⟩
  | cond test consequent alternate =>
    (reread s test).bind fun test => (reread s consequent).bind fun consequent =>
      (reread s alternate).map fun alternate =>
        ⟨[], .cond test.expr consequent.expr alternate.expr⟩

def rereadAll (s : Scope) : List Expr → Option (List Expr)
  | [] => some []
  | e :: es => (reread s e).bind fun e => (rereadAll s es).map fun es => e.expr :: es

def rereadEntries (s : Scope) : List (String × Expr) → Option (List (String × Expr))
  | [] => some []
  | (k, e) :: entries =>
    (reread s e).bind fun e => (rereadEntries s entries).map fun entries => (k, e.expr) :: entries

end

mutual

-- The expression and all expressions below it.
def nodes : Expr → List Expr
  | e@(literal _) | e@(name _) => [e]
  | e@(array items) => e :: nodesAll items
  | e@(object entries) => e :: nodesEntries entries
  | e@(member o _) => e :: o.nodes
  | e@(index o i) => e :: (o.nodes ++ i.nodes)
  | e@(call callee arguments) => e :: (callee.nodes ++ nodesAll arguments)
  | e@(unary _ operand) => e :: operand.nodes
  | e@(binary _ lhs rhs) => e :: (lhs.nodes ++ rhs.nodes)
  | e@(cond test consequent alternate) =>
    e :: (test.nodes ++ consequent.nodes ++ alternate.nodes)

def nodesAll : List Expr → List Expr
  | [] => []
  | e :: es => e.nodes ++ nodesAll es

def nodesEntries : List (String × Expr) → List Expr
  | [] => []
  | (_, e) :: entries => e.nodes ++ nodesEntries entries

end
end Expr

namespace Token

open Grammar
open Stencil.Expr (Prefixed)

variable {α β γ : Type} {P : List Kind → α → Prop} {Q : List Kind → β → Prop}
  {R : List Kind → γ → Prop} {p q : Char → Bool} {as bs cs : List Char} {a : Option α}
  {b : Option β}

theorem Ends.mono (h : Ends q bs) (hp : ∀ c, p c = true → q c = true) : Ends p bs := by
  cases bs
  case nil => rfl
  case cons c bs =>
    have h : q c = false := h
    cases hc : p c
    case false => exact hc
    case true => rw [hp c hc] at h; cases h

theorem Ends.names {whole : Bool} (h : Ends (sticks whole) bs) : Ends isNameChar bs :=
  h.mono fun c hc => by simp [sticks, hc]

theorem Ends.whole {whole : Bool} (h : Ends (sticks true) bs) : Ends (sticks whole) bs :=
  h.mono fun c hc => by
    simp only [sticks, Bool.or_eq_true, Bool.and_eq_true, Bool.true_and] at hc ⊢
    exact hc.imp_right And.right

-- A text and what is read from its tokens: if it has no tokens, nothing is read from them.
inductive Both (P : List Kind → α → Prop) : Option (List Kind) → Option α → Prop
  | none : Both P none none
  | some {ks a} : P ks a → Both P (some ks) (some a)

-- Whatever does not continue it as `p` tells, the text `cs` is read as `a`.
def Reads (P : List Kind → α → Prop) (p : Char → Bool) (cs : List Char) (a : Option α) : Prop :=
  ∃ r, Both P r a ∧ ∀ bs, Ends p bs → Lexes cs r bs

-- The marks around a group, an array and an object.
inductive Encloses : Punct → Punct → Prop
  | parens : Encloses .openParen .closeParen
  | brackets : Encloses .openBracket .closeBracket
  | braces : Encloses .openBrace .closeBrace

theorem Encloses.lexes {o c : Punct} (h : Encloses o c) (bs : List Char) :
    (∀ bs, Lexes o.text.toList (some [.punct o]) bs) ∧
      Lexes c.text.toList (some [.punct c]) bs ∧ Ends (sticks true) (c.text.toList ++ bs) := by
  cases h <;> exact ⟨fun _ => lexes_punct rfl nofun, lexes_punct rfl nofun, rfl⟩

namespace Reads

theorem map {f : α → β} (h : Reads P p cs a) (hf : ∀ ks x, P ks x → Q ks (f x)) :
    Reads Q p cs (a.map f) := by
  have ⟨r, hr, hl⟩ := h
  refine ⟨r, ?_, hl⟩
  cases hr
  case none => exact .none
  case some hr => exact .some (hf _ _ hr)

theorem whole {whole : Bool} (h : Reads P (sticks whole) cs a) : Reads P (sticks true) cs a := by
  have ⟨r, hr, hl⟩ := h
  exact ⟨r, hr, fun bs hb => hl bs hb.whole⟩

theorem append {f : α → β → γ} (h : Reads P p as a) (h' : Reads Q q cs b)
    (he : ∀ bs, Ends q bs → Ends p (cs ++ bs))
    (hf : ∀ ks x ks' y, P ks x → Q ks' y → R (ks ++ ks') (f x y)) :
    Reads R q (as ++ cs) (a.bind fun x => b.map (f x)) := by
  have ⟨r, hr, hl⟩ := h
  have ⟨r', hr', hl'⟩ := h'
  refine ⟨joined r r', ?_, fun bs hb => (hl _ (he bs hb)).append (hl' bs hb)⟩
  cases hr <;> cases hr'
  case some.some hx _ _ hy => exact .some (hf _ _ _ _ hx hy)
  all_goals exact .none

theorem enclosed {o c : Punct} {f : α → β} {whole : Bool} (ho : Encloses o c)
    (h : Reads P (sticks whole) cs a)
    (hf : ∀ ks x, P ks x → Q (.punct o :: (ks ++ [.punct c])) (f x)) :
    Reads Q p (o.text.toList ++ (cs ++ c.text.toList)) (a.map f) := by
  have ⟨r, hr, hl⟩ := h
  refine ⟨joined (some [.punct o]) (joined r (some [.punct c])), ?_, fun bs _ => ?_⟩
  · cases hr
    case none => exact .none
    case some hx => exact .some (hf _ _ hx)
  · have ⟨ho, hc, he⟩ := ho.lexes bs
    exact (ho _).append ((hl _ he.whole).append hc)

-- One text and another one, with a token between them.
theorem separated {f : α → β → γ} {k : Kind} {whole : Bool} (h : Reads P (sticks whole) as a)
    (h' : Reads Q q cs b) (sep : List Char) (hl : ∀ bs, Lexes sep (some [k]) bs)
    (he : ∀ bs, Ends (sticks true) (sep ++ bs))
    (hf : ∀ ks x ks' y, P ks x → Q ks' y → R (ks ++ k :: ks') (f x y)) :
    Reads R q (as ++ (sep ++ cs)) (a.bind fun x => b.map (f x)) := by
  have ⟨r, hr, ha⟩ := h
  have ⟨r', hr', hb⟩ := h'
  refine ⟨joined r (joined (some [k]) r'), ?_, fun bs hbs => ?_⟩
  · cases hr <;> cases hr'
    case some.some hx _ _ hy => exact .some (hf _ _ _ _ hx hy)
    all_goals exact .none
  · refine (ha _ ?_).append ((hl _).append (hb bs hbs))
    rw [List.append_assoc]
    exact (he _).whole

theorem token {ks : List Kind} (h : ∀ bs, Ends p bs → Lexes cs (some ks) bs) :
    Reads (fun ks' (_ : Unit) => ks' = ks) p cs (some ()) :=
  ⟨some ks, .some rfl, h⟩

end Reads

-- Operators and, after them, what they are applied to.
def Phrase (ks : List Kind) (e : Prefixed) : Prop :=
  ∃ ks', ks = e.ops.map (fun op => .punct op.punct) ++ ks' ∧ Postfix ks' e.core

namespace Phrase

variable {ks : List Kind} {e : Prefixed}

theorem of_primary {e : Expr} (h : Primary ks e) : Phrase ks ⟨[], e⟩ :=
  ⟨ks, rfl, .plain h⟩

theorem unary (h : Phrase ks e) : Unary ks e.expr := by
  have ⟨ks', hk, hp⟩ := h
  subst hk
  have ⟨ops, core⟩ := e
  simp only [Prefixed.expr] at hp ⊢
  induction ops
  case nil => exact .plain hp
  case cons op ops hi =>
    have ho : op.punct.unary? = some op := by cases op <;> rfl
    exact .op ho (hi ⟨ks', rfl, hp⟩)

theorem binary (h : Phrase ks e) {n : Nat} (hn : n ≤ 7) : Binary n ks e.expr :=
  (Binary.unary h.unary).mono hn

theorem conditional (h : Phrase ks e) : Conditional ks e.expr :=
  .plain (h.binary (by decide))

theorem chain {ks' : List Kind} {e' : Prefixed} (op : BinaryOp) (h : Phrase ks e)
    (h' : Phrase ks' e') :
    Conditional (ks ++ .punct op.punct :: ks') (.binary op e.expr e'.expr) := by
  have ho : op.punct.binary? = some op := by cases op <;> rfl
  have hl := Expr.Reading.precedence_lt op
  have hc := Binary.chain ho rfl (h.binary (Nat.le_of_lt hl)) (h'.binary hl)
  exact .plain (hc.mono (Expr.Reading.precedence_pos op))

theorem suffix {ks' : List Kind} {e' : Expr} (h : Phrase ks e)
    (he : ∀ ks, Postfix ks e.core → Postfix (ks ++ ks') e') : Phrase (ks ++ ks') ⟨e.ops, e'⟩ := by
  have ⟨ks₁, hk, hp⟩ := h
  exact ⟨ks₁ ++ ks', by simp [hk], he ks₁ hp⟩

theorem prefixed {op : UnaryOp} (h : Phrase ks e) :
    Phrase (.punct op.punct :: ks) ⟨op :: e.ops, e.core⟩ := by
  have ⟨ks', hk, hp⟩ := h
  exact ⟨ks', by simp [hk], hp⟩

end Phrase

theorem Reads.suffix {f : Expr → β → Expr} {a : Option Prefixed} (h : Reads Phrase p as a)
    (h' : Reads Q q cs b) (he : ∀ bs, Ends q bs → Ends p (cs ++ bs))
    (hf : ∀ ks e ks' y, Postfix ks e → Q ks' y → Postfix (ks ++ ks') (f e y)) :
    Reads Phrase q (as ++ cs) (a.bind fun e => b.map fun y => ⟨e.ops, f e.core y⟩) :=
  h.append h' he fun _ _ _ _ hx hy => hx.suffix fun _ hp => hf _ _ _ _ hp hy

end Token
end Stencil
