import Stencil.Expr.Reader

namespace Stencil

-- The name that a token gives to a field of an object.
def Token.Kind.key? : Token.Kind → Option String
  | name x | string x => some x
  | number x => some (Number.key x)
  | punct _ => none

namespace Grammar

open Token (Kind)

-- The grammar of expressions, layer by layer. Each predicate relates the tokens of a phrase to the
-- tree that the phrase stands for.
mutual

inductive Conditional : List Kind → Expr → Prop
  | plain {ks e} : Binary 1 ks e → Conditional ks e
  | cond {ks₁ ks₂ ks₃ test consequent alternate} :
    Binary 1 ks₁ test → Conditional ks₂ consequent → Conditional ks₃ alternate →
    Conditional (ks₁ ++ .punct .question :: (ks₂ ++ .punct .colon :: ks₃))
      (.cond test consequent alternate)

-- The operands of an operator of precedence `p` bind tighter than `p`, except that operators of the
-- same precedence chain up to the left.
inductive Binary : Nat → List Kind → Expr → Prop
  | unary {ks e} : Unary ks e → Binary 7 ks e
  | tighter {p ks e} : p < 7 → Binary (p + 1) ks e → Binary p ks e
  | chain {p q op ks₁ ks₂ lhs rhs} :
    Punct.binary? q = some op → op.precedence = p → Binary p ks₁ lhs → Binary (p + 1) ks₂ rhs →
    Binary p (ks₁ ++ .punct q :: ks₂) (.binary op lhs rhs)

inductive Unary : List Kind → Expr → Prop
  | plain {ks e} : Postfix ks e → Unary ks e
  | op {q op ks e} : Punct.unary? q = some op → Unary ks e → Unary (.punct q :: ks) (.unary op e)

inductive Postfix : List Kind → Expr → Prop
  | plain {ks e} : Primary ks e → Postfix ks e
  | member {ks e x} : Postfix ks e → Postfix (ks ++ [.punct .dot, .name x]) (.member e x)
  | index {ks₁ ks₂ e i} :
    Postfix ks₁ e → Conditional ks₂ i →
    Postfix (ks₁ ++ .punct .openBracket :: (ks₂ ++ [.punct .closeBracket])) (.index e i)
  | call {ks₁ ks₂ e es} :
    Postfix ks₁ e → Items ks₂ es →
    Postfix (ks₁ ++ .punct .openParen :: (ks₂ ++ [.punct .closeParen])) (.call e es)

inductive Primary : List Kind → Expr → Prop
  | number {x} : Primary [.number x] (.literal (.number x))
  | string {s} : Primary [.string s] (.literal (.string s))
  | name {x} : Primary [.name x] (.ofName x)
  | group {ks e} :
    Conditional ks e → Primary (.punct .openParen :: (ks ++ [.punct .closeParen])) e
  | array {ks es} :
    Items ks es → Primary (.punct .openBracket :: (ks ++ [.punct .closeBracket])) (.array es)
  | object {ks entries} :
    Entries ks entries →
      Primary (.punct .openBrace :: (ks ++ [.punct .closeBrace])) (.object entries)

-- A comma may follow the last item.
inductive Items : List Kind → List Expr → Prop
  | nil : Items [] []
  | last {ks e} : Conditional ks e → Items ks [e]
  | cons {ks₁ ks₂ e es} :
    Conditional ks₁ e → Items ks₂ es → Items (ks₁ ++ .punct .comma :: ks₂) (e :: es)

inductive Entries : List Kind → List (String × Expr) → Prop
  | nil : Entries [] []
  | last {ks entry} : Entry ks entry → Entries ks [entry]
  | cons {ks₁ ks₂ entry entries} :
    Entry ks₁ entry → Entries ks₂ entries →
    Entries (ks₁ ++ .punct .comma :: ks₂) (entry :: entries)

-- A key without a value stands for the name of the same text.
inductive Entry : List Kind → String × Expr → Prop
  | short {k : Kind} {key} : k.key? = some key → Entry [k] (key, .name key)
  | full {k : Kind} {key ks e} :
    k.key? = some key → Conditional ks e → Entry (k :: .punct .colon :: ks) (key, e)

end
end Grammar
end Stencil
