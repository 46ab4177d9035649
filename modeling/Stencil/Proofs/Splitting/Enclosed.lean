import Stencil.Proofs.Printing.Faithful
import Stencil.Proofs.Splitting.Matching
import Stencil.Proofs.Splitting.Token

-- A source text that can be read can be read in parentheses, and they enclose all of it.
namespace Stencil

theorem outline_of_all {cs : List Char}
    (h : (cs.all fun c => !(isQuote c || isOpening c || isClosing c)) = true) : Outline cs [] := by
  induction cs
  case nil => exact .nil
  case cons c cs hi =>
    simp only [List.all_cons, Bool.and_eq_true, Bool.not_eq_true', Bool.or_eq_false_iff] at h
    exact .other h.1.1.1 h.1.1.2 h.1.2 (hi h.2)

theorem outline_of_inert {cs : List Char} (h : ∀ c ∈ cs, isInert c = true) : Outline cs [] := by
  refine outline_of_all (List.all_eq_true.mpr fun c hm => ?_)
  have hc := h c hm
  simp only [isInert, decide_eq_true_eq, List.mem_cons, List.not_mem_nil, or_false, not_or] at hc
  simp [isQuote, isOpening, isClosing, hc]

-- A text that a pair of parentheses can be put around.
def Enclosable (inner : List Char) : Prop :=
  ∃ bs, Outline inner bs ∧ Nested anyCloses bs

namespace Enclosable

variable {inner inner' : List Char}

theorem append (h : Enclosable inner) (h' : Enclosable inner') : Enclosable (inner ++ inner') := by
  have ⟨_, ho, hn⟩ := h
  have ⟨_, ho', hn'⟩ := h'
  exact ⟨_, ho.append ho', hn.append hn'⟩

theorem of_inert (h : ∀ c ∈ inner, isInert c = true) : Enclosable inner :=
  ⟨[], outline_of_inert h, .nil⟩

theorem intercalate {pieces : List (List Char)} (h : ∀ piece ∈ pieces, Enclosable piece) :
    Enclosable ([','].intercalate pieces) := by
  induction pieces
  case nil => exact of_inert nofun
  case cons piece pieces hi =>
    have hp := h piece (.head _)
    cases pieces
    case nil => simpa using hp
    case cons =>
      have hc : Enclosable [','] := ⟨[], outline_of_all rfl, .nil⟩
      rw [List.intercalate_cons_cons]
      exact (hp.append hc).append (hi fun piece hm => h piece (.tail _ hm))

theorem enclosed?_eq (h : Enclosable inner) (rest : List Char) :
    enclosed? ('(' :: (inner ++ ')' :: rest)) = some (inner, rest) := by
  have ⟨bs, ho, hn⟩ := h
  exact enclosed?_eq_some_iff.mpr ⟨')', bs, rfl, rfl, ho, hn⟩

end Enclosable

namespace Token

variable {c : Char} {k : Kind} {as bs cs : List Char} {ks : List Kind}

def Kind.brackets : Kind → List Char
  | .punct .openParen => ['(']
  | .punct .openBracket => ['[']
  | .punct .openBrace => ['{']
  | .punct .closeParen => [')']
  | .punct .closeBracket => [']']
  | .punct .closeBrace => ['}']
  | _ => []

theorem Spells.outline (h : Spells k cs) : Outline cs k.brackets := by
  cases h
  case number h | name h => exact outline_of_inert fun c hc => isInert_of_isPlain (h c hc)
  case string quote cs hq h =>
    have hq : isQuote quote = true := by rcases hq with rfl | rfl <;> rfl
    have ho := Outline.string hq h .nil
    rwa [List.append_nil] at ho
  case punct p =>
    cases p
    case openParen | openBracket | openBrace => exact .opening rfl .nil
    case closeParen | closeBracket | closeBrace => exact .closing rfl .nil
    all_goals exact outline_of_all rfl

theorem Lexed.outline (h : Lexed cs ks) : Outline cs (ks.flatMap Kind.brackets) := by
  induction h
  case nil => exact .nil
  case blank c cs ks hc _ hi =>
    have ho : Outline [c] [] := outline_of_inert (by simp [isInert_of_isBlank hc])
    exact ho.append hi
  case token he _ hi => exact he.spells.outline.append hi

theorem numberExtent_eq_self {x : Decimal} (h : Decimal.read? (numberExtent (c :: as)) = some x)
    (hl : (numberExtent (c :: as)).length - 1 = as.length) : numberExtent (c :: as) = c :: as := by
  have hp : numberExtent (c :: as) <+: c :: as :=
    ⟨_, numberExtent_eq ▸ munch_numberParts.append (c :: as)⟩
  have hn : numberExtent (c :: as) ≠ [] := by
    intro hn
    rw [hn] at h
    cases h
  have := List.length_pos_iff.mpr hn
  exact hp.eq_of_length (by rw [List.length_cons]; omega)

theorem lexes_string {text : List Char} {offset : Nat} (hq : c = '"' ∨ c = '\'')
    (h : stringRest c 0 as offset = .ok (text, as.length)) :
    Lexes (c :: as) (some [.string (.ofList text)]) bs := by
  have ⟨_, _, hl⟩ := stringRest_spec hq h
  have ⟨ha, _⟩ := List.append_inj (as.append_nil.trans hl.eq) hl.length_eq
  subst ha
  have hb : isBlank c = false := by rcases hq with rfl | rfl <;> rfl
  have hs : startsNumber c (as ++ bs) = false := by rcases hq with rfl | rfl <;> rfl
  have hq : (c == '"' || c == '\'') = true := by simpa using hq
  exact .token hb (by simp [read, hs, hq, hl.stable])

theorem Spells.eq_text {p : Punct} (h : Spells (.punct p) cs) : cs = p.text.toList := by
  cases h
  rfl

-- The characters that no token goes on with, among those that can end an expression.
def ending : List Char :=
  [')', ']', '}', ':']

theorem Extent.lexes_before_close {d : Char} (hd : d ∈ ending) (he : Extent c k as cs) :
    Lexes (c :: as) (some [k]) (d :: bs) := by
  have hd : d = ')' ∨ d = ']' ∨ d = '}' ∨ d = ':' := by simpa [ending] using hd
  have h : read 0 c as = .ok (k, as.length) := by simpa using he.stable 0 [] nofun
  unfold read at h
  split at h
  case isTrue =>
    simp only at h
    split at h
    case h_2 => cases h
    case h_1 x hx =>
      have ⟨hk, hl⟩ := Prod.mk.inj (Except.ok.inj h)
      have hn := numberExtent_eq_self hx hl
      refine hk ▸ lexes_number (hn ▸ hx) ?_
      cases (c :: as).all isDigit <;> rcases hd with rfl | rfl | rfl | rfl <;> rfl
  case isFalse hs =>
    split at h
    case isTrue hq =>
      split at h
      case h_2 => cases h
      case h_1 text n hr =>
        have ⟨hk, hl⟩ := Prod.mk.inj (Except.ok.inj h)
        exact hk ▸ lexes_string (by simpa using hq) (hl ▸ hr)
    case isFalse hq =>
      split at h
      case isTrue hn =>
        have ⟨hk, hl⟩ := Prod.mk.inj (Except.ok.inj h)
        have ht : as.takeWhile isNameChar = as :=
          (List.takeWhile_prefix isNameChar).eq_of_length hl
        have ha : as.all isNameChar = true := ht ▸ List.all_takeWhile
        have hx : isName (c :: as) = true := by simp [isName, hn, ha]
        rw [←hk, ht]
        rw [←String.toList_ofList (l := c :: as)] at hx
        have hb : Ends isNameChar (d :: bs) := by rcases hd with rfl | rfl | rfl | rfl <;> rfl
        simpa using lexes_name hx hb
      case isFalse hn =>
        split at h
        case h_2 => cases h
        case h_1 p hp =>
          cases (Prod.mk.inj (Except.ok.inj h)).1
          rcases hd with rfl | rfl | rfl | rfl <;>
            exact he.spells.eq_text ▸ lexes_punct (by cases p <;> rfl) fun _ => rfl

theorem Lexed.lexes_before_close {d : Char} (hd : d ∈ ending) (h : Lexed cs ks) :
    Lexes cs (some ks) (d :: bs) := by
  induction h
  case nil => simp [Lexes]
  case blank hc _ hi => rwa [Lexes, List.cons_append, kinds_blank hc]
  case token c k as bs' ks hc he _ hi =>
    have hk : Lexes (c :: as) (some [k]) (bs' ++ d :: bs) := by
      cases bs'
      case nil => exact he.lexes_before_close hd
      case cons => exact .token hc (he.stable 0 _ fun _ => .inr)
    exact hk.append hi

end Token

namespace Grammar

open Token (Kind)

variable {k : Kind} {q : Punct}

theorem brackets_of_binary? {op} (h : q.binary? = some op) : (Kind.punct q).brackets = [] := by
  cases q <;> first | rfl | cases h

theorem brackets_of_unary? {op} (h : q.unary? = some op) : (Kind.punct q).brackets = [] := by
  cases q <;> first | rfl | cases h

theorem brackets_of_key? {key} (h : k.key? = some key) : k.brackets = [] := by
  cases k
  case punct => cases h
  all_goals rfl

-- The brackets of a phrase are closed, each by one of its own kind.
def Balanced (ks : List Kind) : Prop :=
  Nested ownCloses (ks.flatMap Kind.brackets)

namespace Balanced

variable {ks ks' : List Kind}

theorem append (h : Balanced ks) (h' : Balanced ks') : Balanced (ks ++ ks') := by
  rw [Balanced, List.flatMap_append]
  exact Nested.append h h'

theorem cons (hk : k.brackets = []) (h : Balanced ks) : Balanced (k :: ks) := by
  rwa [Balanced, List.flatMap_cons, hk]

theorem enclose {k k'} {o c : Char} (hk : k.brackets = [o]) (hk' : k'.brackets = [c])
    (hc : ownCloses o c = true) (h : Balanced ks) : Balanced (k :: (ks ++ [k'])) := by
  simpa [Balanced, hk, hk'] using Nested.group hc h .nil

end Balanced

mutual

theorem Conditional.balanced {ks e} : Conditional ks e → Balanced ks
  | .plain h => h.balanced
  | .cond h₁ h₂ h₃ => h₁.balanced.append (.cons rfl (h₂.balanced.append (.cons rfl h₃.balanced)))

theorem Binary.balanced {p ks e} : Binary p ks e → Balanced ks
  | .unary h => h.balanced
  | .tighter _ h => h.balanced
  | .chain hq _ h₁ h₂ => h₁.balanced.append (.cons (brackets_of_binary? hq) h₂.balanced)

theorem Unary.balanced {ks e} : Unary ks e → Balanced ks
  | .plain h => h.balanced
  | .op hq h => .cons (brackets_of_unary? hq) h.balanced

theorem Postfix.balanced {ks e} : Postfix ks e → Balanced ks
  | .plain h => h.balanced
  | .member h => h.balanced.append (.cons rfl (.cons rfl .nil))
  | .index h₁ h₂ => h₁.balanced.append (.enclose rfl rfl rfl h₂.balanced)
  | .call h₁ h₂ => h₁.balanced.append (.enclose rfl rfl rfl h₂.balanced)

theorem Primary.balanced {ks e} : Primary ks e → Balanced ks
  | .number | .string | .name => .cons rfl .nil
  | .group h => .enclose rfl rfl rfl h.balanced
  | .array h => .enclose rfl rfl rfl h.balanced
  | .object h => .enclose rfl rfl rfl h.balanced

theorem Items.balanced {ks es} : Items ks es → Balanced ks
  | .nil => .nil
  | .last h => h.balanced
  | .cons h₁ h₂ => h₁.balanced.append (.cons rfl h₂.balanced)

theorem Entries.balanced {ks entries} : Entries ks entries → Balanced ks
  | .nil => .nil
  | .last h => h.balanced
  | .cons h₁ h₂ => h₁.balanced.append (.cons rfl h₂.balanced)

theorem Entry.balanced {ks entry} : Entry ks entry → Balanced ks
  | .short hk => .cons (brackets_of_key? hk) .nil
  | .full hk h => .cons (brackets_of_key? hk) (.cons rfl h.balanced)

end
end Grammar

namespace Expr

open Token Grammar

variable {cs : List Char} {e : Expr}

theorem enclosable (h : Expr.read cs = .ok e) : Enclosable cs := by
  have ⟨ks, hk, hc⟩ := read_eq_ok_iff_conditional.mp h
  exact ⟨_, (kinds_eq_some_iff.mp hk).outline, hc.balanced.mono ownCloses_imp⟩

theorem read_parenthesized (h : Expr.read cs = .ok e) :
    Expr.read ('(' :: (cs ++ [')'])) = .ok e := by
  have ⟨ks, hk, hc⟩ := read_eq_ok_iff_conditional.mp h
  refine read_eq_ok_iff_conditional.mpr ⟨.punct .openParen :: (ks ++ [.punct .closeParen]), ?_, ?_⟩
  · have ho : Lexes ['('] (some [.punct .openParen]) (cs ++ [')']) :=
      lexes_punct (p := .openParen) rfl nofun
    have hl : Lexes cs (some ks) [')'] := (kinds_eq_some_iff.mp hk).lexes_before_close (by decide)
    have hd : kinds [')'] = some [.punct .closeParen] := rfl
    rw [←List.singleton_append, ho, hl, hd]
    rfl
  · exact .plain (.mono (.unary (.plain (.plain (.group hc)))) (by decide))

end Expr
end Stencil
