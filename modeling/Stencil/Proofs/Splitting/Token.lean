import Stencil.Proofs.Lexing.Read
import Stencil.Proofs.Splitting.Uncut

-- How the characters of tokens change the nesting, and where a separator could start in them.
namespace Stencil

open Nesting

def IsSeparator (separator : List Char) : Prop :=
  separator = [','] ∨ separator = ['=', '>']

-- The characters that neither change the nesting nor start a separator.
def isInert (c : Char) : Bool :=
  c ∉ ['\'', '"', '(', '[', '{', ')', ']', '}', ',', '=']

variable {c : Char} {d : Nat} {as bs separator : List Char}

theorem isInert_of_not {p : Char → Bool} (hp : p c = true)
    (h : ['\'', '"', '(', '[', '{', ')', ']', '}', ',', '='].all (!p ·) = true) :
    isInert c = true := by
  simp only [isInert, decide_eq_true_eq]
  intro hc
  have hn := List.all_eq_true.mp h c hc
  simp [hp] at hn

theorem isInert_of_isPlain (h : Token.isPlain c = true) : isInert c = true :=
  isInert_of_not h (by decide)

theorem isInert_of_isBlank (h : isBlank c = true) : isInert c = true :=
  isInert_of_not h (by decide)

theorem feed_inert (h : isInert c = true) : (inside d).feed c = inside d := by
  simp only [isInert, decide_eq_true_eq, List.mem_cons, List.not_mem_nil, or_false, not_or] at h
  simp [feed, inside, h]

theorem not_isPrefix_inert (hs : IsSeparator separator) (h : isInert c = true) :
    ¬separator <+: c :: as := by
  simp only [isInert, decide_eq_true_eq, List.mem_cons, List.not_mem_nil, or_false, not_or] at h
  rcases hs with rfl | rfl <;> simp [Ne.symm, h, eq_comm]

theorem inert_spec (hs : IsSeparator separator) (h : ∀ c ∈ as, isInert c = true) :
    (inside d).feedAll as = inside d ∧ Uncut separator (inside d) as bs := by
  induction as
  case nil => exact ⟨rfl, trivial⟩
  case cons c as hi =>
    have hc := h c (.head _)
    have ⟨hf, hu⟩ := hi fun c hc => h c (.tail _ hc)
    simp only [feedAll_cons, Uncut, feed_inert hc]
    exact ⟨hf, fun _ => not_isPrefix_inert hs hc, hu⟩

theorem quoted_spec {quote : Char} (hq : quote = '"' ∨ quote = '\'')
    (h : Token.Quoted quote as) :
    feedAll ⟨some quote, false, d⟩ as = inside d ∧
      Uncut separator ⟨some quote, false, d⟩ as bs := by
  have hb : quote ≠ '\\' := by rcases hq with rfl | rfl <;> decide
  induction h
  case close => simp [Uncut, feed, inside, isOutside, hb]
  case escape hi => simpa [Uncut, feed, isOutside] using hi
  case char hc hc' _ hi => simpa [Uncut, feed, isOutside, hc, hc'] using hi

namespace Token

-- In how many brackets a token leaves the text after it.
def Kind.nest : Kind → Nat → Nat
  | .punct .openParen, d | .punct .openBracket, d | .punct .openBrace, d => d + 1
  | .punct .closeParen, d | .punct .closeBracket, d | .punct .closeBrace, d => d - 1
  | _, d => d

def Kind.endsWithEquals : Kind → Bool
  | .punct .lessEq | .punct .greaterEq | .punct .eqEq | .punct .notEq | .punct .eqEqEq
  | .punct .notEqEq => true
  | _ => false

theorem punct_spec {p : Punct} (hs : IsSeparator separator)
    (hk : d = 0 → p ≠ .comma ∧ p ≠ .arrow ∧
      ((Kind.punct p).endsWithEquals = true → bs.head? ≠ some '>')) :
    (inside d).feedAll p.text.toList = inside ((Kind.punct p).nest d) ∧
      Uncut separator (inside d) p.text.toList bs := by
  refine ⟨by cases p <;> rfl, ?_⟩
  by_cases hd : d = 0
  case neg => cases p <;> simp [Punct.text, Uncut, inside, isOutside, feed, hd]
  case pos =>
    obtain ⟨hc, ha, he⟩ := hk hd
    have he : (Kind.punct p).endsWithEquals = true → ¬['>'] <+: bs := by
      intro h hp
      cases bs <;> simp at hp
      exact he h (congrArg some hp.symm)
    rcases hs with rfl | rfl <;> cases p <;>
      simp_all [Punct.text, Uncut, Kind.endsWithEquals, List.cons_prefix_cons]

-- A token is not cut where it may stand. Outside of brackets, that excludes commas and arrows, and
-- a token that would be an arrow together with what follows it.
theorem Spells.spec {k : Kind} (h : Spells k as) (hs : IsSeparator separator)
    (hk : d = 0 → k ≠ .punct .comma ∧ k ≠ .punct .arrow ∧
      (k.endsWithEquals = true → bs.head? ≠ some '>')) :
    (inside d).feedAll as = inside (k.nest d) ∧ Uncut separator (inside d) as bs := by
  cases h
  case number h => exact inert_spec hs fun c hc => isInert_of_isPlain (h c hc)
  case name h => exact inert_spec hs fun c hc => isInert_of_isPlain (h c hc)
  case string quote cs hq h =>
    have hf : (inside d).feed quote = ⟨some quote, false, d⟩ := by rcases hq with rfl | rfl <;> rfl
    have hc : _ ∧ Uncut separator ⟨some quote, false, d⟩ cs bs := quoted_spec hq h
    simp only [feedAll_cons, Uncut, hf]
    refine ⟨hc.1, fun _ => ?_, hc.2⟩
    rcases hs with rfl | rfl <;> rcases hq with rfl | rfl <;> simp
  case punct p => exact punct_spec hs (by simpa using hk)

theorem Spells.eq_greater {k : Kind} (h : Spells k ('>' :: as)) :
    k = .punct .greater ∨ k = .punct .greaterEq := by
  generalize hc : '>' :: as = cs at h
  cases h
  case number h | name h => exact absurd (h '>' (hc ▸ .head _)) (by decide)
  case string hq _ =>
    cases hc
    exact absurd hq (by decide)
  case punct p => cases p <;> simp [Punct.text] at hc ⊢

end Token
end Stencil
