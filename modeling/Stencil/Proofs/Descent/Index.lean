import Stencil.Proofs.Act
import Stencil.Proofs.Descent.Basic
import Stencil.Proofs.Grammar.Completion

-- Where parsers leave the index.
namespace Stencil.Descent

open Token (Kind Mark)
open Stencil.Expr.Reading (marksTo)

-- Tokens that are read up to the offset where their text ends, and what comes of them.
structure Passage where
  tokens : List Token
  stop : Nat
  result : Except ExprError Expr

namespace Passage

def mark (T : Passage) (i : Nat) : Mark :=
  match T.tokens[i]? with
  | some t => ⟨some t.kind, t.offset⟩
  | none => ⟨none, T.stop⟩

-- The index does not pass the end of the text.
def next (T : Passage) (i : Nat) : Nat :=
  if (T.mark i).kind.isSome then i + 1 else i

-- Up to the end of the text, what is seen is the mark at the index.
def Knows (T : Passage) (look : Nat → Option Mark) : Prop :=
  ∀ i ≤ T.tokens.length, look i = some (T.mark i)

-- Wherever it starts, the parser does not take the index back, nor out of the marks.
def Keeps {α : Type} (T : Passage) (x : Cursor α) : Prop :=
  ∀ i ≤ T.tokens.length, i ≤ (x i).2 ∧ (x i).2 ≤ T.tokens.length

section

variable {T : Passage} {i : Nat} {k : Kind}

theorem getElem?_of_kind (h : (T.mark i).kind = some k) :
    ∃ t, T.tokens[i]? = some t ∧ t.kind = k ∧ (T.mark i).offset = t.offset := by
  unfold mark at h ⊢
  cases ht : T.tokens[i]?
  case none => simp [ht] at h
  case some t =>
    simp only [ht, Option.some.injEq] at h
    exact ⟨t, rfl, h, rfl⟩

theorem lt_of_kind (h : (T.mark i).kind = some k) : i < T.tokens.length := by
  obtain ⟨t, ht, _⟩ := getElem?_of_kind h
  exact (List.getElem?_eq_some_iff.mp ht).1

theorem drop_of_kind (h : (T.mark i).kind = some k) :
    T.tokens.drop i = ⟨k, (T.mark i).offset⟩ :: T.tokens.drop (i + 1) := by
  obtain ⟨t, ht, hk, ho⟩ := getElem?_of_kind h
  obtain ⟨hi, ht⟩ := List.getElem?_eq_some_iff.mp ht
  rw [List.drop_eq_getElem_cons hi, ht, ho, ←hk]

theorem drop_of_end (h : (T.mark i).kind = none) :
    T.tokens.drop i = [] ∧ (T.mark i).offset = T.stop := by
  unfold mark at h ⊢
  cases ht : T.tokens[i]?
  case none => exact ⟨List.drop_eq_nil_of_le (List.getElem?_eq_none_iff.mp ht), rfl⟩
  case some t => simp [ht] at h

theorem getElem?_marksTo (hi : i ≤ T.tokens.length) :
    (marksTo T.stop T.tokens)[i]? = some (T.mark i) := by
  unfold marksTo mark
  cases ht : T.tokens[i]?
  case some t =>
    obtain ⟨hi, rfl⟩ := List.getElem?_eq_some_iff.mp ht
    simp [List.getElem?_append_left, hi]
  case none =>
    have hn := List.getElem?_eq_none_iff.mp ht
    simp [Nat.le_antisymm hi hn]

theorem next_of_kind (h : (T.mark i).kind = some k) : T.next i = i + 1 := by
  rw [next, h]
  rfl

theorem le_next : i ≤ T.next i := by
  unfold next
  split <;> omega

theorem next_le (hi : i ≤ T.tokens.length) : T.next i ≤ T.tokens.length := by
  unfold next
  split
  case isTrue h =>
    obtain ⟨k, hk⟩ := Option.isSome_iff_exists.mp h
    exact lt_of_kind hk
  case isFalse => exact hi

end

section

variable {T : Passage} {look : Nat → Option Mark} {i : Nat}

theorem peek_eq (hl : T.Knows look) (hi : i ≤ T.tokens.length) :
    peek look i = (.ok (T.mark i), i) := by
  simp only [peek, Act.bind_apply_ok (rfl : Act.get i = (.ok i, i)), hl i hi]
  rfl

theorem advance_eq (hl : T.Knows look) (hi : i ≤ T.tokens.length) :
    advance look i = (.ok (T.mark i), T.next i) := by
  rw [advance, Act.bind_apply_ok (peek_eq hl hi)]
  rfl

end

namespace Keeps

variable {T : Passage} {look : Nat → Option Mark} {p : Punct} {α β : Type} {x : Cursor α}
  {f : α → Cursor β}

theorem pure (a : α) : T.Keeps (pure a) :=
  fun i hi => ⟨Nat.le_refl i, hi⟩

theorem fail (e : Halt) : T.Keeps (Act.fail e : Cursor α) :=
  fun i hi => ⟨Nat.le_refl i, hi⟩

theorem bind (hx : T.Keeps x) (hf : ∀ a, T.Keeps (f a)) : T.Keeps (x >>= f) := by
  intro i hi
  obtain ⟨hij, hj⟩ := hx i hi
  rcases hr : x i with ⟨e | a, j⟩ <;> rw [hr] at hij hj
  case error =>
    rw [Act.bind_apply_error hr]
    exact ⟨hij, hj⟩
  case ok =>
    rw [Act.bind_apply_ok hr]
    obtain ⟨hjk, hk⟩ := hf a j hj
    exact ⟨Nat.le_trans hij hjk, hk⟩

theorem peek (hl : T.Knows look) : T.Keeps (peek look) := by
  intro i hi
  rw [peek_eq hl hi]
  exact ⟨Nat.le_refl i, hi⟩

theorem advance (hl : T.Knows look) : T.Keeps (advance look) := by
  intro i hi
  rw [advance_eq hl hi]
  exact ⟨le_next, next_le hi⟩

theorem eat (hl : T.Knows look) : T.Keeps (eat look p) := by
  refine (peek hl).bind fun m => ?_
  split
  · exact (advance hl).bind fun _ => pure true
  · exact pure false

theorem expect (hl : T.Knows look) : T.Keeps (expect look p) := by
  refine (advance hl).bind fun m => ?_
  split
  · exact pure ()
  · exact fail _

end Keeps
end Passage

-- All parsers keep the index among the marks, however many calls they may make.
structure Kept (T : Passage) (look : Nat → Option Mark) (fuel : Nat) : Prop where
  conditional : T.Keeps (conditional look fuel)
  binary : ∀ p, T.Keeps (binary look p fuel)
  climb : ∀ p lhs, T.Keeps (climb look p lhs fuel)
  unary : T.Keeps (unary look fuel)
  suffixed : T.Keeps (suffixed look fuel)
  suffixes : ∀ e, T.Keeps (suffixes look e fuel)
  primary : T.Keeps (primary look fuel)
  items : ∀ p done, T.Keeps (items look p done fuel)
  entries : ∀ done, T.Keeps (entries look done fuel)
  value : ∀ key, T.Keeps (value look key fuel)

namespace Kept

variable {T : Passage} {look : Nat → Option Mark} {fuel : Nat}

open Passage (Keeps)

-- One case per parser: it is made of parsers with one call less, and of steps that keep the index.
theorem succ (hl : T.Knows look) (h : Kept T look fuel) : Kept T look (fuel + 1) where
  conditional := by
    rw [Descent.conditional]
    refine (h.binary 1).bind fun _ => (Keeps.eat hl).bind fun _ => ?_
    split
    · refine h.conditional.bind fun _ => (Keeps.expect hl).bind fun _ => ?_
      exact h.conditional.bind fun _ => .pure _
    · exact .pure _
  binary p := by
    rw [Descent.binary]
    exact h.unary.bind fun lhs => h.climb p lhs
  climb p lhs := by
    rw [Descent.climb]
    refine (Keeps.peek hl).bind fun _ => ?_
    split
    · exact .pure _
    · split
      · exact .pure _
      · exact (Keeps.advance hl).bind fun _ => (h.binary _).bind fun _ => h.climb p _
  unary := by
    rw [Descent.unary]
    refine (Keeps.peek hl).bind fun _ => ?_
    split
    · exact h.suffixed
    · exact (Keeps.advance hl).bind fun _ => h.unary.bind fun _ => .pure _
  suffixed := by
    rw [Descent.suffixed]
    exact h.primary.bind h.suffixes
  suffixes e := by
    rw [Descent.suffixes]
    refine (Keeps.peek hl).bind fun _ => ?_
    split
    · refine (Keeps.advance hl).bind fun _ => (Keeps.advance hl).bind fun _ => ?_
      split
      · exact h.suffixes _
      · exact .fail _
    · refine (Keeps.advance hl).bind fun _ => h.conditional.bind fun _ => ?_
      exact (Keeps.expect hl).bind fun _ => h.suffixes _
    · exact (Keeps.advance hl).bind fun _ => (h.items _ _).bind fun _ => h.suffixes _
    · exact .pure _
  primary := by
    rw [Descent.primary]
    refine (Keeps.advance hl).bind fun _ => ?_
    split
    case h_1 | h_2 | h_3 => exact .pure _
    case h_4 => exact h.conditional.bind fun _ => (Keeps.expect hl).bind fun _ => .pure _
    case h_5 => exact (h.items _ _).bind fun _ => .pure _
    case h_6 => exact (h.entries _).bind fun _ => .pure _
    case h_7 | h_8 => exact .fail _
  items p done := by
    rw [Descent.items]
    refine (Keeps.eat hl).bind fun _ => ?_
    split
    · exact .pure _
    · refine h.conditional.bind fun _ => (Keeps.eat hl).bind fun _ => ?_
      split
      · exact h.items p _
      · exact (Keeps.expect hl).bind fun _ => .pure _
  entries done := by
    rw [Descent.entries]
    refine (Keeps.eat hl).bind fun _ => ?_
    split
    · exact .pure _
    · refine (Keeps.advance hl).bind fun _ => ?_
      split
      · exact .fail _
      · refine (h.value _).bind fun _ => (Keeps.eat hl).bind fun _ => ?_
        split
        · exact h.entries _
        · exact (Keeps.expect hl).bind fun _ => .pure _
  value key := by
    rw [Descent.value]
    refine (Keeps.eat hl).bind fun _ => ?_
    split
    · exact h.conditional
    · exact .pure _

theorem of_knows (hl : T.Knows look) (fuel : Nat) : Kept T look fuel := by
  induction fuel
  case zero => constructor <;> intros <;> exact .fail _
  case succ h => exact h.succ hl

end Kept

theorem keeps_expression {T : Passage} {look : Nat → Option Mark} (hl : T.Knows look) (fuel : Nat) :
    T.Keeps (expression look fuel) := by
  refine (Kept.of_knows hl fuel).conditional.bind fun _ => (Passage.Keeps.peek hl).bind fun _ => ?_
  split
  · exact .pure _
  · exact .fail _

end Stencil.Descent
