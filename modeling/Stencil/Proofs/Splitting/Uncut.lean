import Stencil.Nesting

namespace Stencil
namespace Nesting

-- A place in a number of brackets, and in no string.
def inside (depth : Nat) : Nesting :=
  ⟨none, false, depth⟩

def feedAll (n : Nesting) (cs : List Char) : Nesting :=
  cs.foldl feed n

variable {n : Nesting} {as bs cs separator : List Char}

@[simp]
theorem feedAll_nil : n.feedAll [] = n :=
  rfl

@[simp]
theorem feedAll_cons {c : Char} : n.feedAll (c :: cs) = (n.feed c).feedAll cs :=
  rfl

theorem feedAll_append : n.feedAll (as ++ bs) = (n.feedAll as).feedAll bs :=
  List.foldl_append

-- On the way through `as`, with `bs` after it, no separator starts outside.
def Uncut (separator : List Char) (n : Nesting) : List Char → List Char → Prop
  | [], _ => True
  | c :: as, bs =>
    (n.isOutside = true → ¬separator <+: c :: (as ++ bs)) ∧ Uncut separator (n.feed c) as bs

theorem uncut_append :
    Uncut separator n (as ++ bs) cs ↔
      Uncut separator n as (bs ++ cs) ∧ Uncut separator (n.feedAll as) bs cs := by
  induction as generalizing n
  case nil => simp [Uncut]
  case cons c as hi => simp [Uncut, hi, and_assoc]

end Nesting

open Nesting

variable {n : Nesting} {as bs separator : List Char}

-- Puts a text before the first piece.
def prepend (as : List Char) : List (List Char) → List (List Char)
  | [] => [as]
  | piece :: pieces => (as ++ piece) :: pieces

theorem splitFrom_ne_nil (skip : Nat) : splitFrom separator bs n skip ≠ [] := by
  fun_induction splitFrom separator bs n skip <;> simp_all

theorem splitFrom_append (h : Uncut separator n as bs) :
    splitFrom separator (as ++ bs) n 0 =
      prepend as (splitFrom separator bs (n.feedAll as) 0) := by
  induction as generalizing n
  case nil =>
    have hs : splitFrom separator bs n 0 ≠ [] := splitFrom_ne_nil 0
    simp only [List.nil_append, feedAll_nil]
    cases hr : splitFrom separator bs n 0
    case nil => exact absurd hr hs
    case cons => rfl
  case cons c as hi =>
    have hc : ¬(!separator.isEmpty && n.isOutside && separator.isPrefixOf (c :: (as ++ bs))) := by
      simp only [Bool.and_eq_true, List.isPrefixOf_iff_prefix, not_and]
      exact fun hn => h.1 hn.2
    simp only [List.cons_append, splitFrom, hc, hi h.2, feedAll_cons]
    cases splitFrom separator bs ((n.feed c).feedAll as) 0 <;> rfl

theorem splitFrom_skip :
    splitFrom separator (as ++ bs) n as.length = splitFrom separator bs n 0 := by
  induction as
  case nil => rfl
  case cons hi => exact hi

theorem splitFrom_separator (h : separator ≠ []) (hn : n.isOutside = true) :
    splitFrom separator (separator ++ bs) n 0 = [] :: splitFrom separator bs n 0 := by
  cases separator
  case nil => exact absurd rfl h
  case cons c separator =>
    simp [splitFrom, hn, splitFrom_skip]

-- What is not cut by itself, and ends outside, is found again between separators.
theorem splitOutside_intercalate {pieces : List (List Char)} (h : separator ≠ [])
    (hne : pieces ≠ [])
    (hp : ∀ piece ∈ pieces, outside.feedAll piece = outside ∧
      ∀ bs, bs = [] ∨ separator <+: bs → Uncut separator outside piece bs) :
    splitOutside separator (separator.intercalate pieces) = pieces := by
  unfold splitOutside
  induction pieces
  case nil => exact absurd rfl hne
  case cons piece pieces hi =>
    have ⟨hf, hu⟩ := hp piece (.head _)
    cases pieces
    case nil =>
      have hs := splitFrom_append (hu [] (.inl rfl))
      simpa [hf, splitFrom, prepend] using hs
    case cons next pieces =>
      have hs := splitFrom_append
        (hu (separator ++ separator.intercalate (next :: pieces)) (.inr ⟨_, rfl⟩))
      have hi := hi (by simp) fun piece h => hp piece (.tail _ h)
      rw [hf, splitFrom_separator h rfl, hi] at hs
      simpa [List.intercalate_cons_cons, prepend] using hs

end Stencil
