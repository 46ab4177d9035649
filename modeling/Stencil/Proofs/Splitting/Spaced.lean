import Mathlib.Data.List.DropRight
import Stencil.Proofs.Lexing.Spacing
import Stencil.Proofs.Splitting.Enclosed
import Stencil.Proofs.Splitting.Substitution

-- Texts with blanks around them, and what can be told of them as if they had none.
namespace Stencil

open Token (Gap)

-- A text with blanks around it.
inductive Spaced (cs : List Char) : List Char → Prop
  | intro (before after : Gap) : Spaced cs (before.1 ++ (cs ++ after.1))

-- A source text of an expression, and a name, with blanks around them.
def Source (e : Expr) (text : List Char) : Prop :=
  ∃ cs, Expr.read cs = .ok e ∧ Spaced cs text

def Named (x : String) (text : List Char) : Prop :=
  isName x.toList = true ∧ Spaced x.toList text

variable {c : Char} {as bs cs text rest inner : List Char} {e : Expr} {x : String}

theorem isBlank_of_mem (gap : Gap) (h : c ∈ gap.1) : isBlank c = true :=
  List.all_eq_true.mp gap.2 c h

theorem trimStart_gap (gap : Gap) : trimStart gap.1 = [] :=
  List.dropWhile_eq_nil_iff.mpr fun _ => isBlank_of_mem gap

theorem trimEnd_append_gap (cs : List Char) (gap : Gap) : trimEnd (cs ++ gap.1) = trimEnd cs := by
  have hg : ∀ c ∈ gap.1.reverse, isBlank c = true :=
    fun c hm => isBlank_of_mem gap (List.mem_reverse.mp hm)
  rw [trimEnd, List.reverse_append, List.dropWhile_append_of_pos hg, trimEnd]

theorem trimEnd_append_cons (hc : isBlank c = false) :
    trimEnd (as ++ c :: bs) = as ++ c :: trimEnd bs := by
  have hd (cs : List Char) : (c :: cs).dropWhile isBlank = c :: cs := by simp [hc]
  simp only [trimEnd, List.reverse_append, List.reverse_cons, List.append_assoc,
    List.dropWhile_append, List.singleton_append, hd]
  split
  case isTrue h => simp [List.isEmpty_iff.mp h]
  case isFalse => simp

theorem trim_parens (inner rest : List Char) :
    trim ('(' :: (inner ++ ')' :: rest)) = '(' :: (inner ++ ')' :: trimEnd rest) := by
  have h : trimEnd (('(' :: inner) ++ ')' :: rest) = ('(' :: inner) ++ ')' :: trimEnd rest :=
    trimEnd_append_cons rfl
  exact h

theorem trim_eq_nil_iff : trim cs = [] ↔ ∀ c ∈ cs, isBlank c = true := by
  constructor
  case mp =>
    intro h c hm
    have hd : ∀ c ∈ trimStart cs, isBlank c = true := List.rdropWhile_eq_nil_iff.mp h
    rw [←List.takeWhile_append_dropWhile (p := isBlank) (l := cs)] at hm
    rcases List.mem_append.mp hm with hm | hm
    case inl => exact List.mem_takeWhile_imp hm
    case inr => exact hd c hm
  case mpr =>
    intro h
    have hs : trimStart cs = [] := List.dropWhile_eq_nil_iff.mpr h
    rw [trim, hs]
    rfl

theorem trim_of_not_blank (h : ∀ c ∈ cs, isBlank c = false) : trim cs = cs := by
  have hs : trimStart cs = cs :=
    List.dropWhile_eq_self_iff.mpr fun _ => by simp [h _ (List.getElem_mem _)]
  rw [trim, hs]
  exact List.rdropWhile_eq_self_iff.mpr fun hn => by simp [h _ (List.getLast_mem hn)]

namespace Spaced

theorem trim_eq (h : Spaced cs text) : trim text = trim cs := by
  have ⟨before, after⟩ := h
  have hb : trimStart (before.1 ++ (cs ++ after.1)) = trimStart (cs ++ after.1) :=
    List.dropWhile_append_of_pos fun _ => isBlank_of_mem before
  have ha : trimStart (cs ++ after.1) =
      if (trimStart cs).isEmpty then [] else trimStart cs ++ after.1 := by
    rw [←trimStart_gap after]
    exact List.dropWhile_append
  rw [trim, hb, ha]
  split
  case isTrue hs => rw [trim, List.isEmpty_iff.mp hs]
  case isFalse => exact trimEnd_append_gap _ after

theorem trimEnd (cs : List Char) : Spaced (trimEnd cs) cs := by
  have hs := List.takeWhile_append_dropWhile (p := isBlank) (l := cs.reverse)
  have hc : Stencil.trimEnd cs ++ (cs.reverse.takeWhile isBlank).reverse = cs := by
    rw [Stencil.trimEnd, ←List.reverse_append, hs, List.reverse_reverse]
  have h : Spaced (Stencil.trimEnd cs) ([] ++ (Stencil.trimEnd cs ++ _)) :=
    intro ⟨[], rfl⟩ ⟨(cs.reverse.takeWhile isBlank).reverse, by simp [List.all_takeWhile]⟩
  rwa [List.nil_append, hc] at h

end Spaced

theorem trim_trimEnd (cs : List Char) : trim (trimEnd cs) = trim cs :=
  (Spaced.trimEnd cs).trim_eq.symm

theorem trim_trim (cs : List Char) : trim (trim cs) = trim cs := by
  have ht : trimStart (trimStart cs) = trimStart cs := List.dropWhile_idempotent _ _
  calc trim (trim cs)
    _ = trim (trimStart cs) := trim_trimEnd _
    _ = trim cs := by rw [trim, ht, trim]

theorem startsBlank_trimEnd (h : trim cs ≠ []) : startsBlank (trimEnd cs) = startsBlank cs := by
  have hp : trimEnd cs <+: cs := List.rdropWhile_prefix isBlank cs
  rw [←trim_trimEnd] at h
  cases hc : trimEnd cs <;> rw [hc] at h hp
  case nil => exact absurd rfl h
  case cons =>
    have ⟨after, ha⟩ := hp
    exact ha ▸ rfl

namespace Token.Lexed

variable {ks : List Kind}

theorem gap_append (h : Lexed cs ks) (gap : Gap) : Lexed (gap.1 ++ cs) ks := by
  have ⟨gap, hg⟩ := gap
  induction gap
  case nil => exact h
  case cons c gap hi =>
    have ⟨hc, hg⟩ := Bool.and_eq_true_iff.mp hg
    exact .blank hc (hi hg)

theorem append_gap (h : Lexed cs ks) (gap : Gap) : Lexed (cs ++ gap.1) ks := by
  induction h
  case nil => simpa using gap_append .nil gap
  case blank hc _ hi => exact .blank hc hi
  case token c k as bs ks hc he _ hi =>
    have hf : Follows bs (bs ++ gap.1) := by
      cases bs
      case nil => exact fun c hm => .inl (isBlank_of_mem gap (List.mem_of_head? hm))
      case cons => exact fun _ => .inr
    simpa using token hc (he.follows hf) hi

end Token.Lexed

theorem Source.read (h : Source e text) : Expr.read text = .ok e := by
  rcases h with ⟨cs, hr, ⟨before, after⟩⟩
  have ⟨ks, r, hl, hs⟩ := Expr.read_eq_ok_iff.mp hr
  exact Expr.read_eq_ok_iff.mpr ⟨ks, r, (hl.append_gap after).gap_append before, hs⟩

theorem isPlain_of_isName (h : isName cs = true) : ∀ c ∈ cs, Token.isPlain c = true := by
  cases cs
  case nil => cases h
  case cons c cs =>
    have ⟨hc, ha⟩ := Bool.and_eq_true_iff.mp h
    have hn : ∀ c' ∈ c :: cs, isNameChar c' = true :=
      List.forall_mem_cons.mpr ⟨by simp [isNameChar, hc], List.all_eq_true.mp ha⟩
    exact fun c hm => by simp [Token.isPlain, hn c hm]

theorem Named.trim_eq (h : Named x text) : trim text = x.toList := by
  rw [h.2.trim_eq]
  exact trim_of_not_blank fun c hm => Token.isBlank_of_isPlain (isPlain_of_isName h.1 c hm)

theorem Named.isInert (h : Named x text) : ∀ c ∈ text, isInert c = true := by
  rcases h with ⟨hx, ⟨before, after⟩⟩
  intro c hm
  rcases List.mem_append.mp hm with hm | hm
  case inl => exact isInert_of_isBlank (isBlank_of_mem before hm)
  rcases List.mem_append.mp hm with hm | hm
  case inl => exact isInert_of_isPlain (isPlain_of_isName hx c hm)
  case inr => exact isInert_of_isBlank (isBlank_of_mem after hm)

theorem splitOutside_inert {pieces : List (List Char)} (hne : pieces ≠ [])
    (h : ∀ piece ∈ pieces, ∀ c ∈ piece, isInert c = true) :
    splitOutside [','] ([','].intercalate pieces) = pieces := by
  refine splitOutside_intercalate nofun hne fun piece hm => ?_
  have hp (bs : List Char) : _ ∧ Nesting.Uncut [','] .outside piece bs :=
    inert_spec (.inl rfl) (h piece hm)
  exact ⟨(hp []).1, fun bs _ => (hp bs).2⟩

end Stencil
