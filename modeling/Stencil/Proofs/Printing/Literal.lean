import Stencil.Proofs.Lexing.Spacing
import Stencil.Proofs.Printing.Lexing

-- A text that is written as a literal stands on one line and is read as the same text.
namespace Stencil

def isLineBreak (c : Char) : Bool :=
  let n := c.toNat
  n == 0xa || n == 0xd || n == 0x2028 || n == 0x2029

namespace Json

variable {c d : Char}

def isPrintable (c : Char) : Bool :=
  0x20 ≤ c.toNat && c.toNat < 0x7f

theorem all_hexPlaces : ∀ n < 0x20, ('\\' :: 'u' :: hexPlaces n).all isPrintable = true := by
  decide

-- What is not escaped stands for itself, and what is escaped is written in plain characters.
theorem mem_escape (h : d ∈ escape c) : isPrintable d = true ∨ d = c ∧ 0x20 ≤ c.toNat := by
  have hp {cs : List Char} (hc : cs.all isPrintable = true) (h : d ∈ cs) :
      isPrintable d = true ∨ d = c ∧ 0x20 ≤ c.toNat := .inl (List.all_eq_true.mp hc d h)
  unfold escape at h
  split at h
  case h_8 =>
    split at h
    case isTrue hc => exact hp (all_hexPlaces _ hc) h
    case isFalse hc => exact .inr ⟨by simpa using h, Nat.le_of_not_lt hc⟩
  all_goals exact hp rfl h

end Json

namespace Source

variable {c d : Char}

-- The text with `word` for each `c`.
def replace (c : Char) (word cs : List Char) : List Char :=
  cs.flatMap fun d => if d = c then word else [d]

theorem replace_flatMap {α : Type} (c : Char) (word : List Char) (f : α → List Char)
    (as : List α) : replace c word (as.flatMap f) = as.flatMap fun a => replace c word (f a) :=
  List.flatMap_assoc

theorem replace_of_not_mem {cs : List Char} (h : c ∉ cs) (word : List Char) :
    replace c word cs = cs := by
  induction cs
  case nil => rfl
  case cons d cs hi =>
    have ⟨hd, hc⟩ : c ≠ d ∧ c ∉ cs := by simpa using h
    simpa [replace, hd.symm] using hi hc

-- The two separators, escaped in the text of a string.
def escapeSeparators (cs : List Char) : List Char :=
  replace '\u2029' "\\u2029".toList (replace '\u2028' "\\u2028".toList cs)

theorem escapeSeparators_append (as bs : List Char) :
    escapeSeparators (as ++ bs) = escapeSeparators as ++ escapeSeparators bs := by
  simp only [escapeSeparators, replace, List.flatMap_append]

theorem escapeSeparators_escape (c : Char) : escapeSeparators (Json.escape c) = escape c := by
  have hn (d : Char) (hd : Json.isPrintable d = false) (hc : c ≠ d) : d ∉ Json.escape c := by
    intro h
    cases Json.mem_escape h
    case inl h => cases hd.symm.trans h
    case inr h => exact hc h.1.symm
  by_cases hl : c = '\u2028'
  case pos => subst hl; rfl
  by_cases hp : c = '\u2029'
  case pos => subst hp; rfl
  have hs : escape c = Json.escape c := by
    have hl : c.toNat ≠ 0x2028 := Char.toNat_inj.not.mpr hl
    have hp : c.toNat ≠ 0x2029 := Char.toNat_inj.not.mpr hp
    simp [escape, hl, hp]
  rw [escapeSeparators, replace_of_not_mem (hn _ rfl hl), replace_of_not_mem (hn _ rfl hp), hs]

theorem toList_literal (s : String) :
    (literal s).toList = '"' :: (s.toList.flatMap escape ++ ['"']) := by
  rw [literal, String.toList_ofList, List.cons_append]

theorem literal_eq (s : String) : (literal s).toList = escapeSeparators (Json.quote s).toList := by
  have hs : escapeSeparators (s.toList.flatMap Json.escape) = s.toList.flatMap escape := by
    rw [escapeSeparators, replace_flatMap, replace_flatMap]
    exact congrArg s.toList.flatMap (funext escapeSeparators_escape)
  have hq : escapeSeparators ['"'] = ['"'] := rfl
  calc (literal s).toList
    _ = escapeSeparators ['"'] ++ (escapeSeparators (s.toList.flatMap Json.escape) ++
        escapeSeparators ['"']) := by rw [toList_literal, hs, hq]; rfl
    _ = escapeSeparators (['"'] ++ (s.toList.flatMap Json.escape ++ ['"'])) := by
      rw [escapeSeparators_append, escapeSeparators_append]
    _ = escapeSeparators (Json.quote s).toList := by rw [Json.quote, String.toList_ofList]; rfl

theorem isLineBreak_of_mem_escape (h : d ∈ escape c) : isLineBreak d = false := by
  have hp (h : Json.isPrintable d = true) : isLineBreak d = false := by
    simp only [Json.isPrintable, Bool.and_eq_true, decide_eq_true_eq] at h
    simp only [isLineBreak, Bool.or_eq_false_iff, beq_eq_false_iff_ne]
    omega
  unfold escape at h
  split at h
  case isTrue => exact hp (List.all_eq_true.mp rfl d h)
  split at h
  case isTrue => exact hp (List.all_eq_true.mp rfl d h)
  cases Json.mem_escape h
  case inl h => exact hp h
  case inr hl hp h =>
    have ⟨hd, hc⟩ := h
    simp only [beq_iff_eq] at hl hp
    simp only [isLineBreak, hd, Bool.or_eq_false_iff, beq_eq_false_iff_ne]
    omega

theorem any_isLineBreak_literal (s : String) : (literal s).toList.any isLineBreak = false := by
  have he : (s.toList.flatMap escape).any isLineBreak = false := by
    simp only [List.any_eq_false, List.mem_flatMap, Bool.not_eq_true]
    exact fun d ⟨c, _, h⟩ => isLineBreak_of_mem_escape h
  rw [toList_literal, List.any_cons, List.any_append, he]
  rfl

theorem marks_literal (s : String) :
    Token.marks (literal s).toList =
      .ok [⟨some (.string s), 0⟩, ⟨none, byteWidth (literal s).toList⟩] := by
  have hr := Token.stringRest_literal 0 1 s.toList []
  have ⟨as, bs, ha, hl, he⟩ := Token.extent_string (.inl rfl) hr
  -- The literal has been read to its end.
  have hb : bs = [] := by
    have hl' := congrArg List.length ha
    simp only [List.length_append, List.length_cons, List.length_nil] at hl hl'
    exact List.eq_nil_of_length_eq_zero (by omega)
  rw [hb, List.append_nil] at ha
  rw [String.ofList_toList] at he
  rw [toList_literal, ha]
  exact he.marks_eq rfl

-- A literal is the text of a string with the separators escaped. It has no line break in it, and is
-- a single token, which stands for the string.
theorem literal_reads_back (s : String) :
    (literal s).toList = escapeSeparators (Json.quote s).toList ∧
      (literal s).toList.any isLineBreak = false ∧
      Token.marks (literal s).toList =
        .ok [⟨some (.string s), 0⟩, ⟨none, byteWidth (literal s).toList⟩] :=
  ⟨literal_eq s, any_isLineBreak_literal s, marks_literal s⟩

end Source
end Stencil
