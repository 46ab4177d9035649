import Stencil.Compile.Basic
import Stencil.Proofs.Splitting.Outline

-- Which bracket ends a parenthesis.
namespace Stencil

variable {n : Nat} {c : Char} {cs rest : List Char}

theorem eq_nil_of_byteWidth (h : byteWidth cs = 0) : cs = [] := by
  cases cs
  case nil => rfl
  case cons c cs =>
    have := c.utf8Size_pos
    simp only [byteWidth] at h
    omega

theorem dropBytes_eq_some_iff :
    dropBytes n cs = some rest ↔ ∃ before, cs = before ++ rest ∧ byteWidth before = n := by
  fun_induction dropBytes n cs
  case case1 cs =>
    constructor
    case mp =>
      rintro ⟨⟩
      exact ⟨[], rfl, rfl⟩
    case mpr =>
      rintro ⟨before, rfl, hb⟩
      rw [eq_nil_of_byteWidth hb, List.nil_append]
  case case2 n =>
    simp only [reduceCtorEq, false_iff, not_exists, not_and]
    intro before he
    rw [(List.append_eq_nil_iff.mp he.symm).1]
    exact nofun
  case case3 n c cs hc hi =>
    rw [hi]
    constructor
    case mp =>
      rintro ⟨before, rfl, hb⟩
      exact ⟨c :: before, rfl, by rw [byteWidth, hb, Nat.add_sub_cancel' hc]⟩
    case mpr =>
      rintro ⟨before, he, hb⟩
      cases before
      case nil => cases hb
      case cons =>
        cases he
        exact ⟨_, rfl, Nat.eq_sub_of_add_eq' hb⟩
  case case4 n c cs hc =>
    simp only [reduceCtorEq, false_iff, not_exists, not_and]
    intro before he hb
    cases before
    case nil => cases hb
    case cons =>
      cases he
      simp only [byteWidth] at hb
      omega

-- The parenthesis at the offset `start` is closed at the offset `stop`, and so are all brackets in
-- between that stand outside of string literals.
def Matched (closes : Char → Char → Bool) (cs : List Char) (start stop : Nat) : Prop :=
  ∃ before inner c after bs,
    cs = before ++ '(' :: (inner ++ c :: after) ∧ start = byteWidth before ∧
    stop = start + 1 + byteWidth inner ∧ closes '(' c = true ∧
    Outline inner bs ∧ Nested closes bs

theorem ownCloses_imp (o c : Char) (h : ownCloses o c = true) : anyCloses o c = true := by
  unfold ownCloses at h
  split at h
  case h_4 => cases h
  all_goals rfl

theorem Matched.of_own {start stop : Nat} (h : Matched ownCloses cs start stop) :
    Matched anyCloses cs start stop := by
  have ⟨before, inner, c, after, bs, he, hb, hi, hc, ho, hn⟩ := h
  exact ⟨before, inner, c, after, bs, he, hb, hi, ownCloses_imp _ _ hc, ho, hn.mono ownCloses_imp⟩

theorem matchingParen_eq_some_iff {start stop : Nat} :
    matchingParen cs start = some stop ↔ Matched anyCloses cs start stop := by
  unfold matchingParen
  constructor
  case mp =>
    intro h
    split at h
    case h_2 => cases h
    case h_1 inner rest hs =>
      cases h
      have ⟨_, hd, he⟩ := Option.bind_eq_some_iff.mp hs
      have ⟨before, hb, hw⟩ := dropBytes_eq_some_iff.mp hd
      have ⟨c, bs, hi, hc, ho, hn⟩ := enclosed?_eq_some_iff.mp he
      exact ⟨before, inner, c, rest, bs, hi ▸ hb, hw.symm, rfl, hc, ho, hn⟩
  case mpr =>
    rintro ⟨before, inner, c, after, bs, he, hb, hi, hc, ho, hn⟩
    have hd := dropBytes_eq_some_iff.mpr ⟨before, he, hb.symm⟩
    have hs : enclosed? ('(' :: (inner ++ c :: after)) = some (inner, after) :=
      enclosed?_eq_some_iff.mpr ⟨c, bs, rfl, hc, ho, hn⟩
    rw [hd, Option.bind_some, hs, hi]

theorem enclosed?_eq_none_iff :
    enclosed? cs = none ↔ ¬∃ stop, Matched anyCloses cs 0 stop := by
  simp only [←matchingParen_eq_some_iff, matchingParen, dropBytes, Option.bind_some]
  cases enclosed? cs <;> simp

theorem head?_ne_of_forall_ne {head : Char} (h : ∀ tail, cs = head :: tail → False) :
    cs.head? ≠ some head := by
  intro hh
  have ⟨tail, hc⟩ := List.head?_eq_some_iff.mp hh
  exact h tail hc

theorem EachHeader.read_eq_unbalanced_iff {defaults : LoopNames} {content : List Char} :
    read defaults content = .error .eachUnbalanced ↔
      (trim content).head? = some '(' ∧ enclosed? (trim content) = none := by
  simp only [read]
  generalize trim content = cs
  split
  case h_1 => simp
  case h_2 =>
    cases enclosed? _
    case none => simp
    case some =>
      simp only [reduceCtorEq, and_false, iff_false]
      grind
  case h_3 h => simp [head?_ne_of_forall_ne h]

theorem TmplHeader.read_eq_unbalanced_iff {content : List Char} :
    read content = .error .tmplUnbalanced ↔
      (trim content).head? = some '(' ∧ enclosed? (trim content) = none := by
  simp only [read]
  generalize trim content = cs
  split
  case h_1 => simp
  case h_2 =>
    cases enclosed? _
    case none => simp
    case some =>
      simp only [reduceCtorEq, and_false, iff_false]
      grind [ofArguments]
  case h_3 h => simp [head?_ne_of_forall_ne h]

-- A parenthesis ends where it is closed if all closing brackets count alike. If there is one that
-- closes it with everything in between closed by its own kind, then it ends there. A header is
-- unbalanced only if no bracket at all closes its parenthesis.
theorem matchingParen_counts_alike (cs : List Char) (start : Nat) (defaults : LoopNames) :
    (∀ stop, matchingParen cs start = some stop ↔ Matched anyCloses cs start stop) ∧
    (∀ stop, Matched ownCloses cs start stop → matchingParen cs start = some stop) ∧
    ((∀ stop, matchingParen cs start = some stop → Matched ownCloses cs start stop) ↔
      matchingParen cs start = none ∨ ∃ stop, Matched ownCloses cs start stop) ∧
    (EachHeader.read defaults cs = .error .eachUnbalanced ↔
      (trim cs).head? = some '(' ∧ ¬∃ stop, Matched anyCloses (trim cs) 0 stop) ∧
    (TmplHeader.read cs = .error .tmplUnbalanced ↔
      (trim cs).head? = some '(' ∧ ¬∃ stop, Matched anyCloses (trim cs) 0 stop) := by
  have ho (stop : Nat) (h : Matched ownCloses cs start stop) : matchingParen cs start = some stop :=
    matchingParen_eq_some_iff.mpr h.of_own
  simp only [←enclosed?_eq_none_iff]
  refine ⟨fun _ => matchingParen_eq_some_iff, ho, ?_, EachHeader.read_eq_unbalanced_iff,
    TmplHeader.read_eq_unbalanced_iff⟩
  constructor
  case mp =>
    intro h
    cases hm : matchingParen cs start
    case none => exact .inl rfl
    case some stop => exact .inr ⟨stop, h stop hm⟩
  case mpr =>
    rintro (hn | ⟨stop', h⟩) stop hm
    case inl => simp [hn] at hm
    case inr =>
      have hs : stop' = stop := Option.some_inj.mp ((ho stop' h).symm.trans hm)
      exact hs ▸ h

theorem Matched.dropBytes_stop {start stop : Nat} (h : Matched ownCloses cs start stop) :
    ∃ after, dropBytes stop cs = some (')' :: after) := by
  have ⟨before, inner, c, after, _, he, hb, hi, hc, _⟩ := h
  have hc : c = ')' := by
    unfold ownCloses at hc
    split at hc <;> grind
  subst hc hb hi
  exact ⟨after, dropBytes_eq_some_iff.mpr ⟨before ++ '(' :: inner, by simp [he], by
    simp [byteWidth, Char.utf8Size, Nat.add_assoc]⟩⟩

theorem bracket_ends_parenthesis :
    matchingParen "(k, v] rows".toList 0 = some 5 ∧
    ¬Matched ownCloses "(k, v] rows".toList 0 5 ∧
    EachHeader.read .default "(k, v] rows".toList = .ok ⟨⟨"k", "v"⟩, "rows".toList⟩ ∧
    TmplHeader.read "(d\x7d row".toList = .ok ⟨some "d".toList, none, "row".toList⟩ := by
  refine ⟨rfl, fun h => ?_, rfl, rfl⟩
  have ⟨after, hd⟩ := h.dropBytes_stop
  have hs : dropBytes 5 "(k, v] rows".toList = some "] rows".toList := rfl
  rw [hs] at hd
  cases hd

end Stencil
