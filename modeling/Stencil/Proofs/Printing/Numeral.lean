import Stencil.Proofs.Printing.Lexing

-- Where a number ends that is followed by something else.
namespace Stencil.Token

variable {c d : Char} {p : Char → Bool} {f g : List Char → List Char × List Char}
  {t bs cs ds : List Char}

-- A function on texts that goes up to a character `c` and no further.
def Cut (c : Char) (f : List Char → List Char × List Char) : Prop :=
  ∀ cs bs, f (cs ++ c :: bs) = ((f cs).1, (f cs).2 ++ c :: bs)

namespace Cut

theorem span (hc : p c = false) : Cut c (span p) := by
  intro cs bs
  induction cs
  case nil => simp [Token.span, hc]
  case cons d cs hi =>
    simp only [Token.span, Prod.mk.injEq] at hi
    cases hd : p d <;> simp [Token.span, hd, hi]

theorem option_cons (hf : Cut c f) :
    option p f (d :: ds ++ c :: bs) =
      ((option p f (d :: ds)).1, (option p f (d :: ds)).2 ++ c :: bs) := by
  simp only [List.cons_append, Token.option, hf ds bs]
  split <;> rfl

theorem option (hc : p c = false) (hf : Cut c f) : Cut c (option p f) := by
  intro cs bs
  cases cs
  case nil => simp [Token.option, hc]
  case cons => exact hf.option_cons

theorem both (hf : Cut c f) (hg : Cut c g) : Cut c (both f g) := by
  intro cs bs
  simp only [Token.both, hf cs bs, hg (f cs).2 bs]

theorem nothing : Cut c fun cs => ([], cs) :=
  fun _ _ => rfl

end Cut

-- The characters that a number takes in, other than digits and a point that belongs to it. A point
-- belongs to a number that has none yet and no exponent.
def sticks (whole : Bool) (c : Char) : Bool :=
  isNameChar c || c == '+' || c == '-' || (whole && c == '.')

def exponentDigits : List Char → List Char × List Char :=
  both (option (fun c => c == '+' || c == '-') fun cs => ([], cs)) (span isDigit)

def afterFraction : List Char → List Char × List Char :=
  both (option (fun c => c == 'e' || c == 'E') exponentDigits)
    (option isNameStart (span isNameChar))

theorem cut_afterFraction (hc : sticks false c = false) : Cut c afterFraction := by
  simp only [sticks, Bool.false_and, Bool.or_false, Bool.or_eq_false_iff] at hc
  have ⟨⟨hn, hp⟩, hm⟩ := hc
  have he : (c == 'e' || c == 'E') = false := by
    rw [Bool.or_eq_false_iff, beq_eq_false_iff_ne, beq_eq_false_iff_ne]
    constructor <;> (rintro rfl; exact absurd hn (by decide))
  have ⟨hs, hd⟩ := Bool.or_eq_false_iff.mp hn
  exact .both (.option he (.both (.option (by simp [hp, hm]) .nothing) (.span hd)))
    (.option hs (.span hn))

theorem numberParts_eq :
    numberParts = both (span isDigit) (both (option (· == '.') (span isDigit)) afterFraction) :=
  rfl

theorem cut_numberParts (hc : sticks (t.all isDigit) c = false) :
    numberParts (t ++ c :: bs) = ((numberParts t).1, (numberParts t).2 ++ c :: bs) := by
  have hs : sticks false c = false := by
    simp only [sticks, Bool.or_eq_false_iff, Bool.false_and] at hc ⊢
    exact ⟨hc.1, trivial⟩
  have hd : isDigit c = false := by
    simp only [sticks, isNameChar, Bool.or_eq_false_iff] at hs
    exact hs.1.1.1.2
  have hw := Cut.span hd
  have ha := cut_afterFraction hs
  rw [numberParts_eq]
  by_cases hp : c = '.'
  case neg => exact hw.both ((Cut.option (by simpa using hp) hw).both ha) t bs
  case pos =>
    -- There is a point or an exponent already, so that the point is not looked at as one.
    have ht : t.all isDigit = false := by
      simp only [sticks, hp, Bool.or_eq_false_iff] at hc
      simpa using hc.2
    cases hr : t.dropWhile isDigit
    case nil =>
      have h := List.takeWhile_append_dropWhile (p := isDigit) (l := t)
      rw [hr, List.append_nil] at h
      rw [←h, List.all_takeWhile] at ht
      cases ht
    case cons d ds =>
      have hr : (span isDigit t).2 = d :: ds := hr
      simp only [both, hw t bs, hr, hw.option_cons, ha _ bs]

theorem numberParts_append (hb : Ends (sticks (t.all isDigit)) bs) (ht : (numberParts t).2 = []) :
    numberParts (t ++ bs) = (t, bs) := by
  have h := munch_numberParts.append t
  rw [ht, List.append_nil] at h
  cases bs
  case nil => rw [List.append_nil, ←ht, Prod.ext_iff]; exact ⟨h, rfl⟩
  case cons c bs => rw [cut_numberParts hb, h, ht, List.nil_append]

theorem span_of_all (h : cs.all p = true) : span p cs = (cs, []) := by
  have h := Ends.span_append (show Ends p [] from rfl) h
  rwa [List.append_nil] at h

theorem option_of_ends (h : Ends p cs) : option p f cs = ([], cs) := by
  cases cs
  case nil => rfl
  case cons c cs =>
    have h : p c = false := h
    simp [option, h]

theorem all_of_unsigned? {n : Int} (h : Decimal.readExponent?.unsigned? ds = some n) :
    ds.all isDigit = true := by
  unfold Decimal.readExponent?.unsigned? at h
  split at h
  case isTrue hd => exact (Bool.and_eq_true_iff.mp hd).2
  case isFalse => cases h

theorem exponentDigits_of_read {n : Int} (h : Decimal.readExponent? cs = some n) :
    exponentDigits cs = (cs, []) := by
  unfold Decimal.readExponent? at h
  split at h
  case h_1 ds =>
    have ⟨_, h, _⟩ := Option.map_eq_some_iff.mp h
    simp [exponentDigits, both, option, span_of_all (all_of_unsigned? h)]
  case h_2 ds => simp [exponentDigits, both, option, span_of_all (all_of_unsigned? h)]
  case h_3 hm hp =>
    have hs : Ends (fun c => c == '+' || c == '-') cs := by
      cases cs
      case nil => rfl
      case cons c ds =>
        have hp : c ≠ '+' := fun hc => hp ds (hc ▸ rfl)
        have hm : c ≠ '-' := fun hc => hm ds (hc ▸ rfl)
        simp [Ends, hp, hm]
    simp [exponentDigits, both, option_of_ends hs, span_of_all (all_of_unsigned? h)]

theorem afterFraction_of_exponent {n : Int}
    (h : (match cs with
      | [] => some 0
      | c :: ds => if c == 'e' || c == 'E' then Decimal.readExponent? ds else none) = some n) :
    (afterFraction cs).2 = [] := by
  cases cs
  case nil => rfl
  case cons c ds =>
    simp only at h
    split at h
    case isFalse => cases h
    case isTrue hc =>
      simp only [afterFraction, both, option, hc, if_true, exponentDigits_of_read h]

theorem of_parts {whole fraction : List Char} {r : Option Int} {f : Int → Decimal} {x : Decimal}
    (h : (if whole.isEmpty && fraction.isEmpty then none else r.map f) = some x) :
    (∃ n, r = some n) ∧ (whole ≠ [] ∨ fraction ≠ []) := by
  split at h
  case isTrue => cases h
  case isFalse hw =>
    have ⟨n, hn, _⟩ := Option.map_eq_some_iff.mp h
    refine ⟨⟨n, hn⟩, ?_⟩
    cases whole
    case nil => exact .inr fun hf => hw (by simp [hf])
    case cons => exact .inl nofun

theorem parts_of_read? {x : Decimal} (h : Decimal.read? t = some x) :
    (afterFraction (fractionPart (t.dropWhile isDigit)).2).2 = [] ∧
      (t.takeWhile isDigit ≠ [] ∨
        ∃ ds, t.dropWhile isDigit = '.' :: ds ∧ ds.takeWhile isDigit ≠ []) := by
  unfold Decimal.read? at h
  cases hr : t.dropWhile isDigit <;> simp only [hr] at h
  case nil => exact ⟨rfl, .inl ((of_parts h).2.resolve_right (by simp))⟩
  case cons d ds =>
    by_cases hd : d = '.'
    case pos =>
      subst hd
      obtain ⟨⟨_, hn⟩, hw⟩ := of_parts h
      exact ⟨afterFraction_of_exponent hn, hw.imp_right fun hw => ⟨ds, rfl, hw⟩⟩
    case neg =>
      have hf : fractionPart (d :: ds) = ([], d :: ds) := by simp [fractionPart, hd]
      split at h
      case h_1 hc => exact absurd (List.cons.inj hc).1 hd
      case h_2 =>
        obtain ⟨⟨_, hn⟩, hw⟩ := of_parts h
        exact ⟨hf ▸ afterFraction_of_exponent hn, .inl (hw.resolve_right (by simp))⟩

-- What is read as a decimal is a number to its end.
theorem numberParts_of_read? {x : Decimal} (h : Decimal.read? t = some x) :
    (numberParts t).2 = [] := by
  have h := (parts_of_read? h).1
  rwa [fractionPart_eq] at h

theorem startsNumber_of_read? {x : Decimal} (h : Decimal.read? (c :: cs) = some x) :
    startsNumber c (cs ++ bs) = true := by
  by_cases hc : isDigit c = true
  case pos => simp [startsNumber, hc]
  case neg =>
    have hd := (parts_of_read? h).2
    simp only [List.takeWhile_cons, List.dropWhile_cons, hc] at hd
    obtain ⟨ds, hd, hw⟩ := hd.resolve_left (by simp)
    cases hd
    cases cs
    case nil => exact absurd rfl hw
    case cons d ds =>
      have hd : isDigit d = true := by
        cases hd : isDigit d
        case true => rfl
        case false => simp [hd] at hw
      simp [startsNumber, hd]

theorem word_of_all (hn : cs.all isNameChar = true) (hd : Ends isDigit cs) :
    (option isNameStart (span isNameChar) cs).2 = [] := by
  cases cs
  case nil => rfl
  case cons c cs =>
    have hd : isDigit c = false := hd
    simp only [List.all_cons, isNameChar, hd, Bool.or_false, Bool.and_eq_true] at hn
    simp [option, hn.1, span_of_all hn.2]

theorem ends_of_all {q : Char → Bool} (hc : cs.all p = true) (h : ∀ c, p c = true → q c = false) :
    Ends q cs := by
  cases cs
  case nil => rfl
  case cons c cs => exact h c (Bool.and_eq_true_iff.mp hc).1

theorem ends_dropWhile (p : Char → Bool) (cs : List Char) : Ends p (cs.dropWhile p) := by
  have h := List.head?_dropWhile_not p cs
  unfold Ends
  cases hc : (cs.dropWhile p).head? <;> simp_all

theorem afterFraction_of_name (hc : isName cs = true) : (afterFraction cs).2 = [] := by
  cases cs
  case nil => cases hc
  case cons c cs =>
    have ⟨hc, hcs⟩ := Bool.and_eq_true_iff.mp hc
    by_cases he : (c == 'e' || c == 'E') = true
    case neg =>
      have he : option (fun c => c == 'e' || c == 'E') exponentDigits (c :: cs) = ([], c :: cs) :=
        option_of_ends (by simpa [Ends] using he)
      have hw : (option isNameStart (span isNameChar) (c :: cs)).2 = [] := by
        simp [option, hc, span_of_all hcs]
      simp only [afterFraction, both, he, hw]
    case pos =>
      have hs : Ends (fun c => c == '+' || c == '-') cs := by
        refine ends_of_all hcs fun c hc => ?_
        rw [Bool.or_eq_false_iff, beq_eq_false_iff_ne, beq_eq_false_iff_ne]
        constructor <;> (rintro rfl; exact absurd hc (by decide))
      have hx : exponentDigits cs = span isDigit cs := by
        simp [exponentDigits, both, option_of_ends hs]
      have hd : (cs.dropWhile isDigit).all isNameChar = true :=
        List.all_eq_true.mpr fun c hc =>
          List.all_eq_true.mp hcs c ((List.dropWhile_suffix isDigit).subset hc)
      have hw := word_of_all hd (ends_dropWhile isDigit cs)
      simp only [afterFraction, both, option, he, if_true, hx, span]
      exact hw

-- A number and a name after it, with a point between them, are read as one number.
theorem numberParts_member (ht : t.all isDigit = true) (hc : isName cs = true) :
    (numberParts (t ++ '.' :: cs)).2 = [] := by
  have hw : span isDigit (t ++ '.' :: cs) = (t, '.' :: cs) :=
    Ends.span_append (show Ends isDigit ('.' :: cs) from rfl) ht
  have hf : span isDigit cs = ([], cs) := by
    cases cs
    case nil => rfl
    case cons c cs =>
      have hd : isDigit c = false := isDigit_of_isNameStart (Bool.and_eq_true_iff.mp hc).1
      simp [span, hd]
  simp only [numberParts_eq, both, hw, option, beq_self_eq_true, if_true, hf]
  exact afterFraction_of_name hc

theorem lexes_numeral (hs : startsNumber c (cs ++ bs) = true)
    (hp : numberParts (c :: cs ++ bs) = (c :: cs, bs)) :
    Lexes (c :: cs) ((Decimal.read? (c :: cs)).map fun x => [.number x.toFloat]) bs := by
  have hc : isBlank c = false := by
    refine isBlank_of_isPlain ?_
    simp only [startsNumber, Bool.or_eq_true, Bool.and_eq_true] at hs
    rcases hs with hs | ⟨hs, _⟩ <;> simp [isPlain, isNameChar, hs]
  have he : numberExtent (c :: (cs ++ bs)) = c :: cs := by
    rw [numberExtent_eq]
    exact congrArg Prod.fst hp
  cases hd : Decimal.read? (c :: cs)
  case some x => exact .token hc (by simp [read, hs, he, hd])
  case none =>
    have hr : read 0 c (cs ++ bs) = .error (.ofFault (.number (.ofList (c :: cs))) 0) := by
      simp [read, hs, he, hd]
    exact kinds_error hc hr

theorem lexes_number {x : Decimal} (h : Decimal.read? t = some x)
    (hb : Ends (sticks (t.all isDigit)) bs) : Lexes t (some [.number x.toFloat]) bs := by
  have hp := numberParts_append hb (numberParts_of_read? h)
  cases t
  case nil => cases h
  case cons c cs =>
    have hl := lexes_numeral (startsNumber_of_read? h) hp
    rwa [h] at hl

theorem lexes_whole_member (ht : t.all isDigit = true) (hn : t ≠ []) (hc : isName cs = true)
    (hb : Ends (sticks false) bs) :
    Lexes (t ++ '.' :: cs)
      ((Decimal.read? (t ++ '.' :: cs)).map fun x => [.number x.toFloat]) bs := by
  have hd : (t ++ '.' :: cs).all isDigit = false := by simp [isDigit]
  have hp := numberParts_append (hd ▸ hb) (numberParts_member ht hc)
  cases t
  case nil => exact absurd rfl hn
  case cons c t =>
    have hc : isDigit c = true := (Bool.and_eq_true_iff.mp ht).1
    exact lexes_numeral (by simp [startsNumber, hc]) hp

end Stencil.Token
