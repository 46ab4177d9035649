import Stencil.Token.Scan

-- How far a token reaches is told by its own characters and the first one after it.
namespace Stencil.Token

-- What may stand after a token in the place of `bs`: nothing, a blank, or what starts as `bs` does.
def Follows (bs bs' : List Char) : Prop :=
  ∀ c ∈ bs'.head?, isBlank c = true ∨ bs.head? = some c

-- The characters of names and numbers.
def isPlain (c : Char) : Bool :=
  isNameChar c || c == '.' || c == '+' || c == '-'

theorem isBlank_of_isPlain {c : Char} (h : isPlain c = true) : isBlank c = false := by
  have hr : 36 ≤ c.toNat ∧ c.toNat ≤ 122 := by
    simp only [isPlain, isNameChar, isNameStart, isLetter, isDigit, Bool.or_eq_true,
      Bool.and_eq_true, decide_eq_true_eq, beq_iff_eq] at h
    rcases h with ((((((⟨hl, hu⟩ | ⟨hl, hu⟩) | rfl) | rfl) | ⟨hl, hu⟩) | rfl) | rfl) | rfl
    case inl.inl.inl.inl.inl.inl.inl => exact ⟨Nat.le_trans (by decide) hl, hu⟩
    case inl.inl.inl.inl.inl.inl.inr =>
      exact ⟨Nat.le_trans (by decide) hl, Nat.le_trans hu (by decide)⟩
    case inl.inl.inl.inr => exact ⟨Nat.le_trans (by decide) hl, Nat.le_trans hu (by decide)⟩
    all_goals decide
  simp only [isBlank, Bool.or_eq_false_iff, Bool.and_eq_false_iff, decide_eq_false_iff_not,
    beq_eq_false_iff_ne]
  omega

namespace Follows

theorem refl (bs : List Char) : Follows bs bs :=
  fun _ h => .inr h

theorem trans {as bs cs : List Char} (h : Follows as bs) (h' : Follows bs cs) : Follows as cs := by
  intro c hc
  cases h' c hc
  case inl hc => exact .inl hc
  case inr hc => exact h c hc

theorem of_append (as bs : List Char) : Follows (as ++ bs) as := by
  cases as
  case nil => simp [Follows]
  case cons => exact fun _ h => .inr h

theorem append {as bs bs' : List Char} (h : Follows bs bs') : Follows (as ++ bs) (as ++ bs') := by
  cases as
  case nil => exact h
  case cons => exact fun _ h => .inr h

-- What cannot start `bs` and is no blank cannot start what follows in its place.
theorem head {p : Char → Bool} {bs bs' : List Char} (h : Follows bs bs')
    (hp : ∀ c, p c = true → isPlain c = true) (hb : ∀ c ∈ bs.head?, p c = false) :
    ∀ c ∈ bs'.head?, p c = false := by
  intro c hc
  cases h c hc
  case inr hc => exact hb c hc
  case inl hc =>
    cases hpc : p c
    case false => rfl
    case true => simp [isBlank_of_isPlain (hp c hpc)] at hc

end Follows

-- A function that takes as many characters of the right kind from a text as there are.
structure Munch (f : List Char → List Char × List Char) : Prop where
  append : ∀ cs, (f cs).1 ++ (f cs).2 = cs
  isPlain : ∀ cs, ∀ c ∈ (f cs).1, isPlain c = true
  stable : ∀ cs bs, Follows (f cs).2 bs → f ((f cs).1 ++ bs) = ((f cs).1, bs)

def span (p : Char → Bool) (cs : List Char) : List Char × List Char :=
  (cs.takeWhile p, cs.dropWhile p)

def option (p : Char → Bool) (f : List Char → List Char × List Char) :
    List Char → List Char × List Char
  | [] => ([], [])
  | c :: cs => if p c then (c :: (f cs).1, (f cs).2) else ([], c :: cs)

def both (f g : List Char → List Char × List Char) (cs : List Char) : List Char × List Char :=
  ((f cs).1 ++ (g (f cs).2).1, (g (f cs).2).2)

namespace Munch

variable {p : Char → Bool} {f g : List Char → List Char × List Char}

theorem span (hp : ∀ c, p c = true → Token.isPlain c = true) : Munch (span p) where
  append cs := List.takeWhile_append_dropWhile
  isPlain cs c h := hp c (List.all_eq_true.mp List.all_takeWhile c h)
  stable cs bs h := by
    have ht : ∀ c ∈ cs.takeWhile p, p c = true := List.all_eq_true.mp List.all_takeWhile
    have hb : ∀ c ∈ bs.head?, p c = false := by
      refine h.head hp fun c hc => ?_
      have hd := List.head?_dropWhile_not p cs
      have hc : (cs.dropWhile p).head? = some c := hc
      rwa [hc] at hd
    have hn : bs.takeWhile p = [] ∧ bs.dropWhile p = bs := by
      cases bs
      case nil => simp
      case cons c bs => simp [hb c rfl]
    simp only [Token.span]
    rw [List.takeWhile_append_of_pos ht, List.dropWhile_append_of_pos ht, hn.1, hn.2,
      List.append_nil]

theorem option (hp : ∀ c, p c = true → Token.isPlain c = true) (hf : Munch f) :
    Munch (option p f) where
  append cs := by
    cases cs
    case nil => rfl
    case cons c cs =>
      simp only [Token.option]
      split
      · simp [hf.append]
      · rfl
  isPlain cs c h := by
    cases cs
    case nil => simp [Token.option] at h
    case cons c' cs =>
      simp only [Token.option] at h
      split at h <;> simp at h
      case isTrue hc =>
        cases h
        case inl h => exact hp c (h ▸ hc)
        case inr h => exact hf.isPlain cs c h
  stable cs bs h := by
    have hn : (∀ c ∈ bs.head?, p c = false) → Token.option p f bs = ([], bs) := by
      intro hb
      cases bs
      case nil => rfl
      case cons c bs => simp [Token.option, hb c rfl]
    cases cs
    case nil => exact hn (h.head hp (by simp [Token.option]))
    case cons c cs =>
      simp only [Token.option] at h ⊢
      split at h <;> simp only [*]
      case isTrue hc => simp [hc, hf.stable cs bs h]
      case isFalse hc =>
        refine hn (h.head hp ?_)
        simpa using hc

theorem both (hf : Munch f) (hg : Munch g) : Munch (both f g) where
  append cs := by simp [Token.both, hg.append, hf.append]
  isPlain cs c h := by
    cases List.mem_append.mp h
    case inl h => exact hf.isPlain cs c h
    case inr h => exact hg.isPlain _ c h
  stable cs bs h := by
    have hb : Follows (f cs).2 ((g (f cs).2).1 ++ bs) := by
      have hs : Follows ((g (f cs).2).1 ++ (g (f cs).2).2) ((g (f cs).2).1 ++ bs) := h.append
      rwa [hg.append] at hs
    have hs := hf.stable cs _ hb
    simp [Token.both, hs, hg.stable _ bs h]

theorem nothing : Munch fun cs => ([], cs) where
  append _ := rfl
  isPlain _ _ h := by simp at h
  stable _ _ _ := rfl

end Munch

variable {cs : List Char}

-- A number part by part: digits, a fraction, an exponent and a word that does not belong there.
def numberParts : List Char → List Char × List Char :=
  both (span isDigit) <|
    both (option (· == '.') (span isDigit)) <|
      both (option (fun c => c == 'e' || c == 'E')
        (both (option (fun c => c == '+' || c == '-') fun cs => ([], cs)) (span isDigit))) <|
        option isNameStart (span isNameChar)

theorem fractionPart_eq : fractionPart cs = option (· == '.') (span isDigit) cs := by
  cases cs
  case nil => rfl
  case cons c cs =>
    by_cases hc : c = '.'
    case pos => simp [fractionPart, option, span, hc]
    case neg => simp [fractionPart, option, hc]

theorem exponentPart_eq :
    exponentPart cs = option (fun c => c == 'e' || c == 'E')
      (both (option (fun c => c == '+' || c == '-') fun cs => ([], cs)) (span isDigit)) cs := by
  cases cs
  case nil => rfl
  case cons c cs =>
    simp only [exponentPart, option, both]
    split
    case isFalse => rfl
    case isTrue =>
      cases cs
      case nil => rfl
      case cons d ds =>
        by_cases hp : d = '+'
        case pos => simp [hp, span]
        by_cases hm : d = '-'
        case pos => simp [hm, span]
        simp [hp, hm, span]

theorem wordPart_eq : wordPart cs = (option isNameStart (span isNameChar) cs).1 := by
  cases cs
  case nil => rfl
  case cons c cs =>
    simp only [wordPart, option]
    split <;> rfl

theorem numberExtent_eq : numberExtent cs = (numberParts cs).1 := by
  simp [numberExtent, numberParts, both, fractionPart_eq, exponentPart_eq, wordPart_eq, span]

theorem munch_numberParts : Munch numberParts := by
  have hd : Munch (span isDigit) := .span (by simp +contextual [isPlain, isNameChar])
  refine .both hd <| .both (.option ?_ hd) <|
    .both (.option ?_ (.both (.option ?_ .nothing) hd)) (.option ?_ (.span ?_))
  · simp +contextual [isPlain]
  · intro c hc
    have hc : c = 'e' ∨ c = 'E' := by simpa using hc
    rcases hc with rfl | rfl <;> decide
  · intro c hc
    have hc : c = '+' ∨ c = '-' := by simpa using hc
    rcases hc with rfl | rfl <;> decide
  · simp +contextual [isPlain, isNameChar]
  · simp +contextual [isPlain]

end Stencil.Token
