import Stencil.Proofs.Lexing.Scan
import Stencil.Source.Literal

-- The tokens of a text that is put together piece by piece.
namespace Stencil.Token

variable {c : Char} {k : Kind} {as bs cs : List Char} {ks : List Kind}

-- The tokens of a text, if it is made of tokens.
def kinds (cs : List Char) : Option (List Kind) :=
  (scan cs).toOption.map (·.map Token.kind)

theorem kinds_eq_some_iff : kinds cs = some ks ↔ Lexed cs ks := by
  rw [←scan_eq_ok_iff, kinds]
  cases scan cs <;> simp [Except.toOption]

theorem kinds_blank (hc : isBlank c = true) : kinds (c :: cs) = kinds cs := by
  ext ks
  rw [kinds_eq_some_iff, kinds_eq_some_iff]
  constructor
  case mpr => exact .blank hc
  case mp =>
    intro h
    cases h
    case blank h => exact h
    case token hb _ => simp [hc] at hb

theorem kinds_token (hc : isBlank c = false) (hr : read 0 c (as ++ bs) = .ok (k, as.length)) :
    kinds (c :: (as ++ bs)) = (kinds bs).map (k :: ·) := by
  have ⟨_, _, ha, hl, he⟩ := read_spec hr
  have ⟨rfl, rfl⟩ := List.append_inj ha hl
  ext ks
  rw [kinds_eq_some_iff, Option.map_eq_some_iff]
  simp only [kinds_eq_some_iff]
  constructor
  case mpr =>
    rintro ⟨ks, h, rfl⟩
    exact .token hc he h
  case mp =>
    intro h
    generalize hcs : c :: (as ++ bs) = cs at h
    cases h
    case nil => cases hcs
    case blank hb _ =>
      cases hcs
      simp [hb] at hc
    case token k' as' bs' ks _ he' h =>
      injection hcs with hc' hab
      subst hc'
      -- Both readings are of the same text, so they found the same token.
      have hr' := he'.stable 0 bs' (.refl bs')
      rw [←hab, hr] at hr'
      injection hr' with hr'
      have ⟨hk, hn⟩ := Prod.mk.inj hr'
      have ⟨_, hb⟩ := List.append_inj hab hn
      exact ⟨ks, hb ▸ h, hk ▸ rfl⟩

theorem kinds_error {e : ExprError} (hc : isBlank c = false) (hr : read 0 c cs = .error e) :
    kinds (c :: cs) = none := by
  rw [Option.eq_none_iff_forall_not_mem]
  intro ks h
  have h := kinds_eq_some_iff.mp h
  generalize hcs : c :: cs = cs' at h
  cases h
  case nil => cases hcs
  case blank hb _ =>
    cases hcs
    simp [hb] at hc
  case token bs _ _ he _ =>
    cases hcs
    have hr' := he.stable 0 bs (.refl bs)
    rw [hr] at hr'
    cases hr'

-- The tokens of one text and then those of another one, if both are made of tokens.
def joined : Option (List Kind) → Option (List Kind) → Option (List Kind)
  | some ks, some ks' => some (ks ++ ks')
  | _, _ => none

@[simp]
theorem joined_some (ks ks' : List Kind) : joined (some ks) (some ks') = some (ks ++ ks') :=
  rfl

@[simp]
theorem none_joined (r : Option (List Kind)) : joined none r = none :=
  rfl

@[simp]
theorem joined_none (r : Option (List Kind)) : joined r none = none := by
  cases r <;> rfl

@[simp]
theorem nil_joined (r : Option (List Kind)) : joined (some []) r = r := by
  cases r <;> rfl

theorem joined_assoc (r r' r'' : Option (List Kind)) :
    joined (joined r r') r'' = joined r (joined r' r'') := by
  cases r <;> cases r' <;> cases r'' <;> simp

-- Before `bs`, the text `cs` is made of the tokens `r`, or of none.
def Lexes (cs : List Char) (r : Option (List Kind)) (bs : List Char) : Prop :=
  kinds (cs ++ bs) = joined r (kinds bs)

namespace Lexes

variable {r r' : Option (List Kind)}

theorem append (h : Lexes as r (cs ++ bs)) (h' : Lexes cs r' bs) :
    Lexes (as ++ cs) (joined r r') bs := by
  rw [Lexes, List.append_assoc, h, h', joined_assoc]

theorem blank : Lexes " ".toList (some []) bs := by
  rw [Lexes, nil_joined]
  exact kinds_blank rfl

theorem token (hc : isBlank c = false) (hr : read 0 c (as ++ bs) = .ok (k, as.length)) :
    Lexes (c :: as) (some [k]) bs := by
  rw [Lexes, List.cons_append, kinds_token hc hr]
  cases kinds bs <;> rfl

end Lexes

-- A text that does not go on with a character of a kind.
def Ends (p : Char → Bool) (bs : List Char) : Prop :=
  bs.head?.any p = false

theorem Ends.span_append {p : Char → Bool} (hb : Ends p bs) (hc : cs.all p = true) :
    span p (cs ++ bs) = (cs, bs) := by
  have hc := List.all_eq_true.mp hc
  have hn : bs.takeWhile p = [] ∧ bs.dropWhile p = bs := by
    cases bs
    case nil => simp
    case cons c bs =>
      have hb : p c = false := hb
      simp [hb]
  rw [span, List.takeWhile_append_of_pos hc, List.dropWhile_append_of_pos hc, hn.1, hn.2,
    List.append_nil]

theorem starts_punct (p : Punct) (h : p.text.toList = c :: as) (hd : p = .dot → Ends isDigit bs) :
    isBlank c = false ∧ startsNumber c (as ++ bs) = false ∧ (c == '"' || c == '\'') = false ∧
      isNameStart c = false := by
  cases p <;> cases h
  case dot => exact ⟨rfl, hd rfl, rfl, rfl⟩
  all_goals exact ⟨rfl, rfl, rfl, rfl⟩

-- A punctuator that what follows does not make longer.
theorem lexes_punct {p : Punct} (hp : Punct.read? (p.text.toList ++ bs) = some p)
    (hd : p = .dot → Ends isDigit bs) : Lexes p.text.toList (some [.punct p]) bs := by
  have hl : p.text.length = p.text.toList.length := String.length_toList.symm
  cases h : p.text.toList
  case nil => cases p <;> cases h
  case cons c as =>
    have ⟨hc, hs, hq, hn⟩ := starts_punct p h hd
    rw [h] at hp hl
    have hr : Punct.read? (c :: (as ++ bs)) = some p := hp
    exact .token hc (by simp [read, hs, hq, hn, hr, hl])

theorem lexes_name {x : String} (hx : isName x.toList = true) (hb : Ends isNameChar bs) :
    Lexes x.toList (some [.name x]) bs := by
  cases h : x.toList
  case nil => simp [h, isName] at hx
  case cons c cs =>
    rw [h] at hx
    have ⟨hc, hcs⟩ := Bool.and_eq_true_iff.mp hx
    have ht : (cs ++ bs).takeWhile isNameChar = cs := congrArg Prod.fst (hb.span_append hcs)
    have ⟨as, bs', ha, hl, he⟩ := @extent_name c (cs ++ bs) hc
    have hr := he.stable 0 bs' (.refl bs')
    rw [←ha, ←hl, ht, ←h, String.ofList_toList] at hr
    exact .token (isBlank_of_isPlain (by simp [isPlain, isNameChar, hc])) hr

theorem hexValue?_hexPlaces : ∀ n < 0x20, hexValue? (Json.hexPlaces n) = some n := by
  decide

theorem codePoint_eq_ok {digits : List Char} (h : hexValue? digits = some c.toNat) :
    codePoint digits = .ok c := by
  have hv : c.toNat.isValidChar := c.valid
  simp [codePoint, h, hv]

-- A character as it is written in a literal is read as that character.
theorem stringRest_sourceEscape (c : Char) (start offset : Nat) (cs : List Char) :
    ∃ offset', stringRest '"' start (Source.escape c ++ cs) offset =
      stringRest.extend [c] (Source.escape c).length (stringRest '"' start cs offset') := by
  have hu {a b a' b' : Char} (h : hexValue? [a, b, a', b'] = some c.toNat) :
      stringRest '"' start ('\\' :: 'u' :: a :: b :: a' :: b' :: cs) offset =
        stringRest.extend [c] 6 (stringRest '"' start cs (offset + 6)) := by
    simp [stringRest, codePoint_eq_ok h]
  unfold Source.escape
  split
  case isTrue hc => exact ⟨_, hu (.trans (by decide) (congrArg some (beq_iff_eq.mp hc).symm))⟩
  split
  case isTrue hc => exact ⟨_, hu (.trans (by decide) (congrArg some (beq_iff_eq.mp hc).symm))⟩
  unfold Json.escape
  split
  case h_8 =>
    split
    case isTrue hc => exact ⟨_, hu (hexValue?_hexPlaces _ hc)⟩
    case isFalse => exact ⟨_, (stringRest_char (by assumption)).trans (if_neg (by simpa))⟩
  all_goals exact ⟨_, stringRest_escape (by decide) (by decide)⟩

theorem stringRest_literal (start offset : Nat) (s bs : List Char) :
    stringRest '"' start (s.flatMap Source.escape ++ '"' :: bs) offset =
      .ok (s, (s.flatMap Source.escape).length + 1) := by
  induction s generalizing offset
  case nil => rfl
  case cons c s hi =>
    have ⟨_, h⟩ := stringRest_sourceEscape c start offset (s.flatMap Source.escape ++ '"' :: bs)
    rw [List.flatMap_cons, List.append_assoc, h, hi]
    simp [stringRest.extend, Nat.add_assoc]

theorem lexes_literal (s : String) : Lexes (Source.literal s).toList (some [.string s]) bs := by
  rw [Source.literal, String.toList_ofList]
  refine .token rfl ?_
  have hr := stringRest_literal 0 1 s.toList bs
  have hs (cs : List Char) : startsNumber '"' cs = false := rfl
  simp [read, hs, hr]

end Stencil.Token
