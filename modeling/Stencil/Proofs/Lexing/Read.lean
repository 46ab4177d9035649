import Stencil.Proofs.Lexing.Extent

namespace Stencil.Token

-- What stands after the opening mark of a string literal, up to its closing mark.
inductive Quoted (quote : Char) : List Char → Prop
  | close : Quoted quote [quote]
  | escape {c cs} : Quoted quote cs → Quoted quote ('\\' :: c :: cs)
  | char {c cs} : c ≠ quote → c ≠ '\\' → Quoted quote cs → Quoted quote (c :: cs)

variable {quote c : Char} {start offset n : Nat} {cs as bs text digits : List Char}

theorem hexDigit?_of_mem {m v : Nat}
    (h : digits.foldlM (fun n c => (hexDigit? c).map (16 * n + ·)) m = some v) :
    ∀ d ∈ digits, (hexDigit? d).isSome := by
  induction digits generalizing m
  case nil => simp
  case cons d digits hi =>
    simp only [List.foldlM_cons, bind, Option.bind_eq_some_iff, Option.map_eq_some_iff] at h
    have ⟨_, ⟨_, hd, _⟩, h⟩ := h
    intro d' hm
    cases hm
    case head => simp [hd]
    case tail hm => exact hi h d' hm

-- Hexadecimal digits neither end a string nor start another escape.
theorem ne_of_codePoint (hq : quote = '"' ∨ quote = '\'') (h : codePoint digits = .ok c) :
    ∀ d ∈ digits, d ≠ quote ∧ d ≠ '\\' := by
  unfold codePoint at h
  split at h
  case h_1 => cases h
  case h_2 v hv =>
    intro d hd
    have hd := hexDigit?_of_mem hv d hd
    have hn : hexDigit? '"' = none ∧ hexDigit? '\'' = none ∧ hexDigit? '\\' = none := by decide
    constructor
    · rintro rfl
      rcases hq with rfl | rfl <;> simp [hn] at hd
    · rintro rfl
      simp [hn] at hd

theorem stringRest_escape (hx : c ≠ 'x') (hu : c ≠ 'u') :
    stringRest quote start ('\\' :: c :: cs) offset =
      stringRest.extend (escaped c) 2 (stringRest quote start cs (offset + 1 + c.utf8Size)) := by
  rw [stringRest] <;> simp [hx, hu]

theorem stringRest_char (hc : c ≠ '\\') :
    stringRest quote start (c :: cs) offset =
      if c == quote then .ok ([], 1)
      else stringRest.extend [c] 1 (stringRest quote start cs (offset + c.utf8Size)) := by
  rw [stringRest] <;> simp [hc]

-- A string literal ends at the same place whatever follows it.
structure Literal (quote : Char) (cs text : List Char) (n : Nat) (as bs : List Char) : Prop where
  eq : cs = as ++ bs
  length_eq : n = as.length
  quoted : Quoted quote as
  stable : ∀ start offset bs, stringRest quote start (as ++ bs) offset = .ok (text, as.length)

-- A piece of a string literal before one that has been read: `word` spells `more`.
theorem Literal.extend {r : Except ExprError (List Char × Nat)} {more : List Char}
    (word : List Char) (h : stringRest.extend more word.length r = .ok (text, n))
    (hi : ∀ {text n}, r = .ok (text, n) → ∃ as bs, Literal quote cs text n as bs)
    (hq : ∀ {as}, Quoted quote as → Quoted quote (word ++ as))
    (hs : ∀ start offset cs, ∃ offset', stringRest quote start (word ++ cs) offset =
      stringRest.extend more word.length (stringRest quote start cs offset')) :
    ∃ as bs, Literal quote (word ++ cs) text n as bs := by
  cases r
  case error => cases h
  case ok r =>
    cases h
    have ⟨as, bs, hl⟩ := hi rfl
    refine ⟨word ++ as, bs, by simp [hl.eq], by simp [hl.length_eq], hq hl.quoted, ?_⟩
    intro start offset bs
    have ⟨_, hs⟩ := hs start offset (as ++ bs)
    simp [hs, hl.stable, stringRest.extend]

theorem Quoted.append (hq : Quoted quote as) (hd : ∀ d ∈ digits, d ≠ quote ∧ d ≠ '\\') :
    Quoted quote (digits ++ as) := by
  induction digits
  case nil => exact hq
  case cons d digits hi =>
    have hn := hd d (.head _)
    exact .char hn.1 hn.2 (hi fun d hm => hd d (.tail _ hm))

theorem ne_of_backslash (hn : c = '\\' → cs = [] → False)
    (he : ∀ d ds, c = '\\' → cs = d :: ds → False) : c ≠ '\\' := by
  intro hc
  cases cs
  case nil => exact hn hc rfl
  case cons d ds => exact he d ds hc rfl

theorem stringRest_spec (hq : quote = '"' ∨ quote = '\'')
    (h : stringRest quote start cs offset = .ok (text, n)) :
    ∃ as bs, Literal quote cs text n as bs := by
  fun_induction stringRest quote start cs offset generalizing text n
  case case4 a b cs offset c hc hi =>
    exact Literal.extend ['\\', 'x', a, b] h hi
      (fun hl => .escape (hl.append (ne_of_codePoint hq hc)))
      fun _ offset _ => ⟨offset + 4, by simp [stringRest, hc]⟩
  case case7 a b a' b' cs offset c hc hi =>
    exact Literal.extend ['\\', 'u', a, b, a', b'] h hi
      (fun hl => .escape (hl.append (ne_of_codePoint hq hc)))
      fun _ offset _ => ⟨offset + 6, by simp [stringRest, hc]⟩
  case case9 c cs offset _ hx _ hu hi =>
    exact Literal.extend ['\\', c] h hi .escape fun _ _ _ => ⟨_, stringRest_escape hx hu⟩
  case case10 c cs offset hn _ _ _ _ he hc =>
    have hb : c ≠ '\\' := ne_of_backslash hn he
    cases h
    refine ⟨[c], cs, rfl, rfl, ?_, fun _ _ _ => (stringRest_char hb).trans (if_pos hc)⟩
    have hc : c = quote := by simpa using hc
    exact hc ▸ .close
  case case11 c cs offset hn _ _ _ _ he hc hi =>
    have hc : c ≠ quote := by simpa using hc
    have hb : c ≠ '\\' := ne_of_backslash hn he
    exact Literal.extend [c] h hi (.char hc hb) fun _ offset _ =>
      ⟨offset + c.utf8Size, (stringRest_char hb).trans (if_neg (by simpa using hc))⟩
  all_goals cases h

-- The characters that spell a token.
inductive Spells : Kind → List Char → Prop
  | number {x cs} : (∀ c ∈ cs, isPlain c = true) → Spells (.number x) cs
  | name {x cs} : (∀ c ∈ cs, isPlain c = true) → Spells (.name x) cs
  | string {s quote cs} :
    quote = '"' ∨ quote = '\'' → Quoted quote cs → Spells (.string s) (quote :: cs)
  | punct {p} : Spells (.punct p) p.text.toList

theorem Follows.ne_equals {x : Char} {bs' : List Char} (h : Follows bs (x :: bs'))
    (hb : ∀ tail, bs = '=' :: tail → False) : x ≠ '=' := by
  rintro rfl
  cases h '=' rfl
  case inl h => exact absurd h (by decide)
  case inr h =>
    cases bs <;> cases h
    exact hb _ rfl

theorem read?_spec {p : Punct} (h : Punct.read? cs = some p) :
    ∃ bs, cs = p.text.toList ++ bs ∧
      ∀ bs', Follows bs bs' → Punct.read? (p.text.toList ++ bs') = some p := by
  unfold Punct.read? at h
  split at h <;> cases h
  all_goals try exact ⟨_, rfl, fun _ _ => rfl⟩
  -- The others could go on with an equals sign, but none follows.
  all_goals
    refine ⟨_, rfl, fun bs' hf => ?_⟩
    cases bs'
    case nil => rfl
    case cons x bs' =>
      have hx := hf.ne_equals (by assumption)
      simp [Punct.text, Punct.read?, hx]

theorem startsNumber_of_follows {cs' : List Char} (h : startsNumber c cs = false)
    (hf : Follows cs cs') : startsNumber c cs' = false := by
  simp only [startsNumber, Bool.or_eq_false_iff, Bool.and_eq_false_iff] at h ⊢
  refine ⟨h.1, h.2.imp_right fun hd => ?_⟩
  have hp : ∀ c, isDigit c = true → isPlain c = true := by simp +contextual [isPlain, isNameChar]
  have hd : ∀ d ∈ cs.head?, isDigit d = false := by
    intro d hm
    simpa [Option.mem_def.mp hm] using hd
  cases hh : cs'.head?
  case none => rfl
  case some d => simpa using hf.head hp hd d hh

-- A token is made of its own characters, and is the same before any text that may follow it.
structure Extent (c : Char) (k : Kind) (as bs : List Char) : Prop where
  spells : Spells k (c :: as)
  stable : ∀ offset bs', Follows bs bs' → read offset c (as ++ bs') = .ok (k, as.length)

theorem extent_number {d : Decimal} (hs : startsNumber c cs = true)
    (hd : Decimal.read? (numberExtent (c :: cs)) = some d) :
    ∃ as bs, cs = as ++ bs ∧ (numberExtent (c :: cs)).length - 1 = as.length ∧
      Extent c (.number d.toFloat) as bs := by
  have ha := munch_numberParts.append (c :: cs)
  have hp := munch_numberParts.isPlain (c :: cs)
  have hst := munch_numberParts.stable (c :: cs)
  rw [numberExtent_eq] at hd ⊢
  generalize numberParts (c :: cs) = parts at *
  have ⟨part, bs⟩ := parts
  cases part
  case nil => exact absurd hd (by simp [Decimal.read?])
  case cons c' as =>
    cases ha
    refine ⟨as, bs, rfl, rfl, .number hp, fun offset bs' hf => ?_⟩
    have hs : startsNumber c (as ++ bs') = true := by
      cases as
      case nil =>
        by_cases hc : c = '.'
        case pos =>
          subst hc
          exact absurd hd (by simp [Decimal.read?, isDigit])
        case neg =>
          have hc : isDigit c = true := by simpa [startsNumber, hc] using hs
          simp [startsNumber, hc]
      case cons a as => simpa [startsNumber] using hs
    have hn : numberExtent (c :: (as ++ bs')) = c :: as := by
      have hm : numberParts (c :: (as ++ bs')) = (c :: as, bs') := hst bs' hf
      rw [numberExtent_eq, hm]
    simp [read, hs, hn, hd]

theorem extent_string (hq : c = '"' ∨ c = '\'')
    (h : stringRest c start cs offset = .ok (text, n)) :
    ∃ as bs, cs = as ++ bs ∧ n = as.length ∧ Extent c (.string (.ofList text)) as bs := by
  have ⟨as, bs, hl⟩ := stringRest_spec hq h
  refine ⟨as, bs, hl.eq, hl.length_eq, .string hq hl.quoted, fun offset bs' _ => ?_⟩
  have hs : startsNumber c (as ++ bs') = false := by
    rcases hq with rfl | rfl <;> rfl
  have hq : (c == '"' || c == '\'') = true := by simpa using hq
  simp only [read, hs, hq, hl.stable]
  rfl

theorem isDigit_of_isNameStart (h : isNameStart c = true) : isDigit c = false := by
  simp only [isNameStart, isLetter, Bool.or_eq_true, Bool.and_eq_true, decide_eq_true_eq,
    beq_iff_eq] at h
  have hl : 'A' ≤ c → isDigit c = false := by
    intro h
    have hc : ¬c ≤ '9' := fun hc => absurd (Nat.le_trans h hc) (by decide)
    simp [isDigit, hc]
  rcases h with ((⟨h, _⟩ | ⟨h, _⟩) | rfl) | rfl
  · exact hl (Nat.le_trans (by decide) h)
  · exact hl h
  · rfl
  · rfl

theorem extent_name (hn : isNameStart c = true) :
    ∃ as bs, cs = as ++ bs ∧ (cs.takeWhile isNameChar).length = as.length ∧
      Extent c (.name (.ofList (c :: cs.takeWhile isNameChar))) as bs := by
  have hm : Munch (span isNameChar) := .span (by simp +contextual [isPlain])
  have hp : isPlain c = true := by simp [isPlain, isNameChar, hn]
  have ha := hm.append cs
  refine ⟨_, _, ha.symm, rfl, .name ?_, fun offset bs' hf => ?_⟩
  · intro d hd
    cases hd
    case head => exact hp
    case tail hd => exact hm.isPlain cs d hd
  · have hd : isDigit c = false := isDigit_of_isNameStart hn
    have hc : ∀ d, isNameStart d = false → c ≠ d := by
      rintro d hd rfl
      simp [hn] at hd
    have hs : ∀ cs, startsNumber c cs = false := by simp [startsNumber, hd, hc '.' (by decide)]
    have hq : (c == '"' || c == '\'') = false := by
      simp [hc '"' (by decide), hc '\'' (by decide)]
    have ht : (cs.takeWhile isNameChar ++ bs').takeWhile isNameChar = cs.takeWhile isNameChar :=
      congrArg Prod.fst (hm.stable cs bs' hf)
    simp [read, hs, hq, hn, ht, span]

theorem extent_punct {p : Punct} (hs : startsNumber c cs = false)
    (hq : (c == '"' || c == '\'') = false) (hn : isNameStart c = false)
    (h : Punct.read? (c :: cs) = some p) :
    ∃ as bs, cs = as ++ bs ∧ p.text.length - 1 = as.length ∧ Extent c (.punct p) as bs := by
  have ⟨bs, hb, hst⟩ := read?_spec h
  have hl : p.text.length = p.text.toList.length := String.length_toList.symm
  have hw := Spells.punct (p := p)
  have hne : p.text.toList ≠ [] := by cases p <;> decide
  generalize p.text.toList = word at *
  cases word
  case nil => exact absurd rfl hne
  case cons c' as =>
    cases hb
    refine ⟨as, bs, rfl, by simp [hl], hw, fun offset bs' hf => ?_⟩
    have hs := startsNumber_of_follows hs hf.append
    have hr : Punct.read? (c :: (as ++ bs')) = some p := hst bs' hf
    simp [read, hs, hq, hn, hr, hl]

theorem read_spec {k : Kind} (h : read offset c cs = .ok (k, n)) :
    ∃ as bs, cs = as ++ bs ∧ n = as.length ∧ Extent c k as bs := by
  unfold read at h
  split at h
  case isTrue hs =>
    simp only at h
    split at h <;> cases h
    case h_1 hd => exact extent_number hs hd
  case isFalse hs =>
    split at h
    case isTrue hq =>
      split at h <;> cases h
      case h_1 h => exact extent_string (by simpa using hq) h
    case isFalse hq =>
      split at h
      case isTrue hn =>
        cases h
        exact extent_name hn
      case isFalse hn =>
        split at h <;> cases h
        case h_1 h =>
          simp only [Bool.not_eq_true] at hs hq hn
          exact extent_punct hs hq hn h

end Stencil.Token
