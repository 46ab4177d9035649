import Stencil.Proofs.Lexing.Spacing
import Stencil.Proofs.Offsets.Cursor

-- Tokens are the same whether they are read by offsets or by characters.
namespace Stencil
namespace Token

variable {c d k : Char} {ds : List Char}

theorem codePoint_eq_error (hm : d ∈ ds) (hd : hexDigit? d = none) :
    codePoint ds = .error .hexDigit := by
  unfold codePoint
  cases hv : hexValue? ds
  case none => rfl
  case some =>
    have hs := hexDigit?_of_mem hv d hm
    rw [hd] at hs
    cases hs

theorem utf8Size_of_hexDigit? (h : (hexDigit? d).isSome) : d.utf8Size = 1 := by
  have hd : d ≤ '9' ∨ d ≤ 'f' ∨ d ≤ 'F' := by
    unfold hexDigit? at h
    split at h
    case isTrue hd => exact .inl (by simpa using (Bool.and_eq_true_iff.mp hd).2)
    case isFalse =>
      split at h
      case isTrue hd => exact .inr (.inl (by simpa using (Bool.and_eq_true_iff.mp hd).2))
      case isFalse =>
        split at h
        case isTrue hd => exact .inr (.inr (by simpa using (Bool.and_eq_true_iff.mp hd).2))
        case isFalse => cases h
  refine Char.utf8Size_eq_one_iff.mpr ?_
  rcases hd with hd | hd | hd <;> exact UInt32.le_trans hd (by decide)

-- So many digits are so many bytes.
theorem byteWidth_of_codePoint (h : codePoint ds = .ok c) : byteWidth ds = ds.length := by
  have hd : ∀ d ∈ ds, d.utf8Size = 1 := by
    intro d hm
    refine utf8Size_of_hexDigit? (Option.isSome_iff_ne_none.mpr fun hn => ?_)
    cases h.symm.trans (codePoint_eq_error hm hn)
  clear h
  induction ds
  case nil => rfl
  case cons d ds hi =>
    have ⟨hd, hs⟩ := List.forall_mem_cons.mp hd
    rw [byteWidth, hd, hi hs, List.length_cons, Nat.add_comm]

theorem byteWidth_escape (hk : k.utf8Size = 1) (h : codePoint ds = .ok c) :
    byteWidth ('\\' :: k :: ds) = ds.length + 2 := by
  have hb : '\\'.utf8Size = 1 := rfl
  rw [byteWidth, byteWidth, byteWidth_of_codePoint h, hb, hk]
  omega

end Token

namespace Cursor

open Token

variable {α β : Type} {source before after mid cs : List Char} {c : Char}

-- What a reader does with the text `cs` that is left: it reads some of its characters, or fails.
inductive Answers (x : Cursor α) (before cs : List Char) : Except ExprError (α × Nat) → Prop
  | ok {a n} : Goes x before a (before ++ cs.take n) → Answers x before cs (.ok (a, n))
  | error {e} : Fails x before e → Answers x before cs (.error e)

theorem Goes.answers {x : Cursor α} {f : α → Cursor β} {a : α} {r : Except ExprError (β × Nat)}
    (hx : Goes x before a before) (hf : Answers (f a) before cs r) :
    Answers (x >>= f) before cs r := by
  cases hf
  case ok hf => exact .ok (hx.bind hf)
  case error hf => exact .error (hx.bind_fails hf)

-- The digits of an escape are read one by one, and looked at together once all of them are there.
theorem hexDigits_cases (h : source = before ++ cs) (offset n : Nat) :
    (n ≤ cs.length ∧ Goes (hexDigits source offset n) before () (before ++ cs.take n)) ∨
      ((cs.length < n ∨ ∃ d ∈ cs.take n, hexDigit? d = none) ∧
        Fails (hexDigits source offset n) before (.ofFault .hexDigit offset)) := by
  induction n generalizing before cs
  case zero =>
    refine .inl ⟨Nat.zero_le _, ?_⟩
    rw [List.take_zero, List.append_nil]
    exact Goes.pure
  case succ n hi =>
    cases cs
    case nil => exact .inr ⟨.inl (Nat.zero_lt_succ n), (goes_peek h).bind_fails .throw⟩
    case cons c cs =>
      cases hc : hexDigit? c
      case none =>
        refine .inr ⟨.inr ⟨c, .head _, hc⟩, (goes_peek h).bind_fails ?_⟩
        simp only [List.head?_cons, hc]
        exact Fails.throw
      case some =>
        have hs : source = before ++ [c] ++ cs := by simp [h]
        rcases hi hs with ⟨hl, hg⟩ | ⟨hl, hf⟩
        case inl =>
          refine .inl ⟨Nat.succ_le_succ hl, (goes_peek h).bind ?_⟩
          simp only [List.head?_cons, hc]
          rw [List.append_assoc] at hg
          exact (goes_move_char h).bind hg
        case inr =>
          refine .inr ⟨hl.imp Nat.succ_lt_succ ?_, (goes_peek h).bind_fails ?_⟩
          case refine_1 => exact fun ⟨d, hm, hd⟩ => ⟨d, .tail _ hm, hd⟩
          case refine_2 =>
            simp only [List.head?_cons, hc]
            exact (goes_move_char h).bind_fails hf

section

variable {offset : Nat} {ds : List Char}

theorem goes_hexEscape (h : source = before ++ (ds ++ cs)) (hd : codePoint ds = .ok c) :
    Goes (hexEscape source offset ds.length) before [c] (before ++ ds) := by
  rcases hexDigits_cases h offset ds.length with ⟨_, hg⟩ | ⟨hl, _⟩
  case inl =>
    rw [List.take_left] at hg
    refine (goes_cut h hg).bind ?_
    simp only [hd]
    exact Goes.pure
  case inr =>
    rw [List.take_left, List.length_append] at hl
    rcases hl with hl | ⟨d, hm, hn⟩
    case inl => omega
    case inr => cases hd.symm.trans (codePoint_eq_error hm hn)

theorem fails_hexEscape {fault : ExprFault} (h : source = before ++ (ds ++ cs))
    (hd : codePoint ds = .error fault) :
    Fails (hexEscape source offset ds.length) before (.ofFault fault offset) := by
  rcases hexDigits_cases h offset ds.length with ⟨_, hg⟩ | ⟨hl, hf⟩
  case inl =>
    rw [List.take_left] at hg
    refine (goes_cut h hg).bind_fails ?_
    simp only [hd]
    exact Fails.throw
  case inr =>
    rw [List.take_left, List.length_append] at hl
    rcases hl with hl | ⟨d, hm, hn⟩
    case inl => omega
    case inr =>
      cases hd.symm.trans (codePoint_eq_error hm hn)
      exact (Goes.get.bind_fails hf.bind).bind

theorem fails_hexEscape_short {n : Nat} (h : source = before ++ cs) (hl : cs.length < n) :
    Fails (hexEscape source offset n) before (.ofFault .hexDigit offset) := by
  rcases hexDigits_cases h offset n with ⟨hn, _⟩ | ⟨_, hf⟩
  case inl => exact absurd hl (Nat.not_lt.mpr hn)
  case inr => exact (Goes.get.bind_fails hf.bind).bind

end

section

variable {quote k : Char} {start n : Nat} {text : List Char} {e : ExprError}

theorem goes_piece_escape (hq : '\\' ≠ quote) (h : source = before ++ '\\' :: cs)
    (he : Goes (escape source start) (before ++ ['\\']) text after) :
    Goes (piece? source quote start) before (some text) after := by
  refine (goes_next h).bind ?_
  simp only [hq]
  exact he.bind .pure

theorem fails_piece_escape (hq : '\\' ≠ quote) (h : source = before ++ '\\' :: cs)
    (he : Fails (escape source start) (before ++ ['\\']) e) :
    Fails (piece? source quote start) before e := by
  refine (goes_next h).bind_fails ?_
  simp only [hq]
  exact he.bind

theorem byteWidth_backslash : byteWidth (before ++ ['\\']) = byteWidth before + 1 :=
  byteWidth_append ..

theorem goes_piece_hex (hq : '\\' ≠ quote) (hk : hexWidth? k = some n)
    (h : source = before ++ '\\' :: k :: cs)
    (he : Goes (hexEscape source (byteWidth before + 1) n) (before ++ ['\\'] ++ [k]) text after) :
    Goes (piece? source quote start) before (some text) after := by
  have hs : source = before ++ ['\\'] ++ k :: cs := by simp [h]
  refine goes_piece_escape hq h (Goes.get.bind ((goes_next hs).bind ?_))
  simp only [hk, byteWidth_backslash]
  exact he

theorem fails_piece_hex (hq : '\\' ≠ quote) (hk : hexWidth? k = some n)
    (h : source = before ++ '\\' :: k :: cs)
    (he : Fails (hexEscape source (byteWidth before + 1) n) (before ++ ['\\'] ++ [k]) e) :
    Fails (piece? source quote start) before e := by
  have hs : source = before ++ ['\\'] ++ k :: cs := by simp [h]
  refine fails_piece_escape hq h (Goes.get.bind_fails ((goes_next hs).bind_fails ?_))
  simp only [hk, byteWidth_backslash]
  exact he

theorem goes_piece_plain (hq : '\\' ≠ quote) (hk : hexWidth? k = none)
    (h : source = before ++ '\\' :: k :: cs) :
    Goes (piece? source quote start) before (some (escaped k)) (before ++ ['\\', k]) := by
  have hs : source = before ++ ['\\'] ++ k :: cs := by simp [h]
  have he : Goes (escape source start) (before ++ ['\\']) (escaped k)
      (before ++ ['\\'] ++ [k]) := by
    refine Goes.get.bind ((goes_next hs).bind ?_)
    simp only [hk]
    exact Goes.pure
  rw [List.append_assoc] at he
  exact goes_piece_escape hq h he

theorem goes_piece_char (hq : c ≠ quote) (hb : c ≠ '\\') (h : source = before ++ c :: cs) :
    Goes (piece? source quote start) before (some [c]) (before ++ [c]) := by
  refine (goes_next h).bind ?_
  simp only [hq, hb]
  exact Goes.pure

theorem goes_piece_close (h : source = before ++ quote :: cs) :
    Goes (piece? source quote start) before none (before ++ [quote]) := by
  refine (goes_next h).bind ?_
  simp only
  exact Goes.pure

theorem answers_extend {fuel : Nat} {r : Except ExprError (List Char × Nat)} (word : List Char)
    (hp : Goes (piece? source quote start) before (some text) (before ++ word))
    (hr : Answers (stringBody source quote start fuel) (before ++ word) cs r) :
    Answers (stringBody source quote start (fuel + 1)) before (word ++ cs)
      (stringRest.extend text word.length r) := by
  cases hr
  case error hf => exact .error (hp.bind_fails hf.bind)
  case ok hg =>
    refine .ok ?_
    rw [List.take_length_add_append, ←List.append_assoc]
    exact hp.bind (hg.bind .pure)

-- The induction follows the text as it is read by characters, and there is one round for each of
-- its pieces.
theorem answers_stringBody {fuel : Nat} (hq : '\\' ≠ quote) (h : source = before ++ cs)
    (hf : cs.length < fuel) :
    Answers (stringBody source quote start fuel) before cs
      (stringRest quote start cs (byteWidth before)) := by
  generalize ho : byteWidth before = offset
  fun_induction stringRest quote start cs offset generalizing before fuel
  all_goals
    obtain ⟨fuel, rfl⟩ : ∃ k, fuel = k + 1 := ⟨fuel - 1, by omega⟩
    subst ho
  case case1 =>
    rw [List.append_nil] at h
    exact .error ((goes_next_end h).bind_fails .throw).bind
  case case2 =>
    have he : Fails (escape source start) (before ++ ['\\']) (.ofFault .unclosedString start) :=
      Goes.get.bind_fails ((goes_next_end h).bind_fails .throw)
    exact .error (fails_piece_escape hq h he).bind
  case case3 a b cs fault hc =>
    have hs : source = before ++ ['\\'] ++ ['x'] ++ ([a, b] ++ cs) := by simp [h]
    exact .error (fails_piece_hex hq rfl h (fails_hexEscape hs hc)).bind
  case case4 a b cs c hc hi =>
    have hs : source = before ++ ['\\'] ++ ['x'] ++ ([a, b] ++ cs) := by simp [h]
    have hw : byteWidth (before ++ '\\' :: 'x' :: [a, b]) = byteWidth before + 4 := by
      rw [byteWidth_append, byteWidth_escape rfl hc]
      rfl
    have hp : Goes (piece? source quote start) before (some [c]) _ :=
      goes_piece_hex hq rfl h (goes_hexEscape hs hc)
    rw [List.append_assoc, List.append_assoc] at hp
    simp only [List.length_cons] at hf
    exact answers_extend ('\\' :: 'x' :: [a, b]) hp (hi (by simp [h]) (by omega) hw)
  case case5 cs hn =>
    have hs : source = before ++ ['\\'] ++ ['x'] ++ cs := by simp [h]
    have hl : cs.length < 2 := by
      rcases cs with _ | ⟨a, _ | ⟨b, cs⟩⟩
      case cons.cons => exact (hn a b cs rfl).elim
      all_goals simp
    exact .error (fails_piece_hex hq rfl h (fails_hexEscape_short hs hl)).bind
  case case6 a b a' b' cs fault hc =>
    have hs : source = before ++ ['\\'] ++ ['u'] ++ ([a, b, a', b'] ++ cs) := by simp [h]
    exact .error (fails_piece_hex hq rfl h (fails_hexEscape hs hc)).bind
  case case7 a b a' b' cs c hc hi =>
    have hs : source = before ++ ['\\'] ++ ['u'] ++ ([a, b, a', b'] ++ cs) := by simp [h]
    have hw : byteWidth (before ++ '\\' :: 'u' :: [a, b, a', b']) = byteWidth before + 6 := by
      rw [byteWidth_append, byteWidth_escape rfl hc]
      rfl
    have hp : Goes (piece? source quote start) before (some [c]) _ :=
      goes_piece_hex hq rfl h (goes_hexEscape hs hc)
    rw [List.append_assoc, List.append_assoc] at hp
    simp only [List.length_cons] at hf
    exact answers_extend ('\\' :: 'u' :: [a, b, a', b']) hp (hi (by simp [h]) (by omega) hw)
  case case8 cs hn =>
    have hs : source = before ++ ['\\'] ++ ['u'] ++ cs := by simp [h]
    have hl : cs.length < 4 := by
      rcases cs with _ | ⟨a, _ | ⟨b, _ | ⟨a', _ | ⟨b', cs⟩⟩⟩⟩
      case cons.cons.cons.cons => exact (hn a b a' b' cs rfl).elim
      all_goals simp
    exact .error (fails_piece_hex hq rfl h (fails_hexEscape_short hs hl)).bind
  case case9 c cs _ hx _ hu hi =>
    have hk : hexWidth? c = none := by
      unfold hexWidth?
      split
      case h_1 => exact (hx rfl).elim
      case h_2 => exact (hu rfl).elim
      case h_3 => rfl
    have hw : byteWidth (before ++ ['\\', c]) = byteWidth before + 1 + c.utf8Size := by
      rw [byteWidth_append, Nat.add_assoc]
      rfl
    simp only [List.length_cons] at hf
    exact answers_extend ['\\', c] (goes_piece_plain hq hk h) (hi (by simp [h]) (by omega) hw)
  case case10 c cs _ _ _ _ _ _ hc =>
    have hc : c = quote := by simpa using hc
    subst hc
    exact .ok ((goes_piece_close h).bind .pure)
  case case11 c cs hn _ _ _ _ he hc hi =>
    have hp : Goes (piece? source quote start) before (some [c]) (before ++ [c]) :=
      goes_piece_char (by simpa using hc) (ne_of_backslash hn he) h
    exact answers_extend [c] hp (hi (by simp [h]) (Nat.lt_of_succ_lt_succ hf) (byteWidth_append ..))

end

-- One of the characters of a token has been looked at before it is read.
def withFirst : Except ExprError (Kind × Nat) → Except ExprError (Kind × Nat)
  | .ok (kind, n) => .ok (kind, n + 1)
  | .error e => .error e

theorem answers_number (h : source = before ++ c :: cs) :
    Answers (number source) before (c :: cs)
      (withFirst (match Decimal.read? (numberExtent (c :: cs)) with
        | some d => .ok (.number d.toFloat, (numberExtent (c :: cs)).length - 1)
        | none =>
          .error (.ofFault (.number (.ofList (numberExtent (c :: cs)))) (byteWidth before)))) := by
  have hg := Walks.number.goes_cut h
  rw [←numberExtent_eq] at hg
  cases hd : Decimal.read? (numberExtent (c :: cs))
  case none =>
    refine .error (Goes.get.bind_fails (hg.bind_fails ?_))
    simp only [hd]
    exact Fails.throw
  case some =>
    have hl : numberExtent (c :: cs) ≠ [] := by
      intro hn
      simp [hn, Decimal.read?] at hd
    have ht : (c :: cs).take (numberExtent (c :: cs)).length = numberExtent (c :: cs) := by
      have ha := munch_numberParts.append (c :: cs)
      rw [numberExtent_eq]
      generalize numberParts (c :: cs) = parts at ha
      rw [←ha, List.take_left]
    refine .ok ?_
    rw [Nat.sub_add_cancel (List.length_pos_iff.mpr hl), ht]
    refine Goes.get.bind (hg.bind ?_)
    simp only [hd]
    exact Goes.pure

theorem answers_string (hq : c = '"' ∨ c = '\'') (h : source = before ++ c :: cs) :
    Answers (string source c) before (c :: cs)
      (withFirst (match stringRest c (byteWidth before) cs (byteWidth before + 1) with
        | .ok (text, n) => .ok (.string (.ofList text), n)
        | .error e => .error e)) := by
  have hw : byteWidth (before ++ [c]) = byteWidth before + 1 := by
    rw [byteWidth_append]
    rcases hq with rfl | rfl <;> rfl
  have hb : '\\' ≠ c := by rcases hq with rfl | rfl <;> decide
  have hs : source = before ++ [c] ++ cs := by simp [h]
  have hl : cs.length < source.length + 1 := by
    simp only [h, List.length_append, List.length_cons]
    omega
  have ha : Answers (stringBody source c (byteWidth before) (source.length + 1)) (before ++ [c]) cs
      (stringRest c (byteWidth before) cs (byteWidth (before ++ [c]))) :=
    answers_stringBody hb hs hl
  rw [hw] at ha
  generalize stringRest c (byteWidth before) cs (byteWidth before + 1) = r at ha
  cases ha
  case error hf => exact .error (Goes.get.bind_fails ((goes_move_char h).bind_fails hf.bind))
  case ok hg =>
    refine .ok (Goes.get.bind ((goes_move_char h).bind ?_))
    rw [List.append_assoc] at hg
    exact hg.bind .pure

theorem answers_name (hc : isNameStart c = true) (h : source = before ++ c :: cs) :
    Answers (name source) before (c :: cs)
      (withFirst (.ok (.name (.ofList (c :: cs.takeWhile isNameChar)),
        (cs.takeWhile isNameChar).length))) := by
  have hw : (c :: cs).takeWhile isNameChar = c :: cs.takeWhile isNameChar := by
    simp [isNameChar, hc]
  have ht : cs.take (cs.takeWhile isNameChar).length = cs.takeWhile isNameChar :=
    (List.prefix_iff_eq_take.mp (List.takeWhile_prefix _)).symm
  have hg : Goes (cut source (skip source isNameChar)) before ((c :: cs).takeWhile isNameChar)
      (before ++ (c :: cs).takeWhile isNameChar) := Walks.skip.goes_cut h
  refine .ok ?_
  rw [List.take_succ_cons, ht]
  rw [hw] at hg
  exact hg.bind .pure

theorem answers_punct (h : source = before ++ c :: cs) :
    Answers (punct source c) before (c :: cs)
      (withFirst (match Punct.read? (c :: cs) with
        | some p => .ok (.punct p, p.text.length - 1)
        | none => .error (.ofFault (.character c) (byteWidth before)))) := by
  cases hp : Punct.read? (c :: cs)
  case none =>
    refine .error ((goes_rest h).bind_fails ?_)
    simp only [hp]
    exact Goes.get.bind_fails .throw
  case some p =>
    have ⟨bs, hb, _⟩ := read?_spec hp
    have hl : 0 < p.text.length := by cases p <;> decide
    have ht : (c :: cs).take p.text.length = p.text.toList := by
      rw [hb, ←String.length_toList, List.take_left]
    refine .ok ((goes_rest h).bind ?_)
    simp only [hp]
    rw [Nat.sub_add_cancel hl, ht]
    exact (goes_move (hb ▸ h)).bind .pure

theorem answers_token (h : source = before ++ c :: cs) :
    Answers (token source c) before (c :: cs) (withFirst (read (byteWidth before) c cs)) := by
  refine (goes_rest h).answers ?_
  rw [List.tail_cons, Token.read]
  split
  case isTrue => exact answers_number h
  case isFalse =>
    split
    case isTrue hq => exact answers_string (by simpa using hq) h
    case isFalse =>
      split
      case isTrue hn => exact answers_name hn h
      case isFalse => exact answers_punct h

theorem exists_gap (cs : List Char) :
    ∃ (gap : Gap) (bs : List Char), cs = gap.1 ++ bs ∧ span isBlank cs = (gap.1, bs) ∧
      ∀ c ∈ bs.head?, isBlank c = false := by
  refine ⟨⟨_, List.all_takeWhile⟩, cs.dropWhile isBlank, List.takeWhile_append_dropWhile.symm, rfl,
    fun c hc => ?_⟩
  have hd := List.head?_dropWhile_not isBlank cs
  have hc : (cs.dropWhile isBlank).head? = some c := hc
  rwa [hc] at hd

-- One round of reading, which skips the blanks up to where `mid` ends.
section

variable {fuel : Nat} {k : Kind} {ms : List Mark} {e : ExprError}

theorem goes_lastRound (hg : Goes (skip source isBlank) before () source) :
    Goes (marksFrom source (fuel + 1)) before [⟨none, byteWidth source⟩] source :=
  hg.bind (Goes.get.bind ((goes_peek (List.append_nil source).symm).bind .pure))

variable (hg : Goes (skip source isBlank) before () mid) (hs : source = mid ++ c :: cs)

include hg hs

theorem goes_round (ht : Goes (token source c) mid k after)
    (hr : Goes (marksFrom source fuel) after ms source) :
    Goes (marksFrom source (fuel + 1)) before (⟨some k, byteWidth mid⟩ :: ms) source :=
  hg.bind (Goes.get.bind ((goes_peek hs).bind (ht.bind (hr.bind .pure))))

theorem fails_round (ht : Fails (token source c) mid e) :
    Fails (marksFrom source (fuel + 1)) before e :=
  hg.bind_fails (Goes.get.bind_fails ((goes_peek hs).bind_fails ht.bind))

theorem fails_laterRound (ht : Goes (token source c) mid k after)
    (hr : Fails (marksFrom source fuel) after e) : Fails (marksFrom source (fuel + 1)) before e :=
  hg.bind_fails (Goes.get.bind_fails ((goes_peek hs).bind_fails (ht.bind_fails hr.bind)))

end

-- What reading the rest of a text to its end comes to, when its tokens are `r`.
inductive Completes (source : List Char) (x : Cursor (List Mark)) (before : List Char) :
    Except ExprError (List Token) → Prop
  | ok {ts} :
    Goes x before (ts.map (fun t => ⟨some t.kind, t.offset⟩) ++ [⟨none, byteWidth source⟩]) source →
    Completes source x before (.ok ts)
  | error {e} : Fails x before e → Completes source x before (.error e)

-- A round reads the token that is next, and the rounds after it read what the token leaves.
theorem completes_round {fuel : Nat} (hc : isBlank c = false)
    (hg : Goes (skip source isBlank) before () mid) (hs : source = mid ++ c :: cs)
    (hr : ∀ {as bs}, cs = as ++ bs → Completes source (marksFrom source fuel) (mid ++ c :: as)
      (scanFrom bs 0 (byteWidth (mid ++ c :: as)))) :
    Completes source (marksFrom source (fuel + 1)) before
      (scanFrom (c :: cs) 0 (byteWidth mid)) := by
  have ht := answers_token hs
  rw [scanFrom, if_neg (by simp [hc])]
  cases hk : read (byteWidth mid) c cs
  case error =>
    rw [hk] at ht
    cases ht
    case error ht => exact .error (fails_round hg hs ht)
  case ok k =>
    obtain ⟨k, n⟩ := k
    obtain ⟨as, bs, ha, hl, _⟩ := read_spec hk
    subst ha hl
    have hw : byteWidth mid + c.utf8Size + byteWidth as = byteWidth (mid ++ c :: as) := by
      rw [byteWidth_append, byteWidth, Nat.add_assoc]
    have hr := hr rfl
    rw [hk] at ht
    cases ht
    case ok ht =>
      rw [List.take_succ_cons, List.take_left] at ht
      simp only [scanFrom_skip, hw]
      generalize scanFrom bs 0 (byteWidth (mid ++ c :: as)) = r at hr
      cases hr
      case error hr => exact .error (fails_laterRound hg hs ht hr)
      case ok hr => exact .ok (goes_round hg hs ht hr)

-- The induction is on the rounds, of which there are enough.
theorem completes_marksFrom {fuel : Nat} (h : source = before ++ cs) (hf : cs.length < fuel) :
    Completes source (marksFrom source fuel) before (scanFrom cs 0 (byteWidth before)) := by
  induction fuel generalizing before cs
  case zero => cases hf
  case succ fuel hi =>
    have ⟨gap, bs, ha, hb, hn⟩ := exists_gap cs
    subst ha
    have hw : Walks source (skip source isBlank) (span isBlank) := .skip
    have hg := hw.goes h
    rw [hb] at hg
    rw [scanFrom_gap, ←byteWidth_append]
    cases bs
    case nil =>
      rw [List.append_nil] at h
      exact .ok (goes_lastRound (h ▸ hg))
    case cons c cs =>
      have hs : source = before ++ gap.1 ++ c :: cs := by simp [h]
      refine completes_round (hn c rfl) hg hs ?_
      rintro as bs rfl
      refine hi (by simp [h]) ?_
      simp only [List.length_append, List.length_cons] at hf
      omega

end Cursor

theorem Token.marks_eq_cursor (cs : List Char) :
    Cursor.marks cs = (Token.marks cs).mapError .error := by
  have h : Cursor.Completes cs (Cursor.marksFrom cs (cs.length + 1)) [] (scanFrom cs 0 0) :=
    Cursor.completes_marksFrom rfl (Nat.lt_succ_self _)
  rw [Cursor.marks, Token.marks, scan]
  generalize scanFrom cs 0 0 = r at h
  cases h
  case ok h => exact congrArg Prod.fst h
  case error h =>
    obtain ⟨_, h⟩ := h
    exact congrArg Prod.fst h

end Stencil
