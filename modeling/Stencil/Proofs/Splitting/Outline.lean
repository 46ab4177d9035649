import Stencil.Proofs.Lexing.Read
import Stencil.Proofs.Splitting.Uncut

-- The brackets of a text, apart from those in its string literals.
namespace Stencil

def isQuote (c : Char) : Bool :=
  c == '\'' || c == '"'

def isOpening (c : Char) : Bool :=
  c == '(' || c == '[' || c == '{'

def isClosing (c : Char) : Bool :=
  c == ')' || c == ']' || c == '}'

-- A text that ends outside of string literals, with the brackets that stand outside of them.
inductive Outline : List Char → List Char → Prop
  | nil : Outline [] []
  | string {quote as cs bs} :
    isQuote quote = true → Token.Quoted quote as → Outline cs bs →
    Outline (quote :: (as ++ cs)) bs
  | opening {c cs bs} : isOpening c = true → Outline cs bs → Outline (c :: cs) (c :: bs)
  | closing {c cs bs} : isClosing c = true → Outline cs bs → Outline (c :: cs) (c :: bs)
  | other {c cs bs} :
    isQuote c = false → isOpening c = false → isClosing c = false → Outline cs bs →
    Outline (c :: cs) bs

-- Brackets each of which is closed, and closed by one that it goes with.
inductive Nested (closes : Char → Char → Bool) : List Char → Prop
  | nil : Nested closes []
  | group {o c as bs} :
    closes o c = true → Nested closes as → Nested closes bs → Nested closes (o :: (as ++ c :: bs))

-- Brackets that close one another if their kinds do not matter, and if they do.
def anyCloses (o c : Char) : Bool :=
  isOpening o && isClosing c

def ownCloses : Char → Char → Bool
  | '(', ')' | '[', ']' | '{', '}' => true
  | _, _ => false

-- Brackets that close all those they open, and as many more as the number says.
def Counted : Nat → List Char → Prop
  | depth, [] => depth = 0
  | depth, b :: bs =>
    if isOpening b then Counted (depth + 1) bs
    else isClosing b = true ∧ ∃ d, depth = d + 1 ∧ Counted d bs

-- Nested brackets, with as many closing ones between them as the number says.
inductive Descends : Nat → List Char → Prop
  | nested {bs} : Nested anyCloses bs → Descends 0 bs
  | close {as c bs d} :
    Nested anyCloses as → isClosing c = true → Descends d bs → Descends (d + 1) (as ++ c :: bs)

variable {closes closes' : Char → Char → Bool} {c o : Char} {d : Nat} {as bs cs : List Char}

theorem Outline.append (h : Outline as bs) {as' bs'} (h' : Outline as' bs') :
    Outline (as ++ as') (bs ++ bs') := by
  induction h
  case nil => exact h'
  case string hq hs _ hi => simpa using string hq hs hi
  case opening hc _ hi => exact opening hc hi
  case closing hc _ hi => exact closing hc hi
  case other hq ho hc _ hi => exact other hq ho hc hi

theorem char_cases (c : Char) :
    isQuote c = true ∨ isOpening c = true ∨ isClosing c = true ∨
      isQuote c = false ∧ isOpening c = false ∧ isClosing c = false := by
  cases isQuote c <;> cases isOpening c <;> cases isClosing c <;> simp

theorem not_isOpening (h : isClosing c = true) : isOpening c = false := by
  simp only [isClosing, Bool.or_eq_true, beq_iff_eq] at h
  rcases h with (rfl | rfl) | rfl <;> rfl

namespace Nested

theorem append (h : Nested closes as) (h' : Nested closes bs) : Nested closes (as ++ bs) := by
  induction h
  case nil => exact h'
  case group hc h _ _ hi => simpa using group hc h hi

theorem mono (h : Nested closes as) (hc : ∀ o c, closes o c = true → closes' o c = true) :
    Nested closes' as := by
  induction h
  case nil => exact .nil
  case group ho _ _ hi hi' => exact .group (hc _ _ ho) hi hi'

theorem counted (h : Nested anyCloses as) : Counted d (as ++ bs) ↔ Counted d bs := by
  induction h generalizing d bs
  case nil => rfl
  case group o c _ _ hc _ _ hi hi' =>
    have ⟨ho, hc⟩ := Bool.and_eq_true_iff.mp hc
    simp [Counted, ho, hi, hi', hc, not_isOpening hc]

end Nested

theorem Descends.opening (ho : isOpening o = true) (h : Descends (d + 1) bs) :
    Descends d (o :: bs) := by
  cases h
  case close as c bs ha hc h =>
    have hg : anyCloses o c = true := by simp [anyCloses, ho, hc]
    cases h
    case nested h => exact .nested (.group hg ha h)
    case close as' c' bs d ha' hc' h => simpa using close (.group hg ha ha') hc' h

theorem Counted.descends (h : Counted d bs) : Descends d bs := by
  induction bs generalizing d
  case nil =>
    have h : d = 0 := h
    exact h ▸ .nested .nil
  case cons b bs hi =>
    simp only [Counted] at h
    split at h
    case isTrue ho => exact (hi h).opening ho
    case isFalse =>
      have ⟨hc, d', hd, h⟩ := h
      exact hd ▸ .close .nil hc (hi h)

theorem counted_zero_iff : Counted 0 bs ↔ Nested anyCloses bs := by
  constructor
  case mp =>
    intro h
    cases h.descends
    case nested h => exact h
  case mpr =>
    intro h
    rw [←bs.append_nil, h.counted]
    rfl

namespace Nesting

theorem feed_opening (h : isOpening c = true) : (inside d).feed c = inside (d + 1) := by
  simp only [isOpening, Bool.or_eq_true, beq_iff_eq] at h
  rcases h with (rfl | rfl) | rfl <;> rfl

theorem feed_closing (h : isClosing c = true) : (inside (d + 1)).feed c = inside d := by
  simp only [isClosing, Bool.or_eq_true, beq_iff_eq] at h
  rcases h with (rfl | rfl) | rfl <;> rfl

theorem feed_quote (h : isQuote c = true) : (inside d).feed c = ⟨some c, false, d⟩ := by
  simp only [isQuote, Bool.or_eq_true, beq_iff_eq] at h
  rcases h with rfl | rfl <;> rfl

theorem feed_other (hq : isQuote c = false) (ho : isOpening c = false) (hc : isClosing c = false) :
    (inside d).feed c = inside d := by
  unfold isQuote at hq
  unfold isOpening at ho
  unfold isClosing at hc
  simp [feed, inside, hq, ho, hc]

variable {n n' : Nesting} {inner rest : List Char} {quote : Char}

theorem leave?_outside (hf : n.feed c = n') (h : n'.isOutside = true) :
    n.leave? (c :: cs) = some ([], cs) := by
  simp [leave?, hf, h]

theorem leave?_cons (hf : n.feed c = n') (h : n'.isOutside = false) :
    n.leave? (c :: cs) = (n'.leave? cs).map fun (inner, rest) => (c :: inner, rest) := by
  simp only [leave?, hf, h]
  cases n'.leave? cs <;> rfl

theorem feed_close (hq : isQuote quote = true) : feed ⟨some quote, false, d⟩ quote = inside d := by
  simp only [isQuote, Bool.or_eq_true, beq_iff_eq] at hq
  rcases hq with rfl | rfl <;> rfl

theorem feed_backslash : feed ⟨some quote, false, d⟩ '\\' = ⟨some quote, true, d⟩ := by
  simp [feed]

theorem feed_escaped : feed ⟨some quote, true, d⟩ c = ⟨some quote, false, d⟩ := by
  simp [feed]

theorem feed_char (hq : c ≠ quote) (hb : c ≠ '\\') :
    feed ⟨some quote, false, d⟩ c = ⟨some quote, false, d⟩ := by
  simp [feed, hq, hb]

theorem leave?_quoted (hq : isQuote quote = true) (h : Token.Quoted quote as) :
    leave? ⟨some quote, false, d + 1⟩ (as ++ cs) =
      ((inside (d + 1)).leave? cs).map fun (inner, rest) => (as ++ inner, rest) := by
  induction h
  case close => exact leave?_cons (feed_close hq) rfl
  case escape hi =>
    rw [List.cons_append, leave?_cons feed_backslash rfl, List.cons_append,
      leave?_cons feed_escaped rfl, hi, Option.map_map, Option.map_map]
    rfl
  case char hc hb _ hi =>
    rw [List.cons_append, leave?_cons (feed_char hc hb) rfl, hi, Option.map_map]
    rfl

-- A string that there is a way out of is closed, also if the next character is escaped.
theorem exists_quoted :
    ((leave? ⟨some quote, false, d + 1⟩ cs).isSome = true →
      ∃ as cs', cs = as ++ cs' ∧ Token.Quoted quote as) ∧
    ((leave? ⟨some quote, true, d + 1⟩ cs).isSome = true →
      ∃ c as cs', cs = c :: (as ++ cs') ∧ Token.Quoted quote as) := by
  induction cs
  case nil => exact ⟨nofun, nofun⟩
  case cons c cs hi =>
    constructor
    case right =>
      rw [leave?_cons feed_escaped rfl, Option.isSome_map]
      intro h
      have ⟨as, cs', he, ha⟩ := hi.1 h
      exact ⟨c, as, cs', by rw [he], ha⟩
    case left =>
      by_cases hq : c = quote
      case pos => exact fun _ => ⟨[c], cs, rfl, hq ▸ .close⟩
      case neg =>
        by_cases hb : c = '\\'
        case pos =>
          rw [hb, leave?_cons feed_backslash rfl, Option.isSome_map]
          intro h
          have ⟨c', as, cs', he, ha⟩ := hi.2 h
          exact ⟨'\\' :: c' :: as, cs', by rw [he]; rfl, .escape ha⟩
        case neg =>
          rw [leave?_cons (feed_char hq hb) rfl, Option.isSome_map]
          intro h
          have ⟨as, cs', he, ha⟩ := hi.1 h
          exact ⟨c :: as, cs', by rw [he]; rfl, .char hq hb ha⟩

-- The way outside leads over counted brackets, up to one that closes the last of those still open.
theorem exists_outline (h : (inside (d + 1)).leave? cs = some (inner, rest)) :
    ∃ c bs, cs = inner ++ c :: rest ∧ isClosing c = true ∧ Outline inner bs ∧ Counted d bs := by
  -- A string is passed at once, so that what follows it is shorter by more than a character.
  induction hl : cs.length using Nat.strongRecOn generalizing d cs inner
  case ind hi =>
    subst hl
    cases cs
    case nil => cases h
    case cons c cs =>
      rcases char_cases c with hq | ho | hc | ⟨hq, ho, hc⟩
      case inl =>
        rw [leave?_cons (feed_quote hq) rfl] at h
        have ⟨_, hs, he⟩ := Option.map_eq_some_iff.mp h
        have ⟨as, cs', hc, ha⟩ := exists_quoted.1 (Option.isSome_of_mem hs)
        subst hc
        rw [leave?_quoted hq ha] at hs
        have ⟨_, hs', he'⟩ := Option.map_eq_some_iff.mp hs
        cases he'
        cases he
        have hl : cs'.length < (c :: (as ++ cs')).length := by
          rw [List.length_cons, List.length_append]
          omega
        have ⟨c', bs, hc, hk, ho, hb⟩ := hi _ hl hs' rfl
        exact ⟨c', bs, by simp [hc], hk, .string hq ha ho, hb⟩
      case inr.inl =>
        rw [leave?_cons (feed_opening ho) rfl] at h
        have ⟨_, hs, he⟩ := Option.map_eq_some_iff.mp h
        cases he
        have ⟨c', bs, hc, hk, hi, hb⟩ := hi _ (by simp) hs rfl
        exact ⟨c', c :: bs, by simp [hc], hk, .opening ho hi, by simpa [Counted, ho] using hb⟩
      case inr.inr.inl =>
        cases d
        case zero =>
          rw [leave?_outside (feed_closing hc) rfl] at h
          cases h
          exact ⟨c, [], rfl, hc, .nil, rfl⟩
        case succ d =>
          rw [leave?_cons (feed_closing hc) rfl] at h
          have ⟨_, hs, he⟩ := Option.map_eq_some_iff.mp h
          cases he
          have ⟨c', bs, hc', hk, hi, hb⟩ := hi _ (by simp) hs rfl
          refine ⟨c', c :: bs, by simp [hc'], hk, .closing hc hi, ?_⟩
          simp [Counted, not_isOpening hc, hc, hb]
      case inr.inr.inr =>
        rw [leave?_cons (feed_other hq ho hc) rfl] at h
        have ⟨_, hs, he⟩ := Option.map_eq_some_iff.mp h
        cases he
        have ⟨c', bs, hc', hk, hi, hb⟩ := hi _ (by simp) hs rfl
        exact ⟨c', bs, by simp [hc'], hk, .other hq ho hc hi, hb⟩

theorem leave?_outline (ho : Outline inner bs) (hb : Counted d bs) (hc : isClosing c = true) :
    (inside (d + 1)).leave? (inner ++ c :: rest) = some (inner, rest) := by
  induction ho generalizing d
  case nil =>
    have hb : d = 0 := hb
    subst hb
    exact leave?_outside (feed_closing hc) rfl
  case string hq ha _ hi =>
    rw [List.cons_append, List.append_assoc, leave?_cons (feed_quote hq) rfl, leave?_quoted hq ha,
      hi hb]
    rfl
  case opening ho _ hi =>
    simp only [Counted, ho, if_true] at hb
    rw [List.cons_append, leave?_cons (feed_opening ho) rfl, hi hb]
    rfl
  case closing hk _ hi =>
    simp only [Counted, not_isOpening hk, Bool.false_eq_true, if_false] at hb
    rcases hb with ⟨_, _, rfl, hb⟩
    rw [List.cons_append, leave?_cons (feed_closing hk) rfl, hi hb]
    rfl
  case other hq ho hk _ hi =>
    rw [List.cons_append, leave?_cons (feed_other hq ho hk) rfl, hi hb]
    rfl

end Nesting

-- A parenthesis encloses what stands up to the bracket of any kind that closes it.
theorem enclosed?_eq_some_iff {inner rest : List Char} :
    enclosed? cs = some (inner, rest) ↔
      ∃ c bs, cs = '(' :: (inner ++ c :: rest) ∧ isClosing c = true ∧ Outline inner bs ∧
        Nested anyCloses bs := by
  simp only [←counted_zero_iff]
  constructor
  case mp =>
    intro h
    unfold enclosed? at h
    split at h
    case h_1 =>
      have ⟨c, bs, he, h⟩ := Nesting.exists_outline h
      exact ⟨c, bs, by rw [he], h⟩
    case h_2 => cases h
  case mpr =>
    rintro ⟨c, bs, rfl, hc, ho, hb⟩
    exact Nesting.leave?_outline ho hb hc

end Stencil
