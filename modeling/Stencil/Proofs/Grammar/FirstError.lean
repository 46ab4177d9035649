import Stencil.Proofs.Grammar.Completion
import Stencil.Proofs.Lexing.Cut
import Stencil.Proofs.Printing.Lexing

-- An error is reported where a text stops being the start of an expression.
namespace Stencil
namespace Token

variable {cs : List Char} {k : Kind} {ks : List Kind}

-- Tokens that some text is made of behind a blank.
def Writable (ks : List Kind) : Prop :=
  ∃ cs, Lexed (' ' :: cs) ks

theorem Writable.nil : Writable [] :=
  ⟨[], .blank rfl .nil⟩

theorem Writable.cons (h : Lexed cs [k]) : Writable ks → Writable (k :: ks)
  | ⟨bs, hb⟩ => ⟨cs ++ ' ' :: bs, .blank rfl (h.append_blank hb)⟩

theorem lexed_punct (p : Punct) : Lexed p.text.toList [.punct p] :=
  scan_eq_ok_iff.mp ⟨[⟨.punct p, 0⟩], by cases p <;> rfl, rfl⟩

theorem lexed_name : Lexed ['x'] [.name "x"] :=
  scan_eq_ok_iff.mp ⟨[⟨.name "x", 0⟩], rfl, rfl⟩

end Token

namespace Expr

open Token Reading

variable {cs : List Char} {ks : List Kind}

-- The text is that of an expression, and is made of the tokens `ks`.
def Accepts (cs : List Char) (ks : List Kind) : Prop :=
  kinds cs = some ks ∧ ∃ e, Expr.read cs = .ok e

theorem accepts_iff : Accepts cs ks ↔ Lexed cs ks ∧ Completes .start ks := by
  rw [Accepts, kinds_eq_some_iff]
  refine and_congr_right fun hl => ?_
  simp only [read_eq_ok_iff]
  constructor
  case mp =>
    intro ⟨e, ks', r, hl', hr⟩
    have hk := kinds_eq_some_iff.mpr hl
    rw [kinds_eq_some_iff.mpr hl'] at hk
    cases hk
    exact ⟨r, e, hr⟩
  case mpr => exact fun ⟨r, e, hr⟩ => ⟨e, ks, r, hl, hr⟩

theorem writable_closing (stack : List Open) : Writable (closing stack) := by
  induction stack
  case nil => exact .nil
  case cons o _ hi =>
    cases o
    case unary | binary | alternate => exact hi
    case consequent => exact .cons (lexed_punct _) (.cons lexed_name hi)
    case group | index | arguments | items | entry => exact .cons (lexed_punct _) hi

theorem writable_completion (r : Reading) : Writable r.completion := by
  have ⟨await, stack⟩ := r
  cases await
  case operator => exact writable_closing stack
  case operand | property => exact .cons lexed_name (writable_closing stack)
  case key | afterKey => exact .cons (lexed_punct _) (writable_closing stack)

-- The text before an error can be continued to an expression. With the token at the error it
-- cannot, and if that is the end, something is missing. The offset of the token is that of the
-- error unless the text is too long for it.
theorem fails_at_first_impossible {ms : List Mark} {err : ExprError}
    (hb : cs.all isBlank = false) (hm : marks cs = .ok ms) (he : Expr.read cs = .error err) :
    ∃ before m after as bs more,
      ms = before ++ m :: after ∧ err.place = .ofNat m.offset ∧
      (byteWidth cs < UInt32.size → ∀ m' ∈ ms, m'.offset = err.offset ↔ m' = m) ∧
      cs = as ++ bs ∧ byteWidth as = m.offset ∧
      (∃ bs', Accepts (as ++ bs') (before.filterMap Mark.kind ++ more)) ∧
      (∀ k, m.kind = some k →
        ∀ cs' more', ¬Accepts cs' (before.filterMap Mark.kind ++ k :: more')) ∧
      (m.kind = none → after = [] ∧ more ≠ []) := by
  obtain ⟨gap, ps, ks, hl, ht⟩ := marks_eq_ok hm
  obtain ⟨ts, hts, hsc⟩ := exists_marksTo hm
  rw [read_eq_run hb hsc] at he
  obtain ⟨before, m, after, r, hms, ho, hn, hs, hj⟩ := exists_rejected he
  rw [←hts] at hms
  subst hl hms
  obtain ⟨hk, hw⟩ := ht.marks_split hm
  obtain ⟨bs, hbs⟩ := laid_take gap ps before.length
  refine ⟨before, m, after, _, bs, r.completion, rfl, ho, ?_, hbs.symm, hw.symm, ?_, ?_, ?_⟩
  · intro hc m' hm'
    have hle : m.offset ≤ byteWidth (laid gap ps) := by
      rw [hw, ←hbs, byteWidth_append]
      exact Nat.le_add_right ..
    rw [ExprError.offset_eq_of_lt ho (Nat.lt_of_le_of_lt hle hc)]
    constructor
    case mp => exact fun ho' => ht.eq_of_offset_eq hm hm' (by simp) ho'
    case mpr => exact fun h => h ▸ rfl
  · obtain ⟨bs', hc⟩ := writable_completion r
    obtain ⟨r', e, hs', hf⟩ := r.completes
    refine ⟨' ' :: bs', accepts_iff.mpr ⟨?_, r', e, hs.trans hs', hf⟩⟩
    rw [hk]
    exact ((ht.take _).lexed gap).append_blank hc
  · intro k hmk cs' more' ha
    exact hs.not_completes (hmk ▸ hj) (accepts_iff.mp ha).2
  · intro hmk
    exact ⟨hn hmk, completion_ne_nil (hmk ▸ hj)⟩

theorem fails_at_first_impossible_call :
    ∃ ms err before m after as bs more,
      marks "f(a, [1 2".toList = .ok ms ∧ Expr.read "f(a, [1 2".toList = .error err ∧
      err.offset = 8 ∧ ms = before ++ m :: after ∧ err.place = .ofNat m.offset ∧
      (∀ m' ∈ ms, m'.offset = err.offset ↔ m' = m) ∧
      "f(a, [1 2".toList = as ++ bs ∧ byteWidth as = m.offset ∧
      (∃ bs', Accepts (as ++ bs') (before.filterMap Mark.kind ++ more)) ∧
      (∀ k, m.kind = some k →
        ∀ cs' more', ¬Accepts cs' (before.filterMap Mark.kind ++ k :: more')) ∧
      (m.kind = none → after = [] ∧ more ≠ []) := by
  obtain ⟨ms, hm⟩ : ∃ ms, marks "f(a, [1 2".toList = .ok ms := ⟨_, rfl⟩
  obtain ⟨err, he, ho⟩ : ∃ err, Expr.read "f(a, [1 2".toList = .error err ∧ err.offset = 8 :=
    ⟨_, rfl, rfl⟩
  obtain ⟨before, m, after, as, bs, more, h, hp, hu, h'⟩ := fails_at_first_impossible rfl hm he
  exact ⟨ms, err, before, m, after, as, bs, more, hm, he, ho, h, hp, hu (by decide), h'⟩

theorem byteWidth_replicate (n : Nat) : byteWidth (List.replicate n ' ') = n := by
  induction n
  case zero => rfl
  case succ n hi =>
    rw [List.replicate_succ, byteWidth, hi, Nat.add_comm]
    rfl

theorem read_behind_blanks (n : Nat) :
    (List.replicate n ' ' ++ [')']).all isBlank = false ∧
    marks (List.replicate n ' ' ++ [')']) =
      .ok [⟨some (.punct .closeParen), n⟩, ⟨none, n + 1⟩] ∧
    Expr.read (List.replicate n ' ' ++ [')']) =
      .error (.ofFault (.found .expression (some (.punct .closeParen))) n) := by
  have hg : (List.replicate n ' ').all isBlank = true := by simp [isBlank]
  have hb : (List.replicate n ' ' ++ [')']).all isBlank = false := by
    rw [List.all_append, hg]
    rfl
  have hs : scan (List.replicate n ' ' ++ [')']) = .ok [⟨.punct .closeParen, n⟩] := by
    rw [scan, scanFrom_gap ⟨List.replicate n ' ', hg⟩, byteWidth_replicate, Nat.zero_add]
    rfl
  have hw : byteWidth (List.replicate n ' ' ++ [')']) = n + 1 := by
    rw [byteWidth_append, byteWidth_replicate]
    rfl
  refine ⟨hb, by rw [marks, hs, hw]; rfl, ?_⟩
  simp only [Expr.read, hb, hs]
  rfl

-- The offset of the only token is too large for an error. What is kept of it is no token's offset.
theorem offset_of_no_token :
    ∃ ms err, (List.replicate UInt32.size ' ' ++ [')']).all isBlank = false ∧
      marks (List.replicate UInt32.size ' ' ++ [')']) = .ok ms ∧
      Expr.read (List.replicate UInt32.size ' ' ++ [')']) = .error err ∧
      err.offset = 0 ∧ ∀ m ∈ ms, m.offset ≠ err.offset := by
  obtain ⟨hb, hm, he⟩ := read_behind_blanks UInt32.size
  exact ⟨_, _, hb, hm, he, rfl, by decide⟩

end Expr
end Stencil
