import Stencil.Proofs.Grammar.Steps
import Stencil.Proofs.Lexing.Read

namespace Stencil
namespace Token

-- A text that is made of tokens, with blanks before, between and after them.
inductive Lexed : List Char → List Kind → Prop
  | nil : Lexed [] []
  | blank {c cs ks} : isBlank c = true → Lexed cs ks → Lexed (c :: cs) ks
  | token {c k as bs ks} :
    isBlank c = false → Extent c k as bs → Lexed bs ks → Lexed (c :: (as ++ bs)) (k :: ks)

variable {c : Char} {k : Kind} {cs as bs bs' : List Char} {ks : List Kind} {ts : List Token}

theorem Extent.follows (h : Extent c k as bs) (hf : Follows bs bs') : Extent c k as bs' :=
  ⟨h.spells, fun offset _ hf' => h.stable offset _ (hf.trans hf')⟩

theorem Quoted.getLast?_eq {quote : Char} (h : Quoted quote cs) : cs.getLast? = some quote := by
  induction h
  case close => rfl
  case escape hi => simp [List.getLast?_cons, hi]
  case char hi => simp [List.getLast?_cons, hi]

theorem Spells.isBlank_getLast (h : Spells k cs) : ∀ c ∈ cs.getLast?, isBlank c = false := by
  intro c hc
  cases h
  case number h => exact isBlank_of_isPlain (h c (List.mem_of_getLast? hc))
  case name h => exact isBlank_of_isPlain (h c (List.mem_of_getLast? hc))
  case string quote cs hq h =>
    have hc : quote = c := by simpa [List.getLast?_cons, h.getLast?_eq] using hc
    subst hc
    rcases hq with rfl | rfl <;> decide
  case punct p => cases p <;> (cases hc; decide)

theorem lexed_of_scanFrom {skip offset : Nat} (h : scanFrom cs skip offset = .ok ts) :
    Lexed (cs.drop skip) (ts.map Token.kind) := by
  fun_induction scanFrom cs skip offset generalizing ts
  case case1 =>
    cases h
    simpa using Lexed.nil
  case case2 hi => exact hi h
  case case3 hc hi => exact .blank hc (hi h)
  case case6 hc k n hr ts hs hi =>
    cases h
    have ⟨as, bs, ha, hn, he⟩ := read_spec hr
    subst ha hn
    have hl := hi hs
    rw [List.drop_left] at hl
    exact .token (by simpa using hc) he hl
  all_goals cases h

theorem scanFrom_append (as bs : List Char) (offset : Nat) :
    ∃ offset', scanFrom (as ++ bs) as.length offset = scanFrom bs 0 offset' := by
  induction as generalizing offset
  case nil => exact ⟨offset, rfl⟩
  case cons a as hi => exact hi _

theorem Lexed.scanFrom_eq_ok (h : Lexed cs ks) (offset : Nat) :
    ∃ ts, scanFrom cs 0 offset = .ok ts ∧ ts.map Token.kind = ks := by
  induction h generalizing offset
  case nil => exact ⟨[], rfl, rfl⟩
  case blank hc _ hi =>
    simp only [scanFrom, hc]
    exact hi _
  case token c k as bs ks hc he _ hi =>
    have ⟨offset', ha⟩ := scanFrom_append as bs (offset + c.utf8Size)
    have ⟨ts, hs, hk⟩ := hi offset'
    refine ⟨⟨k, offset⟩ :: ts, ?_, by simp [hk]⟩
    simp [scanFrom, hc, he.stable offset bs (.refl bs), ha, hs]

theorem scan_eq_ok_iff : (∃ ts, scan cs = .ok ts ∧ ts.map Token.kind = ks) ↔ Lexed cs ks := by
  constructor
  case mp =>
    rintro ⟨ts, hs, rfl⟩
    exact lexed_of_scanFrom hs
  case mpr => exact fun h => h.scanFrom_eq_ok 0

namespace Lexed

theorem dropWhile (h : Lexed cs ks) : Lexed (cs.dropWhile isBlank) ks := by
  induction h
  case nil => exact .nil
  case blank hc _ hi => simpa [hc] using hi
  case token hc he h _ => simpa [hc] using token hc he h

-- A token does not take in a blank at the end of a text, for none ends with a blank.
theorem of_concat {b : Char} (h : Lexed cs ks) (hc : cs = as ++ [b]) (hb : isBlank b = true) :
    Lexed as ks := by
  induction h generalizing as
  case nil => simp at hc
  case blank c cs ks hc' h hi =>
    cases as <;> cases hc
    case nil => exact h
    case cons => exact .blank hc' (hi rfl)
  case token c k as' bs ks hc' he h hi =>
    cases as <;> injection hc with ha hc <;> subst ha
    case nil => simp [hb] at hc'
    case cons as =>
      rcases List.eq_nil_or_concat bs with rfl | ⟨bs, x, rfl⟩
      case inl =>
        have hl := he.spells.isBlank_getLast b
        rw [List.append_nil] at hc
        simp [hc, hb, List.getLast?_cons] at hl
      case inr =>
        rw [List.concat_eq_append] at he hc hi
        have ⟨ha, hx⟩ : as' ++ bs = as ∧ [x] = [b] :=
          List.append_inj' (by simpa using hc) rfl
        cases hx
        subst ha
        exact .token hc' (he.follows (.of_append bs [b])) (hi rfl)

theorem trimEnd (h : Lexed cs ks) : Lexed (trimEnd cs) ks := by
  unfold Stencil.trimEnd
  rw [←cs.reverse_reverse] at h
  generalize cs.reverse = rs at h ⊢
  induction rs
  case nil => exact h
  case cons b rs hi =>
    cases hb : isBlank b <;> simp only [List.dropWhile_cons, hb]
    case false => exact h
    case true => exact hi (of_concat h (List.reverse_cons ..) hb)

theorem trim (h : Lexed cs ks) : Lexed (trim cs) ks :=
  h.dropWhile.trimEnd

theorem eq_nil_of_blank (h : Lexed cs ks) (hb : cs.all isBlank = true) : ks = [] := by
  induction h
  case nil => rfl
  case blank hi =>
    rw [List.all_cons, Bool.and_eq_true] at hb
    exact hi hb.2
  case token hc _ _ _ => simp [hc] at hb

end Lexed
end Token

namespace Expr

open Token Reading

variable {cs : List Char} {e : Expr}

-- Reading an expression is reading its tokens.
theorem read_eq_ok_iff :
    Expr.read cs = .ok e ↔ ∃ ks r, Lexed cs ks ∧ Steps .start ks r ∧ r.finish = .ok e := by
  unfold Expr.read
  constructor
  case mp =>
    intro h
    split at h
    case isTrue => cases h
    case isFalse =>
      split at h
      case h_1 => cases h
      case h_2 ts hs =>
        have ⟨r, hr, hf⟩ := run_eq_ok_iff_steps.mp h
        exact ⟨_, r, scan_eq_ok_iff.mp ⟨ts, hs, rfl⟩, hr, hf⟩
  case mpr =>
    rintro ⟨ks, r, hl, hr, hf⟩
    have ⟨ts, hs, hk⟩ := scan_eq_ok_iff.mpr hl
    have hb : ¬cs.all isBlank = true := by
      intro hb
      have hk := hl.eq_nil_of_blank hb
      subst hk
      cases hr
      cases hf
    rw [if_neg hb, hs]
    exact run_eq_ok_iff_steps.mpr ⟨r, hk ▸ hr, hf⟩

theorem read_trim (h : Expr.read cs = .ok e) : Expr.read (trim cs) = .ok e := by
  have ⟨ks, r, hl, hr⟩ := read_eq_ok_iff.mp h
  exact read_eq_ok_iff.mpr ⟨ks, r, hl.trim, hr⟩

end Expr
end Stencil
