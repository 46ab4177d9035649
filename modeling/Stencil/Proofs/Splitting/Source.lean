import Stencil.Proofs.Lexing.Scan
import Stencil.Proofs.Splitting.Token

namespace Stencil.Expr

open Token (Kind)

def Open.isBracket : Open → Bool
  | .unary _ | .binary _ _ | .consequent _ | .alternate _ _ => false
  | .group | .index _ | .arguments _ _ | .items _ | .entry _ _ => true

namespace Reading

-- How many brackets are open.
def depth (r : Reading) : Nat :=
  r.stack.countP Open.isBracket +
    match r.await with
    | .key _ | .afterKey _ _ => 1
    | _ => 0

-- What a token does to the number of open brackets, and where it may not stand.
structure Nests (r : Reading) (k : Kind) (r' : Reading) : Prop where
  depth_eq : r'.depth = k.nest r.depth
  comma : k = .punct .comma → 0 < r.depth
  arrow : k ≠ .punct .arrow
  equals : k.endsWithEquals = true → r'.await = .operand

variable {e : Expr} {stack : List Open} {k : Kind} {r r' : Reading}

theorem countP_settle (p : Nat) (e : Expr) (stack : List Open) :
    (settle p e stack).2.countP Open.isBracket = stack.countP Open.isBracket := by
  fun_induction settle p e stack <;> simp_all [Open.isBracket]

theorem countP_settleAll (e : Expr) (stack : List Open) :
    (settleAll e stack).2.countP Open.isBracket = stack.countP Open.isBracket := by
  fun_induction settleAll e stack <;> simp_all [Open.isBracket]

theorem nests_stepOperand (h : stepOperand stack k = .ok r') :
    Nests ⟨.operand, stack⟩ k r' := by
  unfold stepOperand at h
  split at h
  case h_1 | h_2 | h_3 =>
    cases h
    exact ⟨rfl, by simp, by simp, by simp [Kind.endsWithEquals]⟩
  case h_4 p =>
    split at h
    case h_6 =>
      split at h <;> cases h
      case h_1 op ho =>
        cases p <;> simp only [Punct.unary?, reduceCtorEq] at ho
        all_goals
          exact ⟨by simp [depth, Open.isBracket, Kind.nest], by simp, by simp,
            by simp [Kind.endsWithEquals]⟩
    all_goals
      cases h
      exact ⟨by simp [depth, Open.isBracket, List.countP_cons, Kind.nest], by simp, by simp,
        by simp [Kind.endsWithEquals]⟩

theorem nests_stepEnd (h : stepEnd e stack k = .ok r') : Nests ⟨.operator e, stack⟩ k r' := by
  unfold stepEnd at h
  split at h <;> cases h
  all_goals
    exact ⟨by simp [depth, Open.isBracket, List.countP_cons, Kind.nest],
      by simp [depth, Open.isBracket, List.countP_cons], by simp,
      by simp [Kind.endsWithEquals]⟩

theorem nests_stepOperator (h : stepOperator e stack k = .ok r') :
    Nests ⟨.operator e, stack⟩ k r' := by
  have hend (h : stepEnd (settleAll e stack).1 (settleAll e stack).2 k = .ok r') :
      Nests ⟨.operator e, stack⟩ k r' := by
    have hn := nests_stepEnd h
    have hd : depth ⟨.operator e, stack⟩ =
        depth ⟨.operator (settleAll e stack).1, (settleAll e stack).2⟩ := by
      simp [depth, countP_settleAll]
    exact ⟨hd ▸ hn.depth_eq, hd ▸ hn.comma, hn.arrow, hn.equals⟩
  unfold stepOperator at h
  split at h
  case h_6 => exact hend h
  case h_5 p _ _ _ _ =>
    split at h
    case h_1 op ho =>
      cases h
      cases p <;> simp only [Punct.binary?, reduceCtorEq] at ho
      all_goals
        exact ⟨by simp [depth, Open.isBracket, Kind.nest, countP_settle], by simp, by simp,
          fun _ => rfl⟩
    case h_2 => exact hend h
  all_goals
    cases h
    refine ⟨?_, by simp, by simp, by simp [Kind.endsWithEquals]⟩
    simp [depth, Open.isBracket, List.countP_cons, Kind.nest, countP_settle]

theorem nests_step (h : r.step k = .ok r') : Nests r k r' := by
  obtain ⟨await, stack⟩ := r
  cases await
  case operand => exact nests_stepOperand h
  case operator => exact nests_stepOperator h
  case property =>
    simp only [step] at h
    split at h <;> cases h
    exact ⟨rfl, by simp, by simp, by simp [Kind.endsWithEquals]⟩
  case key =>
    simp only [step, stepKey] at h
    split at h <;> cases h
    all_goals exact ⟨rfl, by simp, by simp, by simp [Kind.endsWithEquals]⟩
  case afterKey =>
    simp only [step, stepAfterKey] at h
    split at h <;> cases h
    all_goals
      exact ⟨by simp [depth, Open.isBracket, List.countP_cons, Kind.nest], by simp [depth],
        by simp, by simp [Kind.endsWithEquals]⟩

theorem depth_of_finish (h : r.finish = .ok e) : r.depth = 0 := by
  have ⟨await, stack⟩ := r
  cases await <;> simp only [finish, reduceCtorEq] at h
  case operator e' =>
    have hc := countP_settleAll e' stack
    split at h <;> cases h
    case h_1 hs =>
      rw [hs] at hc
      simp [depth, ←hc]

end Reading

open Nesting Token Reading

variable {separator cs tail : List Char} {ks : List Kind} {k : Kind} {r r' : Reading} {e : Expr}

-- An operand does not start with the second half of an arrow.
theorem head_ne_greater (ho : r.await = .operand) (hl : Lexed cs ks) (hr : Steps r ks r')
    (ht : tail.head? ≠ some '>') : (cs ++ tail).head? ≠ some '>' := by
  intro hh
  cases cs
  case nil => exact ht hh
  case cons c cs =>
    cases hh
    cases hl
    case blank hb _ => exact absurd hb (by decide)
    case token _ _ he =>
      have ⟨await, stack⟩ := r
      cases ho
      cases hr
      case step hk _ =>
        rcases he.spells.eq_greater with rfl | rfl <;> cases hk

theorem uncut_of_steps (hs : IsSeparator separator) (ht : tail.head? ≠ some '>')
    (hl : Lexed cs ks) (hr : Steps r ks r') (hf : r'.finish = .ok e) :
    (inside r.depth).feedAll cs = outside ∧ Uncut separator (inside r.depth) cs tail := by
  induction hl generalizing r
  case nil =>
    cases hr
    rw [depth_of_finish hf]
    exact ⟨rfl, trivial⟩
  case blank c cs ks hc hl hi =>
    have hc := isInert_of_isBlank hc
    have ⟨ha, hu⟩ := hi hr
    simp only [feedAll_cons, Uncut, feed_inert hc]
    exact ⟨ha, fun _ => not_isPrefix_inert hs hc, hu⟩
  case token c k as bs ks hc he hl hi =>
    cases hr
    case step r₁ hk hr =>
      have hn := nests_step hk
      have ⟨ha, hu⟩ := hi hr
      have ht' (h : k.endsWithEquals = true) := head_ne_greater (hn.equals h) hl hr ht
      have hw : _ ∧ Uncut separator (inside r.depth) (c :: as) (bs ++ tail) :=
        he.spells.spec hs fun hd => ⟨fun hk => absurd (hn.comma hk) (by simp [hd]), hn.arrow, ht'⟩
      rw [←List.cons_append, feedAll_append, uncut_append, hw.1, ←hn.depth_eq]
      exact ⟨ha, hw.2, hu⟩

-- A source text that can be read is not cut, and ends where it started.
theorem splitOutside_sources {sources : List (List Char)} (hs : IsSeparator separator)
    (hne : sources ≠ []) (h : ∀ s ∈ sources, ∃ e, Expr.read s = .ok e) :
    splitOutside separator (separator.intercalate sources) = sources := by
  have hn : separator ≠ [] := by rcases hs with rfl | rfl <;> simp
  refine splitOutside_intercalate hn hne fun s hm => ?_
  have ⟨e, he⟩ := h s hm
  have ⟨ks, r, hl, hr, hf⟩ := read_eq_ok_iff.mp he
  have hw (bs : List Char) (hb : bs.head? ≠ some '>') := uncut_of_steps hs hb hl hr hf
  refine ⟨(hw [] nofun).1, fun bs hb => (hw bs ?_).2⟩
  rcases hb with rfl | ⟨rest, rfl⟩
  · nofun
  · rcases hs with rfl | rfl <;> simp

end Stencil.Expr
