import Stencil.Proofs.Descent.Yields
import Stencil.Proofs.Grammar.Complete

-- Recursive descent reads what is read with a stack. The stack holds what the calls that have not
-- returned are going to do.
namespace Stencil

open Token (Kind Mark)
open Stencil.Expr (Open Reading)

namespace Expr.Reading

variable {e : Expr} {o : Open} {stack : List Open} {k : Kind} {m : Mark}

-- Constructs of several parts with commas between them.
def lists : Open → Bool
  | .arguments _ _ | .items _ | .entry _ _ => true
  | _ => false

theorem stepEnd_eq_error (hc : k ≠ .punct (closer o)) (hs : lists o → k ≠ .punct .comma) :
    stepEnd e (o :: stack) k = .error (fault k (o :: stack)) := by
  unfold stepEnd
  split
  case h_10 => rfl
  all_goals simp_all [closer, lists]

theorem refuses_operator (he : m.Ends) (ho : settleAll e (o :: stack) = (e, o :: stack))
    (hc : m.kind ≠ some (.punct (closer o))) (hs : lists o → m.kind ≠ some (.punct .comma)) :
    Refuses ⟨.operator e, o :: stack⟩ (.found (.punct (closer o)) m.kind) m.kind := by
  cases hm : m.kind
  case none => simp only [Refuses, finish, ho]
  case some k =>
    rw [hm] at hc hs
    simp only [Refuses, step_of_ends hm he, ho]
    exact stepEnd_eq_error (fun h => hc (h ▸ rfl)) fun hl h => hs hl (h ▸ rfl)

theorem refuses_property (h : ∀ x, m.kind ≠ some (.name x)) :
    Refuses ⟨.property e, stack⟩ (.found .propertyName m.kind) m.kind := by
  cases hm : m.kind
  case none => rfl
  case some k =>
    cases k
    case name x => exact absurd hm (h x)
    all_goals rfl

theorem refuses_key {done : List (String × Expr)} (hc : m.kind ≠ some (.punct .closeBrace))
    (hk : m.kind.bind Kind.key? = none) :
    Refuses ⟨.key done, stack⟩ (.found .propertyKey m.kind) m.kind := by
  cases hm : m.kind <;> rw [hm] at hc hk
  case none => rfl
  case some k =>
    cases k
    case punct p => cases p <;> first | rfl | exact absurd rfl hc
    all_goals cases hk

theorem refuses_afterKey {done : List (String × Expr)} {key : String}
    (hc : m.kind ≠ some (.punct .colon)) (hs : m.kind ≠ some (.punct .comma))
    (hb : m.kind ≠ some (.punct .closeBrace)) :
    Refuses ⟨.afterKey done key, stack⟩ (.found (.punct .closeBrace) m.kind) m.kind := by
  cases hm : m.kind <;> rw [hm] at hc hs hb
  case none => rfl
  case some k =>
    simp only [Refuses, step]
    unfold stepAfterKey
    split
    case h_4 => rfl
    all_goals contradiction

theorem refuses_operand {p : Punct} (hm : m.kind = some (.punct p)) (ho : m.Opens stack)
    (hu : m.unary? = none) (h₁ : m.kind ≠ some (.punct .openParen))
    (h₂ : m.kind ≠ some (.punct .openBracket)) (h₃ : m.kind ≠ some (.punct .openBrace)) :
    Refuses ⟨.operand, stack⟩ (.found .expression m.kind) m.kind := by
  have hu : p.unary? = none := by rwa [Mark.unary?, hm] at hu
  rw [hm]
  simp only [Refuses, step, stepOperand]
  split
  case h_1 => exact absurd hm h₁
  case h_2 => exact absurd hm h₂
  case h_3 => exact absurd hm h₃
  case h_4 | h_5 => exact absurd hm ho
  case h_6 => rw [hu]

end Expr.Reading

namespace Descent

open Stencil.Expr.Reading

variable {T : Passage} {look : Nat → Option Mark} {fuel i j p : Nat} {stack : List Open} {e : Expr}

-- An operand has been read, up to an index that is not before `i`.
structure Operand (T : Passage) (i : Nat) (stack : List Open) (Stop : Mark → Prop) (e : Expr)
    (j : Nat) : Prop where
  le : i ≤ j
  comes : T.At j ⟨.operator e, stack⟩
  stops : Stop (T.mark j)

theorem Operand.of_le {Stop : Mark → Prop} {k : Nat} (h : Operand T j stack Stop e k) (hi : i ≤ j) :
    Operand T i stack Stop e k :=
  { h with le := Nat.le_trans hi h.le }

-- Behind a part of a list, a comma or the end of the list has to follow.
structure Parts (r : Reading) (m : Mark) (p : Punct) (next last : Reading) : Prop where
  comma : r.step (.punct .comma) = .ok next
  close : r.step (.punct p) = .ok last
  refuses : m.kind ≠ some (.punct .comma) → m.kind ≠ some (.punct p) →
    r.Refuses (.found (.punct p) m.kind) m.kind

-- The lists of expressions, how they are open and what they become.
structure Lists (wrap : List Expr → Open) (make : List Expr → Expr) (p : Punct) : Prop where
  holds : ∀ done stack, Holds 0 (wrap done :: stack)
  opens : ∀ {m : Mark} done stack, m.kind ≠ some (.punct p) → m.Opens (wrap done :: stack)
  close : ∀ done stack, step ⟨.operand, wrap done :: stack⟩ (.punct p) =
    .ok ⟨.operator (make done), stack⟩
  parts : ∀ {m : Mark} done e stack, m.Ends → Parts ⟨.operator e, wrap done :: stack⟩ m p
    ⟨.operand, wrap (done ++ [e]) :: stack⟩ ⟨.operator (make (done ++ [e])), stack⟩

theorem Lists.arguments (callee : Expr) : Lists (.arguments callee) (.call callee) .closeParen where
  holds _ _ := trivial
  opens _ _ h := h
  close _ _ := rfl
  parts _ _ _ he := ⟨rfl, rfl, fun hs hc => refuses_operator he rfl hc fun _ => hs⟩

theorem Lists.items : Lists .items .array .closeBracket where
  holds _ _ := trivial
  opens _ _ h := h
  close _ _ := rfl
  parts _ _ _ he := ⟨rfl, rfl, fun hs hc => refuses_operator he rfl hc fun _ => hs⟩

namespace Passage.Yields

variable {α : Type} {Q : α → Nat → Prop}

theorem close {o : Open} {r : Reading} (hl : T.Knows look)
    (hd : Operand T i (o :: stack) Mark.Ends e j)
    (ho : settleAll e (o :: stack) = (e, o :: stack)) (hs : lists o = false)
    (hr : step ⟨.operator e, o :: stack⟩ (.punct (closer o)) = .ok r) {f : Unit → Cursor α}
    (h : T.At (j + 1) r → T.Yields (f ()) (j + 1) Q) :
    T.Yields (Descent.expect look (closer o) >>= f) j Q := by
  refine expect hl hd.comes.le (fun hk => h (hd.comes.step hk hr)) fun hk => ?_
  refine hd.comes.result_eq (refuses_operator hd.stops ho hk fun hl => ?_)
  rw [hs] at hl
  cases hl

theorem part {r next last : Reading} {p : Punct} (hl : T.Knows look) (ha : T.At j r)
    (hp : Parts r (T.mark j) p next last) {x y : Cursor α}
    (hx : T.At (j + 1) next → T.Yields x (j + 1) Q)
    (hy : T.At (j + 1) last → T.Yields y (j + 1) Q) :
    T.Yields (do if ← Descent.eat look .comma then x else do Descent.expect look p; y) j Q := by
  refine eat hl ha.le (fun hk => hx (ha.step hk hp.comma)) fun hs => ?_
  exact expect hl ha.le (fun hk => hy (ha.step hk hp.close)) fun hc =>
    ha.result_eq (hp.refuses hs hc)

end Passage.Yields

-- What each parser does if it has calls enough for the tokens that are left.
structure Sound (T : Passage) (look : Nat → Option Mark) (fuel : Nat) : Prop where
  conditional : ∀ {i stack}, 7 * (T.tokens.length - i) + 5 ≤ fuel → T.At i ⟨.operand, stack⟩ →
    Holds 0 stack → (T.mark i).Opens stack →
    T.Yields (conditional look fuel) i (Operand T (i + 1) stack Mark.Ends)
  binary : ∀ {i stack p}, 7 * (T.tokens.length - i) + 4 ≤ fuel → T.At i ⟨.operand, stack⟩ →
    Holds p stack → (T.mark i).Opens stack →
    T.Yields (binary look p fuel) i (Operand T (i + 1) stack (Mark.Stops p))
  climb : ∀ {i stack p lhs}, 7 * (T.tokens.length - i) + 1 ≤ fuel →
    T.At i ⟨.operator lhs, stack⟩ → (T.mark i).NoSuffix → Holds p stack →
    T.Yields (climb look p lhs fuel) i (Operand T i stack (Mark.Stops p))
  unary : ∀ {i stack}, 7 * (T.tokens.length - i) + 3 ≤ fuel → T.At i ⟨.operand, stack⟩ →
    (T.mark i).Opens stack →
    T.Yields (unary look fuel) i (Operand T (i + 1) stack Mark.NoSuffix)
  suffixed : ∀ {i stack}, 7 * (T.tokens.length - i) + 2 ≤ fuel → T.At i ⟨.operand, stack⟩ →
    (T.mark i).Opens stack → (T.mark i).unary? = none →
    T.Yields (suffixed look fuel) i (Operand T (i + 1) stack Mark.NoSuffix)
  suffixes : ∀ {i stack e}, 7 * (T.tokens.length - i) + 1 ≤ fuel →
    T.At i ⟨.operator e, stack⟩ →
    T.Yields (suffixes look e fuel) i (Operand T i stack Mark.NoSuffix)
  primary : ∀ {i stack}, 7 * (T.tokens.length - i) + 1 ≤ fuel → T.At i ⟨.operand, stack⟩ →
    (T.mark i).Opens stack → (T.mark i).unary? = none →
    T.Yields (primary look fuel) i (Operand T (i + 1) stack fun _ => True)
  items : ∀ {i stack wrap make p done}, 7 * (T.tokens.length - i) + 6 ≤ fuel →
    Lists wrap make p → T.At i ⟨.operand, wrap done :: stack⟩ →
    T.Yields (items look p done fuel) i fun es =>
      Operand T (i + 1) stack (fun _ => True) (make es)
  entries : ∀ {i stack done}, 7 * (T.tokens.length - i) + 1 ≤ fuel → T.At i ⟨.key done, stack⟩ →
    T.Yields (entries look done fuel) i fun es =>
      Operand T (i + 1) stack (fun _ => True) (.object es)
  value : ∀ {i stack done key}, 7 * (T.tokens.length - i) + 1 ≤ fuel →
    T.At i ⟨.afterKey done key, stack⟩ →
    T.Yields (value look key fuel) i fun e j => i ≤ j ∧ ∃ r, T.At j r ∧
      Parts r (T.mark j) .closeBrace ⟨.key (done ++ [(key, e)]), stack⟩
        ⟨.operator (.object (done ++ [(key, e)])), stack⟩

namespace Sound

theorem conditional_succ (hl : T.Knows look) (h : Sound T look fuel)
    (hc : 7 * (T.tokens.length - i) + 5 ≤ fuel + 1) (ha : T.At i ⟨.operand, stack⟩)
    (hh : Holds 0 stack) (ho : (T.mark i).Opens stack) :
    T.Yields (Descent.conditional look (fuel + 1)) i (Operand T (i + 1) stack Mark.Ends) := by
  rw [Descent.conditional]
  refine .bind (h.binary (by omega) ha (hh.mono (Nat.zero_le 1)) ho) fun test j ht => ?_
  refine .eat hl ht.comes.le (fun hq => ?_) fun hq => .pure ⟨ht.le, ht.comes, ht.stops, hq⟩
  have hs : step ⟨.operator test, stack⟩ (.punct .question) =
      .ok ⟨.operand, .consequent test :: stack⟩ := by
    simp only [step, stepOperator, hh.settle_eq]
  have hn := ht.comes.step hq hs
  have := ht.le
  have := hn.le
  refine .bind (h.conditional (by omega) hn trivial trivial) fun consequent k hk => ?_
  refine .close hl hk rfl rfl rfl fun hn => ?_
  have := hk.le
  have := hn.le
  refine .bind (h.conditional (by omega) hn trivial trivial) fun alternate l ha => .pure ?_
  have := ha.le
  exact ⟨by omega, ha.comes.settle_alternate ha.stops, ha.stops⟩

theorem binary_succ (h : Sound T look fuel)
    (hc : 7 * (T.tokens.length - i) + 4 ≤ fuel + 1) (ha : T.At i ⟨.operand, stack⟩)
    (hh : Holds p stack) (ho : (T.mark i).Opens stack) :
    T.Yields (Descent.binary look p (fuel + 1)) i (Operand T (i + 1) stack (Mark.Stops p)) := by
  rw [Descent.binary]
  refine .bind (h.unary (by omega) ha ho) fun lhs j hu => ?_
  have := hu.le
  exact .mono (h.climb (by omega) hu.comes hu.stops hh) fun _ _ hd => hd.of_le hu.le

theorem climb_succ (hl : T.Knows look) (h : Sound T look fuel) {lhs : Expr}
    (hc : 7 * (T.tokens.length - i) + 1 ≤ fuel + 1) (ha : T.At i ⟨.operator lhs, stack⟩)
    (hn : (T.mark i).NoSuffix) (hh : Holds p stack) :
    T.Yields (Descent.climb look p lhs (fuel + 1)) i (Operand T i stack (Mark.Stops p)) := by
  rw [Descent.climb]
  refine .peek hl ha.le ?_
  split
  case h_1 hb => exact .pure ⟨Nat.le_refl i, ha, hn, by simp [hb]⟩
  case h_2 op hb =>
    split
    case isTrue hp => exact .pure ⟨Nat.le_refl i, ha, hn, by simpa [hb] using hp⟩
    case isFalse hp =>
      have hp := Nat.le_of_not_lt hp
      obtain ⟨q, hk, hq⟩ := Mark.kind_of_binary? hb
      have hs : step ⟨.operator lhs, stack⟩ (.punct q) = _ := step_binary hq
      rw [(hh.mono hp).settle_eq] at hs
      have hn := ha.step hk hs
      have := hn.le
      refine .advance_of_kind hl hk ?_
      have hd := h.binary (p := op.precedence + 1) (by omega) hn (Nat.lt_succ_self _) trivial
      refine .bind hd fun rhs j hr => ?_
      have := hr.le
      have hj := hr.comes.settle_binary hr.stops
      exact .mono (h.climb (by omega) hj hr.stops.toNoSuffix hh) fun _ _ hd => hd.of_le (by omega)

theorem unary_succ (hl : T.Knows look) (h : Sound T look fuel)
    (hc : 7 * (T.tokens.length - i) + 3 ≤ fuel + 1) (ha : T.At i ⟨.operand, stack⟩)
    (ho : (T.mark i).Opens stack) :
    T.Yields (Descent.unary look (fuel + 1)) i (Operand T (i + 1) stack Mark.NoSuffix) := by
  rw [Descent.unary]
  refine .peek hl ha.le ?_
  split
  case h_1 hu => exact h.suffixed (by omega) ha ho hu
  case h_2 op hu =>
    obtain ⟨q, hk, hq⟩ := Mark.kind_of_unary? hu
    have hn := ha.step hk (step_unary hq)
    have := hn.le
    refine .advance_of_kind hl hk ?_
    refine .bind (h.unary (by omega) hn trivial) fun operand j hr => .pure ?_
    have := hr.le
    exact ⟨by omega, hr.comes.settle_unary hr.stops, hr.stops⟩

theorem suffixed_succ (h : Sound T look fuel)
    (hc : 7 * (T.tokens.length - i) + 2 ≤ fuel + 1) (ha : T.At i ⟨.operand, stack⟩)
    (ho : (T.mark i).Opens stack) (hu : (T.mark i).unary? = none) :
    T.Yields (Descent.suffixed look (fuel + 1)) i (Operand T (i + 1) stack Mark.NoSuffix) := by
  rw [Descent.suffixed]
  refine .bind (h.primary (by omega) ha ho hu) fun e j hd => ?_
  have := hd.le
  exact .mono (h.suffixes (by omega) hd.comes) fun _ _ hs => hs.of_le hd.le

theorem suffixes_succ (hl : T.Knows look) (h : Sound T look fuel)
    (hc : 7 * (T.tokens.length - i) + 1 ≤ fuel + 1) (ha : T.At i ⟨.operator e, stack⟩) :
    T.Yields (Descent.suffixes look e (fuel + 1)) i (Operand T i stack Mark.NoSuffix) := by
  -- What has been read further on is an operand again, and may have suffixes.
  have again {e : Expr} {j : Nat} (hi : i < j) (hj : T.At j ⟨.operator e, stack⟩) :
      T.Yields (Descent.suffixes look e fuel) j (Operand T i stack Mark.NoSuffix) := by
    have := hj.le
    exact .mono (h.suffixes (by omega) hj) fun _ _ hs => hs.of_le (Nat.le_of_lt hi)
  rw [Descent.suffixes]
  refine .peek hl ha.le ?_
  split
  case h_1 hk =>
    have hn := ha.step hk rfl
    refine .advance_of_kind hl hk (.advance hl hn.le ?_)
    split
    case h_1 x hx =>
      rw [Passage.next_of_kind hx]
      exact again (by omega) (hn.step hx rfl)
    case h_2 hx => exact .throw (hn.result_eq (refuses_property hx))
  case h_2 hk =>
    have hn := ha.step hk rfl
    have := hn.le
    refine .advance_of_kind hl hk ?_
    refine .bind (h.conditional (by omega) hn trivial trivial) fun _ j hd => ?_
    have := hd.le
    exact .close hl hd rfl rfl rfl (again (by omega))
  case h_3 hk =>
    have hn := ha.step hk rfl
    have := hn.le
    refine .advance_of_kind hl hk ?_
    refine .bind (h.items (by omega) (.arguments e) hn) fun _ j hd => ?_
    have := hd.le
    exact again (by omega) hd.comes
  case h_4 h₁ h₂ h₃ => exact .pure ⟨Nat.le_refl i, ha, h₁, h₂, h₃⟩

theorem primary_succ (hl : T.Knows look) (h : Sound T look fuel)
    (hc : 7 * (T.tokens.length - i) + 1 ≤ fuel + 1) (ha : T.At i ⟨.operand, stack⟩)
    (ho : (T.mark i).Opens stack) (hu : (T.mark i).unary? = none) :
    T.Yields (Descent.primary look (fuel + 1)) i (Operand T (i + 1) stack fun _ => True) := by
  rw [Descent.primary]
  refine .advance hl ha.le ?_
  split
  case h_1 hk | h_2 hk | h_3 hk =>
    rw [Passage.next_of_kind hk]
    exact .pure ⟨Nat.le_refl _, ha.step hk rfl, trivial⟩
  case h_4 hk =>
    have hn := ha.step hk rfl
    have := hn.le
    rw [Passage.next_of_kind hk]
    refine .bind (h.conditional (by omega) hn trivial trivial) fun _ j hd => ?_
    have := hd.le
    exact .close hl hd rfl rfl rfl fun hn => .pure ⟨by omega, hn, trivial⟩
  case h_5 hk =>
    have hn := ha.step hk rfl
    have := hn.le
    rw [Passage.next_of_kind hk]
    exact .bind (h.items (by omega) .items hn) fun _ _ hd => .pure (hd.of_le (by omega))
  case h_6 hk =>
    have hn := ha.step hk rfl
    have := hn.le
    rw [Passage.next_of_kind hk]
    exact .bind (h.entries (by omega) hn) fun _ _ hd => .pure (hd.of_le (by omega))
  case h_7 hk =>
    refine .throw (ha.result_eq ?_)
    rw [hk]
    rfl
  case h_8 hx hs hn h₁ h₂ h₃ he =>
    refine .throw (ha.result_eq ?_)
    obtain ⟨p, hm⟩ : ∃ p, (T.mark i).kind = some (.punct p) := by
      cases hm : (T.mark i).kind
      case none => exact (he hm).elim
      case some k =>
        cases k
        case number x => exact (hx x hm).elim
        case string s => exact (hs s hm).elim
        case name x => exact (hn x hm).elim
        case punct p => exact ⟨p, rfl⟩
    exact refuses_operand hm ho hu h₁ h₂ h₃

theorem items_succ (hl : T.Knows look) (h : Sound T look fuel) {wrap : List Expr → Open}
    {make : List Expr → Expr} {p : Punct} {done : List Expr}
    (hc : 7 * (T.tokens.length - i) + 6 ≤ fuel + 1) (hw : Lists wrap make p)
    (ha : T.At i ⟨.operand, wrap done :: stack⟩) :
    T.Yields (Descent.items look p done (fuel + 1)) i fun es =>
      Operand T (i + 1) stack (fun _ => True) (make es) := by
  rw [Descent.items]
  refine .eat hl ha.le (fun hk => ?_) fun hk => ?_
  · exact .pure ⟨Nat.le_refl _, ha.step hk (hw.close _ _), trivial⟩
  · have hd := h.conditional (by omega) ha (hw.holds _ _) (hw.opens _ _ hk)
    refine .bind hd fun e j hd => ?_
    have := hd.le
    refine .part hl hd.comes (hw.parts done e stack hd.stops) (fun hn => ?_) fun hn => ?_
    · have := hn.le
      exact .mono (h.items (by omega) hw hn) fun _ _ hs => hs.of_le (by omega)
    · exact .pure ⟨by omega, hn, trivial⟩

theorem entries_succ (hl : T.Knows look) (h : Sound T look fuel) {done : List (String × Expr)}
    (hc : 7 * (T.tokens.length - i) + 1 ≤ fuel + 1) (ha : T.At i ⟨.key done, stack⟩) :
    T.Yields (Descent.entries look done (fuel + 1)) i fun es =>
      Operand T (i + 1) stack (fun _ => True) (.object es) := by
  rw [Descent.entries]
  refine .eat hl ha.le (fun hk => ?_) fun hk => ?_
  · exact .pure ⟨Nat.le_refl _, ha.step hk rfl, trivial⟩
  · refine .advance hl ha.le ?_
    split
    case h_1 hn => exact .throw (ha.result_eq (refuses_key hk hn))
    case h_2 key hn =>
      obtain ⟨k, hm, hn⟩ := Option.bind_eq_some_iff.mp hn
      have ha := ha.step hm (step_key hn)
      have := ha.le
      rw [Passage.next_of_kind hm]
      refine .bind (h.value (by omega) ha) fun e j hv => ?_
      obtain ⟨hi, r, hr, hp⟩ := hv
      refine .part hl hr hp (fun hn => ?_) fun hn => ?_
      · have := hn.le
        exact .mono (h.entries (by omega) hn) fun _ _ hs => hs.of_le (by omega)
      · exact .pure ⟨by omega, hn, trivial⟩

theorem value_succ (hl : T.Knows look) (h : Sound T look fuel) {done : List (String × Expr)}
    {key : String} (hc : 7 * (T.tokens.length - i) + 1 ≤ fuel + 1)
    (ha : T.At i ⟨.afterKey done key, stack⟩) :
    T.Yields (Descent.value look key (fuel + 1)) i fun e j => i ≤ j ∧ ∃ r, T.At j r ∧
      Parts r (T.mark j) .closeBrace ⟨.key (done ++ [(key, e)]), stack⟩
        ⟨.operator (.object (done ++ [(key, e)])), stack⟩ := by
  rw [Descent.value]
  refine .eat hl ha.le (fun hk => ?_) fun hk => .pure ?_
  · have hn := ha.step hk rfl
    have := hn.le
    refine .mono (h.conditional (by omega) hn trivial trivial) fun e j hd => ?_
    have := hd.le
    refine ⟨by omega, _, hd.comes, rfl, rfl, fun hs hc => ?_⟩
    exact refuses_operator hd.stops rfl hc fun _ => hs
  · exact ⟨Nat.le_refl i, _, ha, rfl, rfl, refuses_afterKey hk⟩

end Sound

-- The induction is on the number of calls. A parser that is called at the same mark has a smaller
-- summand, and one that is called behind it has seven calls less to make.
theorem sound (hl : T.Knows look) (fuel : Nat) : Sound T look fuel := by
  induction fuel
  case zero => constructor <;> intros <;> omega
  case succ fuel h =>
    exact {
      conditional := h.conditional_succ hl
      binary := h.binary_succ
      climb := h.climb_succ hl
      unary := h.unary_succ hl
      suffixed := h.suffixed_succ
      suffixes := h.suffixes_succ hl
      primary := h.primary_succ hl
      items := h.items_succ hl
      entries := h.entries_succ hl
      value := h.value_succ hl }

theorem expression_yields (hl : T.Knows look) (hf : 7 * T.tokens.length + 5 ≤ fuel)
    (ha : T.At 0 .start) : T.Yields (expression look fuel) 0 fun e _ => T.result = .ok e := by
  refine .bind ((sound hl fuel).conditional hf ha trivial trivial) fun e j hd => ?_
  refine .peek hl hd.comes.le ?_
  split
  case h_1 hk =>
    refine .pure ?_
    rw [← hd.comes.run_eq, (Passage.drop_of_end hk).1]
    rfl
  case h_2 k hk =>
    refine .throw (hd.comes.result_eq ?_)
    rw [hk]
    simp only [Refuses, step_of_ends hk hd.stops, settleAll]
    simp [stepEnd, fault]

-- What is seen behind the end of the text does not matter, because the index does not get there.
theorem expression_eq {stop : Nat} {ts : List Token}
    (hl : ∀ i < (marksTo stop ts).length, look i = (marksTo stop ts)[i]?) :
    (expression look (7 * (marksTo stop ts).length) 0).1 =
        (run stop ts .start).mapError .error ∧
      ∀ fuel i, i < (marksTo stop ts).length →
        i ≤ (expression look fuel i).2 ∧ (expression look fuel i).2 < (marksTo stop ts).length := by
  let T : Passage := ⟨ts, stop, run stop ts .start⟩
  have hn : (marksTo stop ts).length = T.tokens.length + 1 := by simp [marksTo, T]
  have hk : T.Knows look := by
    intro i hi
    rw [hl i (hn ▸ Nat.lt_succ_of_le hi)]
    exact Passage.getElem?_marksTo hi
  constructor
  · have hf : 7 * T.tokens.length + 5 ≤ 7 * (marksTo stop ts).length := by omega
    obtain ⟨e, j, hx, he⟩ | ⟨e, j, hx, he⟩ := expression_yields hk hf ⟨Nat.zero_le _, rfl⟩
    all_goals
      have he : run stop ts .start = _ := he
      rw [hx, he]
      rfl
  · intro fuel i hi
    have h := keeps_expression hk fuel i (by omega)
    exact ⟨h.1, by omega⟩

end Descent
end Stencil
