import Stencil.Proofs.Grammar.Steps

-- A reading can be completed whatever has been read, and fails at the first token that cannot stand
-- where it does.
namespace Stencil.Expr.Reading

open Token (Kind Mark)

variable {r r' : Reading} {k : Kind} {ks more : List Kind}

-- The tokens that end the constructs of a stack, once the operand on top of it is complete. A test
-- with a consequent still wants its alternate.
def closing : List Open → List Kind
  | [] => []
  | .unary _ :: stack | .binary _ _ :: stack | .alternate _ _ :: stack => closing stack
  | .consequent test :: stack => .punct (closer (.consequent test)) :: .name "x" :: closing stack
  | o :: stack => .punct (closer o) :: closing stack

-- Tokens that make an expression of what has been read.
def completion (r : Reading) : List Kind :=
  match r.await with
  | .operand | .property _ => .name "x" :: closing r.stack
  | .operator _ => closing r.stack
  | .key _ | .afterKey _ _ => .punct .closeBrace :: closing r.stack

def Completes (r : Reading) (ks : List Kind) : Prop :=
  ∃ r' e, Steps r ks r' ∧ r'.finish = .ok e

theorem Completes.step (h : r.step k = .ok r') : Completes r' ks → Completes r (k :: ks)
  | ⟨_, e, hs, hf⟩ => ⟨_, e, .step h hs, hf⟩

-- A token that closes a construct meets the stack as it is when all has been settled, so what
-- counts of `e'` and `stack'` is what they settle to.
theorem completes_closing {stack stack' : List Open} {e e' : Expr}
    (h : settleAll e' stack' = settleAll e stack) :
    Completes ⟨.operator e', stack'⟩ (closing stack) := by
  induction stack generalizing e e' stack'
  case nil => exact ⟨_, e, .refl, by simp [finish, h, settleAll]⟩
  case cons o stack hi =>
    have hend {r : Reading} (hr : stepEnd e (o :: stack) (.punct (closer o)) = .ok r)
        (ho : settleAll e (o :: stack) = (e, o :: stack) := by rfl)
        (hq : step ⟨.operator e', stack'⟩ (.punct (closer o)) =
          stepEnd (settleAll e' stack').1 (settleAll e' stack').2 (.punct (closer o)) := by rfl) :
        step ⟨.operator e', stack'⟩ (.punct (closer o)) = .ok r := by
      rw [hq, h, ho, hr]
    cases o
    case unary | binary | alternate => exact hi h
    case consequent => exact .step (hend rfl) (.step rfl (hi rfl))
    case group | index | arguments | items | entry => exact .step (hend rfl) (hi rfl)

theorem completes (r : Reading) : Completes r r.completion := by
  have ⟨await, stack⟩ := r
  cases await
  case operator => exact completes_closing rfl
  case operand | property | key | afterKey => exact .step rfl (completes_closing rfl)

-- The reading cannot go on with the token or, if there is none, cannot end.
def Rejects (r : Reading) : Option Kind → Prop
  | some k => ∃ fault, r.step k = .error fault
  | none => ∃ fault, r.finish = .error fault

-- The marks of tokens, with that of the end behind them.
def marksTo (stop : Nat) (ts : List Token) : List Mark :=
  ts.map (fun t => ⟨some t.kind, t.offset⟩) ++ [⟨none, stop⟩]

theorem exists_marksTo {cs : List Char} {ms : List Mark} (h : Token.marks cs = .ok ms) :
    ∃ ts, ms = marksTo (byteWidth cs) ts ∧ Token.scan cs = .ok ts := by
  unfold Token.marks at h
  split at h
  case h_1 => cases h
  case h_2 ts hs =>
    cases h
    exact ⟨ts, rfl, hs⟩

theorem read_eq_run {cs : List Char} {ts : List Token} (hb : cs.all isBlank = false)
    (hs : Token.scan cs = .ok ts) : read cs = run (byteWidth cs) ts .start := by
  simp only [read, hb, hs]
  rfl

theorem exists_rejected {stop : Nat} {ts : List Token} {err : ExprError}
    (h : run stop ts r = .error err) :
    ∃ before m after r', marksTo stop ts = before ++ m :: after ∧ err.place = .ofNat m.offset ∧
      (m.kind = none → after = []) ∧ Steps r (before.filterMap Mark.kind) r' ∧
      r'.Rejects m.kind := by
  induction ts generalizing r
  case nil =>
    simp only [run] at h
    cases hf : r.finish <;> simp only [hf] at h <;> cases h
    exact ⟨[], _, [], r, rfl, rfl, fun _ => rfl, .refl, _, hf⟩
  case cons t ts hi =>
    simp only [run] at h
    cases ht : r.step t.kind <;> simp only [ht] at h
    case error =>
      cases h
      exact ⟨[], _, _, r, rfl, rfl, by simp, .refl, _, ht⟩
    case ok =>
      obtain ⟨before, m, after, r', hm, ho, ha, hs, hr⟩ := hi h
      exact ⟨_ :: before, m, after, r', congrArg (_ :: ·) hm, ho, ha, .step ht hs, hr⟩

theorem Steps.of_append (h : Steps r ks r') {r'' : Reading} (h' : Steps r (ks ++ more) r'') :
    Steps r' more r'' := by
  induction h
  case refl => exact h'
  case step hk _ hi =>
    cases h'
    case step hk' h' =>
      cases hk.symm.trans hk'
      exact hi h'

-- Reading is deterministic, so what has been rejected once is not read in another way.
theorem Steps.not_completes (h : Steps .start ks r) (hk : r.Rejects (some k)) :
    ¬Completes .start (ks ++ k :: more) := by
  intro ⟨_, _, hs, _⟩
  have ⟨_, hk⟩ := hk
  cases h.of_append hs
  case step hk' _ => cases hk.symm.trans hk'

theorem completion_ne_nil (h : r.Rejects none) : r.completion ≠ [] := by
  intro hn
  have ⟨_, _, hs, hf⟩ := r.completes
  have ⟨_, h⟩ := h
  rw [hn] at hs
  cases hs
  cases h.symm.trans hf

end Stencil.Expr.Reading
