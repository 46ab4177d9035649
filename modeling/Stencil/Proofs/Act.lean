import Stencil.Act

namespace Stencil.Act

variable {σ ε α β : Type}

theorem bind_eq_ok_iff {x : Act σ ε α} {f : α → Act σ ε β} {s s' : σ} {b : β} :
    (x >>= f) s = (.ok b, s') ↔ ∃ a s₁, x s = (.ok a, s₁) ∧ f a s₁ = (.ok b, s') := by
  cases h : x s
  case mk r s₁ =>
    cases r
    case error => simp [bind_apply_error h]
    case ok a =>
      rw [bind_apply_ok h]
      constructor
      case mp => exact fun hf => ⟨a, s₁, rfl, hf⟩
      case mpr =>
        rintro ⟨_, _, ha, hf⟩
        cases ha
        exact hf

theorem bind_eq_error_iff {x : Act σ ε α} {f : α → Act σ ε β} {s s' : σ} {e : ε} :
    (x >>= f) s = (.error e, s') ↔
      x s = (.error e, s') ∨ ∃ a s₁, x s = (.ok a, s₁) ∧ f a s₁ = (.error e, s') := by
  cases h : x s
  case mk r s₁ =>
    cases r
    case error => simp [bind_apply_error h]
    case ok a =>
      rw [bind_apply_ok h]
      constructor
      case mp => exact fun hf => .inr ⟨a, s₁, rfl, hf⟩
      case mpr =>
        rintro (hx | ⟨_, _, ha, hf⟩)
        · cases hx
        · cases ha
          exact hf

instance : LawfulMonad (Act σ ε) :=
  .mk' _
    (by
      intro α x
      funext s
      rcases h : x s with ⟨_ | _, _⟩ <;> simp [Functor.map, andThen, h]
      rfl)
    (fun _ _ => rfl)
    (by
      intro α β γ x f g
      funext s
      rcases h : x s with ⟨_ | _, _⟩ <;> simp [bind, andThen, h])

-- Whenever `x` succeeds from a state in `P`, its result and the state after it are in `Q`.
def Triple (P : σ → Prop) (x : Act σ ε α) (Q : α → σ → Prop) : Prop :=
  ∀ s a s', P s → x s = (.ok a, s') → Q a s'

namespace Triple

variable {P P' : σ → Prop} {Q : α → σ → Prop} {R : β → σ → Prop} {x : Act σ ε α}
  {f : α → Act σ ε β}

theorem pure {a : α} (h : ∀ s, P s → Q a s) : Triple P (pure a : Act σ ε α) Q := by
  intro s a' s' hp hx
  cases hx
  exact h s hp

theorem fail {e : ε} : Triple P (Act.fail e : Act σ ε α) Q := by
  intro s a s' _ hx
  cases hx

theorem bind (hx : Triple P x Q) (hf : ∀ a, Triple (Q a) (f a) R) : Triple P (x >>= f) R := by
  intro s b s' hp hb
  have ⟨a, s₁, ha, hb⟩ := bind_eq_ok_iff.mp hb
  exact hf a s₁ b s' (hx s a s₁ hp ha) hb

theorem weaken (hx : Triple P x Q) (hp : ∀ s, P' s → P s) {Q' : α → σ → Prop}
    (hq : ∀ a s, Q a s → Q' a s) : Triple P' x Q' :=
  fun s a s' h hs => hq a s' (hx s a s' (hp s h) hs)

end Triple
end Stencil.Act
