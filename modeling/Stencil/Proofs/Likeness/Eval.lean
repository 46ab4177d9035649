import Stencil.Proofs.Likeness.Value
import Stencil.Proofs.Meaning.Directive
import Stencil.Proofs.Propagation

-- Two runs of one code on inputs that look alike under the names which the code mentions.
namespace Stencil

namespace Extends

variable {R R' R'' : Nat → Nat → Prop}

theorem refl : Extends R R :=
  fun _ _ h => h

theorem trans (h : Extends R R') (h' : Extends R' R'') : Extends R R'' :=
  fun _ _ hi => h' (h hi)

end Extends

namespace Code

-- A node that gets at nothing of the input but the names in `N`, and at no other template.
def Confined (N : String → Prop) : Code → Prop
  | literal v => v.isCompound = false
  | ambient name => N name
  | data | options | invoke _ _ _ _ | merge _ => False
  | _ => True

end Code

namespace Eval

open Value

variable {σ α β : Type} {host : Host σ}

-- What has to hold between two stores of a host while certain identities correspond, for two runs
-- to stay alike. Identities that both runs make at the same point correspond from then on.
structure Coupling (host : Host σ) where
  holds : (Nat → Nat → Prop) → σ → σ → Prop
  oneOne {R s t} : holds R s t → OneOne R
  fresh {R s t} : holds R s t →
    ∃ R', Extends R R' ∧ R' (host.fresh s).1 (host.fresh t).1 ∧
      holds R' (host.fresh s).2 (host.fresh t).2
  pairs {R s t v w} : holds R s t → Like R v w → LikePairs R (host.pairs v) (host.pairs w)

namespace Coupling

structure States (C : Coupling host) (R : Nat → Nat → Prop) (s t : State σ) : Prop where
  slots : LikeAll R s.frame.slots t.frame.slots
  stores : C.holds R s.store t.store

-- Whatever has come to correspond since `R`, two evaluations keep it and give results that `V`
-- relates, or the same error.
def Coupled (C : Coupling host) (V : (Nat → Nat → Prop) → α → α → Prop)
    (R : Nat → Nat → Prop) (x y : Eval σ α) : Prop :=
  ∀ R' s t, Extends R R' → C.States R' s t →
    ∃ R'', Extends R' R'' ∧ C.States R'' (x s).2 (y t).2 ∧ LikeResult (V R'') (x s).1 (y t).1

-- The texts that a loop gives do not depend on identities.
def Same (_ : Nat → Nat → Prop) (a b : α) : Prop :=
  a = b

variable {C : Coupling host} {R R' : Nat → Nat → Prop}

namespace Coupled

variable {V : (Nat → Nat → Prop) → α → α → Prop} {W : (Nat → Nat → Prop) → β → β → Prop}
  {x y : Eval σ α} {f g : α → Eval σ β} {v w : Value}

theorem mono (h : Extends R R') (hx : C.Coupled V R x y) : C.Coupled V R' x y :=
  fun R₁ s t h₁ => hx R₁ s t (h.trans h₁)

-- What holds of two stores is known between any two steps.
theorem of_holds (h : ∀ R' s t, Extends R R' → C.holds R' s t → C.Coupled V R' x y) :
    C.Coupled V R x y :=
  fun R' s t hR hs => h R' s.store t.store hR hs.stores R' s t .refl hs

theorem ofExcept {r r' : Except RenderError α}
    (h : ∀ R', Extends R R' → LikeResult (V R') r r') :
    C.Coupled V R (Act.ofExcept r) (Act.ofExcept r') :=
  fun R' _ _ hR hs => ⟨R', .refl, hs, h R' hR⟩

theorem pure {a b : α} (h : ∀ R', Extends R R' → V R' a b) :
    C.Coupled V R (pure a) (pure b) :=
  ofExcept fun R' hR => .ok (h R' hR)

theorem pure_like (h : Like R v w) : C.Coupled Like R (Pure.pure v) (Pure.pure w) :=
  pure fun _ hR => h.mono hR

theorem fail {e : RenderError} : C.Coupled V R (Act.fail e) (Act.fail e) :=
  ofExcept fun _ _ => .error

theorem bind (hx : C.Coupled V R x y)
    (hf : ∀ R' a b, Extends R R' → V R' a b → C.Coupled W R' (f a) (g b)) :
    C.Coupled W R (x >>= f) (y >>= g) := by
  intro R₁ s t h₁ hs
  obtain ⟨R₂, h₂, hs, hr⟩ := hx R₁ s t h₁ hs
  simp only [Bind.bind, Act.andThen]
  generalize x s = r at hs hr
  generalize y t = r' at hs hr
  obtain ⟨r, s'⟩ := r
  obtain ⟨r', t'⟩ := r'
  cases hr
  case error => exact ⟨R₂, h₂, hs, .error⟩
  case ok a b hv =>
    obtain ⟨R₃, h₃, hr⟩ := hf R₂ a b (h₁.trans h₂) hv R₂ s' t' .refl hs
    exact ⟨R₃, h₂.trans h₃, hr⟩

theorem onFrame {F : Frame → Frame} {G : Frame → Frame}
    (h : ∀ R' f f', Extends R R' → LikeAll R' f.slots f'.slots →
      LikeAll R' (F f).slots (G f').slots) :
    C.Coupled Same R (onFrame F) (Eval.onFrame G) :=
  fun R' _ _ hR hs => ⟨R', .refl, ⟨h R' _ _ hR hs.slots, hs.stores⟩, .ok rfl⟩

theorem clearBuffer {depth : Nat} :
    C.Coupled Same R (Eval.onFrame (Frame.clearBuffer depth))
      (Eval.onFrame (Frame.clearBuffer depth)) :=
  onFrame fun _ _ _ _ h => h

theorem slot {n : Nat} :
    C.Coupled Like R (do return (← Act.get).frame.slot n) (do return (← Act.get).frame.slot n) :=
  fun R' _ _ _ hs => ⟨R', .refl, hs, .ok (hs.slots.getD n)⟩

theorem fresh : C.Coupled (fun R => R) R (onStore host.fresh) (onStore host.fresh) := by
  intro R₁ s t _ hs
  have ⟨R₂, h₂, hi, hs'⟩ := C.fresh hs.stores
  exact ⟨R₂, h₂, ⟨hs.slots.mono h₂, hs'⟩, .ok hi⟩

theorem newArray {vs ws : List Value} (h : LikeAll R vs ws) :
    C.Coupled Like R (newArray host vs) (Eval.newArray host ws) :=
  fresh.bind fun _ _ _ hR hi => pure_like (.array hi (h.mono hR))

theorem newObject {fs gs : List (String × Value)} (h : LikeFields R fs gs) :
    C.Coupled Like R (newObject host fs) (Eval.newObject host gs) :=
  fresh.bind fun _ _ _ hR hi => pure_like (.object hi (h.mono hR))

-- Nothing that is alike can be called.
theorem call {vs ws : List Value} {description : String} : Like R v w →
    C.Coupled Like R
      (match v with
        | .function f => tryOnStore (host.call f vs)
        | _ => Act.fail (.notCallable description))
      (match w with
        | .function f => tryOnStore (host.call f ws)
        | _ => Act.fail (.notCallable description)) := by
  intro h
  cases h
  case array | object => exact fail
  case primitive hv =>
    cases v
    case function => cases hv
    all_goals exact fail

theorem dethunk {input input' : Input} {depth : Nat} (h : Like R v w) :
    C.Coupled Like R (dethunk host input depth v) (Eval.dethunk host input' depth w) := by
  intro R' s t hR hs
  refine ⟨R', .refl, ?_⟩
  have hv := h.mono hR
  simp only [Eval.dethunk, Bind.bind, Act.andThen, Eval.onFrame, Act.modify, Act.get,
    Frame.value_putValue]
  cases h
  case array | object => exact ⟨⟨hs.slots, hs.stores⟩, .ok hv⟩
  case primitive hp =>
    cases v
    case function => cases hp
    all_goals exact ⟨⟨hs.slots, hs.stores⟩, .ok hv⟩

theorem rounds {n : Nat} {body body' : Eval σ Value} {ps qs : List (Value × Value)}
    (hb : C.Coupled Like R body body') (h : LikePairs R ps qs) (b : Buffer) :
    C.Coupled Same R (rounds n body ps b) (Eval.rounds n body' qs b) := by
  induction h generalizing b
  case nil => exact pure fun _ _ => rfl
  case cons hk hv _ hi =>
    refine (onFrame fun R' _ _ hR hs => ?_).bind fun R₁ _ _ h₁ _ => ?_
    case refine_1 => exact (hs.take n).append (.cons (hk.mono hR) (.cons (hv.mono hR) .nil))
    refine (hb.mono h₁).bind fun R₂ _ _ h₂ ht => ?_
    rw [ht.text_eq]
    exact (hi _).mono (h₁.trans h₂)

end Coupled

-- The induction is on the code. No case looks at the inputs, but for the names, and what the parts
-- of a node give is alike also when more identities correspond.
section

variable {input input' : Input} {N : String → Prop}

mutual

theorem coupled_eval (hn : ∀ x, N x → Like R (input.lookup x) (input'.lookup x)) :
    (c : Code) → (∀ d ∈ c.nodes, d.Confined N) →
    C.Coupled Like R (eval host input c) (eval host input' c)
  | .text _, _ => .pure_like (.primitive rfl)
  | .literal _, h => .pure_like (.primitive (h _ (.head _)))
  | .slot _, _ => .slot
  | .ambient x, h => .pure_like (hn x (h _ (.head _)))
  | .data, h | .options, h | .invoke _ _ _ _, h | .merge _, h => (h _ (.head _)).elim
  | .array items, h =>
    (coupled_evalAll hn items (List.forall_mem_cons.mp h).2).bind fun _ _ _ _ hs => .newArray hs
  | .object entries, h =>
    (coupled_evalEntries hn entries (List.forall_mem_cons.mp h).2).bind fun _ _ _ _ hs =>
      .newObject hs.ofList
  | .member o property, h =>
    (coupled_eval hn o (List.forall_mem_cons.mp h).2).bind fun _ _ _ _ ho =>
      .ofExcept fun _ hR => (ho.mono hR).get property
  | .index o i, h => by
    have ⟨ho, hi⟩ := List.forall_mem_append.mp (List.forall_mem_cons.mp h).2
    refine (coupled_eval hn o ho).bind fun _ _ _ h₁ ho => ?_
    refine ((coupled_eval hn i hi).mono h₁).bind fun _ _ _ h₂ hi => .ofExcept fun _ h₃ => ?_
    exact (ho.mono (h₂.trans h₃)).getIndex (hi.mono h₃)
  | .call callee arguments, h => by
    have ⟨hc, ha⟩ := List.forall_mem_append.mp (List.forall_mem_cons.mp h).2
    refine (coupled_eval hn callee hc).bind fun _ _ _ h₁ hf => ?_
    exact ((coupled_evalAll hn arguments ha).mono h₁).bind fun _ _ _ h₂ _ => .call (hf.mono h₂)
  | .unary op operand, h =>
    (coupled_eval hn operand (List.forall_mem_cons.mp h).2).bind fun _ _ _ _ hv =>
      .pure_like (hv.unary op)
  | .binary op lhs rhs, h => by
    have ⟨hl, hr⟩ := List.forall_mem_append.mp (List.forall_mem_cons.mp h).2
    refine (coupled_eval hn lhs hl).bind fun _ _ w h₁ hv => ?_
    have hr := (coupled_eval hn rhs hr).mono h₁
    rw [hv.isTruthy_eq]
    cases op
    case and =>
      cases w.isTruthy
      case false => exact .pure_like hv
      case true => exact hr
    case or =>
      cases w.isTruthy
      case false => exact hr
      case true => exact .pure_like hv
    all_goals
      refine hr.bind fun _ _ _ h₂ hw => .of_holds fun _ _ _ h₃ hs => ?_
      exact .pure_like ((hv.mono (h₂.trans h₃)).binary (C.oneOne hs) (hw.mono h₃) rfl)
  | .cond test consequent alternate, h => by
    have ⟨h, ha⟩ := List.forall_mem_append.mp (List.forall_mem_cons.mp h).2
    have ⟨ht, hc⟩ := List.forall_mem_append.mp h
    refine (coupled_eval hn test ht).bind fun _ _ _ h₁ hv => ?_
    rw [hv.isTruthy_eq]
    split
    case isTrue => exact (coupled_eval hn consequent hc).mono h₁
    case isFalse => exact (coupled_eval hn alternate ha).mono h₁
  | .dethunk _ value, h =>
    (coupled_eval hn value (List.forall_mem_cons.mp h).2).bind fun _ _ _ _ hv => .dethunk hv
  | .each _ slot _ _ container body, h => by
    obtain ⟨hc, hb⟩ := List.forall_mem_append.mp (List.forall_mem_cons.mp h).2
    rw [eval_each, eval_each]
    refine (coupled_eval hn container hc).bind fun R₁ v w h₁ hv => ?_
    refine Coupled.clearBuffer.bind fun R₂ _ _ h₂ _ => .of_holds fun R₃ _ _ h₃ hs => ?_
    have h₃ := h₂.trans h₃
    have hb := (coupled_eval hn body hb).mono (h₁.trans h₃)
    refine (hb.rounds (C.pairs hs (hv.mono h₃)) []).bind fun _ _ _ _ ho => ?_
    refine (Coupled.onFrame fun _ _ _ _ hs => hs.take slot).bind fun _ _ _ _ _ => ?_
    exact Coupled.clearBuffer.bind fun _ _ _ _ _ => .pure_like (ho ▸ .primitive rfl)

theorem coupled_evalAll (hn : ∀ x, N x → Like R (input.lookup x) (input'.lookup x)) :
    (cs : List Code) → (∀ d ∈ Code.nodesAll cs, d.Confined N) →
    C.Coupled LikeAll R (evalAll host input cs) (evalAll host input' cs)
  | [], _ => .pure fun _ _ => .nil
  | c :: cs, h => by
    have ⟨hc, hs⟩ := List.forall_mem_append.mp h
    refine (coupled_eval hn c hc).bind fun _ _ _ h₁ hv => ?_
    refine ((coupled_evalAll hn cs hs).mono h₁).bind fun _ _ _ h₂ hs => .pure fun _ h₃ => ?_
    exact .cons (hv.mono (h₂.trans h₃)) (hs.mono h₃)

theorem coupled_evalEntries (hn : ∀ x, N x → Like R (input.lookup x) (input'.lookup x)) :
    (entries : List (String × Code)) → (∀ d ∈ Code.nodesEntries entries, d.Confined N) →
    C.Coupled LikeFields R (evalEntries host input entries) (evalEntries host input' entries)
  | [], _ => .pure fun _ _ => .nil
  | (_, c) :: entries, h => by
    have ⟨hc, hs⟩ := List.forall_mem_append.mp h
    refine (coupled_eval hn c hc).bind fun _ _ _ h₁ hv => ?_
    refine ((coupled_evalEntries hn entries hs).mono h₁).bind fun _ _ _ h₂ hs =>
      .pure fun _ h₃ => ?_
    exact .cons (hv.mono (h₂.trans h₃)) (hs.mono h₃)

end
end

end Coupling
end Eval

theorem Input.lookup_orEmpty (i j : Nat) (data options : Value) (x : String) :
    Input.lookup ⟨Program.orEmpty i data, Program.orEmpty j options⟩ x =
      Input.lookup ⟨data, options⟩ x := by
  simp only [Input.lookup_eq, Program.fieldList_orEmpty]

open Value in
theorem Program.apply_coupled {σ : Type} {host : Host σ} (C : Eval.Coupling host) {p : Program}
    {N : String → Prop} {R : Nat → Nat → Prop} {data options data' options' : Value} {s t : σ}
    (hp : ∀ c ∈ p.body.nodes, c.Confined N) (hs : C.holds R s t)
    (hn : ∀ x, N x →
      Like R (Input.lookup ⟨data, options⟩ x) (Input.lookup ⟨data', options'⟩ x)) :
    (p.apply host data options s).1 = (p.apply host data' options' t).1 ∧
      ∃ R', C.holds R' (p.apply host data options s).2 (p.apply host data' options' t).2 := by
  have ⟨R₁, h₁, _, hs⟩ := C.fresh hs
  have ⟨R₂, h₂, _, hs⟩ := C.fresh hs
  have hn' x (hx : N x) := (hn x hx).mono (h₁.trans h₂)
  simp only [←Input.lookup_orEmpty (host.fresh s).1 (host.fresh (host.fresh s).2).1 data,
    ←Input.lookup_orEmpty (host.fresh t).1 (host.fresh (host.fresh t).2).1 data'] at hn'
  have ⟨R₃, _, hs, hr⟩ := C.coupled_eval hn' p.body hp R₂ ⟨.start p.maxDepth, _⟩
    ⟨.start p.maxDepth, _⟩ .refl ⟨.nil, hs⟩
  simp only [Program.apply]
  generalize Eval.eval host _ p.body _ = r at hs hr ⊢
  generalize Eval.eval host _ p.body _ = r' at hs hr ⊢
  have ⟨r, s'⟩ := r
  have ⟨r', t'⟩ := r'
  cases hr
  case ok h => exact ⟨congrArg Except.ok h.text_eq, R₃, hs.stores⟩
  case error => exact ⟨rfl, R₃, hs.stores⟩

end Stencil
