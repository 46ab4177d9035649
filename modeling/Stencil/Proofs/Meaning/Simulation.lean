import Stencil.Proofs.Act
import Stencil.Proofs.Meaning.Basic
import Stencil.Proofs.Scope

namespace Stencil

-- Forgets how the value was written that could not be called.
def RenderError.unnamed : RenderError → RenderError
  | notCallable _ => notCallable ""
  | e => e

-- The loop variables by their slots and by their names.
inductive Binds : List LoopNames → List Value → Env → Prop
  | nil : Binds [] [] []
  | cons {loops slots env names key value} :
    Binds loops slots env →
    Binds (names :: loops) (slots ++ [key, value]) (env.bind names key value)

namespace Binds

variable {loops : List LoopNames} {slots : List Value} {env : Env}

theorem length_eq (h : Binds loops slots env) : slots.length = 2 * loops.length := by
  induction h
  case nil => rfl
  case cons hi =>
    simp [hi]
    omega

theorem isEmpty_eq (h : Binds loops slots env) : env.isEmpty = loops.isEmpty := by
  cases h <;> rfl

theorem fields_eq (h : Binds loops slots env) :
    env.fields =
      (Scope.namesOf loops).map fun (name, n) => (name, slots[n]?.getD .undefined) := by
  induction h
  case nil => rfl
  case cons loops slots env names key value h hi =>
    have hl := h.length_eq
    have hm : ∀ entry ∈ Scope.namesOf loops,
        (entry.1, (slots ++ [key, value])[entry.2]?.getD .undefined) =
          (entry.1, slots[entry.2]?.getD .undefined) := by
      intro entry he
      rw [List.getElem?_append_left (hl ▸ Scope.lt_of_mem_namesOf he)]
    simp only [Env.fields, Env.bind, List.reverse_cons, Scope.namesOf, List.map_append] at hi ⊢
    rw [hi, List.map_congr_left hm]
    simp [←hl]

theorem get?_eq (h : Binds loops slots env) (x : String) :
    env.get? x = (Scope.slotIn? x loops).map (slots[·]?.getD .undefined) :=
  calc
    env.get? x = Fields.get? env.fields.reverse x := by simp [Env.get?, Env.fields]
    _ = _ := by
      rw [h.fields_eq]
      exact Scope.get?_namesOf fun n => slots[n]?.getD .undefined

end Binds

namespace Eval

variable {σ α β α' β' : Type} {P Q Q' : List Value → Prop} {R : α → β → Prop}
  {R' : α' → β' → Prop}

-- An evaluation and a meaning have come out alike. The slots are left in `Q` by a success.
inductive Agrees (Q : List Value → Prop) (R : α → β → Prop) :
    Except RenderError α × State σ → Except RenderError β × σ → Prop
  | ok {a b s} : R a b → Q s.frame.slots → Agrees Q R (.ok a, s) (.ok b, s.store)
  | error {e e' s} : e.unnamed = e'.unnamed → Agrees Q R (.error e, s) (.error e', s.store)

-- Whatever the store is, and with slots in `P`, the evaluation comes out as the meaning does.
def Simulates (P Q : List Value → Prop) (R : α → β → Prop) (x : Eval σ α) (y : Meaning σ β) :
    Prop :=
  ∀ s : State σ, P s.frame.slots → Agrees Q R (x s) (y s.store)

namespace Simulates

variable {x : Eval σ α} {y : Meaning σ β} {f : α → Eval σ α'} {g : β → Meaning σ β'}

theorem pure {a : α} {b : β} (h : R a b) :
    Simulates P P R (pure a : Eval σ α) (pure b : Meaning σ β) :=
  fun _ hp => .ok h hp

theorem fail {e e' : RenderError} (h : e.unnamed = e'.unnamed) :
    Simulates P Q R (Act.fail e : Eval σ α) (Act.fail e' : Meaning σ β) :=
  fun _ _ => .error h

theorem bind (hx : Simulates P Q R x y)
    (hf : ∀ a b, R a b → Simulates Q Q' R' (f a) (g b)) :
    Simulates P Q' R' (x >>= f) (y >>= g) := by
  intro s hp
  have h := hx s hp
  simp only [Bind.bind, Act.andThen]
  generalize x s = r at h
  generalize y s.store = r' at h
  cases h
  case ok a b s h hq => exact hf a b h s hq
  case error h => exact .error h

theorem onFrame {F : Frame → Frame} {k : Unit → Eval σ α}
    (hF : ∀ f, P f.slots → Q (F f).slots) (h : Simulates Q Q' R (k ()) y) :
    Simulates P Q' R (Eval.onFrame F >>= k) y :=
  fun s hp => h _ (hF s.frame hp)

theorem ofExcept (r : Except RenderError α) :
    Simulates P P Eq (Act.ofExcept r : Eval σ α) (Act.ofExcept r : Meaning σ α) := by
  intro s hp
  cases r
  case ok => exact .ok rfl hp
  case error => exact .error rfl

theorem tryOnStore (y : Meaning σ α) : Simulates P P Eq (Eval.tryOnStore y) y := by
  intro s hp
  rcases h : y s.store with ⟨_ | _, store⟩ <;> simp only [Eval.tryOnStore, h]
  case error => exact .error (s := { s with store }) rfl
  case ok => exact .ok (s := { s with store }) rfl hp

end Simulates

theorem simulates_newArray {host : Host σ} {vs : List Value} :
    Simulates P P Eq (newArray host vs) (Meaning.newArray host vs) :=
  .bind (.tryOnStore (Meaning.fresh host)) fun _ _ h => h ▸ .pure rfl

theorem simulates_newObject {host : Host σ} {fields : List (String × Value)} :
    Simulates P P Eq (newObject host fields) (Meaning.newObject host fields) :=
  .bind (.tryOnStore (Meaning.fresh host)) fun _ _ h => h ▸ .pure rfl

section

variable {host : Host σ} {input : Input}

theorem simulates_call {callee : Code} {arguments : List Code} {y : Meaning σ Value}
    {z : Meaning σ (List Value)} (hf : Simulates P Q Eq (eval host input callee) y)
    (ha : Simulates Q Q' Eq (evalAll host input arguments) z) :
    Simulates P Q' Eq (eval host input (.call callee arguments)) (do
      let f ← y
      Meaning.call host f (← z)) := by
  refine hf.bind fun f _ hf => ha.bind fun _ _ ha => ?_
  subst hf ha
  cases f
  case function f => exact .tryOnStore _
  all_goals exact .fail rfl

variable {s : Scope} {slots : List Value} {env : Env}

theorem simulates_resolve (h : Binds s.loops slots env) (x : String) :
    Simulates (· = slots) (· = slots) Eq (eval host input (s.resolve x))
      (pure (Meaning.name input env x)) := by
  have hx := h.get?_eq x
  simp only [Scope.resolve, Scope.slot?, Meaning.name]
  cases hs : Scope.slotIn? x s.loops <;> simp only [hs, Option.map_none, Option.map_some] at hx ⊢
  case some n =>
    intro state hp
    exact .ok (by simp [hx, Frame.slot, hp]) hp
  case none =>
    simp only [hx]
    split <;> try split
    all_goals exact .pure rfl

-- The code of an expression computes the value that the expression has by the names of the loop
-- variables. The induction is on the expression; each case binds its parts in the same order.
mutual

theorem simulates_toCode (h : Binds s.loops slots env) : (e : Expr) →
    Simulates (· = slots) (· = slots) Eq (eval host input (e.toCode s))
      (Meaning.expression host input env e)
  | .literal l => .pure rfl
  | .name x => simulates_resolve h x
  | .array items =>
    .bind (simulates_listToCode h items) fun _ _ h => h ▸ simulates_newArray
  | .object entries =>
    .bind (simulates_entriesToCode h entries) fun _ _ h => h ▸ simulates_newObject
  | .member o property => .bind (simulates_toCode h o) fun _ _ h => h ▸ .ofExcept _
  | .index o i =>
    .bind (simulates_toCode h o) fun _ _ ho =>
      .bind (simulates_toCode h i) fun _ _ hi => ho ▸ hi ▸ .ofExcept _
  | .call callee arguments =>
    simulates_call (simulates_toCode h callee) (simulates_listToCode h arguments)
  | .unary op operand => .bind (simulates_toCode h operand) fun _ _ h => h ▸ .pure rfl
  | .binary op lhs rhs =>
    .bind (simulates_toCode h lhs) fun v _ hv => by
      subst hv
      cases op
      case' and => cases v.isTruthy
      case' or => cases v.isTruthy
      case and.false | or.true => exact .pure rfl
      case and.true | or.false => exact simulates_toCode h rhs
      all_goals exact .bind (simulates_toCode h rhs) fun _ _ hr => hr ▸ .pure rfl
  | .cond test consequent alternate =>
    .bind (simulates_toCode h test) fun v _ hv => by
      subst hv
      split
      · exact simulates_toCode h consequent
      · exact simulates_toCode h alternate

theorem simulates_listToCode (h : Binds s.loops slots env) : (es : List Expr) →
    Simulates (· = slots) (· = slots) Eq (evalAll host input (Expr.listToCode s es))
      (Meaning.expressions host input env es)
  | [] => .pure rfl
  | e :: es =>
    .bind (simulates_toCode h e) fun _ _ he =>
      .bind (simulates_listToCode h es) fun _ _ hes => he ▸ hes ▸ .pure rfl

theorem simulates_entriesToCode (h : Binds s.loops slots env) : (entries : List (String × Expr)) →
    Simulates (· = slots) (· = slots) Eq (evalEntries host input (Expr.entriesToCode s entries))
      (Meaning.namedExpressions host input env entries)
  | [] => .pure rfl
  | (_, e) :: entries =>
    .bind (simulates_toCode h e) fun _ _ he =>
      .bind (simulates_entriesToCode h entries) fun _ _ hes => he ▸ hes ▸ .pure rfl

end
end
end Eval
end Stencil
