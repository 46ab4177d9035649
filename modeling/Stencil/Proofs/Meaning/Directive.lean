import Stencil.Proofs.Meaning.Simulation
import Stencil.Proofs.Propagation

namespace Stencil

variable {σ : Type}

namespace Meaning

variable (x y z : Meaning σ String)

@[simp]
theorem pure_concat : concat (pure "") x = x := by
  simp only [concat, pure_bind, String.empty_append, bind_pure]

@[simp]
theorem concat_pure : concat x (pure "") = x := by
  simp [concat]

theorem concat_assoc : concat (concat x y) z = concat x (concat y z) := by
  simp only [concat, bind_assoc, pure_bind, String.append_assoc]

end Meaning

namespace Frame

theorem getElem?_place {α : Type} (missing : α) (xs : List α) (i : Nat) (x : α) :
    (place missing xs i x)[i]? = some x := by
  have h : i < (xs ++ List.replicate (i + 1 - xs.length) missing).length := by
    simp
    omega
  simp only [place, List.getElem?_set_self h]

theorem value_putValue (f : Frame) (depth : Nat) (v : Value) :
    (f.putValue depth v).value depth = v := by
  simp [putValue, value, getElem?_place]

def clearBuffer (depth : Nat) : Frame → Frame :=
  putBuffer depth []

end Frame

namespace Buffer

-- The pieces are those of `b` and more, which make up a text.
def Adds (b pieces : Buffer) (text : String) : Prop :=
  String.join pieces = String.join b ++ text

theorem Adds.of_push {b pieces : Buffer} {s text : String} (h : (b.push s).Adds pieces text) :
    b.Adds pieces (s ++ text) := by
  rw [Adds, h, push, String.join_append, String.append_assoc]
  rfl

end Buffer

-- What is in the buffer before a loop never matters, and nothing is in it after the loop.
theorem Eval.eval_each (host : Host σ) (input : Input) (buffer : Temp) (slot : Nat)
    (key value : String) (container body : Code) :
    eval host input (.each buffer slot key value container body) = do
      let v ← eval host input container
      onFrame (Frame.clearBuffer buffer.depth)
      let pieces ← rounds slot (eval host input body) (host.pairs v) []
      onFrame (Frame.truncate slot)
      onFrame (Frame.clearBuffer buffer.depth)
      return .string (String.join pieces) := by
  simp only [eval, takeBuffer, bind_assoc, pure_bind, Buffer.clear]
  rfl

namespace Value

def IsText (v : Value) (s : String) : Prop :=
  v = .string s

def Prints (v : Value) (s : String) : Prop :=
  v.text = s

variable {v w : Value} {s t : String}

theorem IsText.prints (h : v.IsText s) : v.Prints s := by
  cases h
  simp only [Prints, text]

theorem IsText.add (hv : v.IsText s) (hw : w.Prints t) : (v.add w).IsText (s ++ t) := by
  have hs := hv.prints
  cases hv
  simp only [IsText, Value.add, primitive, isCompound, isString]
  simp [Prints] at hs hw
  simp [hs, hw]

end Value

namespace Eval

variable {β : Type} {host : Host σ} {input : Input} {P Q : List Value → Prop}

namespace Simulates

variable {α α' : Type} {R : α → β → Prop} {R' : α' → β → Prop} {P' Q' : List Value → Prop}
  {x : Eval σ α} {y : Meaning σ β}

theorem mono (h : Simulates P Q R x y) (hp : ∀ slots, P' slots → P slots)
    (hq : ∀ slots, Q slots → Q' slots) : Simulates P' Q' R x y := by
  intro s hs
  have h := h s (hp _ hs)
  generalize x s = r at h
  generalize y s.store = r' at h
  cases h
  case ok h hs => exact .ok h (hq _ hs)
  case error h => exact .error h

theorem bind_left {f : α → Eval σ α'} (h : Simulates P Q R x y)
    (hf : ∀ a b, R a b → Simulates Q Q' R' (f a) (Pure.pure b : Meaning σ β)) :
    Simulates P Q' R' (x >>= f) y := by
  have h := h.bind hf
  rwa [bind_pure] at h

end Simulates

-- With the loop variables in their slots, the code computes what the meaning has by their names.
def Means (host : Host σ) (input : Input) (loops : List LoopNames) (R : Value → β → Prop)
    (code : Code) (y : Env → Meaning σ β) : Prop :=
  ∀ slots env, Binds loops slots env →
    Simulates (· = slots) (· = slots) R (eval host input code) (y env)

theorem eval_join (lhs rhs : Code) :
    eval host input (Compile.join lhs rhs) = eval host input (.concat lhs rhs) := by
  unfold Compile.join
  split
  case h_1 s t =>
    have h : Value.add (.string s) (.string t) = .string (s ++ t) :=
      Value.IsText.add rfl (Value.IsText.prints rfl)
    exact congrArg pure h.symm
  case h_2 => rfl

theorem simulates_dethunk {depth : Nat} {v : Value} :
    Simulates P P Eq (dethunk host input depth v) (Meaning.dethunk host input v) := by
  intro s hp
  simp only [dethunk, bind, Act.andThen, onFrame, Act.modify, Act.get, Frame.value_putValue]
  cases v
  case function f => exact Simulates.tryOnStore _ ⟨_, s.store⟩ hp
  all_goals exact .ok (s := ⟨_, s.store⟩) rfl hp

theorem simulates_single {code : Code} {y : Meaning σ Value}
    (h : Simulates P Q Eq (eval host input code) y) :
    Simulates P Q Eq (evalAll host input [code]) (do return [← y]) :=
  h.bind fun _ _ hv => .pure (congrArg ([·]) hv)

theorem simulates_merge (host : Host σ) {vs ws : List Value} (h : vs = ws) :
    Simulates P P Eq (do newObject host (← onStore (host.merge vs)))
      (do Meaning.newObject host (← Meaning.merge host ws)) :=
  h ▸ .bind (.tryOnStore (Meaning.merge host vs)) fun _ _ h => h ▸ simulates_newObject

-- What a selector stands for if it is the bare name of a template.
def Selects (name : Option String) (v w : Value) : Prop :=
  (match name with
    | some name => if v.isNullish then .string name else v
    | none => v) = w

theorem selects_none : Selects none = Eq :=
  rfl

namespace Means

variable {loops : List LoopNames} {R : Value → β → Prop} {code : Code} {y : Env → Meaning σ β}

theorem mono {R' : Value → β → Prop} (h : Means host input loops R code y)
    (hr : ∀ v b, R v b → R' v b) : Means host input loops R' code y := by
  intro slots env hb
  have hs := (h slots env hb).bind_left fun a b hab => .pure (hr a b hab)
  rwa [bind_pure] at hs

theorem empty : Means host input loops Value.IsText .empty fun _ => pure "" :=
  fun _ _ _ => .pure rfl

theorem prints {y : Env → Meaning σ Value} (h : Means host input loops Eq code y) :
    Means host input loops Value.Prints code fun env => do return (← y env).text := by
  intro slots env hb
  have hs : Simulates _ _ Value.Prints _ _ :=
    (h slots env hb).bind fun v _ hv => .pure (congrArg Value.text hv)
  rwa [bind_pure] at hs

theorem concat {lhs rhs : Code} {y z : Env → Meaning σ String}
    (hl : Means host input loops Value.IsText lhs y)
    (hr : Means host input loops Value.Prints rhs z) :
    Means host input loops Value.IsText (.concat lhs rhs)
      (fun env => Meaning.concat (y env) (z env)) :=
  fun slots env hb =>
    (hl slots env hb).bind fun _ _ hv =>
      (hr slots env hb).bind fun _ _ hw => .pure (hv.add hw)

theorem cond {test consequent alternate : Code} {x : Env → Meaning σ Value}
    {y z : Env → Meaning σ String} (ht : Means host input loops Eq test x)
    (hc : Means host input loops Value.IsText consequent y)
    (ha : Means host input loops Value.IsText alternate z) :
    Means host input loops Value.IsText (.cond test consequent alternate) (fun env => do
      if (← x env).isTruthy then y env else z env) := by
  intro slots env hb
  refine (ht slots env hb).bind fun v _ hv => ?_
  subst hv
  split
  · exact hc slots env hb
  · exact ha slots env hb

theorem call {callee argument : Code} {y z : Env → Meaning σ Value}
    (hf : Means host input loops Eq callee y) (ha : Means host input loops Eq argument z) :
    Means host input loops Eq (.call callee [argument]) (fun env => do
      let f ← y env
      let v ← z env
      Meaning.call host f [v]) := by
  intro slots env hb
  have h := simulates_call (hf slots env hb) (simulates_single (ha slots env hb))
  simpa only [bind_assoc, pure_bind] using h

theorem dethunk {temp : Temp} {y : Env → Meaning σ Value} (h : Means host input loops Eq code y) :
    Means host input loops Eq (.dethunk temp code) (fun env => do
      Meaning.dethunk host input (← y env)) := by
  intro slots env hb
  refine (h slots env hb).bind fun v _ hv => ?_
  subst hv
  exact simulates_dethunk

-- The slots of a loop hold the pair of the round at hand, and those below them stay as they are.
theorem rounds {names : LoopNames} {body : Code} {y : Env → Meaning σ String} {slots : List Value}
    {env : Env} (h : Means host input (names :: loops) Value.IsText body y)
    (hb : Binds loops slots env) (pairs : List (Value × Value)) (b : Buffer) :
    Simulates (slots <+: ·) (slots <+: ·) b.Adds
      (Eval.rounds slots.length (eval host input body) pairs b)
      (Meaning.rounds (fun key value => y (env.bind names key value)) pairs) := by
  induction pairs generalizing b
  case nil => exact .pure String.append_empty.symm
  case cons pair pairs hi =>
    obtain ⟨key, value⟩ := pair
    have hr : Simulates (· = slots ++ [key, value]) (slots <+: ·) _ _ _ :=
      (h _ _ hb.cons).mono (fun _ h => h) fun _ hs => hs ▸ List.prefix_append ..
    refine .onFrame (fun f hf => ?_) (hr.bind fun v text hv => ?_)
    · simp [Frame.bind, ←List.prefix_iff_eq_take.mp hf]
    · have hs : Simulates (slots <+: ·) (slots <+: ·) b.Adds _ _ :=
        (hi (b.push v.text)).bind (f := pure) fun _ rest ha => .pure (b := text ++ rest)
          (hv.prints ▸ ha.of_push)
      rwa [bind_pure] at hs

theorem each {s : Scope} {buffer : Temp} {key value : String} {names : LoopNames}
    {container body : Code} {x : Env → Meaning σ Value} {y : Env → Meaning σ String}
    (hc : Means host input s.loops Eq container x)
    (h : Means host input (names :: s.loops) Value.IsText body y) :
    Means host input s.loops Value.IsText (.each buffer s.slotCount key value container body)
      (fun env => do
        let v ← x env
        Meaning.rounds (fun key value => y (env.bind names key value)) (host.pairs v)) := by
  intro slots env hb
  have hn : s.slotCount = slots.length := hb.length_eq.symm
  rw [eval_each, hn]
  refine (hc slots env hb).bind fun v _ hv => ?_
  subst hv
  refine .onFrame (Q := (slots <+: ·))
    (by simp +contextual [Frame.clearBuffer, Frame.putBuffer]) ?_
  refine (h.rounds hb (host.pairs v) []).bind_left fun _ _ ho => ?_
  refine .onFrame (Q := (· = slots)) (fun f hf => (List.prefix_iff_eq_take.mp hf).symm) ?_
  exact .onFrame (fun _ h => h) (.pure (congrArg Value.string (ho.trans String.empty_append)))

theorem passedData {s : Scope} :
    Means host input s.loops Eq (Compile.passedData s) (Meaning.passedData host input) := by
  intro slots env hb
  simp only [Compile.passedData, Meaning.passedData, hb.isEmpty_eq]
  split
  case isTrue => exact .pure rfl
  case isFalse =>
    have ho : Simulates (· = slots) (· = slots) Eq
        (eval host input (.object (s.names.map fun entry => (entry.1, .slot entry.2))))
        (Meaning.newObject host (Fields.ofList env.fields)) := by
      intro state hp
      have he :
          eval host input (.object (s.names.map fun entry => (entry.1, .slot entry.2))) state =
            newObject host (Fields.ofList _) state := Act.bind_apply_ok (evalEntries_slots ..)
      rw [he, hb.fields_eq]
      cases hp
      exact simulates_newObject state rfl
    have hs := (simulates_single ho).bind fun _ _ h => .pure (congrArg (input.data :: ·) h)
    have h := hs.bind fun _ _ h => simulates_merge host h
    simpa only [eval, evalAll, bind_assoc, pure_bind] using h

theorem selector {s : Scope} {cs : List Char} {e : Expr} (he : Expr.read cs = .ok e) :
    Means host input s.loops (Selects (Compile.ownName (e.toCode s))) (e.toCode s)
      (fun env => Meaning.selector host input env cs) := by
  intro slots env hb
  have hs : Simulates _ _ _ (eval host input _) _ := simulates_toCode hb e
  simp only [Meaning.selector, Meaning.source, he]
  cases e
  case name x =>
    have hx := hb.get?_eq x
    simp only [Expr.toCode, Scope.resolve, Scope.slot?, Meaning.expression, Meaning.name] at hs ⊢
    cases hn : Scope.slotIn? x s.loops <;> simp only [hn, Option.map_none, Option.map_some] at hx hs
    case some => simpa [hx, Compile.ownName, selects_none] using hs
    case none =>
      by_cases hd : x = "$data"
      case pos => simpa [hd, Compile.ownName, selects_none] using hs
      by_cases ho : x = "$options"
      case pos => simpa [hd, ho, Compile.ownName, selects_none] using hs
      simp only [hx, hd, ho, if_false]
      exact .pure (by simp [Selects, Compile.ownName, hd, ho])
  all_goals exact hs

theorem invoke {d o selector : Code} {name : Option String} {x y z : Env → Meaning σ Value}
    (hd : Means host input loops Eq d x) (ho : Means host input loops Eq o y)
    (hs : Means host input loops (Selects name) selector z) :
    Means host input loops Value.IsText (.invoke d o selector name) (fun env => do
      let d ← x env
      let o ← y env
      let s ← z env
      host.invoke s d o) := by
  intro slots env hb
  refine (hd slots env hb).bind fun _ _ hd => (ho slots env hb).bind fun _ _ ho => ?_
  refine (hs slots env hb).bind fun _ _ hs => ?_
  subst hd ho hs
  exact (Simulates.tryOnStore _).bind_left fun _ _ h => .pure (congrArg Value.string h)

end Means
end Eval
end Stencil
