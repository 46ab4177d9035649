import Stencil.Proofs.Meaning.Preservation

-- What is kept in temporaries and buffers, and in which ones, never shows.
namespace Stencil
namespace Code

mutual

-- The code with one and the same temporary everywhere.
def withoutTemps : Code → Code
  | text s => .text s
  | literal v => .literal v
  | slot n => .slot n
  | ambient name => .ambient name
  | data => .data
  | options => .options
  | array items => .array (withoutTempsAll items)
  | object entries => .object (withoutTempsEntries entries)
  | member o property => .member o.withoutTemps property
  | index o i => .index o.withoutTemps i.withoutTemps
  | call callee arguments => .call callee.withoutTemps (withoutTempsAll arguments)
  | unary op operand => .unary op operand.withoutTemps
  | binary op lhs rhs => .binary op lhs.withoutTemps rhs.withoutTemps
  | cond test consequent alternate =>
    .cond test.withoutTemps consequent.withoutTemps alternate.withoutTemps
  | dethunk _ value => .dethunk ⟨.value, 0⟩ value.withoutTemps
  | each _ first key value container body =>
    .each ⟨.buffer, 0⟩ first key value container.withoutTemps body.withoutTemps
  | invoke d o selector name =>
    .invoke d.withoutTemps o.withoutTemps selector.withoutTemps name
  | merge sources => .merge (withoutTempsAll sources)

def withoutTempsAll : List Code → List Code
  | [] => []
  | c :: cs => c.withoutTemps :: withoutTempsAll cs

def withoutTempsEntries : List (String × Code) → List (String × Code)
  | [] => []
  | (key, c) :: entries => (key, c.withoutTemps) :: withoutTempsEntries entries

end

theorem describe_withoutTemps : (c : Code) → c.withoutTemps.describe = c.describe
  | member o _ => by simp only [withoutTemps, describe, describe_withoutTemps o]
  | index o _ => by simp only [withoutTemps, describe, describe_withoutTemps o]
  | call callee _ => by simp only [withoutTemps, describe, describe_withoutTemps callee]
  | text _ | literal _ | slot _ | ambient _ | data | options | array _ | object _ | unary _ _
  | binary _ _ _ | cond _ _ _ | dethunk _ _ | each _ _ _ _ _ _ | invoke _ _ _ _ | merge _ => rfl

end Code

namespace Eval

variable {σ α β : Type}

-- Two states that differ at most in temporaries and buffers.
structure State.Alike (s s' : State σ) : Prop where
  slots_eq : s.frame.slots = s'.frame.slots
  store_eq : s.store = s'.store

-- Two evaluations whose results depend on the slots and the store only, and in the same way. So
-- does what they leave in them.
def Same (x y : Eval σ α) : Prop :=
  ∀ s s', s.Alike s' → (x s).1 = (y s').1 ∧ (x s).2.Alike (y s').2

abbrev Blind (x : Eval σ α) : Prop :=
  Same x x

namespace Same

variable {x y z : Eval σ α} {f g : α → Eval σ β}

theorem symm (h : Same x y) : Same y x := by
  intro s s' hs
  have ⟨hr, ha⟩ := h s' s ⟨hs.slots_eq.symm, hs.store_eq.symm⟩
  exact ⟨hr.symm, ha.slots_eq.symm, ha.store_eq.symm⟩

theorem trans (h : Same x y) (h' : Same y z) : Same x z := by
  intro s s' hs
  have ⟨hr, ha⟩ := h s s' hs
  have ⟨hr', ha'⟩ := h' s' s' ⟨rfl, rfl⟩
  exact ⟨hr.trans hr', ha.slots_eq.trans ha'.slots_eq, ha.store_eq.trans ha'.store_eq⟩

theorem bind (hx : Same x y) (hf : ∀ a, Same (f a) (g a)) : Same (x >>= f) (y >>= g) := by
  intro s s' h
  obtain ⟨hr, hs⟩ := hx s s' h
  simp only [Bind.bind, Act.andThen]
  generalize x s = r at hr hs
  generalize y s' = r' at hr hs
  obtain ⟨r, s₁⟩ := r
  obtain ⟨r', s₁'⟩ := r'
  cases hr
  cases r
  case error => exact ⟨rfl, hs⟩
  case ok a => exact hf a s₁ s₁' hs

theorem pure {a : α} : Blind (pure a : Eval σ α) :=
  fun _ _ h => ⟨rfl, h⟩

theorem ofExcept {r : Except RenderError α} : Blind (Act.ofExcept r : Eval σ α) :=
  fun _ _ h => ⟨rfl, h⟩

theorem fail {e : RenderError} : Blind (Act.fail e : Eval σ α) :=
  fun _ _ h => ⟨rfl, h⟩

theorem onStore {y : σ → α × σ} : Blind (onStore y) := by
  intro s s' h
  simp only [Eval.onStore, h.store_eq]
  exact ⟨trivial, h.slots_eq, rfl⟩

theorem tryOnStore {y : σ → Except RenderError α × σ} : Blind (tryOnStore y) := by
  intro s s' h
  simp only [Eval.tryOnStore, h.store_eq]
  exact ⟨trivial, h.slots_eq, rfl⟩

theorem onFrame {F G : Frame → Frame}
    (h : ∀ f f', f.slots = f'.slots → (F f).slots = (G f').slots) :
    Same (onFrame F : Eval σ Unit) (onFrame G) :=
  fun _ _ hs => ⟨rfl, h _ _ hs.slots_eq, hs.store_eq⟩

theorem clearBuffer {m n : Nat} :
    Same (Eval.onFrame (Frame.clearBuffer m) : Eval σ Unit) (Eval.onFrame (Frame.clearBuffer n)) :=
  onFrame fun _ _ h => h

theorem slot {n : Nat} : Blind (do return (← Act.get).frame.slot n : Eval σ Value) := by
  intro s s' h
  refine ⟨?_, h⟩
  simp only [Bind.bind, Act.andThen, Act.get, Act.pure_apply, Frame.slot, h.slots_eq]

theorem rounds {n : Nat} {body body' : Eval σ Value} (hb : Same body body')
    (pairs : List (Value × Value)) (b : Buffer) :
    Same (rounds n body pairs b) (Eval.rounds n body' pairs b) := by
  induction pairs generalizing b
  case nil => exact pure
  case cons pair pairs hi =>
    refine (onFrame fun f f' h => ?_).bind fun _ => hb.bind fun _ => hi _
    simp only [Frame.bind, h]

variable {host : Host σ} {input : Input}

-- A temporary is read right after it has been written.
theorem dethunk {m n : Nat} {v : Value} :
    Same (dethunk host input m v) (Eval.dethunk host input n v) := by
  intro s s' h
  simp only [Eval.dethunk, Bind.bind, Act.andThen, Eval.onFrame, Act.modify, Act.get,
    Frame.value_putValue]
  cases v
  case function f => exact tryOnStore ⟨_, s.store⟩ ⟨_, s'.store⟩ ⟨h.slots_eq, h.store_eq⟩
  all_goals exact ⟨rfl, h.slots_eq, h.store_eq⟩

theorem newArray {items : List Value} : Blind (newArray host items) :=
  onStore.bind fun _ => pure

theorem newObject {fields : List (String × Value)} : Blind (newObject host fields) :=
  onStore.bind fun _ => pure

theorem call {v : Value} {arguments : List Value} {description : String} :
    Blind (match v with
      | .function f => Eval.tryOnStore (host.call f arguments)
      | _ => Act.fail (.notCallable description)) := by
  cases v
  case function f => exact tryOnStore
  all_goals exact fail

end Same

-- The induction is on the code. Each case does the same twice, but for the temporary of a node.
mutual

theorem eval_withoutTemps (host : Host σ) (input : Input) : (c : Code) →
    Same (eval host input c) (eval host input c.withoutTemps)
  | .text _ | .literal _ | .ambient _ | .data | .options => .pure
  | .slot n => .slot
  | .array items => (evalAll_withoutTemps host input items).bind fun _ => .newArray
  | .object entries => (evalEntries_withoutTemps host input entries).bind fun _ => .newObject
  | .member o _ => (eval_withoutTemps host input o).bind fun _ => .ofExcept
  | .index o i =>
    (eval_withoutTemps host input o).bind fun _ => (eval_withoutTemps host input i).bind fun _ =>
      .ofExcept
  | .call callee arguments => by
    refine (eval_withoutTemps host input callee).bind fun _ => ?_
    refine (evalAll_withoutTemps host input arguments).bind fun _ => ?_
    rw [Code.describe_withoutTemps]
    exact .call
  | .unary _ operand => (eval_withoutTemps host input operand).bind fun _ => .pure
  | .binary op lhs rhs => by
    refine (eval_withoutTemps host input lhs).bind fun v => ?_
    split
    case h_1 | h_2 => exact .pure
    case h_3 | h_4 => exact eval_withoutTemps host input rhs
    case h_5 => exact (eval_withoutTemps host input rhs).bind fun _ => .pure
  | .cond test consequent alternate => by
    refine (eval_withoutTemps host input test).bind fun v => ?_
    split
    case isTrue => exact eval_withoutTemps host input consequent
    case isFalse => exact eval_withoutTemps host input alternate
  | .dethunk _ value => (eval_withoutTemps host input value).bind fun _ => .dethunk
  | .each _ slot _ _ container body => by
    rw [Code.withoutTemps, eval_each, eval_each]
    refine (eval_withoutTemps host input container).bind fun v => Same.clearBuffer.bind fun _ => ?_
    refine (Same.rounds (eval_withoutTemps host input body) _ _).bind fun _ => ?_
    refine (Same.onFrame fun _ _ h => ?_).bind fun _ => Same.clearBuffer.bind fun _ => .pure
    simp only [Frame.truncate, h]
  | .invoke d o selector _ =>
    (eval_withoutTemps host input d).bind fun _ => (eval_withoutTemps host input o).bind fun _ =>
      (eval_withoutTemps host input selector).bind fun _ => Same.tryOnStore.bind fun _ => .pure
  | .merge sources =>
    (evalAll_withoutTemps host input sources).bind fun _ => Same.onStore.bind fun _ => .newObject

theorem evalAll_withoutTemps (host : Host σ) (input : Input) : (cs : List Code) →
    Same (evalAll host input cs) (evalAll host input (Code.withoutTempsAll cs))
  | [] => .pure
  | c :: cs =>
    (eval_withoutTemps host input c).bind fun _ =>
      (evalAll_withoutTemps host input cs).bind fun _ => .pure

theorem evalEntries_withoutTemps (host : Host σ) (input : Input) :
    (entries : List (String × Code)) →
    Same (evalEntries host input entries)
      (evalEntries host input (Code.withoutTempsEntries entries))
  | [] => .pure
  | (_, c) :: entries =>
    (eval_withoutTemps host input c).bind fun _ =>
      (evalEntries_withoutTemps host input entries).bind fun _ => .pure

end

theorem same_eval (host : Host σ) (input : Input) {c c' : Code}
    (h : c.withoutTemps = c'.withoutTemps) : Same (eval host input c) (eval host input c') :=
  (eval_withoutTemps host input c).trans (h ▸ (eval_withoutTemps host input c').symm)

theorem blind_eval (host : Host σ) (input : Input) (c : Code) : Blind (eval host input c) :=
  same_eval host input rfl

-- Codes that differ in temporaries only give the same result or error, ask the host for the same
-- and leave the same in the slots, whatever is in the temporaries and buffers before, and however
-- many of them there are.
theorem temporaries_unobservable {σ : Type} (host : Host σ) (input : Input) {c c' : Code}
    (hc : c.withoutTemps = c'.withoutTemps) {frame frame' : Frame}
    (hf : frame.slots = frame'.slots) (store : σ) :
    (let r := eval host input c ⟨frame, store⟩
      let r' := eval host input c' ⟨frame', store⟩
      r.1 = r'.1 ∧ r.2.frame.slots = r'.2.frame.slots ∧ r.2.store = r'.2.store) ∧
    (eval host.recorded input c ⟨frame, store, []⟩).2.store.2 =
      (eval host.recorded input c' ⟨frame', store, []⟩).2.store.2 := by
  have ⟨hr, hs⟩ := same_eval host input hc ⟨frame, store⟩ ⟨frame', store⟩ ⟨hf, rfl⟩
  have ⟨_, hs'⟩ :=
    same_eval host.recorded input hc ⟨frame, store, []⟩ ⟨frame', store, []⟩ ⟨hf, rfl⟩
  exact ⟨⟨hr, hs.slots_eq, hs.store_eq⟩, congrArg Prod.snd hs'.store_eq⟩

-- Both loops use one buffer, and both substitutions one temporary.
theorem temporaries_unobservable_shared :
    let c : Code := .each ⟨.buffer, 0⟩ 0 "k" "v" (.ambient "xs")
      (.each ⟨.buffer, 0⟩ 2 "i" "x" (.slot 1) (.dethunk ⟨.value, 7⟩ (.dethunk ⟨.value, 7⟩
        (.ambient "f"))))
    let c' : Code := .each ⟨.buffer, 0⟩ 0 "k" "v" (.ambient "xs")
      (.each ⟨.buffer, 1⟩ 2 "i" "x" (.slot 1) (.dethunk ⟨.value, 2⟩ (.dethunk ⟨.value, 3⟩
        (.ambient "f"))))
    let frame : Frame := ⟨[.null], [], []⟩
    let frame' : Frame := ⟨[.null], [.bool true], [["a"], ["b", "c"]]⟩
    let input : Input := ⟨.object 0 [("xs", .array 1 [.array 2 [.null, .null]]),
      ("f", .function ⟨3, "f"⟩)], .undefined⟩
    let store : Store := ⟨4, [(3, .trace "t" (.string "d"))], [], []⟩
    let host := Template.host Store.services .empty 1
    c.withoutTemps = c'.withoutTemps ∧ frame.slots = frame'.slots ∧
      (eval host input c ⟨frame, store⟩).1 = .ok (.string "dd") ∧
      (eval host input c ⟨frame, store⟩).1 = (eval host input c' ⟨frame', store⟩).1 ∧
      (eval host.recorded input c ⟨frame, store, []⟩).2.store.2 =
        (eval host.recorded input c' ⟨frame', store, []⟩).2.store.2 := by
  have h := @temporaries_unobservable _ (Template.host Store.services .empty 1)
    ⟨.object 0 [("xs", .array 1 [.array 2 [.null, .null]]), ("f", .function ⟨3, "f"⟩)], .undefined⟩
    (.each ⟨.buffer, 0⟩ 0 "k" "v" (.ambient "xs") (.each ⟨.buffer, 0⟩ 2 "i" "x" (.slot 1)
      (.dethunk ⟨.value, 7⟩ (.dethunk ⟨.value, 7⟩ (.ambient "f")))))
    (.each ⟨.buffer, 0⟩ 0 "k" "v" (.ambient "xs") (.each ⟨.buffer, 1⟩ 2 "i" "x" (.slot 1)
      (.dethunk ⟨.value, 2⟩ (.dethunk ⟨.value, 3⟩ (.ambient "f"))))) rfl
    ⟨[.null], [], []⟩ ⟨[.null], [.bool true], [["a"], ["b", "c"]]⟩ rfl
    ⟨4, [(3, .trace "t" (.string "d"))], [], []⟩
  exact ⟨rfl, rfl, rfl, h.1.1, h.2⟩

end Eval
end Stencil
