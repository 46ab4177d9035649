import Stencil.Proofs.Compiling.Occurrence
import Stencil.Proofs.Meaning.Directive

-- What is in the frame while a template is rendered, and that nothing is left in it.
namespace Stencil
namespace Code

variable {m d : Nat} {c c' : Code}

-- All nodes of a code that is inside of `d` loop bodies fit where they are, and none is inside of
-- more than `m`.
def AllFit (m d : Nat) (c : Code) : Prop :=
  ∀ (k : Nat) (n : Code), n.Occurs k c → n.Fits (d + k) ∧ d + k ≤ m

namespace AllFit

theorem fits (h : c.AllFit m d) : c.Fits d :=
  (h 0 c .self).1

theorem le (h : c.AllFit m d) : d ≤ m :=
  (h 0 c .self).2

theorem depth_le {t : Temp} (h : c.AllFit m d) (ht : c.temp? = some t) : t.depth ≤ m := by
  have hf := h.fits
  cases c <;> cases ht
  case dethunk => exact hf ▸ h.le
  case each => exact hf.1 ▸ h.le

theorem operand (h : c.AllFit m d) (hc : c' ∈ c.operands) : c'.AllFit m d :=
  fun k n hn => h k n (.operand hc hn)

theorem body (h : c.AllFit m d) (hc : c' ∈ c.loopBody?) : c'.AllFit m (d + 1) := by
  intro k n hn
  have h := h (k + 1) n (.body hc hn)
  rwa [←Nat.add_assoc, Nat.add_right_comm] at h

end AllFit
end Code

namespace Frame

-- The frame of a code inside of `d` loop bodies, before and after it is evaluated. There is room
-- for the temporaries and the buffers of all depths up to `m`, and nothing is in them.
structure Clean (m d : Nat) (f : Frame) : Prop where
  length_slots : f.slots.length = 2 * d
  values_eq : f.values = List.replicate (m + 1) .undefined
  buffers_eq : f.buffers = List.replicate (m + 1) []

-- The frame inside of further loop bodies, for one round of each of the loops.
def extend (pairs : List (Value × Value)) (f : Frame) : Frame :=
  { f with slots := f.slots ++ pairs.flatMap fun pair => [pair.1, pair.2] }

-- A frame with further slots.
def Extends (f g : Frame) : Prop :=
  ∃ slots, g = { f with slots := f.slots ++ slots }

-- A temporary is there already, so that the frame does not grow when it is used.
def HasRoom (f : Frame) (t : Temp) : Prop :=
  match t.kind with
  | .value => t.depth < f.values.length
  | .buffer => t.depth < f.buffers.length

theorem hasRoom_value {f : Frame} {i : Nat} : f.HasRoom ⟨.value, i⟩ ↔ i < f.values.length :=
  .rfl

theorem hasRoom_buffer {f : Frame} {i : Nat} : f.HasRoom ⟨.buffer, i⟩ ↔ i < f.buffers.length :=
  .rfl

theorem place_eq_set {α : Type} {missing x : α} {xs : List α} {i : Nat} (h : i < xs.length) :
    place missing xs i x = xs.set i x := by
  have hz : i + 1 - xs.length = 0 := by omega
  rw [place, hz, List.replicate_zero, List.append_nil]

theorem length_values_putValue {f : Frame} {i : Nat} (h : i < f.values.length) (v : Value) :
    (f.putValue i v).values.length = f.values.length := by
  rw [putValue, place_eq_set h, List.length_set]

theorem clean_start (m : Nat) : (start m).Clean m 0 :=
  ⟨rfl, rfl, rfl⟩

theorem length_slots_extend (pairs : List (Value × Value)) (f : Frame) :
    (f.extend pairs).slots.length = f.slots.length + 2 * pairs.length := by
  simp [extend, List.map_const', Nat.mul_comm]

theorem extend_extend (pairs pairs' : List (Value × Value)) (f : Frame) :
    (f.extend pairs).extend pairs' = f.extend (pairs ++ pairs') := by
  simp [extend]

namespace Clean

variable {m d i : Nat} {f g : Frame}

theorem length_values (h : f.Clean m d) : f.values.length = m + 1 := by
  rw [h.values_eq, List.length_replicate]

theorem length_buffers (h : f.Clean m d) : f.buffers.length = m + 1 := by
  rw [h.buffers_eq, List.length_replicate]

theorem extend (h : f.Clean m d) (pairs : List (Value × Value)) :
    (f.extend pairs).Clean m (d + pairs.length) := by
  refine ⟨?_, h.values_eq, h.buffers_eq⟩
  rw [length_slots_extend, h.length_slots, Nat.mul_add]

theorem putValue (h : f.Clean m d) (hi : i ≤ m) (v : Value) :
    (f.putValue i v).putValue i .undefined = f := by
  have hl : i < f.values.length := by
    rw [h.length_values]
    omega
  have hl' : i < (f.putValue i v).values.length := by rwa [length_values_putValue hl]
  rw [Frame.putValue, place_eq_set hl', Frame.putValue, place_eq_set hl, List.set_set, h.values_eq,
    List.set_replicate_self, ←h.values_eq]

theorem clearBuffer (h : f.Clean m d) (hi : i ≤ m) : f.clearBuffer i = f := by
  have hl : i < f.buffers.length := by
    rw [h.length_buffers]
    omega
  rw [Frame.clearBuffer, putBuffer, place_eq_set hl, h.buffers_eq, List.set_replicate_self,
    ←h.buffers_eq]

theorem bind (h : f.Clean m d) (hg : f.Extends g) (key value : Value) :
    g.bind (2 * d) key value = f.extend [(key, value)] := by
  obtain ⟨slots, rfl⟩ := hg
  simp [Frame.bind, Frame.extend, ←h.length_slots]

theorem truncate (h : f.Clean m d) (hg : f.Extends g) : g.truncate (2 * d) = f := by
  obtain ⟨slots, rfl⟩ := hg
  simp [Frame.truncate, ←h.length_slots]

end Clean
end Frame

namespace Eval

variable {σ α β : Type} {host : Host σ} {input : Input} {m d : Nat} {f : Frame}

-- The frame is the same again once an evaluation has succeeded.
def Restores (f : Frame) (x : Eval σ α) : Prop :=
  Act.Triple (fun s => s.frame = f) x fun _ s => s.frame = f

namespace Restores

theorem bind {x : Eval σ α} {k : α → Eval σ β} (hx : Restores f x) (hk : ∀ a, Restores f (k a)) :
    Restores f (x >>= k) :=
  Act.Triple.bind hx hk

theorem pure {a : α} : Restores f (pure a : Eval σ α) :=
  Act.Triple.pure fun _ h => h

theorem fail {e : RenderError} : Restores f (Act.fail e : Eval σ α) :=
  Act.Triple.fail

theorem ofExcept {r : Except RenderError α} : Restores f (Act.ofExcept r : Eval σ α) := by
  intro s a s' hs h
  cases h
  exact hs

theorem onStore {x : σ → α × σ} : Restores f (onStore x) := by
  intro s a s' hs h
  cases h
  exact hs

theorem tryOnStore {x : σ → Except RenderError α × σ} : Restores f (tryOnStore x) := by
  intro s a s' hs h
  cases congrArg Prod.snd h
  exact hs

theorem slot {n : Nat} : Restores f (do return (← Act.get).frame.slot n : Eval σ Value) := by
  intro s a s' hs h
  cases h
  exact hs

theorem newArray {items : List Value} : Restores f (newArray host items) :=
  onStore.bind fun _ => pure

theorem newObject {fields : List (String × Value)} : Restores f (newObject host fields) :=
  onStore.bind fun _ => pure

theorem call {v : Value} {arguments : List Value} {description : String} :
    Restores f (match v with
      | .function g => Eval.tryOnStore (host.call g arguments)
      | _ => Act.fail (.notCallable description)) := by
  cases v
  case function => exact tryOnStore
  all_goals exact fail

-- The temporary is empty again before the function is called.
theorem dethunk {i : Nat} (hf : f.Clean m d) (hi : i ≤ m) (v : Value) :
    Restores f (dethunk host input i v) := by
  intro s a s' hs h
  simp only [Eval.dethunk, Bind.bind, Act.andThen, Eval.onFrame, Act.modify, Act.get,
    Frame.value_putValue, hs, hf.putValue hi] at h
  cases v
  case function => exact tryOnStore ⟨f, s.store⟩ a s' rfl h
  all_goals
    cases h
    rfl

-- The induction is on the rounds. Each of them drops what the one before it has bound.
theorem rounds {body : Eval σ Value} (hf : f.Clean m d)
    (hb : ∀ pair, Restores (f.extend [pair]) body) (pairs : List (Value × Value)) (b : Buffer) :
    Act.Triple (fun s => f.Extends s.frame) (rounds (2 * d) body pairs b)
      fun _ s => f.Extends s.frame := by
  induction pairs generalizing b
  case nil => exact Act.Triple.pure fun _ h => h
  case cons pair pairs hi =>
    obtain ⟨key, value⟩ := pair
    have hk : Act.Triple (fun s : State σ => f.Extends s.frame)
        (onFrame (Frame.bind (2 * d) key value))
        fun _ s => s.frame = f.extend [(key, value)] := by
      intro s a s' hs h
      cases h
      exact hf.bind hs key value
    refine hk.bind fun _ => Act.Triple.bind (hb (key, value)) fun _ => ?_
    exact (hi _).weaken (fun _ h => ⟨_, h⟩) fun _ _ h => h

-- A loop leaves the slots after those of the loops around it, and its buffer empty.
theorem each {buffer : Temp} {key value : String} {container body : Code} (hf : f.Clean m d)
    (hd : buffer.depth ≤ m) (hc : Restores f (eval host input container))
    (hb : ∀ pair, Restores (f.extend [pair]) (eval host input body)) :
    Restores f (eval host input (.each buffer (2 * d) key value container body)) := by
  have hs : Act.Triple (fun s : State σ => s.frame = f) (onFrame (Frame.clearBuffer buffer.depth))
      fun _ s => f.Extends s.frame := by
    intro s a s' hs h
    cases h
    exact ⟨[], by simp [hs, hf.clearBuffer hd]⟩
  have ht : Act.Triple (fun s : State σ => f.Extends s.frame) (onFrame (Frame.truncate (2 * d)))
      fun _ s => s.frame = f := by
    intro s a s' hs h
    cases h
    exact hf.truncate hs
  have he : Restores f (onFrame (Frame.clearBuffer buffer.depth) : Eval σ Unit) := by
    intro s a s' hs h
    cases h
    exact (congrArg _ hs).trans (hf.clearBuffer hd)
  rw [eval_each]
  refine hc.bind fun v => Act.Triple.bind hs fun _ => ?_
  refine Act.Triple.bind (rounds hf hb (host.pairs v) []) fun _ => Act.Triple.bind ht fun _ => ?_
  exact he.bind fun _ => pure

end Restores

-- The induction is on the code. The frame is the same for all parts of a node, but for the body of
-- a loop, which is evaluated with two slots more.
mutual

theorem restores_eval (host : Host σ) (input : Input) {m : Nat} : (c : Code) → {d : Nat} →
    {f : Frame} → f.Clean m d → c.AllFit m d → Restores f (eval host input c)
  | .text _, _, _, _, _ | .literal _, _, _, _, _ | .ambient _, _, _, _, _ | .data, _, _, _, _
  | .options, _, _, _, _ => .pure
  | .slot _, _, _, _, _ => .slot
  | .array items, _, _, hf, hc =>
    (restores_evalAll host input items hf fun _ h => hc.operand h).bind fun _ => .newArray
  | .object entries, _, _, hf, hc =>
    (restores_evalEntries host input entries hf fun _ h =>
      hc.operand (List.mem_map_of_mem h)).bind fun _ => .newObject
  | .member o _, _, _, hf, hc =>
    (restores_eval host input o hf (hc.operand (.head _))).bind fun _ => .ofExcept
  | .index o i, _, _, hf, hc =>
    (restores_eval host input o hf (hc.operand (.head _))).bind fun _ =>
      (restores_eval host input i hf (hc.operand (.tail _ (.head _)))).bind fun _ => .ofExcept
  | .call callee arguments, _, _, hf, hc =>
    (restores_eval host input callee hf (hc.operand (.head _))).bind fun _ =>
      (restores_evalAll host input arguments hf fun _ h => hc.operand (.tail _ h)).bind fun _ =>
        .call
  | .unary _ operand, _, _, hf, hc =>
    (restores_eval host input operand hf (hc.operand (.head _))).bind fun _ => .pure
  | .binary op lhs rhs, _, _, hf, hc => by
    have hr := restores_eval host input rhs hf (hc.operand (.tail _ (.head _)))
    refine (restores_eval host input lhs hf (hc.operand (.head _))).bind fun v => ?_
    split
    case h_1 | h_2 => exact .pure
    case h_3 | h_4 => exact hr
    case h_5 => exact hr.bind fun _ => .pure
  | .cond test consequent alternate, _, _, hf, hc => by
    refine (restores_eval host input test hf (hc.operand (.head _))).bind fun v => ?_
    split
    case isTrue => exact restores_eval host input consequent hf (hc.operand (.tail _ (.head _)))
    case isFalse =>
      exact restores_eval host input alternate hf (hc.operand (.tail _ (.tail _ (.head _))))
  | .dethunk _ value, _, _, hf, hc =>
    (restores_eval host input value hf (hc.operand (.head _))).bind fun v =>
      .dethunk hf (hc.depth_le rfl) v
  | .each buffer slot key value container body, d, f, hf, hc => by
    obtain ⟨_, rfl⟩ := hc.fits
    have hr := restores_eval host input container hf (hc.operand (.head _))
    exact .each hf (hc.depth_le rfl) hr fun pair =>
      restores_eval host input body (hf.extend [pair]) (hc.body rfl)
  | .invoke d o selector _, _, _, hf, hc =>
    (restores_eval host input d hf (hc.operand (.head _))).bind fun _ =>
      (restores_eval host input o hf (hc.operand (.tail _ (.head _)))).bind fun _ =>
        (restores_eval host input selector hf
          (hc.operand (.tail _ (.tail _ (.head _))))).bind fun _ =>
            Restores.tryOnStore.bind fun _ => .pure
  | .merge sources, _, _, hf, hc =>
    (restores_evalAll host input sources hf fun _ h => hc.operand h).bind fun _ =>
      Restores.onStore.bind fun _ => .newObject

theorem restores_evalAll (host : Host σ) (input : Input) {m : Nat} : (cs : List Code) →
    {d : Nat} → {f : Frame} → f.Clean m d → (∀ c ∈ cs, c.AllFit m d) →
    Restores f (evalAll host input cs)
  | [], _, _, _, _ => .pure
  | c :: cs, _, _, hf, hc =>
    (restores_eval host input c hf (hc c (.head _))).bind fun _ =>
      (restores_evalAll host input cs hf fun c h => hc c (.tail _ h)).bind fun _ => .pure

theorem restores_evalEntries (host : Host σ) (input : Input) {m : Nat} :
    (entries : List (String × Code)) → {d : Nat} → {f : Frame} → f.Clean m d →
    (∀ entry ∈ entries, entry.2.AllFit m d) → Restores f (evalEntries host input entries)
  | [], _, _, _, _ => .pure
  | entry :: entries, _, _, hf, hc =>
    (restores_eval host input entry.2 hf (hc entry (.head _))).bind fun _ =>
      (restores_evalEntries host input entries hf fun e h => hc e (.tail _ h)).bind fun _ => .pure

end

end Eval
end Stencil
