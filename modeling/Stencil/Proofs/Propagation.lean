import Stencil.Compile.Basic
import Stencil.Proofs.Scope
import Stencil.Render.Native
import Stencil.Render.Template

-- What a sub-template sees of the loops around its call, if it is given no data.
namespace Stencil

-- The fields of an object. Other values have none.
def Value.fieldList (v : Value) : List (String × Value) :=
  v.fields?.getD []

theorem Input.lookup_eq (input : Input) (x : String) :
    input.lookup x =
      ((Fields.get? input.data.fieldList x).or (Fields.get? input.options.fieldList x)).getD
        .undefined := by
  have h : ∀ v : Value, v.fields?.bind (Fields.get? · x) = Fields.get? v.fieldList x := by
    intro v
    cases v <;> rfl
  simp only [Input.lookup, h]

theorem Program.fieldList_orEmpty (id : Nat) (v : Value) :
    (Program.orEmpty id v).fieldList = v.fieldList := by
  cases v <;> rfl

namespace Scope

-- The loop variables with their values, outer ones first.
def bindings (s : Scope) (frame : Frame) : List (String × Value) :=
  s.names.map fun (name, n) => (name, frame.slot n)

theorem get?_bindings (s : Scope) (frame : Frame) (x : String) :
    Fields.get? (s.bindings frame).reverse x = (s.slot? x).map frame.slot :=
  get?_namesOf frame.slot

theorem keys_bindings (s : Scope) (frame : Frame) :
    Fields.keys (s.bindings frame) = s.names.map (·.1) := by
  simp [bindings, Fields.keys]

end Scope

namespace Eval

variable {σ : Type} {host : Host σ} {input : Input}

-- An object of loop variables is made of what is in their slots.
theorem evalEntries_slots (names : List (String × Nat)) (s : State σ) :
    evalEntries host input (names.map fun (name, n) => (name, .slot n)) s =
      (.ok (names.map fun (name, n) => (name, s.frame.slot n)), s) := by
  induction names
  case nil => rfl
  case cons entry names hi =>
    have h : eval host input (.slot entry.2) s = (.ok (s.frame.slot entry.2), s) := rfl
    simp only [List.map_cons, evalEntries]
    rw [Act.bind_apply_ok h, Act.bind_apply_ok hi]
    rfl

variable {s : Scope} {state : State σ}

theorem eval_object_slots (host : Host σ) (input : Input) (names : List (String × Nat))
    (state : State σ) :
    ∃ id store, eval host input (.object (names.map fun (name, n) => (name, .slot n))) state =
      (.ok (.object id (Fields.ofList (names.map fun (name, n) => (name, state.frame.slot n)))),
        { state with store }) :=
  ⟨_, _, Act.bind_apply_ok (evalEntries_slots names state)⟩

theorem eval_merge_data {c : Code} {v : Value} {store : σ}
    (hm : ∀ sources store, host.merge sources store = (Value.mergeFields [] sources, store))
    (hc : eval host input c state = (.ok v, { state with store })) :
    ∃ id store, eval host input (.merge [.data, c]) state =
      (.ok (.object id (Value.mergeFields [] [input.data, v])), { state with store }) := by
  have hs : evalAll host input [c] state = (.ok [v], { state with store }) := Act.bind_apply_ok hc
  have hs : evalAll host input [.data, c] state = (.ok [input.data, v], { state with store }) :=
    Act.bind_apply_ok hs
  have hg : onStore (host.merge [input.data, v]) { state with store } =
      (.ok (Value.mergeFields [] [input.data, v]), { state with store }) := by
    simp [onStore, hm]
  exact ⟨(host.fresh store).1, (host.fresh store).2,
    (Act.bind_apply_ok hs).trans (Act.bind_apply_ok hg)⟩

-- The data that are passed on have the loop variables over the fields of the data at hand.
theorem eval_passedData
    (hm : ∀ sources store, host.merge sources store = (Value.mergeFields [] sources, store))
    (hd : (Fields.keys input.data.fieldList).Nodup) (s : Scope) (state : State σ) :
    ∃ v store, eval host input (Compile.passedData s) state = (.ok v, { state with store }) ∧
      (s.loops ≠ [] → ∃ id, v = .object id v.fieldList) ∧
      v.fieldList =
        Fields.insertAll input.data.fieldList (Fields.ofList (s.bindings state.frame)) := by
  cases hl : s.loops.isEmpty <;>
    simp only [Compile.passedData, hl, if_true, Bool.false_eq_true, if_false]
  case true =>
    have hl := List.isEmpty_iff.mp hl
    have hv : s.bindings state.frame = [] := by
      simp [Scope.bindings, Scope.names, hl, Scope.namesOf]
    exact ⟨input.data, state.store, rfl, absurd hl, by rw [hv]; rfl⟩
  case false =>
    obtain ⟨_, _, ho⟩ := eval_object_slots host input s.names state
    obtain ⟨id, store, h⟩ := eval_merge_data hm ho
    refine ⟨_, store, h, fun _ => ⟨id, rfl⟩, ?_⟩
    have hf := Fields.ofList_eq_self hd
    exact congrArg (Fields.insertAll · _) hf

-- Names that are in scope have their loop variables for values, and others what they have in the
-- data at hand. So the sub-template finds under each name what its caller finds.
theorem passedData_agrees (host : Host σ) (input : Input)
    (hm : ∀ sources store, host.merge sources store = (Value.mergeFields [] sources, store))
    (hd : (Fields.keys input.data.fieldList).Nodup) (s : Scope) (state : State σ) :
    ∃ v store,
      eval host input (Compile.passedData s) state = (.ok v, { state with store }) ∧
      (s.loops ≠ [] → ∃ id, v = .object id v.fieldList) ∧
      (∀ x, Fields.get? v.fieldList x =
        ((s.slot? x).map state.frame.slot).or (Fields.get? input.data.fieldList x)) ∧
      Fields.keys v.fieldList = Fields.keys input.data.fieldList ++
        (s.names.map (·.1)).eraseDups.filter (· ∉ Fields.keys input.data.fieldList) ∧
      (Fields.keys v.fieldList).Nodup ∧
      ∀ i j x, Input.lookup ⟨Program.orEmpty i v, Program.orEmpty j input.options⟩ x =
        ((s.slot? x).map state.frame.slot).getD (input.lookup x) := by
  have ⟨v, store, he, ho, hv⟩ := eval_passedData hm hd s state
  have hx : ∀ x, Fields.get? v.fieldList x =
      ((s.slot? x).map state.frame.slot).or (Fields.get? input.data.fieldList x) := by
    intro x
    rw [hv, Fields.get?_insertAll_ofList, Scope.get?_bindings]
  refine ⟨v, store, he, ho, hx, ?_, ?_, fun i j x => ?_⟩
  · rw [hv, Fields.keys_insertAll_ofList, Scope.keys_bindings]
  · rw [hv]
    exact Fields.nodup_keys_insertAll hd
  · simp only [Input.lookup_eq, Program.fieldList_orEmpty, hx]
    cases s.slot? x <;> simp

theorem passedData_agrees_nested :
    ∃ v store,
      eval (Template.host Store.services .empty 1)
          ⟨.object 0 [("x", .null), ("y", .bool true)], .undefined⟩
          (Compile.passedData ⟨[⟨"k", "k"⟩, ⟨"i", "x"⟩], 2, 2⟩)
          ⟨⟨[.string "0", .undefined, .string "a", .string "b"], [], []⟩, .start⟩ =
        (.ok v, ⟨⟨[.string "0", .undefined, .string "a", .string "b"], [], []⟩, store⟩) ∧
      Fields.get? v.fieldList "x" = some .undefined ∧
      Fields.get? v.fieldList "k" = some (.string "b") ∧
      Fields.keys v.fieldList = ["x", "y", "i", "k"] := by
  have ⟨v, store, he, _, hx, hk, _⟩ := passedData_agrees (Template.host Store.services .empty 1)
    ⟨.object 0 [("x", .null), ("y", .bool true)], .undefined⟩ (fun _ _ => rfl) (by decide)
    ⟨[⟨"k", "k"⟩, ⟨"i", "x"⟩], 2, 2⟩
    ⟨⟨[.string "0", .undefined, .string "a", .string "b"], [], []⟩, .start⟩
  exact ⟨v, store, he, hx "x", hx "k", hk.trans (by decide)⟩

end Eval
end Stencil
