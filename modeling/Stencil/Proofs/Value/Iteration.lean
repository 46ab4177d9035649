import Stencil.Proofs.Act
import Stencil.Proofs.Fields
import Stencil.Proofs.Propagation
import Stencil.Proofs.Value.Index
import Stencil.Render.Eval

-- What a loop runs through is what indexing finds.
namespace Stencil

namespace Value

variable {i : Nat} {k v c : Value} {items : List Value} {fields : List (String × Value)}

theorem indexedFrom_eq (i : Nat) (items : List Value) :
    indexedFrom i items = (items.zipIdx i).map fun p => (.number (Float.ofNat p.2), p.1) := by
  induction items generalizing i
  case nil => rfl
  case cons v items hi => rw [indexedFrom, hi, List.zipIdx_cons, List.map_cons]

theorem keys_pairs_array (id : Nat) (items : List Value) :
    (array id items).pairs.map (·.1) =
      (List.range items.length).map fun i => .number (Float.ofNat i) := by
  rw [pairs, indexedFrom_eq, List.range_eq_range', ←List.zipIdx_map_snd 0 items]
  simp only [List.map_map, Function.comp_def]

theorem values_pairs_array (id : Nat) (items : List Value) :
    (array id items).pairs.map (·.2) = items := by
  rw [pairs, indexedFrom_eq, List.map_map]
  exact List.zipIdx_map_fst 0 items

theorem length_pairs_array (id : Nat) (items : List Value) :
    (array id items).pairs.length = items.length := by
  rw [pairs, indexedFrom_eq, List.length_map, List.length_zipIdx]

theorem getIndex_array (hi : i < 2 ^ 53) (h : items[i]? = some v) (id : Nat) :
    (array id items).getIndex (.number (Float.ofNat i)) = .ok v := by
  have hs : i < UInt64.size := hi.trans (by decide)
  have ht : (number (Float.ofNat i)).text = toString i := Number.text_ofNat hi
  rw [getIndex, ht, get_array (toString_ne_length i), indexOfName?_toString hs, Option.bind_some, h]
  rfl

theorem getIndex_object {name : String} (hn : (Fields.keys fields).Nodup)
    (h : (name, v) ∈ fields) (id : Nat) :
    (object id fields).getIndex (.string name) = .ok v := by
  have hg : (object id fields).getIndex (.string name) =
      .ok ((Fields.get? fields name).getD .undefined) := rfl
  rw [hg, Fields.get?_of_mem hn h]
  rfl

theorem getIndex_of_pairs (hk : (Fields.keys c.fieldList).Nodup) (h : c.pairs[i]? = some (k, v))
    (hi : ∀ id items, c = .array id items → i < 2 ^ 53) : c.getIndex k = .ok v := by
  cases c <;> try cases h
  case array id items =>
    rw [pairs, indexedFrom_eq, List.getElem?_map, List.getElem?_zipIdx, Option.map_map] at h
    obtain ⟨w, hw, he⟩ := Option.map_eq_some_iff.mp h
    cases he
    rw [Nat.zero_add]
    exact getIndex_array (hi id items rfl) hw id
  case object id fields =>
    obtain ⟨⟨name, w⟩, hm, he⟩ := List.mem_map.mp (List.mem_of_getElem? h)
    cases he
    exact getIndex_object hk hm id

end Value

namespace Eval

variable {σ : Type}

-- One round of a loop.
def round (slot : Nat) (body : Eval σ Value) (pair : Value × Value) : Eval σ Value := do
  onFrame (Frame.bind slot pair.1 pair.2)
  body

-- Rounds that succeed one after the other, and the pieces that they render.
inductive Rounds (slot : Nat) (body : Eval σ Value) :
    List (Value × Value) → State σ → List String → State σ → Prop
  | nil {s} : Rounds slot body [] s [] s
  | cons {pair pairs s₁ s₂ s₃ v pieces} :
    round slot body pair s₁ = (.ok v, s₂) → Rounds slot body pairs s₂ pieces s₃ →
    Rounds slot body (pair :: pairs) s₁ (v.text :: pieces) s₃

variable {slot : Nat} {body : Eval σ Value} {pairs : List (Value × Value)} {s s' : State σ}
  {b b' : Buffer} {e : RenderError}

theorem rounds_cons (pair : Value × Value) (b : Buffer) :
    rounds slot body (pair :: pairs) b =
      round slot body pair >>= fun v => rounds slot body pairs (b.push v.text) := by
  simp only [rounds, round, bind_assoc]

theorem rounds_eq_ok_iff :
    rounds slot body pairs b s = (.ok b', s') ↔
      ∃ pieces, b' = b ++ pieces ∧ Rounds slot body pairs s pieces s' := by
  induction pairs generalizing b s
  case nil =>
    constructor
    · intro h
      cases h
      exact ⟨[], (List.append_nil _).symm, .nil⟩
    · rintro ⟨_, rfl, h⟩
      cases h
      rw [List.append_nil]
      rfl
  case cons pair pairs hi =>
    rw [rounds_cons, Act.bind_eq_ok_iff]
    constructor
    · rintro ⟨v, s₁, hv, h⟩
      obtain ⟨pieces, rfl, hr⟩ := hi.mp h
      exact ⟨v.text :: pieces, List.append_assoc b [v.text] pieces, .cons hv hr⟩
    · rintro ⟨_, rfl, h⟩
      cases h
      case cons v pieces hv h =>
        exact ⟨v, _, hv, hi.mpr ⟨pieces, (List.append_assoc b [v.text] pieces).symm, h⟩⟩

-- A round that fails is the last one.
theorem rounds_eq_error_iff :
    rounds slot body pairs b s = (.error e, s') ↔
      ∃ before pair after pieces s₁, pairs = before ++ pair :: after ∧
        Rounds slot body before s pieces s₁ ∧ round slot body pair s₁ = (.error e, s') := by
  induction pairs generalizing b s
  case nil =>
    refine iff_of_false (fun h => by cases h) ?_
    rintro ⟨before, _, _, _, _, h, _⟩
    cases before <;> cases h
  case cons pair pairs hi =>
    rw [rounds_cons, Act.bind_eq_error_iff]
    constructor
    · rintro (h | ⟨v, s₁, hv, h⟩)
      · exact ⟨[], pair, pairs, [], s, rfl, .nil, h⟩
      · obtain ⟨before, failing, after, pieces, s₂, hp, hr, hf⟩ := hi.mp h
        exact ⟨pair :: before, failing, after, _, s₂, congrArg (pair :: ·) hp, .cons hv hr, hf⟩
    · rintro ⟨before, failing, after, pieces, s₁, hp, hr, hf⟩
      cases hr
      case nil =>
        cases hp
        exact .inl hf
      case cons hv hr =>
        obtain ⟨rfl, rfl⟩ := List.cons.inj hp
        exact .inr ⟨_, _, hv, hi.mpr ⟨_, failing, after, _, _, rfl, hr, hf⟩⟩

-- A loop over a container runs through its elements in order, once each, under the keys by which
-- they are found, and adds what it renders to its buffer. An error in the round of an element is
-- that of the loop, and there is no round of a later element then. The fields of an object have
-- distinct names, which is what `Fields.insert` keeps up, and an index is a number of its own below
-- `2 ^ 53`.
theorem iteration_agrees_with_indexing {σ : Type} (c : Value)
    (hk : (Fields.keys c.fieldList).Nodup) (slot : Nat) (body : Eval σ Value) (b : Buffer)
    (s : State σ) :
    (∀ id items, c = .array id items →
      c.pairs.map (·.1) = (List.range items.length).map (fun i => .number (Float.ofNat i)) ∧
      c.pairs.map (·.2) = items ∧
      c.get "length" = .ok (.number (Float.ofNat c.pairs.length))) ∧
    (∀ id fields, c = .object id fields →
      c.pairs = fields.map fun field => (.string field.1, field.2)) ∧
    ((∀ id items, c ≠ .array id items) → (∀ id fields, c ≠ .object id fields) → c.pairs = []) ∧
    (∀ (i : Nat) k v, c.pairs[i]? = some (k, v) →
      (∀ id items, c = .array id items → i < 2 ^ 53) → c.getIndex k = .ok v) ∧
    (∀ b' s', rounds slot body c.pairs b s = (.ok b', s') ↔
      ∃ pieces, b' = b ++ pieces ∧ Rounds slot body c.pairs s pieces s') ∧
    ∀ e s', rounds slot body c.pairs b s = (.error e, s') ↔
      ∃ before pair after pieces s₁, c.pairs = before ++ pair :: after ∧
        Rounds slot body before s pieces s₁ ∧ round slot body pair s₁ = (.error e, s') := by
  refine ⟨?_, ?_, ?_, ?_, ?_, ?_⟩
  · rintro id items rfl
    refine ⟨Value.keys_pairs_array id items, Value.values_pairs_array id items, ?_⟩
    rw [Value.length_pairs_array]
    rfl
  · rintro id fields rfl
    rfl
  · intro ha ho
    cases c <;> try rfl
    case array id items => exact absurd rfl (ha id items)
    case object id fields => exact absurd rfl (ho id fields)
  · intro i k v h hi
    exact Value.getIndex_of_pairs hk h hi
  · intro b' s'
    exact rounds_eq_ok_iff
  · intro e s'
    exact rounds_eq_error_iff

theorem iteration_agrees_with_indexing_fields :
    (Fields.keys (Value.object 0 [("b", .null), ("a", .bool true)]).fieldList).Nodup ∧
      (Value.object 0 [("b", .null), ("a", .bool true)]).getIndex (.string "a") =
        .ok (.bool true) := by
  have hk : (Fields.keys (Value.object 0 [("b", .null), ("a", .bool true)]).fieldList).Nodup := by
    decide
  have h := iteration_agrees_with_indexing _ hk 0 (pure .null : Eval Unit Value) [] ⟨.start 0, ()⟩
  exact ⟨hk, h.2.2.2.1 1 _ _ rfl fun _ _ hc => by cases hc⟩

end Eval
end Stencil
