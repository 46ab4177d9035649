import Stencil.Proofs.Fields
import Stencil.Proofs.Value.Equality
import Stencil.Render.Host
import Stencil.Value.Operator
import Stencil.Value.Property

-- Values that differ in nothing but identities, which correspond to one another.
namespace Stencil

-- Each identity of one side corresponds to at most one of the other.
def OneOne (R : Nat → Nat → Prop) : Prop :=
  ∀ ⦃i i' j j'⦄, R i j → R i' j' → (i = i' ↔ j = j')

def Extends (R R' : Nat → Nat → Prop) : Prop :=
  ∀ ⦃i j⦄, R i j → R' i j

namespace Value

-- There are no functions in values that are alike, for nothing is known of what functions do.
mutual

inductive Like (R : Nat → Nat → Prop) : Value → Value → Prop
  | primitive {v} : v.isCompound = false → Like R v v
  | array {i j vs ws} : R i j → LikeAll R vs ws → Like R (.array i vs) (.array j ws)
  | object {i j fs gs} : R i j → LikeFields R fs gs → Like R (.object i fs) (.object j gs)

inductive LikeAll (R : Nat → Nat → Prop) : List Value → List Value → Prop
  | nil : LikeAll R [] []
  | cons {v w vs ws} : Like R v w → LikeAll R vs ws → LikeAll R (v :: vs) (w :: ws)

inductive LikeFields (R : Nat → Nat → Prop) :
    List (String × Value) → List (String × Value) → Prop
  | nil : LikeFields R [] []
  | cons {name v w fs gs} :
    Like R v w → LikeFields R fs gs → LikeFields R ((name, v) :: fs) ((name, w) :: gs)

end

-- The keys and values that a loop runs through.
inductive LikePairs (R : Nat → Nat → Prop) :
    List (Value × Value) → List (Value × Value) → Prop
  | nil : LikePairs R [] []
  | cons {k l v w ps qs} :
    Like R k l → Like R v w → LikePairs R ps qs → LikePairs R ((k, v) :: ps) ((l, w) :: qs)

mutual

-- Whether there is no function in a value, at any depth.
def isStatic : Value → Bool
  | undefined | null | bool _ | number _ | string _ => true
  | array _ items => areStatic items
  | object _ fields => haveStatic fields
  | function _ => false

def areStatic : List Value → Bool
  | [] => true
  | v :: vs => v.isStatic && areStatic vs

def haveStatic : List (String × Value) → Bool
  | [] => true
  | (_, v) :: fields => v.isStatic && haveStatic fields

end

variable {R R' : Nat → Nat → Prop} {v w v' w' : Value} {vs ws : List Value}
  {fs gs : List (String × Value)} {name : String}

mutual

theorem Like.mono {R R' v w} (h : Extends R R') : Like R v w → Like R' v w
  | .primitive hv => .primitive hv
  | .array hi hs => .array (h hi) (hs.mono h)
  | .object hi hs => .object (h hi) (hs.mono h)

theorem LikeAll.mono {R R' vs ws} (h : Extends R R') : LikeAll R vs ws → LikeAll R' vs ws
  | .nil => .nil
  | .cons hv hs => .cons (hv.mono h) (hs.mono h)

theorem LikeFields.mono {R R' fs gs} (h : Extends R R') : LikeFields R fs gs → LikeFields R' fs gs
  | .nil => .nil
  | .cons hv hs => .cons (hv.mono h) (hs.mono h)

end

mutual

theorem like_self : (v : Value) → v.isStatic = true → Like Eq v v
  | undefined, _ | null, _ | bool _, _ | number _, _ | string _, _ => .primitive rfl
  | array _ items, h => .array rfl (likeAll_self items h)
  | object _ fields, h => .object rfl (likeFields_self fields h)

theorem likeAll_self : (vs : List Value) → areStatic vs = true → LikeAll Eq vs vs
  | [], _ => .nil
  | v :: vs, h => by
    have ⟨hv, hs⟩ := Bool.and_eq_true_iff.mp h
    exact .cons (like_self v hv) (likeAll_self vs hs)

theorem likeFields_self : (fs : List (String × Value)) → haveStatic fs = true → LikeFields Eq fs fs
  | [], _ => .nil
  | (_, v) :: fs, h => by
    have ⟨hv, hs⟩ := Bool.and_eq_true_iff.mp h
    exact .cons (like_self v hv) (likeFields_self fs hs)

end

mutual

theorem Like.eq {v w} : Like Eq v w → v = w ∧ v.isStatic = true
  | .primitive hv => by
    refine ⟨rfl, ?_⟩
    cases v
    case array | object | function => cases hv
    all_goals rfl
  | .array hi hs => by
    have ⟨he, hs⟩ := hs.eq
    exact ⟨by rw [hi, he], hs⟩
  | .object hi hs => by
    have ⟨he, hs⟩ := hs.eq
    exact ⟨by rw [hi, he], hs⟩

theorem LikeAll.eq {vs ws} : LikeAll Eq vs ws → vs = ws ∧ areStatic vs = true
  | .nil => ⟨rfl, rfl⟩
  | .cons hv hs => by
    have ⟨hv, h⟩ := hv.eq
    have ⟨hs, h'⟩ := hs.eq
    exact ⟨by rw [hv, hs], Bool.and_eq_true_iff.mpr ⟨h, h'⟩⟩

theorem LikeFields.eq {fs gs} : LikeFields Eq fs gs → fs = gs ∧ haveStatic fs = true
  | .nil => ⟨rfl, rfl⟩
  | .cons hv hs => by
    have ⟨hv, h⟩ := hv.eq
    have ⟨hs, h'⟩ := hs.eq
    exact ⟨by rw [hv, hs], Bool.and_eq_true_iff.mpr ⟨h, h'⟩⟩

end

theorem Like.isNullish_eq (h : Like R v w) : v.isNullish = w.isNullish := by
  cases h <;> rfl

theorem Like.isTruthy_eq (h : Like R v w) : v.isTruthy = w.isTruthy := by
  cases h <;> rfl

theorem Like.sameVariant_eq (h : Like R v w) (h' : Like R v' w') :
    v.sameVariant v' = w.sameVariant w' := by
  cases h <;> cases h'
  case primitive.primitive => rfl
  case primitive.array | primitive.object => cases v <;> rfl
  case array.primitive | object.primitive => cases v' <;> rfl
  all_goals rfl

mutual

theorem Like.text_eq {R v w} : Like R v w → v.text = w.text
  | .primitive _ | .object _ _ => rfl
  | .array _ hs => by simp only [text, hs.itemTexts_eq]

theorem LikeAll.itemTexts_eq {R vs ws} : LikeAll R vs ws → itemTexts vs = itemTexts ws
  | .nil => rfl
  | .cons hv hs => by simp only [itemTexts, hv.isNullish_eq, hv.text_eq, hs.itemTexts_eq]

end

-- Only operations on identities could tell alike values apart.
theorem Like.primitive_eq (h : Like R v w) : Value.primitive v = Value.primitive w := by
  have ht := h.text_eq
  cases h
  case primitive => rfl
  case array => exact congrArg string ht
  case object => rfl

theorem Like.toNumber_eq (h : Like R v w) : v.toNumber = w.toNumber := by
  have ht := h.text_eq
  cases h
  case primitive => rfl
  case array => exact congrArg Number.ofText ht
  case object => rfl

theorem Like.strictEq_eq (hR : OneOne R) (h : Like R v w) (h' : Like R v' w') :
    v.strictEq v' = w.strictEq w' := by
  have hb {i i' j j' : Nat} (h : i = i' ↔ j = j') : (i == i') = (j == j') := by
    rw [Bool.eq_iff_iff, beq_iff_eq, beq_iff_eq, h]
  cases h <;> cases h'
  case primitive.primitive => rfl
  case primitive.array hv _ _ _ _ _ _ =>
    cases v
    case array => cases hv
    all_goals rfl
  case primitive.object hv _ _ _ _ _ _ =>
    cases v
    case object => cases hv
    all_goals rfl
  case array.primitive hv =>
    cases v'
    case array => cases hv
    all_goals rfl
  case object.primitive hv =>
    cases v'
    case object => cases hv
    all_goals rfl
  case array.array hi _ _ _ _ _ hi' _ => exact hb (hR hi hi')
  case object.object hi _ _ _ _ _ hi' _ => exact hb (hR hi hi')
  case array.object | object.array => rfl

theorem Like.looseEq_eq (hR : OneOne R) (h : Like R v w) (h' : Like R v' w') :
    v.looseEq v' = w.looseEq w' := by
  simp only [looseEq_eq_coercedEq, coercedEq, h.sameVariant_eq h', h.strictEq_eq hR h',
    h.isNullish_eq, h'.isNullish_eq, h.primitive_eq, h'.primitive_eq, h.text_eq, h'.text_eq,
    h.toNumber_eq, h'.toNumber_eq]

theorem Like.compare_eq (h : Like R v w) (h' : Like R v' w') : v.compare v' = w.compare w' := by
  simp only [Value.compare, h.primitive_eq, h'.primitive_eq, h.toNumber_eq, h'.toNumber_eq]

theorem Like.add_eq (h : Like R v w) (h' : Like R v' w') : v.add v' = w.add w' := by
  simp only [add, h.primitive_eq, h'.primitive_eq, h.text_eq, h'.text_eq, h.toNumber_eq,
    h'.toNumber_eq]

theorem Like.unary (h : Like R v w) (op : UnaryOp) : Like R (v.unary op) (w.unary op) := by
  have he : v.unary op = w.unary op := by
    simp only [Value.unary, h.isTruthy_eq, h.toNumber_eq]
  rw [he]
  refine .primitive ?_
  cases op <;> rfl

theorem Like.binary (hR : OneOne R) (h : Like R v w) (h' : Like R v' w') {op : BinaryOp}
    (ho : op.isLogical = false) : Like R (v.binary op v') (w.binary op w') := by
  have he : v.binary op v' = w.binary op w' := by
    cases op
    case and | or => cases ho
    all_goals
      simp only [Value.binary, h.add_eq h', h.compare_eq h', h.looseEq_eq hR h',
        h.strictEq_eq hR h', h.toNumber_eq, h'.toNumber_eq]
  rw [he]
  refine .primitive ?_
  cases op
  case and | or => cases ho
  case add =>
    simp only [Value.binary, add]
    split <;> rfl
  all_goals rfl

theorem LikeAll.length_eq {R vs ws} : LikeAll R vs ws → vs.length = ws.length
  | .nil => rfl
  | .cons _ hs => congrArg (· + 1) hs.length_eq

theorem LikeAll.getD {R vs ws} (h : LikeAll R vs ws) (n : Nat) :
    Like R (vs[n]?.getD .undefined) (ws[n]?.getD .undefined) := by
  match h, n with
  | .nil, _ => exact .primitive rfl
  | .cons hv _, 0 => exact hv
  | .cons _ hs, n + 1 => exact hs.getD n

theorem LikeAll.append {R vs ws vs' ws'} (h : LikeAll R vs ws) (h' : LikeAll R vs' ws') :
    LikeAll R (vs ++ vs') (ws ++ ws') :=
  match h with
  | .nil => h'
  | .cons hv hs => .cons hv (hs.append h')

theorem LikeAll.take {R vs ws} (h : LikeAll R vs ws) (n : Nat) :
    LikeAll R (vs.take n) (ws.take n) := by
  match h, n with
  | .nil, _ => simpa using LikeAll.nil
  | .cons _ _, 0 => exact .nil
  | .cons hv hs, n + 1 => exact .cons hv (hs.take n)

theorem LikeFields.getD {R fs gs} (h : LikeFields R fs gs) (name : String) :
    Like R ((Fields.get? fs name).getD .undefined) ((Fields.get? gs name).getD .undefined) := by
  match h with
  | .nil => exact .primitive rfl
  | .cons hv hs =>
    simp only [Fields.get?_cons]
    split
    case isTrue => exact hv
    case isFalse => exact hs.getD name

namespace LikeFields

theorem insert {R fs gs v w} (name : String) (hv : Like R v w) (h : LikeFields R fs gs) :
    LikeFields R (Fields.insert name v fs) (Fields.insert name w gs) := by
  induction fs generalizing gs
  case nil =>
    cases h
    exact .cons hv .nil
  case cons hi =>
    cases h
    case cons hv' hs =>
      simp only [Fields.insert]
      split
      case isTrue => exact .cons hv hs
      case isFalse => exact .cons hv' (hi hs)

theorem insertAll {R fs gs fs' gs'} (h : LikeFields R fs gs) :
    LikeFields R fs' gs' → LikeFields R (Fields.insertAll fs fs') (Fields.insertAll gs gs')
  | .nil => h
  | .cons hv hs => (h.insert _ hv).insertAll hs

theorem ofList (h : LikeFields R fs gs) : LikeFields R (Fields.ofList fs) (Fields.ofList gs) :=
  insertAll .nil h

end LikeFields

-- A result that is alike, or the same error.
inductive LikeResult {α β : Type} (V : α → β → Prop) :
    Except RenderError α → Except RenderError β → Prop
  | ok {a b} : V a b → LikeResult V (.ok a) (.ok b)
  | error {e} : LikeResult V (.error e) (.error e)

theorem Like.get (h : Like R v w) (name : String) :
    LikeResult (Like R) (v.get name) (w.get name) := by
  cases h
  case object hs => exact .ok (hs.getD name)
  case array hs =>
    simp only [Value.get, hs.length_eq]
    split
    case isTrue => exact .ok (.primitive rfl)
    case isFalse =>
      cases indexOfName? name
      case none => exact .ok (.primitive rfl)
      case some n => exact .ok (hs.getD n)
  case primitive hv =>
    cases v
    case undefined | null => exact .error
    case bool | number => exact .ok (.primitive rfl)
    case string =>
      simp only [Value.get]
      split
      case isTrue => exact .ok (.primitive rfl)
      case isFalse => split <;> exact .ok (.primitive rfl)
    case array | object | function => cases hv

theorem Like.getIndex (h : Like R v w) (h' : Like R v' w') :
    LikeResult (Like R) (v.getIndex v') (w.getIndex w') := by
  simp only [Value.getIndex, h'.text_eq]
  exact h.get w'.text

theorem LikeAll.indexedFrom {R vs ws} (n : Nat) :
    LikeAll R vs ws → LikePairs R (indexedFrom n vs) (indexedFrom n ws)
  | .nil => .nil
  | .cons hv hs => .cons (.primitive rfl) hv (hs.indexedFrom (n + 1))

theorem LikeFields.pairs {R fs gs} :
    LikeFields R fs gs →
    LikePairs R (fs.map fun (name, v) => (.string name, v))
      (gs.map fun (name, v) => (.string name, v))
  | .nil => .nil
  | .cons hv hs => .cons (.primitive rfl) hv hs.pairs

theorem Like.pairs (h : Like R v w) : LikePairs R v.pairs w.pairs := by
  cases h
  case array hs => exact hs.indexedFrom 0
  case object hs => exact hs.pairs
  case primitive hv =>
    cases v
    case array | object | function => cases hv
    all_goals exact .nil

theorem likePairs_self {ps : List (Value × Value)}
    (h : ∀ p ∈ ps, p.1.isStatic = true ∧ p.2.isStatic = true) : LikePairs Eq ps ps := by
  induction ps
  case nil => exact .nil
  case cons p ps hi =>
    have ⟨⟨hk, hv⟩, hs⟩ := List.forall_mem_cons.mp h
    exact .cons (like_self _ hk) (like_self _ hv) (hi hs)

theorem LikePairs.isStatic {ps qs : List (Value × Value)} (h : LikePairs Eq ps qs) :
    ∀ p ∈ ps, p.1.isStatic = true ∧ p.2.isStatic = true := by
  induction h
  case nil => nofun
  case cons hk hv _ hi => exact List.forall_mem_cons.mpr ⟨⟨hk.eq.2, hv.eq.2⟩, hi⟩

theorem isStatic_get? {fs : List (String × Value)} (h : haveStatic fs = true) {v : Value}
    (hv : Fields.get? fs name = some v) : v.isStatic = true := by
  have hl := (likeFields_self fs h).getD name
  rw [hv] at hl
  exact hl.eq.2

end Value
end Stencil
