import Stencil.Value.Operator

-- Equality with coercions.
namespace Stencil

namespace Number

open Float.Model (UnpackedFloat)

theorem swap_compare (a b : UnpackedFloat) : (a.compare b).map Ordering.swap = b.compare a := by
  have hf (e e' : Int) (m m' : Nat) :
      ((compare e e').then (compare m m')).swap = (compare e' e).then (compare m' m) := by
    rw [Ordering.swap_then, Int.compare_swap, Nat.compare_swap]
  cases a
  case notANumber => cases b <;> rfl
  case infinity s =>
    cases b
    case infinity t => cases s <;> cases t <;> rfl
    all_goals cases s <;> rfl
  case zero s =>
    cases b
    case infinity t => cases t <;> rfl
    case finite t _ _ _ => cases t <;> rfl
    all_goals rfl
  case finite s _ _ _ =>
    cases b
    case infinity t => cases s <;> cases t <;> rfl
    case finite t _ _ _ =>
      cases s <;> cases t
      case negative.negative => exact congrArg (some ∘ Ordering.swap) (hf ..)
      case positive.positive => exact congrArg some (hf ..)
      all_goals rfl
    all_goals cases s <;> rfl

-- Not a number equals nothing, but it does so on both sides.
theorem beq_comm (x y : Float) : (x == y) = (y == x) := by
  have h (x y : Float) : (x == y) = (x.toModel.unpack.compare y.toModel.unpack == some .eq) := rfl
  rw [h, h, ←swap_compare x.toModel.unpack]
  cases x.toModel.unpack.compare y.toModel.unpack
  case none => rfl
  case some o => cases o <;> rfl

end Number

namespace Value

-- Values of different variants are compared as texts if neither is a number or a truth value, and
-- as numbers otherwise.
def coercedEq (a b : Value) : Bool :=
  if a.sameVariant b then a.strictEq b
  else if a.isNullish || b.isNullish then a.isNullish && b.isNullish
  else if a.primitive.isString && b.primitive.isString then a.text == b.text
  else a.toNumber == b.toNumber

theorem looseEq_number (x : Float) (b : Value) :
    looseEq (.number x) b = coercedEq (.number x) b := by
  unfold looseEq
  cases b
  case undefined | null | number | string => rfl
  case bool =>
    change looseEq _ _ = _
    unfold looseEq
    exact Number.beq_comm ..
  case array | object | function =>
    change ((_ || true) && looseEq (.number x) (.string _)) = _
    rw [Bool.or_true, Bool.true_and]
    unfold looseEq
    rfl

theorem looseEq_string (s : String) (b : Value) :
    looseEq (.string s) b = coercedEq (.string s) b := by
  unfold looseEq
  cases b
  case undefined | null | string => rfl
  case number => exact Number.beq_comm ..
  case bool =>
    change looseEq _ _ = _
    rw [looseEq_number]
    exact Number.beq_comm ..
  case array | object | function =>
    change ((_ || true) && looseEq (.string s) (.string _)) = _
    rw [Bool.or_true, Bool.true_and]
    unfold looseEq
    rfl

theorem coercedEq_bool {p : Bool} {b : Value} (h : sameVariant (.bool p) b = false) :
    coercedEq (.bool p) b = coercedEq (.number (toNumber (.bool p))) b := by
  cases b <;> first | rfl | cases h

-- The cases are those of the left side. Once a side has been coerced, there is a number or a text
-- on the left.
theorem looseEq_eq_coercedEq (a b : Value) : a.looseEq b = a.coercedEq b := by
  cases a
  case number x => exact looseEq_number x b
  case string s => exact looseEq_string s b
  case undefined | null =>
    unfold looseEq
    cases b <;> rfl
  case bool p =>
    unfold looseEq
    cases b
    case undefined | null => rfl
    case bool q =>
      have same : (bool p).sameVariant (bool q) = true := rfl
      rw [coercedEq, if_pos same, if_pos same]
    all_goals exact (looseEq_number _ _).trans (coercedEq_bool rfl).symm
  case array | object | function =>
    unfold looseEq
    cases b
    case bool p =>
      change looseEq _ _ = _
      rw [looseEq_number]
      exact Number.beq_comm ..
    case undefined | null => rfl
    all_goals first | exact looseEq_string _ _ | rfl

-- Arrays, objects and functions are of one type. Other values are of the same type if they are of
-- the same variant.
def sameType (a b : Value) : Bool :=
  a.sameVariant b || (a.isCompound && b.isCompound)

-- The rules of equality with coercions. A rule that coerces one side leaves the rest of the
-- comparison to the other rules.
inductive LooselyEqual : Value → Value → Prop
  | strict {a b} : a.sameType b = true → a.strictEq b = true → LooselyEqual a b
  | undefinedNull : LooselyEqual .undefined .null
  | nullUndefined : LooselyEqual .null .undefined
  | numberString {x s} : (x == Number.ofText s) = true → LooselyEqual (.number x) (.string s)
  | stringNumber {s x} : (Number.ofText s == x) = true → LooselyEqual (.string s) (.number x)
  | boolLeft {p b} :
    sameType (.bool p) b = false → LooselyEqual (.number (toNumber (.bool p))) b →
    LooselyEqual (.bool p) b
  | boolRight {a p} :
    sameType a (.bool p) = false → LooselyEqual a (.number (toNumber (.bool p))) →
    LooselyEqual a (.bool p)
  | textLeft {a b} :
    a.isCompound = true → b.isCompound = false → LooselyEqual (.string a.text) b →
    LooselyEqual a b
  | textRight {a b} :
    a.isCompound = false → b.isCompound = true → LooselyEqual a (.string b.text) →
    LooselyEqual a b

-- Two of different variants, each an array, an object or a function, with the same text. They are
-- never identical.
structure Confused (a b : Value) : Prop where
  left : a.isCompound = true
  right : b.isCompound = true
  variant : a.sameVariant b = false
  text_eq : a.text = b.text

variable {a b : Value} {p : Bool} {x : Float} {s : String}

theorem sameVariant_comm (a b : Value) : a.sameVariant b = b.sameVariant a := by
  cases a <;> cases b <;> rfl

theorem sameType_comm (a b : Value) : a.sameType b = b.sameType a := by
  rw [sameType, sameType, sameVariant_comm, Bool.and_comm]

theorem strictEq_comm (a b : Value) : a.strictEq b = b.strictEq a := by
  cases a <;> cases b <;> simp only [strictEq]
  case number x y => exact Number.beq_comm x y
  all_goals exact BEq.comm

theorem sameVariant_of_strictEq (h : a.strictEq b = true) : a.sameVariant b = true := by
  cases a <;> cases b <;> first | rfl | cases h

theorem looseEq_comm (a b : Value) : a.looseEq b = b.looseEq a := by
  simp only [looseEq_eq_coercedEq, coercedEq]
  rw [sameVariant_comm b, strictEq_comm b, Bool.or_comm b.isNullish, Bool.and_comm b.isNullish,
    Bool.and_comm b.primitive.isString, Number.beq_comm b.toNumber, BEq.comm (a := b.text)]

theorem looseEq_of_sameVariant (h : a.sameVariant b = true) : a.looseEq b = a.strictEq b := by
  rw [looseEq_eq_coercedEq, coercedEq, if_pos h]

theorem looseEq_of_strictEq (h : a.strictEq b = true) : a.looseEq b = true :=
  (looseEq_of_sameVariant (sameVariant_of_strictEq h)).trans h

theorem looseEq_bool (h : sameType (.bool p) b = false) :
    looseEq (.bool p) b = looseEq (.number (toNumber (.bool p))) b := by
  rw [looseEq_eq_coercedEq, looseEq_eq_coercedEq, coercedEq_bool (Bool.or_eq_false_iff.mp h).1]

theorem looseEq_text (ha : a.isCompound = true) (hb : b.isCompound = false) :
    a.looseEq b = looseEq (.string a.text) b := by
  simp only [looseEq_eq_coercedEq]
  cases a <;> cases ha <;> cases b <;> first | rfl | cases hb

theorem looseEq_compound (ha : a.isCompound = true) (hb : b.isCompound = true)
    (hv : a.sameVariant b = false) : a.looseEq b = (a.text == b.text) := by
  rw [looseEq_eq_coercedEq]
  cases a <;> cases ha <;> cases b <;> cases hb <;> first | rfl | cases hv

theorem not_sameVariant (ha : a.isCompound = true) (hb : b.isCompound = false) :
    a.sameVariant b = false := by
  cases a <;> cases ha <;> cases b <;> first | rfl | cases hb

namespace LooselyEqual

theorem looseEq_eq (h : LooselyEqual a b) : a.looseEq b = true := by
  induction h
  case strict h => exact looseEq_of_strictEq h
  case undefinedNull | nullUndefined =>
    rw [looseEq_eq_coercedEq]
    rfl
  case numberString h | stringNumber h =>
    rw [looseEq_eq_coercedEq]
    exact h
  case boolLeft hn _ hi => rw [looseEq_bool hn, hi]
  case boolRight hn _ hi =>
    rw [sameType_comm] at hn
    rw [looseEq_comm, looseEq_bool hn, looseEq_comm, hi]
  case textLeft ha hb _ hi => rw [looseEq_text ha hb, hi]
  case textRight ha hb _ hi => rw [looseEq_comm, looseEq_text hb ha, looseEq_comm, hi]

-- Values of the same type compare strictly, since no other rule is for them.
theorem strictEq_eq (h : LooselyEqual a b) (ht : a.sameType b = true) : a.strictEq b = true := by
  cases h
  case strict h => exact h
  case undefinedNull | nullUndefined | numberString | stringNumber => cases ht
  case boolLeft hn _ => cases hn.symm.trans ht
  case boolRight hn _ => cases hn.symm.trans ht
  case textLeft ha hb _ => simp [sameType, hb, not_sameVariant ha hb] at ht
  case textRight ha hb _ => simp [sameType, ha, sameVariant_comm a, not_sameVariant hb ha] at ht

theorem of_number (h : looseEq (.number x) b = true) : LooselyEqual (.number x) b := by
  rw [looseEq_eq_coercedEq] at h
  cases b
  case undefined | null => cases h
  case bool => exact .boolRight rfl (.strict rfl h)
  case number => exact .strict rfl h
  case string => exact .numberString h
  case array | object | function => exact .textRight rfl rfl (.numberString h)

theorem of_string (h : looseEq (.string s) b = true) : LooselyEqual (.string s) b := by
  rw [looseEq_eq_coercedEq] at h
  cases b
  case undefined | null => cases h
  case bool => exact .boolRight rfl (.stringNumber h)
  case number => exact .stringNumber h
  case string => exact .strict rfl h
  case array | object | function => exact .textRight rfl rfl (.strict rfl h)

end LooselyEqual

theorem Confused.not_looselyEqual (h : Confused a b) : ¬LooselyEqual a b := by
  intro hl
  have hs := sameVariant_of_strictEq (hl.strictEq_eq (by simp [sameType, h.left, h.right]))
  cases h.variant.symm.trans hs

-- The text of an object is never that of a function.
theorem Confused.exists_array (h : Confused a b) :
    (∃ id items, a = .array id items) ∨ ∃ id items, b = .array id items := by
  have hf (f : Function) : text (.object 0 []) ≠ text (.function f) := by
    intro h
    have h := congrArg (·.toList.head?) h
    simp [text] at h
  cases a
  case array => exact .inl ⟨_, _, rfl⟩
  case object =>
    cases b
    case array => exact .inr ⟨_, _, rfl⟩
    case object => cases h.variant
    case function => exact absurd h.text_eq (hf _)
    all_goals cases h.right
  case function =>
    cases b
    case array => exact .inr ⟨_, _, rfl⟩
    case object => exact absurd h.text_eq.symm (hf _)
    case function => cases h.variant
    all_goals cases h.right
  all_goals cases h.left

theorem LooselyEqual.of_looseEq (ht : a.sameType b = false) (h : a.looseEq b = true) :
    LooselyEqual a b := by
  have hc := looseEq_eq_coercedEq a b ▸ h
  cases a
  case undefined =>
    cases b
    case null => exact .undefinedNull
    case undefined => cases ht
    all_goals cases hc
  case null =>
    cases b
    case undefined => exact .nullUndefined
    case null => cases ht
    all_goals cases hc
  case bool => exact .boolLeft ht (.of_number (looseEq_bool ht ▸ h))
  case number => exact .of_number h
  case string => exact .of_string h
  case array | object | function =>
    have hb : b.isCompound = false := (Bool.or_eq_false_iff.mp ht).2
    rw [looseEq_text rfl hb] at h
    exact .textLeft rfl hb (.of_string h)

theorem looseEq_iff_of_sameType (ht : a.sameType b = true) :
    a.looseEq b = true ↔ a.strictEq b = true ∨ Confused a b := by
  cases hv : a.sameVariant b
  case true =>
    have hc : ¬Confused a b := fun h => by cases h.variant.symm.trans hv
    simp [looseEq_of_sameVariant hv, hc]
  case false =>
    have hs : a.strictEq b = false := by
      cases hs : a.strictEq b
      case false => rfl
      case true => cases hv.symm.trans (sameVariant_of_strictEq hs)
    have ⟨ha, hb⟩ : a.isCompound = true ∧ b.isCompound = true := by
      simpa [sameType, hv] using ht
    rw [looseEq_compound ha hb hv, hs, beq_iff_eq]
    constructor
    case mp => exact fun h => .inr ⟨ha, hb, hv, h⟩
    case mpr => exact fun h => (h.resolve_left nofun).text_eq

-- Equality is that of the rules, except that an array can equal an object or a function.
theorem looseEq_iff_or_confused (a b : Value) :
    (a.looseEq b = true ↔ LooselyEqual a b ∨ Confused a b) ∧
      (Confused a b → ¬LooselyEqual a b ∧
        ((∃ id items, a = .array id items) ∨ ∃ id items, b = .array id items)) := by
  refine ⟨?_, fun h => ⟨h.not_looselyEqual, h.exists_array⟩⟩
  constructor
  case mp =>
    intro h
    cases ht : a.sameType b
    case false => exact .inl (.of_looseEq ht h)
    case true => exact ((looseEq_iff_of_sameType ht).mp h).imp_left (.strict ht)
  case mpr =>
    intro h
    cases h
    case inl h => exact h.looseEq_eq
    case inr h =>
      have ht : a.sameType b = true := by simp [sameType, h.left, h.right]
      exact (looseEq_iff_of_sameType ht).mpr (.inr h)

theorem array_equals_object :
    looseEq (.array 0 [.object 1 []]) (.object 2 []) = true ∧
      ¬LooselyEqual (.array 0 [.object 1 []]) (.object 2 []) :=
  ⟨looseEq_eq_coercedEq .. ▸ rfl, fun h => nomatch h.strictEq_eq rfl⟩

theorem looseEq_symmetric_and_extends (a b : Value) :
    a.looseEq b = b.looseEq a ∧ (a.strictEq b = true → a.looseEq b = true) :=
  ⟨looseEq_comm a b, looseEq_of_strictEq⟩

end Value
end Stencil
