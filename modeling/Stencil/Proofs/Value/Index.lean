import Stencil.Proofs.Number.Text
import Stencil.Value.Property

-- Which property names are indices, and what arrays and strings hold there.
namespace Stencil

variable {i n : Nat} {c : Char} {cs ds : List Char} {name p : String}

namespace Decimal

theorem isDigit_eq : isDigit c = c.isDigit :=
  rfl

theorem isDigit_iff : isDigit c = true ↔ 48 ≤ c.toNat ∧ c.toNat ≤ 57 := by
  rw [isDigit, Bool.and_eq_true, decide_eq_true_eq, decide_eq_true_eq]
  rfl

theorem digitChar_of_isDigit (h : isDigit c = true) : Nat.digitChar (c.toNat - 48) = c := by
  rw [isDigit_iff] at h
  apply Char.toNat_inj.mp
  rw [Nat.toNat_digitChar_of_lt_ten (by omega)]
  omega

theorem all_isDigit_toDigits (n : Nat) : (Nat.toDigits 10 n).all isDigit = true := by
  rw [List.all_eq_true]
  intro c h
  exact isDigit_eq.trans (Nat.isDigit_of_mem_toDigits (by decide) (by decide) h)

theorem digitsValue_toDigits (n : Nat) : digitsValue (Nat.toDigits 10 n) = n :=
  Nat.ofDigitChars_ten_toDigits

-- The digits that follow a number without zeros at its front are the digits of the whole.
theorem toDigits_append (hd : ds.all isDigit = true) (hn : 0 < n) :
    Nat.toDigits 10 n ++ ds =
      Nat.toDigits 10 (ds.foldl (fun n c => 10 * n + (c.toNat - 48)) n) := by
  induction ds generalizing n
  case nil => simp
  case cons c ds hi =>
    rw [List.all_cons, Bool.and_eq_true] at hd
    have hc := isDigit_iff.mp hd.1
    have ha := @Nat.toDigits_append_toDigits 10 n (c.toNat - 48) (by decide) hn (by omega)
    rw [@Nat.toDigits_of_lt_base 10 (c.toNat - 48) (by omega), digitChar_of_isDigit hd.1] at ha
    rw [List.foldl_cons, ←hi hd.2 (by omega), ←ha, List.append_assoc, List.singleton_append]

theorem toDigits_digitsValue (hd : (c :: ds).all isDigit = true) (hc : c ≠ '0') :
    Nat.toDigits 10 (digitsValue (c :: ds)) = c :: ds := by
  rw [List.all_cons, Bool.and_eq_true] at hd
  have hb := isDigit_iff.mp hd.1
  have hz : c.toNat ≠ 48 := fun h => hc (Char.toNat_inj.mp h)
  have ha := toDigits_append hd.2 (by omega : 0 < 10 * 0 + (c.toNat - 48))
  rw [digitsValue, List.foldl_cons, ←ha, Nat.toDigits_of_lt_base (by omega), Nat.mul_zero,
    Nat.zero_add, digitChar_of_isDigit hd.1]
  rfl

theorem head?_toDigits (hn : 0 < n) : (Nat.toDigits 10 n).head? ≠ some '0' := by
  induction n using Nat.strongRecOn
  case ind n hi =>
    rw [Nat.toDigits_eq_if (by decide)]
    split
    case isTrue h =>
      intro hc
      have hc := congrArg Char.toNat (Option.some.inj hc)
      rw [Nat.toNat_digitChar_of_lt_ten h] at hc
      have hz : '0'.toNat = 48 := rfl
      omega
    case isFalse h =>
      rw [List.head?_append_of_ne_nil _ Nat.toDigits_ne_nil]
      exact hi (n / 10) (by omega) (by omega)

end Decimal

-- A numeral with a plus sign, which may have zeros at its front.
def SignedNumeral (name : String) (i : Nat) : Prop :=
  ∃ ds, name.toList = '+' :: ds ∧ ds ≠ [] ∧ ds.all isDigit = true ∧ Decimal.digitsValue ds = i

theorem toList_toString (i : Nat) : (toString i).toList = Nat.toDigits 10 i :=
  Nat.toList_repr

theorem toString_ne (hc : isDigit c = false) (h : c ∈ name.toList) (i : Nat) :
    toString i ≠ name := by
  rintro rfl
  rw [toList_toString] at h
  rw [List.all_eq_true.mp (Decimal.all_isDigit_toDigits i) c h] at hc
  cases hc

theorem toString_ne_length (i : Nat) : toString i ≠ "length" :=
  toString_ne (c := 'l') rfl (by decide) i

theorem not_signedNumeral_toString (i j : Nat) : ¬SignedNumeral (toString i) j := by
  rintro ⟨ds, hd, _⟩
  exact toString_ne (c := '+') rfl (hd ▸ List.mem_cons_self) i rfl

theorem toString_injective {i j : Nat} (h : toString i = toString j) : i = j := by
  have h := congrArg (Decimal.digitsValue ∘ String.toList) h
  simp only [Function.comp_apply, toList_toString, Decimal.digitsValue_toDigits] at h
  exact h

theorem numeral?_eq_some_iff :
    indexOfName?.numeral? ds = some i ↔
      ds ≠ [] ∧ ds.all isDigit = true ∧ Decimal.digitsValue ds = i ∧ i < UInt64.size := by
  rw [indexOfName?.numeral?]
  grind

theorem numeral?_toDigits (hi : i < UInt64.size) :
    indexOfName?.numeral? (Nat.toDigits 10 i) = some i :=
  numeral?_eq_some_iff.mpr ⟨Nat.toDigits_ne_nil, Decimal.all_isDigit_toDigits i,
    Decimal.digitsValue_toDigits i, hi⟩

theorem eq_toDigits_of_numeral? (h : indexOfName?.numeral? ds = some i)
    (hz : ∀ d ds', ds ≠ '0' :: d :: ds') : ds = Nat.toDigits 10 i := by
  obtain ⟨hn, ha, rfl, -⟩ := numeral?_eq_some_iff.mp h
  cases ds
  case nil => exact absurd rfl hn
  case cons c ds =>
    by_cases hc : c = '0'
    case neg => exact (Decimal.toDigits_digitsValue ha hc).symm
    case pos =>
      subst hc
      cases ds
      case nil => rfl
      case cons d ds => exact absurd rfl (hz d ds)

theorem indexOfName?_toString (hi : i < UInt64.size) : indexOfName? (toString i) = some i := by
  unfold indexOfName?
  rw [toList_toString]
  split
  case h_1 c cs hd =>
    cases i
    case zero => cases hd
    case succ i => exact absurd (congrArg List.head? hd) (Decimal.head?_toDigits (by omega))
  case h_2 ds hd =>
    have ha := Decimal.all_isDigit_toDigits i
    rw [hd] at ha
    cases ha
  case h_3 => exact numeral?_toDigits hi

-- The names that are indices of a 64-bit word: canonical numerals, and numerals with a plus sign.
theorem indexOfName?_eq_some_iff :
    indexOfName? name = some i ↔ (name = toString i ∨ SignedNumeral name i) ∧ i < UInt64.size := by
  constructor
  case mp =>
    intro h
    unfold indexOfName? at h
    split at h
    case h_1 => cases h
    case h_2 ds hd =>
      obtain ⟨hn, ha, hv, hi⟩ := numeral?_eq_some_iff.mp h
      exact ⟨.inr ⟨ds, hd, hn, ha, hv⟩, hi⟩
    case h_3 hz _ =>
      obtain ⟨_, _, _, hi⟩ := numeral?_eq_some_iff.mp h
      have hd := (eq_toDigits_of_numeral? h hz).trans (toList_toString i).symm
      exact ⟨.inl (String.toList_injective hd), hi⟩
  case mpr =>
    rintro ⟨rfl | ⟨ds, hl, hn, ha, hv⟩, hi⟩
    · exact indexOfName?_toString hi
    · have hs : indexOfName? name = indexOfName?.numeral? ds := by
        unfold indexOfName?
        rw [hl]
        rfl
      rw [hs, numeral?_eq_some_iff]
      exact ⟨hn, ha, hv, hi⟩

theorem indexOfName?_toString_of_le (hi : UInt64.size ≤ i) : indexOfName? (toString i) = none := by
  cases h : indexOfName? (toString i)
  case none => rfl
  case some j =>
    obtain ⟨hn | hn, hj⟩ := indexOfName?_eq_some_iff.mp h
    · have := toString_injective hn
      omega
    · exact absurd hn (not_signedNumeral_toString i j)

-- How many characters are outside the basic plane.
def wideCount (cs : List Char) : Nat :=
  cs.countP (0x10000 ≤ ·.toNat)

theorem wideCount_eq_zero_iff : wideCount cs = 0 ↔ ∀ c ∈ cs, c.toNat < 0x10000 := by
  simp [wideCount, List.countP_eq_zero]

theorem unitWidth_eq (cs : List Char) : unitWidth cs = cs.length + wideCount cs := by
  induction cs
  case nil => rfl
  case cons c cs hi =>
    rw [unitWidth, hi, List.length_cons, wideCount, wideCount, List.countP_cons]
    simp only [decide_eq_true_eq]
    split <;> split <;> omega

namespace Value

theorem get_array (hp : p ≠ "length") (id : Nat) (items : List Value) :
    (array id items).get p = .ok (((indexOfName? p).bind (items[·]?)).getD .undefined) :=
  if_neg hp

-- Every numeral of an index is a name of the element there, and so is the numeral with a plus sign
-- and zeros at its front. There is nothing under any other name.
theorem array_holds_by_index (id : Nat) (items : List Value) (p : String) (hp : p ≠ "length") :
    (∀ i v, items[i]? = some v → i < UInt64.size → p = toString i ∨ SignedNumeral p i →
      (array id items).get p = .ok v) ∧
    ((∀ i < items.length, i < UInt64.size → p ≠ toString i ∧ ¬SignedNumeral p i) →
      (array id items).get p = .ok .undefined) := by
  rw [get_array hp]
  constructor
  · intro i v hv hi hn
    rw [indexOfName?_eq_some_iff.mpr ⟨hn, hi⟩, Option.bind_some, hv]
    rfl
  · intro h
    cases ho : indexOfName? p
    case none => rfl
    case some i =>
      obtain ⟨hn, hi⟩ := indexOfName?_eq_some_iff.mp ho
      have hl : items.length ≤ i := by
        refine Nat.le_of_not_lt fun hl => ?_
        have h := h i hl hi
        exact hn.elim h.1 h.2
      rw [Option.bind_some, List.getElem?_eq_none hl]
      rfl

theorem array_holds_by_index_last :
    "1" ≠ "length" ∧ (array 0 [.null, .bool true]).get "1" = .ok (.bool true) :=
  ⟨by decide, (array_holds_by_index 0 [.null, .bool true] "1" (by decide)).1 1 (.bool true) rfl
    (by decide) (.inl rfl)⟩

-- A name that is no canonical numeral, of an element all the same.
theorem plus_sign_names_element :
    (array 0 [.null, .bool true]).get "+001" = .ok (.bool true) ∧ ∀ i : Nat, "+001" ≠ toString i :=
  ⟨rfl, fun i => (toString_ne (c := '+') rfl (by decide) i).symm⟩

-- The characters are what a string has indices for.
theorem get_string (s : String) (i : Nat) :
    (string s).get (toString i) =
      .ok (if i < UInt64.size then (s.toList[i]?.map fun c => string (.singleton c)).getD .undefined
        else .undefined) := by
  rw [get, if_neg (toString_ne_length i)]
  by_cases hi : i < UInt64.size
  case pos =>
    rw [if_pos hi, indexOfName?_toString hi, Option.bind_some]
    cases s.toList[i]? <;> rfl
  case neg =>
    rw [if_neg hi, indexOfName?_toString_of_le (Nat.le_of_not_lt hi), Option.bind_none]

theorem get_string_ne_undefined_iff (s : String) (i : Nat) :
    (string s).get (toString i) ≠ .ok .undefined ↔ i < s.length ∧ i < UInt64.size := by
  rw [get_string, ←String.length_toList]
  split
  case isFalse hi => exact iff_of_false (fun hn => hn rfl) fun h => hi h.2
  case isTrue hi =>
    cases h : s.toList[i]?
    case none =>
      rw [List.getElem?_eq_none_iff] at h
      exact iff_of_false (fun hn => hn rfl) (by omega)
    case some c =>
      obtain ⟨h, _⟩ := List.getElem?_eq_some_iff.mp h
      exact iff_of_true (fun hn => by cases hn) ⟨h, hi⟩

-- The length counts a character outside the basic plane twice, but there is one index for it. So
-- the indices are the natural numbers below the length if there is no such character.
theorem string_length_exceeds_indices (s : String) :
    (string s).get "length" = .ok (.number (Float.ofNat (s.length + wideCount s.toList))) ∧
      (∀ (i : Nat) (c : Char), s.toList[i]? = some c → i < UInt64.size →
        (string s).get (toString i) = .ok (.string (.singleton c))) ∧
      (∀ i : Nat, s.length ≤ i → (string s).get (toString i) = .ok .undefined) ∧
      (s.length + wideCount s.toList < 2 ^ 53 →
        ((∀ (i : Nat) (x : Float), (string s).get "length" = .ok (.number x) →
            ((string s).get (toString i) ≠ .ok .undefined ↔
              (i : ℚ) < (Dyadic64.ofFloat x).value)) ↔
          ∀ c ∈ s.toList, c.toNat < 0x10000)) := by
  have hg : (string s).get "length" =
      .ok (.number (Float.ofNat (s.length + wideCount s.toList))) := by
    rw [←String.length_toList, ←unitWidth_eq]
    rfl
  refine ⟨hg, ?_, ?_, ?_⟩
  · intro i c hc hi
    rw [get_string, if_pos hi, hc]
    rfl
  · intro i hi
    rw [get_string, List.getElem?_eq_none (String.length_toList ▸ hi)]
    split <;> rfl
  · intro h
    have hv := Number.value_ofFloat_ofNat h
    rw [←wideCount_eq_zero_iff]
    constructor
    · intro hi
      have hi := hi s.length _ hg
      rw [get_string_ne_undefined_iff, hv, Nat.cast_lt] at hi
      omega
    · intro hz i x hx
      rw [hg] at hx
      cases hx
      rw [get_string_ne_undefined_iff, hv, Nat.cast_lt, hz, Nat.add_zero, and_iff_left_iff_imp]
      have : UInt64.size = 2 ^ 64 := rfl
      omega

theorem string_length_exceeds_indices_wide :
    "a😀".length + wideCount "a😀".toList < 2 ^ 53 ∧
      ¬∀ (i : Nat) (x : Float), (string "a😀").get "length" = .ok (.number x) →
        ((string "a😀").get (toString i) ≠ .ok .undefined ↔
          (i : ℚ) < (Dyadic64.ofFloat x).value) := by
  have hw : "a😀".length + wideCount "a😀".toList < 2 ^ 53 := by decide
  refine ⟨hw, fun h => ?_⟩
  have hc := ((string_length_exceeds_indices "a😀").2.2.2 hw).mp h '😀' (by decide)
  exact absurd hc (by decide)

-- The length of a single character is two, but it has no index one.
theorem length_exceeds_last_index :
    (string "😀").get "length" = .ok (.number (Float.ofNat 2)) ∧
      (1 : ℚ) < (Dyadic64.ofFloat (Float.ofNat 2)).value ∧
      (string "😀").get (toString 1) = .ok .undefined := by
  refine ⟨rfl, ?_, rfl⟩
  rw [Number.value_ofFloat_ofNat (by decide)]
  norm_num

end Value
end Stencil
