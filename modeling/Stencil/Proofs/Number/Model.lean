import Mathlib
import Stencil.Number.Shortest

-- What floating-point numbers are made of: a sign, a significand and an exponent of two.
namespace Stencil.Number

open Float.Model Float.Model.UnpackedFloat

variable {s : Sign} {m n : Nat} {e : Int} {x : Float} {u v : UnpackedFloat}

theorem toNat_unpackMantissa (b : BitVec Format.binary64.numBits) :
    (unpackMantissa b).toNat = b.toNat % 2 ^ 52 := by
  simp [unpackMantissa]

theorem toNat_unpackExponent (b : BitVec Format.binary64.numBits) :
    (unpackExponent b).toNat = b.toNat / 2 ^ 52 % 2 ^ 11 := by
  simp [unpackExponent, Nat.shiftRight_eq_div_pow]

theorem toNat_append (v : BitVec 52) : (1#1 ++ v).toNat = 2 ^ 52 + v.toNat := by
  rw [BitVec.toNat_append, ←Nat.shiftLeft_add_eq_or_of_lt v.isLt]
  rfl

-- The fields of the word of a finite number.
theorem fields_of_unpack {hm : 0 < m} (h : x.toModel.unpack = .finite s m e hm) :
    (x.toBits.toNat / 2 ^ 52 % 2 ^ 11 = 0 ∧ m = x.toBits.toNat % 2 ^ 52 ∧ e = -1074) ∨
      (0 < x.toBits.toNat / 2 ^ 52 % 2 ^ 11 ∧ x.toBits.toNat / 2 ^ 52 % 2 ^ 11 < 2047 ∧
        m = 2 ^ 52 + x.toBits.toNat % 2 ^ 52 ∧
        e = (x.toBits.toNat / 2 ^ 52 % 2 ^ 11 : Nat) - 1075) := by
  have hv := toNat_unpackMantissa x.toBits.toBitVec
  have hf := toNat_unpackExponent x.toBits.toBitVec
  have hb : x.toBits.toBitVec.toNat = x.toBits.toNat := rfl
  have hu : x.toModel.unpack = UnpackedFloat.unpack .binary64 x.toBits.toBitVec := rfl
  rw [hu] at h
  unfold UnpackedFloat.unpack at h
  rw [←hb, ←hv, ←hf]
  simp only at h
  split at h
  case isTrue => split at h <;> cases h
  case isFalse hi =>
    split at h
    case isTrue hz =>
      split at h
      case isTrue => cases h
      case isFalse =>
        injection h with _ hm he
        refine .inl ⟨congrArg BitVec.toNat hz, hm.symm, ?_⟩
        rw [←he, hz]
        rfl
    case isFalse hz =>
      injection h with _ hm he
      rw [toNat_append] at hm
      refine .inr ⟨?_, ?_, hm.symm, he.symm⟩
      · exact Nat.pos_of_ne_zero fun h => hz (BitVec.eq_of_toNat_eq h)
      · refine Nat.lt_of_le_of_ne (Nat.le_of_lt_succ (BitVec.isLt _)) ?_
        exact fun h => hi (BitVec.eq_of_toNat_eq h)

-- The significands and exponents of finite numbers.
structure Canonical (m : Nat) (e : Int) : Prop where
  lt : m < 2 ^ 53
  ge : -1074 ≤ e
  le : e ≤ 971
  full : 2 ^ 52 ≤ m ∨ e = -1074

theorem canonical_of_unpack {hm : 0 < m} (h : x.toModel.unpack = .finite s m e hm) :
    Canonical m e := by
  obtain ⟨_, hm, he⟩ | ⟨hf, hf', hm, he⟩ := fields_of_unpack h
  · exact ⟨by omega, by omega, by omega, .inr he⟩
  · exact ⟨by omega, by omega, by omega, .inl (by omega)⟩

-- The magnitude of such a number. The least significand is one after a change of the exponent.
def dyadic (m : Nat) (e : Int) : Dyadic64 :=
  ⟨m, e, m = 2 ^ 52 && -1074 < e⟩

theorem ofFloat_eq {hm : 0 < m} (h : x.toModel.unpack = .finite s m e hm) :
    Dyadic64.ofFloat x = dyadic m e := by
  simp only [Dyadic64.ofFloat, dyadic, Nat.pow_eq]
  obtain ⟨hf, hm, he⟩ | ⟨hf, _, hm, he⟩ := fields_of_unpack h
  · rw [if_pos hf, ←hm, he]
    simp
  · have ht : (x.toBits.toNat % 2 ^ 52 = 0 ↔ m = 2 ^ 52) ∧
        (1 < x.toBits.toNat / 2 ^ 52 % 2 ^ 11 ↔ -1074 < e) := by omega
    rw [if_neg hf.ne', ←hm, ←he, decide_eq_decide.mpr ht.1, decide_eq_decide.mpr ht.2]

theorem lt_iff (x y : Float) : x < y ↔ x.toModel.unpack.lt y.toModel.unpack = true :=
  decide_eq_true_iff

theorem le_iff (x y : Float) : x ≤ y ↔ x.toModel.unpack.le y.toModel.unpack = true :=
  decide_eq_true_iff

section Comparison

variable {y : Float} {m' : Nat} {e' : Int} {hm : 0 < m} {hm' : 0 < m'}
variable (h : x.toModel.unpack = .finite .positive m e hm)
variable (h' : y.toModel.unpack = .finite .positive m' e' hm')
include h h'

-- The exponents are compared first.
theorem le_iff_of_finite : x ≤ y ↔ e < e' ∨ e = e' ∧ m ≤ m' := by
  have hc : (UnpackedFloat.finite .positive m e hm).le (.finite .positive m' e' hm') =
      ((compare e e').then (compare m m')).isLE := rfl
  rw [le_iff, h, h', hc, Ordering.isLE_then_iff_or]
  simp [Int.compare_eq_lt, Nat.isLE_compare]

theorem lt_iff_of_finite : x < y ↔ e < e' ∨ e = e' ∧ m < m' := by
  have hc : (UnpackedFloat.finite .positive m e hm).lt (.finite .positive m' e' hm') =
      (some ((compare e e').then (compare m m')) == some .lt) := rfl
  rw [lt_iff, h, h', hc, beq_iff_eq, Option.some_inj, Ordering.then_eq_lt]
  simp [Int.compare_eq_lt, Nat.compare_eq_lt]

theorem not_le_iff_of_finite : ¬y ≤ x ↔ x < y := by
  rw [le_iff_of_finite h' h, lt_iff_of_finite h h']
  omega

end Comparison

theorem isNaN_eq (x : Float) : x.isNaN = x.toModel.unpack.isNaN :=
  rfl

theorem isInf_eq (x : Float) : x.isInf = x.toModel.unpack.isInf :=
  rfl

theorem beq_zero_eq (x : Float) : (x == 0) = x.toModel.unpack.beq (.zero .positive) :=
  rfl

theorem lt_zero_iff (x : Float) : x < 0 ↔ x.toModel.unpack.lt (.zero .positive) = true :=
  lt_iff x 0

theorem unpack_packComponents (s : Sign) (f : BitVec 11) (v : BitVec 52) :
    UnpackedFloat.unpack .binary64 (packComponents .binary64 s f v) =
      if f = -1#11 then if v = 0#52 then .infinity s else .notANumber
      else if f = 0#11 then
        if h : v = 0#52 then .zero s
        else .finite s v.toNat (-1074) (by simpa [BitVec.toNat_pos, BitVec.pos_iff_ne_zero])
      else .finite s (2 ^ 52 + v.toNat) (f.toNat - 1075) (by omega) := by
  simp only [UnpackedFloat.unpack, unpackMantissa_packComponents, unpackExponent_packComponents,
    unpackSign_packComponents, Sign.ofBitVec_toBitVec, toNat_append]
  by_cases hf : f = 0#11
  case pos =>
    subst hf
    rfl
  case neg =>
    simp only [hf, if_false]
    rfl

theorem pack_finite (s : Sign) (hm : 0 < m) (e : Int) :
    UnpackedFloat.pack .binary64 (.finite s m e hm) =
      if 2 ^ 11 ≤ (e + 1023 + 52).toNat + 1 then packedInfinity .binary64 s
      else if m.log2 + 1 = 53 then
        packComponents .binary64 s (BitVec.ofNat 11 (e + 1023 + 52).toNat) (BitVec.ofNat 52 m)
      else packComponents .binary64 s 0#11 (BitVec.ofNat 52 m) :=
  rfl

theorem unpack_pack {hm : 0 < m} (h : Canonical m e) :
    (Float.Model.pack (.finite s m e hm)).unpack = .finite s m e hm := by
  obtain ⟨hl, hg, he, hf⟩ := h
  have hu : (Float.Model.pack (.finite s m e hm)).unpack =
      UnpackedFloat.unpack .binary64 (UnpackedFloat.pack .binary64 (.finite s m e hm)) := rfl
  rw [hu, pack_finite, if_neg (by omega)]
  by_cases hm' : 2 ^ 52 ≤ m
  case pos =>
    have hlog : m.log2 = 52 := (Nat.log2_eq_iff hm.ne').mpr ⟨hm', hl⟩
    have hn : (BitVec.ofNat 11 (e + 1023 + 52).toNat).toNat = (e + 1075).toNat := by
      rw [BitVec.toNat_ofNat]
      omega
    have hi : BitVec.ofNat 11 (e + 1023 + 52).toNat ≠ -1#11 := by
      intro h
      have h : (e + 1075).toNat = 2047 := hn.symm.trans (congrArg BitVec.toNat h)
      omega
    have hz : BitVec.ofNat 11 (e + 1023 + 52).toNat ≠ 0#11 := by
      intro h
      have h : (e + 1075).toNat = 0 := hn.symm.trans (congrArg BitVec.toNat h)
      omega
    rw [if_pos (by rw [hlog]), unpack_packComponents, if_neg hi, if_neg hz]
    congr 1
    · rw [BitVec.toNat_ofNat]
      omega
    · omega
  case neg =>
    have hlog : m.log2 < 52 := (Nat.log2_lt hm.ne').mpr (by omega)
    have hn : (BitVec.ofNat 52 m).toNat = m := by
      rw [BitVec.toNat_ofNat]
      omega
    have hz : BitVec.ofNat 52 m ≠ 0#52 := by
      intro h
      have h : m = 0 := hn.symm.trans (congrArg BitVec.toNat h)
      omega
    rw [if_neg (by omega), unpack_packComponents, if_neg (by decide), if_pos rfl, dif_neg hz]
    congr 1
    exact (hf.resolve_left hm').symm

theorem shiftRight_eq (m j : Nat) :
    (⟨m * 2 ^ j, false, false⟩ : ExtendedMantissa) >>> j = ⟨m, false, false⟩ := by
  induction j generalizing m
  case zero =>
    rw [Nat.pow_zero, Nat.mul_one]
    rfl
  case succ j hi =>
    have hs : (⟨m * 2 ^ (j + 1), false, false⟩ : ExtendedMantissa) >>> (j + 1) =
        ((⟨m * 2 * 2 ^ j, false, false⟩ : ExtendedMantissa) >>> j).shiftRightOne := by
      rw [Nat.mul_assoc, ←Nat.pow_succ']
      rfl
    rw [hs, hi]
    simp [ExtendedMantissa.shiftRightOne]

theorem log2_mul_two_pow (hm : 0 < m) (j : Nat) : (m * 2 ^ j).log2 = m.log2 + j := by
  induction j
  case zero => rw [Nat.pow_zero, Nat.mul_one, Nat.add_zero]
  case succ j hi =>
    have hp : 0 < m * 2 ^ j := Nat.mul_pos hm (Nat.two_pow_pos j)
    rw [Nat.pow_succ', Nat.mul_left_comm, Nat.log2_two_mul hp.ne', hi, Nat.add_assoc]

theorem targetExponent_eq (t : Int) :
    Format.binary64.targetExponent t = max (t - 53) (-1074) :=
  rfl

theorem Canonical.targetExponent_eq (h : Canonical m e) (hm : 0 < m) :
    Format.binary64.targetExponent (m.log2 + 1 + e) = e := by
  obtain ⟨hl, hg, _, hf⟩ := h
  have hlog : m.log2 < 53 := (Nat.log2_lt hm.ne').mpr hl
  rw [Number.targetExponent_eq]
  cases hf
  case inl hf =>
    have hlog : 52 ≤ m.log2 := (Nat.le_log2 hm.ne').mpr hf
    omega
  case inr => omega

-- Rounding drops zeros after the significand of a number, and nothing else.
theorem Canonical.round_eq (h : Canonical m e) (s : Sign) (hm : 0 < m) (j : Nat) :
    roundWithAccuracy .binary64 s (m * 2 ^ j) (e - j) .exact = .finite s m e hm := by
  have hs (j : Nat) :
      shiftToTargetExponent .binary64 (m * 2 ^ j) (e - j) .exact = (⟨m, false, false⟩, e) := by
    have ht : totalExponent (m * 2 ^ j) (e - j) = m.log2 + 1 + e := by
      rw [totalExponent, log2_mul_two_pow hm]
      omega
    have hj : (e - (e - j)).toNat = j := by omega
    simp only [shiftToTargetExponent, shiftToExponent, ht, h.targetExponent_eq hm, hj,
      ExtendedMantissa.ofMantissaAndAccuracy, shiftRight_eq, Int.sub_add_cancel]
  have hs' := hs 0
  rw [Nat.pow_zero, Nat.mul_one, Int.natCast_zero, Int.sub_zero] at hs'
  simp [roundWithAccuracy, hs, hs', ExtendedMantissa.roundedMantissa, ExtendedMantissa.accuracy,
    Accuracy.roundToNearestEven, hm.ne']

-- How many zeros go after a natural number to fill a significand.
def room (n : Nat) : Nat :=
  52 - n.log2

theorem full_room (hn : 0 < n) (h : n < 2 ^ 53) :
    2 ^ 52 ≤ n * 2 ^ room n ∧ n * 2 ^ room n < 2 ^ 53 := by
  have hlog : n.log2 < 53 := (Nat.log2_lt hn.ne').mpr h
  have hp : 0 < n * 2 ^ room n := Nat.mul_pos hn (Nat.two_pow_pos _)
  refine (Nat.log2_eq_iff hp.ne').mp ?_
  rw [log2_mul_two_pow hn, room]
  omega

theorem canonical_room (hn : 0 < n) (h : n < 2 ^ 53) : Canonical (n * 2 ^ room n) (-room n) := by
  obtain ⟨hf, hl⟩ := full_room hn h
  refine ⟨hl, ?_, by omega, .inl hf⟩
  rw [room]
  omega

theorem ofNat_eq_finite (hn : 0 < n) (h : n < 2 ^ 53) (hm : 0 < n * 2 ^ room n) :
    UnpackedFloat.ofNat .binary64 n = .finite .positive (n * 2 ^ room n) (-room n) hm := by
  have hlog : n.log2 < 53 := (Nat.log2_lt hn.ne').mpr h
  have hg : compare (n : Int) 0 = .gt := Int.compare_eq_gt.mpr (by omega)
  have hj : (0 - Format.binary64.targetExponent (totalExponent n 0)).toNat = room n := by
    rw [targetExponent_eq, totalExponent, room]
    omega
  have hd : decreaseExponent n 0 (Format.binary64.targetExponent (totalExponent n 0)) =
      (n * 2 ^ room n, -(room n : Int)) := by
    rw [decreaseExponent, hj, Nat.shiftLeft_eq, Int.zero_sub]
  have hr := (canonical_room hn h).round_eq .positive hm 0
  rw [Nat.pow_zero, Nat.mul_one, Int.natCast_zero, Int.sub_zero] at hr
  simp only [UnpackedFloat.ofNat, UnpackedFloat.ofInt, UnpackedFloat.normalize, hg,
    UnpackedFloat.round, Int.toNat_natCast, hd, hr]

theorem unpack_toFloat (hn : 0 < n) (h : n < 2 ^ 53) (hm : 0 < n * 2 ^ room n) :
    n.toUInt64.toFloat.toModel.unpack = .finite .positive (n * 2 ^ room n) (-room n) hm := by
  have hw : n.toUInt64.toNat = n := by
    rw [UInt64.toNat_ofNat']
    omega
  have hu : n.toUInt64.toFloat.toModel =
      Float.Model.pack (UnpackedFloat.ofNat .binary64 n.toUInt64.toNat) := rfl
  rw [hu, hw, ofNat_eq_finite hn h hm, unpack_pack (canonical_room hn h)]

theorem unpack_mul (x y : Float) :
    (x * y).toModel.unpack =
      (Float.Model.pack (UnpackedFloat.mul .binary64 x.toModel.unpack y.toModel.unpack)).unpack :=
  rfl

-- A natural number below `2 ^ 53` is a number as it is.
theorem unpack_ofNat (hn : 0 < n) (h : n < 2 ^ 53) (hm : 0 < n * 2 ^ room n) :
    (Float.ofNat n).toModel.unpack = .finite .positive (n * 2 ^ room n) (-room n) hm := by
  have ho : (Float.ofBits 0x3FF0000000000000).toModel.unpack =
      .finite .positive (2 ^ 52) (-52) (by decide) := rfl
  have hx : Float.ofNat n = n.toUInt64.toFloat * Float.ofBits 0x3FF0000000000000 := by
    have hs : Float.ofNat n = Float.ofScientific n false 0 := rfl
    rw [hs, Float.ofScientific, dif_pos ⟨h, by decide⟩]
    rfl
  have hc := canonical_room hn h
  rw [hx, unpack_mul, unpack_toFloat hn h hm, ho]
  exact (congrArg _ (congrArg _ (hc.round_eq .positive hm 52))).trans (unpack_pack hc)

-- A number that is not below zero, and no negative zero either.
def Unsigned : UnpackedFloat → Prop
  | .infinity s | .zero s | .finite s _ _ _ => s = .positive
  | .notANumber => False

theorem unsigned_packComponents {f : BitVec 11} {v : BitVec 52} (h : f = -1#11 → v = 0#52) :
    Unsigned (UnpackedFloat.unpack .binary64 (packComponents .binary64 .positive f v)) := by
  rw [unpack_packComponents]
  split
  case isTrue hf =>
    rw [if_pos (h hf)]
    rfl
  case isFalse =>
    split
    case isTrue => split <;> rfl
    case isFalse => rfl

theorem Unsigned.pack (h : Unsigned u) : Unsigned (Float.Model.pack u).unpack := by
  have hu : (Float.Model.pack u).unpack =
      UnpackedFloat.unpack .binary64 (UnpackedFloat.pack .binary64 u) := rfl
  rw [hu]
  cases u <;> cases h
  case infinity => exact unsigned_packComponents fun _ => rfl
  case zero => exact unsigned_packComponents fun _ => rfl
  case finite m e hm =>
    rw [pack_finite]
    split
    case isTrue => exact unsigned_packComponents fun _ => rfl
    case isFalse he =>
      split
      case isFalse => exact unsigned_packComponents fun h => absurd h (by decide)
      case isTrue =>
        refine unsigned_packComponents fun h => ?_
        have h : (e + 1023 + 52).toNat % 2 ^ 11 = 2047 := congrArg BitVec.toNat h
        omega

theorem unsigned_round (m : Nat) (e : Int) (a : Accuracy) :
    Unsigned (roundWithAccuracy .binary64 .positive m e a) := by
  simp only [roundWithAccuracy]
  split <;> rfl

-- A positive number that is not infinite.
def isPositive : UnpackedFloat → Bool
  | .finite .positive _ _ _ => true
  | _ => false

theorem eq_finite_of_isPositive (h : isPositive u = true) :
    ∃ m e hm, u = .finite .positive m e hm := by
  cases u <;> try cases h
  case finite s m e hm =>
    cases s <;> cases h
    exact ⟨m, e, hm, rfl⟩

theorem unsigned_mul (hu : u = .zero .positive ∨ isPositive u = true) (hv : isPositive v = true) :
    Unsigned (UnpackedFloat.mul .binary64 u v) := by
  obtain ⟨_, _, _, rfl⟩ := eq_finite_of_isPositive hv
  cases hu
  case inl hu =>
    subst hu
    rfl
  case inr hu =>
    obtain ⟨_, _, _, rfl⟩ := eq_finite_of_isPositive hu
    exact unsigned_round _ _ _

theorem unsigned_div (hu : u = .zero .positive ∨ isPositive u = true) (hv : isPositive v = true) :
    Unsigned (UnpackedFloat.div .binary64 u v) := by
  obtain ⟨_, _, _, rfl⟩ := eq_finite_of_isPositive hv
  cases hu
  case inl hu =>
    subst hu
    rfl
  case inr hu =>
    obtain ⟨_, _, _, rfl⟩ := eq_finite_of_isPositive hu
    exact unsigned_round _ _ _

theorem isPositive_powerOfTen :
    ∀ i : Fin 23, isPositive (Float.exactlyRepresentablePowersOfTen[i]).toModel.unpack = true := by
  decide

theorem unsigned_scaled (m : Nat) (e : Int) :
    Unsigned (UnpackedFloat.ofScientific .binary64 m e) := by
  unfold UnpackedFloat.ofScientific
  split
  case isTrue => rfl
  split
  case isTrue => rfl
  split
  case isTrue => rfl
  split
  case isTrue => exact unsigned_mul (.inr rfl) rfl
  case isFalse => exact unsigned_div (.inr rfl) rfl

theorem unsigned_ofScientific (m : Nat) (s : Bool) (e : Nat) :
    Unsigned (Float.ofScientific m s e).toModel.unpack := by
  unfold Float.ofScientific
  split
  case isTrue h =>
    have hu : m.toUInt64.toFloat.toModel.unpack = .zero .positive ∨
        isPositive m.toUInt64.toFloat.toModel.unpack = true := by
      cases m
      case zero => exact .inl rfl
      case succ m =>
        rw [unpack_toFloat (by omega) h.1 (by simp)]
        exact .inr rfl
    have hv := isPositive_powerOfTen ⟨e, by omega⟩
    simp only
    split
    case isTrue => exact (unsigned_div hu hv).pack
    case isFalse => exact (unsigned_mul hu hv).pack
  case isFalse => exact (unsigned_scaled m _).pack

theorem unsigned_toFloat (d : Decimal) : Unsigned d.toFloat.toModel.unpack := by
  unfold Decimal.toFloat
  simp only
  split
  case isTrue => rfl
  split
  case isTrue => rfl
  case isFalse => exact unsigned_ofScientific _ _ _

end Stencil.Number
