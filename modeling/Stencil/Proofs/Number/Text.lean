import Stencil.Number.Text
import Stencil.Proofs.Number.Model
import Stencil.Proofs.Number.Shortest

-- The texts of numbers. A whole number has the text of its digits, and the key of a number is its
-- text from a millionth up to `10 ^ 21`.
namespace Stencil.Number

open Float.Model Float.Model.UnpackedFloat

variable {x : Float} {s : Sign} {m n : Nat} {e : Int}

theorem Canonical.regular (h : Canonical m e) (hm : 0 < m) :
    (dyadic m e).Regular where
  pos := hm
  lt := h.lt
  tight ht := of_decide_eq_true (Bool.and_eq_true_iff.mp ht).1

theorem regular_ofFloat {hm : 0 < m} (h : x.toModel.unpack = .finite s m e hm) :
    (Dyadic64.ofFloat x).Regular := by
  rw [ofFloat_eq h]
  exact (canonical_of_unpack h).regular hm

theorem value_ofFloat {hm : 0 < m} (h : x.toModel.unpack = .finite s m e hm) :
    (Dyadic64.ofFloat x).value = m * 2 ^ e := by
  rw [ofFloat_eq h]
  rfl

theorem gap_ofFloat {hm : 0 < m} (h : x.toModel.unpack = .finite s m e hm) :
    (Dyadic64.ofFloat x).gap = 2 ^ e := by
  rw [ofFloat_eq h]
  rfl

theorem value_ofFloat_ofNat (h : n < 2 ^ 53) : (Dyadic64.ofFloat (Float.ofNat n)).value = n := by
  by_cases hn : n = 0
  case pos =>
    subst hn
    have hz : (Dyadic64.ofFloat (Float.ofNat 0)).significand = 0 := by decide
    rw [Dyadic64.value, hz, Nat.cast_zero, zero_mul]
  case neg =>
    have hn := Nat.pos_of_ne_zero hn
    rw [value_ofFloat (unpack_ofNat hn h (by positivity)), zpow_neg, zpow_natCast]
    push_cast
    field_simp

theorem gap_ofFloat_ofNat (hn : 0 < n) (h : n < 2 ^ 53) :
    (Dyadic64.ofFloat (Float.ofNat n)).gap ≤ 1 := by
  rw [gap_ofFloat (unpack_ofNat hn h (by positivity))]
  exact zpow_le_one_of_nonpos₀ (by norm_num) (by omega)

theorem text_eq {hm : 0 < m} (h : x.toModel.unpack = .finite .positive m e hm) :
    text x = .ofList (if -6 < (figures x).point ∧ (figures x).point ≤ 21 then
      (figures x).positional else (figures x).scientific) := by
  rw [text, isNaN_eq, isInf_eq, beq_zero_eq]
  simp only [signed, lt_zero_iff, h]
  rfl

theorem key_eq {hm : 0 < m} (h : x.toModel.unpack = .finite .positive m e hm) :
    key x = .ofList (figures x).positional := by
  rw [key, plain, isNaN_eq, isInf_eq, beq_zero_eq]
  simp only [signed, lt_zero_iff, h]
  rfl

theorem text_infinity (h : x.toModel.unpack = .infinity .positive) : text x = "Infinity" := by
  rw [text, isNaN_eq, isInf_eq]
  simp only [signed, lt_zero_iff, h]
  rfl

theorem key_infinity (h : x.toModel.unpack = .infinity .positive) : key x = "inf" := by
  rw [key, plain, isNaN_eq, isInf_eq, beq_zero_eq]
  simp only [signed, lt_zero_iff, h]
  rfl

theorem toDigits_mul_pow {c : Nat} (hc : 0 < c) (k : Nat) :
    Nat.toDigits 10 (c * 10 ^ k) = Nat.toDigits 10 c ++ List.replicate k '0' := by
  induction k
  case zero => simp
  case succ k hi =>
    have hp : 0 < c * 10 ^ k := Nat.mul_pos hc (by positivity)
    have ha := @Nat.toDigits_append_toDigits 10 (c * 10 ^ k) 0 (by decide) hp (by decide)
    have he : c * 10 ^ (k + 1) = 10 * (c * 10 ^ k) + 0 := by ring
    rw [he, ←ha, hi, List.append_assoc, List.replicate_succ']
    rfl

theorem reverse_dropWhile_reverse (cs : List Char) :
    ∃ j, cs = (cs.reverse.dropWhile (· == '0')).reverse ++ List.replicate j '0' := by
  refine ⟨(cs.reverse.takeWhile (· == '0')).length, ?_⟩
  have ht : cs.reverse.takeWhile (· == '0') =
      List.replicate (cs.reverse.takeWhile (· == '0')).length '0' := by
    refine List.eq_replicate_iff.mpr ⟨rfl, fun c hc => ?_⟩
    have h := List.all_eq_true.mp List.all_takeWhile c hc
    exact beq_iff_eq.mp h
  rw [←List.reverse_inj, List.reverse_append, List.reverse_replicate, ←ht, List.reverse_reverse,
    List.takeWhile_append_dropWhile]

-- The digits that the figures leave out are zeros at the end.
theorem exists_figures_append (x : Float) :
    ∃ j, Nat.toDigits 10 (Dyadic64.ofFloat x).shortest.digits =
      (figures x).digits ++ List.replicate j '0' :=
  reverse_dropWhile_reverse _

theorem point_eq (x : Float) :
    (figures x).point = (Nat.toDigits 10 (Dyadic64.ofFloat x).shortest.digits).length +
      (Dyadic64.ofFloat x).shortest.exponent :=
  rfl

theorem Figures.positional_whole {f : Figures} {j : Nat} (hp : 0 < f.point)
    (hj : f.point = f.digits.length + j) : f.positional = f.digits ++ List.replicate j '0' := by
  have hn : f.point.toNat - f.digits.length = j := by omega
  rw [positional, if_neg (by omega), if_pos (by omega), hn]

theorem text_ofNat (h : n < 2 ^ 53) : text (Float.ofNat n) = toString n := by
  by_cases hn : n = 0
  case pos =>
    subst hn
    rfl
  case neg =>
    have hn := Nat.pos_of_ne_zero hn
    have hu := unpack_ofNat hn h (by positivity)
    have hb := regular_ofFloat hu
    obtain ⟨k, hk, hd⟩ :=
      Dyadic64.shortest_natCast hb (value_ofFloat_ofNat h) (gap_ofFloat_ofNat hn h)
    obtain ⟨hp, _⟩ := Dyadic64.shortest_spec hb
    obtain ⟨j, hj⟩ := exists_figures_append (Float.ofNat n)
    -- The zeros that the figures leave out come back, and so do those of the power of ten.
    have ht : Nat.toDigits 10 n =
        (figures (Float.ofNat n)).digits ++ List.replicate (j + k) '0' := by
      rw [←List.replicate_append_replicate, ←List.append_assoc, ←hj, ←toDigits_mul_pow hp, hd]
    have hf : (figures (Float.ofNat n)).point = (Nat.toDigits 10 n).length := by
      rw [point_eq, hk, hj, ht]
      simp only [List.length_append, List.length_replicate]
      omega
    have hl : (Nat.toDigits 10 n).length ≤ 16 :=
      (Nat.length_toDigits_le_iff (by decide) (by decide)).mpr (by omega)
    have hl' := @Nat.length_toDigits_pos 10 n
    have hw : (figures (Float.ofNat n)).point =
        (figures (Float.ofNat n)).digits.length + (j + k : Nat) := by
      rw [hf, ht, List.length_append, List.length_replicate, Nat.cast_add]
    rw [text_eq hu, if_pos (by omega), Figures.positional_whole (by omega) hw, ←ht,
      Nat.toString_eq_ofList_toDigits]

-- The decimals that are nearest to a number are below those that are nearest to a larger number.
theorem Canonical.high_le_low {m' e'} (h : Canonical m e) (h' : Canonical m' e')
    (hl : e < e' ∨ e = e' ∧ m < m') :
    (dyadic m e).high ≤
      (dyadic m' e').low := by
  have hg : (0 : ℚ) < 2 ^ e := by positivity
  cases hl
  case inr hl =>
    obtain ⟨rfl, hl⟩ := hl
    refine le_trans ?_ (Dyadic64.value_sub_le_low _)
    have hl : (m : ℚ) + 1 ≤ m' := by exact_mod_cast hl
    simp only [Dyadic64.high, Dyadic64.value, Dyadic64.gap, dyadic]
    nlinarith
  case inl hl =>
    have he : -1074 < e' := by
      have := h.ge
      omega
    have hg' : (2 : ℚ) * 2 ^ e ≤ 2 ^ e' := by
      rw [←zpow_one_add₀ (by norm_num)]
      exact zpow_le_zpow_right₀ (by norm_num) (by omega)
    have hm : (m : ℚ) * 2 ^ e ≤ (2 ^ 53 - 1) * 2 ^ e := by
      have hm : (m : ℚ) + 1 ≤ 2 ^ 53 := by exact_mod_cast h.lt
      exact mul_le_mul_of_nonneg_right (by linarith) hg.le
    have hf : 2 ^ 52 ≤ m' := by
      have := h'.full
      omega
    by_cases ht : m' = 2 ^ 52
    case pos =>
      simp only [Dyadic64.low, Dyadic64.high, Dyadic64.value, Dyadic64.gap, dyadic, ht, he,
        decide_true, Bool.and_self, if_true]
      push_cast
      linarith
    case neg =>
      have hm' : ((2 ^ 52 + 1 : Nat) : ℚ) * 2 ^ e' ≤ m' * 2 ^ e' :=
        mul_le_mul_of_nonneg_right (Nat.cast_le.mpr (by omega)) (by positivity)
      refine le_trans ?_ (Dyadic64.value_sub_le_low _)
      simp only [Dyadic64.high, Dyadic64.value, Dyadic64.gap, dyadic]
      push_cast at hm'
      linarith

-- The point stands behind the place of `10 ^ j` if the figures amount to that much.
theorem lt_point_iff_le {j : Int} (hd : 0 < (Dyadic64.ofFloat x).shortest.digits) :
    j < (figures x).point ↔
      (10 : ℚ) ^ j ≤ (Dyadic64.ofFloat x).shortest.digits *
        10 ^ (Dyadic64.ofFloat x).shortest.exponent := by
  obtain ⟨hl, hu⟩ := Dyadic64.pow_length_toDigits hd
  have hp := @Nat.length_toDigits_pos 10 (Dyadic64.ofFloat x).shortest.digits
  rw [point_eq]
  generalize (Dyadic64.ofFloat x).shortest.digits = c at *
  generalize (Dyadic64.ofFloat x).shortest.exponent = k at *
  generalize (Nat.toDigits 10 c).length = l at *
  have hk : (0 : ℚ) < 10 ^ k := by positivity
  constructor
  case mp =>
    intro h
    calc (10 : ℚ) ^ j ≤ 10 ^ (((l - 1 : Nat) : Int) + k) :=
          zpow_le_zpow_right₀ (by norm_num) (by omega)
      _ = ((10 ^ (l - 1) : Nat) : ℚ) * 10 ^ k := by
          rw [zpow_add₀ (by norm_num), zpow_natCast, Nat.cast_pow, Nat.cast_ofNat]
      _ ≤ c * 10 ^ k := mul_le_mul_of_nonneg_right (Nat.cast_le.mpr hl) hk.le
  case mpr =>
    intro h
    refine (zpow_lt_zpow_iff_right₀ (by norm_num : (1 : ℚ) < 10)).mp (h.trans_lt ?_)
    calc (c : ℚ) * 10 ^ k < ((10 ^ l : Nat) : ℚ) * 10 ^ k :=
          mul_lt_mul_of_pos_right (Nat.cast_lt.mpr hu) hk
      _ = 10 ^ ((l : Int) + k) := by
          rw [zpow_add₀ (by norm_num), zpow_natCast, Nat.cast_pow, Nat.cast_ofNat]

-- A number that stands for `10 ^ j` is the least one with figures that amount to that much.
theorem lt_point_iff {j : Int} {y : Float} {m' e'} {hm : 0 < m} {hm' : 0 < m'}
    (h : x.toModel.unpack = .finite .positive m e hm)
    (h' : y.toModel.unpack = .finite .positive m' e' hm')
    (hl : (Dyadic64.ofFloat y).low < 10 ^ j) (hh : 10 ^ j ≤ (Dyadic64.ofFloat y).high)
    (hj : j < (figures y).point) :
    j < (figures x).point ↔ y ≤ x := by
  have hc := canonical_of_unpack h
  have hc' := canonical_of_unpack h'
  obtain ⟨hd, hlow, hhigh⟩ := Dyadic64.shortest_spec (regular_ofFloat h)
  rw [le_iff_of_finite h' h]
  rcases (by omega : (e < e' ∨ e = e' ∧ m < m') ∨ (e' < e ∨ e' = e ∧ m' < m) ∨ e' = e ∧ m' = m)
    with hs | hs | ⟨rfl, rfl⟩
  · have hs' := hc.high_le_low hc' hs
    rw [←ofFloat_eq h, ←ofFloat_eq h'] at hs'
    refine iff_of_false ?_ (by omega)
    rw [lt_point_iff_le hd, not_le]
    linarith
  · have hs' := hc'.high_le_low hc hs
    rw [←ofFloat_eq h, ←ofFloat_eq h'] at hs'
    refine iff_of_true ?_ (by omega)
    rw [lt_point_iff_le hd]
    linarith
  · have hf : figures x = figures y := by
      simp only [figures, ofFloat_eq h, ofFloat_eq h']
    rw [hf]
    exact iff_of_true hj (.inr ⟨rfl, Nat.le_refl _⟩)

theorem lt_point_iff_millionth {hm : 0 < m} (h : x.toModel.unpack = .finite .positive m e hm) :
    -6 < (figures x).point ↔ 1e-6 ≤ x := by
  have hy : Dyadic64.ofFloat 1e-6 = ⟨4722366482869645, -72, false⟩ := rfl
  refine lt_point_iff h rfl ?_ ?_ (by decide)
  · rw [hy]
    norm_num [Dyadic64.low, Dyadic64.value, Dyadic64.gap]
  · rw [hy]
    norm_num [Dyadic64.high, Dyadic64.value, Dyadic64.gap]

theorem lt_point_iff_sextillion {hm : 0 < m} (h : x.toModel.unpack = .finite .positive m e hm) :
    21 < (figures x).point ↔ 1e21 ≤ x := by
  have hy : Dyadic64.ofFloat 1e21 = ⟨7629394531250000, 17, false⟩ := rfl
  refine lt_point_iff h rfl ?_ ?_ (by decide)
  · rw [hy]
    norm_num [Dyadic64.low, Dyadic64.value, Dyadic64.gap]
  · rw [hy]
    norm_num [Dyadic64.high, Dyadic64.value, Dyadic64.gap]

theorem isDigit_of_mem_figures {c : Char} (h : c ∈ (figures x).digits) : c.isDigit = true := by
  obtain ⟨j, hj⟩ := exists_figures_append x
  have h := List.mem_append_left (List.replicate j '0') h
  rw [←hj] at h
  exact Nat.isDigit_of_mem_toDigits (by decide) (by decide) h

theorem not_mem_positional (x : Float) : 'e' ∉ (figures x).positional := by
  have hd : 'e' ∉ (figures x).digits := by
    intro h
    cases isDigit_of_mem_figures h
  have ht (n : Nat) : 'e' ∉ (figures x).digits.take n := fun h => hd (List.mem_of_mem_take h)
  have hr (n : Nat) : 'e' ∉ (figures x).digits.drop n := fun h => hd (List.mem_of_mem_drop h)
  unfold Figures.positional
  split
  · simp [hd]
  · split <;> simp [hd, ht, hr]

theorem mem_scientific (f : Figures) : 'e' ∈ f.scientific := by
  simp [Figures.scientific]

-- Where the two texts of a number that is not below zero are the same.
theorem key_eq_text_iff (h : Unsigned x.toModel.unpack) :
    key x = text x ↔ x == 0 ∨ 1e-6 ≤ x ∧ x < 1e21 := by
  cases hu : x.toModel.unpack
  case notANumber =>
    rw [hu] at h
    cases h
  case infinity s =>
    rw [hu] at h
    cases h
    rw [key_infinity hu, text_infinity hu, beq_zero_eq, lt_iff, hu]
    refine iff_of_false (by decide) ?_
    rintro (h | ⟨_, h⟩) <;> cases h
  case zero s =>
    rw [hu] at h
    cases h
    have hz : (x == 0) = true := by
      rw [beq_zero_eq, hu]
      rfl
    have ht : text x = "0" := by
      rw [text, isNaN_eq, isInf_eq, hz, hu]
      rfl
    rw [key, if_pos hz, ht]
    exact iff_of_true rfl (.inl hz)
  case finite s m e hm =>
    rw [hu] at h
    cases h
    rw [key_eq hu, text_eq hu, beq_zero_eq, hu, ←lt_point_iff_millionth hu,
      ←not_le_iff_of_finite hu rfl, ←lt_point_iff_sextillion hu, Int.not_lt]
    split
    case isTrue hp => simp [hp]
    case isFalse hp =>
      refine iff_of_false (fun he => ?_) ?_
      · have he := String.ofList_injective he
        exact not_mem_positional x (he ▸ mem_scientific _)
      · rintro (hz | hr)
        · cases hz
        · exact hp hr

end Stencil.Number
