import Mathlib.Algebra.Field.Rat
import Mathlib.Algebra.Order.Field.Power
import Mathlib.Algebra.Order.Ring.Rat
import Mathlib.Tactic.FieldSimp
import Mathlib.Tactic.Linarith
import Mathlib.Tactic.Positivity
import Mathlib.Tactic.Ring
import Stencil.Number.Shortest

-- The shortest decimal of a number is one that is nearest to that number.
namespace Stencil.Dyadic64

variable {b : Dyadic64} {k k' : Int} {a c : Nat}

-- What the number amounts to.
def value (b : Dyadic64) : ℚ :=
  b.significand * 2 ^ b.exponent

-- The distance to the next larger number.
def gap (b : Dyadic64) : ℚ :=
  2 ^ b.exponent

-- The ends of the interval of what is nearest to the number.
def low (b : Dyadic64) : ℚ :=
  b.value - if b.tight then b.gap / 4 else b.gap / 2

def high (b : Dyadic64) : ℚ :=
  b.value + b.gap / 2

-- What holds of the magnitude of a finite number other than zero.
structure Regular (b : Dyadic64) : Prop where
  pos : 0 < b.significand
  lt : b.significand < 2 ^ 53
  tight : b.tight = true → b.significand = 2 ^ 52

theorem value_eq : b.value = b.significand * b.gap :=
  rfl

theorem gap_pos (b : Dyadic64) : 0 < b.gap := by
  unfold gap
  positivity

theorem value_pos (hb : b.Regular) : 0 < b.value :=
  mul_pos (Nat.cast_pos.mpr hb.pos) b.gap_pos

theorem low_lt_value (b : Dyadic64) : b.low < b.value := by
  have hg := b.gap_pos
  rw [low]
  split <;> linarith

theorem value_lt_high (b : Dyadic64) : b.value < b.high := by
  have hg := b.gap_pos
  rw [high]
  linarith

theorem value_sub_le_low (b : Dyadic64) : b.value - b.gap / 2 ≤ b.low := by
  have hg := b.gap_pos
  rw [low]
  split <;> linarith

theorem quarter_pos (b : Dyadic64) : 0 < b.quarter.1 ∧ 0 < b.quarter.2 := by
  simp only [quarter, Nat.pow_eq]
  split <;> simp

theorem quarter_eq (b : Dyadic64) : (b.quarter.1 : ℚ) = b.gap / 4 * b.quarter.2 := by
  simp only [quarter, Nat.pow_eq, gap]
  split
  case isTrue =>
    obtain ⟨j, hj⟩ : ∃ j : Nat, b.exponent = j + 2 := ⟨(b.exponent - 2).toNat, by omega⟩
    have ht : (b.exponent - 2).toNat = j := by omega
    rw [ht, hj, zpow_add₀ (by norm_num), zpow_natCast]
    push_cast
    ring
  case isFalse =>
    obtain ⟨j, hj⟩ : ∃ j : Nat, b.exponent = 2 - j := ⟨(2 - b.exponent).toNat, by omega⟩
    have ht : (2 - b.exponent).toNat = j := by omega
    rw [ht, hj, zpow_sub₀ (by norm_num), zpow_natCast]
    push_cast
    field_simp

theorem tenth_pos (k : Int) : 0 < (tenth k).1 ∧ 0 < (tenth k).2 := by
  simp only [tenth, Nat.pow_eq]
  split <;> simp

theorem tenth_eq (k : Int) : ((tenth k).1 : ℚ) = 10 ^ k * (tenth k).2 := by
  simp only [tenth, Nat.pow_eq]
  split
  case isTrue h =>
    obtain ⟨j, rfl⟩ := Int.eq_ofNat_of_zero_le h
    simp
  case isFalse =>
    obtain ⟨j, rfl⟩ : ∃ j : Nat, k = -j := ⟨(-k).toNat, by omega⟩
    simp

theorem value_eq_quarters : b.value = (4 * b.significand : Nat) * (b.gap / 4) := by
  rw [value_eq]
  push_cast
  ring

theorem low_eq_quarters (hb : 0 < b.significand) :
    b.low = (4 * b.significand - if b.tight then 1 else 2 : Nat) * (b.gap / 4) := by
  rw [low, value_eq_quarters, Nat.cast_sub (by split <;> omega)]
  split <;> push_cast <;> ring

theorem high_eq_quarters : b.high = (4 * b.significand + 2 : Nat) * (b.gap / 4) := by
  rw [high, value_eq_quarters]
  push_cast
  ring

-- Whole numbers are compared in the place of fractions, with both sides multiplied alike.
theorem cast_quarters (b : Dyadic64) (a : Nat) (k : Int) :
    ((a * b.quarter.1 * (tenth k).2 : Nat) : ℚ) =
      a * (b.gap / 4) * (b.quarter.2 * (tenth k).2) := by
  push_cast
  rw [quarter_eq]
  ring

theorem cast_tenths (b : Dyadic64) (c : Nat) (k : Int) :
    ((c * (tenth k).1 * b.quarter.2 : Nat) : ℚ) = c * 10 ^ k * (b.quarter.2 * (tenth k).2) := by
  push_cast
  rw [tenth_eq]
  ring

theorem scale_pos (b : Dyadic64) (k : Int) : (0 : ℚ) < b.quarter.2 * (tenth k).2 := by
  have hd := b.quarter_pos.2
  have hr := (tenth_pos k).2
  positivity

theorem quarters_le_iff :
    a * b.quarter.1 * (tenth k).2 ≤ c * (tenth k).1 * b.quarter.2 ↔
      (a : ℚ) * (b.gap / 4) ≤ c * 10 ^ k := by
  rw [←mul_le_mul_iff_left₀ (scale_pos b k), ←cast_quarters, ←cast_tenths, Nat.cast_le]

theorem le_quarters_iff :
    c * (tenth k).1 * b.quarter.2 ≤ a * b.quarter.1 * (tenth k).2 ↔
      (c : ℚ) * 10 ^ k ≤ a * (b.gap / 4) := by
  rw [←mul_le_mul_iff_left₀ (scale_pos b k), ←cast_quarters, ←cast_tenths, Nat.cast_le]

theorem owns_iff (hb : 0 < b.significand) :
    b.owns k c = true ↔
      if b.significand % 2 = 0 then b.low ≤ c * 10 ^ k ∧ c * 10 ^ k ≤ b.high
      else b.low < c * 10 ^ k ∧ c * 10 ^ k < b.high := by
  have ho : b.owns k c =
      let low := (4 * b.significand - if b.tight then 1 else 2) * b.quarter.1 * (tenth k).2
      let high := (4 * b.significand + 2) * b.quarter.1 * (tenth k).2
      let x := c * (tenth k).1 * b.quarter.2
      if b.significand % 2 = 0 then low ≤ x && x ≤ high else low < x && x < high := rfl
  rw [ho, low_eq_quarters hb, high_eq_quarters]
  simp only
  split
  · rw [Bool.and_eq_true, decide_eq_true_eq, decide_eq_true_eq, quarters_le_iff, le_quarters_iff]
  · rw [Bool.and_eq_true, decide_eq_true_eq, decide_eq_true_eq, ←Nat.not_le, ←Nat.not_le,
      quarters_le_iff, le_quarters_iff, not_le, not_le]

theorem owns_of_lt (hb : 0 < b.significand) (hl : b.low < c * 10 ^ k) (hh : c * 10 ^ k < b.high) :
    b.owns k c = true := by
  rw [owns_iff hb]
  split
  · exact ⟨hl.le, hh.le⟩
  · exact ⟨hl, hh⟩

theorem le_of_owns (hb : 0 < b.significand) (h : b.owns k c = true) :
    b.low ≤ c * 10 ^ k ∧ c * 10 ^ k ≤ b.high := by
  rw [owns_iff hb] at h
  split at h
  · exact h
  · exact ⟨h.1.le, h.2.le⟩

-- How many times `10 ^ k` goes into the number.
def below (b : Dyadic64) (k : Int) : Nat :=
  4 * b.significand * b.quarter.1 * (tenth k).2 / ((tenth k).1 * b.quarter.2)

theorem below_le (b : Dyadic64) (k : Int) : b.below k * 10 ^ k ≤ b.value := by
  have h : b.below k * ((tenth k).1 * b.quarter.2) ≤
      4 * b.significand * b.quarter.1 * (tenth k).2 := Nat.div_mul_le_self ..
  rwa [←Nat.mul_assoc, le_quarters_iff, ←value_eq_quarters] at h

theorem lt_below (b : Dyadic64) (k : Int) : b.value < (b.below k + 1 : Nat) * 10 ^ k := by
  have hp : 0 < (tenth k).1 * b.quarter.2 := Nat.mul_pos (tenth_pos k).1 b.quarter_pos.2
  have h : 4 * b.significand * b.quarter.1 * (tenth k).2 <
      (b.below k + 1) * ((tenth k).1 * b.quarter.2) :=
    (Nat.div_lt_iff_lt_mul hp).mp (Nat.lt_succ_self _)
  rwa [←Nat.mul_assoc, ←Nat.not_le, le_quarters_iff, ←value_eq_quarters, not_le] at h

theorem onGrid?_eq (b : Dyadic64) (k : Int) :
    ∃ nearer, (nearer = b.below k ∨ nearer = b.below k + 1) ∧
      b.onGrid? k =
        if b.owns k (b.below k) then
          if b.owns k (b.below k + 1) then some nearer else some (b.below k)
        else if b.owns k (b.below k + 1) then some (b.below k + 1) else none := by
  let v := 4 * b.significand * b.quarter.1 * (tenth k).2
  let g := (tenth k).1 * b.quarter.2
  refine ⟨if (b.below k + 1) * g - v ≤ v - b.below k * g then b.below k + 1 else b.below k, ?_, ?_⟩
  · split
    · exact .inr rfl
    · exact .inl rfl
  · unfold onGrid?
    cases h : b.owns k (b.below k) <;> cases h' : b.owns k (b.below k + 1)
    all_goals
      simp only [below] at h h'
      simp only [below, h, h']
      rfl

theorem owns_of_onGrid? (h : b.onGrid? k = some c) :
    b.owns k c = true ∧ (c = b.below k ∨ c = b.below k + 1) := by
  obtain ⟨nearer, hn, ho⟩ := onGrid?_eq b k
  rw [ho] at h
  split at h
  case isTrue hb =>
    split at h <;> cases h
    case isFalse => exact ⟨hb, .inl rfl⟩
    case isTrue hb' =>
      cases hn
      case inl hn => exact ⟨hn ▸ hb, .inl hn⟩
      case inr hn => exact ⟨hn ▸ hb', .inr hn⟩
  case isFalse =>
    split at h <;> cases h
    case isTrue hb' => exact ⟨hb', .inr rfl⟩

theorem exists_onGrid? (h : b.owns k (b.below k) = true ∨ b.owns k (b.below k + 1) = true) :
    ∃ c, b.onGrid? k = some c := by
  obtain ⟨_, _, ho⟩ := onGrid?_eq b k
  rw [ho]
  cases h
  case inl h =>
    rw [if_pos h]
    split <;> exact ⟨_, rfl⟩
  case inr h =>
    rw [if_pos h, if_pos h]
    split <;> exact ⟨_, rfl⟩

-- A grid that is finer than the interval has a point in it.
theorem exists_onGrid?_of_lt (hb : 0 < b.significand) (h : 10 ^ k < b.high - b.low) :
    ∃ c, b.onGrid? k = some c := by
  have hl := below_le b k
  have hu := lt_below b k
  have hv := b.low_lt_value
  have hv' := b.value_lt_high
  apply exists_onGrid?
  by_cases ho : b.low < b.below k * 10 ^ k
  case pos => exact .inl (owns_of_lt hb ho (by linarith))
  case neg =>
    refine .inr (owns_of_lt hb (by linarith) ?_)
    push_cast
    linarith

-- The length of a numeral tells between which powers of ten its number is.
theorem pow_length_toDigits (hc : 0 < c) :
    10 ^ ((Nat.toDigits 10 c).length - 1) ≤ c ∧ c < 10 ^ (Nat.toDigits 10 c).length := by
  have hp : 0 < (Nat.toDigits 10 c).length := Nat.length_toDigits_pos
  refine ⟨?_, (Nat.length_toDigits_le_iff (by decide) hp).mp (Nat.le_refl _)⟩
  by_cases h : (Nat.toDigits 10 c).length - 1 = 0
  case pos =>
    rw [h]
    exact hc
  case neg =>
    refine Nat.le_of_not_lt fun hl => ?_
    have hl := (Nat.length_toDigits_le_iff (by decide) (Nat.pos_of_ne_zero h)).mpr hl
    omega

theorem magnitude_eq (b : Dyadic64) :
    b.magnitude =
      if b.quarter.2 ≤ 4 * b.significand * b.quarter.1 then
        ((Nat.toDigits 10 (4 * b.significand * b.quarter.1 / b.quarter.2)).length : Int)
      else 1 - (Nat.toDigits 10 (b.quarter.2 / (4 * b.significand * b.quarter.1))).length :=
  rfl

theorem cast_value (b : Dyadic64) :
    ((4 * b.significand * b.quarter.1 : Nat) : ℚ) = b.value * b.quarter.2 := by
  rw [Nat.cast_mul, quarter_eq, value_eq_quarters]
  ring

theorem pow_magnitude_le (hb : 0 < b.significand) : 10 ^ (b.magnitude - 1) ≤ b.value := by
  have hd := b.quarter_pos.2
  have hn : 0 < 4 * b.significand * b.quarter.1 := Nat.mul_pos (by omega) b.quarter_pos.1
  refine le_of_mul_le_mul_right ?_ (Nat.cast_pos.mpr hd)
  rw [←cast_value, magnitude_eq]
  split
  case isTrue h =>
    have hp := @Nat.length_toDigits_pos 10 (4 * b.significand * b.quarter.1 / b.quarter.2)
    have hl := (pow_length_toDigits (Nat.div_pos h hd)).1
    rw [Nat.le_div_iff_mul_le hd] at hl
    generalize (Nat.toDigits 10 (4 * b.significand * b.quarter.1 / b.quarter.2)).length = l at *
    have he : (l : Int) - 1 = (l - 1 : Nat) := by omega
    rw [he, zpow_natCast]
    exact_mod_cast hl
  case isFalse h =>
    have hl := (pow_length_toDigits (Nat.div_pos (Nat.le_of_not_le h) hn)).2
    rw [Nat.div_lt_iff_lt_mul hn] at hl
    generalize (Nat.toDigits 10 (b.quarter.2 / (4 * b.significand * b.quarter.1))).length = l at *
    have he : 1 - (l : Int) - 1 = -l := by omega
    rw [he, zpow_neg, zpow_natCast, inv_mul_le_iff₀ (by positivity)]
    exact_mod_cast hl.le

theorem magnitude_pos (h : 1 ≤ b.value) : 0 < b.magnitude := by
  have hn : b.quarter.2 ≤ 4 * b.significand * b.quarter.1 := by
    rw [←@Nat.cast_le ℚ, cast_value]
    exact le_mul_of_one_le_left (Nat.cast_nonneg _) h
  rw [magnitude_eq, if_pos hn]
  exact Int.natCast_pos.mpr Nat.length_toDigits_pos

theorem magnitude_le (hb : b.Regular) (hg : b.gap ≤ 1) : b.magnitude ≤ 16 := by
  have hs : (b.significand : ℚ) < 2 ^ 53 := by exact_mod_cast hb.lt
  have hv : b.value < 10 ^ (16 : Int) := by
    calc b.value ≤ b.significand := mul_le_of_le_one_right (Nat.cast_nonneg _) hg
      _ < 2 ^ 53 := hs
      _ < 10 ^ (16 : Int) := by norm_num
  have h := (zpow_lt_zpow_iff_right₀ (by norm_num)).mp ((pow_magnitude_le hb.pos).trans_lt hv)
  omega

theorem below_pos (hb : 0 < b.significand) (hk : k < b.magnitude) : 0 < b.below k := by
  have hm : (10 : ℚ) ^ k ≤ 10 ^ (b.magnitude - 1) := zpow_le_zpow_right₀ (by norm_num) (by omega)
  have hl := (hm.trans (pow_magnitude_le hb)).trans_lt (lt_below b k)
  refine Nat.pos_of_ne_zero fun hz => ?_
  rw [hz] at hl
  simp at hl

-- Seventeen digits are enough: the interval is wider than a grid that fine.
theorem exists_onGrid?_last (hb : b.Regular) : ∃ c, b.onGrid? (b.magnitude - 17) = some c := by
  have hg := b.gap_pos
  have hv := pow_magnitude_le hb.pos
  have he : b.magnitude - 1 = b.magnitude - 17 + 16 := by omega
  rw [he, zpow_add₀ (by norm_num), value_eq] at hv
  refine exists_onGrid?_of_lt hb.pos ?_
  rw [low, high]
  cases ht : b.tight
  case true =>
    rw [hb.tight ht] at hv
    norm_num at hv ⊢
    linarith
  case false =>
    have hs : (b.significand : ℚ) * b.gap ≤ 2 ^ 53 * b.gap :=
      mul_le_mul_of_nonneg_right (by exact_mod_cast hb.lt.le) hg.le
    norm_num at hv hs ⊢
    linarith

-- The search ends at the coarsest grid that has a point, and so no later than at `k'`.
theorem shortest_go (n : Nat) (k : Int) (h : ∃ c, b.onGrid? k' = some c) (hk : k' ≤ k)
    (hn : k < k' + n) :
    b.onGrid? (shortest.go b n k).exponent = some (shortest.go b n k).digits ∧
      k' ≤ (shortest.go b n k).exponent ∧ (shortest.go b n k).exponent ≤ k := by
  induction n generalizing k
  case zero => omega
  case succ n hi =>
    cases ho : b.onGrid? k
    case some c =>
      have hg : shortest.go b (n + 1) k = ⟨c, k⟩ := by simp [shortest.go, ho]
      rw [hg]
      exact ⟨ho, hk, le_refl k⟩
    case none =>
      have hg : shortest.go b (n + 1) k = shortest.go b n (k - 1) := by simp [shortest.go, ho]
      have hne : k' ≠ k := by
        rintro rfl
        obtain ⟨c, hc⟩ := h
        cases ho.symm.trans hc
      obtain ⟨hs, hl, hu⟩ := hi (k - 1) (by omega) (by omega)
      rw [hg]
      exact ⟨hs, hl, by omega⟩

theorem shortest_onGrid? (h : ∃ c, b.onGrid? k' = some c) (hl : k' < b.magnitude)
    (hn : b.magnitude ≤ k' + 17) :
    b.onGrid? b.shortest.exponent = some b.shortest.digits ∧
      k' ≤ b.shortest.exponent ∧ b.shortest.exponent < b.magnitude := by
  obtain ⟨ho, hk, hm⟩ := shortest_go 17 (b.magnitude - 1) h (by omega) (by omega)
  exact ⟨ho, hk, Int.lt_of_le_sub_one hm⟩

theorem shortest_spec (hb : b.Regular) :
    0 < b.shortest.digits ∧ b.low ≤ b.shortest.digits * 10 ^ b.shortest.exponent ∧
      b.shortest.digits * 10 ^ b.shortest.exponent ≤ b.high := by
  obtain ⟨ho, _, hm⟩ := shortest_onGrid? (exists_onGrid?_last hb) (by omega) (by omega)
  obtain ⟨ho, hc⟩ := owns_of_onGrid? ho
  have hp := below_pos hb.pos hm
  exact ⟨by omega, le_of_owns hb.pos ho⟩

-- A whole number is its own shortest decimal, apart from zeros at the end.
theorem shortest_natCast {i : Nat} (hb : b.Regular) (hv : b.value = i) (hg : b.gap ≤ 1) :
    ∃ k : Nat, b.shortest.exponent = k ∧ b.shortest.digits * 10 ^ k = i := by
  have hi : b.below 0 = i := by
    have hl := below_le b 0
    have hu := lt_below b 0
    rw [zpow_zero, mul_one, hv] at hl hu
    have hl := Nat.cast_le.mp hl
    have hu := Nat.cast_lt.mp hu
    omega
  have ho : ∃ c, b.onGrid? 0 = some c := by
    refine exists_onGrid? (.inl (owns_of_lt hb.pos ?_ ?_))
    · rw [hi, zpow_zero, mul_one, ←hv]
      exact b.low_lt_value
    · rw [hi, zpow_zero, mul_one, ←hv]
      exact b.value_lt_high
  have hp : 1 ≤ b.value := by
    have hp := value_pos hb
    rw [hv] at hp ⊢
    exact_mod_cast hp
  have hm := magnitude_le hb hg
  obtain ⟨_, hk, _⟩ := shortest_onGrid? ho (magnitude_pos hp) (by omega)
  obtain ⟨k, hk⟩ := Int.eq_ofNat_of_zero_le hk
  refine ⟨k, hk, ?_⟩
  -- The grid is one of whole numbers, and at most half a one is between its point and the number.
  obtain ⟨_, hl, hu⟩ := shortest_spec hb
  rw [hk, zpow_natCast] at hl hu
  have hl : (i : ℚ) < (b.shortest.digits * 10 ^ k + 1 : Nat) := by
    have h := b.value_sub_le_low
    push_cast
    linarith
  have hu : ((b.shortest.digits * 10 ^ k : Nat) : ℚ) < (i + 1 : Nat) := by
    rw [high] at hu
    push_cast
    linarith
  have hl := Nat.cast_lt.mp hl
  have hu := Nat.cast_lt.mp hu
  omega

end Stencil.Dyadic64
