import Mathlib.Algebra.Order.Field.Power
import Mathlib.Data.Rat.Floor
import Mathlib.Tactic.Linarith
import AvroColumns.Numeric.Decimal

namespace AvroColumns

@[simp] theorem cast_tenTo (n : Nat) : (tenTo n : ℚ) = 10 ^ (n : ℤ) := by
  rw [zpow_natCast]
  exact Nat.cast_pow 10 n

/-- The integer between zero and a number that is nearest to the number. -/
def truncation (q : ℚ) : ℤ :=
  if 0 ≤ q then ⌊q⌋ else ⌈q⌉

variable {q : ℚ} {n : ℤ}

@[simp] theorem truncation_neg (q : ℚ) : truncation (-q) = -truncation q := by
  rcases lt_trichotomy q 0 with h | rfl | h
  · rw [truncation, truncation, if_pos (by linarith), if_neg (by linarith), Int.floor_neg]
  · simp [truncation]
  · rw [truncation, truncation, if_neg (by linarith), if_pos h.le, Int.ceil_neg]

@[simp] theorem truncation_intCast (n : ℤ) : truncation n = n := by
  simp [truncation]

@[simp] theorem truncation_div (n : ℤ) (d : Nat) : truncation (n / d) = n.tdiv d := by
  have nonneg (m : ℤ) (hm : 0 ≤ m) : truncation (m / d) = m.tdiv d := by
    have hq : (0 : ℚ) ≤ m / d := div_nonneg (by exact_mod_cast hm) (Nat.cast_nonneg d)
    rw [truncation, if_pos hq, Rat.floor_intCast_div_natCast, Int.tdiv_eq_ediv_of_nonneg hm]
  rcases le_total 0 n with hn | hn
  · exact nonneg n hn
  · have hneg := nonneg (-n) (by omega)
    rwa [Int.cast_neg, neg_div, truncation_neg, Int.neg_tdiv, neg_inj] at hneg

theorem truncation_eq_zero (h : |q| < 1) : truncation q = 0 := by
  rw [abs_lt] at h
  rw [truncation]
  split
  next hq => exact Int.floor_eq_zero_iff.mpr ⟨hq, h.2⟩
  next hq => exact Int.ceil_eq_zero_iff.mpr ⟨h.1, by linarith⟩

theorem abs_truncation (q : ℚ) : |truncation q| = ⌊|q|⌋ := by
  rcases le_total 0 q with h | h
  · rw [abs_of_nonneg h, truncation, if_pos h, abs_of_nonneg (Int.floor_nonneg.mpr h)]
  · rw [abs_of_nonpos h, ← neg_neg (truncation q), ← truncation_neg, abs_neg, truncation,
      if_pos (neg_nonneg.mpr h), abs_of_nonneg (Int.floor_nonneg.mpr (neg_nonneg.mpr h))]

namespace Decimal

variable {d : Decimal}

def value (d : Decimal) : ℚ :=
  d.unscaled * 10 ^ (-d.scale)

theorem truncate_eq (d : Decimal) : d.truncate = truncation d.value := by
  rw [truncate, value]
  rcases le_total 0 d.scale with h | h
  · have hvalue : (d.unscaled : ℚ) * 10 ^ (-d.scale) = d.unscaled / (tenTo d.scale.toNat : Nat) := by
      rw [cast_tenTo, Int.toNat_of_nonneg h, zpow_neg, div_eq_mul_inv]
    rw [hvalue, truncation_div, Int.toNat_eq_zero.mpr (neg_nonpos.mpr h)]
    exact mul_one _
  · have hvalue : (d.unscaled : ℚ) * 10 ^ (-d.scale) =
        (d.unscaled * tenTo (-d.scale).toNat : ℤ) := by
      rw [Int.cast_mul, Int.cast_natCast, cast_tenTo, Int.toNat_of_nonneg (neg_nonneg.mpr h)]
    rw [hvalue, truncation_intCast, Int.toNat_eq_zero.mpr h]
    exact congrArg (· * _) (Int.tdiv_one _)

theorem abs_value_bounds (h : d.unscaled ≠ 0) :
    10 ^ (d.wholeDigits - 1) ≤ |d.value| ∧ |d.value| < 10 ^ d.wholeDigits := by
  have hten : (0 : ℚ) < 10 := by norm_num
  have hvalue : |d.value| = d.unscaled.natAbs * 10 ^ (-d.scale) := by
    rw [value, abs_mul, abs_of_pos (zpow_pos hten _), Nat.cast_natAbs, Int.cast_abs]
  have hpos : 0 < d.unscaled.natAbs := Int.natAbs_pos.mpr h
  rw [hvalue, wholeDigits]
  generalize d.unscaled.natAbs = m at hpos ⊢
  have hlength := Nat.length_toDigits_pos (b := 10) (n := m)
  have hlt : m < 10 ^ (Nat.toDigits 10 m).length :=
    (Nat.length_toDigits_le_iff (by decide) hlength).mp le_rfl
  have hge : 10 ^ ((Nat.toDigits 10 m).length - 1) ≤ m := by
    rcases Nat.eq_or_lt_of_le (Nat.succ_le_of_lt hlength) with hone | hmore
    · rw [← hone]
      exact hpos
    · by_contra! hbelow
      have := (Nat.length_toDigits_le_iff (by decide) (by omega)).mpr hbelow
      omega
  generalize (Nat.toDigits 10 m).length = k at hlength hlt hge
  constructor
  · calc (10 : ℚ) ^ ((k : ℤ) - d.scale - 1) = 10 ^ ((k - 1 : Nat) : ℤ) * 10 ^ (-d.scale) := by
          rw [← zpow_add₀ hten.ne']
          congr 1
          omega
      _ ≤ m * 10 ^ (-d.scale) := by
          gcongr
          exact_mod_cast hge
  · calc (m : ℚ) * 10 ^ (-d.scale) < 10 ^ (k : ℤ) * 10 ^ (-d.scale) := by
          gcongr
          exact_mod_cast hlt
      _ = 10 ^ ((k : ℤ) - d.scale) := by
          rw [← zpow_add₀ hten.ne', sub_eq_add_neg]

theorem truncation_eq_zero_of_wholeDigits (h : d.unscaled = 0 ∨ d.wholeDigits ≤ 0) :
    truncation d.value = 0 := by
  by_cases hz : d.unscaled = 0
  · rw [value, hz, Int.cast_zero, zero_mul]
    exact truncation_intCast 0
  · apply truncation_eq_zero
    exact (abs_value_bounds hz).2.trans_le
      (zpow_le_one_of_nonpos₀ (by norm_num) (h.resolve_left hz))

theorem not_fitsInt64_of_wholeDigits (hz : d.unscaled ≠ 0) (h : 19 < d.wholeDigits) :
    ¬ fitsInt64 (truncation d.value) := by
  have hlarge : (10000000000000000000 : ℤ) ≤ |truncation d.value| := by
    rw [abs_truncation, Int.le_floor]
    calc ((10000000000000000000 : ℤ) : ℚ) = 10 ^ (19 : ℤ) := by norm_num
      _ ≤ 10 ^ (d.wholeDigits - 1) := zpow_le_zpow_right₀ (by norm_num) (by omega)
      _ ≤ |d.value| := (abs_value_bounds hz).1
  rw [le_abs] at hlarge
  simp only [fitsInt64, Bool.and_eq_true, decide_eq_true_eq]
  omega

theorem int64?_eq_some_iff : d.int64? = some n ↔ truncation d.value = n ∧ fitsInt64 n := by
  rw [int64?]
  split
  next hfew =>
    rw [truncation_eq_zero_of_wholeDigits hfew, Option.some.injEq]
    refine ⟨?_, And.left⟩
    rintro rfl
    exact ⟨rfl, by decide⟩
  next hfew =>
    split
    next hmany =>
      refine iff_of_false nofun ?_
      rintro ⟨rfl, hfits⟩
      exact not_fitsInt64_of_wholeDigits (fun hz => hfew (.inl hz)) hmany hfits
    next =>
      rw [← truncate_eq]
      simp only [Option.ite_none_right_eq_some, Option.some.injEq]
      constructor
      · rintro ⟨hfits, rfl⟩
        exact ⟨rfl, hfits⟩
      · rintro ⟨rfl, hfits⟩
        exact ⟨hfits, rfl⟩

end Decimal

end AvroColumns
