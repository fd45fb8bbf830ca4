import AvroColumns.Proofs.Numeric.Rounding

namespace AvroColumns

def signed (negative : Bool) (q : ℚ) : ℚ :=
  if negative then -q else q

def Reading.value? : Reading → Option ℚ
  | .finite negative m e => some (signed negative (m * 2 ^ e))
  | _ => none

namespace Format

variable {f : Format} {negative : Bool} {num den m magnitude : Nat} {e : ℤ}

theorem value?_read (negative : Bool) (h : magnitude < twoTo (f.fraction + f.exponent)) :
    (f.read (f.sign negative + magnitude)).value? =
      (f.read (f.sign negative + magnitude)).magnitude?.map (signed negative) := by
  rw [read_sign_add negative h]
  split
  · split <;> rfl
  · split <;> rfl

theorem value?_round (negative : Bool) (num den : Nat) :
    (f.read (f.round negative num den)).value? =
      (f.read (f.round negative num den)).magnitude?.map (signed negative) := by
  rw [round]
  split
  · exact value?_read negative (twoTo_pos _)
  · exact value?_read negative (lt_of_le_of_lt (min_le_right _ _) (infinity_lt f))

theorem placeExponent_le (hn : 0 < num) (hd : 0 < den) (hq : (num : ℚ) / den = m * 2 ^ e)
    (hm : m < twoTo (f.fraction + 1)) (he : f.leastExponent ≤ e) : f.placeExponent num den ≤ e := by
  rcases (placeExponent_cases f hn hd).2 with h | h
  · exact h ▸ he
  · have hlt : (2 : ℚ) ^ (f.placeExponent num den + f.fraction) < 2 ^ (e + 1 + f.fraction) := by
      calc (2 : ℚ) ^ (f.placeExponent num den + f.fraction) ≤ m * 2 ^ e := hq ▸ h
        _ < twoTo (f.fraction + 1) * 2 ^ e := by gcongr
        _ = 2 ^ (e + 1 + f.fraction) := by
          rw [cast_twoTo, ← zpow_add₀ two_ne_zero]
          congr 1
          push_cast
          ring
    have := (zpow_lt_zpow_iff_right₀ one_lt_two).mp hlt
    omega

theorem value?_round_exact (hw : 2 ≤ f.exponent) (hd : 0 < den) (hq : (num : ℚ) / den = m * 2 ^ e)
    (hm : m < twoTo (f.fraction + 1)) (he : f.leastExponent ≤ e) (hr : (num : ℚ) / den ≤ f.largest) :
    (f.read (f.round negative num den)).value? = some (signed negative (num / den)) := by
  rw [value?_round]
  rcases num.eq_zero_or_pos with rfl | hn
  · simp [magnitude_round_zero hw]
  rcases exists_significand hw negative hn hd with ⟨-, hlarge⟩ | ⟨significand, hread, hnear⟩
  · exact absurd hr (not_le.mpr hlarge)
  · obtain ⟨k, hk⟩ := Int.le.dest (placeExponent_le hn hd hq hm he)
    have hwhole : (num : ℚ) / den / 2 ^ f.placeExponent num den = (m * twoTo k : Nat) := by
      rw [hq, ← hk, zpow_add₀ two_ne_zero, Nat.cast_mul, cast_twoTo]
      field_simp
    -- A significand and a whole number that are nearer than one half are equal.
    have heq : significand = m * twoTo k := by
      rw [hwhole] at hnear
      have hlt : |(significand : ℤ) - (m * twoTo k : Nat)| < 1 := by
        exact_mod_cast lt_of_le_of_lt hnear one_half_lt_one
      rw [Int.abs_lt_one_iff] at hlt
      omega
    rw [hread, heq, ← hwhole, div_mul_cancel₀ _ (zpow_ne_zero _ two_ne_zero), Option.map_some]

theorem bounds_of_read {bits : Nat} (h : f.read bits = .finite negative m e) :
    m < twoTo (f.fraction + 1) ∧ f.leastExponent ≤ e ∧
      e ≤ f.leastExponent + (twoTo f.exponent - 3 : Nat) := by
  have hfraction := Nat.mod_lt bits (twoTo_pos f.fraction)
  have hfield := Nat.mod_lt (bits / twoTo f.fraction) (twoTo_pos f.exponent)
  rw [twoTo_succ]
  simp only [read] at h
  split at h
  · split at h <;> cases h
  · split at h <;> cases h <;> omega

end Format

def IsNearest (q : ℚ) (n : ℤ) : Prop :=
  |n - q| ≤ 1 / 2 ∧ (|n - q| = 1 / 2 → |q| < |(n : ℚ)|)

theorem IsNearest.not_lt {q : ℚ} {n k : ℤ} (hn : IsNearest q n) (hk : IsNearest q k) : ¬ n < k := by
  intro hlt
  obtain ⟨hn, htie⟩ := hn
  obtain ⟨hk, htie'⟩ := hk
  rw [abs_sub_le_iff] at hn hk
  have hstep : (n : ℚ) + 1 ≤ k := by exact_mod_cast hlt
  have hq : q = n + 1 / 2 := by linarith
  have hk : (k : ℚ) = n + 1 := by linarith
  rw [hk, hq] at htie'
  rw [hq] at htie
  have hbelow := sq_lt_sq.mpr (htie (by norm_num))
  have habove := sq_lt_sq.mpr (htie' (by norm_num))
  have hneg : n < 0 := by
    have : (n : ℚ) < 0 := by nlinarith
    exact_mod_cast this
  have hnonneg : -1 < n := by
    have : (-1 : ℚ) < n := by nlinarith
    exact_mod_cast this
  omega

theorem IsNearest.unique {q : ℚ} {n k : ℤ} (hn : IsNearest q n) (hk : IsNearest q k) : n = k :=
  le_antisymm (le_of_not_gt (hk.not_lt hn)) (le_of_not_gt (hn.not_lt hk))

theorem IsNearest.neg {q : ℚ} {n : ℤ} (h : IsNearest q n) : IsNearest (-q) (-n) := by
  have hsub : ((-n : ℤ) : ℚ) - -q = -(n - q) := by
    push_cast
    ring
  rw [IsNearest, hsub, Int.cast_neg, abs_neg, abs_neg, abs_neg]
  exact h

theorem isNearest_div (num : Nat) {den : Nat} (hd : 0 < den) :
    IsNearest (num / den) ((2 * num + den) / (2 * den) : Nat) := by
  have hd' : (0 : ℚ) < den := by exact_mod_cast hd
  have hfloor := Nat.div_add_mod (2 * num + den) (2 * den)
  have hmod := Nat.mod_lt (2 * num + den) (by omega : 0 < 2 * den)
  generalize (2 * num + den) / (2 * den) = n at hfloor
  generalize (2 * num + den) % (2 * den) = r at hfloor hmod
  have hq : (num : ℚ) / den = n - 1 / 2 + r / (2 * den) := by
    have hcast : (2 * num + den : ℚ) = 2 * den * n + r := by exact_mod_cast hfloor.symm
    field_simp
    linarith
  have hpart : (r : ℚ) / (2 * den) < 1 := by
    rw [div_lt_one (by positivity)]
    exact_mod_cast hmod
  have hpart' : (0 : ℚ) ≤ r / (2 * den) := by positivity
  have hnonneg : (0 : ℚ) ≤ num / den := by positivity
  rw [IsNearest, Int.cast_natCast, abs_of_nonneg hnonneg, Nat.abs_cast]
  refine ⟨abs_sub_le_iff.mpr ⟨by linarith, by linarith⟩, fun htie => ?_⟩
  rcases abs_eq_abs.mp (htie.trans (abs_of_pos one_half_pos).symm) with h | h <;> linarith

namespace Binary64

variable {x : Binary64} {n : ℤ}

def value? (x : Binary64) : Option ℚ :=
  x.read.value?

theorem roundHalfAway?_eq_some_iff :
    x.roundHalfAway? = some n ↔ ∃ q, x.value? = some q ∧ IsNearest q n := by
  rw [roundHalfAway?, value?]
  cases x.read with
  | nan => simp [Reading.value?]
  | infinite => simp [Reading.value?]
  | finite negative m e =>
    have hnear := isNearest_div (m * twoTo e.toNat) (twoTo_pos (-e).toNat)
    rw [Format.div_twoTo] at hnear
    simp only [Reading.value?, Option.some.injEq, exists_eq_left']
    cases negative with
    | false => exact ⟨fun h => h ▸ hnear, hnear.unique⟩
    | true => exact ⟨fun h => h ▸ hnear.neg, hnear.neg.unique⟩

end Binary64

namespace Binary32

def value? (x : Binary32) : Option ℚ :=
  x.read.value?

@[simp] theorem value?_toBinary64 (x : Binary32) : x.toBinary64.value? = x.value? := by
  rw [toBinary64, value?]
  cases hx : x.read with
  | nan => rfl
  | infinite negative => cases negative <;> rfl
  | finite negative m e =>
    obtain ⟨hm, hle, hge⟩ := Format.bounds_of_read hx
    have hq := Format.div_twoTo m e
    have hwide : m < twoTo (Format.double.fraction + 1) := hm.trans (by decide)
    have hleast : Format.double.leastExponent ≤ e := le_trans (by decide) hle
    have hlargest : (m : ℚ) * 2 ^ e ≤ Format.double.largest := by
      have hpower : e ≤ 104 := hge
      calc (m : ℚ) * 2 ^ e ≤ twoTo (Format.single.fraction + 1) * 2 ^ (104 : ℤ) := by
            gcongr
            exact one_le_two
        _ ≤ 2 ^ 200 := by
            rw [cast_twoTo]
            norm_num [Format.single]
        _ ≤ Format.double.largest := Binary64.le_largest
    rw [Binary64.value?, Binary64.read_ofRatio,
      Format.value?_round_exact (by decide) (twoTo_pos _) hq hwide hleast (hq ▸ hlargest), hq]
    rfl

end Binary32

end AvroColumns
