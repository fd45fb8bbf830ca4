import Mathlib.Algebra.Order.Field.Power
import Mathlib.Data.Rat.Floor
import Mathlib.Tactic.FieldSimp
import Mathlib.Tactic.Linarith
import AvroColumns.Numeric.Binary

/-!
# Rounding

The number of a format that `Format.round` finds for a fraction differs from it by at most half of
the last place. A significand and its power of two become an exponent field and a fraction field by
one sum, whether or not the significand carries; the fields are read back as the same value.
-/

namespace AvroColumns

@[simp] theorem cast_twoTo (n : Nat) : (twoTo n : ℚ) = 2 ^ (n : ℤ) := by
  rw [zpow_natCast]
  exact Nat.cast_pow 2 n

theorem twoTo_add (m n : Nat) : twoTo (m + n) = twoTo m * twoTo n :=
  Nat.pow_add 2 m n

def Reading.magnitude? : Reading → Option ℚ
  | .finite _ m e => some (m * (2 : ℚ) ^ e)
  | _ => none

namespace Format

variable {f : Format} {negative : Bool} {num den magnitude significand offset : Nat}

theorem sign_eq (f : Format) (negative : Bool) :
    f.sign negative = twoTo f.fraction * (twoTo f.exponent * negative.toNat) := by
  rw [sign, twoTo_add]
  cases negative <;> simp

theorem read_sign_add (negative : Bool) (h : magnitude < twoTo (f.fraction + f.exponent)) :
    f.read (f.sign negative + magnitude) =
      if magnitude / twoTo f.fraction = twoTo f.exponent - 1 then
        if magnitude % twoTo f.fraction = 0 then .infinite negative else .nan
      else if magnitude / twoTo f.fraction = 0 then
        .finite negative (magnitude % twoTo f.fraction) f.leastExponent
      else .finite negative (twoTo f.fraction + magnitude % twoTo f.fraction)
        (f.leastExponent + (magnitude / twoTo f.fraction : Nat) - 1) := by
  have hp := twoTo_pos f.fraction
  rw [twoTo_add] at h
  have hfraction : (f.sign negative + magnitude) % twoTo f.fraction =
      magnitude % twoTo f.fraction := by
    rw [sign_eq, Nat.mul_add_mod]
  have hfields : (f.sign negative + magnitude) / twoTo f.fraction =
      twoTo f.exponent * negative.toNat + magnitude / twoTo f.fraction := by
    rw [sign_eq, Nat.mul_add_div hp]
  have hfield : magnitude / twoTo f.fraction < twoTo f.exponent := Nat.div_lt_of_lt_mul h
  have hsign : (f.sign negative + magnitude) / twoTo (f.fraction + f.exponent) = negative.toNat := by
    rw [twoTo_add, ← Nat.div_div_eq_div_mul, hfields, Nat.mul_add_div (twoTo_pos _),
      Nat.div_eq_of_lt hfield, Nat.add_zero]
  rw [read, hfraction, hfields, Nat.mul_add_mod, Nat.mod_eq_of_lt hfield, hsign]
  cases negative <;> rfl

theorem infinity_lt (f : Format) : f.infinity < twoTo (f.fraction + f.exponent) := by
  rw [infinity, twoTo_add, Nat.mul_comm (twoTo f.fraction)]
  exact Nat.mul_lt_mul_of_pos_right (Nat.sub_one_lt (twoTo_pos _).ne') (twoTo_pos _)

@[simp] theorem magnitude_read_infinity (f : Format) (negative : Bool) :
    (f.read (f.sign negative + f.infinity)).magnitude? = none := by
  have hdiv : f.infinity / twoTo f.fraction = twoTo f.exponent - 1 :=
    Nat.mul_div_cancel _ (twoTo_pos _)
  have hmod : f.infinity % twoTo f.fraction = 0 := Nat.mul_mod_left _ _
  rw [read_sign_add negative (infinity_lt f), hdiv, hmod, if_pos rfl, if_pos rfl]
  rfl

theorem magnitude_read_normal (negative : Bool) (hs : significand < twoTo f.fraction)
    (h : (offset + 1) * twoTo f.fraction + significand < f.infinity) :
    (f.read (f.sign negative + ((offset + 1) * twoTo f.fraction + significand))).magnitude? =
      some ((twoTo f.fraction + significand : Nat) * (2 : ℚ) ^ (f.leastExponent + offset)) := by
  have hdiv : ((offset + 1) * twoTo f.fraction + significand) / twoTo f.fraction = offset + 1 := by
    rw [Nat.mul_comm, Nat.mul_add_div (twoTo_pos _), Nat.div_eq_of_lt hs, Nat.add_zero]
  have hmod : ((offset + 1) * twoTo f.fraction + significand) % twoTo f.fraction = significand := by
    rw [Nat.mul_comm, Nat.mul_add_mod, Nat.mod_eq_of_lt hs]
  have hfield : offset + 1 ≠ twoTo f.exponent - 1 := by
    rw [← hdiv]
    exact ((Nat.div_lt_iff_lt_mul (twoTo_pos _)).mpr h).ne
  rw [read_sign_add negative (h.trans (infinity_lt f)), hdiv, hmod, if_neg hfield,
    if_neg (Nat.succ_ne_zero offset), Reading.magnitude?]
  congr 3
  push_cast
  ring

theorem magnitude_read (negative : Bool) (hs : significand ≤ twoTo (f.fraction + 1))
    (ho : twoTo f.fraction ≤ significand ∨ offset = 0)
    (h : offset * twoTo f.fraction + significand < f.infinity) :
    (f.read (f.sign negative + (offset * twoTo f.fraction + significand))).magnitude? =
      some (significand * (2 : ℚ) ^ (f.leastExponent + offset)) := by
  rw [twoTo_succ] at hs
  rcases Nat.lt_or_ge significand (twoTo f.fraction) with hlt | hge
  · obtain rfl : offset = 0 := ho.resolve_left (Nat.not_le.mpr hlt)
    have hfield : 0 ≠ twoTo f.exponent - 1 := by
      intro h0
      rw [infinity, ← h0, Nat.zero_mul] at h
      exact Nat.not_lt_zero _ h
    rw [read_sign_add negative (h.trans (infinity_lt f)), Nat.zero_mul, Nat.zero_add,
      Nat.div_eq_of_lt hlt, Nat.mod_eq_of_lt hlt, if_neg hfield, if_pos rfl, Reading.magnitude?]
    simp
  obtain ⟨rest, rfl⟩ := Nat.exists_eq_add_of_le hge
  rcases Nat.lt_or_ge rest (twoTo f.fraction) with hrest | hcarry
  · have hsum : offset * twoTo f.fraction + (twoTo f.fraction + rest) =
        (offset + 1) * twoTo f.fraction + rest := by ring
    rw [hsum] at h ⊢
    exact magnitude_read_normal negative hrest h
  · -- The significand carries into the exponent field.
    obtain rfl : rest = twoTo f.fraction := by omega
    have hsum : offset * twoTo f.fraction + (twoTo f.fraction + twoTo f.fraction) =
        (offset + 1 + 1) * twoTo f.fraction + 0 := by ring
    rw [hsum] at h ⊢
    rw [magnitude_read_normal negative (twoTo_pos _) h, Nat.add_zero]
    push_cast
    rw [← add_assoc, zpow_add_one₀ two_ne_zero]
    congr 1
    ring

theorem divideToEven_bounds (num : Nat) (hd : 0 < den) :
    2 * num ≤ den * (2 * divideToEven num den + 1) ∧
      den * (2 * divideToEven num den) ≤ 2 * num + den := by
  have hnum := Nat.div_add_mod num den
  have hr := Nat.mod_lt num hd
  have hparity := Nat.mod_two_eq_zero_or_one (num / den)
  rw [divideToEven]
  generalize num / den = q at hnum hparity ⊢
  generalize num % den = r at hnum hr ⊢
  subst hnum
  split
  · constructor <;> nlinarith
  · split
    · rcases hparity with h | h <;> rw [h] <;> constructor <;> nlinarith
    · constructor <;> nlinarith

theorem divideToEven_near (num : Nat) (hd : 0 < den) :
    |(divideToEven num den : ℚ) - num / den| ≤ 1 / 2 := by
  have hd' : (0 : ℚ) < den := by exact_mod_cast hd
  obtain ⟨hle, hge⟩ := divideToEven_bounds num hd
  have hle' : (2 * num : ℚ) ≤ den * (2 * divideToEven num den + 1) := by exact_mod_cast hle
  have hge' : (den * (2 * divideToEven num den) : ℚ) ≤ 2 * num + den := by exact_mod_cast hge
  rw [abs_sub_le_iff]
  constructor
  · rw [sub_le_comm, le_div_iff₀ hd']
    linarith
  · rw [sub_le_iff_le_add, div_le_iff₀ hd']
    linarith

theorem twoTo_toNat (e : ℤ) : (2 : ℚ) ^ (e.toNat : ℤ) = 2 ^ e * 2 ^ ((-e).toNat : ℤ) := by
  rw [← zpow_add₀ two_ne_zero]
  congr 1
  omega

theorem div_twoTo (m : Nat) (e : ℤ) :
    ((m * twoTo e.toNat : Nat) : ℚ) / (twoTo (-e).toNat : Nat) = m * 2 ^ e := by
  push_cast
  rw [cast_twoTo, cast_twoTo, twoTo_toNat e]
  field_simp

theorem scaled_div (num den : Nat) (e : ℤ) :
    ((num * twoTo (-e).toNat : Nat) : ℚ) / (den * twoTo e.toNat : Nat) = num / den / 2 ^ e := by
  push_cast
  rw [cast_twoTo, cast_twoTo, twoTo_toNat e, div_div]
  field_simp

theorem log2_ratio (hn : 0 < num) (hd : 0 < den) :
    (2 : ℚ) ^ ((num.log2 : ℤ) - den.log2 - 1) < num / den ∧
      (num : ℚ) / den < 2 ^ ((num.log2 : ℤ) - den.log2 + 1) := by
  have hd' : (0 : ℚ) < den := by exact_mod_cast hd
  have hle {n : Nat} (h : 0 < n) : (2 : ℚ) ^ (n.log2 : ℤ) ≤ n := by
    exact_mod_cast Nat.log2_self_le h.ne'
  have hlt (n : Nat) : (n : ℚ) < 2 ^ (n.log2 + 1 : ℤ) := by
    exact_mod_cast Nat.lt_log2_self (n := n)
  constructor
  · rw [lt_div_iff₀ hd']
    calc (2 : ℚ) ^ ((num.log2 : ℤ) - den.log2 - 1) * den
        < 2 ^ ((num.log2 : ℤ) - den.log2 - 1) * 2 ^ (den.log2 + 1 : ℤ) := by
          gcongr
          exact hlt den
      _ = 2 ^ (num.log2 : ℤ) := by
          rw [← zpow_add₀ two_ne_zero]
          congr 1
          ring
      _ ≤ num := hle hn
  · rw [div_lt_iff₀ hd']
    calc (num : ℚ) < 2 ^ (num.log2 + 1 : ℤ) := hlt num
      _ = 2 ^ ((num.log2 : ℤ) - den.log2 + 1) * 2 ^ (den.log2 : ℤ) := by
          rw [← zpow_add₀ two_ne_zero]
          congr 1
          ring
      _ ≤ 2 ^ ((num.log2 : ℤ) - den.log2 + 1) * den := by
          gcongr
          exact hle hd

theorem placeExponent_cases (f : Format) (hn : 0 < num) (hd : 0 < den) :
    (num : ℚ) / den < 2 ^ (f.placeExponent num den + f.fraction + 1) ∧
      (f.placeExponent num den = f.leastExponent ∨
        (2 : ℚ) ^ (f.placeExponent num den + f.fraction) ≤ num / den) := by
  obtain ⟨hge, hlt⟩ := log2_ratio hn hd
  have htest (e : ℤ) :
      num * twoTo (-e).toNat < den * twoTo e.toNat ↔ (num : ℚ) / den < 2 ^ e := by
    have hpos : (0 : ℚ) < (den * twoTo e.toNat : Nat) := by
      exact_mod_cast Nat.mul_pos hd (twoTo_pos _)
    have htwo : (0 : ℚ) < 2 ^ e := zpow_pos two_pos e
    rw [← div_lt_one htwo, ← scaled_div, div_lt_one hpos, Nat.cast_lt]
  have hexact : ∃ exact, f.placeExponent num den = max exact f.leastExponent ∧
      (2 : ℚ) ^ (exact + f.fraction) ≤ num / den ∧
      (num : ℚ) / den < 2 ^ (exact + f.fraction + 1) := by
    refine ⟨_, rfl, ?_⟩
    split
    · rename_i hless
      rw [htest] at hless
      refine ⟨le_trans (le_of_eq ?_) hge.le, lt_of_lt_of_eq hless ?_⟩
      · congr 1
        ring
      · congr 1
        ring
    · rename_i hless
      rw [htest, not_lt] at hless
      refine ⟨hless, lt_of_lt_of_eq hlt ?_⟩
      congr 1
      ring
  obtain ⟨exact, hplace, hle, hlt⟩ := hexact
  rw [hplace]
  rcases le_total exact f.leastExponent with h | h
  · rw [max_eq_right h]
    exact ⟨lt_of_lt_of_le hlt (zpow_le_zpow_right₀ one_le_two (by omega)), .inl rfl⟩
  · rw [max_eq_left h]
    exact ⟨hlt, .inr hle⟩

theorem leastExponent_le (f : Format) (num den : Nat) :
    f.leastExponent ≤ f.placeExponent num den :=
  le_max_right _ _

theorem significand_cases (f : Format) (hn : 0 < num) (hd : 0 < den)
    (h : |(significand : ℚ) - num / den / 2 ^ f.placeExponent num den| ≤ 1 / 2) :
    significand ≤ twoTo (f.fraction + 1) ∧
      (twoTo f.fraction ≤ significand ∨ f.placeExponent num den = f.leastExponent) := by
  obtain ⟨hlt, hle⟩ := placeExponent_cases f hn hd
  generalize f.placeExponent num den = e at h hlt hle ⊢
  have htwo : (0 : ℚ) < 2 ^ e := zpow_pos two_pos e
  rw [abs_sub_le_iff] at h
  constructor
  · have hupper : (num : ℚ) / den / 2 ^ e < twoTo (f.fraction + 1) := by
      rw [div_lt_iff₀ htwo, cast_twoTo, ← zpow_add₀ two_ne_zero]
      refine lt_of_lt_of_eq hlt ?_
      congr 1
      push_cast
      ring
    have hnext : (significand : ℚ) < (twoTo (f.fraction + 1) + 1 : Nat) := by
      push_cast at hupper ⊢
      linarith
    exact Nat.lt_succ_iff.mp (by exact_mod_cast hnext)
  · refine hle.symm.imp_left fun hle => ?_
    have hlower : (twoTo f.fraction : ℚ) ≤ num / den / 2 ^ e := by
      rw [le_div_iff₀ htwo, cast_twoTo, ← zpow_add₀ two_ne_zero, add_comm]
      exact hle
    have hnext : (twoTo f.fraction : ℚ) < (significand + 1 : Nat) := by
      push_cast at hlower ⊢
      linarith
    exact Nat.lt_succ_iff.mp (by exact_mod_cast hnext)

theorem error_le {e : ℤ} (h : |(significand : ℚ) - num / den / 2 ^ e| ≤ 1 / 2) :
    |significand * (2 : ℚ) ^ e - num / den| ≤ 2 ^ e / 2 := by
  have htwo : (0 : ℚ) < 2 ^ e := zpow_pos two_pos e
  calc |significand * (2 : ℚ) ^ e - num / den|
      = |(significand : ℚ) - num / den / 2 ^ e| * 2 ^ e := by
        rw [← abs_of_pos htwo, ← abs_mul, abs_of_pos htwo, sub_mul, div_mul_cancel₀ _ htwo.ne']
    _ ≤ 1 / 2 * 2 ^ e := by gcongr
    _ = 2 ^ e / 2 := by ring

theorem place_le (f : Format) (hn : 0 < num) (hd : 0 < den) :
    (2 : ℚ) ^ f.placeExponent num den / 2 ≤
      max ((num : ℚ) / den / 2 ^ (f.fraction + 1)) (2 ^ f.leastExponent / 2) := by
  rcases (placeExponent_cases f hn hd).2 with h | h
  · rw [h]
    exact le_max_right _ _
  · refine le_trans ?_ (le_max_left _ _)
    rw [le_div_iff₀ (by positivity)]
    refine le_trans (le_of_eq ?_) h
    rw [zpow_add₀ two_ne_zero, zpow_natCast, pow_succ]
    ring

def largest (f : Format) : ℚ :=
  (2 ^ (f.fraction + 1 : ℤ) - 1) * 2 ^ (f.leastExponent + (twoTo f.exponent - 3 : Nat))

theorem four_le_twoTo (hw : 2 ≤ f.exponent) : 4 ≤ twoTo f.exponent :=
  Nat.pow_le_pow_right (Nat.succ_pos 1) hw

theorem offset_le_of_le_largest (hw : 2 ≤ f.exponent) (hn : 0 < num) (hd : 0 < den)
    (hr : (num : ℚ) / den ≤ f.largest) (he : f.placeExponent num den = f.leastExponent + offset) :
    offset ≤ twoTo f.exponent - 3 := by
  have hfour := four_le_twoTo hw
  by_contra! hlt
  have hle := (placeExponent_cases f hn hd).2.resolve_left (by omega)
  have hbeyond : f.largest < 2 ^ (f.placeExponent num den + f.fraction) := by
    calc f.largest
        < 2 ^ (f.fraction + 1 : ℤ) * 2 ^ (f.leastExponent + (twoTo f.exponent - 3 : Nat)) := by
          rw [largest]
          gcongr
          exact sub_one_lt _
      _ = 2 ^ ((f.fraction + 1 : ℤ) + (f.leastExponent + (twoTo f.exponent - 3 : Nat))) :=
          (zpow_add₀ two_ne_zero _ _).symm
      _ ≤ 2 ^ (f.placeExponent num den + f.fraction) :=
          zpow_le_zpow_right₀ one_le_two (by omega)
  exact absurd (hle.trans hr) (not_le.mpr hbeyond)

theorem fits_of_le_largest (hw : 2 ≤ f.exponent) (hn : 0 < num) (hd : 0 < den)
    (hr : (num : ℚ) / den ≤ f.largest) (he : f.placeExponent num den = f.leastExponent + offset)
    (h : |(significand : ℚ) - num / den / 2 ^ f.placeExponent num den| ≤ 1 / 2) :
    offset * twoTo f.fraction + significand < f.infinity := by
  have hfour := four_le_twoTo hw
  have hs := (significand_cases f hn hd h).1
  rw [twoTo_succ] at hs
  rw [infinity]
  rcases (offset_le_of_le_largest hw hn hd hr he).lt_or_eq with hlt | rfl
  · calc offset * twoTo f.fraction + significand ≤ (offset + 2) * twoTo f.fraction := by
          rw [add_mul]
          omega
      _ < (twoTo f.exponent - 1) * twoTo f.fraction :=
          Nat.mul_lt_mul_of_pos_right (by omega) (twoTo_pos _)
  · -- In the place of the largest number a significand does not carry.
    have hfull : significand < twoTo f.fraction * 2 := by
      have hupper : (num : ℚ) / den / 2 ^ f.placeExponent num den ≤
          2 ^ (f.fraction + 1 : ℤ) - 1 := by
        rw [he, div_le_iff₀ (zpow_pos two_pos _)]
        exact hr
      rw [← twoTo_succ]
      have hnext : (significand : ℚ) < (twoTo (f.fraction + 1) : Nat) := by
        rw [cast_twoTo]
        push_cast
        linarith [(abs_sub_le_iff.mp h).1]
      exact_mod_cast hnext
    calc (twoTo f.exponent - 3) * twoTo f.fraction + significand
        < (twoTo f.exponent - 3 + 2) * twoTo f.fraction := by
          rw [add_mul]
          omega
      _ = (twoTo f.exponent - 1) * twoTo f.fraction := by
          congr 1
          omega

theorem exists_significand (hw : 2 ≤ f.exponent) (negative : Bool) (hn : 0 < num) (hd : 0 < den) :
    (f.read (f.round negative num den)).magnitude? = none ∧ f.largest < (num : ℚ) / den ∨
      ∃ significand : Nat,
        (f.read (f.round negative num den)).magnitude? =
          some (significand * (2 : ℚ) ^ f.placeExponent num den) ∧
        |(significand : ℚ) - num / den / 2 ^ f.placeExponent num den| ≤ 1 / 2 := by
  obtain ⟨offset, he⟩ := Int.le.dest (f.leastExponent_le num den)
  have hoffset : (f.placeExponent num den - f.leastExponent).toNat = offset := by omega
  generalize hs : divideToEven (num * twoTo (-f.placeExponent num den).toNat)
    (den * twoTo (f.placeExponent num den).toNat) = significand
  have hnear : |(significand : ℚ) - num / den / 2 ^ f.placeExponent num den| ≤ 1 / 2 := by
    rw [← hs, ← scaled_div]
    exact divideToEven_near _ (Nat.mul_pos hd (twoTo_pos _))
  have hround : f.round negative num den =
      f.sign negative + min (offset * twoTo f.fraction + significand) f.infinity := by
    rw [round, if_neg hn.ne']
    simp only [hs, hoffset]
  rcases Nat.lt_or_ge (offset * twoTo f.fraction + significand) f.infinity with hfits | hinfinite
  · obtain ⟨hle, hfull⟩ := significand_cases f hn hd hnear
    refine .inr ⟨significand, ?_, hnear⟩
    rw [hround, min_eq_left hfits.le,
      magnitude_read negative hle (hfull.imp_right fun h => by omega) hfits, he]
  · refine .inl ⟨?_, ?_⟩
    · rw [hround, min_eq_right hinfinite]
      exact magnitude_read_infinity f negative
    · by_contra! hr
      exact absurd (fits_of_le_largest hw hn hd hr he.symm hnear) (Nat.not_lt.mpr hinfinite)

theorem magnitude_round_zero (hw : 2 ≤ f.exponent) (negative : Bool) (den : Nat) :
    (f.read (f.round negative 0 den)).magnitude? = some 0 := by
  have hfour := four_le_twoTo hw
  have hpos : 0 * twoTo f.fraction + 0 < f.infinity := by
    rw [infinity, Nat.zero_mul]
    exact Nat.mul_pos (by omega) (twoTo_pos _)
  have hread := magnitude_read negative (Nat.zero_le _) (.inr rfl) hpos
  rw [round, if_pos rfl]
  simpa using hread

theorem magnitude_round (hw : 2 ≤ f.exponent) (negative : Bool) (num : Nat) (hd : 0 < den) :
    (f.read (f.round negative num den)).magnitude? = none ∧ f.largest < (num : ℚ) / den ∨
      ∃ q : ℚ, (f.read (f.round negative num den)).magnitude? = some q ∧
        |q - num / den| ≤
          max ((num : ℚ) / den / 2 ^ (f.fraction + 1)) (2 ^ f.leastExponent / 2) := by
  rcases num.eq_zero_or_pos with rfl | hn
  · exact .inr ⟨0, magnitude_round_zero hw negative den, by simp⟩
  · refine (exists_significand hw negative hn hd).imp_right ?_
    rintro ⟨significand, hread, hnear⟩
    exact ⟨_, hread, (error_le hnear).trans (place_le f hn hd)⟩

theorem round_lt (f : Format) (negative : Bool) (num den : Nat) :
    f.round negative num den < twoTo (f.fraction + f.exponent + 1) := by
  have hinfinity := infinity_lt f
  have hsign : f.sign negative ≤ twoTo (f.fraction + f.exponent) := by
    rw [sign]
    split
    · exact Nat.le_refl _
    · exact Nat.zero_le _
  rw [round, twoTo_succ]
  split
  · have := twoTo_pos (f.fraction + f.exponent)
    omega
  · have := Nat.min_le_right ((f.placeExponent num den - f.leastExponent).toNat * twoTo f.fraction +
      divideToEven (num * twoTo (-f.placeExponent num den).toNat)
        (den * twoTo (f.placeExponent num den).toNat)) f.infinity
    simp only
    omega

end Format

namespace Binary64

variable {x : Binary64} {negative : Bool} {num den : Nat} {q b : ℚ}

def magnitude? (x : Binary64) : Option ℚ :=
  x.read.magnitude?

theorem magnitude_eq_some (h : x.magnitude? = some q) :
    ∃ (negative : Bool) (m : Nat) (e : ℤ),
      x.read = .finite negative m e ∧ q = m * (2 : ℚ) ^ e := by
  rw [magnitude?] at h
  cases hx : x.read with
  | finite negative m e =>
    rw [hx] at h
    exact ⟨negative, m, e, rfl, (Option.some.inj h).symm⟩
  | nan => simp [hx, Reading.magnitude?] at h
  | infinite negative => simp [hx, Reading.magnitude?] at h

theorem isFinite_of_magnitude (h : x.magnitude? = some q) : x.isFinite = true := by
  obtain ⟨negative, m, e, hread, -⟩ := magnitude_eq_some h
  rw [isFinite, hread]

@[simp] theorem read_ofRatio (negative : Bool) (num den : Nat) :
    (ofRatio negative num den).read = Format.double.read (Format.double.round negative num den) := by
  rw [read, ofRatio]
  congr 1
  exact UInt64.toNat_ofNat_of_lt' (Format.round_lt Format.double negative num den)

theorem magnitude_ofRatio (negative : Bool) (num : Nat) (hd : 0 < den) :
    (ofRatio negative num den).magnitude? = none ∧ Format.double.largest < (num : ℚ) / den ∨
      ∃ q : ℚ, (ofRatio negative num den).magnitude? = some q ∧ q ≤ 2 * (num / den) + 1 ∧
        (1 ≤ (num : ℚ) / den → 1 / 2 ≤ q) := by
  rw [magnitude?, read_ofRatio]
  refine (Format.magnitude_round (by decide) negative num hd).imp_right ?_
  rintro ⟨q, hq, hnear⟩
  have hratio : (0 : ℚ) ≤ num / den := by positivity
  have hpart : (num : ℚ) / den / 2 ^ (Format.double.fraction + 1) ≤ num / den / 2 :=
    div_le_div_of_nonneg_left hratio two_pos (le_self_pow₀ one_le_two (Nat.succ_ne_zero _))
  have hleast : (2 : ℚ) ^ Format.double.leastExponent / 2 ≤ 1 / 2 := by
    gcongr
    exact zpow_le_one_of_nonpos₀ one_le_two (by decide)
  have herror := abs_sub_le_iff.mp (hnear.trans (max_le_max hpart hleast))
  refine ⟨q, hq, ?_, fun hone => ?_⟩
  · have := max_le_add_of_nonneg (div_nonneg hratio zero_le_two) (by norm_num : (0 : ℚ) ≤ 1 / 2)
    linarith [herror.1]
  · have : max ((num : ℚ) / den / 2) (1 / 2) = num / den / 2 := max_eq_left (by linarith)
    linarith [herror.2]

def AtMost (x : Binary64) (b : ℚ) : Prop :=
  ∃ q, x.magnitude? = some q ∧ q ≤ b

theorem AtMost.isFinite (h : x.AtMost b) : x.isFinite = true := by
  obtain ⟨q, hq, -⟩ := h
  exact isFinite_of_magnitude hq

theorem AtMost.mono {b' : ℚ} (h : x.AtMost b) (hb : b ≤ b') : x.AtMost b' := by
  obtain ⟨q, hq, hle⟩ := h
  exact ⟨q, hq, hle.trans hb⟩

theorem le_largest : (2 : ℚ) ^ 200 ≤ Format.double.largest := by
  rw [Format.largest, show Format.double.leastExponent + (twoTo Format.double.exponent - 3 : Nat) = 971
    from rfl, show Format.double.fraction = 52 from rfl]
  calc (2 : ℚ) ^ 200 ≤ 2 ^ (971 : ℤ) := by
        rw [← zpow_natCast]
        exact zpow_le_zpow_right₀ one_le_two (by decide)
    _ ≤ (2 ^ ((52 : Nat) + 1 : ℤ) - 1) * 2 ^ (971 : ℤ) :=
        le_mul_of_one_le_left (zpow_nonneg zero_le_two _) (by norm_num)

theorem atMost_ofRatio (negative : Bool) (hd : 0 < den) (h : (num : ℚ) / den ≤ b)
    (hb : b ≤ 2 ^ 200) : (ofRatio negative num den).AtMost (2 * b + 1) := by
  rcases magnitude_ofRatio negative num hd with ⟨-, hlarge⟩ | ⟨q, hq, hle, -⟩
  · exact absurd (h.trans (hb.trans le_largest)) (not_le.mpr hlarge)
  · exact ⟨q, hq, by linarith⟩

theorem AtMost.scale (hx : x.AtMost b) (hd : 0 < den) (h : (num : ℚ) / den ≤ 2)
    (hb : 2 * b ≤ 2 ^ 200) : (x.scale num den).AtMost (4 * b + 1) := by
  obtain ⟨q, hq, hle⟩ := hx
  obtain ⟨negative, m, e, hread, rfl⟩ := magnitude_eq_some hq
  have hratio :
      ((m * twoTo e.toNat * num : Nat) : ℚ) / (twoTo (-e).toNat * den : Nat) ≤ 2 * b := by
    rw [Nat.cast_mul, Nat.cast_mul (twoTo _), mul_div_mul_comm, Format.div_twoTo, mul_comm]
    exact mul_le_mul h hle (by positivity) zero_le_two
  rw [Binary64.scale, hread]
  have hatMost := atMost_ofRatio negative (Nat.mul_pos (twoTo_pos _) hd) hratio hb
  rwa [← mul_assoc, show (2 : ℚ) * 2 = 4 by norm_num] at hatMost

end Binary64

end AvroColumns
