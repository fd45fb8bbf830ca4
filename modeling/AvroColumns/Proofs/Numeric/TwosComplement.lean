import Mathlib.Data.List.Induction
import Mathlib.Data.Nat.Digits.Defs
import Mathlib.Tactic.Ring
import AvroColumns.Numeric.Decimal

namespace AvroColumns.Decimal

variable {b : List UInt8} {x : UInt8}

/-- The integer of bytes in two's complement, the highest byte first. -/
def integerOf (b : List UInt8) : ℤ :=
  ((Nat.ofDigits 256 (b.reverse.map UInt8.toNat) : Nat) : ℤ).bmod (twoTo (8 * b.length))

def signByte (b : List UInt8) : UInt8 :=
  if 128 ≤ (b.headD 0).toNat then 255 else 0

def extend (k : Nat) (b : List UInt8) : List UInt8 :=
  List.replicate k (signByte b) ++ b

def lastBytes : (count : Nat) → ℤ → List UInt8
  | 0, _ => []
  | count + 1, n => lastBytes count (n / 256) ++ [UInt8.ofNat (n % 256).toNat]

def bytesOf? : (count : Nat) → ℤ → Option (List UInt8)
  | 0, _ => none
  | count + 1, n =>
    if -(128 * twoTo (8 * count) : ℤ) ≤ n ∧ n < 128 * twoTo (8 * count) then
      some (lastBytes (count + 1) n)
    else none

theorem toNat_lt (x : UInt8) : x.toNat < 256 :=
  x.toNat_lt_size

theorem twoTo_succ_bytes (n : Nat) : twoTo (8 * (n + 1)) = 256 * twoTo (8 * n) := by
  have h : twoTo (8 * n + 8) = twoTo (8 * n) * twoTo 8 := Nat.pow_add 2 (8 * n) 8
  rw [Nat.mul_succ, h, Nat.mul_comm]
  rfl

@[simp] theorem unsigned_append_singleton (b : List UInt8) (x : UInt8) :
    unsigned (b ++ [x]) = 256 * unsigned b + x.toNat := by
  rw [unsigned, List.foldl_append]
  rfl

theorem unsigned_eq_ofDigits (b : List UInt8) :
    unsigned b = Nat.ofDigits 256 (b.reverse.map UInt8.toNat) := by
  induction b using List.reverseRecOn with
  | nil => rfl
  | append_singleton b x ih =>
    rw [unsigned_append_singleton, List.reverse_concat, List.map_cons, Nat.ofDigits_cons, ih, add_comm]

theorem twosComplement_singleton (x : UInt8) :
    twosComplement [x] = if 128 ≤ x.toNat then (x.toNat : ℤ) - 256 else x.toNat := by
  simp [twosComplement, unsigned, show twoTo 8 = 256 from rfl]

theorem twosComplement_concat (hb : b ≠ []) (x : UInt8) :
    twosComplement (b ++ [x]) = 256 * twosComplement b + x.toNat := by
  have hhead : (b ++ [x]).headD 0 = b.headD 0 := by
    cases b with
    | nil => exact absurd rfl hb
    | cons y b => rfl
  simp only [twosComplement, hhead, unsigned_append_singleton, List.length_append, List.length_singleton,
    twoTo_succ_bytes]
  split <;> push_cast <;> ring

theorem bytes_induction {motive : (b : List UInt8) → b ≠ [] → Prop}
    (one : ∀ x, motive [x] (List.cons_ne_nil x []))
    (concat : ∀ b x (hb : b ≠ []), motive b hb → motive (b ++ [x]) (List.concat_ne_nil x b))
    (b : List UInt8) (hb : b ≠ []) : motive b hb := by
  induction b using List.reverseRecOn with
  | nil => exact absurd rfl hb
  | append_singleton b x ih =>
    by_cases h : b = []
    · subst h
      exact one x
    · exact concat b x h (ih h)

theorem twosComplement_bounds (hb : b ≠ []) :
    -(128 * twoTo (8 * (b.length - 1)) : ℤ) ≤ twosComplement b ∧
      twosComplement b < 128 * twoTo (8 * (b.length - 1)) := by
  induction b, hb using bytes_induction with
  | one x =>
    have := toNat_lt x
    rw [twosComplement_singleton, List.length_singleton, show twoTo (8 * (1 - 1)) = 1 from rfl]
    split <;> omega
  | concat b x hb ih =>
    have := toNat_lt x
    obtain ⟨n, hn⟩ := Nat.exists_eq_add_one.mpr (List.length_pos_iff.mpr hb)
    rw [hn, Nat.add_sub_cancel] at ih
    rw [twosComplement_concat hb, List.length_append, List.length_singleton, Nat.add_sub_cancel, hn,
      twoTo_succ_bytes]
    push_cast
    omega

theorem twosComplement_eq (b : List UInt8) : twosComplement b = integerOf b := by
  by_cases hb : b = []
  · subst hb
    rfl
  · obtain ⟨n, hn⟩ := Nat.exists_eq_add_one.mpr (List.length_pos_iff.mpr hb)
    have hbounds := twosComplement_bounds hb
    rw [hn, Nat.add_sub_cancel] at hbounds
    have hcongr : (twosComplement b).bmod (twoTo (8 * b.length)) = integerOf b := by
      rw [integerOf, ← unsigned_eq_ofDigits, twosComplement]
      split
      · exact Int.sub_bmod_right ..
      · rfl
    rw [← hcongr, hn, twoTo_succ_bytes, Int.bmod_eq_of_le_mul_two] <;> push_cast <;> omega

@[simp] theorem twosComplement_signByte_cons (hb : b ≠ []) :
    twosComplement (signByte b :: b) = twosComplement b := by
  induction b, hb using bytes_induction with
  | one x =>
    have := toNat_lt x
    rw [← List.singleton_append, twosComplement_concat (by simp), twosComplement_singleton,
      twosComplement_singleton, signByte, List.headD_cons]
    by_cases hx : 128 ≤ x.toNat
    · rw [if_pos hx, if_pos hx, if_pos (by decide)]
      simp only [show UInt8.toNat 255 = 255 from rfl]
      omega
    · rw [if_neg hx, if_neg hx, if_neg (by decide)]
      simp only [show UInt8.toNat 0 = 0 from rfl]
      omega
  | concat b x hb ih =>
    have hsign : signByte (b ++ [x]) = signByte b := by
      cases b with
      | nil => exact absurd rfl hb
      | cons y b => rfl
    rw [hsign, ← List.cons_append, twosComplement_concat (by simp), ih, twosComplement_concat hb]

@[simp] theorem signByte_cons_signByte (b : List UInt8) :
    signByte (signByte b :: b) = signByte b := by
  rw [signByte, List.headD_cons, signByte]
  split <;> rfl

@[simp] theorem extend_succ (k : Nat) (b : List UInt8) :
    extend (k + 1) b = extend k (signByte b :: b) := by
  rw [extend, extend, signByte_cons_signByte, List.replicate_succ', List.append_assoc]
  rfl

theorem extend_ne_nil (k : Nat) (hb : b ≠ []) : extend k b ≠ [] :=
  List.append_ne_nil_of_right_ne_nil _ hb

@[simp] theorem twosComplement_extend (k : Nat) (hb : b ≠ []) :
    twosComplement (extend k b) = twosComplement b := by
  induction k generalizing b with
  | zero => rfl
  | succ k ih => simp [hb, ih]

@[simp] theorem lastBytes_twosComplement (hb : b ≠ []) :
    lastBytes b.length (twosComplement b) = b := by
  induction b, hb using bytes_induction with
  | one x =>
    have := toNat_lt x
    have hmod : (twosComplement [x] % 256).toNat = x.toNat := by
      rw [twosComplement_singleton]
      split <;> omega
    rw [List.length_singleton, lastBytes, hmod, UInt8.ofNat_toNat]
    rfl
  | concat b x hb ih =>
    have := toNat_lt x
    have hdiv : twosComplement (b ++ [x]) / 256 = twosComplement b := by
      rw [twosComplement_concat hb]
      omega
    have hmod : (twosComplement (b ++ [x]) % 256).toNat = x.toNat := by
      rw [twosComplement_concat hb]
      omega
    rw [List.length_append, List.length_singleton, lastBytes, hdiv, hmod, ih, UInt8.ofNat_toNat]

theorem bytesOf?_twosComplement (hb : b ≠ []) : bytesOf? b.length (twosComplement b) = some b := by
  obtain ⟨n, hn⟩ := Nat.exists_eq_add_one.mpr (List.length_pos_iff.mpr hb)
  have hbounds := twosComplement_bounds hb
  rw [hn, Nat.add_sub_cancel] at hbounds
  rw [hn, bytesOf?, if_pos hbounds, ← hn, lastBytes_twosComplement hb]

end AvroColumns.Decimal
