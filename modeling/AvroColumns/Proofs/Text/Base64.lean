import AvroColumns.Text.Base64

namespace AvroColumns.Base64

variable {c : Char} {n : Nat} {cs : List Char} {bytes : List UInt8}

theorem toNat_lt_of_value? (h : value? c = some n) : c.toNat < 128 := by
  have hupper (h : c.isUpper) : c.toNat ≤ 90 :=
    UInt32.le_iff_toNat_le.mp (of_decide_eq_true h).2
  have hlower (h : c.isLower) : c.toNat ≤ 122 :=
    UInt32.le_iff_toNat_le.mp (of_decide_eq_true (Bool.and_eq_true_iff.mp h).2)
  have hdigit (h : c.isDigit) : c.toNat ≤ 57 :=
    UInt32.le_iff_toNat_le.mp (of_decide_eq_true (Bool.and_eq_true_iff.mp h).2)
  rw [value?] at h
  split at h
  next hc => exact Nat.lt_of_le_of_lt (hupper hc) (by decide)
  split at h
  next hc => exact Nat.lt_of_le_of_lt (hlower hc) (by decide)
  split at h
  next hc => exact Nat.lt_of_le_of_lt (hdigit hc) (by decide)
  split at h
  next hc => exact hc ▸ by decide
  split at h
  next hc => exact hc ▸ by decide
  cases h

theorem digit_of_value? (h : value? c = some n) : digit n = c ∧ n < 64 := by
  have hall : ∀ k < 128, ∀ n ∈ value? (Char.ofNat k), digit n = Char.ofNat k ∧ n < 64 := by
    decide +kernel
  have hk := hall c.toNat (toNat_lt_of_value? h)
  rw [Char.ofNat_toNat] at hk
  exact hk n h

theorem encodeChars_of_decodeChars? (h : decodeChars? cs = some bytes) : encodeChars bytes = cs := by
  -- In each group the bytes hold the number whose places are the digits, so that it is written again.
  fun_induction decodeChars? cs generalizing bytes with
  | case1 =>
    cases h
    rfl
  | case2 a b =>
    simp only [Option.bind_eq_bind, Option.bind_eq_some_iff] at h
    obtain ⟨x, hx, y, hy, h⟩ := h
    obtain ⟨rfl, hx⟩ := digit_of_value? hx
    obtain ⟨rfl, hy⟩ := digit_of_value? hy
    split at h
    next hn =>
      cases h
      have hbytes : (UInt8.ofNat ((x * 64 + y) / 16)).toNat * 16 = x * 64 + y := by
        rw [UInt8.toNat_ofNat']
        omega
      have hplaces : (x * 64 + y) / 64 = x ∧ (x * 64 + y) % 64 = y := by omega
      simp only [encodeChars, hbytes, hplaces]
    next => cases h
  | case3 a b c =>
    simp only [Option.bind_eq_bind, Option.bind_eq_some_iff] at h
    obtain ⟨x, hx, y, hy, z, hz, h⟩ := h
    obtain ⟨rfl, hx⟩ := digit_of_value? hx
    obtain ⟨rfl, hy⟩ := digit_of_value? hy
    obtain ⟨rfl, hz⟩ := digit_of_value? hz
    split at h
    next hn =>
      cases h
      generalize hnum : (x * 64 + y) * 64 + z = num at hn ⊢
      have hbytes : ((UInt8.ofNat (num / 1024)).toNat * 256 + (UInt8.ofNat (num / 4)).toNat) * 4 =
          num := by
        rw [UInt8.toNat_ofNat', UInt8.toNat_ofNat']
        omega
      have hplaces : num / 4096 = x ∧ num / 64 % 64 = y ∧ num % 64 = z := by omega
      simp only [encodeChars, hbytes, hplaces]
    next => cases h
  | case4 a b c d rest _ _ ih =>
    simp only [Option.bind_eq_bind, Option.bind_eq_some_iff] at h
    obtain ⟨x, hx, y, hy, z, hz, w, hw, tail, htail, h⟩ := h
    obtain ⟨rfl, hx⟩ := digit_of_value? hx
    obtain ⟨rfl, hy⟩ := digit_of_value? hy
    obtain ⟨rfl, hz⟩ := digit_of_value? hz
    obtain ⟨rfl, hw⟩ := digit_of_value? hw
    cases h
    generalize hnum : ((x * 64 + y) * 64 + z) * 64 + w = num
    have hbytes : ((UInt8.ofNat (num / 65536)).toNat * 256 + (UInt8.ofNat (num / 256)).toNat) * 256 +
        (UInt8.ofNat num).toNat = num := by
      rw [UInt8.toNat_ofNat', UInt8.toNat_ofNat', UInt8.toNat_ofNat']
      omega
    have hplaces : num / 262144 = x ∧ num / 4096 % 64 = y ∧ num / 64 % 64 = z ∧ num % 64 = w := by
      omega
    simp only [encodeChars, hbytes, hplaces, ih htail]
  | case5 => cases h

theorem encode_of_decode? {s : String} (h : decode? s = some bytes) : encode bytes = s := by
  rw [encode, encodeChars_of_decodeChars? h, String.ofList_toList]

end AvroColumns.Base64
