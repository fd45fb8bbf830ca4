import AvroColumns.Json.Reader
import AvroColumns.Proofs.Numeric.Rounding

namespace AvroColumns.Json

def isContainer : Json → Bool
  | .arr _ | .obj _ => true
  | _ => false

def InRange : Json → Prop
  | .int n => -(twoTo 63 : Int) ≤ n ∧ n < twoTo 64
  | .real x => x.isFinite = true
  | .arr _ | .obj _ => False
  | _ => True

namespace Numerals

variable {n : Numerals} {v : Int} {x : Binary64} {k significand : Nat} {negative : Bool} {j : Json}

theorem inRange_whole? (h : n.whole? = some v) : InRange (.int v) := by
  have hsmall : twoTo 63 < twoTo 64 := by decide
  have hpos := twoTo_pos 63
  rw [whole?] at h
  rw [InRange]
  split at h
  · split at h
    · cases h
      omega
    · cases h
  · split at h
    · cases h
      omega
    · cases h

theorem accumulate_lt (hs : significand < twoTo 64) (cs : List Char) :
    (accumulate significand cs).1 < twoTo 64 := by
  fun_induction accumulate significand cs with
  | case1 significand => exact hs
  | case2 significand c cs next hnext ih => exact ih hnext
  | case3 significand c cs next hnext => exact hs

theorem atMost_divide (hx : x.AtMost (2 ^ k)) (hk : k < 199) {d : Nat} (hd : 0 < d) :
    (lower.divide x (.ofRatio false d 1)).AtMost (2 ^ (k + 3)) := by
  have hone : (1 : ℚ) ≤ 2 ^ k := one_le_pow₀ one_le_two
  have hnext : 4 * (2 : ℚ) ^ k + 1 ≤ 2 ^ (k + 3) := by
    rw [pow_add]
    linarith
  rcases Binary64.magnitude_ofRatio false d one_pos with ⟨hnone, -⟩ | ⟨q, hq, -, hhalf⟩
  · have hsame : lower.divide x (.ofRatio false d 1) = x := by
      rw [lower.divide]
      split
      · rename_i hread
        simp [Binary64.magnitude?, hread, Reading.magnitude?] at hnone
      · rfl
    rw [hsame]
    exact hx.mono (by linarith)
  · obtain ⟨negative, m, e, hread, rfl⟩ := Binary64.magnitude_eq_some hq
    have hhalf : (1 : ℚ) / 2 ≤ m * 2 ^ e := by
      apply hhalf
      rw [Nat.cast_one, div_one]
      exact_mod_cast hd
    have hm : 0 < m := by
      rcases m.eq_zero_or_pos with rfl | hm
      · norm_num at hhalf
      · exact hm
    have hratio : ((twoTo (-e).toNat : Nat) : ℚ) / (m * twoTo e.toNat : Nat) ≤ 2 := by
      rw [← one_div_div, Format.div_twoTo, div_le_iff₀ (by linarith)]
      linarith
    have hroom : 2 * (2 : ℚ) ^ k ≤ 2 ^ 200 := by
      rw [← pow_succ']
      exact pow_le_pow_right₀ one_le_two (by omega)
    rw [lower.divide, hread]
    exact (hx.scale (Nat.mul_pos hm (twoTo_pos _)) hratio hroom).mono hnext

theorem atMost_lower (hx : x.AtMost (2 ^ k)) {fuel : Nat} (hk : k + 3 * fuel < 200) (e : Nat) :
    (lower fuel x e).1.AtMost (2 ^ (k + 3 * fuel)) := by
  induction fuel generalizing x k e with
  | zero => exact hx
  | succ fuel ih =>
    rw [lower]
    split
    · have hdivided := ih (atMost_divide hx (by omega) (tenTo_pos 308)) (by omega) (e - 308)
      rwa [show k + 3 * (fuel + 1) = k + 3 + 3 * fuel by omega]
    · exact hx.mono (pow_le_pow_right₀ one_le_two (by omega))

theorem isFinite_scaled (hs : significand < twoTo 64) {e : Int}
    (h : scaled negative significand e = some x) : x.isFinite = true := by
  have hstart : (Binary64.ofRatio negative significand 1).AtMost (2 ^ 66) := by
    have hle : ((significand : Nat) : ℚ) / (1 : Nat) ≤ 2 ^ 64 := by
      rw [Nat.cast_one, div_one]
      exact_mod_cast hs.le
    exact (Binary64.atMost_ofRatio negative one_pos hle (by norm_num)).mono (by norm_num)
  rw [scaled] at h
  generalize Binary64.ofRatio negative significand 1 = start at h hstart
  simp only at h
  split at h
  · cases h
    exact hstart.isFinite
  · split at h
    · split at h
      · cases h
      · split at h
        · split at h
          · cases h
            assumption
          · cases h
        · cases h
    · have hlower : (lower 4 start (-e).toNat).1.AtMost (2 ^ (66 + 3 * 4)) :=
        atMost_lower hstart (by decide) (-e).toNat
      generalize lower 4 start (-e).toNat = lowered at h hlower
      obtain ⟨y, left⟩ := lowered
      simp only at h
      split at h
      · cases h
        exact hlower.isFinite
      · cases h
        exact (atMost_divide hlower (by decide) (tenTo_pos left)).isFinite

@[simp] theorem isFinite_zero (negative : Bool) : (Binary64.zero negative).isFinite = true := by
  cases negative <;> decide

theorem inRange_staged (h : n.staged = some j) : j.InRange := by
  rw [staged] at h
  split at h
  · rename_i v hwhole hv
    split at h
    · cases h
      exact isFinite_zero true
    · cases h
      exact inRange_whole? hv
  · have hsignificand := accumulate_lt (accumulate_lt (twoTo_pos 64) n.whole) (n.fraction.getD [])
    simp only at h
    split at h
    · obtain ⟨x, hx, rfl⟩ := Option.map_eq_some_iff.mp h
      exact isFinite_scaled hsignificand hx
    · split at h
      · cases h
      · cases h
        exact isFinite_zero n.negative

end Numerals

namespace Reader

variable {isLax : Bool} {number : Numerals → Option Json} {depth fuel : Nat} {cs rest : List Char}
  {j : Json} {js done : List Json} {item : List Char → Option (Json × List Char)}

theorem inRange_scalar (hnumber : ∀ n j, number n = some j → j.InRange)
    (h : scalar isLax number cs = some (j, rest)) : j.InRange := by
  unfold scalar at h
  split at h
  · cases h
    trivial
  · cases h
    trivial
  · cases h
    trivial
  · obtain ⟨s, -, hs⟩ := Option.map_eq_some_iff.mp h
    cases hs
    trivial
  · obtain ⟨n, -, hn⟩ := Option.bind_eq_some_iff.mp h
    obtain ⟨j', hj, hs⟩ := Option.bind_eq_some_iff.mp hn
    cases hs
    exact hnumber _ _ hj

theorem inRange_value (hnumber : ∀ n j, number n = some j → j.InRange)
    (h : value isLax number depth cs = some (j, rest)) (hj : j.isContainer = false) : j.InRange := by
  unfold value at h
  split at h
  · cases h
  · cases h
  · split at h
    · cases h
      cases hj
    · obtain ⟨_, -, hs⟩ := Option.map_eq_some_iff.mp h
      cases hs
      cases hj
  · split at h
    · cases h
      cases hj
    · obtain ⟨_, -, hs⟩ := Option.map_eq_some_iff.mp h
      cases hs
      cases hj
  · exact inRange_scalar hnumber h

theorem mem_items (h : items item fuel done cs = some (js, rest)) (hj : j ∈ js) :
    j ∈ done ∨ ∃ cs rest, item cs = some (j, rest) := by
  induction fuel generalizing done cs with
  | zero => cases h
  | succ fuel ih =>
    rw [items] at h
    cases hitem : item cs with
    | none => simp [hitem] at h
    | some read =>
      obtain ⟨j', left⟩ := read
      simp only [hitem] at h
      split at h
      · rcases ih h with hdone | hread
        · rcases List.mem_cons.mp hdone with rfl | hdone
          · exact .inr ⟨cs, left, hitem⟩
          · exact .inl hdone
        · exact .inr hread
      · cases h
        rcases List.mem_cons.mp (List.mem_reverse.mp hj) with rfl | hdone
        · exact .inr ⟨cs, left, hitem⟩
        · exact .inl hdone
      · cases h

theorem inRange_items (hnumber : ∀ n j, number n = some j → j.InRange)
    (h : value isLax number depth cs = some (.arr js, rest)) :
    ∀ j ∈ js, j.isContainer = false → j.InRange := by
  unfold value at h
  split at h
  · cases h
  · cases h
  · split at h
    · cases h
      simp
    · obtain ⟨⟨js', left⟩, hitems, hs⟩ := Option.map_eq_some_iff.mp h
      cases hs
      intro j hj
      rcases mem_items hitems hj with hdone | ⟨cs, rest, hread⟩
      · cases hdone
      · exact inRange_value hnumber hread
  · split at h
    · cases h
    · obtain ⟨_, -, hs⟩ := Option.map_eq_some_iff.mp h
      cases hs
  · cases inRange_scalar hnumber h

end Reader

theorem inRange_normalize {j : Json} (h : j.isContainer = false → j.InRange)
    (hj : j.normalize.isContainer = false) : j.normalize.InRange := by
  cases j with
  | arr items => cases hj
  | obj members => cases hj
  | _ => exact h hj

theorem mem_normalizeItems {items : List Json} {j : Json} (h : j ∈ normalizeItems items) :
    ∃ j' ∈ items, j'.normalize = j := by
  induction items with
  | nil => cases h
  | cons j' items ih =>
    rcases List.mem_cons.mp h with rfl | h
    · exact ⟨j', List.mem_cons_self, rfl⟩
    · obtain ⟨j', hmem, hj⟩ := ih h
      exact ⟨j', List.mem_cons_of_mem _ hmem, hj⟩

theorem inRange_of_read? {text : String} {items : List Json} (h : read? text = some (.arr items)) :
    ∀ item ∈ items, item.isContainer = false → item.InRange := by
  obtain ⟨j, hj, hnormal⟩ := Option.map_eq_some_iff.mp h
  obtain ⟨⟨j', rest⟩, hvalue, hread⟩ := Option.bind_eq_some_iff.mp hj
  simp only at hread
  split at hread
  · cases hread
    cases j with
    | arr written =>
      cases hnormal
      intro item hitem hscalar
      obtain ⟨item, hmem, rfl⟩ := mem_normalizeItems hitem
      have hrange := Reader.inRange_items (fun _ _ => Numerals.inRange_staged) hvalue item hmem
      exact inRange_normalize hrange hscalar
    | _ => cases hnormal
  · cases hread

end AvroColumns.Json
