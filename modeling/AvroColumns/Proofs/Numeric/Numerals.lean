import AvroColumns.Proofs.Path.Binding
import AvroColumns.Proofs.Text.Blank

namespace AvroColumns.Numeral

variable {c : Char} {cs ds : List Char} {i : Int} {n : Nat}

def ZeroFilled (ds : List Char) : Prop :=
  ∃ es, es ≠ [] ∧ ds = '0' :: es

/-- A 64-bit integer with a zero in front that it is not printed with, as in `007` and `-0`. -/
def Padded (cs : List Char) : Prop :=
  (∃ i, Writes cs i) ∧ (ZeroFilled cs ∨ ∃ ds, cs = '-' :: '0' :: ds)

theorem isDigits_cons : isDigits (c :: cs) ↔ c.isDigit ∧ ∀ d ∈ cs, d.isDigit := by
  simp [isDigits]

theorem exists_of_isDigits (h : isDigits ds) : ∃ c cs, ds = c :: cs := by
  cases ds with
  | nil => cases h
  | cons c cs => exact ⟨c, cs, rfl⟩

theorem digit_bounds (h : c.isDigit) : 48 ≤ c.toNat ∧ c.toNat ≤ 57 :=
  Char.isDigit_iff_toNat.mp h

theorem digit_lt (h : c.isDigit) : c.toNat - '0'.toNat < 10 := by
  have := digit_bounds h
  change c.toNat - 48 < 10
  omega

@[simp] theorem toDigits_digit (h : c.isDigit) : Nat.toDigits 10 (c.toNat - '0'.toNat) = [c] := by
  rw [Nat.toDigits_of_lt_base (digit_lt h), List.cons.injEq]
  refine ⟨Char.toNat_inj.mp ?_, rfl⟩
  rw [Nat.toNat_digitChar_of_lt_ten (digit_lt h)]
  exact Nat.add_sub_cancel' (digit_bounds h).1

theorem toDigits_append (hn : 0 < n) (h : c.isDigit) :
    Nat.toDigits 10 (10 * n + (c.toNat - '0'.toNat)) = Nat.toDigits 10 n ++ [c] := by
  rw [← Nat.toDigits_append_toDigits (by decide) hn (digit_lt h), toDigits_digit h]

theorem toDigits_foldl (hn : 0 < n) (h : ∀ d ∈ ds, d.isDigit) :
    Nat.toDigits 10 (ds.foldl (fun n c => 10 * n + (c.toNat - '0'.toNat)) n) =
      Nat.toDigits 10 n ++ ds := by
  induction ds generalizing n with
  | nil => simp
  | cons d ds ih =>
    rw [List.forall_mem_cons] at h
    rw [List.foldl_cons, ih (by omega) h.2, toDigits_append hn h.1, List.append_assoc]
    rfl

theorem length_toDigits_foldl_le (n : Nat) (h : ∀ d ∈ ds, d.isDigit) :
    (Nat.toDigits 10 (ds.foldl (fun n c => 10 * n + (c.toNat - '0'.toNat)) n)).length ≤
      (Nat.toDigits 10 n).length + ds.length := by
  induction ds generalizing n with
  | nil => exact Nat.le_refl _
  | cons d ds ih =>
    rw [List.forall_mem_cons] at h
    have hstep : (Nat.toDigits 10 (10 * n + (d.toNat - '0'.toNat))).length ≤
        (Nat.toDigits 10 n).length + 1 := by
      rcases Nat.eq_zero_or_pos n with rfl | hn
      · rw [Nat.mul_zero, Nat.zero_add, toDigits_digit h.1]
        exact Nat.le_add_left _ _
      · rw [toDigits_append hn h.1, List.length_append]
        exact Nat.le_refl _
    have := ih (10 * n + (d.toNat - '0'.toNat)) h.2
    rw [List.foldl_cons, List.length_cons]
    omega

theorem length_toDigits_value_le (h : isDigits ds) :
    (Nat.toDigits 10 (value ds)).length ≤ ds.length := by
  obtain ⟨c, cs, rfl⟩ := exists_of_isDigits h
  rw [isDigits_cons] at h
  have := length_toDigits_foldl_le (10 * 0 + (c.toNat - '0'.toNat)) h.2
  rw [Nat.mul_zero, Nat.zero_add, toDigits_digit h.1] at this
  rw [value, List.foldl_cons, Nat.mul_zero, Nat.zero_add, List.length_cons]
  exact Nat.le_trans this (Nat.le_of_eq (Nat.add_comm _ _))

theorem digit_pos (h : isDigits (c :: cs)) (hc : c ≠ '0') : 0 < c.toNat - '0'.toNat := by
  have hne : c.toNat ≠ 48 := fun he => hc (Char.toNat_inj.mp he)
  have := digit_bounds (isDigits_cons.mp h).1
  change 0 < c.toNat - 48
  omega

theorem toDigits_value_eq_iff (h : isDigits ds) :
    Nat.toDigits 10 (value ds) = ds ↔ ¬ ZeroFilled ds := by
  constructor
  · rintro he ⟨es, hes, rfl⟩
    have hes' : isDigits es := by
      simpa [isDigits, hes] using (isDigits_cons.mp h).2
    have := length_toDigits_value_le hes'
    have hv : value ('0' :: es) = value es := rfl
    rw [← hv, he, List.length_cons] at this
    omega
  · intro hf
    obtain ⟨c, cs, rfl⟩ := exists_of_isDigits h
    by_cases hc : c = '0'
    · subst hc
      obtain rfl : cs = [] := by
        by_contra hcs
        exact hf ⟨cs, hcs, rfl⟩
      rfl
    · have hpos := digit_pos h hc
      rw [isDigits_cons] at h
      rw [value, List.foldl_cons, Nat.mul_zero, Nat.zero_add, toDigits_foldl hpos h.2, toDigits_digit h.1]
      rfl

theorem eq_zero_cons_of_value (h : isDigits ds) (hz : value ds = 0) : ∃ es, ds = '0' :: es := by
  by_cases hf : ZeroFilled ds
  · obtain ⟨es, -, he⟩ := hf
    exact ⟨es, he⟩
  · have he := (toDigits_value_eq_iff h).mpr hf
    rw [hz] at he
    exact ⟨[], he.symm⟩

@[simp] theorem value_toDigits (n : Nat) : value (Nat.toDigits 10 n) = n :=
  Nat.ofDigitChars_toDigits (by decide) (by decide)

theorem isDigits_toDigits (n : Nat) : isDigits (Nat.toDigits 10 n) := by
  simp only [isDigits, Bool.and_eq_true, Bool.not_eq_true', List.isEmpty_eq_false_iff, List.all_eq_true]
  exact ⟨Nat.toDigits_ne_nil, fun _ => Nat.isDigit_of_mem_toDigits (by decide) (by decide)⟩

@[simp] theorem ofInt_natCast (n : Nat) : ofInt n = Nat.toDigits 10 n := by
  rw [ofInt, if_neg (by omega), Int.natAbs_natCast]

theorem ofInt_neg (hn : 0 < n) : ofInt (-(n : Int)) = '-' :: Nat.toDigits 10 n := by
  rw [ofInt, if_pos (by omega), Int.natAbs_neg, Int.natAbs_natCast]

theorem ofInt_neg_value_eq_iff (h : isDigits ds) :
    ofInt (-(value ds : Int)) = '-' :: ds ↔ ∀ es, ds ≠ '0' :: es := by
  rcases Nat.eq_zero_or_pos (value ds) with hz | hpos
  · obtain ⟨es, rfl⟩ := eq_zero_cons_of_value h hz
    rw [hz]
    refine iff_of_false ?_ fun hne => hne es rfl
    rintro ⟨⟩
  · rw [ofInt_neg hpos, List.cons.injEq, and_iff_right rfl, toDigits_value_eq_iff h]
    constructor
    · rintro hf es rfl
      refine hf ⟨es, ?_, rfl⟩
      rintro rfl
      exact Nat.lt_irrefl 0 hpos
    · rintro hne ⟨es, -, rfl⟩
      exact hne es rfl

theorem ofInt_eq_iff (h : Writes cs i) : ofInt i = cs ↔ ¬ Padded cs := by
  rw [Padded, and_iff_right ⟨i, h⟩, not_or]
  obtain ⟨-, ds, hds, ⟨rfl, rfl⟩ | ⟨rfl, rfl⟩⟩ := h
  · rw [ofInt_natCast, toDigits_value_eq_iff hds, and_iff_left]
    rintro ⟨es, rfl⟩
    simp at hds
  · rw [ofInt_neg_value_eq_iff hds, and_iff_right]
    · simp
    · rintro ⟨es, -, ⟨⟩⟩

/-- The text is a decimal integer of any size: digits, which a minus sign may precede. -/
def Spells (cs : List Char) (i : Int) : Prop :=
  ∃ ds, isDigits ds ∧ (cs = ds ∧ i = value ds ∨ cs = '-' :: ds ∧ i = -(value ds : Int))

theorem Spells.index? (h : Spells cs i) : index? cs = if fitsInt64 i then some i else none := by
  rw [Numeral.index?, signed?_eq_some_iff.mpr h]
  cases hi : fitsInt64 i <;> simp [hi]

theorem Spells.digit_or_minus (h : Spells cs i) {c : Char} (hc : c ∈ cs) : c.isDigit ∨ c = '-' := by
  obtain ⟨ds, hds, hcs⟩ := h
  have digit {d : Char} (hd : d ∈ ds) : d.isDigit := by
    simp only [isDigits, Bool.and_eq_true, List.all_eq_true] at hds
    exact hds.2 d hd
  rcases hcs with ⟨rfl, -⟩ | ⟨rfl, -⟩
  · exact .inl (digit hc)
  · rcases List.mem_cons.mp hc with rfl | hc
    · exact .inr rfl
    · exact .inl (digit hc)

theorem Spells.not_mem (h : Spells cs i) {c : Char} (hd : c.isDigit = false) (hm : c ≠ '-') :
    c ∉ cs := by
  intro hc
  rcases h.digit_or_minus hc with hc | rfl
  · simp [hd] at hc
  · exact hm rfl

theorem spells_ofInt (i : Int) : Spells (ofInt i) i := by
  refine ⟨Nat.toDigits 10 i.natAbs, isDigits_toDigits _, ?_⟩
  rw [value_toDigits, ofInt]
  split
  next hi => exact .inr ⟨rfl, by omega⟩
  next hi => exact .inl ⟨rfl, by omega⟩

def Names (cs : List Char) (n : Int) : Prop :=
  ∃ before sign ds after, cs = before ++ (sign ++ ds) ++ after ∧
    (∀ c ∈ before, Text.isBlank c) ∧ (∀ c ∈ after, Text.isBlank c) ∧ isDigits ds ∧
    ((sign = [] ∨ sign = ['+']) ∧ n = value ds ∨ sign = ['-'] ∧ n = -(value ds : Int))

@[simp] theorem not_isDigits_plus (ds : List Char) : isDigits ('+' :: ds) = false := by
  simp [isDigits]

theorem integer?_eq_some_iff :
    integer? cs = some i ↔ ∃ sign ds, cs = sign ++ ds ∧ isDigits ds ∧
      ((sign = [] ∨ sign = ['+']) ∧ i = value ds ∨ sign = ['-'] ∧ i = -(value ds : Int)) := by
  rw [integer?.eq_def]
  split
  next ds =>
    constructor
    · intro h
      by_cases hds : isDigits ds
      · rw [if_pos hds, Option.some.injEq] at h
        exact ⟨['+'], ds, rfl, hds, .inl ⟨.inr rfl, h.symm⟩⟩
      · rw [if_neg hds] at h
        cases h
    · rintro ⟨sign, es, he, hes, ⟨rfl | rfl, rfl⟩ | ⟨rfl, rfl⟩⟩
      · rw [List.nil_append] at he
        rw [← he, not_isDigits_plus] at hes
        cases hes
      · obtain rfl : ds = es := (List.cons.inj he).2
        rw [if_pos hes]
      · cases he
  next hne =>
    rw [signed?_eq_some_iff]
    constructor
    · rintro ⟨ds, hds, ⟨rfl, rfl⟩ | ⟨rfl, rfl⟩⟩
      · exact ⟨[], _, rfl, hds, .inl ⟨.inl rfl, rfl⟩⟩
      · exact ⟨['-'], ds, rfl, hds, .inr ⟨rfl, rfl⟩⟩
    · rintro ⟨sign, ds, rfl, hds, ⟨rfl | rfl, rfl⟩ | ⟨rfl, rfl⟩⟩
      · exact ⟨ds, hds, .inl ⟨rfl, rfl⟩⟩
      · exact absurd rfl (hne _)
      · exact ⟨ds, hds, .inr ⟨rfl, rfl⟩⟩

theorem not_isBlank_of_isDigit (h : c.isDigit) : Text.isBlank c = false := by
  have := digit_bounds h
  simp only [Text.isBlank, Bool.or_eq_false_iff, Bool.and_eq_false_iff, decide_eq_false_iff_not,
    beq_eq_false_iff_ne]
  omega

theorem int64?_trimChars_eq_some_iff :
    int64? (Text.trimChars cs) = some i ↔ Names cs i ∧ fitsInt64 i := by
  rw [int64?, Option.filter_eq_some_iff, integer?_eq_some_iff]
  refine and_congr_left fun _ => ?_
  constructor
  · rintro ⟨sign, ds, hcs, hds, hsign⟩
    obtain ⟨before, after, he, hb, ha⟩ := Text.exists_trimChars cs
    exact ⟨before, sign, ds, after, hcs ▸ he, hb, ha, hds, hsign⟩
  · rintro ⟨before, sign, ds, after, rfl, hb, ha, hds, hsign⟩
    refine ⟨sign, ds, Text.trimChars_append hb ha ?_ (Text.trimmed_of_forall ?_), hds, hsign⟩
    · rintro he
      rw [(List.append_eq_nil_iff.mp he).2] at hds
      cases hds
    · obtain ⟨d, es, rfl⟩ := exists_of_isDigits hds
      have hdigits : ∀ c ∈ d :: es, Text.isBlank c = false :=
        List.forall_mem_cons.mpr ((isDigits_cons.mp hds).imp not_isBlank_of_isDigit fun h c hc =>
          not_isBlank_of_isDigit (h c hc))
      rw [List.forall_mem_append]
      refine ⟨?_, hdigits⟩
      rcases hsign with ⟨rfl | rfl, -⟩ | ⟨rfl, -⟩
      · nofun
      · exact List.forall_mem_singleton.mpr (by decide)
      · exact List.forall_mem_singleton.mpr (by decide)

end AvroColumns.Numeral
