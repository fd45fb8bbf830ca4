import Mathlib
import AvroColumns.Proofs.Cell.Integers
import AvroColumns.Proofs.Numeric.TwosComplement
import AvroColumns.Schema.Loading

namespace AvroColumns

/-- The places behind the point that a word of 64 bits with a sign keeps of a scale. -/
def keptScale (scale : Nat) : ℤ :=
  if scale < twoTo 63 then scale else scale - twoTo 64

theorem LeafKind.places_eq_keptScale {scale : Nat} (h : scale < twoTo 64) :
    (LeafKind.decimal scale).places = keptScale scale := by
  rw [keptScale]
  split
  next hs => exact LeafKind.places_decimal hs
  next hs =>
    have : twoTo 63 = 9223372036854775808 := by decide
    have : twoTo 64 = 18446744073709551616 := by decide
    rw [LeafKind.places, ← Int.sub_bmod_right, Int.bmod_eq_of_le_mul_two] <;> omega

theorem Decimal.int64?_eq_ite (d : Decimal) :
    d.int64? = if fitsInt64 (truncation d.value) then some (truncation d.value) else none := by
  ext n
  rw [Decimal.int64?_eq_some_iff, Option.ite_none_right_eq_some, Option.some.injEq]
  constructor
  · rintro ⟨rfl, hfits⟩
    exact ⟨hfits, rfl⟩
  · rintro ⟨hfits, rfl⟩
    exact ⟨rfl, hfits⟩

namespace Datum

variable {b : List UInt8} {scale : Nat} {v : Datum} {d : Decimal}

/-- The decimal that bytes are taken up as: their integer, which is written back with as many bytes. -/
def ofDigits? (b : List UInt8) : Option Datum :=
  (Decimal.bytesOf? b.length (Decimal.integerOf b)).map .decimal

theorem ofDigits?_eq (hb : b ≠ []) : ofDigits? b = some (.decimal b) := by
  rw [ofDigits?, ← Decimal.twosComplement_eq, Decimal.bytesOf?_twosComplement hb]
  rfl

inductive Carries (b : List UInt8) : Datum → Prop
  | bytes : Carries b (.bytes b)
  | fixed : Carries b (.fixed b.length b)
  | decimal {w : Datum} (h : ofDigits? b = some w) : Carries b w

theorem Carries.ofDatum? (h : Carries b v) (hb : b ≠ []) :
    Scalar.ofDatum? (.decimal scale) v = .ok (some (.decimal (.ofBytes scale b))) := by
  cases h with
  | bytes => rfl
  | fixed => rfl
  | decimal h =>
    obtain rfl : .decimal b = v := Option.some.inj ((ofDigits?_eq hb).symm.trans h)
    rw [Scalar.ofDatum?, Scalar.ofDecimal_eq _ hb, LeafKind.digits_decimal]

theorem toCell_of_decimal (h : Scalar.ofDatum? (.decimal scale) v = .ok (some (.decimal d))) :
    v.toCell (.decimal scale) .bigNumber = .ok (some (.bigNumber d)) ∧
      v.toCell (.decimal scale) .integer =
        (if fitsInt64 (truncation d.value) then .ok (some (.integer (truncation d.value)))
          else .error ⟨.scalar (.decimal d), .integer⟩) ∧
      v.toCell (.decimal scale) .boolean = .ok (some (.boolean (d.value ≠ 0))) := by
  have hzero : d.value ≠ 0 ↔ d.unscaled ≠ 0 := by
    rw [Decimal.value, mul_ne_zero_iff_right (zpow_ne_zero _ (by norm_num)), Int.cast_ne_zero]
  refine ⟨?_, ?_, ?_⟩
  · simp [toCell, h, Scalar.cell?, Scalar.bigNumber?]
  · rw [toCell, if_neg (by simp), h]
    simp only [Scalar.cell?, Scalar.integer?, Decimal.int64?_eq_ite]
    by_cases hfits : fitsInt64 (truncation d.value) <;> simp [hfits]
  · simp only [toCell, h, Scalar.cell?, Scalar.boolean?, hzero]
    rfl

/-- A decimal means the integer of its digits with the point moved by its scale, however the digits are
carried and however often the sign is repeated in front of them. -/
theorem decimal_cells (hb : b ≠ []) (hs : scale < twoTo 64) (k : Nat) :
    (∃ v, ofDigits? (Decimal.extend k b) = some v) ∧
    ∃ d : Decimal, d.value = Decimal.integerOf b * 10 ^ (-keptScale scale) ∧
      ∀ v, Carries (Decimal.extend k b) v →
        (∀ target, v.toCell (.decimal scale) target = (Datum.bytes b).toCell (.decimal scale) target) ∧
        v.toCell (.decimal scale) .bigNumber = .ok (some (.bigNumber d)) ∧
        v.toCell (.decimal scale) .integer =
          (if fitsInt64 (truncation d.value) then .ok (some (.integer (truncation d.value)))
            else .error ⟨.scalar (.decimal d), .integer⟩) ∧
        v.toCell (.decimal scale) .boolean = .ok (some (.boolean (d.value ≠ 0))) := by
  have hextend := Decimal.extend_ne_nil k hb
  refine ⟨⟨_, ofDigits?_eq hextend⟩, .ofBytes scale b, ?_, fun v hv => ?_⟩
  · rw [← LeafKind.digits_decimal, LeafKind.digits, Decimal.value, LeafKind.places_eq_keptScale hs,
      Decimal.twosComplement_eq]
  · have hread : Scalar.ofDatum? (.decimal scale) v = .ok (some (.decimal (.ofBytes scale b))) := by
      rw [hv.ofDatum? hextend, Decimal.ofBytes, Decimal.twosComplement_extend k hb, Decimal.ofBytes]
    refine ⟨fun target => ?_, toCell_of_decimal hread⟩
    have hbytes : Scalar.ofDatum? (.decimal scale) (.bytes b) =
        .ok (some (.decimal (.ofBytes scale b))) := rfl
    simp only [toCell, hread, hbytes]

theorem decimal_cells_negative :
    [255, 6] ≠ ([] : List UInt8) ∧ 2 < twoTo 64 ∧ Decimal.extend 1 [255, 6] = [255, 255, 6] ∧
      Decimal.integerOf [255, 6] = -250 ∧
      ∃ d : Decimal, d.value = -5 / 2 ∧
        (Datum.decimal [255, 255, 6]).toCell (.decimal 2) .bigNumber = .ok (some (.bigNumber d)) ∧
        (Datum.fixed 3 [255, 255, 6]).toCell (.decimal 2) .integer = .ok (some (.integer (-2))) := by
  have hb : [255, 6] ≠ ([] : List UInt8) := by decide
  have hscale : 2 < twoTo 64 := by decide
  obtain ⟨-, d, hd, hcells⟩ := decimal_cells hb hscale 1
  have hvalue : d.value = -5 / 2 := by
    rw [hd, show Decimal.integerOf [255, 6] = -250 by decide, show keptScale 2 = 2 by decide]
    norm_num
  have htruncation : truncation (-5 / 2) = -2 := by
    rw [truncation, if_neg (by norm_num), Int.ceil_eq_iff]
    norm_num
  refine ⟨hb, hscale, by decide, by decide, d, hvalue, ?_, ?_⟩
  · exact (hcells _ (.decimal (ofDigits?_eq (by decide)))).2.1
  · have hinteger := (hcells _ .fixed).2.2.1
    rw [hvalue, htruncation] at hinteger
    exact hinteger

end Datum

def manyPlaces : Json :=
  .obj [("type", .str "bytes"), ("logicalType", .str "decimal"),
    ("precision", .int 18446744073709551615), ("scale", .int 18446744073709551615)]

theorem many_places_wrapped :
    ∃ d, Document.ofText manyPlaces.text = .ok d ∧
      d.node d.root = .ok (.leaf (.decimal 18446744073709551615)) ∧
      Decimal.integerOf [1] = 1 ∧
      (1 : ℚ) * 10 ^ (-18446744073709551615 : ℤ) ≠ Decimal.value ⟨1, -1⟩ ∧
      (Datum.bytes [1]).toCell (.decimal 18446744073709551615) .bigNumber =
        .ok (some (.bigNumber ⟨1, -1⟩)) ∧
      truncation ((1 : ℚ) * 10 ^ (-18446744073709551615 : ℤ)) = 0 ∧
      (Datum.bytes [1]).toCell (.decimal 18446744073709551615) .integer = .ok (some (.integer 10)) := by
  have hsmall : (1 : ℚ) * 10 ^ (-18446744073709551615 : ℤ) < 1 := by
    rw [one_mul]
    exact zpow_lt_one_of_neg₀ (by norm_num) (by norm_num)
  have hpos : (0 : ℚ) < 1 * 10 ^ (-18446744073709551615 : ℤ) := by
    rw [one_mul]
    exact zpow_pos (by norm_num) _
  refine ⟨.ofSchema (.decimal 18446744073709551615 18446744073709551615 .bytes), by cbv, rfl, by decide,
    ?_, rfl, ?_, rfl⟩
  · have hten : Decimal.value ⟨1, -1⟩ = 10 := by norm_num [Decimal.value]
    rw [hten]
    exact (hsmall.trans (by norm_num)).ne
  · exact truncation_eq_zero (by rw [abs_of_pos hpos]; exact hsmall)

end AvroColumns
