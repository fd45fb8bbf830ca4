import AvroColumns.Proofs.Cell.Instants
import AvroColumns.Proofs.Numeric.Numerals
import AvroColumns.Proofs.Numeric.Truncation
import AvroColumns.Proofs.Numeric.Values

/-!
# Integers of leaves

A leaf tells an integer if there is one to read from it: the integer itself, a flag as zero or one, the
milliseconds of an instant, the integer part of a decimal, the numeral of a text or the integer nearest to
a binary number. A column of integers shows the integer that its leaf tells if it fits 64 bits. Of those
that do not fit, the one of a binary number is shown as the bound that it lies beyond, and any other is a
fault.
-/

namespace AvroColumns

namespace Datum

/-- The value is a finite binary number, to which the integer is nearest. -/
inductive Rounds : Datum → ℤ → Prop
  | float {x q n} (hq : x.value? = some q) (hn : IsNearest q n) : Rounds (.float x) n
  | double {x q n} (hq : x.value? = some q) (hn : IsNearest q n) : Rounds (.double x) n

/-- The value is null or of a type that columns do not have. -/
def isVoid : Datum → Bool
  | .null | .duration _ | .array _ | .map _ | .record _ => true
  | _ => false

theorem untagged_ne_union (v : Datum) (i : Nat) (w : Datum) : v.untagged ≠ .union i w := by
  fun_induction untagged v with
  | case1 _ v ih => exact ih
  | case2 v h => exact h i w

end Datum

namespace LeafKind

/-- The decimal places of the digits of a leaf. A scale is a number of 64 bits with a sign, so one beyond
them stands for a negative one. -/
def places : LeafKind → ℤ
  | .decimal scale => (scale : ℤ).bmod (twoTo 64)
  | _ => 0

theorem places_decimal {scale : Nat} (h : scale < twoTo 63) : (LeafKind.decimal scale).places = scale := by
  have : twoTo 63 = 9223372036854775808 := by decide
  have : twoTo 64 = 18446744073709551616 := by decide
  rw [places, Int.bmod_eq_of_le_mul_two] <;> omega

def digits (kind : LeafKind) (b : List UInt8) : Decimal :=
  ⟨Decimal.twosComplement b, kind.places⟩

@[simp] theorem digits_decimal (scale : Nat) (b : List UInt8) :
    (LeafKind.decimal scale).digits b = .ofBytes scale b := by
  rw [digits, places, Decimal.ofBytes]

/-- The leaf tells an integer. One that counts units of time tells the milliseconds since the epoch if the
calendar has a date for it. -/
inductive Tells (kind : LeafKind) : Datum → ℤ → Prop
  | boolean (b) : Tells kind (.boolean b) (if b then 1 else 0)
  | int {n} (h : ∀ unit count, ¬ kind.Counts unit count (.int n)) : Tells kind (.int n) n
  | long {n} (h : ∀ unit count, ¬ kind.Counts unit count (.long n)) : Tells kind (.long n) n
  | count {unit n v} (h : kind.Counts unit n v) (hc : Instant.InCalendar (n * unit)) :
      Tells kind v (n * unit / 1000000)
  | binary {v n} (h : v.Rounds n) : Tells kind v n
  | string {s n} (h : Numeral.Names s.toList n) : Tells kind (.string s) n
  | enum {i s n} (h : Numeral.Names s.toList n) : Tells kind (.enum i s) n
  | uuid {u n} (h : Numeral.Names u.text.toList n) : Tells kind (.uuid u) n
  | bytes {scale b} (hk : kind = .decimal scale) : Tells kind (.bytes b) (truncation (kind.digits b).value)
  | fixed {scale size b} (hk : kind = .decimal scale) :
      Tells kind (.fixed size b) (truncation (kind.digits b).value)
  | decimal {b} (hb : b ≠ []) : Tells kind (.decimal b) (truncation (kind.digits b).value)
  | bigDecimal (d) : Tells kind (.bigDecimal d) (truncation d.value)

end LeafKind

namespace Scalar

variable {s : Scalar} {i n : ℤ}

def Tells : Scalar → ℤ → Prop
  | .boolean b, n => n = if b then 1 else 0
  | .integer k, n => n = k
  | .double x, n => ∃ q, x.value? = some q ∧ IsNearest q n
  | .text s, n => Numeral.Names s.toList n
  | .bytes _, _ => False
  | .decimal d, n => n = truncation d.value
  | .instant t, n => n = t.sinceEpoch / 1000000

def isBinary : Scalar → Bool
  | .double _ => true
  | _ => false

/-- The words and the calendar that a scalar is read from bound it. -/
def fits : Scalar → Prop
  | .integer n => fitsInt64 n
  | .instant t => Instant.InCalendar t.sinceEpoch
  | _ => True

@[simp] theorem clampInt64_of_fits (h : fitsInt64 n) : clampInt64 n = n := by
  simp only [fitsInt64, Bool.and_eq_true, decide_eq_true_eq] at h
  rw [clampInt64]
  omega

theorem toMillis_eq (t : Instant) : t.toMillis = t.sinceEpoch / 1000000 := by
  rw [Instant.toMillis, Instant.sinceEpoch]
  omega

theorem fitsInt64_millis (h : Instant.InCalendar n) : fitsInt64 (n / 1000000) := by
  rw [Instant.inCalendar_iff, Date.inRange, Bool.and_eq_true, decide_eq_true_iff, decide_eq_true_iff] at h
  rw [fitsInt64, Bool.and_eq_true, decide_eq_true_iff, decide_eq_true_iff]
  omega

theorem integer?_eq_some_iff (hs : s.fits) :
    s.integer? = some i ↔
      s.Tells i ∧ fitsInt64 i ∨
        s.isBinary ∧ ∃ n, s.Tells n ∧ fitsInt64 n = false ∧ i = clampInt64 n := by
  have told (k : ℤ) (hk : fitsInt64 k) : some k = some i ↔ i = k ∧ fitsInt64 i := by
    constructor
    · rintro ⟨⟩
      exact ⟨rfl, hk⟩
    · rintro ⟨rfl, -⟩
      rfl
  cases s with
  | boolean b =>
    have hb : fitsInt64 (if b then 1 else 0) := by
      cases b <;> decide
    simpa [integer?, Tells, isBinary] using told _ hb
  | integer k => simpa [integer?, Tells, isBinary] using told k hs
  | double x =>
    simp only [integer?, Tells, isBinary, Option.map_eq_some_iff, Binary64.roundHalfAway?_eq_some_iff,
      true_and]
    constructor
    · rintro ⟨n, hn, rfl⟩
      cases hf : fitsInt64 n with
      | true =>
        rw [clampInt64_of_fits hf]
        exact .inl ⟨hn, hf⟩
      | false => exact .inr ⟨n, hn, hf, rfl⟩
    · rintro (⟨hi, hf⟩ | ⟨n, hn, -, rfl⟩)
      · exact ⟨i, hi, clampInt64_of_fits hf⟩
      · exact ⟨n, hn, rfl⟩
  | text s => simp [integer?, Tells, isBinary, Numeral.int64?_trimChars_eq_some_iff]
  | bytes b => simp [integer?, Tells, isBinary]
  | decimal d =>
    simp [integer?, Tells, isBinary, Decimal.int64?_eq_some_iff, @eq_comm _ i]
  | instant t =>
    simpa [integer?, Tells, isBinary, toMillis_eq] using told _ (fitsInt64_millis hs)

variable {kind : LeafKind} {v : Datum}

@[simp] theorem ofDatum?_untagged (kind : LeafKind) (v : Datum) :
    ofDatum? kind v.untagged = ofDatum? kind v := by
  fun_induction Datum.untagged v with
  | case1 _ v ih => rw [ih, ofDatum?]
  | case2 => rfl

theorem fitsInt64_of_fitsInt32 (h : fitsInt32 n) : fitsInt64 n := by
  simp only [fitsInt32, fitsInt64, Bool.and_eq_true, decide_eq_true_eq] at h ⊢
  omega

theorem ofInt_eq (h : ∀ unit count, ¬ kind.Counts unit count (.int n)) (hn : fitsInt32 n) :
    ofInt kind n = .ok (some (.integer n)) := by
  have hw := fitsInt64_of_fitsInt32 hn
  cases kind with
  | date => exact absurd (.literal rfl (by simp [LeafKind.ofLiteral?, Json.int64?, hn, hw])) (h _ n)
  | timeMillis => exact absurd (.literal rfl (by simp [LeafKind.ofLiteral?, Json.int64?, hn, hw])) (h _ n)
  | _ => rfl

theorem ofLong_eq (h : ∀ unit count, ¬ kind.Counts unit count (.long n)) (hn : fitsInt64 n) :
    ofLong kind n = .ok (some (.integer n)) := by
  cases kind with
  | timestamp unit => exact absurd (.literal rfl (by simp [LeafKind.ofLiteral?, Json.int64?, hn])) (h _ n)
  | timeMicros => exact absurd (.literal rfl (by simp [LeafKind.ofLiteral?, Json.int64?, hn])) (h _ n)
  | _ => rfl

theorem ofDecimal_eq (kind : LeafKind) {b : List UInt8} (hb : b ≠ []) :
    ofDecimal kind b = .ok (some (.decimal (kind.digits b))) := by
  have hzero : Decimal.ofBytes 0 b = ⟨Decimal.twosComplement b, 0⟩ := by
    rw [Decimal.ofBytes, Int.natCast_zero, Int.zero_bmod]
  rw [ofDecimal.eq_def, if_neg (by simpa using hb)]
  cases kind with
  | decimal scale => rw [LeafKind.digits_decimal]
  | _ => exact congrArg (fun d => Except.ok (some (Scalar.decimal d))) hzero

theorem eq_instant_of_counts {unit : Nat} (hc : kind.Counts unit n v) (hv : v.fits)
    (hs : ofDatum? kind v = .ok (some s)) :
    Instant.InCalendar (n * unit) ∧ s = .instant (.ofNanos (n * unit)) := by
  obtain ⟨what, hread⟩ := exists_ofDatum?_eq hc hv
  rw [hread, ofUnits] at hs
  split at hs
  next hin =>
    cases hs
    exact ⟨hin, rfl⟩
  next => cases hs

theorem exists_of_rounds (kind : LeafKind) (h : v.Rounds n) :
    ∃ x, ofDatum? kind v = .ok (some (.double x)) ∧ (Scalar.double x).Tells n := by
  cases h with
  | @float x q n hq hn => exact ⟨_, rfl, q, (Binary32.value?_toBinary64 x).trans hq, hn⟩
  | double hq hn => exact ⟨_, rfl, _, hq, hn⟩

theorem exists_of_tells (h : kind.Tells v n) (hv : v.fits) :
    ∃ s, ofDatum? kind v = .ok (some s) ∧ s.Tells n := by
  cases h with
  | boolean b => exact ⟨_, rfl, rfl⟩
  | int h => exact ⟨_, ofInt_eq h hv, rfl⟩
  | long h => exact ⟨_, ofLong_eq h hv, rfl⟩
  | count h hc =>
    obtain ⟨what, hread⟩ := exists_ofDatum?_eq h hv
    rw [hread, ofUnits, if_pos hc]
    exact ⟨_, rfl, by rw [Tells, Instant.sinceEpoch_ofNanos]⟩
  | binary h =>
    obtain ⟨x, hread, hx⟩ := exists_of_rounds kind h
    exact ⟨_, hread, hx⟩
  | string h => exact ⟨_, rfl, h⟩
  | enum h => exact ⟨_, rfl, h⟩
  | uuid h => exact ⟨_, rfl, h⟩
  | bytes hk =>
    subst hk
    exact ⟨_, rfl, rfl⟩
  | fixed hk =>
    subst hk
    exact ⟨_, rfl, rfl⟩
  | decimal hb =>
    exact ⟨_, ofDecimal_eq kind hb, rfl⟩
  | bigDecimal d => exact ⟨_, rfl, rfl⟩

/-- The leaf tells what the scalar tells, and it is a binary number if the scalar is one. -/
structure Bears (s : Scalar) (kind : LeafKind) (v : Datum) : Prop where
  fits : s.fits
  tells : ∀ n, s.Tells n → kind.Tells v n
  rounds : s.isBinary → ∀ n, s.Tells n → v.Rounds n

theorem Bears.plain (hb : s.isBinary = false) (hf : s.fits) (ht : ∀ n, s.Tells n → kind.Tells v n) :
    s.Bears kind v := by
  refine ⟨hf, ht, ?_⟩
  rw [hb]
  exact fun h => absurd h Bool.false_ne_true

theorem bears_instant {unit : Nat} (hc : kind.Counts unit n v) (hin : Instant.InCalendar (n * unit)) :
    (Scalar.instant (.ofNanos (n * unit))).Bears kind v := by
  apply Bears.plain rfl
  · rw [fits, Instant.sinceEpoch_ofNanos]
    exact hin
  · intro k hk
    rw [Tells, Instant.sinceEpoch_ofNanos] at hk
    exact hk ▸ .count hc hin

theorem bears_float (kind : LeafKind) (x : Binary32) :
    (Scalar.double x.toBinary64).Bears kind (.float x) := by
  have hx (n : ℤ) (h : (Scalar.double x.toBinary64).Tells n) : (Datum.float x).Rounds n := by
    obtain ⟨q, hq, hn⟩ := h
    exact .float (Binary32.value?_toBinary64 x ▸ hq) hn
  exact ⟨trivial, fun n hn => .binary (hx n hn), fun _ => hx⟩

theorem bears_double (kind : LeafKind) (x : Binary64) : (Scalar.double x).Bears kind (.double x) := by
  have hx (n : ℤ) (h : (Scalar.double x).Tells n) : (Datum.double x).Rounds n := by
    obtain ⟨q, hq, hn⟩ := h
    exact .double hq hn
  exact ⟨trivial, fun n hn => .binary (hx n hn), fun _ => hx⟩

theorem bears_ofBytes {b : List UInt8}
    (h : ∀ scale, kind = .decimal scale → kind.Tells v (truncation (kind.digits b).value)) :
    (ofBytes kind b).Bears kind v := by
  cases kind with
  | decimal scale => exact .plain rfl trivial fun n hn => hn ▸ h scale rfl
  | _ => exact .plain rfl trivial fun n hn => nomatch hn

theorem bears_of_ofDatum? (hs : ofDatum? kind v = .ok (some s)) (hv : v.fits)
    (ht : ∀ i w, v ≠ .union i w) : s.Bears kind v := by
  by_cases hc : ∃ unit n, kind.Counts unit n v
  · obtain ⟨unit, count, hc⟩ := hc
    obtain ⟨hin, rfl⟩ := eq_instant_of_counts hc hv hs
    exact bears_instant hc hin
  · push Not at hc
    cases v with
    | union i w => exact absurd rfl (ht i w)
    | boolean b =>
      cases hs
      exact .plain rfl trivial fun n hn => hn ▸ .boolean b
    | int k =>
      rw [ofDatum?, ofInt_eq hc hv] at hs
      cases hs
      refine .plain rfl (fitsInt64_of_fitsInt32 hv) ?_
      rintro n rfl
      exact .int hc
    | long k =>
      rw [ofDatum?, ofLong_eq hc hv] at hs
      cases hs
      refine .plain rfl hv ?_
      rintro n rfl
      exact .long hc
    | float x =>
      cases hs
      exact bears_float kind x
    | double x =>
      cases hs
      exact bears_double kind x
    | string s =>
      cases hs
      exact .plain rfl trivial fun n hn => .string hn
    | enum i s =>
      cases hs
      exact .plain rfl trivial fun n hn => .enum hn
    | uuid u =>
      cases hs
      exact .plain rfl trivial fun n hn => .uuid hn
    | bytes b =>
      cases hs
      exact bears_ofBytes fun scale hk => .bytes hk
    | fixed size b =>
      cases hs
      exact bears_ofBytes fun scale hk => .fixed hk
    | decimal b =>
      by_cases hb : b = []
      · subst hb
        cases hs
      · rw [ofDatum?, ofDecimal_eq kind hb] at hs
        cases hs
        exact .plain rfl trivial fun n hn => hn ▸ .decimal hb
    | bigDecimal d =>
      cases hs
      exact .plain rfl trivial fun n hn => hn ▸ .bigDecimal d
    -- what counts units of time by its own type does so under every kind of leaf
    | date n => exact absurd (.date n) (hc _ n)
    | timeMillis n => exact absurd (.timeMillis n) (hc _ n)
    | timeMicros n => exact absurd (.timeMicros n) (hc _ n)
    | timestamp unit zoned n => exact absurd (.timestamp unit zoned n) (hc _ n)
    | _ => cases hs

theorem ofInstant?_ne_none (what : String) (t : Option Instant) : ofInstant? what t ≠ .ok none := by
  cases t <;> nofun

theorem ofTimestamp_ne_none (unit : TimeUnit) (n : ℤ) : ofTimestamp unit n ≠ .ok none := by
  cases unit with
  | millis => exact ofInstant?_ne_none _ _
  | micros => exact ofInstant?_ne_none _ _
  | nanos => nofun

theorem ofInt_ne_none (kind : LeafKind) (n : ℤ) : ofInt kind n ≠ .ok none := by
  cases kind with
  | date => exact ofInstant?_ne_none _ _
  | timeMillis => exact ofInstant?_ne_none _ _
  | _ => nofun

theorem ofLong_ne_none (kind : LeafKind) (n : ℤ) : ofLong kind n ≠ .ok none := by
  cases kind with
  | timestamp unit => exact ofTimestamp_ne_none unit n
  | timeMicros => exact ofTimestamp_ne_none .micros n
  | _ => nofun

theorem ofDecimal_ne_none (kind : LeafKind) (b : List UInt8) : ofDecimal kind b ≠ .ok none := by
  by_cases hb : b = []
  · rw [hb]
    nofun
  · rw [ofDecimal_eq kind hb]
    nofun

theorem ofDatum?_eq_none_iff (ht : ∀ i w, v ≠ .union i w) : ofDatum? kind v = .ok none ↔ v.isVoid := by
  cases v with
  | union i w => exact absurd rfl (ht i w)
  | int n => exact iff_of_false (ofInt_ne_none kind n) nofun
  | long n => exact iff_of_false (ofLong_ne_none kind n) nofun
  | decimal b => exact iff_of_false (ofDecimal_ne_none kind b) nofun
  | date n => exact iff_of_false (ofInstant?_ne_none _ _) nofun
  | timeMillis n => exact iff_of_false (ofInstant?_ne_none _ _) nofun
  | timeMicros n => exact iff_of_false (ofTimestamp_ne_none _ _) nofun
  | timestamp unit zoned n => exact iff_of_false (ofTimestamp_ne_none _ _) nofun
  | null | duration | array | map | record => exact iff_of_true rfl rfl
  | _ => exact iff_of_false nofun nofun

end Scalar

namespace Datum

variable {kind : LeafKind} {v : Datum} {target : Target} {c : Cell}

theorem toCell_integer_eq_some_iff :
    v.toCell kind .integer = .ok (some c) ↔
      ∃ s i, Scalar.ofDatum? kind v = .ok (some s) ∧ s.integer? = some i ∧ c = .integer i := by
  rw [toCell, if_neg (by simp)]
  split
  next h => simp [h]
  next h => simp [h]
  next s h =>
    rw [h, Scalar.cell?]
    cases hi : s.integer? <;> simp [hi, eq_comm]

theorem toCell_integer_eq_none_iff :
    v.toCell kind .integer = .ok none ↔ Scalar.ofDatum? kind v = .ok none := by
  rw [toCell, if_neg (by simp)]
  split
  next h => simp [h]
  next h => simp [h]
  next s h =>
    rw [h]
    split <;> simp

theorem target_of_toCell {f : ConversionFault} (h : v.toCell kind target = .error f) : f.target = target := by
  rw [toCell] at h
  split at h
  · cases h
  · split at h
    · cases h
      rfl
    · cases h
    · split at h <;> cases h
      rfl

/-- The integer is what a column of integers shows of a leaf that is not tagged. A binary number beyond 64
bits is shown as the bound on its side. -/
def Shows (kind : LeafKind) (v : Datum) (i : ℤ) : Prop :=
  kind.Tells v i ∧ fitsInt64 i ∨ ∃ n, v.Rounds n ∧ fitsInt64 n = false ∧ i = Scalar.clampInt64 n

theorem Rounds.exists_shows {n : ℤ} (h : v.Rounds n) (kind : LeafKind) : ∃ i, Shows kind v i := by
  cases hf : fitsInt64 n with
  | true => exact ⟨n, .inl ⟨.binary h, hf⟩⟩
  | false => exact ⟨_, .inr ⟨n, h, hf, rfl⟩⟩

theorem toCell_eq_integer_iff (hv : v.untagged.fits) :
    v.toCell kind .integer = .ok (some c) ↔ ∃ i, c = .integer i ∧ Shows kind v.untagged i := by
  rw [toCell_integer_eq_some_iff, ← Scalar.ofDatum?_untagged]
  constructor
  · rintro ⟨s, i, hs, hi, rfl⟩
    obtain ⟨hfits, htells, hrounds⟩ := Scalar.bears_of_ofDatum? hs hv (untagged_ne_union v)
    refine ⟨i, rfl, ((Scalar.integer?_eq_some_iff hfits).mp hi).imp ?_ ?_⟩
    · rintro ⟨hi, hf⟩
      exact ⟨htells i hi, hf⟩
    · rintro ⟨hb, n, hn, hf, he⟩
      exact ⟨n, hrounds hb n hn, hf, he⟩
  · rintro ⟨i, rfl, ⟨hi, hf⟩ | ⟨n, hn, hf, he⟩⟩
    · obtain ⟨s, hs, hi⟩ := Scalar.exists_of_tells hi hv
      have hfits := (Scalar.bears_of_ofDatum? hs hv (untagged_ne_union v)).1
      exact ⟨s, i, hs, (Scalar.integer?_eq_some_iff hfits).mpr (.inl ⟨hi, hf⟩), rfl⟩
    · obtain ⟨x, hs, hx⟩ := Scalar.exists_of_rounds kind hn
      have hfits : (Scalar.double x).fits := trivial
      exact ⟨_, i, hs, (Scalar.integer?_eq_some_iff hfits).mpr (.inr ⟨rfl, n, hx, hf, he⟩), rfl⟩

theorem toCell_eq_none_iff : v.toCell kind .integer = .ok none ↔ v.untagged.isVoid := by
  rw [toCell_integer_eq_none_iff, ← Scalar.ofDatum?_untagged,
    Scalar.ofDatum?_eq_none_iff (untagged_ne_union v)]

/-- A column of integers shows the integer that its leaf tells if it fits 64 bits, and for a binary number
beyond them the bound on its side. It is empty for a leaf that is void, and any other leaf is a fault. -/
theorem integer_cells (hv : v.untagged.fits) :
    (∀ c, v.toCell kind .integer = .ok (some c) ↔ ∃ i, c = .integer i ∧ Shows kind v.untagged i) ∧
    (v.toCell kind .integer = .ok none ↔ v.untagged.isVoid) ∧
    ((∃ found, v.toCell kind .integer = .error ⟨found, .integer⟩) ↔
      v.untagged.isVoid = false ∧ (∀ n, kind.Tells v.untagged n → fitsInt64 n = false) ∧
        ∀ n, ¬ v.untagged.Rounds n) ∧
    ∀ scale, scale < twoTo 63 → (LeafKind.decimal scale).places = scale := by
  refine ⟨fun c => toCell_eq_integer_iff hv, toCell_eq_none_iff, ?_, fun scale => LeafKind.places_decimal⟩
  constructor
  · rintro ⟨found, hfault⟩
    have hshows (i : ℤ) : ¬ Shows kind v.untagged i := fun hi => by
      cases hfault.symm.trans ((toCell_eq_integer_iff hv).mpr ⟨i, rfl, hi⟩)
    refine ⟨?_, ?_, ?_⟩
    · by_contra hvoid
      cases hfault.symm.trans (toCell_eq_none_iff.mpr (Bool.eq_true_of_not_eq_false hvoid))
    · intro n hn
      by_contra hf
      exact hshows n (.inl ⟨hn, Bool.eq_true_of_not_eq_false hf⟩)
    · intro n hn
      obtain ⟨i, hi⟩ := hn.exists_shows kind
      exact hshows i hi
  · rintro ⟨hvoid, htells, hrounds⟩
    cases hcell : v.toCell kind .integer with
    | error f => exact ⟨f.found, by rw [← target_of_toCell hcell]⟩
    | ok cell =>
      cases cell with
      | none => exact absurd (toCell_eq_none_iff.mp hcell) (Bool.eq_false_iff.mp hvoid)
      | some c =>
        obtain ⟨i, -, ⟨hi, hf⟩ | ⟨n, hn, -⟩⟩ := (toCell_eq_integer_iff hv).mp hcell
        · exact absurd hf (Bool.eq_false_iff.mp (htells i hi))
        · exact absurd hn (hrounds n)

theorem integer_cells_amounts :
    (Datum.union 1 (.bytes [255, 6])).untagged.fits ∧
      (Datum.union 1 (.bytes [255, 6])).toCell (.decimal 2) .integer = .ok (some (.integer (-2))) ∧
      ∃ found, (Datum.double .nan).toCell .double .integer = .error ⟨found, .integer⟩ := by
  have hpart : truncation ((LeafKind.decimal 2).digits [255, 6]).value = -2 := by
    rw [← Decimal.truncate_eq]
    decide
  have htells : (LeafKind.decimal 2).Tells (.bytes [255, 6]) (-2) := hpart ▸ .bytes rfl
  have hrounds (n : ℤ) : ¬ (Datum.double .nan).Rounds n := by
    rintro ⟨⟩
    next hq _ => cases hq
  refine ⟨rfl, ((integer_cells rfl).1 _).mpr ⟨-2, rfl, .inl ⟨htells, rfl⟩⟩, ?_⟩
  refine (integer_cells rfl).2.2.1.mpr ⟨rfl, fun n hn => ?_, hrounds⟩
  cases hn with
  | binary h => exact absurd h (hrounds n)
  | count h =>
    cases h with
    | literal hu => cases hu

theorem beyond_words_clamped :
    (Binary64.mk 0x43E0000000000000).value? = some 9223372036854775808 ∧
      (Datum.double ⟨0x43E0000000000000⟩).toCell .double .integer =
        .ok (some (.integer 9223372036854775807)) ∧
      ¬ |(9223372036854775807 : ℚ) - 9223372036854775808| ≤ 1 / 2 ∧
      truncation (Decimal.value ⟨Decimal.twosComplement [1], 18446744073709551615⟩) = 0 ∧
      (Datum.bytes [1]).toCell (.decimal 18446744073709551615) .integer = .ok (some (.integer 10)) := by
  have hread : (Binary64.mk 0x43E0000000000000).read = .finite false 4503599627370496 11 := by
    decide
  refine ⟨?_, ?_, ?_, ?_, ?_⟩
  · rw [Binary64.value?, hread]
    norm_num [Reading.value?, signed]
  · rfl
  · norm_num
  · exact Decimal.truncation_eq_zero_of_wholeDigits (.inr (by decide))
  · rfl

end Datum

end AvroColumns
