import Mathlib.Algebra.Order.Ring.Nat
import Mathlib.Algebra.Order.Ring.Canonical
import Mathlib.Algebra.Ring.Int.Defs
import Mathlib.Data.List.Basic
import AvroColumns.Cell.Conversion
import AvroColumns.Proofs.Datum.Parts

namespace AvroColumns

def TimeUnit.length : TimeUnit → Nat
  | .millis => 1000000
  | .micros => 1000
  | .nanos => 1

def nanosPerDay : Nat := 86400 * 1000000000

namespace Instant

variable {n count : Int} {perSecond unit : Nat}

def sinceEpoch (t : Instant) : Int :=
  t.seconds * 1000000000 + t.nanos

/-- Whether a number of nanoseconds since the epoch falls on a date of the calendar. -/
def InCalendar (n : Int) : Prop :=
  Date.toDays ⟨-262143, 1, 1⟩ ≤ n / nanosPerDay ∧ n / nanosPerDay ≤ Date.toDays ⟨262142, 12, 31⟩

instance (n : Int) : Decidable (InCalendar n) :=
  inferInstanceAs (Decidable (_ ∧ _))

@[simp] theorem sinceEpoch_ofNanos (n : Int) : (ofNanos n).sinceEpoch = n := by
  simp only [sinceEpoch, ofNanos]
  omega

theorem nanos_ofNanos_lt (n : Int) : (ofNanos n).nanos < 1000000000 := by
  simp only [ofNanos]
  omega

@[simp] theorem toMillis_ofNanos (n : Int) : (ofNanos n).toMillis = n / 1000000 := by
  simp only [toMillis, ofNanos]
  omega

theorem inCalendar_iff : InCalendar n ↔ Date.inRange (n / 1000000000 / 86400) := by
  have hfirst : Date.toDays ⟨-262143, 1, 1⟩ = -96465292 := by decide
  have hlast : Date.toDays ⟨262142, 12, 31⟩ = 95026236 := by decide
  rw [InCalendar, hfirst, hlast, Date.inRange, Bool.and_eq_true, decide_eq_true_iff, decide_eq_true_iff,
    nanosPerDay]
  omega

theorem inCalendar_of_fitsInt64 (h : fitsInt64 n) : InCalendar n := by
  rw [inCalendar_iff, Date.inRange, Bool.and_eq_true, decide_eq_true_iff, decide_eq_true_iff]
  rw [fitsInt64, Bool.and_eq_true, decide_eq_true_iff, decide_eq_true_iff] at h
  omega

theorem ofCount?_eq (hu : perSecond * unit = 1000000000) :
    ofCount? perSecond count =
      if InCalendar (count * unit) then some (ofNanos (count * unit)) else none := by
  obtain ⟨hp, hpos⟩ : 0 < perSecond ∧ 0 < (unit : Int) := by
    rw [Int.natCast_pos, ← CanonicallyOrderedAdd.mul_pos, hu]
    decide
  have hu' : (1000000000 : Int) = perSecond * unit := by exact_mod_cast hu.symm
  have hseconds : count * unit / 1000000000 = count / perSecond := by
    rw [hu', Int.mul_ediv_mul_of_pos_left _ _ hpos]
  have hnanos : (count * unit % 1000000000).toNat = (count % perSecond).toNat * unit := by
    rw [hu', Int.mul_comm count, Int.mul_comm ↑perSecond, Int.mul_emod_mul_of_pos _ _ hpos,
      Int.toNat_mul hpos.le (Int.emod_nonneg _ (by omega)), Int.toNat_natCast, Nat.mul_comm]
  have hunit : 1000000000 / perSecond = unit := by
    rw [← hu, Nat.mul_div_cancel_left _ hp]
  simp only [ofCount?, inCalendar_iff, ofNanos, hseconds, hnanos, hunit]

theorem ofDays?_eq (n : Int) :
    ofDays? n = if InCalendar (n * nanosPerDay) then some (ofNanos (n * nanosPerDay)) else none := by
  have hday : n * 86400 * (1000000000 : Nat) = n * nanosPerDay := by
    rw [mul_assoc]
    rfl
  rw [ofDays?, @ofCount?_eq (n * 86400) 1 1000000000 rfl, hday]

theorem ofMillis?_eq (n : Int) :
    ofMillis? n = if InCalendar (n * TimeUnit.millis.length) then
      some (ofNanos (n * TimeUnit.millis.length)) else none :=
  ofCount?_eq (by rfl)

theorem ofMicros?_eq (n : Int) :
    ofMicros? n = if InCalendar (n * TimeUnit.micros.length) then
      some (ofNanos (n * TimeUnit.micros.length)) else none :=
  ofCount?_eq (by rfl)

end Instant

namespace LeafKind

def unit? : LeafKind → Option Nat
  | .date => some nanosPerDay
  | .timeMillis => some TimeUnit.millis.length
  | .timeMicros => some TimeUnit.micros.length
  | .timestamp unit => some unit.length
  | _ => none

/-- The value counts units of so many nanoseconds. A typed value does so whatever the kind of its leaf,
and a bare integer is a count if it is what a literal of the kind stands for. -/
inductive Counts (kind : LeafKind) : (unit : Nat) → Int → Datum → Prop
  | date (n) : Counts kind nanosPerDay n (.date n)
  | timeMillis (n) : Counts kind TimeUnit.millis.length n (.timeMillis n)
  | timeMicros (n) : Counts kind TimeUnit.micros.length n (.timeMicros n)
  | timestamp (unit zoned n) : Counts kind unit.length n (.timestamp unit zoned n)
  | literal {unit n v} (hu : kind.unit? = some unit) (h : kind.ofLiteral? (.int n) = some v) :
      Counts kind unit n v

end LeafKind

/-- The integers of a leaf fit the words that hold them. -/
def Datum.fits : Datum → Bool
  | .int n | .date n | .timeMillis n => fitsInt32 n
  | .long n | .timeMicros n | .timestamp _ _ n => fitsInt64 n
  | _ => true

namespace Scalar

variable {kind : LeafKind} {unit : Nat} {n : Int} {v : Datum}

def ofUnits (what : String) (n : Int) : Except Unconvertible (Option Scalar) :=
  ofInstant? what (if Instant.InCalendar n then some (Instant.ofNanos n) else none)

theorem ofTimestamp_eq (unit : TimeUnit) (h : fitsInt64 n) :
    ofTimestamp unit n = ofUnits "timestamp" (n * unit.length) := by
  cases unit with
  | millis => rw [ofTimestamp, Instant.ofMillis?_eq, ofUnits]
  | micros => rw [ofTimestamp, Instant.ofMicros?_eq, ofUnits]
  | nanos =>
    rw [ofTimestamp, ofUnits, TimeUnit.length, Nat.cast_one, mul_one,
      if_pos (Instant.inCalendar_of_fitsInt64 h)]
    rfl

theorem eq_int_of_ofLiteral? (hk : kind ∈ [LeafKind.date, .timeMillis])
    (h : kind.ofLiteral? (.int n) = some v) : v = .int n := by
  rcases List.mem_pair.mp hk with rfl | rfl <;>
    simp_all [LeafKind.ofLiteral?, Json.int64?, Option.filter_eq_some_iff]

theorem eq_long_of_ofLiteral? (hk : kind = .timeMicros ∨ ∃ unit, kind = .timestamp unit)
    (h : kind.ofLiteral? (.int n) = some v) : v = .long n ∧ fitsInt64 n := by
  rcases hk with rfl | ⟨unit, rfl⟩ <;>
    simp_all [LeafKind.ofLiteral?, Json.int64?]

theorem exists_ofDatum?_eq (h : kind.Counts unit n v) (hv : v.fits) :
    ∃ what, ofDatum? kind v = ofUnits what (n * unit) := by
  cases h with
  | date => exact ⟨"date", by rw [ofDatum?, Instant.ofDays?_eq, ofUnits]⟩
  | timeMillis => exact ⟨"time", by rw [ofDatum?, Instant.ofMillis?_eq, ofUnits]⟩
  | timeMicros => exact ⟨"timestamp", ofTimestamp_eq .micros hv⟩
  | timestamp unit => exact ⟨"timestamp", ofTimestamp_eq unit hv⟩
  | literal hu h =>
    cases kind with
    | date =>
      cases hu
      obtain rfl := eq_int_of_ofLiteral? List.mem_cons_self h
      exact ⟨"date", by rw [ofDatum?, ofInt, Instant.ofDays?_eq, ofUnits]⟩
    | timeMillis =>
      cases hu
      obtain rfl := eq_int_of_ofLiteral? (List.mem_cons_of_mem _ List.mem_cons_self) h
      exact ⟨"time", by rw [ofDatum?, ofInt, Instant.ofMillis?_eq, ofUnits]⟩
    | timeMicros =>
      cases hu
      obtain ⟨rfl, hn⟩ := eq_long_of_ofLiteral? (.inl rfl) h
      exact ⟨"timestamp", ofTimestamp_eq .micros hn⟩
    | timestamp unit =>
      cases hu
      obtain ⟨rfl, hn⟩ := eq_long_of_ofLiteral? (.inr ⟨unit, rfl⟩) h
      exact ⟨"timestamp", ofTimestamp_eq unit hn⟩
    | _ => cases hu

end Scalar

namespace LeafKind

variable {kind : LeafKind} {unit : Nat} {n : Int} {v : Datum}

theorem unit?_eq_one (h : kind.unit? = some 1) : kind = .timestamp .nanos := by
  cases kind with
  | timestamp unit => cases unit <;> simp_all [unit?, TimeUnit.length]
  | _ => simp_all [unit?, TimeUnit.length, nanosPerDay]

theorem Counts.inCalendar (h : kind.Counts unit n v) (hv : v.fits) (hu : unit = 1) :
    Instant.InCalendar n := by
  apply Instant.inCalendar_of_fitsInt64
  cases h with
  | date => cases hu
  | timeMillis => cases hu
  | timeMicros => cases hu
  | timestamp => exact hv
  | literal hk h =>
    subst hu
    exact (Scalar.eq_long_of_ofLiteral? (.inr ⟨_, unit?_eq_one hk⟩) h).2

/-- A count of units is shown as the instant exactly so many units after the epoch, and as its
milliseconds rounded down, if the calendar has a date for it, and is a fault if not. It has one for every
count of nanoseconds. -/
theorem temporal_cells (h : kind.Counts unit n v) (hv : v.fits) :
    (Instant.InCalendar (n * unit) →
      ∃ t : Instant, t.sinceEpoch = n * unit ∧ t.nanos < 1000000000 ∧
        v.toCell kind .date = .ok (some (.date t)) ∧
        v.toCell kind .integer = .ok (some (.integer (n * unit / 1000000)))) ∧
    (¬ Instant.InCalendar (n * unit) →
      ∃ what, ∀ target, target ≠ .unsupported →
        v.toCell kind target = .error ⟨.outOfRange what, target⟩) ∧
    (unit = 1 → Instant.InCalendar n) := by
  obtain ⟨what, hread⟩ := Scalar.exists_ofDatum?_eq h hv
  refine ⟨?_, ?_, h.inCalendar hv⟩
  · intro hc
    have hscalar : Scalar.ofDatum? kind v = .ok (some (.instant (.ofNanos (n * unit)))) := by
      rw [hread, Scalar.ofUnits, if_pos hc, Scalar.ofInstant?]
    refine ⟨.ofNanos (n * unit), Instant.sinceEpoch_ofNanos _, Instant.nanos_ofNanos_lt _, ?_, ?_⟩
    · simp [Datum.toCell, hscalar, Scalar.cell?, Scalar.date?]
    · simp [Datum.toCell, hscalar, Scalar.cell?, Scalar.integer?]
  · intro hc
    refine ⟨what, fun target ht => ?_⟩
    simp [Datum.toCell, hread, Scalar.ofUnits, hc, Scalar.ofInstant?, ht]

theorem temporal_cells_micros :
    (LeafKind.timestamp .micros).Counts 1000 (-1) (.long (-1)) ∧
      (LeafKind.timestamp .micros).Counts 1000 9223372036854775807
        (.timestamp .micros false 9223372036854775807) ∧
      (Datum.long (-1)).toCell (.timestamp .micros) .integer = .ok (some (.integer (-1))) ∧
      ∃ what, (Datum.timestamp .micros false 9223372036854775807).toCell (.timestamp .micros) .date =
        .error ⟨.outOfRange what, .date⟩ := by
  have hbare : (LeafKind.timestamp .micros).Counts 1000 (-1) (.long (-1)) := .literal rfl rfl
  have htyped : (LeafKind.timestamp .micros).Counts 1000 9223372036854775807
      (.timestamp .micros false 9223372036854775807) := .timestamp .micros _ _
  obtain ⟨t, -, -, -, hmillis⟩ := (temporal_cells hbare (by decide)).1 (by decide)
  obtain ⟨what, hfault⟩ := (temporal_cells htyped (by decide)).2.1 (by decide)
  exact ⟨hbare, htyped, hmillis, what, hfault .date nofun⟩

end LeafKind

end AvroColumns
