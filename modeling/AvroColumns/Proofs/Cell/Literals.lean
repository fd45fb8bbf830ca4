import Mathlib
import AvroColumns.Cell.Conversion
import AvroColumns.Proofs.Datum.Typing
import AvroColumns.Proofs.Schema.Parts
import AvroColumns.Schema.Loading
import AvroColumns.Walk.Basic

namespace AvroColumns

open Outcome

namespace LeafKind

/-- What a document is as a leaf, by the kind of the leaf. -/
inductive Reads : LeafKind → Json → Datum → Prop
  | null : Reads .null .null .null
  | boolean (b) : Reads .boolean (.bool b) (.boolean b)
  | int {n} : fitsInt32 n → Reads .int (.int n) (.int n)
  | date {n} : fitsInt32 n → Reads .date (.int n) (.date n)
  | timeMillis {n} : fitsInt32 n → Reads .timeMillis (.int n) (.timeMillis n)
  | long {n} : fitsInt64 n → Reads .long (.int n) (.long n)
  | timeMicros {n} : fitsInt64 n → Reads .timeMicros (.int n) (.timeMicros n)
  | timestamp {unit zoned n} : fitsInt64 n →
      Reads (.timestamp unit) (.int n) (.timestamp unit zoned n)
  | float {j x} : Json.number? j = some x → Reads .float j (.float x.toBinary32)
  | double {j x} : Json.number? j = some x → Reads .double j (.double x)
  | string (s) : Reads .string (.str s) (.string s)
  | uuid (s) : Reads .uuid (.str s) (.string s)
  | enum (i s) : Reads .enum (.str s) (.enum i s)
  | bytes {s b} : Datum.OfJson.codePoints s.toList = .ok b → Reads .bytes (.str s) (.bytes b)
  | fixed {s b} (size) : Datum.OfJson.codePoints s.toList = .ok b → Reads .fixed (.str s) (.fixed size b)
  | decimal {s b} (scale) : Datum.OfJson.codePoints s.toList = .ok b →
      Reads (.decimal scale) (.str s) (.decimal b)
  | bigText {s d} : Decimal.ofString? s = some d → Reads .bigDecimal (.str s) (.bigDecimal d)
  | bigNumber {j d} : (Json.number? j).isSome → Decimal.ofString? j.text = some d →
      Reads .bigDecimal j (.bigDecimal d)
  | duration {s b} : Datum.OfJson.codePoints s.toList = .ok b → Reads .duration (.str s) (.duration b)

/-- Where a literal does not convert as the value does that is read from it: a duration always fails,
and so does a big decimal that is written as a number; a big decimal that is written as a text stays a
text; a decimal without digits is zero. -/
inductive Misreads : LeafKind → Json → Target → Prop
  | duration (j t) : Misreads .duration j t
  | emptyDecimal {scale t} : t ∉ [.date, .binary, .unsupported] → Misreads (.decimal scale) (.str "") t
  | bigText {s d t} : Decimal.ofString? s = some d →
      (Scalar.text s).cell? t ≠ (Scalar.decimal d).cell? t → Misreads .bigDecimal (.str s) t
  | bigNumber {j d t} : (Json.number? j).isSome → Decimal.ofString? j.text = some d →
      (t = .unsupported ∨ ((Scalar.decimal d).cell? t).isSome) → Misreads .bigDecimal j t

end LeafKind

namespace Datum

open LeafKind

variable {d : Document} {enter : Schema → Json → Except Fault Datum} {s : Schema} {j : Json} {v : Datum}
  {p : Primitive} {n : Node} {kind : LeafKind} {target : Target}

theorem reads_primitive (h : OfJson.primitive p j = .ok v) : p.kind.Reads j v := by
  cases p with
  | null =>
    cases j <;> cases h
    exact .null
  | boolean =>
    cases j <;> cases h
    exact .boolean _
  | int =>
    obtain ⟨n, rfl, hn, rfl⟩ := exists_of_int h
    exact .int hn
  | long =>
    obtain ⟨n, rfl, hn, rfl⟩ := exists_of_long h
    exact .long hn
  | float =>
    rw [OfJson.primitive] at h
    split at h <;> cases h
    next hx => exact .float hx
  | double =>
    rw [OfJson.primitive] at h
    split at h <;> cases h
    next hx => exact .double hx
  | bytes =>
    obtain ⟨x, rfl, hx⟩ := exists_of_text h
    obtain ⟨b, hb, rfl⟩ := map_eq_ok_iff.mp hx
    exact .bytes hb
  | string =>
    obtain ⟨x, rfl, ⟨⟩⟩ := exists_of_text h
    exact .string x
  | bigDecimal =>
    obtain ⟨x, rfl, ⟨t, rfl, hx⟩ | ⟨hn, hx⟩⟩ := exists_of_bigDecimal h
    · exact .bigText hx
    · exact .bigNumber hn hx
  | uuid =>
    obtain ⟨x, rfl, ⟨⟩⟩ := exists_of_text h
    exact .uuid x
  | date =>
    obtain ⟨n, rfl, hn, rfl⟩ := exists_of_int h
    exact .date hn
  | timeMillis =>
    obtain ⟨n, rfl, hn, rfl⟩ := exists_of_int h
    exact .timeMillis hn
  | timeMicros =>
    obtain ⟨n, rfl, hn, rfl⟩ := exists_of_long h
    exact .timeMicros hn
  | timestamp unit zoned =>
    obtain ⟨n, rfl, hn, rfl⟩ := exists_of_long h
    exact .timestamp hn
  | duration =>
    obtain ⟨x, rfl, hx⟩ := exists_of_text h
    obtain ⟨b, hb, hx⟩ := bind_eq_ok_iff.mp hx
    split at hx <;> cases hx
    exact .duration hb

theorem reads_enum {e : EnumType} (h : OfJson.enum e j = .ok v) : LeafKind.enum.Reads j v := by
  obtain ⟨x, rfl, hx⟩ := exists_of_text h
  split at hx <;> cases hx
  exact .enum _ x

theorem reads_fixed {f : FixedType} (h : OfJson.fixed f j = .ok v) : LeafKind.fixed.Reads j v := by
  obtain ⟨x, rfl, hx⟩ := exists_of_text h
  obtain ⟨b, hb, hx⟩ := bind_eq_ok_iff.mp hx
  split at hx <;> cases hx
  exact .fixed _ hb

theorem reads_of_node (hn : d.node s = .ok n) (hk : n.leaf? = some kind)
    (h : ofJson d enter s j = .ok v) : kind.Reads j v := by
  cases s with
  | primitive p =>
    cases hn
    cases hk
    exact reads_primitive (by rwa [ofJson] at h)
  | decimal precision scale c =>
    cases hn
    cases hk
    rw [ofJson] at h
    obtain ⟨x, rfl, hx⟩ := exists_of_text h
    obtain ⟨b, hb, rfl⟩ := map_eq_ok_iff.mp hx
    exact .decimal scale hb
  | enum e =>
    cases hn
    cases hk
    exact reads_enum (by rwa [ofJson] at h)
  | fixed f =>
    cases hn
    cases hk
    exact reads_fixed (by rwa [ofJson] at h)
  | ref name =>
    obtain ⟨t, ht, rfl⟩ := map_eq_ok_iff.mp hn
    rw [ofJson_ref ht] at h
    cases t with
    | enum e =>
      cases hk
      exact reads_enum (by rwa [Definition.toSchema, ofJson] at h)
    | fixed f =>
      cases hk
      exact reads_fixed (by rwa [Definition.toSchema, ofJson] at h)
    | record r => cases hk
  | _ =>
    cases hn
    cases hk

theorem ofDefault_of_node (hn : d.node s = .ok n) (hk : n.leaf? = some kind) :
    ofDefault d enter s j = ofJson d enter s j := by
  cases s with
  | union members =>
    cases hn
    cases hk
  | _ => rw [ofDefault] <;> simp

theorem reads_default (hk : Guide.literalKind? d s = .ok (some kind))
    (h : d.decodeDefault s j = .ok v) :
    ∃ w, kind.Reads j w ∧ ∀ target, v.toCell kind target = w.toCell kind target := by
  have leaf {n : Node} (hn : d.node s = .ok n) (hleaf : n.leaf? = some kind) :
      ∃ w, kind.Reads j w ∧ ∀ target, v.toCell kind target = w.toCell kind target := by
    rw [Document.decodeDefault, ofDefault_of_node hn hleaf] at h
    exact ⟨v, reads_of_node hn hleaf h, fun target => rfl⟩
  obtain ⟨n, hn, hleaf⟩ := bind_eq_ok_iff.mp hk
  cases n with
  | union members =>
    obtain rfl := Document.eq_union_of_node hn
    cases members with
    | nil => cases hleaf
    | cons first rest =>
      obtain ⟨n, hfirst, hleaf⟩ := bind_eq_ok_iff.mp hleaf
      replace hleaf : n.leaf? = some kind := Except.ok.inj hleaf
      rw [Document.decodeDefault, ofDefault, ofDefault_of_node hfirst hleaf] at h
      obtain ⟨w, hw, rfl⟩ := map_eq_ok_iff.mp h
      exact ⟨w, reads_of_node hfirst hleaf hw, fun target => rfl⟩
  | leaf k => exact leaf hn (Except.ok.inj hleaf)
  | fixed f => exact leaf hn (Except.ok.inj hleaf)
  | _ => cases hleaf

end Datum

namespace LeafKind

variable {d : Document} {s : Schema} {j : Json} {v w : Datum} {kind : LeafKind} {target : Target}

theorem literalBytes?_of_codePoints {s : String} {b : List UInt8}
    (h : Datum.OfJson.codePoints s.toList = .ok b) : literalBytes? s = some b := by
  rw [literalBytes?]
  generalize s.toList = cs at h
  induction cs generalizing b with
  | nil =>
    cases h
    rfl
  | cons c cs ih =>
    rw [Datum.OfJson.codePoints] at h
    split at h
    next hc =>
      obtain ⟨b, hb, rfl⟩ := map_eq_ok_iff.mp h
      simp [hc, ih hb]
    next => cases h

theorem eq_empty_of_codePoints {s : String} (h : Datum.OfJson.codePoints s.toList = .ok []) :
    s = "" := by
  apply String.toList_eq_nil_iff.mp
  cases hs : s.toList with
  | nil => rfl
  | cons c cs =>
    rw [hs, Datum.OfJson.codePoints] at h
    split at h
    · obtain ⟨b, -, hb⟩ := map_eq_ok_iff.mp h
      cases hb
    · cases h

theorem literalCell_eq_toCell (hw : kind.ofLiteral? j = some w)
    (h : Scalar.ofDatum? kind w = Scalar.ofDatum? kind v) :
    kind.literalCell j target = v.toCell kind target := by
  rw [literalCell, hw]
  simp only [Datum.toCell, h]

theorem int64?_of_fitsInt32 {n : Int} (h : fitsInt32 n) : (Json.int n).int64? = some n := by
  simp only [fitsInt32, Bool.and_eq_true, decide_eq_true_eq] at h
  simp only [Json.int64?, fitsInt64, Bool.and_eq_true, decide_eq_true_eq]
  rw [if_pos (by omega)]

theorem Reads.literalCell_eq (h : kind.Reads j v) (hduration : kind ≠ .duration)
    (hbig : kind ≠ .bigDecimal) (hempty : ∀ scale, kind = .decimal scale → j ≠ .str "") :
    kind.literalCell j target = v.toCell kind target := by
  cases h with
  | null | boolean _ | string _ | uuid _ | enum _ _ => exact literalCell_eq_toCell rfl rfl
  | @int n hn | @date n hn | @timeMillis n hn =>
    apply literalCell_eq_toCell (w := .int n) _ rfl
    simp [ofLiteral?, int64?_of_fitsInt32 hn, hn]
  | @long n hn | @timeMicros n hn | @timestamp unit zoned n hn =>
    apply literalCell_eq_toCell (w := .long n) _ rfl
    simp [ofLiteral?, Json.int64?, hn]
  | @float j x hx =>
    apply literalCell_eq_toCell (w := .float x.toBinary32) _ rfl
    cases j <;> simp_all [ofLiteral?, Json.number?]
  | @double j x hx =>
    apply literalCell_eq_toCell (w := .double x) _ rfl
    cases j <;> simp_all [ofLiteral?, Json.number?]
  | @bytes s b hb | @fixed s b size hb =>
    apply literalCell_eq_toCell (w := .bytes b) _ rfl
    simp [ofLiteral?, Json.string?, literalBytes?_of_codePoints hb]
  | @decimal s b scale hb =>
    apply literalCell_eq_toCell (w := .bytes b)
    · simp [ofLiteral?, Json.string?, literalBytes?_of_codePoints hb]
    · have hne : b ≠ [] := by
        rintro rfl
        exact hempty scale rfl (congrArg _ (eq_empty_of_codePoints hb))
      simp [Scalar.ofDatum?, Scalar.ofBytes, Scalar.ofDecimal, hne]
  | bigText | bigNumber => exact absurd rfl hbig
  | duration => exact absurd rfl hduration

theorem toOption_toCell {x : Scalar} (h : Scalar.ofDatum? kind v = .ok (some x)) :
    (v.toCell kind target).toOption =
      if target = .unsupported then some none else (x.cell? target).map some := by
  rw [Datum.toCell]
  split
  · rfl
  · simp only [h]
    cases x.cell? target <;> rfl

theorem toOption_literalCell {x : Scalar} (hw : kind.ofLiteral? j = some w)
    (h : Scalar.ofDatum? kind w = .ok (some x)) :
    (kind.literalCell j target).toOption =
      if target = .unsupported then some none else (x.cell? target).map some := by
  rw [literalCell, hw]
  exact toOption_toCell h

theorem cell?_zero {x : Decimal} (hx : x.unscaled = 0) :
    (Scalar.decimal x).cell? target = none ↔ target ∈ [.date, .binary, .unsupported] := by
  cases target with
  | integer => simp [Scalar.cell?, Scalar.integer?, Decimal.int64?, hx]
  | _ => simp [Scalar.cell?, Scalar.number?, Scalar.bigNumber?, Scalar.boolean?, Scalar.date?,
      Scalar.binary?]

theorem emptyDecimal_agrees_iff {scale : Nat} :
    ((LeafKind.decimal scale).literalCell (.str "") target).toOption =
      ((Datum.decimal []).toCell (.decimal scale) target).toOption ↔
      target ∈ [.date, .binary, .unsupported] := by
  have hlive : ((Datum.decimal []).toCell (.decimal scale) target).toOption =
      if target = .unsupported then some none else none := by
    rw [Datum.toCell]
    split <;> rfl
  rw [toOption_literalCell (w := .bytes []) (x := .decimal (.ofBytes scale [])) rfl rfl, hlive,
    ← cell?_zero (x := .ofBytes scale []) rfl]
  split
  next h =>
    subst h
    simp [Scalar.cell?]
  next => simp

theorem bigText_agrees_iff {s : String} {x : Decimal} :
    (LeafKind.bigDecimal.literalCell (.str s) target).toOption =
      ((Datum.bigDecimal x).toCell .bigDecimal target).toOption ↔
      (Scalar.text s).cell? target = (Scalar.decimal x).cell? target := by
  rw [toOption_literalCell (w := .string s) (x := .text s) rfl rfl,
    toOption_toCell (x := .decimal x) rfl]
  split
  next h =>
    subst h
    simp [Scalar.cell?]
  next => exact (Option.map_injective (Option.some_injective _)).eq_iff

theorem bigNumber_agrees_iff {x : Decimal} (hj : j.number?.isSome) :
    (LeafKind.bigDecimal.literalCell j target).toOption =
      ((Datum.bigDecimal x).toCell .bigDecimal target).toOption ↔
      ¬ (target = .unsupported ∨ ((Scalar.decimal x).cell? target).isSome) := by
  have hliteral : (LeafKind.bigDecimal.literalCell j target).toOption = none := by
    cases j <;> first | rfl | cases hj
  rw [hliteral, toOption_toCell (x := .decimal x) rfl]
  split
  next h => simp [h]
  next h => cases (Scalar.decimal x).cell? target <;> simp [h]

theorem duration_disagrees {s : String} {b : List UInt8} :
    (LeafKind.duration.literalCell (.str s) target).toOption ≠
      ((Datum.duration b).toCell .duration target).toOption := by
  have hlive : ((Datum.duration b).toCell .duration target).toOption = some none := by
    rw [Datum.toCell]
    split <;> rfl
  rw [hlive]
  nofun

theorem Reads.agrees_iff (h : kind.Reads j v) :
    (kind.literalCell j target).toOption = (v.toCell kind target).toOption ↔
      ¬ kind.Misreads j target := by
  have hcell : kind ≠ .duration → kind ≠ .bigDecimal →
      (∀ scale, kind = .decimal scale → j ≠ .str "") →
      kind.literalCell j target = v.toCell kind target := h.literalCell_eq
  cases h with
  | duration hb => exact iff_of_false duration_disagrees (not_not_intro (.duration _ _))
  | @bigText s x hx =>
    rw [bigText_agrees_iff]
    constructor
    · rintro heq (_ | _ | ⟨hy, hne⟩ | ⟨hn, -, -⟩)
      · cases hx.symm.trans hy
        exact hne heq
      · cases hn
    · intro hm
      by_contra hne
      exact hm (.bigText hx hne)
  | @bigNumber j x hj hx =>
    rw [bigNumber_agrees_iff hj]
    constructor
    · rintro hnot (_ | _ | ⟨hy, -⟩ | ⟨-, hy, hor⟩)
      · cases hj
      · cases hx.symm.trans hy
        exact hnot hor
    · intro hm hor
      exact hm (.bigNumber hj hx hor)
  | @decimal s b scale hb =>
    by_cases hs : s = ""
    · subst hs
      cases hb
      rw [emptyDecimal_agrees_iff]
      constructor
      · rintro ht (_ | hnot | _ | _)
        exact hnot ht
      · intro hm
        by_contra hnot
        exact hm (.emptyDecimal hnot)
    · refine iff_of_true (congrArg _ (hcell nofun nofun ?_)) ?_
      · rintro _ - ⟨⟩
        exact hs rfl
      · rintro (_ | _ | _ | _)
        exact hs rfl
  | _ => exact iff_of_true (congrArg _ (hcell nofun nofun nofun)) nofun

end LeafKind

namespace Document

variable {d : Document} {s : Schema} {j : Json} {v : Datum} {kind : LeafKind}

/-- A default converts, or fails, as the value that it is decoded to, exactly where it is not misread.
Durations, big decimals and decimals without digits apart, it is the same outcome, faults included. -/
theorem default_converts_iff (hk : Guide.literalKind? d s = .ok (some kind))
    (h : d.decodeDefault s j = .ok v) (target : Target) :
    ((kind.literalCell j target).toOption = (v.toCell kind target).toOption ↔
      ¬ kind.Misreads j target) ∧
    (kind ≠ .duration → kind ≠ .bigDecimal → (∀ scale, kind = .decimal scale → j ≠ .str "") →
      kind.literalCell j target = v.toCell kind target) := by
  obtain ⟨w, hw, hcell⟩ := Datum.reads_default hk h
  rw [hcell]
  exact ⟨hw.agrees_iff, hw.literalCell_eq⟩

def cents : Schema :=
  .union [.decimal 5 2 .bytes, .primitive .string]

theorem default_converts_cents :
    ∃ v, Guide.literalKind? (.ofSchema cents) cents = .ok (some (.decimal 2)) ∧
      (ofSchema cents).decodeDefault cents (.str "\u0001") = .ok v ∧
      v.toCell (.decimal 2) .string = .ok (some (.string "0.01")) ∧
      (LeafKind.decimal 2).literalCell (.str "\u0001") .string = v.toCell (.decimal 2) .string := by
  have hk : Guide.literalKind? (.ofSchema cents) cents = .ok (some (.decimal 2)) := rfl
  have hv : (ofSchema cents).decodeDefault cents (.str "\u0001") = .ok (.union 0 (.decimal [1])) := by
    simp [decodeDefault, Datum.ofDefault, cents, Datum.ofJson, Datum.OfJson.decimal, Datum.OfJson.text, Datum.OfJson.codePoints]
  refine ⟨_, hk, hv, rfl, (default_converts_iff hk hv .string).2 (by simp) (by simp) ?_⟩
  intro scale _
  simp

def anyScale : Schema :=
  .union [.primitive .bigDecimal, .primitive .int]

def priced : Document :=
  .ofSchema (.record ⟨⟨"", "r"⟩, [⟨"price", [], anyScale, some (.int 5)⟩]⟩)

def pricedText : String :=
  (Json.obj [("fields", .arr [.obj [("default", .int 5), ("name", .str "price"),
      ("type", .arr [.obj [("logicalType", .str "big-decimal"), ("type", .str "bytes")], .str "int"])]]),
    ("name", .str "r"), ("type", .str "record")]).text

theorem whole_number_misread :
    ∃ v, ofText pricedText = .ok priced ∧
      Guide.literalKind? priced anyScale = .ok (some .bigDecimal) ∧
      priced.decodeDefault anyScale (.int 5) = .ok v ∧
      v.toCell .bigDecimal .integer = .ok (some (.integer 5)) ∧
      LeafKind.bigDecimal.literalCell (.int 5) .integer = .error ⟨.literal (.int 5), .integer⟩ :=
  ⟨.union 0 (.bigDecimal ⟨5, 0⟩), by cbv, rfl, by cbv, by cbv, rfl⟩

end Document

end AvroColumns
