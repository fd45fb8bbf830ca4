import Mathlib.Data.List.Nodup
import AvroColumns.Proofs.Datum.Typing
import AvroColumns.Proofs.Schema.References

/-!
# Encoding values as documents

The document that a value of a schema is written as: blocks of bytes as texts of small code points, and a
value of a union as null or under the name of its member. Decoding gives the value back, for a null
belongs to the only member that takes it and an object with a member's name is never anything else.
-/

namespace AvroColumns

open Outcome

namespace Datum

def byteText (b : List UInt8) : String :=
  String.ofList (b.map fun x => Char.ofNat x.toNat)

def encodeLeaf : Datum → Json
  | .boolean b => .bool b
  | .int n | .long n | .date n | .timeMillis n | .timeMicros n | .timestamp _ _ n => .int n
  | .string s => .str s
  | .bytes b | .decimal b | .duration b | .fixed _ b => .str (byteText b)
  | .enum _ symbol => .str symbol
  | _ => .null

def wrap (d : Document) (member : Schema) (j : Json) : Json :=
  match d.resolve member with
  | .ok (.primitive .null) => .null
  | .ok s => .obj [(s.label, j)]
  | .error _ => .null

theorem wrap_null {d : Document} {s : Schema} {j : Json} (h : d.resolve s = .ok (.primitive .null)) :
    wrap d s j = .null := by
  rw [wrap, h]

theorem wrap_of_ne {d : Document} {s t : Schema} {j : Json} (h : d.resolve s = .ok t)
    (ht : t ≠ .primitive .null) : wrap d s j = .obj [(t.label, j)] := by
  rw [wrap, h]
  split
  next he =>
    cases he
    exact absurd rfl ht
  next he =>
    cases he
    rfl
  next he => cases he

variable (d : Document)

mutual

def encode (s : Schema) (v : Datum) : Json :=
  match d.resolve s, v with
  | .ok (.array items), .array vs => .arr (encodeItems items vs)
  | .ok (.map values), .map entries => .obj (encodeEntries values entries)
  | .ok (.record r), .record members => .obj (encodeMembers r.fields members)
  | .ok (.union ms), .union i inner =>
    match ms[i]? with
    | some member => wrap d member (encode member inner)
    | none => .null
  | _, v => encodeLeaf v

def encodeItems (s : Schema) : List Datum → List Json
  | [] => []
  | v :: vs => encode s v :: encodeItems s vs

def encodeEntries (s : Schema) : List (String × Datum) → List (String × Json)
  | [] => []
  | (key, v) :: rest => (key, encode s v) :: encodeEntries s rest

def encodeMembers : List (Field Schema) → List (String × Datum) → List (String × Json)
  | f :: fs, (name, v) :: rest => (name, encode f.type v) :: encodeMembers fs rest
  | _, _ => []

end

variable {d} {s t : Schema} {v : Datum} {enter : Schema → Json → Except Fault Datum}

@[simp] theorem encodeItems_eq (vs : List Datum) : encodeItems d s vs = vs.map (encode d s) := by
  induction vs with
  | nil => rw [encodeItems, List.map_nil]
  | cons v vs ih => rw [encodeItems, ih, List.map_cons]

@[simp] theorem encodeEntries_eq (entries : List (String × Datum)) :
    encodeEntries d s entries = entries.map fun e => (e.1, encode d s e.2) := by
  induction entries with
  | nil => rw [encodeEntries, List.map_nil]
  | cons e entries ih => rw [encodeEntries, ih, List.map_cons]

@[simp] theorem encodeMembers_eq (fs : List (Field Schema)) (members : List (String × Datum)) :
    encodeMembers d fs members =
      (fs.zip members).map fun p => (p.2.1, encode d p.1.type p.2.2) := by
  induction fs generalizing members with
  | nil => rw [encodeMembers.eq_def]; rfl
  | cons f fs ih =>
    cases members with
    | nil => rw [encodeMembers.eq_def]; rfl
    | cons m members => rw [encodeMembers, ih, List.zip_cons_cons, List.map_cons]

theorem encode_of_resolve (h : d.resolve s = .ok t) : encode d s v = encode d t v := by
  have ht : d.resolve t = .ok t := by
    cases t with
    | ref name => exact absurd h Call.resolve_ne_ref
    | _ => rfl
  rw [encode.eq_def d s, encode.eq_def d t, h, ht]

@[simp] theorem encode_primitive (p : Primitive) : encode d (.primitive p) v = encodeLeaf v := by
  rw [encode.eq_def]
  rfl

@[simp] theorem encode_decimal (precision scale : Nat) (c : Carrier) :
    encode d (.decimal precision scale c) v = encodeLeaf v := by
  rw [encode.eq_def]
  rfl

@[simp] theorem encode_enum (e : EnumType) : encode d (.enum e) v = encodeLeaf v := by
  rw [encode.eq_def]
  rfl

@[simp] theorem encode_fixed (f : FixedType) : encode d (.fixed f) v = encodeLeaf v := by
  rw [encode.eq_def]
  rfl

@[simp] theorem encode_array (vs : List Datum) :
    encode d (.array s) (.array vs) = .arr (vs.map (encode d s)) := by
  rw [← encodeItems_eq, encode.eq_def]
  rfl

@[simp] theorem encode_map (entries : List (String × Datum)) :
    encode d (.map s) (.map entries) = .obj (entries.map fun e => (e.1, encode d s e.2)) := by
  rw [← encodeEntries_eq, encode.eq_def]
  rfl

theorem encode_record (r : RecordType Schema) (members : List (String × Datum)) :
    encode d (.record r) (.record members) =
      .obj ((r.fields.zip members).map fun p => (p.2.1, encode d p.1.type p.2.2)) := by
  rw [← encodeMembers_eq, encode.eq_def]
  rfl

theorem encode_union {ms : List Schema} {i : Nat} (hi : ms[i]? = some s) :
    encode d (.union ms) (.union i v) = wrap d s (encode d s v) := by
  rw [encode.eq_def]
  simp only [Document.resolve, hi]

theorem toNat_ofNat {n : Nat} (h : n < 256) : (Char.ofNat n).toNat = n := by
  have hv : n.isValidChar := .inl (by omega)
  rw [Char.ofNat, dif_pos hv]
  change (UInt32.ofNatLT n _).toNat = n
  simp

@[simp] theorem codePoints_byteText (b : List UInt8) :
    OfJson.codePoints (byteText b).toList = .ok b := by
  rw [byteText, String.toList_ofList]
  induction b with
  | nil => rfl
  | cons x b ih =>
    rw [List.map_cons, OfJson.codePoints, toNat_ofNat x.toNat_lt, if_pos x.toNat_lt, ih,
      UInt8.ofNat_toNat]
    rfl

def isFractional : Datum → Bool
  | .float _ | .double _ | .bigDecimal _ => true
  | _ => false

/-- No part of the value is a number that may have a fraction. -/
def Exact (v : Datum) : Prop :=
  ∀ w, Within w v → w.isFractional = false

theorem Exact.of_part {w : Datum} (hv : v.Exact) (hw : w ∈ v.parts) : w.Exact :=
  fun u hu => hv u (hu.trans (.part hw .refl))

theorem Exact.of_parts (hv : v.isFractional = false) (hp : ∀ w ∈ v.parts, w.Exact) : v.Exact := by
  intro w hw
  rcases hw.eq_or_part with rfl | ⟨u, hu, hw⟩
  · exact hv
  · exact hp u hu w hw

@[simp] theorem decode_int {f : Int → Datum} (label : String) {n : Int} (h : fitsInt32 n) :
    OfJson.number (OfJson.int f) label (.int n) = .ok (f n) :=
  if_pos h

@[simp] theorem decode_long {f : Int → Datum} (label : String) {n : Int} (h : fitsInt64 n) :
    OfJson.number (OfJson.long f) label (.int n) = .ok (f n) :=
  if_pos h

@[simp] theorem decode_bytes {f : List UInt8 → Datum} (label : String) (b : List UInt8) :
    OfJson.text (fun x => (OfJson.codePoints x.toList).map f) label (.str (byteText b)) =
      .ok (f b) := by
  rw [OfJson.text, codePoints_byteText]
  rfl

theorem primitive_encodeLeaf {p : Primitive} (hv : p.Holds v) (he : v.Exact) :
    OfJson.primitive p (encodeLeaf v) = .ok v := by
  replace he := he v .refl
  unfold Primitive.Holds at hv
  split at hv
  · rfl
  · rfl
  · exact decode_int "int" hv
  · exact decode_long "long" hv
  · cases he
  · cases he
  · exact decode_bytes "bytes" _
  · rfl
  · cases he
  · rfl
  · exact decode_int "int" hv
  · exact decode_int "int" hv
  · exact decode_long "long" hv
  · obtain ⟨rfl, rfl, hn⟩ := hv
    exact decode_long "long" hn
  next b =>
    rw [OfJson.primitive, encodeLeaf, OfJson.text, OfJson.duration, codePoints_byteText, ok_bind, if_pos hv]
  · cases hv

/-- The members of a union, each under a name that no other member answers to. -/
def Distinct (d : Document) (ms : List Schema) : Prop :=
  ∀ (i k : Nat) (s t u : Schema), ms[i]? = some s → ms[k]? = some t → d.resolve s = .ok u →
    answersTo d u.label t → k = i

def isDistinct (d : Document) (ms : List Schema) : Bool :=
  ms.zipIdx.all fun (s, i) =>
    match d.resolve s with
    | .ok u => ms.zipIdx.all fun (t, k) => !answersTo d u.label t || k == i
    | .error _ => true

theorem distinct_of_isDistinct {ms : List Schema} (h : isDistinct d ms) : Distinct d ms := by
  intro i k s t u hi hk hs ha
  have hi := List.all_eq_true.mp h (s, i) (List.mem_zipIdx_iff_getElem?.mpr hi)
  simp only [hs] at hi
  have hk := List.all_eq_true.mp hi (t, k) (List.mem_zipIdx_iff_getElem?.mpr hk)
  simpa [ha] using hk

theorem answersTo_label (h : d.resolve s = .ok t) : answersTo d t.label s := by
  rw [answersTo, h]
  cases t <;> simp [Schema.name?, Schema.label]

theorem findIdx?_answersTo {ms : List Schema} {i : Nat} (hd : Distinct d ms) (hi : ms[i]? = some s)
    (ht : d.resolve s = .ok t) : ms.findIdx? (answersTo d t.label) = some i := by
  obtain ⟨hl, hs⟩ := List.getElem?_eq_some_iff.mp hi
  apply List.findIdx?_eq_some_iff_getElem.mpr
  refine ⟨hl, by rw [hs]; exact answersTo_label ht, ?_⟩
  intro k hk ha
  have := hd i k s ms[k] t hi (List.getElem?_eq_getElem _) ht ha
  omega

theorem leaf_null (hn : s ≠ .primitive .null) : Call.leaf s .null ≠ .ok v := by
  cases s with
  | primitive p =>
    cases p with
    | null => exact absurd rfl hn
    | _ => nofun
  | _ => nofun

theorem ofJson_null (hs : ∀ ms, s ≠ .union ms) (hn : d.resolve s ≠ .ok (.primitive .null)) :
    ofJson d enter s .null ≠ .error .endless ∧ ofJson d enter s .null ≠ .ok v := by
  cases ht : d.resolve s with
  | error e =>
    cases s with
    | ref name =>
      rw [Document.resolve, map_eq_error_iff] at ht
      rw [ofJson, ht]
      exact ⟨by simp, by simp⟩
    | _ => cases ht
  | ok t =>
    have hu (ms : List Schema) (h : t = .union ms) : False := by
      cases s with
      | ref name =>
        obtain ⟨D, -, hD⟩ := map_eq_ok_iff.mp ht
        cases D <;> simp_all [Definition.toSchema]
      | _ =>
        cases ht
        exact hs ms h
    have hl : ofJson d enter t .null = Call.leaf t .null := by
      apply Call.ofJson_eq_leaf
      · intro name h
        exact Call.resolve_ne_ref (h ▸ ht)
      · intros
        contradiction
      · intros
        contradiction
      · intros
        contradiction
      · exact hu
    rw [Call.ofJson_of_resolve ht, hl]
    refine ⟨Call.leaf_ne_endless, leaf_null ?_⟩
    rintro rfl
    exact hn ht

theorem ofJsonFirst_null {before after : List Schema} {index : Nat}
    (hb : ∀ t ∈ before, (∀ ms, t ≠ .union ms) ∧ d.resolve t ≠ .ok (.primitive .null))
    (hs : d.resolve s = .ok (.primitive .null)) :
    ofJsonFirst d enter index (before ++ s :: after) .null =
      .ok (.union (index + before.length) .null) := by
  induction before generalizing index with
  | nil =>
    rw [List.nil_append, ofJsonFirst_cons, Call.ofJson_of_resolve hs, ofJson]
    rfl
  | cons t before ih =>
    obtain ⟨hu, hn⟩ := hb t List.mem_cons_self
    have ih := @ih (index + 1) fun t ht => hb t (List.mem_cons_of_mem _ ht)
    rw [List.cons_append, ofJsonFirst_cons, ih, List.length_cons, Nat.add_assoc, Nat.add_comm 1]
    cases h : ofJson d enter t .null with
    | ok v => exact absurd h (ofJson_null hu hn).2
    | error e =>
      cases e with
      | endless => exact absurd h (ofJson_null (v := .null) hu hn).1
      | _ => rfl

theorem ofJson_union_null {ms : List Schema} {i : Nat} (hd : Distinct d ms)
    (hu : ∀ t ∈ ms, ∀ ts, t ≠ .union ts) (hi : ms[i]? = some s)
    (hs : d.resolve s = .ok (.primitive .null)) :
    ofJson d enter (.union ms) .null = .ok (.union i .null) := by
  obtain ⟨hl, rfl⟩ := List.getElem?_eq_some_iff.mp hi
  have hb (t : Schema) (ht : t ∈ ms.take i) :
      (∀ ts, t ≠ .union ts) ∧ d.resolve t ≠ .ok (.primitive .null) := by
    refine ⟨hu t (List.mem_of_mem_take ht), ?_⟩
    intro hn
    obtain ⟨k, hk, rfl⟩ := List.getElem_of_mem ht
    have hk' : k < i := by
      rw [List.length_take] at hk
      omega
    rw [List.getElem_take] at hn
    have := hd i k _ _ _ hi (List.getElem?_eq_getElem _) hs (answersTo_label hn)
    omega
  have hfirst : ofJsonFirst d enter 0 (ms.take i ++ ms[i] :: ms.drop (i + 1)) .null =
      .ok (.union (0 + (ms.take i).length) .null) := ofJsonFirst_null hb hs
  rw [← List.drop_eq_getElem_cons, List.take_append_drop, List.length_take, Nat.zero_add,
    Nat.min_eq_left (Nat.le_of_lt hl)] at hfirst
  rw [ofJson_union]
  exact hfirst

/-- A union whose members are told apart by their names, and none of which is a union; enumerations and
records without a name twice. -/
structure Regular (d : Document) (s : Schema) : Prop where
  symbols : ∀ e, s = .enum e → e.symbols.Nodup
  names : ∀ r, s = .record r → (r.fields.map (·.name)).Nodup
  flat : ∀ ms, s = .union ms → ∀ t ∈ ms, ∀ ts, t ≠ .union ts
  distinct : ∀ ms, s = .union ms → Distinct d ms

theorem regular_of_follow {n : TypeName} {D : Definition}
    (hd : ∀ u, u.Within d.root → Regular d u) (hD : d.follow n = .ok D) :
    ∀ u, u.Within D.toSchema → Regular d u := by
  intro u hu
  cases D with
  | record r => exact hd u (hu.trans (Document.within_of_follow hD))
  | enum e =>
    obtain ⟨w, hw, he⟩ := Schema.exists_within_of_mem_definitions (Document.mem_of_follow hD)
    rw [hu.of_parts_eq_nil rfl]
    obtain rfl : w = .enum e := Schema.definition?_eq_enum he
    exact hd _ hw
  | fixed f =>
    rw [hu.of_parts_eq_nil rfl]
    exact ⟨nofun, nofun, nofun, nofun⟩

theorem ofJson_encode_enum {e : EnumType} {i : Nat} {symbol : String} (hn : e.symbols.Nodup)
    (h : e.symbols[i]? = some symbol) :
    ofJson d enter (.enum e) (encode d (.enum e) (.enum i symbol)) = .ok (.enum i symbol) := by
  have hi : e.symbols.findIdx? (· == symbol) = some i := by
    obtain ⟨hl, rfl⟩ := List.getElem?_eq_some_iff.mp h
    apply List.findIdx?_eq_some_iff_getElem.mpr
    refine ⟨hl, by simp, ?_⟩
    intro k hk he
    have := (List.Nodup.getElem_inj_iff hn).mp (eq_of_beq he)
    omega
  rw [encode_enum, ofJson, encodeLeaf, OfJson.enum, OfJson.text, hi]

theorem ofJson_encode_array {vs : List Datum} (h : ∀ v ∈ vs, ofJson d enter s (encode d s v) = .ok v) :
    ofJson d enter (.array s) (encode d (.array s) (.array vs)) = .ok (.array vs) := by
  rw [encode_array, ofJson_array]
  apply map_eq_ok_iff.mpr
  refine ⟨vs, mapM_eq_ok_iff.mpr ?_, rfl⟩
  apply List.forall₂_map_left_iff.mpr
  exact List.forall₂_same.mpr h

theorem ofJson_encode_map {entries : List (String × Datum)}
    (h : ∀ e ∈ entries, ofJson d enter s (encode d s e.2) = .ok e.2) :
    ofJson d enter (.map s) (encode d (.map s) (.map entries)) = .ok (.map entries) := by
  rw [encode_map, ofJson_map]
  apply map_eq_ok_iff.mpr
  refine ⟨entries, mapM_eq_ok_iff.mpr ?_, rfl⟩
  apply List.forall₂_map_left_iff.mpr
  apply List.forall₂_same.mpr
  intro e he
  rw [h e he]
  rfl

theorem lookup_encodeMembers {fields : List (Field Schema)} {members : List (String × Datum)}
    {f : Field Schema} {m : String × Datum} (hn : members.map (·.1) = fields.map (·.name))
    (hd : (fields.map (·.name)).Nodup) (hm : (f, m) ∈ fields.zip members) :
    Json.lookup f.name ((fields.zip members).map fun p => (p.2.1, encode d p.1.type p.2.2)) =
      some (encode d f.type m.2) := by
  have hlen : members.length = fields.length := by
    simpa using congrArg List.length hn
  have hsnd : (fields.zip members).map (·.2) = members := List.map_snd_zip (by omega)
  have hkeys : (((fields.zip members).map fun p =>
      (p.2.1, encode d p.1.type p.2.2)).map (·.1)).Nodup := by
    rw [← hn, ← hsnd, List.map_map] at hd
    rw [List.map_map]
    exact hd
  have hfind := find?_of_mem hkeys (List.mem_map_of_mem hm)
  rw [Json.lookup, ← name_of_mem_zip hn hm, hfind]
  rfl

theorem ofJson_encode_record {r : RecordType Schema} {members : List (String × Datum)}
    (hn : members.map (·.1) = r.fields.map (·.name)) (hd : (r.fields.map (·.name)).Nodup)
    (h : ∀ p ∈ r.fields.zip members, ofJson d enter p.1.type (encode d p.1.type p.2.2) = .ok p.2.2) :
    ofJson d enter (.record r) (encode d (.record r) (.record members)) = .ok (.record members) := by
  rw [encode_record, ofJson_record]
  apply map_eq_ok_iff.mpr
  refine ⟨members, mapM_eq_ok_iff.mpr ?_, rfl⟩
  apply List.forall₂_iff_zip.mpr
  refine ⟨by simpa using (congrArg List.length hn).symm, ?_⟩
  intro f m hm
  rw [supply_of_lookup (lookup_encodeMembers hn hd hm), h (f, m) hm, Except.map, ← name_of_mem_zip hn hm]

theorem ofJson_encode_union {ms : List Schema} {i : Nat} (hd : Distinct d ms)
    (hu : ∀ t ∈ ms, ∀ ts, t ≠ .union ts) (hi : ms[i]? = some s) (hv : Typed d s v)
    (h : ofJson d enter s (encode d s v) = .ok v) :
    ofJson d enter (.union ms) (encode d (.union ms) (.union i v)) = .ok (.union i v) := by
  obtain ⟨t, ht, htv⟩ := hv.resolve
  rw [encode_union hi]
  by_cases hnull : t = .primitive .null
  · subst hnull
    rw [wrap_null ht]
    cases htv with
    | primitive hp =>
      obtain rfl : v = .null := by
        cases v <;> first | rfl | cases hp
      exact ofJson_union_null hd hu hi ht
  · have hw : wrapped? d ms (.obj [(t.label, encode d s v)]) = some (i, s, encode d s v) :=
      wrapped?_of_findIdx? (findIdx?_answersTo hd hi ht) hi
    rw [wrap_of_ne ht hnull, ofJson_union, hw]
    dsimp only
    rw [h]
    rfl

theorem ofJson_encode (hd : ∀ u, u.Within d.root → Regular d u) (hv : Typed d s v) (he : v.Exact)
    (hs : ∀ u, u.Within s → Regular d u) : ofJson d enter s (encode d s v) = .ok v := by
  induction hv with
  | primitive h =>
    rw [encode_primitive, ofJson]
    exact primitive_encodeLeaf h he
  | decimal =>
    rw [encode_decimal, ofJson]
    exact decode_bytes _ _
  | enum h => exact ofJson_encode_enum ((hs _ .refl).symbols _ rfl) h
  | fixed h =>
    rw [encode_fixed, ofJson, encodeLeaf, OfJson.fixed, OfJson.text, codePoints_byteText, ok_bind,
      if_pos h]
  | array h ih =>
    apply ofJson_encode_array
    intro v hv
    exact ih v hv (he.of_part hv) fun u hu => hs u (hu.trans (.part List.mem_cons_self .refl))
  | map h ih =>
    apply ofJson_encode_map
    intro e hmem
    exact ih e hmem (he.of_part (List.mem_map_of_mem hmem)) fun u hu =>
      hs u (hu.trans (.part List.mem_cons_self .refl))
  | @record r members hn h ih =>
    apply ofJson_encode_record hn ((hs _ .refl).names r rfl)
    rintro ⟨f, m⟩ hmem
    obtain ⟨hf, hm⟩ := List.of_mem_zip hmem
    have hp : f.type ∈ (Schema.record r).parts := List.mem_map_of_mem hf
    exact ih (f, m) hmem (he.of_part (List.mem_map_of_mem hm)) fun u hu =>
      hs u (hu.trans (.part hp .refl))
  | @union ms i s v hi h ih =>
    have hmem : s ∈ (Schema.union ms).parts := List.mem_of_getElem? hi
    obtain ⟨-, -, hflat, hdist⟩ := hs _ .refl
    apply ofJson_encode_union (hdist ms rfl) (hflat ms rfl) hi h
    exact ih (he.of_part List.mem_cons_self) fun u hu => hs u (hu.trans (.part hmem .refl))
  | @ref n D v hD h ih =>
    have hr : d.resolve (.ref n) = .ok D.toSchema := map_eq_ok_iff.mpr ⟨D, hD, rfl⟩
    rw [encode_of_resolve hr, ofJson_ref hD]
    exact ih he (regular_of_follow hd hD)

end Datum

namespace Document

open Datum

variable {text : String} {d : Document} {v : Datum}

theorem regular_of_lawful {u : Schema} (hu : u.Lawful) (hd : ∀ ms, u = .union ms → Distinct d ms) :
    Regular d u where
  symbols e he := by
    subst he
    exact (Schema.nodup_of_symbolDefect? hu).1
  names r he := by
    subst he
    exact (Schema.nodup_of_duplicateField? hu.2.1).1
  flat ms he t ht := by
    subst he
    exact Schema.ne_union_of_unionDefect? hu ht
  distinct := hd

/-- Decoding the document of a value gives the value back, whatever the schema that was read, if in
each of its unions no two members answer to the name of one of them. -/
theorem decode_encode (h : ofText text = .ok d)
    (hd : ∀ ms, (Schema.union ms).Within d.root → Distinct d ms) (hv : Typed d d.root v)
    (he : v.Exact) : d.decode (encode d d.root v) = .ok v := by
  have hr (u : Schema) (hu : u.Within d.root) : Regular d u := by
    apply regular_of_lawful (lawful_of_ofText h hu)
    rintro ms rfl
    exact hd ms hu
  exact ofJson_encode hr hv he hr

def nested : Json :=
  .obj [("fields", .arr [
      .obj [("name", .str "b"), ("type", .str "bytes")],
      .obj [("name", .str "n"), ("type", .arr [.str "null",
        .obj [("type", .str "map"), ("values", .str "int")], .str "T"])]]),
    ("name", .str "T"), ("type", .str "record")]

def nestedUnion : List Schema :=
  [.primitive .null, .map (.primitive .int), .ref ⟨"", "T"⟩]

def nestedRoot : RecordType Schema :=
  ⟨⟨"", "T"⟩, [⟨"b", [], .primitive .bytes, none⟩, ⟨"n", [], .union nestedUnion, none⟩]⟩

theorem eq_nestedUnion {ms : List Schema} (h : (Schema.union ms).Within (.record nestedRoot)) :
    ms = nestedUnion := by
  rcases h.eq_or_part with h | ⟨t, ht, h⟩
  · cases h
  · simp only [Schema.parts, nestedRoot, List.map_cons, List.map_nil, List.mem_cons,
      List.not_mem_nil, or_false] at ht
    rcases ht with rfl | rfl
    · cases h.of_parts_eq_nil rfl
    · rcases h.eq_or_part with h | ⟨t, ht, h⟩
      · exact Schema.union.inj h
      · simp only [Schema.parts, nestedUnion, List.mem_cons, List.not_mem_nil, or_false] at ht
        rcases ht with rfl | rfl | rfl
        · cases h.of_parts_eq_nil rfl
        · rcases h.eq_or_part with h | ⟨t, ht, h⟩
          · cases h
          · obtain rfl := List.mem_singleton.mp ht
            cases h.of_parts_eq_nil rfl
        · cases h.of_parts_eq_nil rfl

def innerValue : Datum :=
  .record [("b", .bytes []), ("n", .union 1 (.map [("k", .int 7)]))]

def nestedValue : Datum :=
  .record [("b", .bytes [0, 255]), ("n", .union 2 innerValue)]

theorem innerValue_typed (d : Document) : Typed d (.record nestedRoot) innerValue := by
  apply Typed.record rfl
  intro p hp
  simp only [nestedRoot, List.zip_cons_cons, List.zip_nil_left, List.mem_cons, List.not_mem_nil,
    or_false] at hp
  rcases hp with rfl | rfl
  · exact .primitive trivial
  · exact .union rfl (.map (List.forall_mem_singleton.mpr (.primitive rfl)))

theorem nestedValue_typed {d : Document} (hd : d.follow ⟨"", "T"⟩ = .ok (.record nestedRoot)) :
    Typed d (.record nestedRoot) nestedValue := by
  apply Typed.record rfl
  intro p hp
  simp only [nestedRoot, List.zip_cons_cons, List.zip_nil_left, List.mem_cons, List.not_mem_nil,
    or_false] at hp
  rcases hp with rfl | rfl
  · exact .primitive trivial
  · exact .union rfl (.ref hd (innerValue_typed d))

theorem nestedValue_exact : nestedValue.Exact := by
  have hleaf (v : Datum) (hv : v.isFractional = false) (hp : v.parts = []) : v.Exact :=
    .of_parts hv (by simp [hp])
  have hmap : (Datum.map [("k", .int 7)]).Exact :=
    .of_parts rfl (List.forall_mem_singleton.mpr (hleaf _ rfl rfl))
  have hinner : innerValue.Exact := by
    apply Exact.of_parts rfl
    intro w hw
    simp only [innerValue, parts, List.map_cons, List.map_nil, List.mem_cons, List.not_mem_nil,
      or_false] at hw
    rcases hw with rfl | rfl
    · exact hleaf _ rfl rfl
    · exact .of_parts rfl (List.forall_mem_singleton.mpr hmap)
  apply Exact.of_parts rfl
  intro w hw
  simp only [nestedValue, parts, List.map_cons, List.map_nil, List.mem_cons, List.not_mem_nil,
    or_false] at hw
  rcases hw with rfl | rfl
  · exact hleaf _ rfl rfl
  · exact .of_parts rfl (List.forall_mem_singleton.mpr hinner)

set_option maxRecDepth 4000 in
theorem decode_encode_nested :
    ∃ d, ofText nested.text = .ok d ∧
      encode d d.root nestedValue =
        .obj [("b", .str "\x00ÿ"), ("n", .obj [("T", .obj [("b", .str ""),
          ("n", .obj [("map", .obj [("k", .int 7)])])])])] ∧
      d.decode (encode d d.root nestedValue) = .ok nestedValue := by
  let d := ofSchema (.record nestedRoot)
  have ht : ofText nested.text = .ok d := by cbv
  have hd (ms : List Schema) (h : (Schema.union ms).Within d.root) : Distinct d ms := by
    rw [eq_nestedUnion h]
    apply distinct_of_isDistinct
    cbv
  have hT : d.follow ⟨"", "T"⟩ = .ok (.record nestedRoot) := by cbv
  refine ⟨d, ht, ?_, decode_encode ht hd (nestedValue_typed hT) nestedValue_exact⟩
  cbv

end Document

end AvroColumns
