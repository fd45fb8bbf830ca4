import AvroColumns.Proofs.Datum.Calls
import AvroColumns.Proofs.Datum.Parts

namespace AvroColumns

open Outcome

/-- The values of a primitive or logical type. An identifier is carried as a text. -/
def Primitive.Holds : Primitive → Datum → Prop
  | .null, .null => True
  | .boolean, .boolean _ => True
  | .int, .int n => fitsInt32 n
  | .long, .long n => fitsInt64 n
  | .float, .float _ => True
  | .double, .double _ => True
  | .bytes, .bytes _ => True
  | .string, .string _ => True
  | .bigDecimal, .bigDecimal _ => True
  | .uuid, .string _ => True
  | .date, .date n => fitsInt32 n
  | .timeMillis, .timeMillis n => fitsInt32 n
  | .timeMicros, .timeMicros n => fitsInt64 n
  | .timestamp unit zoned, .timestamp unit' zoned' n => unit = unit' ∧ zoned = zoned' ∧ fitsInt64 n
  | .duration, .duration b => b.length = 12
  | _, _ => False

namespace Datum

inductive Typed (d : Document) : Schema → Datum → Prop
  | primitive {p v} (h : Primitive.Holds p v) : Typed d (.primitive p) v
  | decimal {precision scale c b} : Typed d (.decimal precision scale c) (.decimal b)
  | enum {e i symbol} (h : e.symbols[i]? = some symbol) : Typed d (.enum e) (.enum i symbol)
  | fixed {f b} (h : b.length = f.size) : Typed d (.fixed f) (.fixed f.size b)
  | array {s vs} (h : ∀ v ∈ vs, Typed d s v) : Typed d (.array s) (.array vs)
  | map {s entries} (h : ∀ e ∈ entries, Typed d s e.2) : Typed d (.map s) (.map entries)
  | record {r members} (hn : members.map (·.1) = r.fields.map (·.name))
    (h : ∀ p ∈ r.fields.zip members, Typed d p.1.type p.2.2) : Typed d (.record r) (.record members)
  | union {ms i s v} (hi : ms[i]? = some s) (h : Typed d s v) : Typed d (.union ms) (.union i v)
  | ref {n D v} (hD : d.follow n = .ok D) (h : Typed d D.toSchema v) : Typed d (.ref n) v

variable {d : Document} {s t : Schema} {j : Json} {v : Datum} {p : Primitive}

theorem Typed.of_resolve (h : d.resolve s = .ok t) (hv : Typed d t v) : Typed d s v := by
  cases s with
  | ref name =>
    obtain ⟨D, hD, rfl⟩ := map_eq_ok_iff.mp h
    exact .ref hD hv
  | _ =>
    cases h
    exact hv

theorem Typed.resolve (hv : Typed d s v) : ∃ t, d.resolve s = .ok t ∧ Typed d t v := by
  cases hv with
  | ref hD h => exact ⟨_, map_eq_ok_iff.mpr ⟨_, hD, rfl⟩, h⟩
  | primitive h => exact ⟨_, rfl, .primitive h⟩
  | decimal => exact ⟨_, rfl, .decimal⟩
  | enum h => exact ⟨_, rfl, .enum h⟩
  | fixed h => exact ⟨_, rfl, .fixed h⟩
  | array h => exact ⟨_, rfl, .array h⟩
  | map h => exact ⟨_, rfl, .map h⟩
  | record hn h => exact ⟨_, rfl, .record hn h⟩
  | union hi h => exact ⟨_, rfl, .union hi h⟩

theorem name_of_mem_zip {fs : List (Field Schema)} {members : List (String × Datum)}
    (hn : members.map (·.1) = fs.map (·.name)) {p : Field Schema × String × Datum}
    (hp : p ∈ fs.zip members) : p.2.1 = p.1.name := by
  induction fs generalizing members with
  | nil => cases hp
  | cons f fs ih =>
    cases members with
    | nil => cases hp
    | cons m members =>
      obtain ⟨hm, hn⟩ := List.cons.inj hn
      rcases List.mem_cons.mp hp with rfl | hp
      · exact hm
      · exact ih hn hp

theorem exists_zip_of_mem {fs : List (Field Schema)} {members : List (String × Datum)}
    (hn : members.map (·.1) = fs.map (·.name)) {m : String × Datum} (hm : m ∈ members) :
    ∃ f, (f, m) ∈ fs.zip members ∧ f.name = m.1 := by
  induction fs generalizing members with
  | nil =>
    rw [List.map_nil, List.map_eq_nil_iff] at hn
    simp [hn] at hm
  | cons f fs ih =>
    cases members with
    | nil => cases hm
    | cons m' members =>
      obtain ⟨hname, hn⟩ := List.cons.inj hn
      rcases List.mem_cons.mp hm with rfl | hm
      · exact ⟨f, List.mem_cons_self, hname.symm⟩
      · obtain ⟨f, hf, h⟩ := ih hn hm
        exact ⟨f, List.mem_cons_of_mem _ hf, h⟩

theorem exists_of_text {f : String → Except Fault Datum} {label : String}
    (h : OfJson.text f label j = .ok v) : ∃ x, j = .str x ∧ f x = .ok v := by
  cases j with
  | str x => exact ⟨x, rfl, h⟩
  | _ => cases h

theorem exists_of_int {f : Int → Datum} {label : String}
    (h : OfJson.number (OfJson.int f) label j = .ok v) :
    ∃ n, j = .int n ∧ fitsInt32 n ∧ v = f n := by
  cases j with
  | int n =>
    simp only [OfJson.number, OfJson.int] at h
    split at h
    next hn =>
      cases h
      exact ⟨n, rfl, hn, rfl⟩
    next => cases h
  | _ => cases h

theorem exists_of_long {f : Int → Datum} {label : String}
    (h : OfJson.number (OfJson.long f) label j = .ok v) :
    ∃ n, j = .int n ∧ fitsInt64 n ∧ v = f n := by
  cases j with
  | int n =>
    simp only [OfJson.number, OfJson.long] at h
    split at h
    next hn =>
      cases h
      exact ⟨n, rfl, hn, rfl⟩
    next => cases h
  | _ => cases h

theorem exists_of_bigDecimal (h : OfJson.bigDecimal j = .ok v) :
    ∃ x, v = .bigDecimal x ∧ ((∃ s, j = .str s ∧ Decimal.ofString? s = some x) ∨
      j.number?.isSome ∧ Decimal.ofString? j.text = some x) := by
  cases j with
  | str s =>
    simp only [OfJson.bigDecimal] at h
    split at h <;> cases h
    next x hx => exact ⟨x, rfl, .inl ⟨s, rfl, hx⟩⟩
  | int n | real y =>
    simp only [OfJson.bigDecimal] at h
    split at h <;> cases h
    next x hx => exact ⟨x, rfl, .inr ⟨rfl, hx⟩⟩
  | _ => cases h

theorem holds_primitive (h : OfJson.primitive p j = .ok v) : p.Holds v := by
  cases p with
  | null => cases j <;> cases h; trivial
  | boolean => cases j <;> cases h; trivial
  | int =>
    obtain ⟨n, -, hn, rfl⟩ := exists_of_int h
    exact hn
  | long =>
    obtain ⟨n, -, hn, rfl⟩ := exists_of_long h
    exact hn
  | float =>
    rw [OfJson.primitive] at h
    split at h <;> cases h
    trivial
  | double =>
    rw [OfJson.primitive] at h
    split at h <;> cases h
    trivial
  | bytes =>
    obtain ⟨x, -, hx⟩ := exists_of_text h
    obtain ⟨b, -, rfl⟩ := map_eq_ok_iff.mp hx
    trivial
  | string =>
    obtain ⟨x, -, ⟨⟩⟩ := exists_of_text h
    trivial
  | bigDecimal =>
    obtain ⟨x, rfl, -⟩ := exists_of_bigDecimal h
    trivial
  | uuid =>
    obtain ⟨x, -, ⟨⟩⟩ := exists_of_text h
    trivial
  | date =>
    obtain ⟨n, -, hn, rfl⟩ := exists_of_int h
    exact hn
  | timeMillis =>
    obtain ⟨n, -, hn, rfl⟩ := exists_of_int h
    exact hn
  | timeMicros =>
    obtain ⟨n, -, hn, rfl⟩ := exists_of_long h
    exact hn
  | timestamp unit zoned =>
    obtain ⟨n, -, hn, rfl⟩ := exists_of_long h
    exact ⟨rfl, rfl, hn⟩
  | duration =>
    obtain ⟨x, -, hx⟩ := exists_of_text h
    obtain ⟨b, -, hb⟩ := bind_eq_ok_iff.mp hx
    split at hb
    next hl =>
      cases hb
      exact hl
    next => cases hb

theorem typed_leaf (h : Call.leaf s j = .ok v) : Typed d s v := by
  cases s with
  | primitive p => exact .primitive (holds_primitive h)
  | decimal precision scale c =>
    obtain ⟨x, -, hx⟩ := exists_of_text h
    obtain ⟨b, -, rfl⟩ := map_eq_ok_iff.mp hx
    exact .decimal
  | enum e =>
    obtain ⟨x, -, hx⟩ := exists_of_text h
    split at hx
    next i hi =>
      cases hx
      obtain ⟨hl, hs, -⟩ := List.findIdx?_eq_some_iff_getElem.mp hi
      apply Typed.enum
      rw [List.getElem?_eq_getElem hl, eq_of_beq hs]
    next => cases hx
  | fixed f =>
    obtain ⟨x, -, hx⟩ := exists_of_text h
    obtain ⟨b, -, hb⟩ := bind_eq_ok_iff.mp hx
    split at hb
    next hl =>
      cases hb
      exact .fixed hl
    next => cases hb
  | _ => cases h

variable {sub : Call → Except Fault Datum} {c : Call}

theorem firstOf_eq_ok {fault : Fault} {cs : List Call} {index : Nat}
    (h : Body.firstOf sub fault index cs = .ok v) :
    ∃ k c w, cs[k]? = some c ∧ sub c = .ok w ∧ v = .union (index + k) w := by
  induction cs generalizing index with
  | nil => cases h
  | cons c cs ih =>
    rw [Body.firstOf] at h
    split at h
    next w hw =>
      cases h
      exact ⟨0, c, w, rfl, hw, rfl⟩
    next => cases h
    next =>
      obtain ⟨k, c, w, hc, hw, rfl⟩ := ih h
      refine ⟨k + 1, c, w, hc, hw, ?_⟩
      rw [Nat.add_right_comm, Nat.add_assoc]

theorem typed_giveMembers {record : String} {members : List (String × Json)}
    (fs : List (Field Schema)) (hs : ∀ c ∈ Call.ofMembers members fs, ∀ v, sub c = .ok v →
      Typed d c.schema v) {vs : List Datum} {ms : List (String × Datum)}
    (hvs : (Call.ofMembers members fs).mapM sub = .ok vs)
    (h : Call.giveMembers record members fs vs = .ok ms) :
    ms.map (·.1) = fs.map (·.name) ∧ ∀ p ∈ fs.zip ms, Typed d p.1.type p.2.2 := by
  induction fs generalizing vs ms with
  | nil =>
    cases h
    exact ⟨rfl, nofun⟩
  | cons f fs ih =>
    rw [Call.ofMembers] at hs hvs
    cases hc : Call.ofMember? members f with
    | none => simp [Call.giveMembers, hc] at h
    | some c =>
      simp only [hc] at hs hvs
      rw [List.mapM_cons, bind_eq_ok_iff] at hvs
      obtain ⟨v, hv, hvs⟩ := hvs
      obtain ⟨vs, hrest, ⟨⟩⟩ := bind_eq_ok_iff.mp hvs
      simp only [Call.giveMembers, hc] at h
      obtain ⟨ms, hms, rfl⟩ := map_eq_ok_iff.mp h
      obtain ⟨hn, ht⟩ := ih (fun c hc => hs c (List.mem_cons_of_mem _ hc)) hrest hms
      have hf : Typed d f.type v := by
        have := hs c List.mem_cons_self v hv
        rcases Call.ofMember?_eq_some hc with ⟨i, -, rfl⟩ | ⟨literal, -, rfl⟩
        · exact this
        · exact this
      refine ⟨by simp [hn], ?_⟩
      rw [List.zip_cons_cons]
      exact List.forall_mem_cons.mpr ⟨hf, ht⟩

theorem typed_valueBody (hs : ∀ c ∈ (Call.valueBody d s j).calls, ∀ v, sub c = .ok v →
    Typed d c.schema v) (h : (Call.valueBody d s j).run sub = .ok v) : Typed d s v := by
  unfold Call.valueBody at hs h
  split at h
  next items js =>
    obtain ⟨vs, hvs, ⟨⟩⟩ := bind_eq_ok_iff.mp h
    apply Typed.array
    intro v hv
    obtain ⟨c, hc, hcv⟩ := exists_of_mem_mapM hvs hv
    have := hs c hc v hcv
    obtain ⟨i, -, rfl⟩ := List.mem_map.mp hc
    exact this
  next values members =>
    obtain ⟨vs, hvs, ⟨⟩⟩ := bind_eq_ok_iff.mp h
    apply Typed.map
    intro e he
    obtain ⟨c, hc, hcv⟩ := exists_of_mem_mapM hvs (List.of_mem_zip he).2
    have := hs c hc e.2 hcv
    obtain ⟨i, -, rfl⟩ := List.mem_map.mp hc
    exact this
  next r members =>
    obtain ⟨vs, hvs, hg⟩ := bind_eq_ok_iff.mp h
    obtain ⟨ms, hms, rfl⟩ := map_eq_ok_iff.mp hg
    obtain ⟨hn, ht⟩ := typed_giveMembers r.fields hs hvs hms
    exact .record hn ht
  next ms =>
    split at h
    next i t inner hw =>
      obtain ⟨w, hw', rfl⟩ := map_eq_ok_iff.mp h
      obtain ⟨name, -, -, hi⟩ := Call.wrapped?_eq_some hw
      simp only [hw] at hs
      exact .union hi (hs _ (List.mem_singleton.mpr rfl) w hw')
    next hw =>
      obtain ⟨k, c, w, hc, hcw, rfl⟩ := firstOf_eq_ok h
      simp only [hw] at hs
      have := hs c (List.mem_of_getElem? hc) w hcw
      rw [List.getElem?_map] at hc
      obtain ⟨t, ht, rfl⟩ := Option.map_eq_some_iff.mp hc
      rw [Nat.zero_add]
      exact .union ht this
  next => exact typed_leaf h

theorem typed_of_run {budget : Nat} (h : c.run d budget = .ok v) : Typed d c.schema v := by
  induction budget, c using Call.run_induction d generalizing v with
  | zero s literal => cases h
  | succ budget s literal ih => exact ih h
  | body budget c hc ih =>
    rw [Call.run_eq hc] at h
    cases c with
    | value s j =>
      rw [Call.body] at h ih
      cases ht : d.resolve s with
      | error e =>
        rw [ht] at h
        cases h
      | ok t =>
        simp only [ht] at h ih
        exact (typed_valueBody (fun c hc v => ih c hc) h).of_resolve ht
    | default s j =>
      rw [Call.body] at h ih
      rcases Call.defaultBody_cases s j with hb | ⟨first, rest, rfl, hb⟩ | hb
      · rw [hb] at h
        cases h
      · rw [hb] at h ih
        obtain ⟨w, hw, rfl⟩ := map_eq_ok_iff.mp h
        exact .union rfl (ih _ (List.mem_singleton.mpr rfl) hw)
      · rw [hb] at h ih
        obtain ⟨w, hw, rfl⟩ := map_eq_ok_iff.mp h
        exact ih _ (List.mem_singleton.mpr rfl) hw
    | absent s literal => exact absurd rfl (hc s literal)

theorem typed_of_decode (h : d.decode j = .ok v) : Typed d d.root v := by
  have hr : (Call.value d.root j).run d d.root.defaultCount = .ok v := h
  exact typed_of_run hr

end Datum

end AvroColumns
