import AvroColumns.Proofs.Outcome
import AvroColumns.Proofs.Walk.Settling

/-!
# Steps of a walk

A step settles the unions at a position and then goes along a segment. `Onward` lists the ways in which
it goes on, and whether the step is the last one is no part of it. A step that ends the walk reaches
nothing. The place at which faults are told decides nothing else.
-/

namespace AvroColumns

namespace Segment

def entryKey? : Segment → Option String
  | .key k => some k
  | .index i => some (Numeral.text i)
  | _ => none

def itemIndex? : Segment → Option Int
  | .key k => Numeral.int64? (Text.trimChars k.toList)
  | .index i => some i
  | _ => none

end Segment

namespace Guide

open Outcome

variable {g : Guide} {isLast : Bool} {s : Segment} {n : Node} {v : Datum} {fallback : Option Schema}
  {p q : Position}

theorem settle_of_place {place : String} (place' : String) {schema : Schema} {r : Schema × Datum}
    (h : g.settle place schema v = .ok r) : g.settle place' schema v = .ok r :=
  settle_eq_ok_iff.mpr (settle_eq_ok_iff.mp h)

theorem arrive_of_place {place : String} (place' : String) {w : Walk}
    (h : g.arrive place p = .ok w) : g.arrive place' p = .ok w := by
  cases hs : g.settle place p.schema p.value with
  | error f => simp [arrive, hs] at h
  | ok r =>
    rw [arrive, settle_of_place place' hs]
    rw [arrive, hs] at h
    exact h

theorem node_error {schema : Schema} {fault : Walk.Fault} (h : g.node schema = .error fault) :
    ∃ name, fault = .unknownType name := by
  obtain ⟨e, -, rfl⟩ := node_eq_error_iff.mp h
  exact ⟨e.name, rfl⟩

theorem settle_error {place : String} {schema : Schema} {fault : Walk.Fault}
    (h : g.settle place schema v = .error fault) :
    (∃ name, fault = .unknownType name) ∨ ∃ found, fault = .incompatible place (.noBranch found) := by
  obtain ⟨t, w, -, hs⟩ := settle_eq_error_iff.mp h
  cases hs with
  | unknown => exact .inl ⟨_, rfl⟩
  | beyond | unfit => exact .inr ⟨_, rfl⟩

theorem standIn?_error {r : Option (RecordType Schema)} {name : String} {fault : Walk.Fault}
    (h : g.standIn? r name = .error fault) : ∃ type, fault = .unknownType type := by
  rw [standIn?] at h
  split at h
  next d _ _ type _ _ _ =>
    cases hk : literalKind? d type with
    | error e =>
      simp only [hk, Except.error.injEq] at h
      exact ⟨_, h.symm⟩
    | ok kind => simp [hk] at h
  next => cases h

theorem defaultNode?_of_defaults {d : Document} (hd : g.defaults = some d) (schema : Schema) :
    g.defaultNode? schema = (d.node schema).toOption := by
  rw [defaultNode?, hd]

theorem defaultRecord?_eq_some_iff {r : RecordType Schema} :
    g.defaultRecord? fallback = some r ↔ fallback.bind g.defaultNode? = some (.record r) := by
  rw [defaultRecord?]
  cases fallback.bind g.defaultNode? with
  | none => simp
  | some n => cases n <;> simp

theorem defaultValues?_eq_some_iff {values : Schema} :
    g.defaultValues? fallback = some values ↔ fallback.bind g.defaultNode? = some (.map values) := by
  rw [defaultValues?]
  cases fallback.bind g.defaultNode? with
  | none => simp
  | some n => cases n <;> simp

theorem defaultItems?_eq_some_iff {items : Schema} :
    g.defaultItems? fallback = some items ↔ fallback.bind g.defaultNode? = some (.array items) := by
  rw [defaultItems?]
  cases fallback.bind g.defaultNode? with
  | none => simp
  | some n => cases n <;> simp

inductive OfSchema : Incompatible → Prop
  | notIndex (key) : OfSchema (.notIndex key)
  | memberOf (label) : OfSchema (.memberOf label)
  | entryOf (label) : OfSchema (.entryOf label)

/-- The ways in which a segment meets the view of a schema. -/
inductive Meets : Segment → Node → Prop
  | wildcard {n : Node} : Meets .wildcard n
  | member {name r} : Meets (.member name) (.record r)
  | entry {s key values} : s.entryKey? = some key → Meets s (.map values)
  | item {s i items} : s.itemIndex? = some i → Meets s (.array items)
  | mismatch {s n reason} : OfSchema reason →
      (∀ g isLast v fallback, along g isLast s n v fallback = .error (.incompatible s.text reason)) →
      Meets s n

theorem meets (s : Segment) (n : Node) : Meets s n := by
  cases s with
  | wildcard => exact .wildcard
  | member name =>
    cases n with
    | record r => exact .member
    | _ => exact .mismatch (.memberOf _) fun _ _ _ _ => rfl
  | key k =>
    cases n with
    | map values => exact .entry rfl
    | array items =>
      cases hi : Numeral.int64? (Text.trimChars k.toList) with
      | some i => exact .item hi
      | none =>
        refine .mismatch (.notIndex k) fun g isLast v fallback => ?_
        rw [along, hi]
    | _ => exact .mismatch (.entryOf _) fun _ _ _ _ => rfl
  | index i =>
    cases n with
    | map values => exact .entry rfl
    | array items => exact .item rfl
    | _ => exact .mismatch (.entryOf _) fun _ _ _ _ => rfl

theorem along_entry {key : String} {values : Schema} (hk : s.entryKey? = some key) :
    g.along isLast s (.map values) v fallback = g.toEntry s.text key values v fallback := by
  cases s with
  | key k | index i =>
    cases hk
    rfl
  | _ => cases hk

theorem along_item {i : Int} {items : Schema} (hi : s.itemIndex? = some i) :
    g.along isLast s (.array items) v fallback = g.toItem s.text i items v fallback := by
  cases s with
  | key k => rw [along, show Numeral.int64? (Text.trimChars k.toList) = some i from hi]
  | index i =>
    cases hi
    rfl
  | _ => cases hi

theorem step_of_settle {schema : Schema} (hs : g.settle s.text p.schema p.value = .ok (schema, v))
    (hv : v.isNull = false) (hn : g.node schema = .ok n) :
    g.step isLast s p = g.along isLast s n v (p.fallback.bind g.defaultContainer?) := by
  simp only [step, hs, ok_bind, hv, Bool.false_eq_true, if_false, hn]

theorem step_of_null {schema : Schema} (hs : g.settle s.text p.schema p.value = .ok (schema, v))
    (hv : v.isNull = true) : g.step isLast s p = .ok (.ended .absent) := by
  simp only [step, hs, ok_bind, hv, if_true, pure_eq_ok]

theorem step_eq_ok_iff {o : Walk.Step} : g.step isLast s p = .ok o ↔
    ∃ schema v, g.settle s.text p.schema p.value = .ok (schema, v) ∧
      (v.isNull = true ∧ o = .ended .absent ∨ v.isNull = false ∧ ∃ n, g.node schema = .ok n ∧
        g.along isLast s n v (p.fallback.bind g.defaultContainer?) = .ok o) := by
  constructor
  · intro h
    obtain ⟨⟨schema, v⟩, hs, h⟩ := bind_eq_ok_iff.mp h
    refine ⟨schema, v, hs, ?_⟩
    cases hv : v.isNull with
    | true => exact .inl ⟨rfl, by simpa [hv, eq_comm] using h⟩
    | false => exact .inr ⟨rfl, bind_eq_ok_iff.mp (by simpa [hv] using h)⟩
  · rintro ⟨schema, v, hs, ⟨hv, rfl⟩ | ⟨hv, n, hn, ha⟩⟩
    · exact step_of_null hs hv
    · exact (step_of_settle hs hv hn).trans ha

inductive Onward (g : Guide) (fallback : Option Schema) : Segment → Node → Datum → Position → Prop
  | member {name r f members v} : r.find? name = some f → Datum.lookup name members = some v →
      Onward g fallback (.member name) (.record r) (.record members)
        ⟨v, f.type, ((g.defaultRecord? fallback).bind (·.find? name)).map (·.type)⟩
  | entry {s key values entries v} : s.entryKey? = some key → Datum.lookup key entries = some v →
      Onward g fallback s (.map values) (.map entries) ⟨v, values, g.defaultValues? fallback⟩
  | item {s i items vs v} : s.itemIndex? = some i → 0 ≤ i → vs[i.toNat]? = some v →
      Onward g fallback s (.array items) (.array vs) ⟨v, items, g.defaultItems? fallback⟩

theorem toMember_of_find? {place name : String} {r : RecordType Schema} {f : Field Schema}
    (h : r.find? name = some f) :
    g.toMember isLast place name r v fallback = match v with
      | .record members =>
        match Datum.lookup name members with
        | none => .ok (.ended .absent)
        | some v => .ok (.onward
            ⟨v, f.type, ((g.defaultRecord? fallback).bind (·.find? name)).map (·.type)⟩)
      | v => .error (.incompatible place (.wrongValue "record" v.label)) := by
  rw [toMember, h]
  cases v <;> rfl

theorem toMember_of_lacking {place name : String} {r : RecordType Schema}
    (h : r.find? name = none) :
    g.toMember isLast place name r v fallback =
      match if isLast then g.standIn? (g.defaultRecord? fallback) name else .ok none with
      | .error f => .error f
      | .ok (some w) => .ok (.ended w)
      | .ok none => if g.tolerant then .ok (.ended .absent) else .error (.missing place) := by
  rw [toMember, h]
  cases isLast with
  | false => cases g.tolerant <;> rfl
  | true =>
    simp only [if_true]
    cases g.standIn? (g.defaultRecord? fallback) name with
    | error f => rfl
    | ok o => cases o <;> cases g.tolerant <;> rfl

theorem toMember_lacking_error {place name : String} {r : RecordType Schema} {fault : Walk.Fault}
    (hf : r.find? name = none) (h : g.toMember isLast place name r v fallback = .error fault) :
    fault = .missing place ∨ ∃ type, fault = .unknownType type := by
  rw [toMember_of_lacking hf] at h
  split at h
  next hs =>
    cases h
    cases isLast with
    | false => cases hs
    | true => exact .inr (standIn?_error hs)
  next => cases h
  next =>
    split at h <;> cases h
    exact .inl rfl

theorem toMember_onward_iff {place name : String} {r : RecordType Schema} :
    g.toMember isLast place name r v fallback = .ok (.onward q) ↔
      ∃ f members w, v = .record members ∧ r.find? name = some f ∧
        Datum.lookup name members = some w ∧
        q = ⟨w, f.type, ((g.defaultRecord? fallback).bind (·.find? name)).map (·.type)⟩ := by
  cases hf : r.find? name with
  | none =>
    rw [toMember_of_lacking hf]
    grind
  | some f =>
    rw [toMember_of_find? hf]
    cases v with
    | record members => grind
    | _ => simp

theorem toEntry_onward_iff {place key : String} {values : Schema} :
    g.toEntry place key values v fallback = .ok (.onward q) ↔
      ∃ entries w, v = .map entries ∧ Datum.lookup key entries = some w ∧
        q = ⟨w, values, g.defaultValues? fallback⟩ := by
  cases v with
  | map entries => cases hl : Datum.lookup key entries <;> simp [toEntry, hl, eq_comm]
  | _ => simp [toEntry]

theorem toItem_onward_iff {place : String} {i : Int} {items : Schema} :
    g.toItem place i items v fallback = .ok (.onward q) ↔
      ∃ vs w, v = .array vs ∧ 0 ≤ i ∧ vs[i.toNat]? = some w ∧
        q = ⟨w, items, g.defaultItems? fallback⟩ := by
  cases v with
  | array vs =>
    rw [toItem]
    by_cases hi : i < 0
    · simp only [if_pos hi]
      grind
    · simp only [if_neg hi]
      grind
  | _ => simp [toItem]

theorem along_onward_iff (isLast : Bool) :
    g.along isLast s n v fallback = .ok (.onward q) ↔ g.Onward fallback s n v q := by
  constructor
  · intro h
    cases meets s n with
    | wildcard => cases h
    | member =>
      obtain ⟨f, members, w, rfl, hf, hl, rfl⟩ := toMember_onward_iff.mp h
      exact .member hf hl
    | entry hk =>
      rw [along_entry hk] at h
      obtain ⟨entries, w, rfl, hl, rfl⟩ := toEntry_onward_iff.mp h
      exact .entry hk hl
    | item hi =>
      rw [along_item hi] at h
      obtain ⟨vs, w, rfl, h0, hv, rfl⟩ := toItem_onward_iff.mp h
      exact .item hi h0 hv
    | mismatch _ hm =>
      rw [hm] at h
      cases h
  · intro h
    cases h with
    | member hf hl => exact toMember_onward_iff.mpr ⟨_, _, _, rfl, hf, hl, rfl⟩
    | entry hk hl =>
      rw [along_entry hk]
      exact toEntry_onward_iff.mpr ⟨_, _, rfl, hl, rfl⟩
    | item hi h0 hv =>
      rw [along_item hi]
      exact toItem_onward_iff.mpr ⟨_, _, rfl, h0, hv, rfl⟩

theorem step_onward_iff :
    g.step isLast s p = .ok (.onward q) ↔
      ∃ schema v n, g.settle s.text p.schema p.value = .ok (schema, v) ∧ v.isNull = false ∧
        g.node schema = .ok n ∧ g.Onward (p.fallback.bind g.defaultContainer?) s n v q := by
  rw [step_eq_ok_iff]
  constructor
  · rintro ⟨schema, v, hs, ⟨-, ⟨⟩⟩ | ⟨hv, n, hn, ha⟩⟩
    exact ⟨schema, v, n, hs, hv, hn, (along_onward_iff isLast).mp ha⟩
  · rintro ⟨schema, v, n, hs, hv, hn, ho⟩
    exact ⟨schema, v, hs, .inr ⟨hv, n, hn, (along_onward_iff isLast).mpr ho⟩⟩

theorem standIn?_defaulted {r : Option (RecordType Schema)} {name : String} {w : Walk}
    (h : g.standIn? r name = .ok (some w)) : ∃ literal kind, w = .defaulted literal kind := by
  rw [standIn?] at h
  split at h
  next d _ _ type literal _ _ =>
    cases hk : literalKind? d type with
    | error e => simp [hk] at h
    | ok kind =>
      simp only [hk, Except.ok.injEq, Option.map_eq_some_iff] at h
      obtain ⟨kind, -, rfl⟩ := h
      exact ⟨literal, kind, rfl⟩
  next => cases h

theorem toMember_ended {place name : String} {r : RecordType Schema} {w : Walk}
    (h : g.toMember isLast place name r v fallback = .ok (.ended w)) :
    w = .absent ∨ ∃ r, g.standIn? r name = .ok (some w) := by
  cases hf : r.find? name with
  | some f =>
    rw [toMember_of_find? hf] at h
    cases v <;> grind
  | none =>
    rw [toMember_of_lacking hf] at h
    cases isLast with
    | false => grind
    | true =>
      cases hw : g.standIn? (g.defaultRecord? fallback) name with
      | error f => simp [hw] at h
      | ok o =>
        cases o with
        | none => grind
        | some w' =>
          simp only [if_true, hw] at h
          cases h
          exact .inr ⟨_, hw⟩

theorem toEntry_ended {place key : String} {values : Schema} {w : Walk}
    (h : g.toEntry place key values v fallback = .ok (.ended w)) : w = .absent := by
  cases v <;> grind [toEntry]

theorem toItem_ended {place : String} {i : Int} {items : Schema} {w : Walk}
    (h : g.toItem place i items v fallback = .ok (.ended w)) : w = .absent := by
  cases v <;> grind [toItem]

theorem along_ended {w : Walk} (h : g.along isLast s n v fallback = .ok (.ended w)) :
    w = .absent ∨ ∃ r name, g.standIn? r name = .ok (some w) := by
  cases meets s n with
  | wildcard => cases h
  | @member name r =>
    rcases toMember_ended h with hw | ⟨r, hw⟩
    · exact .inl hw
    · exact .inr ⟨r, name, hw⟩
  | entry hk =>
    rw [along_entry hk] at h
    exact .inl (toEntry_ended h)
  | item hi =>
    rw [along_item hi] at h
    exact .inl (toItem_ended h)
  | mismatch _ hm =>
    rw [hm] at h
    cases h

theorem step_ended {w : Walk} (h : g.step isLast s p = .ok (.ended w)) :
    w = .absent ∨ ∃ r name, g.standIn? r name = .ok (some w) := by
  obtain ⟨schema, v, -, ⟨-, ⟨⟩⟩ | ⟨-, n, -, ha⟩⟩ := step_eq_ok_iff.mp h
  · exact .inl rfl
  · exact along_ended ha

end Guide

end AvroColumns
