import AvroColumns.Proofs.Walk.StandIn

namespace AvroColumns

inductive Walk.Fault.OfPath (segments : List Segment) : Walk.Fault → Prop
  | wildcard (place) : .wildcard ∈ segments → OfPath segments (.unresolved place .wildcard)
  | missing (place) : OfPath segments (.missing place)
  | incompatible (place) {reason} : (∀ label, reason ≠ .notExpandable label) →
      OfPath segments (.incompatible place reason)
  | unknownType (name) : OfPath segments (.unknownType name)

theorem Walk.Fault.OfPath.mono {segments more : List Segment} {fault : Walk.Fault}
    (h : fault.OfPath segments) (hs : segments ⊆ more) : fault.OfPath more := by
  cases h with
  | wildcard place hm => exact .wildcard place (hs hm)
  | missing place => exact .missing place
  | incompatible place hr => exact .incompatible place hr
  | unknownType name => exact .unknownType name

namespace Guide

open Outcome

variable {g : Guide} {isLast : Bool} {s previous : Segment} {n : Node} {v : Datum}
  {fallback : Option Schema} {p : Position} {segments : List Segment} {fault : Walk.Fault}
  {place : String} {schema : Schema}

theorem settle_ofPath (h : g.settle place schema v = .error fault) : fault.OfPath segments := by
  rcases settle_error h with ⟨name, rfl⟩ | ⟨found, rfl⟩
  · exact .unknownType name
  · exact .incompatible place nofun

theorem toEntry_error {key : String} {values : Schema}
    (h : g.toEntry place key values v fallback = .error fault) :
    fault = .incompatible place (.wrongValue "map" v.label) := by
  cases v with
  | map entries => cases hl : Datum.lookup key entries <;> simp [toEntry, hl] at h
  | _ =>
    cases h
    rfl

theorem toItem_error {i : Int} {items : Schema}
    (h : g.toItem place i items v fallback = .error fault) :
    fault = .incompatible place (.wrongValue "array" v.label) := by
  cases v with
  | array vs => cases hv : (if i < 0 then none else vs[i.toNat]?) <;> simp [toItem, hv] at h
  | _ =>
    cases h
    rfl

theorem toMember_error {name : String} {r : RecordType Schema}
    (h : g.toMember isLast place name r v fallback = .error fault) :
    (r.find? name = none ∧ (fault = .missing place ∨ ∃ type, fault = .unknownType type)) ∨
      fault = .incompatible place (.wrongValue "record" v.label) := by
  cases hf : r.find? name with
  | none => exact .inl ⟨rfl, toMember_lacking_error hf h⟩
  | some f =>
    rw [toMember_of_find? hf] at h
    cases v with
    | record members => cases hl : Datum.lookup name members <;> simp [hl] at h
    | _ =>
      cases h
      exact .inr rfl

theorem along_error (h : g.along isLast s n v fallback = .error fault) :
    (s = .wildcard ∧ fault = .unresolved s.text .wildcard) ∨
    (∃ name r, s = .member name ∧ n = .record r ∧ r.find? name = none ∧
      (fault = .missing s.text ∨ ∃ type, fault = .unknownType type)) ∨
    ∃ reason, fault = .incompatible s.text reason ∧ ∀ label, reason ≠ .notExpandable label := by
  cases meets s n with
  | wildcard =>
    cases h
    exact .inl ⟨rfl, rfl⟩
  | @member name r =>
    rcases toMember_error h with ⟨hf, hm⟩ | rfl
    · exact .inr (.inl ⟨name, r, rfl, rfl, hf, hm⟩)
    · exact .inr (.inr ⟨_, rfl, by simp⟩)
  | entry hk =>
    rw [along_entry hk] at h
    exact .inr (.inr ⟨_, toEntry_error h, by simp⟩)
  | item hi =>
    rw [along_item hi] at h
    exact .inr (.inr ⟨_, toItem_error h, by simp⟩)
  | mismatch hr hm =>
    cases (hm g isLast v fallback).symm.trans h
    exact .inr (.inr ⟨_, rfl, by cases hr <;> simp⟩)

theorem along_ofPath (h : g.along isLast s n v fallback = .error fault) : fault.OfPath [s] := by
  rcases along_error h with ⟨rfl, rfl⟩ | ⟨name, r, rfl, -, -, hm⟩ | ⟨reason, rfl, hr⟩
  · exact .wildcard _ List.mem_cons_self
  · rcases hm with rfl | ⟨type, rfl⟩
    · exact .missing _
    · exact .unknownType type
  · exact .incompatible _ hr

theorem step_error (h : g.step isLast s p = .error fault) :
    g.settle s.text p.schema p.value = .error fault ∨
      ∃ schema v, g.settle s.text p.schema p.value = .ok (schema, v) ∧ v.isNull = false ∧
        (g.node schema = .error fault ∨ ∃ n, g.node schema = .ok n ∧
          g.along isLast s n v (p.fallback.bind g.defaultContainer?) = .error fault) := by
  rw [step] at h
  rcases bind_eq_error_iff.mp h with h | ⟨⟨schema, v⟩, hs, h⟩
  · exact .inl h
  · cases hv : v.isNull with
    | true => simp [hv] at h
    | false =>
      simp only [hv, Bool.false_eq_true, if_false] at h
      exact .inr ⟨schema, v, hs, hv, bind_eq_error_iff.mp h⟩

theorem step_ofPath (h : g.step isLast s p = .error fault) : fault.OfPath [s] := by
  rcases step_error h with h | ⟨schema, v, -, -, h | ⟨n, -, h⟩⟩
  · exact settle_ofPath h
  · obtain ⟨name, rfl⟩ := node_error h
    exact .unknownType name
  · exact along_ofPath h

theorem arrive_error (h : g.arrive place p = .error fault) :
    g.settle place p.schema p.value = .error fault := by
  rw [arrive] at h
  rcases bind_eq_error_iff.mp h with h | ⟨⟨schema, v⟩, -, h⟩
  · exact h
  · cases hv : v.isNull <;> simp [hv] at h

theorem arrive_ofPath (h : g.arrive place p = .error fault) : fault.OfPath [] :=
  settle_ofPath (arrive_error h)

theorem walkFrom_ofPath (h : g.walkFrom previous segments p = .error fault) :
    fault.OfPath segments := by
  induction segments generalizing previous p with
  | nil => exact arrive_ofPath h
  | cons s rest ih =>
    rw [walkFrom_cons] at h
    rcases bind_eq_error_iff.mp h with h | ⟨o, -, h⟩
    · exact (step_ofPath h).mono (by simp)
    · cases o with
      | ended w => cases h
      | onward q => exact (ih h).mono (by simp)

end Guide

end AvroColumns
