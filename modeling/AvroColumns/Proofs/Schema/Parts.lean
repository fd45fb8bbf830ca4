import AvroColumns.Proofs.Outcome
import AvroColumns.Schema.Document

namespace AvroColumns

theorem RecordType.mem_of_find? {r : RecordType Schema} {name : String} {f : Field Schema}
    (h : r.find? name = some f) : f ∈ r.fields :=
  List.mem_reverse.mp (List.mem_of_find?_eq_some h)

namespace Schema

def parts : Schema → List Schema
  | .record r => r.fields.map (·.type)
  | .array items => [items]
  | .map values => [values]
  | .union members => members
  | _ => []

@[simp] theorem parts_record (r : RecordType Schema) :
    (record r).parts = r.fields.map (·.type) :=
  rfl

@[simp] theorem parts_array (items : Schema) : (array items).parts = [items] := rfl

@[simp] theorem parts_map (values : Schema) : (map values).parts = [values] := rfl

@[simp] theorem parts_union (members : List Schema) : (union members).parts = members := rfl

inductive Within : Schema → Schema → Prop
  | refl {s} : Within s s
  | part {s t u} : u ∈ t.parts → Within t s → Within u s

def definition? : Schema → Option Definition
  | .enum e => some (.enum e)
  | .fixed f => some (.fixed f)
  | .decimal _ _ (.fixed f) => some (.fixed f)
  | .record r => some (.record r)
  | _ => none

end Schema

namespace Definition

@[simp] theorem node_toSchema (d : Document) (D : Definition) : d.node D.toSchema = .ok D.node := by
  cases D <;> rfl

@[simp] theorem definition?_toSchema (D : Definition) : D.toSchema.definition? = some D := by
  cases D <;> rfl

@[simp] theorem name?_toSchema (D : Definition) : D.toSchema.name? = some D.name := by
  cases D <;> rfl

theorem toSchema_injective : Function.Injective toSchema := by
  intro D D' h
  simpa using congrArg Schema.definition? h

end Definition

namespace Schema

variable {s t u : Schema} {f : Field Schema} {fields : List (Field Schema)} {ss : List Schema}
  {D : Definition}

theorem Within.trans (h : Within u t) (h' : Within t s) : Within u s := by
  induction h with
  | refl => exact h'
  | part hp _ ih => exact .part hp (ih h')

theorem Within.eq_or_part (h : Within u s) : u = s ∨ ∃ t ∈ s.parts, Within u t := by
  induction h with
  | refl => exact .inl rfl
  | @part s t u hu ht ih =>
    rcases ih with rfl | ⟨t', ht', h⟩
    · exact .inr ⟨u, hu, .refl⟩
    · exact .inr ⟨t', ht', .part hu h⟩

theorem Within.of_parts_eq_nil (h : Within u s) (hs : s.parts = []) : u = s := by
  rcases h.eq_or_part with h | ⟨t, ht, -⟩
  · exact h
  · simp [hs] at ht

theorem within_field {r : RecordType Schema} (h : f ∈ r.fields) (hr : Within (.record r) s) :
    Within f.type s :=
  .part (List.mem_map_of_mem h) hr

@[simp] theorem mem_definitionsOfMembers :
    D ∈ definitionsOfMembers ss ↔ ∃ s ∈ ss, D ∈ s.definitions := by
  induction ss with
  | nil => simp [definitionsOfMembers]
  | cons s ss ih => simp [definitionsOfMembers, ih]

@[simp] theorem mem_definitionsOfFields :
    D ∈ definitionsOfFields fields ↔ ∃ f ∈ fields, D ∈ f.type.definitions := by
  induction fields with
  | nil => simp [definitionsOfFields]
  | cons f fields ih => simp [definitionsOfFields, ih]

theorem mem_definitions_iff_parts :
    D ∈ s.definitions ↔ s.definition? = some D ∨ ∃ t ∈ s.parts, D ∈ t.definitions := by
  cases s with
  | primitive p => simp [definitions, definition?, parts]
  | decimal precision scale c => cases c <;> simp [definitions, definition?, parts, eq_comm]
  | enum e => simp [definitions, definition?, parts, eq_comm]
  | fixed f => simp [definitions, definition?, parts, eq_comm]
  | record r => simp [definitions, definition?, parts, eq_comm]
  | array items => simp [definitions, definition?, parts]
  | map values => simp [definitions, definition?, parts]
  | union members => simp [definitions, definition?, parts]
  | ref name => simp [definitions, definition?, parts]

theorem Within.mem_definitions (h : Within u s) (hu : u.definition? = some D) :
    D ∈ s.definitions := by
  suffices D ∈ u.definitions by
    clear hu
    induction h with
    | refl => exact this
    | part hp _ ih => exact ih (mem_definitions_iff_parts.mpr (.inr ⟨_, hp, this⟩))
  exact mem_definitions_iff_parts.mpr (.inl hu)

theorem sizeOf_lt_of_mem_parts (h : t ∈ s.parts) : sizeOf t < sizeOf s := by
  cases s with
  | record r =>
    obtain ⟨f, hf, rfl⟩ := List.mem_map.mp h
    have := List.sizeOf_lt_of_mem hf
    cases r
    cases f
    simp only [record.sizeOf_spec, RecordType.mk.sizeOf_spec, Field.mk.sizeOf_spec] at this ⊢
    omega
  | array items => simp_all
  | map values => simp_all
  | union members =>
    have : sizeOf t < sizeOf members := List.sizeOf_lt_of_mem h
    simp only [union.sizeOf_spec]
    omega
  | _ => cases h

theorem parts_induction {P : Schema → Prop} (h : ∀ s : Schema, (∀ t ∈ s.parts, P t) → P s)
    (s : Schema) : P s :=
  (measure sizeOf).wf.induction s fun s ih => h s fun _ ht => ih _ (sizeOf_lt_of_mem_parts ht)

theorem exists_within_of_mem_definitions (h : D ∈ s.definitions) :
    ∃ u, Within u s ∧ u.definition? = some D := by
  induction s using parts_induction with
  | h s ih =>
    rcases mem_definitions_iff_parts.mp h with h | ⟨t, ht, h⟩
    · exact ⟨s, .refl, h⟩
    · obtain ⟨u, hu, hd⟩ := ih t ht h
      exact ⟨u, hu.trans (.part ht .refl), hd⟩

theorem definition?_eq_record {r : RecordType Schema} (h : u.definition? = some (.record r)) :
    u = .record r := by
  unfold definition? at h
  split at h <;> simp_all

theorem definition?_eq_enum {e : EnumType} (h : u.definition? = some (.enum e)) :
    u = .enum e := by
  unfold definition? at h
  split at h <;> simp_all

end Schema

namespace Node

def schema? : Node → Option Schema
  | .record r => some (.record r)
  | .map values => some (.map values)
  | .array items => some (.array items)
  | .union members => some (.union members)
  | .fixed f => some (.fixed f)
  | .leaf _ => none

def parts : Node → List Schema
  | .record r => r.fields.map (·.type)
  | .array items => [items]
  | .map values => [values]
  | .union members => members
  | _ => []

end Node

namespace Document

variable {d : Document} {name : TypeName} {s u : Schema} {t : Definition} {r : RecordType Schema}

@[simp] theorem follow_eq_ok_iff : d.follow name = .ok t ↔ d.definition? name.full = some t := by
  rw [follow]
  cases d.definition? name.full <;> simp

theorem mem_of_follow (h : d.follow name = .ok t) : t ∈ d.root.definitions := by
  rw [← d.definitions_eq]
  exact List.mem_reverse.mp (List.mem_of_find?_eq_some (follow_eq_ok_iff.mp h))

theorem full_of_follow (h : d.follow name = .ok t) : t.name.full = name.full := by
  have := List.find?_some (follow_eq_ok_iff.mp h)
  simpa using this

theorem exists_follow (ht : t ∈ d.root.definitions) (hn : t.name.full = name.full) :
    ∃ t', d.follow name = .ok t' := by
  have h : (d.definition? name.full).isSome := by
    rw [definition?, List.find?_isSome]
    refine ⟨t, ?_, by simpa using hn⟩
    rw [d.definitions_eq]
    exact List.mem_reverse.mpr ht
  obtain ⟨t', h⟩ := Option.isSome_iff_exists.mp h
  exact ⟨t', follow_eq_ok_iff.mpr h⟩

theorem within_of_follow (h : d.follow name = .ok (.record r)) :
    Schema.Within (.record r) d.root := by
  obtain ⟨u, hu, hd⟩ := Schema.exists_within_of_mem_definitions (mem_of_follow h)
  rwa [Schema.definition?_eq_record hd] at hu

theorem within_of_resolve (hs : s.Within d.root) (h : d.resolve s = .ok (.record r)) :
    Schema.Within (.record r) d.root := by
  cases s with
  | ref name =>
    obtain ⟨t, ht, h⟩ := Outcome.map_eq_ok_iff.mp h
    cases t with
    | record r' =>
      cases h
      exact within_of_follow ht
    | _ => cases h
  | record r' =>
    cases h
    exact hs
  | _ => cases h

theorem node_of_resolve (h : d.resolve s = .ok u) : d.node s = d.node u := by
  cases s with
  | ref name =>
    obtain ⟨t, ht, rfl⟩ := Outcome.map_eq_ok_iff.mp h
    rw [node, ht]
    cases t <;> rfl
  | _ =>
    cases h
    rfl

@[simp] theorem node_of_follow (h : d.follow name = .ok t) : d.node (.ref name) = .ok t.node := by
  rw [node, h]
  rfl

theorem resolve_of_node {n : Node} (h : d.node s = .ok n) (hu : n.schema? = some u) :
    d.resolve s = .ok u := by
  cases s with
  | ref name =>
    obtain ⟨t, ht, rfl⟩ := Outcome.map_eq_ok_iff.mp h
    rw [resolve, ht]
    cases t <;> cases hu <;> rfl
  | primitive | decimal | enum =>
    cases h
    cases hu
  | _ =>
    cases h
    cases hu
    rfl

theorem eq_of_node {n : Node} (h : d.node s = .ok n) (hu : n.schema? = some u) (hname : u.name? = none) :
    s = u := by
  have hs := resolve_of_node h hu
  cases s with
  | ref name =>
    obtain ⟨t, -, rfl⟩ := Outcome.map_eq_ok_iff.mp hs
    cases t <;> cases hname
  | _ =>
    cases hs
    rfl

theorem eq_union_of_node {members : List Schema} (h : d.node s = .ok (.union members)) :
    s = .union members :=
  eq_of_node h rfl rfl

theorem node_eq_error_iff {e : UnknownType} : d.node s = .error e ↔
    ∃ name, s = .ref name ∧ d.definition? name.full = none ∧ e = ⟨name.full⟩ := by
  cases s with
  | ref name =>
    rw [node, follow]
    cases hd : d.definition? name.full with
    | none => simp [hd, eq_comm]
    | some t => simp [hd]
  | _ => simp [node]

theorem within_of_node {n : Node} (hs : s.Within d.root) (hn : d.node s = .ok n) (hu : u ∈ n.parts) :
    u.Within d.root := by
  cases s with
  | ref name =>
    obtain ⟨t, ht, rfl⟩ := Outcome.map_eq_ok_iff.mp hn
    cases t with
    | record r =>
      refine .part ?_ (within_of_follow ht)
      exact hu
    | _ => cases hu
  | record | array | map | union =>
    cases hn
    refine .part ?_ hs
    exact hu
  | _ =>
    cases hn
    cases hu

end Document

end AvroColumns
