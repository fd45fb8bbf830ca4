import AvroColumns.Proofs.Datum.Typing
import AvroColumns.Proofs.Schema.Scope
import AvroColumns.Proofs.Walk.OwnDefault
import Mathlib.Data.List.Nodup

namespace AvroColumns

def Walk.Fault.isAstray : Walk.Fault → Bool
  | .unresolved .. | .missing _ | .incompatible .. => true
  | .conversion _ | .unknownType _ => false

def Node.inside? (n : Node) (step : Segment) : Option (List Schema) :=
  match n, step with
  | .record r, .member name =>
    if (r.find? name).isSome then some ((r.fields.filter (·.name == name)).map (·.type)) else none
  | .map values, step => step.entryKey?.map fun _ => [values]
  | .array items, step => step.itemIndex?.map fun i => if i < 0 then [] else [items]
  | _, _ => none

theorem Node.mem_parts (n : Node) {step : Segment} {inside : List Schema} {u : Schema}
    (hi : n.inside? step = some inside) (hu : u ∈ inside) : u ∈ n.parts := by
  cases n with
  | record r =>
    cases step with
    | member name =>
      rw [inside?] at hi
      split at hi
      next =>
        cases hi
        obtain ⟨f, hf, rfl⟩ := List.mem_map.mp hu
        exact List.mem_map_of_mem (List.mem_filter.mp hf).1
      next => cases hi
    | _ => cases hi
  | map values =>
    obtain ⟨key, -, rfl⟩ := Option.map_eq_some_iff.mp hi
    exact hu
  | array items =>
    obtain ⟨i, -, rfl⟩ := Option.map_eq_some_iff.mp hi
    split at hu
    next => cases hu
    next => exact hu
  | _ => cases step <;> cases hi

theorem Document.Branch.within {d : Document} {s t : Schema} (h : d.Branch s t)
    (hs : s.Within d.root) : t.Within d.root := by
  induction h with
  | refl => exact hs
  | member hn hm _ ih => exact ih (within_of_node hs hn hm)

namespace Datum

namespace Typed

variable {d : Document} {s t : Schema} {v : Datum} {n : Node}

theorem of_node_record {r : RecordType Schema} (hv : Typed d s v) (hn : d.node s = .ok (.record r)) :
    ∃ members, v = .record members ∧ members.map (·.1) = r.fields.map (·.name) ∧
      ∀ p ∈ r.fields.zip members, Typed d p.1.type p.2.2 := by
  obtain ⟨t, hs, ht⟩ := hv.resolve
  cases hs.symm.trans (Document.resolve_of_node hn rfl)
  cases ht with
  | record hn h => exact ⟨_, rfl, hn, h⟩

theorem of_node_map {values : Schema} (hv : Typed d s v) (hn : d.node s = .ok (.map values)) :
    ∃ entries, v = .map entries ∧ ∀ e ∈ entries, Typed d values e.2 := by
  obtain ⟨t, hs, ht⟩ := hv.resolve
  cases hs.symm.trans (Document.resolve_of_node hn rfl)
  cases ht with
  | map h => exact ⟨_, rfl, h⟩

theorem of_node_array {items : Schema} (hv : Typed d s v) (hn : d.node s = .ok (.array items)) :
    ∃ vs, v = .array vs ∧ ∀ w ∈ vs, Typed d items w := by
  obtain ⟨t, hs, ht⟩ := hv.resolve
  cases hs.symm.trans (Document.resolve_of_node hn rfl)
  cases ht with
  | array h => exact ⟨_, rfl, h⟩

theorem exists_node (hv : Typed d s v) : ∃ n, d.node s = .ok n := by
  cases hv with
  | ref hD h => exact ⟨_, Document.node_of_follow hD⟩
  | _ => exact ⟨_, rfl⟩

theorem isTagged_iff (hv : Typed d s v) : v.isTagged ↔ ∃ members, s = .union members := by
  cases hv with
  | @primitive p v h => cases p <;> cases v <;> simp_all [Primitive.Holds, isTagged]
  | @ref _ D _ hD h => cases D <;> cases h <;> simp [isTagged]
  | _ => simp [isTagged]

end Typed

end Datum

namespace Document

/-- No member of a record is hidden by the alias of a later member of another type. -/
def Unshadowed (d : Document) : Prop :=
  ∀ r, .record r ∈ d.definitions → ∀ f ∈ r.fields, ∀ e, r.find? f.name = some e → e.type = f.type

theorem Unshadowed.of_node {d : Document} (h : d.Unshadowed) {s : Schema} (hs : s.Within d.root)
    {r : RecordType Schema} (hn : d.node s = .ok (.record r)) {f e : Field Schema} (hf : f ∈ r.fields)
    (he : r.find? f.name = some e) : e.type = f.type := by
  refine h r ?_ f hf e he
  rw [d.definitions_eq]
  exact (within_of_resolve hs (resolve_of_node hn rfl)).mem_definitions rfl

end Document

namespace Guide

open Datum

variable {g : Guide} {s t : Schema} {v w : Datum} {n : Node} {step : Segment} {inside : List Schema}
  {isLast : Bool} {fallback : Option Schema}

theorem settle_untagged (hv : Typed g.document s v) (ht : v.isTagged = false) (place : String) :
    g.settle place s v = .ok (s, v) := by
  obtain ⟨n, hn⟩ := hv.exists_node
  refine Settled.settle ⟨ht, n, node_eq_ok_iff.mpr hn, ?_⟩ place
  rintro members rfl
  have := hv.isTagged_iff.mpr ⟨members, Document.eq_union_of_node hn⟩
  simp [ht] at this

theorem settle_union {members : List Schema} {i : Nat} (hi : members[i]? = some t) (place : String) :
    g.settle place (.union members) (.union i v) = g.settle place t v := by
  have hb : g.document.branch? members (.union i v) = some (t, v) :=
    Document.branch?_eq_some_iff.mpr (.inl ⟨i, rfl, hi⟩)
  exact settle_of_branch? rfl hb place

theorem settle_typed (hv : Typed g.document s v) :
    ∃ t w, (∀ place, g.settle place s v = .ok (t, w)) ∧ g.document.Branch s t ∧
      Typed g.document t w ∧ w.isTagged = false := by
  have self {s v} (hv : Typed g.document s v) (hs : ∀ members, s ≠ .union members) :
      ∃ t w, (∀ place, g.settle place s v = .ok (t, w)) ∧ g.document.Branch s t ∧
        Typed g.document t w ∧ w.isTagged = false := by
    have ht : v.isTagged = false := by
      rw [← Bool.not_eq_true, hv.isTagged_iff]
      rintro ⟨members, h⟩
      exact hs members h
    exact ⟨s, v, settle_untagged hv ht, .refl, hv, ht⟩
  induction hv with
  | union hi _ ih =>
    obtain ⟨t, w, hw, hb, ht⟩ := ih
    exact ⟨t, w, fun place => (settle_union hi place).trans (hw place),
      .member rfl (List.mem_of_getElem? hi) hb, ht⟩
  | primitive h => exact self (.primitive h) nofun
  | decimal => exact self .decimal nofun
  | enum h => exact self (.enum h) nofun
  | fixed h => exact self (.fixed h) nofun
  | array h => exact self (.array h) nofun
  | map h => exact self (.map h) nofun
  | record hn h => exact self (.record hn h) nofun
  | ref hD h => exact self (.ref hD h) nofun

theorem exists_settle (hb : g.document.Branch s t) (hw : Typed g.document t w)
    (ht : w.isTagged = false) :
    ∃ v, Typed g.document s v ∧ ∀ place, g.settle place s v = .ok (t, w) := by
  induction hb with
  | refl => exact ⟨w, hw, settle_untagged hw ht⟩
  | member hn hm _ ih =>
    obtain ⟨v, hv, hs⟩ := ih hw
    obtain ⟨i, hi⟩ := List.mem_iff_getElem?.mp hm
    rw [Document.eq_union_of_node hn]
    exact ⟨.union i v, .union hi hv, fun place => (settle_union hi place).trans (hs place)⟩

theorem mem_inside {r : RecordType Schema} {f : Field Schema} (hf : f ∈ r.fields) :
    f.type ∈ (r.fields.filter (·.name == f.name)).map (·.type) :=
  List.mem_map_of_mem (List.mem_filter.mpr ⟨hf, by simp⟩)

/-- The step comes to nothing, or goes on to a value of one of the schemas. -/
def Proceeds (g : Guide) (inside : List Schema) (o : Except Walk.Fault Walk.Step) : Prop :=
  o = .ok (.ended .absent) ∨
    ∃ q, o = .ok (.onward q) ∧ q.schema ∈ inside ∧ Typed g.document q.schema q.value

theorem toMember_proceeds {r : RecordType Schema} {place name : String} (hw : Typed g.document t w)
    (hn : g.document.node t = .ok (.record r)) (hf : (r.find? name).isSome)
    (hu : ∀ f ∈ r.fields, ∀ e, r.find? f.name = some e → e.type = f.type) :
    g.Proceeds ((r.fields.filter (·.name == name)).map (·.type))
      (g.toMember isLast place name r w fallback) := by
  obtain ⟨members, rfl, hnames, hm⟩ := hw.of_node_record hn
  obtain ⟨e, he⟩ := Option.isSome_iff_exists.mp hf
  rw [toMember_of_find? he]
  cases hl : Datum.lookup name members with
  | none =>
    left
    simp only [hl]
  | some v =>
    obtain ⟨f, hz, hname⟩ := exists_zip_of_mem hnames (lookup_mem hl)
    cases hname
    have htype : e.type = f.type := hu f (List.of_mem_zip hz).1 e he
    right
    simp only [hl]
    refine ⟨_, rfl, ?_, ?_⟩
    · rw [htype]
      exact mem_inside (List.of_mem_zip hz).1
    · rw [htype]
      exact hm _ hz

theorem toEntry_proceeds {values : Schema} {place key : String} (hw : Typed g.document t w)
    (hn : g.document.node t = .ok (.map values)) :
    g.Proceeds [values] (g.toEntry place key values w fallback) := by
  obtain ⟨entries, rfl, he⟩ := hw.of_node_map hn
  rw [toEntry]
  cases hl : Datum.lookup key entries with
  | none => exact .inl rfl
  | some v => exact .inr ⟨_, rfl, List.mem_singleton.mpr rfl, he _ (lookup_mem hl)⟩

theorem toItem_proceeds {items : Schema} {place : String} {i : Int} (hw : Typed g.document t w)
    (hn : g.document.node t = .ok (.array items)) :
    g.Proceeds (if i < 0 then [] else [items]) (g.toItem place i items w fallback) := by
  obtain ⟨vs, rfl, hvs⟩ := hw.of_node_array hn
  rw [toItem]
  by_cases hi : i < 0
  · simp only [if_pos hi]
    exact .inl rfl
  · simp only [if_neg hi]
    cases hv : vs[i.toNat]? with
    | none => exact .inl rfl
    | some v =>
      exact .inr ⟨_, rfl, List.mem_singleton.mpr rfl, hvs v (List.mem_of_getElem? hv)⟩

theorem along_proceeds (hu : g.document.Unshadowed) (ht : t.Within g.document.root)
    (hw : Typed g.document t w) (hn : g.document.node t = .ok n) (hi : n.inside? step = some inside) :
    g.Proceeds inside (g.along isLast step n w fallback) := by
  cases n with
  | record r =>
    cases step with
    | member name =>
      rw [Node.inside?] at hi
      split at hi
      next hf =>
        cases hi
        exact toMember_proceeds hw hn hf fun f hf e he => hu.of_node ht hn hf he
      next => cases hi
    | _ => cases hi
  | map values =>
    obtain ⟨key, hk, rfl⟩ := Option.map_eq_some_iff.mp hi
    rw [along_entry hk]
    exact toEntry_proceeds hw hn
  | array items =>
    obtain ⟨i, hk, rfl⟩ := Option.map_eq_some_iff.mp hi
    rw [along_item hk]
    exact toItem_proceeds hw hn
  | _ => cases step <;> cases hi

theorem along_astray (ht : g.tolerant = false) (hd : g.defaults = none) (hi : n.inside? step = none) :
    ∃ fault, g.along isLast step n v fallback = .error fault ∧ fault.isAstray := by
  cases meets step n with
  | wildcard => exact ⟨_, rfl, rfl⟩
  | @member name r =>
    have hf : r.find? name = none := by
      rw [Node.inside?] at hi
      split at hi
      next => cases hi
      next hf => simpa using hf
    have hs : g.standIn? (g.defaultRecord? fallback) name = .ok none := by simp [standIn?, hd]
    refine ⟨.missing (Segment.member name).text, ?_, rfl⟩
    rw [along, toMember_of_lacking hf, hs, ht]
    cases isLast <;> rfl
  | entry hk => simp [Node.inside?, hk] at hi
  | item hk => simp [Node.inside?, hk] at hi
  | mismatch _ hm => exact ⟨_, hm g isLast v fallback, rfl⟩

theorem exists_record {r : RecordType Schema} (hnd : (r.fields.map (·.name)).Nodup)
    (hw : Typed g.document t w) (hn : g.document.node t = .ok (.record r)) {f : Field Schema}
    (hf : f ∈ r.fields) (hv : Typed g.document f.type v) :
    ∃ members, Typed g.document t (.record members) ∧ Datum.lookup f.name members = some v := by
  obtain ⟨members, rfl, hnames, hm⟩ := hw.of_node_record hn
  let change (m : String × Datum) := if m.1 = f.name then (f.name, v) else m
  have hnames' : (members.map change).map (·.1) = r.fields.map (·.name) := by
    rw [← hnames, List.map_map]
    apply List.map_congr_left
    intro m _
    by_cases h : m.1 = f.name <;> simp [change, h]
  refine ⟨members.map change, ?_, ?_⟩
  · apply Typed.of_resolve (Document.resolve_of_node hn rfl)
    apply Typed.record hnames'
    intro p hp
    rw [List.zip_map_right] at hp
    obtain ⟨⟨e, m⟩, hz, rfl⟩ := List.mem_map.mp hp
    have hname : m.1 = e.name := name_of_mem_zip hnames hz
    by_cases h : m.1 = f.name
    · have he : e = f := List.inj_on_of_nodup_map hnd (List.of_mem_zip hz).1 hf (hname.symm.trans h)
      simpa [change, h, he] using hv
    · simpa [change, h] using hm _ hz
  · apply lookup_of_mem (hnames' ▸ hnd)
    have hmem : f.name ∈ members.map (·.1) := by
      rw [hnames]
      exact List.mem_map_of_mem hf
    obtain ⟨m, hm, hname⟩ := List.mem_map.mp hmem
    exact List.mem_map.mpr ⟨m, hm, by simp [change, hname]⟩

theorem exists_onward (hu : g.document.Unshadowed)
    (hl : ∀ u : Schema, u.Within g.document.root → u.Lawful) (ht : t.Within g.document.root)
    (hw : Typed g.document t w) (hn : g.document.node t = .ok n) (hi : n.inside? step = some inside)
    (hs : s ∈ inside) (hv : Typed g.document s v) :
    ∃ w', Typed g.document t w' ∧ w'.isTagged = false ∧ w'.isNull = false ∧
      ∀ fallback, ∃ fallback', g.Onward fallback step n w' ⟨v, s, fallback'⟩ := by
  cases n with
  | record r =>
    cases step with
    | member name =>
      have hr := Document.within_of_resolve ht (Document.resolve_of_node hn rfl)
      rw [Node.inside?] at hi
      split at hi
      next hf =>
        cases hi
        obtain ⟨f, hm, rfl⟩ := List.mem_map.mp hs
        obtain ⟨hf', hname⟩ := List.mem_filter.mp hm
        cases eq_of_beq hname
        obtain ⟨e, he⟩ := Option.isSome_iff_exists.mp hf
        obtain ⟨members, hw', hl'⟩ :=
          exists_record (Schema.nodup_of_duplicateField? (hl _ hr).2.1).1 hw hn hf' hv
        refine ⟨_, hw', rfl, rfl, ?_⟩
        intro fallback
        rw [← hu.of_node ht hn hf' he]
        exact ⟨_, .member he hl'⟩
      next => cases hi
    | _ => cases hi
  | map values =>
    obtain ⟨key, hk, rfl⟩ := Option.map_eq_some_iff.mp hi
    obtain rfl := List.mem_singleton.mp hs
    refine ⟨.map [(key, v)], ?_, rfl, rfl, fun fallback => ⟨_, .entry hk (by simp [lookup])⟩⟩
    apply Typed.of_resolve (Document.resolve_of_node hn rfl)
    exact .map (List.forall_mem_singleton.mpr hv)
  | array items =>
    obtain ⟨i, hk, rfl⟩ := Option.map_eq_some_iff.mp hi
    by_cases h : i < 0
    · simp [h] at hs
    · rw [if_neg h] at hs
      obtain rfl := List.mem_singleton.mp hs
      have hitem : (List.replicate (i.toNat + 1) v)[i.toNat]? = some v := by simp
      refine ⟨.array (List.replicate (i.toNat + 1) v), ?_, rfl, rfl,
        fun fallback => ⟨_, .item hk (by omega) hitem⟩⟩
      apply Typed.of_resolve (Document.resolve_of_node hn rfl)
      apply Typed.array
      intro w hw
      exact (List.mem_replicate.mp hw).2 ▸ hv
  | _ => cases step <;> cases hi

end Guide

end AvroColumns
