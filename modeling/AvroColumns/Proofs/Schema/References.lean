import Mathlib
import AvroColumns.Proofs.Schema.Scope

namespace AvroColumns

open Outcome

namespace Schema

def declared (text : String) : Known :=
  match Json.read? text with
  | some j =>
    match (Reading.schema (j.depth + 1) j "").run ⟨[], []⟩ with
    | .ok (_, scope) => scope.known
    | .error _ => []
  | none => []

def Declares (text : String) (n : TypeName) (t : Schema) : Prop :=
  ∃ m : TypeName, m.full = n.full ∧ (m, t) ∈ declared text

end Schema

namespace Document

open Schema (Declares Reads)

variable {text : String} {d : Document} {n : TypeName} {s t : Schema} {D : Definition}

theorem ofText_eq_ok (h : ofText text = .ok d) :
    ∃ j σ, Json.read? text = some j ∧
      (Schema.Reading.schema (j.depth + 1) j "").run ⟨[], []⟩ = .ok (d.root, σ) := by
  rw [ofText, Schema.ofText] at h
  cases hj : Json.read? text with
  | none => simp [hj] at h
  | some j =>
    simp only [hj, Schema.ofJson] at h
    cases hr : (Schema.Reading.schema (j.depth + 1) j "").run ⟨[], []⟩ with
    | error e => simp [hr] at h
    | ok p =>
      simp only [hr, Except.map_ok, Except.ok.injEq] at h
      exact ⟨j, p.2, rfl, h ▸ hr⟩

theorem ofText_of_run {j : Json} {σ : Schema.Scope} (hj : Json.read? text = some j)
    (hr : (Schema.Reading.schema (j.depth + 1) j "").run ⟨[], []⟩ = .ok (s, σ)) :
    ofText text = .ok (ofSchema s) ∧ Schema.declared text = σ.known := by
  rw [ofText, Schema.ofText, Schema.declared, hj]
  simp only [Schema.ofJson, hr, Except.map_ok, and_self]

theorem reads_ofText (h : ofText text = .ok d) :
    ∃ σ, Reads ⟨[], []⟩ [d.root] σ ∧ σ.known = Schema.declared text := by
  obtain ⟨j, σ, hj, hr⟩ := ofText_eq_ok h
  exact ⟨σ, Schema.Reading.reads_schema _ j "" ⟨[], []⟩ d.root σ hr, (ofText_of_run hj hr).2.symm⟩

theorem lawful_of_ofText (h : ofText text = .ok d) {u : Schema} (hu : u.Within d.root) :
    u.Lawful := by
  obtain ⟨σ, hr, -⟩ := reads_ofText h
  obtain ⟨-, -, hs⟩ := hr.sound Schema.Scope.sound_empty
  exact (hs _ List.mem_cons_self u hu).lawful

theorem exists_declares (h : ofText text = .ok d) (hn : (Schema.ref n).Within d.root) :
    ∃ t, Declares text n t := by
  obtain ⟨σ, hr, hk⟩ := reads_ofText h
  obtain ⟨-, -, hs⟩ := hr.sound Schema.Scope.sound_empty
  rcases (hs _ List.mem_cons_self _ hn).ref n rfl with ⟨t, ht⟩ | hb
  · exact ⟨t, n, rfl, hk ▸ ht⟩
  · exact absurd (hr.begun_subset hb) List.not_mem_nil

theorem declares_of_mem (h : ofText text = .ok d) (hD : D ∈ d.root.definitions) :
    Declares text D.name D.toSchema := by
  obtain ⟨σ, hr, hk⟩ := reads_ofText h
  obtain ⟨-, -, hs⟩ := hr.sound Schema.Scope.sound_empty
  obtain ⟨u, hu, hd⟩ := Schema.exists_within_of_mem_definitions hD
  exact ⟨D.name, rfl, hk ▸ (hs _ List.mem_cons_self u hu).definition D hd⟩

theorem defines_of_declares (h : ofText text = .ok d) (ht : Declares text n t) :
    d.root.Defines t := by
  obtain ⟨σ, hr, hk⟩ := reads_ofText h
  obtain ⟨m, -, hm⟩ := ht
  rcases hr.exists_defines (hk ▸ hm) with hm | ⟨s, hs, h⟩
  · cases hm
  · obtain rfl := List.mem_singleton.mp hs
    exact h

theorem follow_iff (h : ofText text = .ok d) (ht : ∀ t', Declares text n t' → t' = t) :
    d.follow n = .ok D ↔ D.toSchema = t ∧ D.name.full = n.full ∧ D ∈ d.root.definitions := by
  have hdecl {D' : Definition} (hn : D'.name.full = n.full) (hD : D' ∈ d.root.definitions) :
      D'.toSchema = t := by
    obtain ⟨m, hm, hk⟩ := declares_of_mem h hD
    exact ht _ ⟨m, hm.trans hn, hk⟩
  constructor
  · intro hf
    exact ⟨hdecl (full_of_follow hf) (mem_of_follow hf), full_of_follow hf, mem_of_follow hf⟩
  · rintro ⟨hD, hn, hmem⟩
    obtain ⟨D', hf⟩ := exists_follow hmem hn
    rw [hf, Definition.toSchema_injective (hD.trans (hdecl (full_of_follow hf) (mem_of_follow hf)).symm)]

theorem exists_toSchema (h : s.name?.isSome) : ∃ D : Definition, D.toSchema = s := by
  cases s with
  | enum e => exact ⟨.enum e, rfl⟩
  | fixed f => exact ⟨.fixed f, rfl⟩
  | record r => exact ⟨.record r, rfl⟩
  | _ => cases h

theorem node_ref_ne_leaf {f : FixedType} {kind : LeafKind} (h : ofText text = .ok d)
    (ht : ∀ t', Declares text n t' → t' = .fixed f) : d.node (.ref n) ≠ .ok (.leaf kind) := by
  intro he
  obtain ⟨D, hf, hD⟩ := map_eq_ok_iff.mp he
  obtain rfl : D = .fixed f := Definition.toSchema_injective ((follow_iff h ht).mp hf).1
  cases hD

theorem node_ref_iff (h : ofText text = .ok d) (ht : ∀ t', Declares text n t' → t' = t)
    (hs : s.Within d.root) (hst : s.StandsFor t) :
    d.node (.ref n) = d.node s ↔ ∃ m, s.name? = some m ∧ m.full = n.full := by
  cases hst with
  | itself hn =>
    obtain ⟨D, rfl⟩ := exists_toSchema hn
    have hD : D ∈ d.root.definitions := hs.mem_definitions D.definition?_toSchema
    simp only [Definition.name?_toSchema, Definition.node_toSchema, Option.some.injEq, exists_eq_left']
    constructor
    · intro he
      rw [node] at he
      obtain ⟨D', hf, -⟩ := map_eq_ok_iff.mp he
      rw [← Definition.toSchema_injective ((follow_iff h ht).mp hf).1]
      exact full_of_follow hf
    · intro hn
      exact node_of_follow ((follow_iff h ht).mpr ⟨rfl, hn, hD⟩)
  | decimal => exact iff_of_false (node_ref_ne_leaf h ht) (by rintro ⟨m, ⟨⟩, -⟩)
  | uuid => exact iff_of_false (node_ref_ne_leaf h ht) (by rintro ⟨m, ⟨⟩, -⟩)
  | duration => exact iff_of_false (node_ref_ne_leaf h ht) (by rintro ⟨m, ⟨⟩, -⟩)

/-- Every reference of a text names a type that the text declares. If the name was declared once, its
type is defined in the document, the reference leads to the type that is declared if a node still
shows it and bears the name, and it means the node where the type is defined exactly if that node bears
the name: not if the name is an alias, and not if the node is a logical type. -/
theorem reference_means_iff (h : ofText text = .ok d) (hn : (Schema.ref n).Within d.root) :
    (∃ t, Declares text n t) ∧
      ∀ t, Declares text n t → (∀ t', Declares text n t' → t' = t) →
        d.root.Defines t ∧
        (∀ D, d.follow n = .ok D ↔
          D.toSchema = t ∧ D.name.full = n.full ∧ D ∈ d.root.definitions) ∧
        ∀ s, s.Within d.root → s.StandsFor t →
          (d.node (.ref n) = d.node s ↔ ∃ m, s.name? = some m ∧ m.full = n.full) := by
  refine ⟨exists_declares h hn, ?_⟩
  intro t ht hu
  refine ⟨defines_of_declares h ht, fun D => follow_iff h hu, ?_⟩
  intro s hs hst
  exact node_ref_iff h hu hs hst

def linked : Json :=
  .obj [("fields", .arr [.obj [("name", .str "next"), ("type", .arr [.str "null", .str "L"])]]),
    ("name", .str "L"), ("type", .str "record")]

theorem linked_means :
    ∃ d, ofText linked.text = .ok d ∧ d.node (.ref ⟨"", "L"⟩) = d.node d.root := by
  let union := Schema.union [.primitive .null, .ref ⟨"", "L"⟩]
  let root := Schema.record ⟨⟨"", "L"⟩, [⟨"next", [], union, none⟩]⟩
  have hj : Json.read? linked.text = some linked := by cbv
  have hr : (Schema.Reading.schema (linked.depth + 1) linked "").run ⟨[], []⟩ =
      .ok (root, ⟨[(⟨"", "L"⟩, root)], []⟩) := by cbv
  obtain ⟨ht, hd⟩ := ofText_of_run hj hr
  have hunion : union.Within root := .part (t := root) List.mem_cons_self .refl
  have href : (Schema.ref ⟨"", "L"⟩).Within root :=
    .part (List.mem_cons_of_mem _ List.mem_cons_self) hunion
  have hroot : Declares linked.text ⟨"", "L"⟩ root := ⟨⟨"", "L"⟩, rfl, by simp [hd]⟩
  have huniq (t' : Schema) (h : Declares linked.text ⟨"", "L"⟩ t') : t' = root := by
    obtain ⟨m, -, hm⟩ := h
    rw [hd] at hm
    exact congrArg Prod.snd (List.mem_singleton.mp hm)
  refine ⟨ofSchema root, ht, ?_⟩
  apply (((reference_means_iff ht href).2 root hroot huniq).2.2 root .refl (.itself rfl)).mpr
  exact ⟨⟨"", "L"⟩, rfl, rfl⟩

def amounts : Json :=
  .arr [
    .obj [("aliases", .arr [.str "E"]), ("logicalType", .str "decimal"), ("name", .str "D"),
      ("precision", .int 5), ("scale", .int 2), ("size", .int 4), ("type", .str "fixed")],
    .obj [("items", .str "D"), ("type", .str "array")],
    .obj [("type", .str "map"), ("values", .str "E")]]

set_option maxRecDepth 2000 in
theorem amounts_means_other :
    ∃ d, ofText amounts.text = .ok d ∧
      d.root = .union [.decimal 5 2 (.fixed ⟨⟨"", "D"⟩, 4⟩), .array (.ref ⟨"", "D"⟩),
        .map (.ref ⟨"", "E"⟩)] ∧
      Declares amounts.text ⟨"", "D"⟩ (.fixed ⟨⟨"", "D"⟩, 4⟩) ∧
      Declares amounts.text ⟨"", "E"⟩ (.fixed ⟨⟨"", "D"⟩, 4⟩) ∧
      d.node (.decimal 5 2 (.fixed ⟨⟨"", "D"⟩, 4⟩)) = .ok (.leaf (.decimal 2)) ∧
      d.node (.ref ⟨"", "D"⟩) = .ok (.fixed ⟨⟨"", "D"⟩, 4⟩) ∧
      d.node (.ref ⟨"", "E"⟩) = .error ⟨"E"⟩ := by
  let block := Schema.fixed ⟨⟨"", "D"⟩, 4⟩
  let root := Schema.union [.decimal 5 2 (.fixed ⟨⟨"", "D"⟩, 4⟩), .array (.ref ⟨"", "D"⟩),
    .map (.ref ⟨"", "E"⟩)]
  have hj : Json.read? amounts.text = some amounts := by cbv
  have hr : (Schema.Reading.schema (amounts.depth + 1) amounts "").run ⟨[], []⟩ =
      .ok (root, ⟨[(⟨"", "E"⟩, block), (⟨"", "D"⟩, block)], []⟩) := by cbv
  obtain ⟨ht, hd⟩ := ofText_of_run hj hr
  refine ⟨ofSchema root, ht, rfl, ⟨⟨"", "D"⟩, rfl, ?_⟩, ⟨⟨"", "E"⟩, rfl, ?_⟩, rfl, ?_, ?_⟩
  · simp [hd, block]
  · simp [hd, block]
  · cbv
  · cbv

end Document

end AvroColumns
