import AvroColumns.Proofs.Schema.References
import AvroColumns.Proofs.Walk.Crossing

namespace AvroColumns.Guide

open Outcome Datum

/-- The value at a position has nothing for the segments before it. -/
inductive Void (g : Guide) (q : Position) : List Segment → Prop
  | null {place schema v rest} : g.settle place q.schema q.value = .ok (schema, v) →
      v.isNull → Void g q rest
  | entry {s rest schema values entries key} :
      g.settle s.text q.schema q.value = .ok (schema, .map entries) →
      g.node schema = .ok (.map values) → s.entryKey? = some key → Datum.lookup key entries = none →
      Void g q (s :: rest)
  | item {s rest schema items vs} {i : Int} : g.settle s.text q.schema q.value = .ok (schema, .array vs) →
      g.node schema = .ok (.array items) → s.itemIndex? = some i → i < 0 ∨ vs.length ≤ i →
      Void g q (s :: rest)

/-- The position is at a record whose schema has a member of the name while the value has none. -/
inductive Unborne (g : Guide) (q : Position) : List Segment → Prop
  | intro {name rest schema r f members} :
      g.settle (Segment.member name).text q.schema q.value = .ok (schema, .record members) →
      g.node schema = .ok (.record r) → r.find? name = some f → Datum.lookup name members = none →
      Unborne g q (.member name :: rest)

/-- The segments lead to a position at which the value has nothing for the others. -/
def LeadsToVoid (g : Guide) (p : Position) (segments : List Segment) : Prop :=
  ∃ before rest q, segments = before ++ rest ∧ g.Leads p before q ∧ g.Void q rest

/-- The segments lead to a record of which no member bears the name that comes next. -/
def LeadsToUnborne (g : Guide) (p : Position) (segments : List Segment) : Prop :=
  ∃ before rest q, segments = before ++ rest ∧ g.Leads p before q ∧ g.Unborne q rest

variable {g : Guide} {p q : Position} {s previous previous' : Segment}
  {segments before rest : List Segment} {n : Node} {schema : Schema} {v : Datum} {isLast : Bool}
  {fallback : Option Schema} {name : String} {r : RecordType Schema}
  {members : List (String × Datum)} {d : Document} {text : String} {j : Json}

theorem toEntry_absent_iff {place key : String} {values : Schema} :
    g.toEntry place key values v fallback = .ok (.ended .absent) ↔
      ∃ entries, v = .map entries ∧ Datum.lookup key entries = none := by
  cases v with
  | map entries => cases hl : Datum.lookup key entries <;> simp [toEntry, hl]
  | _ => simp [toEntry]

theorem toItem_absent_iff {place : String} {i : Int} {items : Schema} :
    g.toItem place i items v fallback = .ok (.ended .absent) ↔
      ∃ vs, v = .array vs ∧ (i < 0 ∨ vs.length ≤ i) := by
  cases v with
  | array vs =>
    rw [toItem]
    by_cases hi : i < 0
    · simp [hi]
    · cases hv : vs[i.toNat]? with
      | none =>
        have := List.getElem?_eq_none_iff.mp hv
        simp only [if_neg hi, true_iff]
        exact ⟨vs, rfl, .inr (by omega)⟩
      | some w =>
        have := (List.getElem?_eq_some_iff.mp hv).1
        simp [hi]
        omega
  | _ => simp [toItem]

theorem toMember_missing {place : String} (ht : g.tolerant = false) (hd : g.defaults = none)
    (hf : r.find? name = none) :
    g.toMember isLast place name r v fallback = .error (.missing place) := by
  rw [toMember_of_lacking hf, ht]
  cases isLast <;> simp [standIn?, hd]

theorem toMember_absent_iff {place : String} (ht : g.tolerant = false) (hd : g.defaults = none) :
    g.toMember isLast place name r v fallback = .ok (.ended .absent) ↔
      ∃ f members, v = .record members ∧ r.find? name = some f ∧ Datum.lookup name members = none := by
  cases hf : r.find? name with
  | none => simp [toMember_missing ht hd hf]
  | some f =>
    rw [toMember_of_find? hf]
    cases v with
    | record members => cases hl : Datum.lookup name members <;> simp [hl]
    | _ => simp

theorem void_or_unborne_of_along (ht : g.tolerant = false) (hd : g.defaults = none)
    (hs : g.settle s.text q.schema q.value = .ok (schema, v)) (hn : g.node schema = .ok n)
    (h : g.along isLast s n v fallback = .ok (.ended .absent)) :
    g.Void q (s :: rest) ∨ g.Unborne q (s :: rest) := by
  cases meets s n with
  | wildcard => cases h
  | member =>
    obtain ⟨f, members, rfl, hf, hl⟩ := (toMember_absent_iff ht hd).mp h
    exact .inr (.intro hs hn hf hl)
  | entry hk =>
    rw [along_entry hk] at h
    obtain ⟨entries, rfl, hl⟩ := toEntry_absent_iff.mp h
    exact .inl (.entry hs hn hk hl)
  | item hi =>
    rw [along_item hi] at h
    obtain ⟨vs, rfl, hi'⟩ := toItem_absent_iff.mp h
    exact .inl (.item hs hn hi hi')
  | mismatch _ hm =>
    rw [hm] at h
    cases h

theorem void_or_unborne_of_step (ht : g.tolerant = false) (hd : g.defaults = none)
    (h : g.step isLast s q = .ok (.ended .absent)) : g.Void q (s :: rest) ∨ g.Unborne q (s :: rest) := by
  obtain ⟨schema, v, hs, ⟨hv, -⟩ | ⟨-, n, hn, ha⟩⟩ := step_eq_ok_iff.mp h
  · exact .inl (.null hs hv)
  · exact void_or_unborne_of_along ht hd hs hn ha

theorem Void.walkFrom (h : g.Void q rest) (previous : Segment) :
    g.walkFrom previous rest q = .ok .absent := by
  cases h with
  | @null place schema v _ hs hv =>
    cases rest with
    | nil => simp [Guide.walkFrom, arrive, settle_of_place _ hs, hv]
    | cons s rest => simp [step, settle_of_place s.text hs, hv]
  | entry hs hn hk hl =>
    rw [walkFrom_cons, step_of_settle hs rfl hn, along_entry hk, toEntry_absent_iff.mpr ⟨_, rfl, hl⟩]
    rfl
  | item hs hn hk hi =>
    rw [walkFrom_cons, step_of_settle hs rfl hn, along_item hk, toItem_absent_iff.mpr ⟨_, rfl, hi⟩]
    rfl

theorem Unborne.walkFrom (h : g.Unborne q rest) (previous : Segment) :
    g.walkFrom previous rest q = .ok .absent := by
  obtain ⟨hs, hn, hf, hl⟩ := h
  rw [walkFrom_cons, step_of_settle hs rfl hn]
  simp [along, toMember_of_find? hf, hl]

theorem Leads.walkFrom_ok {w : Walk} (h : g.Leads p before q)
    (hw : g.walkFrom previous rest q = .ok w) : g.walkFrom previous' (before ++ rest) p = .ok w := by
  induction h generalizing previous' with
  | nil => exact walkFrom_of_previous hw
  | cons hs _ ih =>
    rw [List.cons_append, walkFrom_of_onward (step_of_onward _ hs)]
    exact ih hw

theorem walkFrom_absent_iff (ht : g.tolerant = false) (hd : g.defaults = none) :
    g.walkFrom previous segments p = .ok .absent ↔
      g.LeadsToVoid p segments ∨ g.LeadsToUnborne p segments := by
  constructor
  · intro h
    induction segments generalizing previous p with
    | nil =>
      simp only [walkFrom, arrive, bind_eq_ok_iff, Prod.exists] at h
      obtain ⟨schema, v, hs, h⟩ := h
      cases hv : v.isNull with
      | true => exact .inl ⟨[], [], p, rfl, .nil, .null hs hv⟩
      | false => simp [hv] at h
    | cons s rest ih =>
      rw [walkFrom_cons] at h
      obtain ⟨o, hs, h⟩ := bind_eq_ok_iff.mp h
      cases o with
      | ended w =>
        cases h
        have hend : g.Void p (s :: rest) ∨ g.Unborne p (s :: rest) := void_or_unborne_of_step ht hd hs
        rcases hend with hvoid | hun
        · exact .inl ⟨[], _, p, rfl, .nil, hvoid⟩
        · exact .inr ⟨[], _, p, rfl, .nil, hun⟩
      | onward q =>
        replace hs := step_of_onward false hs
        rcases ih h with ⟨before, rest, r, rfl, hl, hr⟩ | ⟨before, rest, r, rfl, hl, hr⟩
        · exact .inl ⟨s :: before, rest, r, rfl, .cons hs hl, hr⟩
        · exact .inr ⟨s :: before, rest, r, rfl, .cons hs hl, hr⟩
  · rintro (⟨before, rest, q, rfl, hl, h⟩ | ⟨before, rest, q, rfl, hl, h⟩)
    · exact hl.walkFrom_ok (h.walkFrom .wildcard)
    · exact hl.walkFrom_ok (h.walkFrom .wildcard)

theorem exists_borne {f : Field Schema} (hw : Typed g.document schema (.record members))
    (hn : g.document.node schema = .ok (.record r)) (hnd : (r.fields.map (·.name)).Nodup)
    (hf : f ∈ r.fields) :
    ∃ w, (f, f.name, w) ∈ r.fields.zip members ∧ Datum.lookup f.name members = some w := by
  obtain ⟨_, ⟨⟩, hnames, -⟩ := hw.of_node_record hn
  have hmem : f.name ∈ members.map (·.1) := by
    rw [hnames]
    exact List.mem_map_of_mem hf
  obtain ⟨⟨key, w⟩, hm, hkey⟩ := List.mem_map.mp hmem
  cases hkey
  obtain ⟨f', hz, hf'⟩ := exists_zip_of_mem hnames hm
  cases List.inj_on_of_nodup_map hnd (List.of_mem_zip hz).1 hf hf'
  exact ⟨w, hz, lookup_of_mem (hnames ▸ hnd) hm⟩

theorem step_member_of_mem (hd : g.defaults = none) {f e : Field Schema}
    (hw : Typed g.document schema (.record members)) (hnd : (r.fields.map (·.name)).Nodup)
    (hs : g.settle (Segment.member name).text q.schema q.value = .ok (schema, .record members))
    (hn : g.node schema = .ok (.record r)) (he : r.find? name = some e) (hf : f ∈ r.fields)
    (hname : f.name = name) :
    ∃ w, (f, name, w) ∈ r.fields.zip members ∧
      ∀ isLast, g.step isLast (.member name) q = .ok (.onward ⟨w, e.type, none⟩) := by
  subst hname
  obtain ⟨w, hz, hl⟩ := exists_borne hw (node_eq_ok_iff.mp hn) hnd hf
  obtain ⟨fallback, ho⟩ : ∃ fallback, g.Onward (q.fallback.bind g.defaultContainer?) (.member f.name)
      (.record r) (.record members) ⟨w, e.type, fallback⟩ :=
    ⟨_, .member he hl⟩
  obtain rfl : fallback = none := ho.fallback_eq_none hd
  exact ⟨w, hz, fun isLast => step_onward_iff.mpr ⟨schema, _, _, hs, rfl, hn, ho⟩⟩

theorem lookup_eq_none (hw : Typed g.document schema (.record members))
    (hn : g.node schema = .ok (.record r)) (hf : ∀ f ∈ r.fields, f.name ≠ name) :
    Datum.lookup name members = none := by
  obtain ⟨_, ⟨⟩, hnames, -⟩ := hw.of_node_record (node_eq_ok_iff.mp hn)
  rw [Option.eq_none_iff_forall_not_mem]
  intro w hl
  obtain ⟨f, hz, hname⟩ := exists_zip_of_mem hnames (lookup_mem hl)
  exact hf f (List.of_mem_zip hz).1 hname

/-- No name among the segments is the alias of a member anywhere in the document. -/
def OwnNames (d : Document) (segments : List Segment) : Prop :=
  ∀ r, .record r ∈ d.definitions → ∀ name, .member name ∈ segments →
    ∀ e, r.find? name = some e → e.name = name

theorem OwnNames.of_node (h : OwnNames d segments) (hs : schema.Within d.root)
    (hn : d.node schema = .ok (.record r)) (hm : .member name ∈ segments) {e : Field Schema}
    (he : r.find? name = some e) : e.name = name := by
  refine h r ?_ name hm e he
  rw [d.definitions_eq]
  exact (Document.within_of_resolve hs (Document.resolve_of_node hn rfl)).mem_definitions rfl

theorem nodup_of_node (hl : ∀ u : Schema, u.Within d.root → u.Lawful) (hs : schema.Within d.root)
    (hn : d.node schema = .ok (.record r)) : (r.fields.map (·.name)).Nodup :=
  have hr := Document.within_of_resolve hs (Document.resolve_of_node hn rfl)
  (Schema.nodup_of_duplicateField? (hl _ hr).2.1).1

theorem OwnNames.not_crossesTo (h : OwnNames g.document segments)
    (hl : ∀ u : Schema, u.Within g.document.root → u.Lawful) :
    ¬ g.CrossesTo segments (g.start v) s rest q := by
  rintro ⟨before, p, rfl, hleads, hc⟩
  obtain ⟨f, e, schema, r, rfl, hb, hn, hf, he, htype⟩ := hc.exists_taken
  have hwithin := hb.within (hleads.within_root .refl)
  have hname := h.of_node hwithin hn (List.mem_append_right _ List.mem_cons_self) he
  exact htype (congrArg (·.type) (List.inj_on_of_nodup_map (nodup_of_node hl hwithin hn) hf
    (RecordType.mem_of_find? he) hname.symm))

theorem OwnNames.not_leadsToUnborne (h : OwnNames g.document segments)
    (hl : ∀ u : Schema, u.Within g.document.root → u.Lawful)
    (hv : Typed g.document g.document.root v) : ¬ g.LeadsToUnborne (g.start v) segments := by
  rintro ⟨before, rest, q, rfl, hleads, hun⟩
  obtain ⟨hs, hn, hf, hlook⟩ := hun
  have hbefore : OwnNames g.document before := fun r hr name hm =>
    h r hr name (List.mem_append_left _ hm)
  rcases leads_typed (p := g.start v) hv hleads with hq | ⟨s, rest, r, hc⟩
  · have hwithin := (settle_branch hs).within (hleads.within_root .refl)
    rw [node_eq_ok_iff] at hn
    have hname := h.of_node hwithin hn (List.mem_append_right _ List.mem_cons_self) hf
    obtain ⟨w, -, hborne⟩ := exists_borne (settle_eq_of_typed hq hs).1 hn
      (nodup_of_node hl hwithin hn) (RecordType.mem_of_find? hf)
    rw [hname, hlook] at hborne
    cases hborne
  · exact hbefore.not_crossesTo hl hc

/-- What a strict walk without a default schema has nothing for. Names that are only aliases of members
come to nothing although the schema knows them. -/
theorem absent_iff (ht : Document.ofText text = .ok d) (hj : d.decode j = .ok v) :
    let g : Guide := ⟨d, none, false⟩
    (∀ segments, g.walk segments (g.start v) = .ok .absent ↔
      g.LeadsToVoid (g.start v) segments ∨ g.LeadsToUnborne (g.start v) segments) ∧
    (∀ before q, g.Leads (g.start v) before q →
      (∀ s rest p, ¬ g.CrossesTo before (g.start v) s rest p) →
      ∀ name schema members r,
        g.settle (Segment.member name).text q.schema q.value = .ok (schema, .record members) →
        g.node schema = .ok (.record r) →
        (r.find? name = none → ∀ rest, g.walk (before ++ .member name :: rest) (g.start v) =
          .error (.missing (Segment.member name).text)) ∧
        ∀ e, r.find? name = some e →
          (∀ f ∈ r.fields, f.name = name → ∃ w, (f, name, w) ∈ r.fields.zip members ∧
            ∀ isLast, g.step isLast (.member name) q = .ok (.onward ⟨w, e.type, none⟩)) ∧
          ((∀ f ∈ r.fields, f.name ≠ name) →
            ∀ rest, g.LeadsToUnborne (g.start v) (before ++ .member name :: rest))) ∧
    ∀ segments, OwnNames d segments →
      (g.walk segments (g.start v) = .ok .absent ↔ g.LeadsToVoid (g.start v) segments) := by
  intro g
  have hv : Typed g.document g.document.root v := typed_of_decode hj
  have hl (u : Schema) (hu : u.Within g.document.root) : u.Lawful := Document.lawful_of_ofText ht hu
  have hiff (segments) : g.walk segments (g.start v) = .ok .absent ↔
      g.LeadsToVoid (g.start v) segments ∨ g.LeadsToUnborne (g.start v) segments :=
    walkFrom_absent_iff rfl rfl
  refine ⟨hiff, ?_, ?_⟩
  · intro before q hleads hcross name schema members r hs hn
    have hq : Typed g.document q.schema q.value :=
      (leads_typed (p := g.start v) hv hleads).resolve_right fun ⟨s, rest, p, hc⟩ => hcross s rest p hc
    have hw := (settle_eq_of_typed hq hs).1
    have hwithin := (settle_branch hs).within (hleads.within_root .refl)
    have hnd := nodup_of_node hl hwithin (node_eq_ok_iff.mp hn)
    refine ⟨fun hf rest => ?_, fun e he => ⟨fun f hf hname => ?_, fun hf rest => ?_⟩⟩
    · rw [walk, hleads.walkFrom_append, walkFrom_cons, step_of_settle hs rfl hn, along,
        toMember_missing rfl rfl hf]
      rfl
    · exact step_member_of_mem rfl hw hnd hs hn he hf hname
    · exact ⟨before, _, q, rfl, hleads, .intro hs hn he (lookup_eq_none hw hn hf)⟩
  · intro segments hown
    rw [hiff, or_iff_left (hown.not_leadsToUnborne hl hv)]

def optional : Document :=
  .ofSchema (.record ⟨⟨"", "r"⟩, [⟨"b", [], .union [.primitive .null, .primitive .int], none⟩]⟩)

def optionalText : String :=
  (Json.obj [("fields", .arr [.obj [("name", .str "b"),
      ("type", .arr [.str "null", .str "int"])]]),
    ("name", .str "r"), ("type", .str "record")]).text

theorem optional_leadsToVoid :
    ∃ v, Document.ofText optionalText = .ok optional ∧ optional.decode (.obj [("b", .null)]) = .ok v ∧
      LeadsToVoid ⟨optional, none, false⟩ (start ⟨optional, none, false⟩ v)
        [.member "b", .member "c"] ∧
      walk ⟨optional, none, false⟩ [.member "c"] (start ⟨optional, none, false⟩ v) =
        .error (.missing ".c") := by
  have ht : Document.ofText optionalText = .ok optional := by cbv
  have hj : optional.decode (.obj [("b", .null)]) = .ok (.record [("b", .union 0 .null)]) := by cbv
  obtain ⟨-, hmember, hown⟩ := absent_iff ht hj
  refine ⟨_, ht, hj, (hown _ ?_).mp rfl, ?_⟩
  · intro r hr name hm e he
    obtain ⟨rfl⟩ := List.mem_singleton.mp hr
    simp only [List.mem_cons, List.not_mem_nil, or_false, Segment.member.injEq] at hm
    rcases hm with rfl | rfl <;> cases he
    rfl
  · refine (hmember [] _ .nil ?_ "c" _ _ _ rfl rfl).1 rfl []
    rintro s rest p ⟨before, r, hs, -⟩
    simp at hs

def renamed : Document :=
  .ofSchema (.record ⟨⟨"", "r"⟩, [⟨"b", ["a"], .primitive .int, none⟩]⟩)

def renamedText : String :=
  (Json.obj [("fields", .arr [.obj [("aliases", .arr [.str "a"]), ("name", .str "b"),
      ("type", .str "int")]]),
    ("name", .str "r"), ("type", .str "record")]).text

theorem renamed_vanishes :
    ∃ v, Document.ofText renamedText = .ok renamed ∧
      renamed.decode (.obj [("b", .int 1)]) = .ok v ∧
      walk ⟨renamed, none, false⟩ [.member "a"] (start ⟨renamed, none, false⟩ v) = .ok .absent ∧
      ¬ LeadsToVoid ⟨renamed, none, false⟩ (start ⟨renamed, none, false⟩ v) [.member "a"] := by
  refine ⟨.record [("b", .int 1)], by cbv, by cbv, rfl, ?_⟩
  rintro ⟨before, rest, q, hsegments, hleads, hvoid⟩
  cases hleads with
  | nil =>
    cases hvoid with
    | null hs hv =>
      cases hs
      cases hv
    | entry hs | item hs =>
      cases hs
  | cons hs =>
    obtain ⟨rfl, -⟩ := List.cons.inj hsegments
    cases hs

end AvroColumns.Guide
