import AvroColumns.Plan.Expansion
import AvroColumns.Proofs.Datum.Ending
import AvroColumns.Proofs.Expansion.Addressing
import AvroColumns.Proofs.Walk.Faults
import AvroColumns.Proofs.Walk.Typed

/-!
# Crossings

A record finds its members by their aliases too, and a later member's alias takes a name over from the
member that bears it. A walk then crosses: it takes the value of the one member and the schema of the
other. A value and its schema contradict each other behind a crossing and nowhere else.
-/

namespace AvroColumns

open Outcome Datum

/-- Whether what a schema is viewed as has entries of one schema. -/
def Node.isListing : Node → Bool
  | .map _ | .array _ => true
  | _ => false

/-- Whether the fault is that a value does not have the form of its schema. -/
def Walk.Fault.isContradiction : Walk.Fault → Bool
  | .incompatible _ (.noBranch _) | .incompatible _ (.wrongValue ..) => true
  | _ => false

namespace Guide

/-- The step goes on to a value under the schema of a member other than the one that bears the value's
name. -/
def Crosses (g : Guide) (s : Segment) (p q : Position) : Prop :=
  g.step false s p = .ok (.onward q) ∧ ∃ f schema v r, s = .member f.name ∧
    g.settle s.text p.schema p.value = .ok (schema, v) ∧ g.node schema = .ok (.record r) ∧
    f ∈ r.fields ∧ f.type ≠ q.schema

variable {g : Guide} {s previous : Segment} {p q : Position} {segments : List Segment} {n : Node}
  {t : Schema} {w v : Datum} {fallback : Option Schema} {isLast : Bool} {fault : Walk.Fault} {j : Json}
  {group : BoundGroup}

theorem settle_eq_of_typed {place : String} {schema : Schema} (hv : Typed g.document t v)
    (h : g.settle place t v = .ok (schema, w)) :
    Typed g.document schema w ∧ w.isTagged = false := by
  obtain ⟨t', w', hs, -, hw, ht⟩ := settle_typed hv
  cases (hs place).symm.trans h
  exact ⟨hw, ht⟩

theorem onward_typed (hv : Typed g.document p.schema p.value)
    (h : g.step isLast s p = .ok (.onward q)) :
    Typed g.document q.schema q.value ∨ g.Crosses s p q := by
  have hstep := step_of_onward false h
  obtain ⟨schema, v, n, hs, -, hn, ho⟩ := step_onward_iff.mp h
  have hw := (settle_eq_of_typed hv hs).1
  have hn' := node_eq_ok_iff.mp hn
  cases ho with
  | @member name r e members u he hl =>
    obtain ⟨_, ⟨⟩, hnames, hm⟩ := hw.of_node_record hn'
    obtain ⟨f, hf, hname⟩ := exists_zip_of_mem hnames (lookup_mem hl)
    cases hname
    by_cases htype : f.type = e.type
    · left
      change Typed _ e.type u
      rw [← htype]
      exact hm _ hf
    · exact .inr ⟨hstep, f, schema, _, r, rfl, hs, hn, (List.of_mem_zip hf).1, htype⟩
  | entry _ hl =>
    obtain ⟨_, ⟨⟩, he⟩ := hw.of_node_map hn'
    exact .inl (he _ (lookup_mem hl))
  | item _ _ hi =>
    obtain ⟨_, ⟨⟩, hvs⟩ := hw.of_node_array hn'
    exact .inl (hvs _ (List.mem_of_getElem? hi))

theorem Proceeds.ne_error {inside : List Schema} {o : Except Walk.Fault Walk.Step}
    (h : g.Proceeds inside o) : o ≠ .error fault := by
  rcases h with rfl | ⟨q, rfl, -⟩ <;> nofun

theorem toMember_error_typed {place name : String} {r : RecordType Schema}
    (hw : Typed g.document t w) (hn : g.document.node t = .ok (.record r))
    (h : g.toMember isLast place name r w fallback = .error fault) : fault.isContradiction = false := by
  obtain ⟨members, rfl, -⟩ := hw.of_node_record hn
  cases hf : r.find? name with
  | some f =>
    rw [toMember_of_find? hf] at h
    cases hl : Datum.lookup name members <;> simp [hl] at h
  | none => rcases toMember_lacking_error hf h with rfl | ⟨type, rfl⟩ <;> rfl

theorem along_error_typed (hw : Typed g.document t w) (hn : g.document.node t = .ok n)
    (h : g.along isLast s n w fallback = .error fault) : fault.isContradiction = false := by
  cases meets s n with
  | wildcard =>
    cases h
    rfl
  | member => exact toMember_error_typed hw hn h
  | entry hk =>
    rw [along_entry hk] at h
    exact absurd h (toEntry_proceeds hw hn).ne_error
  | item hi =>
    rw [along_item hi] at h
    exact absurd h (toItem_proceeds hw hn).ne_error
  | mismatch hr hm =>
    cases (hm g isLast w fallback).symm.trans h
    cases hr <;> rfl

theorem step_error_typed (hv : Typed g.document p.schema p.value)
    (h : g.step isLast s p = .error fault) : fault.isContradiction = false := by
  obtain ⟨t, w, hs, -, hw, -⟩ := settle_typed hv
  obtain ⟨n, hn⟩ := hw.exists_node
  cases hnull : w.isNull with
  | true => cases (step_of_null (hs s.text) hnull).symm.trans h
  | false =>
    rw [step_of_settle (hs s.text) hnull (node_eq_ok_iff.mpr hn)] at h
    exact along_error_typed hw hn h

theorem arrive_typed (hv : Typed g.document p.schema p.value) (place : String) :
    g.arrive place p = .ok .absent ∨ ∃ t w, g.arrive place p = .ok (.reached ⟨w, t, p.fallback⟩) ∧
      Typed g.document t w ∧ w.isNull = false := by
  obtain ⟨t, w, hs, -, hw, -⟩ := settle_typed hv
  rw [arrive, hs]
  cases hnull : w.isNull with
  | true => exact .inl (by simp [hnull])
  | false => exact .inr ⟨t, w, by simp [hnull], hw, hnull⟩

/-- The segments lead to a crossing, by which the walk comes to `q` with `rest` before it. -/
def CrossesTo (g : Guide) (segments : List Segment) (p : Position) (s : Segment) (rest : List Segment)
    (q : Position) : Prop :=
  ∃ before r, segments = before ++ s :: rest ∧ g.Leads p before r ∧ g.Crosses s r q

theorem CrossesTo.cons {rest : List Segment} {s' : Segment} {q' : Position}
    (hs : g.step false s p = .ok (.onward q)) (h : g.CrossesTo segments q s' rest q') :
    g.CrossesTo (s :: segments) p s' rest q' := by
  obtain ⟨before, r, rfl, hl, hc⟩ := h
  exact ⟨s :: before, r, rfl, .cons hs hl, hc⟩

theorem crossesTo_of_contradiction (hv : Typed g.document p.schema p.value)
    (hf : fault.isContradiction) (h : g.walkFrom previous segments p = .error fault) :
    ∃ s rest q, g.CrossesTo segments p s rest q ∧ g.walkFrom s rest q = .error fault := by
  induction segments generalizing previous p with
  | nil =>
    rw [walkFrom] at h
    rcases arrive_typed hv previous.text with ha | ⟨t, w, ha, -⟩ <;> cases ha.symm.trans h
  | cons s rest ih =>
    rw [walkFrom_cons] at h
    cases hs : g.step rest.isEmpty s p with
    | error fault' =>
      rw [hs] at h
      cases h
      simp [step_error_typed hv hs] at hf
    | ok o =>
      rw [hs] at h
      cases o with
      | ended w => cases h
      | onward q =>
        rcases onward_typed hv hs with hq | hc
        · obtain ⟨s', rest', q', hc, hw⟩ := ih hq h
          exact ⟨s', rest', q', hc.cons (step_of_onward _ hs), hw⟩
        · exact ⟨s, rest, q, ⟨[], p, rfl, .nil, hc⟩, h⟩

theorem CrossesTo.walkFrom {rest : List Segment} (h : g.CrossesTo segments p s rest q) :
    g.walkFrom previous segments p = g.walkFrom s rest q := by
  obtain ⟨before, r, rfl, hl, hc, -⟩ := h
  rw [hl.walkFrom_append, walkFrom_of_onward (step_of_onward _ hc)]

theorem leads_typed (hv : Typed g.document p.schema p.value) (h : g.Leads p segments q) :
    Typed g.document q.schema q.value ∨ ∃ s rest r, g.CrossesTo segments p s rest r := by
  induction h with
  | nil => exact .inl hv
  | @cons s segments p q r hs _ ih =>
    rcases onward_typed hv hs with hq | hc
    · rcases ih hq with hr | ⟨s', rest, r, hc⟩
      · exact .inl hr
      · exact .inr ⟨s', rest, r, hc.cons hs⟩
    · exact .inr ⟨s, segments, q, [], p, rfl, .nil, hc⟩

theorem reached_typed (hv : Typed g.document p.schema p.value)
    (h : g.walkFrom previous segments p = .ok (.reached q)) :
    Typed g.document q.schema q.value ∨ ∃ s rest r, g.CrossesTo segments p s rest r := by
  obtain ⟨r, place, hl, ha⟩ := leads_of_reached h
  refine (leads_typed hv hl).imp_left fun hr => ?_
  obtain ⟨t, w, hs, -, rfl⟩ := arrive_reached_iff.mp ha
  exact (settle_eq_of_typed hr hs).1

/-- Whether the fault is that what was to be expanded is no container. -/
def isUnexpandable : Walk.Fault → Bool
  | .incompatible _ (.notExpandable _) => true
  | _ => false

theorem walkFrom_error_expandable (h : g.walkFrom previous segments p = .error fault) :
    isUnexpandable fault = false := by
  cases walkFrom_ofPath h with
  | @incompatible _ reason hr =>
    cases reason with
    | notExpandable label => exact absurd rfl (hr label)
    | _ => rfl
  | _ => rfl

theorem entryRow_error_expandable {members : List BoundMember} {name : String}
    (h : g.entryRow p members = .error (.column name fault)) : isUnexpandable fault = false := by
  obtain ⟨-, m, -, -, -, hm⟩ := mapM_eq_error_iff.mp h
  obtain ⟨fault', hx, hf⟩ := mapError_eq_error_iff.mp hm
  cases hf
  rcases bind_eq_error_iff.mp hx with hw | ⟨w, -, hf⟩
  · exact walkFrom_error_expandable hw
  · rcases finish_error hf with ⟨cause, rfl⟩ | ⟨name, rfl⟩ | ⟨label, rfl⟩ <;> rfl

theorem expandAt_error_expandable {name : String} (hv : Typed g.document p.schema p.value)
    (hn : g.node p.schema = .ok n) (hl : n.isListing)
    (h : g.expandAt group p = .error (.column name fault)) : isUnexpandable fault = false := by
  have hn' := node_eq_ok_iff.mp hn
  obtain ⟨schema, vs, he⟩ : ∃ schema vs, entries? n p.value = some (schema, vs) := by
    cases n with
    | map values =>
      obtain ⟨entries, hw, -⟩ := hv.of_node_map hn'
      exact ⟨_, _, by rw [hw]; rfl⟩
    | array items =>
      obtain ⟨vs, hw, -⟩ := hv.of_node_array hn'
      exact ⟨_, _, by rw [hw]; rfl⟩
    | _ => cases hl
  simp only [expandAt, hn, Except.mapError, ok_bind, he] at h
  rcases bind_eq_error_iff.mp h with hr | ⟨rows, -, h⟩
  · obtain ⟨-, w, -, -, -, hrow⟩ := mapM_eq_error_iff.mp hr
    exact entryRow_error_expandable hrow
  · cases h

theorem crossesTo_of_unexpandable {name : String} (hv : Typed g.document g.document.root v)
    (hw : g.walk group.container.segments (g.start v) = .ok (.reached p))
    (hn : g.node p.schema = .ok n) (hl : n.isListing) (hf : isUnexpandable fault)
    (h : g.expand group v = .error (.column name fault)) :
    ∃ s rest q, g.CrossesTo group.container.segments (g.start v) s rest q := by
  rw [expand, hw] at h
  rcases reached_typed (p := g.start v) hv hw with hp | hc
  · simp [expandAt_error_expandable hp hn hl h] at hf
  · exact hc

theorem Onward.mem_parts (h : g.Onward fallback s n v q) : q.schema ∈ n.parts := by
  cases h with
  | @member name r f _ _ hf _ =>
    exact List.mem_map_of_mem (RecordType.mem_of_find? hf)
  | entry | item => exact List.mem_singleton_self _

theorem Crosses.exists_taken (h : g.Crosses s p q) :
    ∃ f e schema r, s = .member f.name ∧ g.document.Branch p.schema schema ∧
      g.document.node schema = .ok (.record r) ∧ f ∈ r.fields ∧ r.find? f.name = some e ∧
      f.type ≠ e.type := by
  obtain ⟨hstep, f, schema, v, r, rfl, hs, hn, hf, htype⟩ := h
  obtain ⟨schema', v', n', hs', -, hn', ho⟩ := step_onward_iff.mp hstep
  cases hs.symm.trans hs'
  cases hn.symm.trans hn'
  cases ho with
  | @member _ _ e _ _ he _ =>
    exact ⟨f, e, schema, r, rfl, settle_branch hs, node_eq_ok_iff.mp hn, hf, he, htype⟩

theorem not_crosses (hu : g.document.Unshadowed) (hp : p.schema.Within g.document.root) :
    ¬ g.Crosses s p q := by
  intro h
  obtain ⟨f, e, schema, r, rfl, hb, hn, hf, he, htype⟩ := h.exists_taken
  exact htype (hu.of_node (hb.within hp) hn hf he).symm

theorem Leads.within_root (h : g.Leads p segments q) (hp : p.schema.Within g.document.root) :
    q.schema.Within g.document.root := by
  refine h.invariant (P := fun r => r.schema.Within g.document.root) ?_ hp
  intro s r r' hr hs
  obtain ⟨schema, v, n, hs, -, hn, ho⟩ := step_onward_iff.mp hs
  exact Document.within_of_node ((settle_branch hs).within hr) (node_eq_ok_iff.mp hn) ho.mem_parts

theorem not_crossesTo (hu : g.document.Unshadowed) {rest : List Segment} :
    ¬ g.CrossesTo segments (g.start v) s rest q := by
  rintro ⟨before, r, -, hl, hc⟩
  exact not_crosses hu (hl.within_root .refl) hc

/-- A decoded value contradicts its schema in no walk and in no expansion, but behind a crossing. Where no
later member's alias takes over the name of a member of another type, nothing crosses. -/
theorem contradiction_iff_crossesTo (h : g.document.decode j = .ok v) :
    (∀ segments fault, fault.isContradiction →
      (g.walk segments (g.start v) = .error fault ↔ ∃ s rest q,
        g.CrossesTo segments (g.start v) s rest q ∧ g.walkFrom s rest q = .error fault)) ∧
    (∀ group p n name fault, g.walk group.container.segments (g.start v) = .ok (.reached p) →
      g.node p.schema = .ok n → n.isListing → isUnexpandable fault →
      g.expand group v = .error (.column name fault) →
      ∃ s rest q, g.CrossesTo group.container.segments (g.start v) s rest q) ∧
    (g.document.Unshadowed → ∀ segments s rest q, ¬ g.CrossesTo segments (g.start v) s rest q) := by
  have hv := typed_of_decode h
  refine ⟨fun segments fault hf => ⟨fun hw => ?_, ?_⟩, ?_, ?_⟩
  · exact crossesTo_of_contradiction (p := g.start v) hv hf hw
  · rintro ⟨s, rest, q, hc, hw⟩
    exact hc.walkFrom.trans hw
  · intro group p n name fault hw hn hl hf he
    exact crossesTo_of_unexpandable hv hw hn hl hf he
  · intro hu segments s rest q
    exact not_crossesTo hu

theorem chain_unshadowed : Document.chain.Unshadowed := by
  intro r hr f hf e he
  obtain ⟨rfl⟩ := List.mem_singleton.mp hr
  simp only [List.mem_cons, List.not_mem_nil, or_false] at hf
  rcases hf with rfl | rfl <;> cases he <;> rfl

theorem chain_never_contradicts :
    ∃ v, Document.chain.decode (.obj [("value", .int 1), ("next", .obj [("Chain", .obj
        [("value", .int 2)])])]) = .ok v ∧
      ∀ defaults tolerant segments fault, fault.isContradiction →
        walk ⟨.chain, defaults, tolerant⟩ segments (start ⟨.chain, defaults, tolerant⟩ v) ≠
          .error fault := by
  have hv : Document.chain.decode (.obj [("value", .int 1), ("next", .obj [("Chain", .obj
      [("value", .int 2)])])]) = .ok (.record [("value", .int 1), ("next", .union 1 (.record
        [("value", .int 2), ("next", .union 0 .null)]))]) := by cbv
  refine ⟨_, hv, ?_⟩
  intro defaults tolerant segments fault hf hw
  obtain ⟨hiff, -, hnone⟩ := contradiction_iff_crossesTo (g := ⟨.chain, defaults, tolerant⟩) hv
  obtain ⟨s, rest, q, hc, -⟩ := (hiff segments fault hf).mp hw
  exact hnone chain_unshadowed segments s rest q hc

def takeover (own other : Schema) : Document :=
  .ofSchema (.record ⟨⟨"", "r"⟩, [⟨"a", [], own, none⟩, ⟨"b", ["a"], other, none⟩]⟩)

def takeoverText (own other : Json) : String :=
  (Json.obj [("fields", .arr [.obj [("name", .str "a"), ("type", own)],
      .obj [("aliases", .arr [.str "a"]), ("name", .str "b"), ("type", other)]]),
    ("name", .str "r"), ("type", .str "record")]).text

theorem takeover_contradicts :
    let counted := takeover (.primitive .int) (.union [.primitive .null, .primitive .string])
    let listed := takeover (.array (.primitive .int)) (.map (.primitive .int))
    ∃ v w, Document.ofText (takeoverText (.str "int") (.arr [.str "null", .str "string"])) =
          .ok counted ∧
        Document.ofText (takeoverText (.obj [("items", .str "int"), ("type", .str "array")])
          (.obj [("type", .str "map"), ("values", .str "int")])) = .ok listed ∧
        counted.decode (.obj [("a", .int 1), ("b", .obj [("string", .str "1")])]) = .ok v ∧
        listed.decode (.obj [("a", .arr [.int 1]), ("b", .obj [("0", .int 1)])]) = .ok w ∧
        walk ⟨counted, none, false⟩ [.member "a"] (start ⟨counted, none, false⟩ v) =
          .error (.incompatible ".a" (.noBranch "integer")) ∧
        walk ⟨listed, none, false⟩ [.member "a", .index 0] (start ⟨listed, none, false⟩ w) =
          .error (.incompatible "[0]" (.wrongValue "map" "array")) ∧
        expand ⟨listed, none, false⟩ ⟨⟨.record, [.member "a"]⟩, []⟩ w =
          .error (.column "" (.incompatible "[*]" (.notExpandable "map"))) := by
  exact ⟨_, _, by cbv, by cbv, by cbv, by cbv, rfl, by cbv, rfl⟩

end Guide

end AvroColumns
