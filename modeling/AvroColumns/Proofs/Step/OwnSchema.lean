import AvroColumns.Proofs.Plan.Discovery
import AvroColumns.Proofs.Schema.References
import AvroColumns.Proofs.Step.Assembly
import AvroColumns.Proofs.Walk.Admission

namespace AvroColumns

open Outcome Datum

namespace Document

variable {d : Document} {s t : Schema} {members : List Schema} {segments : List Segment} {n : Node}

/-- Beside a container, a union has no member but null. -/
def Uniform (d : Document) : Prop :=
  ∀ members, (Schema.union members).Within d.root → ∀ s ∈ members, ∀ n, d.node s = .ok n →
    n.isContainer → ∀ t ∈ members, t = s ∨ d.node t = .ok (.leaf .null)

theorem Takes.eq (h : d.Takes s t) (hs : ∀ members, s ≠ .union members) : t = s := by
  cases h.1 with
  | refl => rfl
  | member hn => exact absurd (eq_union_of_node hn) (hs _)

theorem Takes.member (h : d.Takes (.union members) t) (hf : ∀ m ∈ members, ∀ ms, m ≠ .union ms) :
    t ∈ members ∧ d.Takes t t := by
  obtain ⟨hb, v, hv, ht, hnull⟩ := h
  refine ⟨?_, .refl, v, hv, ht, hnull⟩
  cases hb with
  | refl =>
    have := hv.isTagged_iff.mpr ⟨members, rfl⟩
    simp [ht] at this
  | member hn hm hb =>
    cases hn
    cases hb with
    | refl => exact hm
    | member hn => exact absurd (eq_union_of_node hn) (hf _ hm _)

theorem Takes.ne_null (h : d.Takes s t) : d.node t ≠ .ok (.leaf .null) := by
  obtain ⟨-, v, hv, -, hnull⟩ := h
  intro hn
  cases hv with
  | @primitive p v hp =>
    cases p <;> cases hn
    cases v <;> simp_all [Primitive.Holds, isNull]
  | @ref _ D _ hD h =>
    rw [node_of_follow hD] at hn
    cases D <;> cases hn
  | _ => cases hn

theorem Admits.union (h : ∀ t, d.Takes (.union members) t → d.Admits segments t)
    (hf : ∀ m ∈ members, ∀ ms, m ≠ .union ms) : d.Admits segments (.union members) := by
  cases segments with
  | nil => exact fun t n ht hn => h t ht t n (ht.member hf).2 hn
  | cons step rest => exact fun t n ht hn => h t ht t n (ht.member hf).2 hn

theorem Course.view (h : d.Course s segments) (hs : ∀ members, s ≠ .union members) :
    ∃ n, d.node s = .ok n ∧ (n.isContainer ∨ segments = [] ∧ n.leaf?.isSome ∧ n ≠ .leaf .null) := by
  cases h with
  | leaf hn hl ht =>
    refine ⟨_, hn, .inr ⟨rfl, by simp [hl], ?_⟩⟩
    rintro rfl
    cases hl
    cases ht
  | item hn h => exact ⟨_, hn, .inl rfl⟩
  | entry hn h => exact ⟨_, hn, .inl rfl⟩
  | member hn hf h => exact ⟨_, hn, .inl rfl⟩
  | branch hn ht h => exact absurd (eq_union_of_node hn) (hs _)

theorem ne_union_of_node (hn : d.node s = .ok n) (hu : ∀ members, n ≠ .union members)
    (members : List Schema) : s ≠ .union members := by
  rintro rfl
  cases hn
  exact hu members rfl

theorem admits_leaf (hs : ∀ members, s ≠ .union members) (hn : d.node s = .ok n)
    (hl : n.leaf?.isSome) : d.Admits [] s := by
  intro t n' ht hn'
  cases ht.eq hs
  cases hn.symm.trans hn'
  exact hl

theorem admits_container {step : Segment} {inside : List Schema}
    (hs : ∀ members, s ≠ .union members) (hn : d.node s = .ok n)
    (hi : n.inside? step = some inside) (h : ∀ u ∈ inside, d.Admits segments u) :
    d.Admits (step :: segments) s := by
  intro t n' ht hn'
  cases ht.eq hs
  cases hn.symm.trans hn'
  exact ⟨inside, hi, h⟩

theorem inside?_member {r : RecordType Schema} {f : Field Schema} (hf : f ∈ r.fields) :
    (Node.record r).inside? (.member f.name) =
      some ((r.fields.filter (·.name == f.name)).map (·.type)) := by
  rw [Node.inside?, if_pos]
  rw [RecordType.find?, List.find?_isSome]
  exact ⟨f, List.mem_reverse.mpr hf, by simp⟩

theorem Course.admits_branch (hu : d.Uniform) (hs : (Schema.union members).Within d.root)
    (hf : ∀ m ∈ members, ∀ ms, m ≠ .union ms) (ht : t ∈ members) (h : d.Course t segments)
    (ha : d.Admits segments t) : d.Admits segments (.union members) := by
  apply Admits.union _ hf
  intro m hm
  have hmem := (hm.member hf).1
  obtain ⟨n, hn, hc | ⟨rfl, hl, hnull⟩⟩ := h.view (hf t ht)
  · rcases hu members hs t ht n hn hc m hmem with rfl | hm'
    · exact ha
    · exact absurd hm' hm.ne_null
  · obtain ⟨-, w, hw, -, -⟩ := hm
    obtain ⟨n', hn'⟩ := hw.exists_node
    by_cases hc : n'.isContainer
    · rcases hu members hs m hmem n' hn' hc t ht with rfl | ht'
      · exact ha
      · rw [hn] at ht'
        exact absurd (Except.ok.inj ht') hnull
    · apply admits_leaf (hf m hmem) hn'
      cases n' with
      | union ms => exact absurd (eq_union_of_node hn') (hf m hmem ms)
      | fixed f | leaf kind => rfl
      | _ => exact absurd rfl hc

theorem Course.admits (hl : ∀ u : Schema, u.Within d.root → u.Lawful) (hu : d.Uniform)
    (hs : s.Within d.root) (h : d.Course s segments) : d.Admits segments s := by
  induction h with
  | leaf hn hk ht =>
    refine admits_leaf (ne_union_of_node hn ?_) hn (by simp [hk])
    rintro members rfl
    cases hk
  | item hn h ih =>
    refine admits_container (ne_union_of_node hn nofun) hn rfl ?_
    exact List.forall_mem_singleton.mpr (ih (within_of_node hs hn List.mem_cons_self))
  | entry hn h ih =>
    refine admits_container (ne_union_of_node hn nofun) hn rfl ?_
    exact List.forall_mem_singleton.mpr (ih (within_of_node hs hn List.mem_cons_self))
  | @member s r f segments hn hf h ih =>
    refine admits_container (ne_union_of_node hn nofun) hn (inside?_member hf) ?_
    intro u hu
    obtain ⟨e, he, rfl⟩ := List.mem_map.mp hu
    obtain ⟨he, hname⟩ := List.mem_filter.mp he
    have hr := (hl _ (within_of_resolve hs (resolve_of_node hn rfl))).2.1
    obtain rfl := List.inj_on_of_nodup_map (Schema.nodup_of_duplicateField? hr).1 he hf
      (eq_of_beq hname)
    exact ih (within_of_node hs hn (List.mem_map_of_mem hf))
  | branch hn ht h ih =>
    cases eq_union_of_node hn
    refine h.admits_branch hu hs ?_ ht (ih (within_of_node hs hn ht))
    intro m hm
    exact Schema.ne_union_of_unionDefect? (hl _ hs) hm

end Document

namespace Step

variable {s : Step} {d : Document} {text : String} {c : Column} {segments : List Segment}

def Admitted (s : Step) (d : Document) : Prop :=
  ∀ c ∈ s.columns, ∀ path, Path.compile c.path = .ok path → d.Admits path.segments d.root

theorem assemble_columns {config : Config} {default : Option Document}
    (h : assemble config default = .ok s) : columnsFor config default = .ok s.columns := by
  obtain ⟨columns, hc, h⟩ := bind_eq_ok_iff.mp h
  by_cases he : columns.isEmpty
  · simp [he] at h
  · simp only [he] at h
    obtain ⟨plan, hp, h⟩ := bind_eq_ok_iff.mp h
    rw [mapError_eq_ok_iff] at hp
    obtain ⟨ps, -, rfl⟩ := Plan.compile_eq_ok_iff.mp hp
    split at h
    · cases h
    · cases h
      exact hc

theorem Built.discover (hs : s.Built) (hc : s.config.columns = []) (hd : s.default = some d) :
    d.discover = .ok s.columns := by
  obtain ⟨config, default, h⟩ := hs.assemble
  obtain ⟨rfl, rfl, -⟩ := assemble_eq_ok h
  have hcols := assemble_columns h
  simp only [columnsFor, hc, hd] at hcols
  exact mapError_eq_ok_iff.mp hcols

theorem Built.exists_course (hs : s.Built) (hc : s.config.columns = []) (hd : s.default = some d)
    (hl : ∀ u : Schema, u.Within d.root → u.Lawful) (hm : c ∈ s.columns) :
    ∃ segments, d.Course d.root segments ∧
      Path.compile c.path = .ok (Path.written segments) ∧
      ∀ g v vars, Guide.extract g v ((Path.written segments).bind vars) c.target =
        g.outcome (.member "$") segments segments c.target (g.start v) := by
  obtain ⟨segments, hcourse, hp⟩ := Document.exists_course (hs.discover hc hd) hm
  have hplain := hcourse.plain hl .refl
  refine ⟨segments, hcourse, hp ▸ Path.compile_written hplain, ?_⟩
  intro g v vars
  rw [Path.bind_written hplain]
  rfl

theorem groupsOf_eq_nil {ps : List Placement} (h : ∀ place ∈ ps, ∃ p, place = .plain p) :
    Plan.groupsOf ps = [] := by
  induction ps using List.reverseRecOn with
  | nil => rfl
  | append_singleton ps place ih =>
    obtain ⟨p, rfl⟩ := h place (by simp)
    rw [Plan.groupsOf_concat]
    exact ih fun place hp => h place (List.mem_append_left _ hp)

theorem Built.groups_eq_nil (hs : s.Built) (hc : s.config.columns = []) (hd : s.default = some d)
    (hl : ∀ u : Schema, u.Within d.root → u.Lawful) : s.plan.groups = [] := by
  obtain ⟨ps, hps, hplan⟩ := Plan.compile_eq_ok_iff.mp hs.compile
  rw [hplan]
  apply groupsOf_eq_nil
  intro place hplace
  obtain ⟨⟨c, i⟩, hm, hp⟩ := exists_of_mem_mapM hps hplace
  obtain ⟨path, hpath, hw⟩ := Plan.place_eq_ok hp
  obtain ⟨segments, hcourse, hpath', -⟩ :=
    hs.exists_course hc hd hl (List.fst_mem_of_mem_zipIdx hm)
  cases hpath.symm.trans hpath'
  have hnone : (Path.written segments).wildcard? = none :=
    List.findIdx?_eq_none_iff.mpr hcourse.isWildcard
  rw [hnone] at hw
  exact ⟨_, hw⟩

theorem Built.mem_plain (hs : s.Built) {p : Placed} (hp : p ∈ s.plan.plain) :
    p.column ∈ s.columns ∧ Path.compile p.column.path = .ok p.path := by
  obtain ⟨ps, hps, hplain, -⟩ := hs.exists_placements
  rw [hplain] at hp
  obtain ⟨⟨c, i⟩, hm, hplace⟩ := exists_of_mem_mapM hps (Plan.mem_plainOf.mp hp)
  obtain ⟨path, hpath, hw⟩ := Plan.place_eq_ok hplace
  cases hwild : path.wildcard? with
  | none =>
    rw [hwild] at hw
    cases hw
    exact ⟨List.fst_mem_of_mem_zipIdx hm, hpath⟩
  | some w =>
    rw [hwild] at hw
    cases hw

theorem exists_fault_of_cells {g : Guide} {b : Binding} {v : Datum} {f : Failure} (hb : b.group = none)
    (h : s.cells g b v = .error f) :
    ∃ m ∈ b.plain, ∃ fault, f = .column m.column.name fault ∧
      g.extract v m.path m.column.target = .error fault := by
  have hplain : plainCells g b v = .error f := by
    rw [cells, hb] at h
    cases hp : plainCells g b v with
    | error f' =>
      rw [hp] at h
      cases h
      rfl
    | ok plain =>
      rw [hp] at h
      cases h
  obtain ⟨before, m, after, hm, -, he⟩ := mapM_eq_error_iff.mp hplain
  refine ⟨m, by simp [hm], ?_⟩
  cases hx : g.extract v m.path m.column.target with
  | error fault =>
    rw [hx] at he
    cases he
    exact ⟨fault, rfl, rfl⟩
  | ok cell =>
    rw [hx] at he
    cases he

theorem Built.kind_of_admitted (hs : s.Built) (hc : s.config.columns = [])
    (hd : s.default = some d) (hl : ∀ u : Schema, u.Within d.root → u.Lawful) (hu : d.Unshadowed)
    (ha : s.Admitted d) {v : Datum} {vars : Variables} {passed : Row} {isDefault : Bool} {f : Failure}
    (hv : Typed d d.root v)
    (h : s.decodeValue (some (s.bind vars)) passed v d isDefault = .error f) :
    f.kind = .conversion := by
  have hgroup : (s.bind vars).group = none := by
    simp [bind, hs.groups_eq_nil hc hd hl]
  rw [decodeValue, map_eq_error_iff] at h
  obtain ⟨m, hm, fault, rfl, hx⟩ := exists_fault_of_cells hgroup h
  obtain ⟨p, hp, rfl⟩ := List.mem_map.mp (plain_bind ▸ hm)
  obtain ⟨hcol, hpath⟩ := hs.mem_plain hp
  obtain ⟨segments, -, hpath', hextract⟩ := hs.exists_course hc hd hl hcol
  have hsegments : p.path = Path.written segments := Except.ok.inj (hpath.symm.trans hpath')
  simp only [Placed.bind, hsegments] at hx
  rw [hextract] at hx
  obtain ⟨cause, rfl⟩ := Guide.outcome_of_admits (p := (s.guide d isDefault).start v) hu .refl hv
    (ha _ hcol _ hpath') hx
  rfl

/-- The schema from which a step discovers its columns admits the path of a column exactly if none of
its values goes astray there. If it admits every path, decoding a value fails only where a leaf does
not convert, whatever the worker is bound to, and it admits every path if no union has anything but
null beside a container. -/
theorem Built.decodes_own (hs : s.Built) (hc : s.config.columns = []) (hd : s.default = some d)
    (ht : Document.ofText text = .ok d) (hstrict : s.config.tolerateMissing = false)
    (hu : d.Unshadowed) :
    (∀ c ∈ s.columns, ∃ path, Path.compile c.path = .ok path ∧
      (d.Admits path.segments d.root ↔ ∀ v vars fault, Typed d d.root v →
        (s.guide d true).extract v (path.bind vars) c.target = .error fault →
        fault.isAstray = false)) ∧
    (s.Admitted d → ∀ j v w vars passed isDefault f, d.decode j = .ok v →
      s.Serves (some vars) w → s.workValue w passed v d isDefault = .error f →
      f.kind = .conversion) ∧
    (d.Uniform → s.Admitted d) := by
  have hl (u : Schema) (hu : u.Within d.root) : u.Lawful := Document.lawful_of_ofText ht hu
  refine ⟨?_, ?_, ?_⟩
  · intro c hm
    obtain ⟨segments, -, hpath, hextract⟩ := hs.exists_course hc hd hl hm
    have hiff : d.Admits segments d.root ↔ _ :=
      Guide.admits_iff (g := s.guide d true) (.member "$") segments c.target rfl hstrict hu hl .refl
    refine ⟨_, hpath, ?_⟩
    constructor
    · intro ha v vars fault hv he
      rw [hextract] at he
      exact hiff.mp ha v fault hv he
    · intro hall
      apply hiff.mpr
      intro v fault hv he
      apply hall v .none fault hv
      rw [hextract]
      exact he
  · intro ha j v w vars passed isDefault f hv hw he
    rw [hw.workValue] at he
    exact hs.kind_of_admitted hc hd hl hu ha (typed_of_decode hv) he
  · intro huni c hm path hpath
    obtain ⟨segments, hcourse, hpath', -⟩ := hs.exists_course hc hd hl hm
    cases hpath.symm.trans hpath'
    exact hcourse.admits hl huni .refl

def besideItems (p : Primitive) : Document :=
  .ofSchema (.union [.primitive p, .array (.primitive .int)])

def besideItemsText (p : Primitive) : String :=
  (Json.arr [.str p.label, .obj [("items", .str "int"), ("type", .str "array")]]).text

def wholeColumn : Column := ⟨"$", "$", .integer, none⟩

def itemColumn : Column := ⟨"$[0]", "$[0]", .integer, none⟩

def longOrItems : Plan :=
  ⟨[wholeColumn, itemColumn], [⟨wholeColumn, 0, .written []⟩, ⟨itemColumn, 1, .written [.index 0]⟩], []⟩

def nullOrItems : Plan :=
  ⟨[itemColumn], [⟨itemColumn, 0, .written [.index 0]⟩], []⟩

theorem ofConfig_discovering (fs : Files) (plan : Plan) (ht : Document.ofText text = .ok d)
    (hb : Text.isBlankText text = false) (hd : d.discover = .ok plan.columns)
    (hc : plan.columns ≠ []) (hp : Plan.compile plan.columns = .ok plan) (hg : plan.groups = []) :
    ofConfig fs { schemaText := some text } = .ok ⟨{ schemaText := some text }, plan, some d⟩ := by
  have hload : loadDefault fs { schemaText := some text } = .ok (some d) := by
    have hfilter : (some text).filter (fun text => !Text.isBlankText text) = some text := by
      simp [hb]
    simp only [loadDefault, hfilter, ht]
    rfl
  have hcolumns : columnsFor { schemaText := some text } (some d) = .ok plan.columns := by
    simp only [columnsFor, hd]
    rfl
  rw [ofConfig, hload]
  simp only [ok_bind, assemble, hcolumns]
  simp [hc, hp, hg]

theorem long_or_items_astray :
    ∃ s w v f, Document.ofText (besideItemsText .long) = .ok (besideItems .long) ∧
      ofConfig (fun _ => .error .notFound) { schemaText := some (besideItemsText .long) } = .ok s ∧
      s.worker = .ok w ∧ (besideItems .long).decode (.obj [("array", .arr [.int 1])]) = .ok v ∧
      s.workValue (s.bindWorker w .none) [] v (besideItems .long) true = .error f ∧
      f.kind = .pathResolution := by
  have ht : Document.ofText (besideItemsText .long) = .ok (besideItems .long) := by cbv
  have hs := ofConfig_discovering (fun _ => .error .notFound) longOrItems ht (by cbv) (by cbv)
    (List.cons_ne_nil _ _) rfl rfl
  exact ⟨_, ⟨none, none⟩, .union 1 (.array [.int 1]), _, ht, hs, rfl, by cbv, rfl, rfl⟩

theorem null_or_items_uniform : (besideItems .null).Uniform := by
  intro members hm s hs n hn hc t ht
  have hmembers : members = [.primitive .null, .array (.primitive .int)] := by
    rcases hm.eq_or_part with h | ⟨u, hu, h⟩
    · exact Schema.union.inj h
    · simp only [besideItems, Document.ofSchema, Schema.parts, List.mem_cons, List.not_mem_nil,
        or_false] at hu
      rcases hu with rfl | rfl
      · cases h.of_parts_eq_nil rfl
      · rcases h.eq_or_part with h | ⟨u, hu, h⟩
        · cases h
        · obtain rfl := List.mem_singleton.mp hu
          cases h.of_parts_eq_nil rfl
  subst hmembers
  simp only [List.mem_cons, List.not_mem_nil, or_false] at hs ht
  rcases hs with rfl | rfl
  · cases hn
    cases hc
  · rcases ht with rfl | rfl
    · exact .inr rfl
    · exact .inl rfl

theorem null_or_items_decodes :
    ∃ s, Document.ofText (besideItemsText .null) = .ok (besideItems .null) ∧
      ofConfig (fun _ => .error .notFound) { schemaText := some (besideItemsText .null) } = .ok s ∧
      (besideItems .null).Unshadowed ∧ s.Admitted (besideItems .null) ∧
      ∀ j v w vars passed isDefault f, (besideItems .null).decode j = .ok v →
        s.Serves (some vars) w → s.workValue w passed v (besideItems .null) isDefault = .error f →
        f.kind = .conversion := by
  have ht : Document.ofText (besideItemsText .null) = .ok (besideItems .null) := by cbv
  have hs := ofConfig_discovering (fun _ => .error .notFound) nullOrItems ht (by cbv) (by cbv)
    (List.cons_ne_nil _ _) rfl rfl
  have hu : (besideItems .null).Unshadowed := fun r hr => absurd hr List.not_mem_nil
  obtain ⟨-, hsound, huniform⟩ := Built.decodes_own (.ofConfig hs) rfl rfl ht rfl hu
  exact ⟨_, ht, hs, hu, huniform null_or_items_uniform, hsound (huniform null_or_items_uniform)⟩

end Step

end AvroColumns
