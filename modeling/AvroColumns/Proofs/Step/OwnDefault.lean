import AvroColumns.Proofs.Expansion.Addressing
import AvroColumns.Proofs.Step.Caching
import AvroColumns.Proofs.Walk.OwnDefault

namespace AvroColumns

open Outcome

/-- The default schema shows in the rows of a group: it has an answer where the container is missing,
or shows in a cell of an entry. -/
def BoundGroup.DefaultShows (g : Guide) (group : BoundGroup) (v : Datum) : Prop :=
  (∃ o, g.StandsIn group.container.segments (g.start v) o ∧
    ¬ (g.tolerant = true ∧ ∃ w, o = .ok w)) ∨
  ∃ p n schema vs, g.walk group.container.segments (g.start v) = .ok (.reached p) ∧
    g.node p.schema = .ok n ∧ Guide.entries? n p.value = some (schema, vs) ∧
    ∃ entry ∈ vs, ∃ m ∈ group.members,
      g.DefaultShows ⟨entry, schema, g.entryFallback p.fallback⟩ m.path.segments m.column.target

/-- The default schema shows in some cell of a value's rows. -/
def Binding.DefaultShows (g : Guide) (b : Binding) (v : Datum) : Prop :=
  (∃ m ∈ b.plain, g.DefaultShows (g.start v) m.path.segments m.column.target) ∨
  ∃ group, b.group = some group ∧ group.DefaultShows g v

namespace Guide

variable {g : Guide} {p q : Position} {v : Datum} {n : Node} {group : BoundGroup} {b : Binding}

theorem entryRow_withoutDefaults {members : List BoundMember}
    (h : ∀ m ∈ members, ¬ g.DefaultShows p m.path.segments m.column.target) :
    g.withoutDefaults.entryRow p.forget members = g.entryRow p members := by
  apply mapM_congr
  intro m hm
  rw [extractFrom_withoutDefaults_iff.mpr (h m hm)]

theorem expandAt_withoutDefaults
    (h : ∀ n schema vs, g.node p.schema = .ok n → entries? n p.value = some (schema, vs) →
      ∀ entry ∈ vs, ∀ m ∈ group.members,
        ¬ g.DefaultShows ⟨entry, schema, g.entryFallback p.fallback⟩ m.path.segments
          m.column.target) :
    g.withoutDefaults.expandAt group p.forget = g.expandAt group p := by
  cases hn : g.node p.schema with
  | error f => simp [expandAt, hn]
  | ok n =>
    cases he : entries? n p.value with
    | none => simp [expandAt, hn, he]
    | some e =>
      obtain ⟨schema, vs⟩ := e
      have hrow : ∀ entry ∈ vs,
          g.withoutDefaults.entryRow ⟨entry, schema, none⟩ group.members =
            g.entryRow ⟨entry, schema, g.entryFallback p.fallback⟩ group.members :=
        fun entry hentry => entryRow_withoutDefaults
          (p := ⟨entry, schema, g.entryFallback p.fallback⟩) (h n schema vs hn he entry hentry)
      simp [expandAt, hn, he, mapM_congr hrow]

theorem expand_withoutDefaults (h : ¬ group.DefaultShows g v) :
    g.withoutDefaults.expand group v = g.expand group v := by
  rw [BoundGroup.DefaultShows, not_or] at h
  obtain ⟨hstands, hentries⟩ := h
  rw [expand, expand]
  by_cases hs : ∃ o, g.StandsIn group.container.segments (g.start v) o
  · obtain ⟨o, hs⟩ := hs
    obtain ⟨ht, w, rfl⟩ : g.tolerant = true ∧ ∃ w, o = .ok w := by
      by_contra hne
      exact hstands ⟨o, hs, hne⟩
    have hw : g.withoutDefaults.walk group.container.segments (g.withoutDefaults.start v) =
        .ok .absent := by
      rw [walk, start_withoutDefaults, hs.walkFrom_withoutDefaults, if_pos ht]
    rw [hw, walk, hs.walkFrom]
    obtain ⟨literal, kind, rfl⟩ := hs.defaulted
    simp
  · simp only [not_exists] at hs
    have hw : g.withoutDefaults.walk group.container.segments (g.withoutDefaults.start v) =
        (g.walk group.container.segments (g.start v)).map Walk.forget :=
      walkFrom_withoutDefaults hs
    rw [hw]
    cases hw' : g.walk group.container.segments (g.start v) with
    | error f => simp
    | ok w =>
      simp only [map_ok, mapError_ok, ok_bind]
      cases w with
      | absent => simp
      | defaulted => simp
      | reached p =>
        refine expandAt_withoutDefaults fun n schema vs hn he entry hentry m hm hshows => ?_
        exact hentries ⟨p, n, schema, vs, hw', hn, he, entry, hentry, m, hm, hshows⟩

theorem Aligned.entry (hd : g.defaults = some g.document) (hu : g.document.Unambiguous)
    (hp : g.Aligned p) {place : String} (ha : g.arrive place p = .ok (.reached q))
    {schema : Schema} {vs : List Datum} (hn : g.node q.schema = .ok n)
    (he : entries? n q.value = some (schema, vs)) (entry : Datum) :
    g.Aligned ⟨entry, schema, g.entryFallback q.fallback⟩ := by
  obtain ⟨t, v, hs, -, rfl⟩ := arrive_reached_iff.mp ha
  have hin : n.inner = [schema] := by
    obtain ⟨_, rfl, -, -⟩ | ⟨rfl, -⟩ := entries?_eq_some he <;> rfl
  refine ⟨.inner hp.1 (settle_branch hs) (node_eq_ok_iff.mp hn) (by simp [hin]), ?_⟩
  change g.entryFallback p.fallback = none ∨ g.entryFallback p.fallback = some schema
  rw [entryFallback]
  cases hf : (p.fallback.bind g.defaultContainer?).bind g.defaultNode? with
  | none => exact .inl rfl
  | some m =>
    have same (ha : n.akin m = true) : n = m := hp.node_eq hd hu hs hn hf ha
    cases m with
    | map values =>
      right
      obtain ⟨_, rfl, -, -⟩ | ⟨rfl, -⟩ := entries?_eq_some he
      · cases same rfl
        rfl
      · cases same rfl
    | array items =>
      right
      obtain ⟨_, rfl, -, -⟩ | ⟨rfl, -⟩ := entries?_eq_some he
      · cases same rfl
      · cases same rfl
        rfl
    | _ => exact .inl rfl

end Guide

theorem Binding.not_defaultShows_own {g : Guide} {b : Binding} {v : Datum}
    (hd : g.defaults = some g.document) (hu : g.document.Unambiguous) :
    ¬ b.DefaultShows g v := by
  rintro (⟨m, -, hm⟩ | ⟨group, -, ⟨o, ho, -⟩ | hentry⟩)
  · exact Guide.not_defaultShows_own hd hu hm
  · exact (Guide.aligned_start hd).not_standsIn hd hu ho
  · obtain ⟨p, n, schema, vs, hw, hn, he, entry, -, m, -, o, ho, -⟩ := hentry
    obtain ⟨q, place, hl, ha⟩ := Guide.leads_of_reached hw
    have hq := (Guide.aligned_start (v := v) hd).leads hd hu hl
    exact (hq.entry hd hu ha hn he entry).not_standsIn hd hu ho

namespace Step

variable {s : Step} {g : Guide} {b : Binding} {v : Datum} {d : Document} {passed r r' : Row}
  {fs : Files} {cache cache' : Cache}

theorem cells_withoutDefaults (h : ¬ b.DefaultShows g v) :
    s.cells g.withoutDefaults b v = s.cells g b v := by
  rw [Binding.DefaultShows, not_or] at h
  obtain ⟨hplain, hgroup⟩ := h
  have hp : plainCells g.withoutDefaults b v = plainCells g b v := by
    apply mapM_congr
    intro m hm
    have he : g.withoutDefaults.extract v m.path m.column.target =
        g.extract v m.path m.column.target :=
      Guide.extractFrom_withoutDefaults_iff.mpr fun hs => hplain ⟨m, hm, hs⟩
    rw [he]
  rw [cells, cells, hp]
  cases plainCells g b v with
  | error f => simp only [error_bind]
  | ok plain =>
    simp only [ok_bind]
    cases hb : b.group with
    | none => simp only
    | some group =>
      simp only
      rw [Guide.expand_withoutDefaults fun hs => hgroup ⟨group, hb, hs⟩]

theorem decodeValue_isDefault (h : ¬ b.DefaultShows (s.guide d false) v) :
    s.decodeValue (some b) passed v d false = s.decodeValue (some b) passed v d true := by
  rw [decodeValue, decodeValue, ← cells_withoutDefaults h]
  rfl

/-- Two rows with one payload, of which one has the text of a schema and the other names none. -/
structure Repeats (s : Step) (d : Document) (r r' : Row) : Prop where
  text : ∃ text, s.schemaText r = .ok (some text) ∧ Document.ofText text = .ok d
  blank : s.schemaText r' = .ok none
  length : r'.length = r.length
  payload : r'[s.config.payloadColumn]? = r[s.config.payloadColumn]?

theorem Repeats.chosen (h : s.Repeats d r r') (fs : Files) (hd : s.default = some d)
    (hp : s.config.schemaIsPath = false) :
    s.chosen (s.reader fs) r = .ok ⟨d, false⟩ ∧ s.chosen (s.reader fs) r' = .ok ⟨d, true⟩ := by
  obtain ⟨text, hr, ht⟩ := h.text
  rw [Step.chosen, Step.chosen, hr, h.blank]
  constructor
  · simp only [named, reader, hp, Bool.false_eq_true, if_false, ht]
    rfl
  · simp only [chooseDefault, hd]

theorem Repeats.decodeRow (h : s.Repeats d r r') (hd : s.default = some d)
    (hp : s.config.schemaIsPath = false) (hc : cache.Sound (s.reader fs))
    (hc' : cache'.Sound (s.reader fs))
    (hv : ∀ payload v, r[s.config.payloadColumn]? = some (some payload) →
      d.decodePayload s.config.encoding payload = .ok v → ¬ b.DefaultShows (s.guide d false) v) :
    (s.decodeRow fs (some b) cache r).1.map (·.map (·.drop r.length)) =
      (s.decodeRow fs (some b) cache' r').1.map (·.map (·.drop r.length)) := by
  have hb := backs_of_sound hc
  have hb' := backs_of_sound hc'
  obtain ⟨_, hrow, -⟩ := decodeRowBy_of_backs (r := r)
    (fun v chosen => s.decodeValue (some b) r v chosen.document chosen.isDefault) hb hb
  obtain ⟨_, hrow', -⟩ := decodeRowBy_of_backs (r := r')
    (fun v chosen => s.decodeValue (some b) r' v chosen.document chosen.isDefault) hb' hb'
  rw [Step.decodeRow, Step.decodeRow, hrow, hrow', rowsBy, rowsBy, h.payload]
  obtain ⟨hchosen, hchosen'⟩ := h.chosen fs hd hp
  cases hpay : r[s.config.payloadColumn]? with
  | none => simp [h.length]
  | some payload =>
    cases payload with
    | none => simp [← h.length]
    | some payload =>
      simp only [hchosen, hchosen', ok_bind]
      cases hvalue : d.decodePayload s.config.encoding payload with
      | error f => simp only [error_bind]
      | ok v =>
        simp only [ok_bind]
        rw [decodeValue_isDefault (hv payload v hpay hvalue)]
        simp only [decodeValue]
        cases s.cells (s.guide d true) b v with
        | error f => simp only [Except.map]
        | ok rows => simp [← h.length]

end Step

/-- A schema as its own default schema changes exactly the cells in which it shows, which are none if no
union is ambiguous. In rows, too, it shows nowhere then, and it changes nothing where it does not show:
values of the schema decode as without defaults, and a row that repeats its text has the columns of one
that names no schema. -/
theorem own_default (d : Document) :
    (∀ tolerant v path target,
      Guide.extract ⟨d, some d, tolerant⟩ v path target =
          Guide.extract ⟨d, none, tolerant⟩ v path target ↔
        ¬ Guide.DefaultShows ⟨d, some d, tolerant⟩ (Guide.start ⟨d, some d, tolerant⟩ v)
          path.segments target) ∧
    (d.Unambiguous → ∀ tolerant v path target,
      Guide.extract ⟨d, some d, tolerant⟩ v path target =
        Guide.extract ⟨d, none, tolerant⟩ v path target) ∧
    ∀ (s : Step) (b : Binding), s.default = some d →
      (d.Unambiguous → ∀ v, ¬ b.DefaultShows (s.guide d false) v) ∧
      (∀ v passed, ¬ b.DefaultShows (s.guide d false) v →
        s.decodeValue (some b) passed v d false = s.decodeValue (some b) passed v d true) ∧
      ∀ fs cache cache' r r', s.config.schemaIsPath = false → cache.Sound (s.reader fs) →
        cache'.Sound (s.reader fs) → s.Repeats d r r' →
        (∀ payload v, r[s.config.payloadColumn]? = some (some payload) →
          d.decodePayload s.config.encoding payload = .ok v →
          ¬ b.DefaultShows (s.guide d false) v) →
        (s.decodeRow fs (some b) cache r).1.map (·.map (·.drop r.length)) =
          (s.decodeRow fs (some b) cache' r').1.map (·.map (·.drop r.length)) := by
  have hiff (tolerant : Bool) (v : Datum) (path : BoundPath) (target : Target) :
      Guide.extract ⟨d, some d, tolerant⟩ v path target =
          Guide.extract ⟨d, none, tolerant⟩ v path target ↔
        ¬ Guide.DefaultShows ⟨d, some d, tolerant⟩ (Guide.start ⟨d, some d, tolerant⟩ v)
          path.segments target := by
    rw [eq_comm]
    exact Guide.extractFrom_withoutDefaults_iff (g := ⟨d, some d, tolerant⟩)
      (p := Guide.start ⟨d, some d, tolerant⟩ v)
  refine ⟨hiff, ?_, ?_⟩
  · intro hu tolerant v path target
    exact (hiff tolerant v path target).mpr (Guide.not_defaultShows_own rfl hu)
  · intro s b hd
    refine ⟨fun hu v => Binding.not_defaultShows_own hd hu,
      fun v passed hv => Step.decodeValue_isDefault hv, ?_⟩
    intro fs cache cache' r r' hp hc hc' hr hv
    exact hr.decodeRow hd hp hc hc' hv

def twoRecords : Document :=
  .ofSchema (.union [
    .record ⟨⟨"", "A"⟩, [⟨"x", [], .primitive .int, some (.int 5)⟩]⟩,
    .record ⟨⟨"", "B"⟩, [⟨"y", [], .primitive .int, none⟩]⟩])

theorem second_record_takes_default :
    Guide.extract ⟨twoRecords, some twoRecords, false⟩ (.union 1 (.record [("y", .int 1)]))
        ⟨.record, [.member "x"]⟩ .integer = .ok (some (.integer 5)) ∧
      Guide.extract ⟨twoRecords, none, false⟩ (.union 1 (.record [("y", .int 1)]))
        ⟨.record, [.member "x"]⟩ .integer = .error (.missing ".x") :=
  ⟨rfl, rfl⟩

def twoRecordsColumn : Column :=
  ⟨"x", "$.x", .integer, none⟩

def twoRecordsStep : Step :=
  ⟨{ columns := [twoRecordsColumn] },
    ⟨[twoRecordsColumn], [⟨twoRecordsColumn, 0, ⟨"$.x", .record, [.member "x"]⟩⟩], []⟩,
    some twoRecords⟩

theorem own_default_first_record :
    twoRecordsStep.default = some twoRecords ∧
      ¬ (twoRecordsStep.bind .none).DefaultShows (twoRecordsStep.guide twoRecords false)
        (.union 0 (.record [("x", .int 3)])) ∧
      twoRecordsStep.decodeValue (some (twoRecordsStep.bind .none)) []
          (.union 0 (.record [("x", .int 3)])) twoRecords false =
        twoRecordsStep.decodeValue (some (twoRecordsStep.bind .none)) []
          (.union 0 (.record [("x", .int 3)])) twoRecords true := by
  obtain ⟨hcell, -, hrows⟩ := own_default twoRecords
  have hshows : ¬ (twoRecordsStep.bind .none).DefaultShows (twoRecordsStep.guide twoRecords false)
      (.union 0 (.record [("x", .int 3)])) := by
    rintro (⟨m, hm, hs⟩ | ⟨group, hg, -⟩)
    · obtain rfl := List.mem_singleton.mp hm
      exact (hcell false _ ⟨.record, [.member "x"]⟩ .integer).mp rfl hs
    · cases hg
  exact ⟨rfl, hshows, (hrows twoRecordsStep _ rfl).2.1 _ [] hshows⟩

end AvroColumns
