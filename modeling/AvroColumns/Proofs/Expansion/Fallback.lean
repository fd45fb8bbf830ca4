import AvroColumns.Proofs.Expansion.Addressing

/-!
# Entries in the default schema

An expansion and a walk into an entry each look up on their own where the entry stands in the default
schema. They agree unless the default schema has an array where the values have a map or the other way
round: an expansion then goes on beside the entries of the other kind of container, and a walk beside
nothing.
-/

namespace AvroColumns.Guide

open Outcome

/-- The default schema has a container of the other kind where the values have a map or an array. -/
inductive Recast (g : Guide) (container : Option Schema) : Node → Prop
  | toArray {values items}
    (h : (container.bind g.defaultContainer?).bind g.defaultNode? = some (.array items)) :
    Recast g container (.map values)
  | toMap {items values}
    (h : (container.bind g.defaultContainer?).bind g.defaultNode? = some (.map values)) :
    Recast g container (.array items)

variable {g : Guide} {p q q' r : Position} {s segment : Segment} {segments suffix : List Segment}
  {n : Node} {v entry : Datum} {vs : List Datum} {schema : Schema} {container : Option Schema}
  {target : Target} {group : BoundGroup}

theorem Leads.unique (h : g.Leads p segments q) (h' : g.Leads p segments q') : q = q' := by
  induction h with
  | nil =>
    cases h'
    rfl
  | cons hs _ ih =>
    cases h' with
    | cons hs' h' =>
      cases hs.symm.trans hs'
      exact ih h'

theorem leads_concat_iff :
    g.Leads p (segments ++ [s]) r ↔
      ∃ q, g.Leads p segments q ∧ g.step false s q = .ok (.onward r) := by
  constructor
  · intro h
    induction segments generalizing p with
    | nil =>
      obtain _ | ⟨hs, ⟨⟩⟩ := h
      exact ⟨p, .nil, hs⟩
    | cons s' segments ih =>
      obtain _ | ⟨hs', h⟩ := h
      obtain ⟨q, hq, hs⟩ := ih h
      exact ⟨q, .cons hs' hq, hs⟩
  · rintro ⟨q, h, hs⟩
    induction h with
    | nil => exact .cons hs .nil
    | cons hs' _ ih => exact .cons hs' (ih hs)

theorem recast_map_iff {values : Schema} :
    g.Recast container (.map values) ↔
      ∃ items, (container.bind g.defaultContainer?).bind g.defaultNode? = some (.array items) := by
  constructor
  · rintro ⟨h⟩
    exact ⟨_, h⟩
  · rintro ⟨items, h⟩
    exact .toArray h

theorem recast_array_iff {items : Schema} :
    g.Recast container (.array items) ↔
      ∃ values, (container.bind g.defaultContainer?).bind g.defaultNode? = some (.map values) := by
  constructor
  · rintro (_ | h)
    exact ⟨_, h⟩
  · rintro ⟨values, h⟩
    exact .toMap h

theorem Onward.entryFallback_eq_iff
    (h : g.Onward (container.bind g.defaultContainer?) s n v q)
    (he : entries? n v = some (schema, vs)) :
    q.value ∈ vs ∧ q.schema = schema ∧
      (g.entryFallback container = q.fallback ↔ ¬ g.Recast container n) ∧
      (g.Recast container n → q.fallback = none) := by
  cases h with
  | member => cases he
  | entry _ hl =>
    cases he
    refine ⟨List.mem_map_of_mem (f := (·.2)) (Datum.lookup_mem hl), rfl, ?_⟩
    rw [recast_map_iff, entryFallback, defaultValues?]
    cases (container.bind g.defaultContainer?).bind g.defaultNode? with
    | none => simp
    | some m => cases m <;> simp
  | item _ _ hi =>
    cases he
    refine ⟨List.mem_of_getElem? hi, rfl, ?_⟩
    rw [recast_array_iff, entryFallback, defaultItems?]
    cases (container.bind g.defaultContainer?).bind g.defaultNode? with
    | none => simp
    | some m => cases m <;> simp

theorem expand_of_reached (hw : g.walk group.container.segments (g.start v) = .ok (.reached p))
    (hn : g.node p.schema = .ok n) (he : entries? n p.value = some (schema, vs)) :
    g.expand group v =
      (vs.mapM fun entry =>
        g.entryRow ⟨entry, schema, g.entryFallback p.fallback⟩ group.members).map .rows := by
  simp only [expand, expandAt, hw, hn, he, Except.mapError, ok_bind]
  cases vs.mapM fun entry =>
      g.entryRow ⟨entry, schema, g.entryFallback p.fallback⟩ group.members <;> rfl

theorem walk_of_leads (hl : g.Leads p segments r)
    (hs : g.step false segment r = .ok (.onward q)) (w : Walk) :
    g.walk suffix q = .ok w ↔ g.walk (segments ++ segment :: suffix) p = .ok w := by
  rw [walk, walk, hl.walkFrom_append, walkFrom_of_onward (step_of_onward _ hs)]
  exact ⟨walkFrom_of_previous, walkFrom_of_previous⟩

theorem extractFrom_of_leads (hl : g.Leads p segments r)
    (hs : g.step false segment r = .ok (.onward q)) (cell : Option Cell) :
    g.extractFrom q suffix target = .ok cell ↔
      g.extractFrom p (segments ++ segment :: suffix) target = .ok cell := by
  rw [extractFrom_eq_ok_iff, extractFrom_eq_ok_iff]
  constructor
  · rintro ⟨w, hw, hc⟩
    exact ⟨w, (walk_of_leads hl hs w).mp hw, finish_of_segments hc⟩
  · rintro ⟨w, hw, hc⟩
    exact ⟨w, (walk_of_leads hl hs w).mpr hw, finish_of_segments hc⟩

/-- An expansion goes on from every entry beside the place that a step into the entry comes to in the
default schema, exactly if no map stands against an array there. Then a walk or an extraction from an
entry succeeds as the one along the whole path does, with the same outcome. -/
theorem entryFallback_carried (hv : v.DistinctKeys)
    (hw : g.walk group.container.segments (g.start v) = .ok (.reached p))
    (hn : g.node p.schema = .ok n) (he : entries? n p.value = some (schema, vs)) :
    g.expand group v =
      (vs.mapM fun entry =>
        g.entryRow ⟨entry, schema, g.entryFallback p.fallback⟩ group.members).map .rows ∧
    (∃ entries, p.value.addressed? = some entries ∧ entries.map (·.2) = vs ∧
      ∀ segment entry, (segment, entry) ∈ entries → ∃ fallback,
        g.Leads (g.start v) (group.container.segments ++ [segment]) ⟨entry, schema, fallback⟩) ∧
    ∀ segment q, g.Leads (g.start v) (group.container.segments ++ [segment]) q →
      q.value ∈ vs ∧ q.schema = schema ∧
      (g.entryFallback p.fallback = q.fallback ↔ ¬ g.Recast p.fallback n) ∧
      (g.Recast p.fallback n → q.fallback = none) ∧
      (¬ g.Recast p.fallback n → ∀ suffix : List Segment,
        (∀ w, g.walk suffix ⟨q.value, schema, g.entryFallback p.fallback⟩ = .ok w ↔
          g.walk (group.container.segments ++ segment :: suffix) (g.start v) = .ok w) ∧
        ∀ target cell,
          g.extractFrom ⟨q.value, schema, g.entryFallback p.fallback⟩ suffix target = .ok cell ↔
            g.extract v ⟨group.container.root, group.container.segments ++ segment :: suffix⟩
              target = .ok cell) := by
  obtain ⟨r, place, hl, harr⟩ := leads_of_reached hw
  obtain ⟨schema', v', hs, hnull, rfl⟩ := arrive_reached_iff.mp harr
  refine ⟨expand_of_reached hw hn he, ?_, ?_⟩
  · obtain ⟨entries, ha, hvs⟩ := addressed?_of_entries? he
    refine ⟨entries, ha, hvs, ?_⟩
    intro segment entry hmem
    obtain ⟨i, hi⟩ := List.mem_iff_getElem?.mp hmem
    have hv' := hv.of_within ((settle_within hs).trans hl.within)
    obtain ⟨fallback, ho⟩ := onward_of_addressed (g := g)
      (r.fallback.bind g.defaultContainer?) hv' he ha hi
    refine ⟨fallback, leads_concat_iff.mpr ⟨r, hl, ?_⟩⟩
    exact step_onward_iff.mpr ⟨_, _, _, settle_of_place _ hs, hnull, hn, ho⟩
  · intro segment q hq
    obtain ⟨r', hl', hstep⟩ := leads_concat_iff.mp hq
    obtain rfl := hl.unique hl'
    -- the step settles the unions once more, at its own place, and comes to the same container
    obtain ⟨_, _, _, hs', -, hn', ho⟩ := step_onward_iff.mp hstep
    cases (settle_of_place segment.text hs).symm.trans hs'
    cases hn.symm.trans hn'
    obtain ⟨hmem, hschema, hiff, hnone⟩ := ho.entryFallback_eq_iff he
    refine ⟨hmem, hschema, hiff, hnone, ?_⟩
    intro hr suffix
    rw [hiff.mpr hr, ← hschema]
    exact ⟨walk_of_leads hl hstep, fun target => extractFrom_of_leads hl hstep⟩

def tag : Schema :=
  .record ⟨⟨"", "tag"⟩, [⟨"v", [], .primitive .string, none⟩]⟩

def numberedTag : Schema :=
  .record ⟨⟨"", "tag"⟩,
    [⟨"v", [], .primitive .string, none⟩, ⟨"w", [], .primitive .int, some (.int 7)⟩]⟩

def tags : Datum :=
  .map [("a", .record [("v", .string "x")]), ("b", .record [("v", .string "y")])]

theorem tags_distinctKeys : tags.DistinctKeys := by
  have hleaf (x : String) : Datum.DistinctKeys (.string x) := by
    apply Datum.DistinctKeys.of_parts
    · rintro entries ⟨⟩
    · simp [Datum.parts]
  have htag (x : String) : Datum.DistinctKeys (.record [("v", .string x)]) := by
    apply Datum.DistinctKeys.of_parts
    · rintro entries ⟨⟩
    · exact List.forall_mem_singleton.mpr (hleaf x)
  refine .of_parts (by simp [tags]) ?_
  simp only [tags, Datum.parts, List.map_cons, List.map_nil]
  exact List.forall_mem_cons.mpr ⟨htag "x", List.forall_mem_singleton.mpr (htag "y")⟩

def numbers : BoundGroup :=
  ⟨⟨.container, []⟩, [⟨⟨"w", "$[*].w", .integer, none⟩, 0, ⟨.record, [.member "w"]⟩⟩]⟩

theorem entryFallback_carried_numbers :
    let g : Guide := ⟨.ofSchema (.map tag),
      some (.ofSchema (.union [.primitive .null, .map numberedTag])), false⟩
    let y : Datum := .record [("v", .string "y")]
    tags.DistinctKeys ∧ ¬ g.Recast (g.start tags).fallback (.map tag) ∧
      g.Leads (g.start tags) [.key "b"] ⟨y, tag, some numberedTag⟩ ∧
      g.entryFallback (g.start tags).fallback = some numberedTag ∧
      g.expand numbers tags = .ok (.rows [[some (.integer 7)], [some (.integer 7)]]) ∧
      g.extract tags ⟨.container, [.key "b", .member "w"]⟩ .integer = .ok (some (.integer 7)) := by
  intro g y
  have hr : ¬ g.Recast (g.start tags).fallback (.map tag) := by
    rw [recast_map_iff]
    rintro ⟨items, h⟩
    cases h
  have hq : g.Leads (g.start tags) [.key "b"] ⟨y, tag, some numberedTag⟩ := .cons rfl .nil
  have hw : g.walk numbers.container.segments (g.start tags) = .ok (.reached (g.start tags)) := rfl
  obtain ⟨hexpand, -, hentries⟩ := entryFallback_carried tags_distinctKeys hw rfl rfl
  obtain ⟨-, -, hcarried, -, hcells⟩ := hentries (.key "b") _ hq
  exact ⟨tags_distinctKeys, hr, hq, hcarried.mpr hr, hexpand,
    ((hcells hr [.member "w"]).2 .integer _).mp rfl⟩

theorem listed_tags_differ :
    let g : Guide := ⟨.ofSchema (.map tag), some (.ofSchema (.array numberedTag)), false⟩
    ∃ p q, g.walk [] (g.start tags) = .ok (.reached p) ∧ g.Leads (g.start tags) [.key "b"] q ∧
      g.entryFallback p.fallback = some numberedTag ∧ q.fallback = none ∧
      g.expand numbers tags = .ok (.rows [[some (.integer 7)], [some (.integer 7)]]) ∧
      g.extract tags ⟨.container, [.key "b", .member "w"]⟩ .integer = .error (.missing ".w") :=
  ⟨_, _, rfl, .cons rfl .nil, rfl, rfl, rfl, rfl⟩

end AvroColumns.Guide
