import AvroColumns.Plan.Expansion
import AvroColumns.Proofs.Walk.Trail

namespace AvroColumns.Guide

open Outcome

variable {g : Guide} {p q r : Position} {segment : Segment} {segments segments' : List Segment}
  {v entry : Datum} {target : Target} {cell : Option Cell} {group : BoundGroup} {rows : List Row}

theorem bind_defaultNode?_eq_none (hd : g.defaults = none) (fallback : Option Schema) :
    fallback.bind g.defaultNode? = none := by
  cases fallback <;> simp [defaultNode?, hd]

theorem Onward.fallback_eq_none {fallback : Option Schema} {s : Segment} {n : Node}
    (hd : g.defaults = none) (h : g.Onward fallback s n v q) : q.fallback = none := by
  cases h with
  | member => simp [defaultRecord?, bind_defaultNode?_eq_none hd]
  | entry => simp [defaultValues?, bind_defaultNode?_eq_none hd]
  | item => simp [defaultItems?, bind_defaultNode?_eq_none hd]

theorem entryFallback_eq_none (hd : g.defaults = none) (container : Option Schema) :
    g.entryFallback container = none := by
  rw [entryFallback, bind_defaultNode?_eq_none hd]

theorem finish_of_segments {w : Walk} (h : g.finish segments target w = .ok cell) :
    g.finish segments' target w = .ok cell := by
  cases w with
  | absent => exact h
  | defaulted => exact h
  | reached p =>
    simp only [finish, bind_eq_ok_iff] at h ⊢
    obtain ⟨n, hn, h⟩ := h
    refine ⟨n, hn, ?_⟩
    cases hk : n.leaf? with
    | some kind => simpa [hk] using h
    | none => simp [hk] at h

theorem extractFrom_eq_ok_iff :
    g.extractFrom p segments target = .ok cell ↔
      ∃ w, g.walk segments p = .ok w ∧ g.finish segments target w = .ok cell :=
  bind_eq_ok_iff

theorem extractFrom_append (hl : g.Leads p segments r)
    (hs : g.step segments'.isEmpty segment r = .ok (.onward q))
    (h : g.extractFrom q segments' target = .ok cell) :
    g.extractFrom p (segments ++ segment :: segments') target = .ok cell := by
  obtain ⟨w, hw, hc⟩ := extractFrom_eq_ok_iff.mp h
  refine extractFrom_eq_ok_iff.mpr ⟨w, ?_, finish_of_segments hc⟩
  rw [walk, hl.walkFrom_append, walkFrom_of_onward hs]
  exact walkFrom_of_previous hw

theorem entries?_eq_some {n : Node} {schema : Schema} {vs : List Datum}
    (h : entries? n v = some (schema, vs)) :
    (∃ entries, n = .map schema ∧ v = .map entries ∧ vs = entries.map (·.2)) ∨
      n = .array schema ∧ v = .array vs := by
  cases n with
  | map values =>
    cases v with
    | map entries => cases h; exact .inl ⟨entries, rfl, rfl, rfl⟩
    | _ => cases h
  | array items =>
    cases v with
    | array vs => cases h; exact .inr ⟨rfl, rfl⟩
    | _ => cases h
  | _ => cases h

theorem addressed?_of_entries? {n : Node} {schema : Schema} {vs : List Datum}
    (h : entries? n v = some (schema, vs)) :
    ∃ entries, v.addressed? = some entries ∧ entries.map (·.2) = vs := by
  obtain ⟨entries, -, rfl, rfl⟩ | ⟨-, rfl⟩ := entries?_eq_some h
  · exact ⟨_, rfl, by simp⟩
  · exact ⟨_, rfl, by simp [List.map_map, Function.comp_def]⟩

theorem onward_of_addressed (fallback : Option Schema) {n : Node} {schema : Schema}
    {vs : List Datum} {entries : List (Segment × Datum)} {i : Nat} (hv : v.DistinctKeys)
    (he : entries? n v = some (schema, vs)) (ha : v.addressed? = some entries)
    (hi : entries[i]? = some (segment, entry)) :
    ∃ fallback', g.Onward fallback segment n v ⟨entry, schema, fallback'⟩ := by
  obtain ⟨entries, rfl, rfl, -⟩ | ⟨rfl, rfl⟩ := entries?_eq_some he
  · cases ha
    simp only [List.getElem?_map, Option.map_eq_some_iff, Prod.mk.injEq] at hi
    obtain ⟨⟨key, v⟩, hi, rfl, rfl⟩ := hi
    exact ⟨_, .entry rfl (Datum.lookup_of_mem (hv _ .refl) (List.mem_of_getElem? hi))⟩
  · cases ha
    simp only [List.getElem?_map, List.getElem?_zipIdx, Option.map_eq_some_iff, Prod.mk.injEq] at hi
    obtain ⟨⟨v, k⟩, ⟨v', hi, h⟩, rfl, rfl⟩ := hi
    cases h
    exact ⟨_, .item rfl (by omega) (by simpa using hi)⟩

theorem expand_rows (h : g.expand group v = .ok (.rows rows)) :
    ∃ p n schema vs, g.walk group.container.segments (g.start v) = .ok (.reached p) ∧
      g.node p.schema = .ok n ∧ entries? n p.value = some (schema, vs) ∧
      (vs.mapM fun entry =>
        g.entryRow ⟨entry, schema, g.entryFallback p.fallback⟩ group.members) = .ok rows := by
  simp only [expand, bind_eq_ok_iff, mapError_eq_ok_iff] at h
  obtain ⟨w, hw, h⟩ := h
  cases w with
  | absent => cases h
  | defaulted => cases h
  | reached p =>
    simp only [expandAt, bind_eq_ok_iff, mapError_eq_ok_iff] at h
    obtain ⟨n, hn, h⟩ := h
    cases he : entries? n p.value with
    | none => simp [he] at h
    | some e =>
      obtain ⟨schema, vs⟩ := e
      simp only [he, bind_eq_ok_iff] at h
      obtain ⟨rows', hr, h⟩ := h
      cases h
      exact ⟨p, n, schema, vs, hw, hn, he, hr⟩

/-- An expansion that gives rows gives one for each entry of its container, and the cell of a member
in the row of an entry is the one that the member's column has at the path through the entry. -/
theorem extract_of_expand (hd : g.defaults = none) (hv : v.DistinctKeys)
    (h : g.expand group v = .ok (.rows rows)) :
    ∃ p entries, g.walk group.container.segments (g.start v) = .ok (.reached p) ∧
      p.value.addressed? = some entries ∧ rows.length = entries.length ∧
      ∀ (i : Nat) (segment : Segment) (entry : Datum) (row : Row),
        entries[i]? = some (segment, entry) → rows[i]? = some row →
        row.length = group.members.length ∧
        ∀ (j : Nat) (member : BoundMember), group.members[j]? = some member →
          ∃ cell : Option Cell, row[j]? = some cell ∧
            g.extract v ⟨group.container.root,
                group.container.segments ++ segment :: member.path.segments⟩
              member.column.target = .ok cell := by
  obtain ⟨p, n, schema, vs, hw, hn, he, hr⟩ := expand_rows h
  obtain ⟨entries, ha, rfl⟩ := addressed?_of_entries? he
  refine ⟨p, entries, hw, ha, by simpa using length_of_mapM hr, ?_⟩
  intro i segment entry row hi hrow
  obtain ⟨q, place, hl, harr⟩ := leads_of_reached hw
  obtain ⟨schema', v', hs, hnull, rfl⟩ := arrive_reached_iff.mp harr
  have hv' := hv.of_within ((settle_within hs).trans hl.within)
  obtain ⟨fallback, ho⟩ := onward_of_addressed (g := g)
    (q.fallback.bind g.defaultContainer?) hv' he ha hi
  obtain rfl : fallback = none := ho.fallback_eq_none hd
  have hentry : (entries.map (·.2))[i]? = some entry := by rw [List.getElem?_map, hi]; rfl
  obtain ⟨_, hrow', hcells⟩ := getElem?_of_mapM hr hentry
  obtain rfl := Option.some.inj (hrow'.symm.trans hrow)
  rw [entryFallback_eq_none hd] at hcells
  refine ⟨length_of_mapM hcells, ?_⟩
  intro j member hj
  obtain ⟨cell, hc, hx⟩ := getElem?_of_mapM hcells hj
  refine ⟨cell, hc, extractFrom_append hl ?_ (mapError_eq_ok_iff.mp hx)⟩
  exact step_onward_iff.mpr ⟨_, _, _, settle_of_place _ hs, hnull, hn, ho⟩

def nullableEntries : Guide :=
  ⟨.ofSchema (.map (.union [.primitive .null, .primitive .int])), none, false⟩

theorem extract_of_expand_nullable :
    nullableEntries.expand ⟨⟨.container, []⟩,
          [⟨⟨"x", "$[*]", .integer, none⟩, 0, ⟨.record, []⟩⟩]⟩
        (.map [("a", .union 1 (.int 1)), ("b", .union 0 .null)]) =
      .ok (.rows [[some (.integer 1)], [none]]) ∧
    nullableEntries.extract (.map [("a", .union 1 (.int 1)), ("b", .union 0 .null)])
        ⟨.container, [.key "b"]⟩ .integer = .ok none := by
  have hexpand : nullableEntries.expand ⟨⟨.container, []⟩,
        [⟨⟨"x", "$[*]", .integer, none⟩, 0, ⟨.record, []⟩⟩]⟩
      (.map [("a", .union 1 (.int 1)), ("b", .union 0 .null)]) =
    .ok (.rows [[some (.integer 1)], [none]]) := rfl
  have hleaf (i : Nat) {v : Datum} (hm : ∀ entries, v ≠ .map entries) (hp : v.parts = []) :
      Datum.DistinctKeys (.union i v) := by
    refine .of_parts (by simp) fun w hw => ?_
    obtain rfl := List.mem_singleton.mp hw
    exact .of_parts (fun entries he => absurd he (hm entries)) (by simp [hp])
  have hv : Datum.DistinctKeys (.map [("a", .union 1 (.int 1)), ("b", .union 0 .null)]) := by
    refine .of_parts (by simp) ?_
    simp only [Datum.parts, List.map_cons, List.map_nil, List.forall_mem_cons]
    exact ⟨hleaf 1 (by simp) rfl, hleaf 0 (by simp) rfl, by simp⟩
  obtain ⟨p, entries, hw, ha, -, hcells⟩ := extract_of_expand rfl hv hexpand
  cases hw
  cases ha
  obtain ⟨-, hcell⟩ := hcells 1 _ _ _ rfl rfl
  obtain ⟨cell, hc, hx⟩ := hcell 0 _ rfl
  cases hc
  exact ⟨hexpand, hx⟩

end AvroColumns.Guide
