import Mathlib.Data.List.Nodup
import Mathlib.Data.List.TakeWhile
import AvroColumns.Proofs.Path.Binding
import AvroColumns.Proofs.Plan.Wildcards
import AvroColumns.Proofs.Text.Blank

/-!
# Plans as partitions

Columns have a plan if each of their paths can be read and has at most one wildcard. The plan then holds
every column once, among the plain ones or in the group of its container, in the order of the columns.
A group has the columns whose paths run through its container, and no other group has that container.
-/

namespace AvroColumns

open Outcome

namespace Path

variable {p : Path} {i : Nat}

theorem cut_at_wildcard (h : p.wildcard? = some i) :
    p.segments = (p.container i).segments ++ .wildcard :: (p.behind i).segments := by
  obtain ⟨hi, hw, -⟩ := List.findIdx?_eq_some_iff_getElem.mp h
  have hwildcard : p.segments[i] = .wildcard := by
    cases hs : p.segments[i] with
    | wildcard => rfl
    | _ =>
      rw [hs] at hw
      cases hw
  rw [container, behind, ← hwildcard, List.getElem_cons_drop, List.take_append_drop]

def lead (p : Path) : List Segment :=
  p.segments.takeWhile (!·.isWildcard)

theorem lead_eq {before after : List Segment} (h : p.segments = before ++ .wildcard :: after)
    (hbefore : .wildcard ∉ before) : p.lead = before := by
  have hplain : ∀ s ∈ before, (!s.isWildcard) = true := by
    intro s hs
    cases s with
    | wildcard => exact absurd hs hbefore
    | _ => rfl
  rw [lead, h, List.takeWhile_append_of_pos hplain, List.takeWhile_cons_of_neg (by simp [Segment.isWildcard]),
    List.append_nil]

end Path

namespace Plan

variable {columns : List Column} {plan : Plan} {ps : List Placement} {place : Placement} {c : Column}
  {i : Nat} {container : Path} {p : Placed} {gs : List Group} {g : Group}

def Plannable (c : Column) : Prop :=
  ∃ path, Path.compile c.path = .ok path ∧ path.segments.countP Segment.isWildcard ≤ 1

theorem exists_place_iff : (∃ place, Plan.place i c = .ok place) ↔ Plannable c := by
  constructor
  · rintro ⟨place, h⟩
    obtain ⟨path, hp, -⟩ := place_eq_ok h
    exact ⟨path, hp, count_of_place h hp⟩
  · rintro ⟨path, hp, hcount⟩
    have hblank : Text.isBlankText c.path = false := by
      rw [Bool.eq_false_iff, Text.isBlankText]
      intro h
      exact (Path.compile_eq_ok_iff.mp hp).1 (Text.trimChars_eq_nil_iff.mpr (List.all_eq_true.mp h))
    cases hw : path.wildcard? <;> simp [Plan.place, hblank, hp, Nat.not_lt.mpr hcount, hw]

theorem exists_compile_iff : (∃ plan, compile columns = .ok plan) ↔ ∀ c ∈ columns, Plannable c := by
  constructor
  · rintro ⟨plan, h⟩ c hc
    obtain ⟨ps, hps, -⟩ := compile_eq_ok_iff.mp h
    obtain ⟨i, hi⟩ := List.mem_iff_getElem?.mp hc
    obtain ⟨place, -, hplace⟩ := getElem?_of_place hps hi
    exact exists_place_iff.mp ⟨place, hplace⟩
  · intro h
    have hplaces : ∀ x ∈ columns.zipIdx, ∃ place, Plan.place x.2 x.1 = .ok place :=
      fun x hx => exists_place_iff.mpr (h x.1 (List.fst_mem_of_mem_zipIdx hx))
    obtain ⟨ps, hps⟩ := exists_mapM hplaces
    exact ⟨⟨columns, plainOf ps, groupsOf ps⟩, compile_eq_ok_iff.mpr ⟨ps, hps, rfl⟩⟩

def membersOf (container : List Segment) (ps : List Placement) : List Placed :=
  ps.filterMap fun
    | .plain _ => none
    | .grouped c p => if c.segments = container then some p else none

/-- Each container has one group, which holds the columns that run through it. -/
structure Gathers (ps : List Placement) (gs : List Group) : Prop where
  distinct : (gs.map (·.container.segments)).Nodup
  members : ∀ g ∈ gs, g.members = membersOf g.container.segments ps
  others : ∀ container ∉ gs.map (·.container.segments), membersOf container ps = []

theorem addMember_cases (container : Path) (p : Placed) (gs : List Group) :
    (container.segments ∉ gs.map (·.container.segments) ∧
      addMember container p gs = gs ++ [⟨container, [p]⟩]) ∨
    ∃ before g after, gs = before ++ g :: after ∧ g.container.segments = container.segments ∧
      addMember container p gs = before ++ ⟨g.container, g.members ++ [p]⟩ :: after := by
  induction gs with
  | nil => exact .inl ⟨by simp, rfl⟩
  | cons g gs ih =>
    by_cases hg : g.container.segments = container.segments
    · refine .inr ⟨[], g, gs, rfl, hg, ?_⟩
      rw [addMember, if_pos hg, List.nil_append]
    · rw [addMember, if_neg hg]
      rcases ih with ⟨hnot, he⟩ | ⟨before, g', after, hcut, hg', he⟩
      · refine .inl ⟨?_, by rw [he, List.cons_append]⟩
        rw [List.map_cons, List.mem_cons, not_or]
        exact ⟨Ne.symm hg, hnot⟩
      · exact .inr ⟨g :: before, g', after, by rw [hcut, List.cons_append], hg',
          by rw [he, List.cons_append]⟩

@[simp] theorem membersOf_concat (segments : List Segment) (ps : List Placement) (container : Path)
    (p : Placed) :
    membersOf segments (ps ++ [.grouped container p]) =
      membersOf segments ps ++ if container.segments = segments then [p] else [] := by
  rw [membersOf, List.filterMap_append]
  split <;> simp [membersOf, *]

@[simp] theorem membersOf_concat_plain (segments : List Segment) (ps : List Placement) (p : Placed) :
    membersOf segments (ps ++ [.plain p]) = membersOf segments ps := by
  simp [membersOf]

theorem Gathers.addMember (h : Gathers ps gs) (container : Path) (p : Placed) :
    Gathers (ps ++ [.grouped container p]) (addMember container p gs) := by
  rcases addMember_cases container p gs with ⟨hnew, he⟩ | ⟨before, g, after, hcut, hg, he⟩
  · rw [he]
    refine ⟨?_, ?_, ?_⟩
    · rw [List.map_append, List.nodup_append]
      refine ⟨h.distinct, List.nodup_singleton _, ?_⟩
      rintro segments hm _ hs rfl
      rw [List.map_singleton, List.mem_singleton] at hs
      exact hnew (hs ▸ hm)
    · simp only [List.mem_append, List.mem_singleton]
      rintro g' (hm | rfl)
      · have hne : container.segments ≠ g'.container.segments :=
          fun heq => hnew (heq ▸ List.mem_map_of_mem hm)
        simp [hne, h.members g' hm]
      · simp [h.others _ hnew]
    · intro segments hs
      rw [List.map_append, List.mem_append, not_or, List.map_singleton, List.mem_singleton] at hs
      simp [Ne.symm hs.2, h.others _ hs.1]
  · subst hcut
    have hsame : (before ++ ⟨g.container, g.members ++ [p]⟩ :: after).map (·.container.segments) =
        (before ++ g :: after).map (·.container.segments) := by
      simp
    rw [he]
    refine ⟨hsame ▸ h.distinct, ?_, ?_⟩
    · have hothers : ∀ g' ∈ before ++ after, container.segments ≠ g'.container.segments := by
        intro g' hm heq
        have hdistinct := h.distinct
        rw [List.map_append, List.map_cons] at hdistinct
        have hnodup := List.nodup_middle.mp hdistinct
        refine (List.nodup_cons.mp hnodup).1 ?_
        rw [hg, heq, ← List.map_append]
        exact List.mem_map_of_mem hm
      intro g' hm
      rw [List.mem_append, List.mem_cons, or_left_comm, ← List.mem_append] at hm
      rcases hm with rfl | hm
      · simpa [hg] using h.members g (by simp)
      · have hold : g' ∈ before ++ g :: after := by
          rw [List.mem_append, List.mem_cons, or_left_comm, ← List.mem_append]
          exact .inr hm
        simp [hothers g' hm, h.members g' hold]
    · intro segments hs
      rw [hsame] at hs
      have hne : container.segments ≠ segments := by
        rintro rfl
        exact hs (hg ▸ List.mem_map_of_mem (by simp))
      simp [hne, h.others _ hs]

theorem gathers_groupsOf (ps : List Placement) : Gathers ps (groupsOf ps) := by
  induction ps using List.reverseRecOn with
  | nil => exact ⟨List.nodup_nil, nofun, fun _ _ => rfl⟩
  | append_singleton ps place ih =>
    rw [groupsOf_concat]
    cases place with
    | plain p =>
      refine ⟨ih.distinct, fun g hg => ?_, fun segments hs => ?_⟩
      · simpa using ih.members g hg
      · simpa using ih.others segments hs
    | grouped container p => exact ih.addMember container p

theorem mem_membersOf {segments : List Segment} :
    p ∈ membersOf segments ps ↔ ∃ container, .grouped container p ∈ ps ∧ container.segments = segments := by
  rw [membersOf, List.mem_filterMap]
  constructor
  · rintro ⟨place, hm, h⟩
    cases place with
    | plain => cases h
    | grouped container q =>
      obtain ⟨hs, h⟩ := Option.ite_none_right_eq_some.mp h
      exact ⟨container, Option.some.inj h ▸ hm, hs⟩
  · rintro ⟨container, hm, hs⟩
    exact ⟨_, hm, if_pos hs⟩

theorem membersOf_sublist (segments : List Segment) (ps : List Placement) :
    (membersOf segments ps).Sublist (ps.map (·.placed)) := by
  induction ps using List.reverseRecOn with
  | nil => exact .slnil
  | append_singleton ps place ih =>
    rw [List.map_append]
    cases place with
    | plain p =>
      simpa using ih.trans (List.sublist_append_left ..)
    | grouped container p =>
      rw [membersOf_concat]
      refine ih.append ?_
      split
      · exact .refl _
      · exact List.nil_sublist _

theorem plainOf_sublist (ps : List Placement) : (plainOf ps).Sublist (ps.map (·.placed)) := by
  induction ps with
  | nil => exact .slnil
  | cons place ps ih =>
    cases place with
    | plain p => exact ih.cons_cons p
    | grouped container p => exact ih.cons p

theorem placed_sorted (h : (columns.zipIdx.mapM fun (c, i) => Plan.place i c) = .ok ps) :
    (ps.map (·.placed)).Pairwise (·.ordinal < ·.ordinal) := by
  have hrange : ((ps.map (·.placed)).map (·.ordinal)).Pairwise (· < ·) := by
    rw [List.map_map]
    exact (ordinals_eq_range h).symm ▸ List.pairwise_lt_range
  exact List.pairwise_map.mp hrange

def entries (plan : Plan) : List Placed :=
  plan.plain ++ plan.groups.flatMap (·.members)

/-- The plan holds every column once, at its position, and the columns whose paths run through one
container in one group. -/
structure Partitions (columns : List Column) (plan : Plan) : Prop where
  ordinals : (plan.entries.map (·.ordinal)).Perm (List.range columns.length)
  column : ∀ p ∈ plan.entries, columns[p.ordinal]? = some p.column
  plain_sorted : plan.plain.Pairwise (·.ordinal < ·.ordinal)
  members_sorted : ∀ g ∈ plan.groups, g.members.Pairwise (·.ordinal < ·.ordinal)
  plain_path : ∀ p ∈ plan.plain, Path.compile p.column.path = .ok p.path ∧ .wildcard ∉ p.path.segments
  resolved : ∀ g ∈ plan.groups, g.Resolved
  member_path : ∀ g ∈ plan.groups, ∀ p ∈ g.members, ∃ path, Path.compile p.column.path = .ok path ∧
    path.segments = g.container.segments ++ .wildcard :: p.path.segments
  together : ∀ (i j : Nat) (g g' : Group) (p p' : Placed) (path path' : Path),
    plan.groups[i]? = some g → plan.groups[j]? = some g' → p ∈ g.members → p' ∈ g'.members →
    Path.compile p.column.path = .ok path → Path.compile p'.column.path = .ok path' →
    (i = j ↔ path.lead = path'.lead)
  members_ne_nil : ∀ g ∈ plan.groups, g.members ≠ []

theorem exists_place_of_mem (h : (columns.zipIdx.mapM fun (c, i) => Plan.place i c) = .ok ps)
    (hm : place ∈ ps) :
    columns[place.placed.ordinal]? = some place.placed.column ∧
      Plan.place place.placed.ordinal place.placed.column = .ok place := by
  obtain ⟨⟨c, i⟩, hz, hplace⟩ := exists_of_mem_mapM h hm
  obtain ⟨hcolumn, hordinal⟩ := placed_of_place hplace
  rw [hcolumn, hordinal]
  exact ⟨List.mem_zipIdx_iff_getElem?.mp hz, hplace⟩

theorem member_path_of_mem (h : (columns.zipIdx.mapM fun (c, i) => Plan.place i c) = .ok ps)
    (hm : .grouped container p ∈ ps) :
    ∃ path, Path.compile p.column.path = .ok path ∧
      path.segments = container.segments ++ .wildcard :: p.path.segments := by
  obtain ⟨path, hp, hplace⟩ := place_eq_ok (exists_place_of_mem h hm).2
  cases hw : path.wildcard? with
  | none =>
    rw [hw] at hplace
    cases hplace
  | some w =>
    rw [hw] at hplace
    obtain ⟨hcontainer, hplaced⟩ := Placement.grouped.inj hplace
    refine ⟨path, hp, ?_⟩
    rw [hcontainer, hplaced]
    exact Path.cut_at_wildcard hw

theorem plain_path_of_mem (h : (columns.zipIdx.mapM fun (c, i) => Plan.place i c) = .ok ps)
    (hm : .plain p ∈ ps) : Path.compile p.column.path = .ok p.path := by
  obtain ⟨path, hp, hplace⟩ := place_eq_ok (exists_place_of_mem h hm).2
  cases hw : path.wildcard? with
  | none =>
    rw [hw] at hplace
    rw [Placement.plain.inj hplace]
    exact hp
  | some w =>
    rw [hw] at hplace
    cases hplace

theorem partitions_of_compile (h : compile columns = .ok plan) : Partitions columns plan := by
  obtain ⟨hplain, hresolved⟩ := resolved_of_compile h
  obtain ⟨ps, hps, rfl⟩ := compile_eq_ok_iff.mp h
  have hgathers := gathers_groupsOf ps
  have hentries : (entries ⟨columns, plainOf ps, groupsOf ps⟩).Perm (ps.map (·.placed)) :=
    (flatMap_groupsOf_perm.append_left _).trans (plainOf_append_groupedOf_perm ps)
  have hmember (g : Group) (hg : g ∈ groupsOf ps) (p : Placed) (hp : p ∈ g.members) :
      ∃ path, Path.compile p.column.path = .ok path ∧
        path.segments = g.container.segments ++ .wildcard :: p.path.segments := by
    rw [hgathers.members g hg] at hp
    obtain ⟨container, hm, hs⟩ := mem_membersOf.mp hp
    rw [← hs]
    exact member_path_of_mem hps hm
  have hlead (g : Group) (hg : g ∈ groupsOf ps) (p : Placed) (hp : p ∈ g.members) (path : Path)
      (hpath : Path.compile p.column.path = .ok path) : path.lead = g.container.segments := by
    obtain ⟨path', hpath', hcut⟩ := hmember g hg p hp
    obtain rfl := Except.ok.inj (hpath.symm.trans hpath')
    exact Path.lead_eq hcut (hresolved g hg).container
  constructor
  case ordinals =>
    rw [← ordinals_eq_range hps]
    simpa only [List.map_map, Function.comp_def] using hentries.map (·.ordinal)
  case column =>
    intro p hp
    obtain ⟨place, hm, rfl⟩ := List.mem_map.mp (hentries.mem_iff.mp hp)
    exact (exists_place_of_mem hps hm).1
  case plain_sorted => exact (placed_sorted hps).sublist (plainOf_sublist ps)
  case members_sorted =>
    intro g hg
    rw [hgathers.members g hg]
    exact (placed_sorted hps).sublist (membersOf_sublist _ ps)
  case plain_path =>
    intro p hp
    exact ⟨plain_path_of_mem hps (mem_plainOf.mp hp), hplain p hp⟩
  case resolved => exact hresolved
  case member_path => exact hmember
  case together =>
    intro i j g g' p p' path path' hi hj hp hp' hpath hpath'
    rw [hlead g (List.mem_of_getElem? hi) p hp path hpath,
      hlead g' (List.mem_of_getElem? hj) p' hp' path' hpath']
    constructor
    · rintro rfl
      rw [Option.some.inj (hi.symm.trans hj)]
    · intro hs
      have hi' : ((groupsOf ps).map (·.container.segments))[i]? = some g.container.segments := by
        rw [List.getElem?_map, hi]
        rfl
      have hj' : ((groupsOf ps).map (·.container.segments))[j]? = some g.container.segments := by
        rw [List.getElem?_map, hj, hs]
        rfl
      obtain ⟨hlt, -⟩ := List.getElem?_eq_some_iff.mp hi'
      exact (List.getElem?_inj hlt hgathers.distinct).mp (hi'.trans hj'.symm)
  case members_ne_nil => exact groupsOf_ne_nil ps

/-- There is a plan exactly if every path can be read and has at most one wildcard, and a plan is a
partition of the columns. -/
theorem compile_partitions (columns : List Column) :
    ((∃ plan, compile columns = .ok plan) ↔
      ∀ c ∈ columns, ∃ path, Path.compile c.path = .ok path ∧
        path.segments.countP Segment.isWildcard ≤ 1) ∧
    ∀ plan, compile columns = .ok plan → Partitions columns plan :=
  ⟨exists_compile_iff, fun _ => partitions_of_compile⟩

def turns : List Column :=
  [⟨"first", "$[*].emails[0]", .string, none⟩, ⟨"id", "$.id", .integer, none⟩,
    ⟨"name", "$[*].name", .string, none⟩, ⟨"age", "$.age", .integer, none⟩]

def turnsPlan : Plan :=
  ⟨turns,
    [⟨⟨"id", "$.id", .integer, none⟩, 1, ⟨"$.id", .record, [.member "id"]⟩⟩,
      ⟨⟨"age", "$.age", .integer, none⟩, 3, ⟨"$.age", .record, [.member "age"]⟩⟩],
    [⟨⟨"$", .container, []⟩,
      [⟨⟨"first", "$[*].emails[0]", .string, none⟩, 0,
          ⟨"$.emails[0]", .record, [.member "emails", .index 0]⟩⟩,
        ⟨⟨"name", "$[*].name", .string, none⟩, 2, ⟨"$.name", .record, [.member "name"]⟩⟩]⟩]⟩

theorem compile_partitions_turns :
    compile turns = .ok turnsPlan ∧ Partitions turns turnsPlan := by
  have hplan : compile turns = .ok turnsPlan := rfl
  exact ⟨hplan, (compile_partitions turns).2 turnsPlan hplan⟩

end Plan

end AvroColumns
