import AvroColumns.Proofs.Path.Binding
import AvroColumns.Proofs.Plan.Wildcards
import AvroColumns.Proofs.Step.Assembly
import AvroColumns.Proofs.Walk.Faults

namespace AvroColumns

open Outcome

/-- Whether the fault is that of a wildcard on the path. -/
def Walk.Fault.isWildcard : Walk.Fault → Bool
  | .unresolved _ .wildcard => true
  | _ => false

def Failure.isWildcard : Failure → Bool
  | .column _ fault => fault.isWildcard
  | _ => false

structure Binding.Followable (b : Binding) : Prop where
  plain : ∀ m ∈ b.plain, .wildcard ∉ m.path.segments
  container : ∀ group ∈ b.group, .wildcard ∉ group.container.segments
  members : ∀ group ∈ b.group, ∀ m ∈ group.members, .wildcard ∉ m.path.segments

theorem Walk.Fault.OfPath.isWildcard {segments : List Segment} {fault : Walk.Fault}
    (h : fault.OfPath segments) (hp : .wildcard ∉ segments) : fault.isWildcard = false := by
  cases h with
  | wildcard place hm => exact absurd hm hp
  | _ => rfl

namespace Guide

variable {g : Guide} {p : Position} {segments : List Segment} {target : Target} {v : Datum}
  {fault : Walk.Fault} {f : Failure} {members : List BoundMember} {group : BoundGroup}

theorem extractFrom_isWildcard (hp : .wildcard ∉ segments)
    (h : g.extractFrom p segments target = .error fault) : fault.isWildcard = false := by
  rcases bind_eq_error_iff.mp h with h | ⟨w, -, h⟩
  · exact (walkFrom_ofPath h).isWildcard hp
  · rcases finish_error h with ⟨cause, rfl⟩ | ⟨name, rfl⟩ | ⟨label, rfl⟩ <;> rfl

theorem entryRow_isWildcard (hm : ∀ m ∈ members, .wildcard ∉ m.path.segments)
    (h : g.entryRow p members = .error f) : f.isWildcard = false := by
  obtain ⟨before, m, after, rfl, -, he⟩ := mapM_eq_error_iff.mp h
  obtain ⟨fault, hx, rfl⟩ := mapError_eq_error_iff.mp he
  exact extractFrom_isWildcard (hm m (by simp)) hx

theorem expandAt_isWildcard (hm : ∀ m ∈ group.members, .wildcard ∉ m.path.segments)
    (h : g.expandAt group p = .error f) : f.isWildcard = false := by
  rcases bind_eq_error_iff.mp h with h | ⟨n, -, h⟩
  · obtain ⟨fault, hn, rfl⟩ := mapError_eq_error_iff.mp h
    obtain ⟨name, rfl⟩ := node_error hn
    rfl
  · cases he : entries? n p.value with
    | none =>
      rw [he] at h
      cases h
      rfl
    | some entries =>
      simp only [he] at h
      rcases bind_eq_error_iff.mp h with h | ⟨rows, -, h⟩
      · obtain ⟨before, entry, after, -, -, hr⟩ := mapM_eq_error_iff.mp h
        exact entryRow_isWildcard hm hr
      · cases h

theorem expand_isWildcard (hc : .wildcard ∉ group.container.segments)
    (hm : ∀ m ∈ group.members, .wildcard ∉ m.path.segments)
    (h : g.expand group v = .error f) : f.isWildcard = false := by
  rcases bind_eq_error_iff.mp h with h | ⟨w, -, h⟩
  · obtain ⟨fault, hw, rfl⟩ := mapError_eq_error_iff.mp h
    exact (walkFrom_ofPath hw).isWildcard hc
  · cases w with
    | reached p => exact expandAt_isWildcard hm h
    | _ => cases h

end Guide

namespace Step

variable {s : Step} {g : Guide} {b : Binding} {v : Datum} {d : Document} {isDefault : Bool}
  {passed r : Row} {f : Failure} {last : Option Variables} {w : Worker} {fs : Files}
  {seen cache : Cache} {binding : Option Binding}

theorem Built.followable (hs : s.Built) (vars : Variables) : (s.bind vars).Followable := by
  obtain ⟨hplain, hgroups⟩ := Plan.resolved_of_compile hs.compile
  have hgroup : ∀ group ∈ (s.bind vars).group, ∃ g ∈ s.plan.groups, group = g.bind vars := by
    intro group hm
    obtain ⟨g, hg, rfl⟩ := Option.map_eq_some_iff.mp hm
    exact ⟨g, List.mem_of_head? hg, rfl⟩
  refine ⟨?_, ?_, ?_⟩
  · intro m hm
    obtain ⟨p, hp, rfl⟩ := List.mem_map.mp hm
    simpa using hplain p hp
  · intro group hm
    obtain ⟨g, hg, rfl⟩ := hgroup group hm
    simpa [Group.bind] using (hgroups g hg).container
  · intro group hm' m hm
    obtain ⟨g, hg, rfl⟩ := hgroup group hm'
    obtain ⟨p, hp, rfl⟩ := List.mem_map.mp hm
    simpa using (hgroups g hg).members p hp

theorem plainCells_isWildcard (hb : b.Followable) (h : plainCells g b v = .error f) :
    f.isWildcard = false := by
  obtain ⟨before, m, after, hm, -, h⟩ := mapM_eq_error_iff.mp h
  rcases bind_eq_error_iff.mp h with h | ⟨cell, -, h⟩
  · obtain ⟨fault, hx, rfl⟩ := mapError_eq_error_iff.mp h
    exact Guide.extractFrom_isWildcard (hb.plain m (by simp [hm])) hx
  · cases h

theorem cells_isWildcard (hb : b.Followable) (h : s.cells g b v = .error f) :
    f.isWildcard = false := by
  rcases bind_eq_error_iff.mp h with h | ⟨plain, -, h⟩
  · exact plainCells_isWildcard hb h
  · cases hg : b.group with
    | none =>
      rw [hg] at h
      cases h
    | some group =>
      simp only [hg] at h
      rcases bind_eq_error_iff.mp h with h | ⟨e, -, h⟩
      · exact Guide.expand_isWildcard (hb.container group hg) (hb.members group hg) h
      · cases e <;> cases h

theorem decodeValue_isWildcard (hb : ∀ b ∈ binding, b.Followable)
    (h : s.decodeValue binding passed v d isDefault = .error f) : f.isWildcard = false := by
  cases binding with
  | none =>
    cases h
    rfl
  | some b => exact cells_isWildcard (hb b rfl) (map_eq_error_iff.mp h)

theorem Built.workValue_isWildcard (hs : s.Built) (hw : s.Serves last w)
    (h : s.workValue w passed v d isDefault = .error f) : f.isWildcard = false := by
  rw [hw.workValue] at h
  refine decodeValue_isWildcard ?_ h
  intro b hb
  obtain ⟨vars, -, rfl⟩ := Option.map_eq_some_iff.mp hb
  exact hs.followable vars

theorem schemaText_error (h : s.schemaText r = .error f) : ∃ fault, f = .schema fault := by
  rw [schemaText] at h
  split at h
  · cases h
  next column _ =>
    split at h
    · cases h
    next c _ =>
      cases hc : c.text? with
      | some text => simp [hc] at h
      | none =>
        rw [hc] at h
        cases h
        exact ⟨_, rfl⟩

theorem chooseNamed_error {text : String} (h : (s.chooseNamed fs seen cache text).1 = .error f) :
    ∃ fault, f = .schema fault := by
  rw [chooseNamed] at h
  split at h
  · dsimp only at h
    split at h
    · cases h
    · cases h
    · cases h
      exact ⟨_, rfl⟩
  · obtain ⟨fault, -, rfl⟩ := mapError_eq_error_iff.mp h
    exact ⟨fault, rfl⟩

theorem choose_error (h : (s.choose fs seen cache r).1 = .error f) : ∃ fault, f = .schema fault := by
  rw [choose] at h
  split at h
  next hs =>
    cases h
    exact schemaText_error hs
  · exact chooseNamed_error h
  · rw [chooseDefault] at h
    split at h
    · cases h
    · cases h
      exact ⟨_, rfl⟩

theorem decodePayload_error {encoding : Encoding} {payload : Cell}
    (h : d.decodePayload encoding payload = .error f) : f.isWildcard = false := by
  have ofDatum (fault : Datum.Fault) : (Failure.ofDatum fault).isWildcard = false := by
    cases fault <;> rfl
  cases encoding with
  | binary =>
    cases payload with
    | binary b | string t =>
      obtain ⟨fault, -, rfl⟩ := mapError_eq_error_iff.mp h
      rfl
    | _ =>
      cases h
      rfl
  | json =>
    simp only [Document.decodePayload] at h
    split at h
    · cases h
      rfl
    · split at h
      · cases h
        rfl
      · obtain ⟨fault, -, rfl⟩ := mapError_eq_error_iff.mp h
        exact ofDatum fault

theorem Built.workRow_isWildcard (hs : s.Built) (hw : s.Serves last w)
    (h : (s.workRow w fs cache r).1 = .error f) : f.isWildcard = false := by
  rw [workRow, workRowSince, decodeRowBy] at h
  split at h
  · cases h
    rfl
  · cases h
  next payload _ =>
    split at h
    next fault cache' hc =>
      cases h
      obtain ⟨fault, rfl⟩ := choose_error (congrArg Prod.fst hc)
      rfl
    next chosen cache' _ =>
      rcases bind_eq_error_iff.mp h with h | ⟨v, -, h⟩
      · exact decodePayload_error h
      · exact hs.workValue_isWildcard hw h

/-- Variables inject no structure into a path, whatever their values: each segment becomes one segment,
by its form, and one without placeholders becomes itself. So every path of a binding can be followed,
and nothing that a worker decodes fails because of a wildcard. -/
theorem variables_inject_nothing :
    (∀ raw p vars, Path.compile raw = .ok p →
      List.Forall₂ (Segment.Becomes vars) p.segments (p.bind vars).segments ∧
      (p.bind vars).segments = p.segments.map (Segment.bind vars) ∧
      ∀ t ∈ p.segments, t.hasPlaceholder = false → t.bind vars = t) ∧
    ∀ s : Step, s.Built → (∀ vars, (s.bind vars).Followable) ∧ ∀ last w, s.Serves last w →
      (∀ passed v d isDefault f, s.workValue w passed v d isDefault = .error f →
        f.isWildcard = false) ∧
      ∀ fs cache r f, (s.workRow w fs cache r).1 = .error f → f.isWildcard = false := by
  constructor
  · intro raw p vars hp
    have hcanonical := Path.canonical_of_compile hp
    have hbind := Path.bind_segments hcanonical vars
    refine ⟨?_, hbind, fun t ht hnone => (hcanonical t ht).bind_eq_self hnone⟩
    rw [hbind, List.forall₂_map_right_iff, List.forall₂_same]
    intro t _
    exact Segment.becomes_bind vars t
  · intro s hs
    refine ⟨hs.followable, fun last w hw => ⟨?_, ?_⟩⟩
    · intro passed v d isDefault f h
      exact hs.workValue_isWildcard hw h
    · intro fs cache r f h
      exact hs.workRow_isWildcard hw h

def namedByVariable : Column :=
  ⟨"mark", "$.$\x7bx\x7d", .integer, none⟩

def namedByVariableStep : Step :=
  ⟨{ columns := [namedByVariable] },
    ⟨[namedByVariable], [⟨namedByVariable, 0, ⟨"$.$\x7bx\x7d", .record, [.member "$\x7bx\x7d"]⟩⟩], []⟩,
    some marksSchema⟩

def injecting : Variables :=
  Variables.ofList [("x", "marks[*]"), ("k", "*"), ("n", "-7")]

theorem variables_inject_nothing_marks :
    (∃ p, Path.compile "$.$\x7bx\x7d[$\x7bk\x7d][$\x7bn\x7d][7]" = .ok p ∧
      List.Forall₂ (Segment.Becomes injecting) p.segments
        [.member "marks[*]", .key "*", .index (-7), .index 7]) ∧
    namedByVariableStep.Built ∧ (namedByVariableStep.bind injecting).Followable ∧
      ∃ w, namedByVariableStep.Serves (some injecting) w ∧
        namedByVariableStep.workValue w [] (.record [("marks", .array [.int 3])]) marksSchema true =
          .error (.column "mark" (.missing ".marks[*]")) ∧
        (Failure.column "mark" (.missing ".marks[*]")).isWildcard = false := by
  obtain ⟨p, hp, hbound⟩ : ∃ p, Path.compile "$.$\x7bx\x7d[$\x7bk\x7d][$\x7bn\x7d][7]" = .ok p ∧
      (p.bind injecting).segments = [.member "marks[*]", .key "*", .index (-7), .index 7] :=
    ⟨⟨"$.$\x7bx\x7d[$\x7bk\x7d][$\x7bn\x7d][7]", .record,
      [.member "$\x7bx\x7d", .key "$\x7bk\x7d", .key "$\x7bn\x7d", .index 7]⟩,
      by decide +kernel, by decide +kernel⟩
  have hstep : forContainer (fun _ => .error .notFound) { columns := [namedByVariable] } marksSchema =
      .ok namedByVariableStep := rfl
  have hs : namedByVariableStep.Built := .forContainer hstep
  have hw : namedByVariableStep.Serves (some injecting) _ := .bound injecting (.taken rfl)
  have hrows : namedByVariableStep.workValue _ [] (.record [("marks", .array [.int 3])]) marksSchema
      true = .error (.column "mark" (.missing ".marks[*]")) := hw.workValue.trans rfl
  obtain ⟨hpaths, hsteps⟩ := variables_inject_nothing
  obtain ⟨hfollow, hworks⟩ := hsteps _ hs
  exact ⟨⟨p, hp, hbound ▸ (hpaths _ p injecting hp).1⟩, hs, hfollow injecting, _, hw, hrows,
    (hworks _ _ hw).1 _ _ _ _ _ hrows⟩

end Step

end AvroColumns
