import AvroColumns.Proofs.Step.Assembly
import AvroColumns.Proofs.Walk.Tolerance

namespace AvroColumns

open Outcome

namespace Failure

def Misses (f : Failure) : Prop :=
  f.kind = .missingField

theorem misses_column_iff {name : String} {fault : Walk.Fault} :
    (column name fault).Misses ↔ ∃ place, fault = .missing place := by
  cases fault <;> simp [Misses, kind]

end Failure

namespace Guide

open Failure

variable {g : Guide} {p : Position} {v : Datum} {members : List BoundMember} {group : BoundGroup}

theorem forgives_pardon {α : Type} (a : α) (x : Except Walk.Fault α) (name : String) :
    Forgives Misses (x.mapError (column name)) ((Walk.pardon a x).mapError (column name)) := by
  cases x with
  | ok a' => exact .ok a'
  | error fault =>
    cases fault with
    | missing place => exact .forgiven rfl nofun
    | _ => exact .kept nofun

theorem entryRow_tolerating : Forgives Misses ((g.tolerating false).entryRow p members)
    ((g.tolerating true).entryRow p members) := by
  apply forgives_mapM
  intro m _
  rw [extractFrom_tolerating]
  exact forgives_pardon _ _ _

theorem forgives_node (schema : Schema) (name : String) :
    Forgives Misses ((g.node schema).mapError (column name)) ((g.node schema).mapError (column name)) := by
  cases hn : g.node schema with
  | ok n => exact .ok n
  | error fault =>
    obtain ⟨type, rfl⟩ := node_error hn
    exact .kept nofun

theorem expandAt_tolerating : Forgives Misses ((g.tolerating false).expandAt group p)
    ((g.tolerating true).expandAt group p) := by
  apply (forgives_node p.schema group.lead).bind
  intro n
  cases entries? n p.value with
  | none => exact .kept nofun
  | some e =>
    refine Forgives.bind (forgives_mapM ?_) fun rows => .ok _
    intro v _
    exact entryRow_tolerating

theorem expand_tolerating : Forgives Misses ((g.tolerating false).expand group v)
    ((g.tolerating true).expand group v) := by
  rw [expand, expand, walk, walk, walkFrom_tolerating]
  refine Forgives.bind (forgives_pardon _ _ _) fun w => ?_
  cases w with
  | reached p => exact expandAt_tolerating
  | _ => exact .ok _

end Guide

namespace Step

open Failure

def tolerating (s : Step) (tolerateMissing : Bool) : Step :=
  { s with config := { s.config with tolerateMissing } }

variable {s strict : Step} {g : Guide} {b : Binding} {passed : Row}
  {v : Datum} {d : Document} {isDefault : Bool} {w : Worker} {c : Config} {default : Option Document}

theorem plainCells_tolerating : Forgives Misses (plainCells (g.tolerating false) b v)
    (plainCells (g.tolerating true) b v) := by
  apply forgives_mapM
  intro m _
  rw [Guide.extract_tolerating]
  exact (Guide.forgives_pardon _ _ _).bind fun c => .ok _

theorem cells_tolerating : Forgives Misses (s.cells (g.tolerating false) b v)
    (s.cells (g.tolerating true) b v) := by
  rw [cells, cells]
  apply plainCells_tolerating.bind
  intro plain
  cases b.group with
  | none => exact .ok _
  | some group =>
    apply Guide.expand_tolerating.bind
    intro e
    cases e <;> exact .ok _

theorem decodeValue_tolerating (binding : Option Binding) :
    Forgives Misses ((s.tolerating false).decodeValue binding passed v d isDefault)
      ((s.tolerating true).decodeValue binding passed v d isDefault) := by
  cases binding with
  | none => exact .kept nofun
  | some b => exact (cells_tolerating (g := s.guide d isDefault)).map _

theorem workValue_tolerating :
    Forgives Misses ((s.tolerating false).workValue w passed v d isDefault)
      ((s.tolerating true).workValue w passed v d isDefault) := by
  obtain ⟨plain, engine⟩ := w
  cases plain with
  | none =>
    change Forgives Misses ((s.tolerating false).decodeValue none passed v d isDefault) _
    exact decodeValue_tolerating none
  | some plain =>
    match engine with
    | none => exact decodeValue_tolerating (some ⟨plain, none⟩)
    | some ⟨group, some bound⟩ => exact decodeValue_tolerating (some ⟨plain, some bound⟩)
    | some ⟨group, none⟩ =>
      have hplain := plainCells_tolerating (g := s.guide d isDefault) (b := ⟨plain, none⟩) (v := v)
      refine Forgives.bind (hplain.map fun _ => PUnit.unit) fun _ => ?_
      exact .kept nofun

theorem serves_tolerating {last : Option Variables} (tolerateMissing : Bool) (h : s.Serves last w) :
    (s.tolerating tolerateMissing).Serves last w := by
  induction h with
  | taken hw => exact .taken hw
  | bound vars _ ih => exact .bound vars ih

/-- The steps of two configurations that differ only in whether members may be missing have the same
workers. Where the strict one has rows, so has the tolerant one; where it fails for anything but a missing
member, the tolerant one fails for the same; and that never fails for a missing member, the cells of which
are empty. -/
theorem assemble_tolerant (h : assemble { c with tolerateMissing := false } default = .ok strict) :
    ∃ tolerant, assemble { c with tolerateMissing := true } default = .ok tolerant ∧
      ∀ last w, strict.Serves last w → tolerant.Serves last w ∧ ∀ passed v d isDefault,
        (∀ rows, strict.workValue w passed v d isDefault = .ok rows →
          tolerant.workValue w passed v d isDefault = .ok rows) ∧
        (∀ f, strict.workValue w passed v d isDefault = .error f → f.kind ≠ .missingField →
          tolerant.workValue w passed v d isDefault = .error f) ∧
        (∀ f, tolerant.workValue w passed v d isDefault = .error f → f.kind ≠ .missingField) ∧
        ∀ vars, ∀ m ∈ (strict.bind vars).plain, ∀ fault,
          (strict.guide d isDefault).extract v m.path m.column.target = .error fault →
          (Failure.column m.column.name fault).kind = .missingField →
          (tolerant.guide d isDefault).extract v m.path m.column.target = .ok none := by
  obtain ⟨hc, -⟩ := assemble_eq_ok h
  have hstrict : strict.tolerating false = strict := by
    cases strict
    cases hc
    rfl
  refine ⟨strict.tolerating true, ?_, ?_⟩
  · have hcolumns : { c with tolerateMissing := true }.columns =
        { c with tolerateMissing := false }.columns := rfl
    rw [assemble_of_columns hcolumns, h, tolerating, hc]
    rfl
  · intro last w hw
    refine ⟨serves_tolerating true hw, fun passed v d isDefault => ?_⟩
    have hf : Forgives Misses ((strict.tolerating false).workValue w passed v d isDefault)
        ((strict.tolerating true).workValue w passed v d isDefault) := workValue_tolerating
    rw [hstrict] at hf
    refine ⟨fun rows => hf.eq_ok, fun f => hf.eq_error, fun f => hf.not_forgiven, ?_⟩
    intro vars m _ fault hx hk
    obtain ⟨place, rfl⟩ := misses_column_iff.mp hk
    have hx' : ((strict.tolerating true).guide d isDefault).extract v m.path m.column.target =
        Walk.pardon none (((strict.tolerating false).guide d isDefault).extract v m.path
          m.column.target) :=
      Guide.extract_tolerating (g := strict.guide d isDefault)
    rwa [hstrict, hx] at hx'

def unlabelled : Document :=
  .ofSchema (.record ⟨⟨"", "r"⟩, [⟨"marks", [], .array (.primitive .int), none⟩]⟩)

theorem assemble_tolerant_unlabelled :
    assemble { columns := marks, tolerateMissing := false } (some marksSchema) = .ok marksStep ∧
    ∃ tolerant w, assemble { columns := marks, tolerateMissing := true } (some marksSchema) =
        .ok tolerant ∧ marksStep.Serves (some .none) w ∧ tolerant.Serves (some .none) w ∧
      (∃ f, marksStep.workValue w [] (.record [("marks", .array [.int 3])]) unlabelled true = .error f ∧
        f.kind = .missingField) ∧
      (∀ f, tolerant.workValue w [] (.record [("marks", .array [.int 3])]) unlabelled true = .error f →
        f.kind ≠ .missingField) ∧
      (tolerant.guide unlabelled true).extract (.record [("marks", .array [.int 3])])
        ⟨.record, [.member "label"]⟩ .boolean = .ok none := by
  have h : assemble { columns := marks, tolerateMissing := false } (some marksSchema) = .ok marksStep :=
    rfl
  obtain ⟨tolerant, ht, hall⟩ := assemble_tolerant (c := { columns := marks }) h
  have hw : marksStep.Serves (some .none) _ := .bound .none (.taken rfl)
  obtain ⟨hw', hall⟩ := hall _ _ hw
  obtain ⟨-, -, hnever, hcell⟩ := hall [] (.record [("marks", .array [.int 3])]) unlabelled true
  refine ⟨h, tolerant, _, ht, hw, hw', ⟨_, hw.workValue.trans rfl, rfl⟩, hnever, ?_⟩
  exact hcell .none _ (List.mem_singleton.mpr rfl) _ rfl rfl

end Step

end AvroColumns
