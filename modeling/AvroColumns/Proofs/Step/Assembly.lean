import AvroColumns.Proofs.Expansion.Addressing
import AvroColumns.Proofs.Plan.Placement
import AvroColumns.Proofs.Step.Worker

/-!
# Assembly of rows

A row has the cells that are passed through and behind them, at the position of each column, that
column's cell: one that is extracted from the value, or one from the row of the group.
-/

namespace AvroColumns

open Outcome

def Binding.members (b : Binding) : List BoundMember :=
  (b.group.map (·.members)).getD []

def Placed.bind (p : Placed) (vars : Variables) : BoundMember :=
  ⟨p.column, p.ordinal, p.path.bind vars⟩

namespace Step

variable {s : Step} {c : Config} {default : Option Document} {g : Guide} {b : Binding} {v : Datum}
  {d : Document} {isDefault : Bool} {passed row : Row} {rows : List Row} {vars : Variables}
  {w : Worker} {cells : List (Nat × Option Cell)} {i : Nat} {cell : Option Cell}

@[simp] theorem length_put : (put cells row).length = row.length := by
  induction cells generalizing row with
  | nil => rfl
  | cons e rest ih =>
    rw [put, List.foldl_cons]
    exact ih.trans (List.length_set ..)

theorem getElem?_put_of_notMem (h : i ∉ cells.map (·.1)) : (put cells row)[i]? = row[i]? := by
  induction cells generalizing row with
  | nil => rfl
  | cons e rest ih =>
    rw [List.map_cons, List.mem_cons, not_or] at h
    rw [put, List.foldl_cons]
    exact (ih h.2).trans (List.getElem?_set_ne (Ne.symm h.1))

theorem getElem?_put_of_mem (hd : (cells.map (·.1)).Nodup) (h : (i, cell) ∈ cells)
    (hi : i < row.length) : (put cells row)[i]? = some cell := by
  induction cells generalizing row with
  | nil => cases h
  | cons e rest ih =>
    rw [List.map_cons, List.nodup_cons] at hd
    rw [put, List.foldl_cons]
    rcases List.mem_cons.mp h with rfl | h
    · exact (getElem?_put_of_notMem hd.1).trans (List.getElem?_set_self hi)
    · exact ih hd.2 h (by simpa using hi)

/-- The step comes from a configuration, for rows or for the values of a container. -/
inductive Built : Step → Prop
  | ofConfig {fs c s} : Step.ofConfig fs c = .ok s → Built s
  | forContainer {fs c own s} : Step.forContainer fs c own = .ok s → Built s

theorem assemble_eq_ok (h : assemble c default = .ok s) :
    s.config = c ∧ s.default = default ∧ Plan.compile s.columns = .ok s.plan ∧
      s.plan.groups.length ≤ 1 := by
  obtain ⟨columns, -, h⟩ := bind_eq_ok_iff.mp h
  by_cases hc : columns.isEmpty
  · simp [hc] at h
  · simp only [hc] at h
    obtain ⟨plan, hp, h⟩ := bind_eq_ok_iff.mp h
    rw [mapError_eq_ok_iff] at hp
    by_cases hg : 1 < plan.groups.length
    · simp [hg] at h
    · simp only [hg, if_false] at h
      cases h
      obtain ⟨ps, -, rfl⟩ := Plan.compile_eq_ok_iff.mp hp
      exact ⟨rfl, rfl, hp, Nat.le_of_not_lt hg⟩

theorem assemble_of_columns {c c' : Config} (h : c'.columns = c.columns) (default : Option Document) :
    assemble c' default = (assemble c default).map fun s => { s with config := c' } := by
  have hcolumns : columnsFor c' default = columnsFor c default := by
    simp only [columnsFor, h]
  rw [assemble, assemble, hcolumns]
  cases columnsFor c default with
  | error f => rfl
  | ok columns =>
    simp only [ok_bind]
    by_cases he : columns.isEmpty
    · simp [he]
    · simp only [he]
      cases Plan.compile columns with
      | error f => rfl
      | ok plan => by_cases hg : 1 < plan.groups.length <;> simp [hg]

theorem Built.assemble (h : s.Built) : ∃ c default, Step.assemble c default = .ok s := by
  cases h with
  | ofConfig h =>
    obtain ⟨default, -, h⟩ := bind_eq_ok_iff.mp h
    split at h
    · cases h
    · exact ⟨_, _, h⟩
  | forContainer h =>
    obtain ⟨default, -, h⟩ := bind_eq_ok_iff.mp h
    exact ⟨_, _, h⟩

theorem Built.compile (h : s.Built) : Plan.compile s.columns = .ok s.plan := by
  obtain ⟨c, default, h⟩ := h.assemble
  exact (assemble_eq_ok h).2.2.1

def grouped (s : Step) : List Placed :=
  (s.plan.groups.head?.map (·.members)).getD []

theorem Built.grouped_eq (h : s.Built) : s.plan.groups.flatMap (·.members) = s.grouped := by
  obtain ⟨c, default, h⟩ := h.assemble
  have hl := (assemble_eq_ok h).2.2.2
  rw [grouped]
  match hg : s.plan.groups with
  | [] => rfl
  | [group] => simp
  | _ :: _ :: _ => simp [hg] at hl

theorem Built.exists_placements (h : s.Built) :
    ∃ ps, (s.columns.zipIdx.mapM fun (c, i) => Plan.place i c) = .ok ps ∧
      s.plan.plain = Plan.plainOf ps ∧ s.grouped.Perm (Plan.groupedOf ps) := by
  obtain ⟨ps, hps, hplan⟩ := Plan.compile_eq_ok_iff.mp h.compile
  refine ⟨ps, hps, by rw [hplan], ?_⟩
  rw [← h.grouped_eq, hplan]
  exact Plan.flatMap_groupsOf_perm

theorem Built.ordinals_perm (h : s.Built) :
    ((s.plan.plain ++ s.grouped).map (·.ordinal)).Perm (List.range s.columns.length) := by
  obtain ⟨ps, hps, hplain, hgrouped⟩ := h.exists_placements
  have hp := (hgrouped.append_left _).trans (Plan.plainOf_append_groupedOf_perm ps)
  rw [← Plan.ordinals_eq_range hps, hplain]
  simpa only [List.map_map, Function.comp_def] using hp.map (·.ordinal)

theorem Built.mem_columns (h : s.Built) {column : Column} (hc : s.columns[i]? = some column) :
    ∃ path, Path.compile column.path = .ok path ∧
      match path.wildcard? with
      | none => ⟨column, i, path⟩ ∈ s.plan.plain
      | some w => ⟨column, i, path.behind w⟩ ∈ s.grouped := by
  obtain ⟨ps, hps, hplain, hgrouped⟩ := h.exists_placements
  obtain ⟨place, hi, hplace⟩ := Plan.getElem?_of_place hps hc
  obtain ⟨path, hp, hw⟩ := Plan.place_eq_ok hplace
  have hmem := List.mem_of_getElem? hi
  refine ⟨path, hp, ?_⟩
  cases hwild : path.wildcard? with
  | none =>
    rw [hwild] at hw
    subst hw
    rw [hplain]
    exact Plan.mem_plainOf.mpr hmem
  | some w =>
    rw [hwild] at hw
    subst hw
    exact hgrouped.mem_iff.mpr (Plan.mem_groupedOf.mpr ⟨_, hmem⟩)

/-- The rows of a binding's group, if it has one and its container is there. -/
def subRows (g : Guide) (b : Binding) (v : Datum) : Except Failure (Option (List Row)) :=
  match b.group with
  | none => .ok none
  | some group => (g.expand group v).map fun
    | .absent => none
    | .rows rows => some rows

def base (s : Step) (plain : List (Nat × Option Cell)) : Row :=
  put plain (List.replicate s.width none)

def overlay (s : Step) (b : Binding) (plain : List (Nat × Option Cell)) : Option Row → Row
  | none => s.base plain
  | some r => put ((b.members.map (·.ordinal)).zip r) (s.base plain)

theorem cells_eq_ok_iff : s.cells g b v = .ok rows ↔
    ∃ plain sub, plainCells g b v = .ok plain ∧ subRows g b v = .ok sub ∧
      rows = match sub with
        | none => [s.overlay b plain none]
        | some rows => rows.map fun r => s.overlay b plain (some r) := by
  simp only [overlay, base]
  rw [cells, bind_eq_ok_iff]
  refine exists_congr fun plain => ?_
  rw [subRows, Binding.members]
  cases b.group with
  | none => simp [eq_comm]
  | some group =>
    cases he : g.expand group v with
    | error f => simp [he]
    | ok e => cases e <;> simp [he, eq_comm]

theorem length_of_subRows {sub : List Row} (h : subRows g b v = .ok (some sub)) :
    ∀ r ∈ sub, r.length = b.members.length := by
  rw [subRows] at h
  rw [Binding.members]
  cases hg : b.group with
  | none => simp [hg] at h
  | some group =>
    simp only [hg, map_eq_ok_iff] at h
    obtain ⟨e, he, h⟩ := h
    cases e with
    | absent => cases h
    | rows rows =>
      cases h
      obtain ⟨p, n, schema, vs, -, -, -, hr⟩ := Guide.expand_rows he
      intro r hr'
      obtain ⟨entry, -, he⟩ := exists_of_mem_mapM hr hr'
      exact length_of_mapM he

theorem plainCells_ordinals {plain : List (Nat × Option Cell)}
    (h : plainCells g b v = .ok plain) : plain.map (·.1) = b.plain.map (·.ordinal) := by
  replace h := mapM_eq_ok_iff.mp h
  generalize b.plain = members at h
  induction h with
  | nil => rfl
  | cons hm _ ih =>
    obtain ⟨cell, -, hm⟩ := bind_eq_ok_iff.mp hm
    cases hm
    rw [List.map_cons, List.map_cons, ih]

theorem plainCells_mem {plain : List (Nat × Option Cell)} (h : plainCells g b v = .ok plain)
    {m : BoundMember} (hm : m ∈ b.plain) :
    ∃ cell, (m.ordinal, cell) ∈ plain ∧ g.extract v m.path m.column.target = .ok cell := by
  obtain ⟨j, hj⟩ := List.mem_iff_getElem?.mp hm
  obtain ⟨e, he, hx⟩ := getElem?_of_mapM h hj
  obtain ⟨cell, hcell, hx⟩ := bind_eq_ok_iff.mp hx
  cases hx
  exact ⟨cell, List.mem_of_getElem? he, mapError_eq_ok_iff.mp hcell⟩

theorem plain_bind : (s.bind vars).plain = s.plan.plain.map (·.bind vars) :=
  rfl

theorem members_bind : (s.bind vars).members = s.grouped.map (·.bind vars) := by
  rw [Binding.members, grouped, bind]
  cases s.plan.groups.head? <;> rfl

theorem Built.bound_ordinals_perm (h : s.Built) (vars : Variables) :
    (((s.bind vars).plain ++ (s.bind vars).members).map (·.ordinal)).Perm
      (List.range s.columns.length) := by
  rw [members_bind, plain_bind, ← List.map_append, List.map_map]
  exact h.ordinals_perm

theorem Built.ordinal_lt (h : s.Built) {m : BoundMember}
    (hm : m ∈ (s.bind vars).plain ++ (s.bind vars).members) : m.ordinal < s.width := by
  have hr := (h.bound_ordinals_perm vars).mem_iff.mp (List.mem_map_of_mem (f := (·.ordinal)) hm)
  exact List.mem_range.mp hr

-- No two columns write to one position, so that every cell stays where it was put.
theorem Built.bound_ordinals_nodup (h : s.Built) (vars : Variables) :
    ((s.bind vars).plain.map (·.ordinal)).Nodup ∧ ((s.bind vars).members.map (·.ordinal)).Nodup ∧
      ∀ i ∈ (s.bind vars).plain.map (·.ordinal), i ∉ (s.bind vars).members.map (·.ordinal) := by
  have hnd := (h.bound_ordinals_perm vars).nodup_iff.mpr List.nodup_range
  rw [List.map_append, List.nodup_append] at hnd
  obtain ⟨hplain, hmembers, hne⟩ := hnd
  refine ⟨hplain, hmembers, ?_⟩
  intro i hi hi'
  exact hne i hi i hi' rfl

@[simp] theorem length_base {plain : List (Nat × Option Cell)} :
    (s.base plain).length = s.width := by
  rw [base, length_put, List.length_replicate]

theorem Built.base_plain (hs : s.Built) {plain : List (Nat × Option Cell)}
    (hp : plainCells g (s.bind vars) v = .ok plain) {m : BoundMember}
    (hm : m ∈ (s.bind vars).plain) :
    ∃ cell, (s.base plain)[m.ordinal]? = some cell ∧
      g.extract v m.path m.column.target = .ok cell := by
  obtain ⟨cell, hcell, hx⟩ := plainCells_mem hp hm
  refine ⟨cell, getElem?_put_of_mem ?_ hcell ?_, hx⟩
  · rw [plainCells_ordinals hp]
    exact (hs.bound_ordinals_nodup vars).1
  · rw [List.length_replicate]
    exact hs.ordinal_lt (List.mem_append_left _ hm)

theorem Built.base_member (hs : s.Built) {plain : List (Nat × Option Cell)}
    (hp : plainCells g (s.bind vars) v = .ok plain) {m : BoundMember}
    (hm : m ∈ (s.bind vars).members) : (s.base plain)[m.ordinal]? = some none := by
  have hi := List.mem_map_of_mem (f := (·.ordinal)) hm
  rw [base, getElem?_put_of_notMem, List.getElem?_replicate,
    if_pos (hs.ordinal_lt (List.mem_append_right _ hm))]
  rw [plainCells_ordinals hp]
  intro hi'
  exact (hs.bound_ordinals_nodup vars).2.2 _ hi' hi

theorem Built.overlay_plain (hs : s.Built) {plain : List (Nat × Option Cell)} (sub : Option Row)
    {m : BoundMember} (hm : m ∈ (s.bind vars).plain) :
    (s.overlay (s.bind vars) plain sub)[m.ordinal]? = (s.base plain)[m.ordinal]? := by
  cases sub with
  | none => rfl
  | some r =>
    apply getElem?_put_of_notMem
    intro hi
    obtain ⟨⟨i, cell⟩, hz, rfl⟩ := List.mem_map.mp hi
    exact (hs.bound_ordinals_nodup vars).2.2 _ (List.mem_map_of_mem (f := (·.ordinal)) hm)
      (List.of_mem_zip hz).1

theorem Built.overlay_member (hs : s.Built) {plain : List (Nat × Option Cell)} {r : Row}
    (hl : r.length = (s.bind vars).members.length) {j : Nat} {m : BoundMember}
    (hj : (s.bind vars).members[j]? = some m) :
    ∃ cell, r[j]? = some cell ∧
      (s.overlay (s.bind vars) plain (some r))[m.ordinal]? = some cell := by
  have hjr : j < r.length := by
    rw [hl]
    exact (List.getElem?_eq_some_iff.mp hj).1
  refine ⟨r[j], List.getElem?_eq_getElem hjr, getElem?_put_of_mem ?_ ?_ ?_⟩
  · rw [List.map_fst_zip (by simp [hl])]
    exact (hs.bound_ordinals_nodup vars).2.1
  · apply List.mem_of_getElem? (i := j)
    simp [List.getElem?_zip_eq_some, hj, hjr]
  · rw [length_base]
    exact hs.ordinal_lt (List.mem_append_right _ (List.mem_of_getElem? hj))

/-- A row holds what a value has for the columns: at the position of a plain column the cell that is
extracted for it, and at that of a column of the group nothing, or the cell from the row of the group
at the position that the column has among the members. -/
structure Holds (s : Step) (g : Guide) (vars : Variables) (v : Datum) (sub : Option Row)
    (row : Row) : Prop where
  length : row.length = s.width
  cell {i : Nat} {column : Column} : s.columns[i]? = some column →
    ∃ path cell, Path.compile column.path = .ok path ∧ row[i]? = some cell ∧
      match path.wildcard? with
      | none => g.extract v (path.bind vars) column.target = .ok cell
      | some w =>
        match sub with
        | none => cell = none
        | some r => ∃ j : Nat,
          (s.bind vars).members[j]? = some ⟨column, i, (path.behind w).bind vars⟩ ∧
            r[j]? = some cell

theorem Built.holds_overlay (hs : s.Built) {plain : List (Nat × Option Cell)} (sub : Option Row)
    (hp : plainCells g (s.bind vars) v = .ok plain)
    (hl : ∀ r ∈ sub, r.length = (s.bind vars).members.length) :
    s.Holds g vars v sub (s.overlay (s.bind vars) plain sub) := by
  constructor
  · cases sub with
    | none => exact length_base
    | some r => exact length_put.trans length_base
  · intro i column hi
    obtain ⟨path, hpath, hplace⟩ := hs.mem_columns hi
    cases hw : path.wildcard? with
    | none =>
      rw [hw] at hplace
      have hm : ⟨column, i, path.bind vars⟩ ∈ (s.bind vars).plain :=
        List.mem_map_of_mem (f := (·.bind vars)) hplace
      obtain ⟨cell, hcell, hx⟩ := hs.base_plain hp hm
      refine ⟨path, cell, hpath, (hs.overlay_plain sub hm).trans hcell, ?_⟩
      simp only [hw]
      exact hx
    | some w =>
      rw [hw] at hplace
      have hm : ⟨column, i, (path.behind w).bind vars⟩ ∈ (s.bind vars).members := by
        rw [members_bind]
        exact List.mem_map_of_mem (f := (·.bind vars)) hplace
      cases sub with
      | none => exact ⟨path, none, hpath, hs.base_member hp hm, by simp only [hw]⟩
      | some r =>
        obtain ⟨j, hj⟩ := List.mem_iff_getElem?.mp hm
        obtain ⟨cell, hr, hcell⟩ := hs.overlay_member (hl r rfl) hj
        refine ⟨path, cell, hpath, hcell, ?_⟩
        simp only [hw]
        exact ⟨j, hj, hr⟩

/-- The rows that a bound worker gives for a value: one if its group has no rows, else one for each of
them in their order, and each row has the cells that are passed through before those of the columns. -/
theorem Built.workValue_rows (hs : s.Built) (hw : s.Serves (some vars) w)
    (h : s.workValue w passed v d isDefault = .ok rows) :
    ∃ sub, subRows (s.guide d isDefault) (s.bind vars) v = .ok sub ∧
      rows.length = sub.elim 1 List.length ∧
      ∀ (k : Nat) (row : Row), rows[k]? = some row → ∃ cells, row = passed ++ cells ∧
        s.Holds (s.guide d isDefault) vars v (sub.bind (·[k]?)) cells := by
  rw [hw.workValue, Option.map_some, decodeValue, map_eq_ok_iff] at h
  obtain ⟨rows', h, rfl⟩ := h
  obtain ⟨plain, sub, hp, hsub, rfl⟩ := cells_eq_ok_iff.mp h
  refine ⟨sub, hsub, ?_⟩
  cases sub with
  | none =>
    refine ⟨rfl, fun k row hk => ?_⟩
    obtain rfl := List.mem_singleton.mp (List.mem_of_getElem? hk)
    exact ⟨_, rfl, hs.holds_overlay none hp (by simp)⟩
  | some sub =>
    refine ⟨by simp, fun k row hk => ?_⟩
    simp only [List.getElem?_map, Option.map_eq_some_iff] at hk
    obtain ⟨_, ⟨r, hr, rfl⟩, rfl⟩ := hk
    refine ⟨_, rfl, ?_⟩
    rw [Option.bind_some, hr]
    refine hs.holds_overlay (some r) hp ?_
    rintro _ ⟨⟩
    exact length_of_subRows hsub r (List.mem_of_getElem? hr)

def marks : List Column :=
  [⟨"mark", "$.marks[*]", .integer, none⟩, ⟨"label", "$.label", .boolean, none⟩]

def marksSchema : Document :=
  .ofSchema (.record ⟨⟨"", "r"⟩, [⟨"label", [], .primitive .boolean, none⟩,
    ⟨"marks", [], .array (.primitive .int), none⟩]⟩)

def marksStep : Step :=
  ⟨{ columns := marks },
    ⟨marks, [⟨⟨"label", "$.label", .boolean, none⟩, 1, ⟨"$.label", .record, [.member "label"]⟩⟩],
      [⟨⟨"$.marks", .record, [.member "marks"]⟩,
        [⟨⟨"mark", "$.marks[*]", .integer, none⟩, 0, ⟨"$", .record, []⟩⟩]⟩]⟩,
    some marksSchema⟩

theorem workValue_rows_marks :
    marksStep.Built ∧ ∃ w, marksStep.Serves (some .none) w ∧
      marksStep.workValue w [none] (.record [("label", .boolean true),
          ("marks", .array [.int 3, .int 4])]) marksSchema true =
        .ok [[none, some (.integer 3), some (.boolean true)],
          [none, some (.integer 4), some (.boolean true)]] ∧
      ∃ sub, marksStep.Holds (marksStep.guide marksSchema true) .none
        (.record [("label", .boolean true), ("marks", .array [.int 3, .int 4])]) sub
        [some (.integer 4), some (.boolean true)] := by
  have hstep : forContainer (fun _ => .error .notFound) { columns := marks } marksSchema =
    .ok marksStep := rfl
  have hs : marksStep.Built := .forContainer hstep
  have hw : marksStep.Serves (some .none) _ := .bound .none (.taken rfl)
  have hrows : marksStep.workValue _ [none] (.record [("label", .boolean true),
      ("marks", .array [.int 3, .int 4])]) marksSchema true =
    .ok [[none, some (.integer 3), some (.boolean true)],
      [none, some (.integer 4), some (.boolean true)]] := hw.workValue.trans rfl
  obtain ⟨sub, -, -, h⟩ := hs.workValue_rows hw hrows
  obtain ⟨cells, hcells, hholds⟩ := h 1 _ rfl
  obtain rfl : [some (.integer 4), some (.boolean true)] = cells := by simpa using hcells
  exact ⟨hs, _, hw, hrows, _, hholds⟩

end Step

end AvroColumns
