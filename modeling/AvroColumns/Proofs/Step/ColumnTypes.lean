import AvroColumns.Proofs.Step.Rows

namespace AvroColumns

open Outcome

def Cell.target : Cell → Target
  | .string _ => .string
  | .integer _ => .integer
  | .number _ => .number
  | .bigNumber _ => .bigNumber
  | .boolean _ => .boolean
  | .date _ => .date
  | .binary _ => .binary

namespace Target

variable {t : Target} {c : Cell} {cell : Option Cell}

def Allows (t : Target) (cell : Option Cell) : Prop :=
  ∀ c ∈ cell, c.target = t

@[simp] theorem allows_none (t : Target) : t.Allows none :=
  nofun

@[simp] theorem allows_some : t.Allows (some c) ↔ c.target = t := by
  simp [Allows]

@[simp] theorem allows_unsupported : unsupported.Allows cell ↔ cell = none := by
  cases cell with
  | none => simp
  | some c => cases c <;> simp [Cell.target]

end Target

section

variable {t : Target} {c : Cell} {cell : Option Cell} {kind : LeafKind} {v : Datum} {j : Json}
  {scalar : Scalar}

theorem Scalar.target_of_cell? (h : scalar.cell? t = some c) : c.target = t := by
  cases t with
  | string =>
    cases h
    rfl
  | unsupported => cases h
  | _ =>
    obtain ⟨_, -, rfl⟩ := Option.map_eq_some_iff.mp h
    rfl

theorem Datum.allows_toCell (h : v.toCell kind t = .ok cell) : t.Allows cell := by
  rw [toCell] at h
  split at h
  · cases h
    simp
  · cases hs : Scalar.ofDatum? kind v with
    | error found => simp [hs] at h
    | ok scalar =>
      cases scalar with
      | none =>
        rw [hs] at h
        cases h
        simp
      | some scalar =>
        simp only [hs] at h
        cases hc : scalar.cell? t with
        | none => simp [hc] at h
        | some c =>
          rw [hc] at h
          cases h
          simpa using Scalar.target_of_cell? hc

theorem LeafKind.allows_literalCell (h : kind.literalCell j t = .ok cell) : t.Allows cell := by
  rw [literalCell] at h
  cases hv : kind.ofLiteral? j with
  | none => simp [hv] at h
  | some v =>
    rw [hv] at h
    exact Datum.allows_toCell h

end

namespace Guide

variable {g : Guide} {p : Position} {segments : List Segment} {t : Target} {cell : Option Cell}
  {walk : Walk} {v : Datum} {path : BoundPath}

theorem allows_finish (h : g.finish segments t walk = .ok cell) : t.Allows cell := by
  cases walk with
  | absent =>
    cases h
    simp
  | defaulted literal kind => exact LeafKind.allows_literalCell (mapError_eq_ok_iff.mp h)
  | reached p =>
    obtain ⟨n, -, h⟩ := bind_eq_ok_iff.mp h
    cases hk : n.leaf? with
    | none => simp [hk] at h
    | some kind =>
      rw [hk] at h
      exact Datum.allows_toCell (mapError_eq_ok_iff.mp h)

theorem allows_extractFrom (h : g.extractFrom p segments t = .ok cell) : t.Allows cell := by
  obtain ⟨walk, -, h⟩ := bind_eq_ok_iff.mp h
  exact allows_finish h

theorem allows_extract (h : g.extract v path t = .ok cell) : t.Allows cell :=
  allows_extractFrom h

end Guide

namespace Step

variable {s : Step} {g : Guide} {b : Binding} {v : Datum} {rows : List Row} {cells r : Row}
  {last : Option Variables} {w : Worker}

theorem allows_subRows (h : subRows g b v = .ok (some rows)) (hr : r ∈ rows) {j : Nat}
    {m : BoundMember} {cell : Option Cell} (hm : b.members[j]? = some m) (hcell : r[j]? = some cell) :
    m.column.target.Allows cell := by
  rw [subRows] at h
  rw [Binding.members] at hm
  cases hg : b.group with
  | none => simp [hg] at h
  | some group =>
    simp only [hg, map_eq_ok_iff] at h
    obtain ⟨e, he, h⟩ := h
    cases e with
    | absent => cases h
    | rows rows =>
      cases h
      obtain ⟨p, n, schema, vs, -, -, -, hrows⟩ := Guide.expand_rows he
      obtain ⟨entry, -, hentry⟩ := exists_of_mem_mapM hrows hr
      simp only [hg, Option.map_some, Option.getD_some] at hm
      obtain ⟨cell', hcell', hx⟩ := getElem?_of_mapM hentry hm
      obtain rfl := Option.some.inj (hcell.symm.trans hcell')
      exact Guide.allows_extractFrom (mapError_eq_ok_iff.mp hx)

/-- Each cell of a row behind those passed through is one that its column may have. -/
def Typed (s : Step) (cells : Row) : Prop :=
  cells.length = s.columns.length ∧ ∀ (i : Nat) (column : Column), s.columns[i]? = some column →
    ∃ cell, cells[i]? = some cell ∧ column.target.Allows cell

theorem Filled.typed (h : s.Filled cells) : s.Typed cells := by
  obtain ⟨g, vars, v, sub, h, hsub⟩ := h
  refine ⟨h.length, fun i column hi => ?_⟩
  obtain ⟨path, cell, -, hcell, hplace⟩ := h.cell hi
  refine ⟨cell, hcell, ?_⟩
  cases hw : path.wildcard? with
  | none =>
    simp only [hw] at hplace
    exact Guide.allows_extract hplace
  | some k =>
    simp only [hw] at hplace
    cases sub with
    | none =>
      subst hplace
      simp
    | some r =>
      obtain ⟨j, hj, hr⟩ := hplace
      obtain ⟨rows, hrows, hmem⟩ := hsub r rfl
      exact allows_subRows hrows hmem hj hr

theorem Fills.typed (h : s.Fills cells) : s.Typed cells := by
  refine ⟨h.length, ?_⟩
  rcases h with rfl | h
  · intro i column hi
    have hlt : i < s.width := (List.getElem?_eq_some_iff.mp hi).1
    exact ⟨none, by simp [hlt], by simp⟩
  · exact h.typed.2

/-- In every row that a worker has for a value, or for a row, the cells behind those passed through are
one for each column, empty or of the column's type, and always empty if that is unsupported. -/
theorem Built.columns_typed (hs : s.Built) (hw : s.Serves last w) :
    (∀ (passed : Row) (v : Datum) (d : Document) (isDefault : Bool) (rows : List Row),
        s.workValue w passed v d isDefault = .ok rows → ∀ row ∈ rows,
          ∃ cells, row = passed ++ cells ∧ s.Typed cells ∧
            ∀ (i : Nat) (column : Column), s.columns[i]? = some column →
              column.target = .unsupported → cells[i]? = some none) ∧
      ∀ (fs : Files) (cache : Cache) (r : Row) (rows : List Row),
        (s.workRow w fs cache r).1 = .ok rows → ∀ row ∈ rows,
          ∃ cells, row = r ++ cells ∧ s.Typed cells ∧
            ∀ (i : Nat) (column : Column), s.columns[i]? = some column →
              column.target = .unsupported → cells[i]? = some none := by
  have hempty {cells : Row} (h : s.Typed cells) (i : Nat) (column : Column)
      (hi : s.columns[i]? = some column) (hu : column.target = .unsupported) :
      cells[i]? = some none := by
    obtain ⟨cell, hcell, hallows⟩ := h.2 i column hi
    simp_all
  constructor
  · intro passed v d isDefault rows h row hrow
    obtain ⟨cells, rfl, hfilled⟩ := hs.mem_workValue hw h hrow
    exact ⟨cells, rfl, hfilled.typed, hempty hfilled.typed⟩
  · intro fs cache r rows h row hrow
    obtain ⟨cells, rfl, hfills⟩ := hs.mem_workRow hw h hrow
    exact ⟨cells, rfl, hfills.typed, hempty hfills.typed⟩

theorem columns_typed_marks :
    marksStep.Built ∧ ∃ w, marksStep.Serves (some .none) w ∧
      marksStep.workValue w [none] (.record [("label", .boolean true),
          ("marks", .array [.int 3, .int 4])]) marksSchema true =
        .ok [[none, some (.integer 3), some (.boolean true)],
          [none, some (.integer 4), some (.boolean true)]] ∧
      marksStep.Typed [some (.integer 4), some (.boolean true)] := by
  have hstep : forContainer (fun _ => .error .notFound) { columns := marks } marksSchema =
    .ok marksStep := rfl
  have hs : marksStep.Built := .forContainer hstep
  have hw : marksStep.Serves (some .none) _ := .bound .none (.taken rfl)
  have hrows : marksStep.workValue _ [none] (.record [("label", .boolean true),
      ("marks", .array [.int 3, .int 4])]) marksSchema true =
    .ok [[none, some (.integer 3), some (.boolean true)],
      [none, some (.integer 4), some (.boolean true)]] := hw.workValue.trans rfl
  obtain ⟨cells, hcells, htyped, -⟩ := (hs.columns_typed hw).1 _ _ _ _ _ hrows
    [none, some (.integer 4), some (.boolean true)] (by simp)
  obtain rfl : [some (.integer 4), some (.boolean true)] = cells := by simpa using hcells
  exact ⟨hs, _, hw, hrows, htyped⟩

end Step

end AvroColumns
