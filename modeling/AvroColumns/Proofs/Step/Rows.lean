import AvroColumns.Proofs.Step.Assembly

namespace AvroColumns.Step

open Outcome

variable {s : Step} {fs : Files} {seen cache : Cache} {g : Guide} {v : Datum} {d : Document}
  {isDefault : Bool} {passed r row cells : Row} {rows : List Row} {vars : Variables}
  {last : Option Variables} {w : Worker}

def Filled (s : Step) (cells : Row) : Prop :=
  ∃ (g : Guide) (vars : Variables) (v : Datum) (sub : Option Row), s.Holds g vars v sub cells ∧
    ∀ r ∈ sub, ∃ rows, subRows g (s.bind vars) v = .ok (some rows) ∧ r ∈ rows

def Fills (s : Step) (cells : Row) : Prop :=
  cells = List.replicate s.width none ∨ s.Filled cells

theorem Fills.length (h : s.Fills cells) : cells.length = s.columns.length := by
  rcases h with rfl | ⟨g, vars, v, sub, h, -⟩
  · exact List.length_replicate
  · exact h.length

theorem Built.filled_of_cells (hs : s.Built) (h : s.cells g (s.bind vars) v = .ok rows)
    (hrow : row ∈ rows) : s.Filled row := by
  obtain ⟨plain, sub, hp, hsub, rfl⟩ := cells_eq_ok_iff.mp h
  cases sub with
  | none =>
    obtain rfl := List.mem_singleton.mp hrow
    exact ⟨g, vars, v, none, hs.holds_overlay none hp (by simp), by simp⟩
  | some rows =>
    obtain ⟨r, hr, rfl⟩ := List.mem_map.mp hrow
    have hl : ∀ r' ∈ some r, r'.length = (s.bind vars).members.length := by
      rintro _ ⟨⟩
      exact length_of_subRows hsub r hr
    refine ⟨g, vars, v, some r, hs.holds_overlay (some r) hp hl, ?_⟩
    rintro _ ⟨⟩
    exact ⟨rows, hsub, hr⟩

theorem Built.mem_decodeValue (hs : s.Built)
    (h : s.decodeValue (some (s.bind vars)) passed v d isDefault = .ok rows) (hrow : row ∈ rows) :
    ∃ cells, row = passed ++ cells ∧ s.Filled cells := by
  obtain ⟨rows', hrows, rfl⟩ := map_eq_ok_iff.mp h
  obtain ⟨cells, hcells, rfl⟩ := List.mem_map.mp hrow
  exact ⟨cells, rfl, hs.filled_of_cells hrows hcells⟩

theorem Built.mem_workValue (hs : s.Built) (hw : s.Serves last w)
    (h : s.workValue w passed v d isDefault = .ok rows) (hrow : row ∈ rows) :
    ∃ cells, row = passed ++ cells ∧ s.Filled cells := by
  rw [hw.workValue] at h
  cases last with
  | none => cases h
  | some vars => exact hs.mem_decodeValue h hrow

theorem decodeRowBy_eq_ok {value : Datum → Chosen → Except Failure (List Row)}
    (h : (s.decodeRowBy value fs seen cache r).1 = .ok rows) :
    rows = [r ++ List.replicate s.width none] ∨ ∃ v chosen, value v chosen = .ok rows := by
  rw [decodeRowBy] at h
  cases hp : r[s.config.payloadColumn]? with
  | none => simp [hp] at h
  | some payload =>
    cases payload with
    | none =>
      rw [hp] at h
      cases h
      exact .inl rfl
    | some payload =>
      simp only [hp] at h
      rcases hc : s.choose fs seen cache r with ⟨f | chosen, cache'⟩
      · rw [hc] at h
        cases h
      · rw [hc] at h
        obtain ⟨v, -, hv⟩ := bind_eq_ok_iff.mp h
        exact .inr ⟨v, chosen, hv⟩

theorem Built.mem_workRow (hs : s.Built) (hw : s.Serves last w)
    (h : (s.workRowSince w fs seen cache r).1 = .ok rows) (hrow : row ∈ rows) :
    ∃ cells, row = r ++ cells ∧ s.Fills cells := by
  rcases decodeRowBy_eq_ok h with rfl | ⟨v, chosen, hv⟩
  · exact ⟨_, List.mem_singleton.mp hrow, .inl rfl⟩
  · obtain ⟨cells, rfl, hfilled⟩ := hs.mem_workValue hw hv hrow
    exact ⟨cells, rfl, .inr hfilled⟩

end AvroColumns.Step
