import Mathlib.Data.List.Induction
import AvroColumns.Plan.Basic
import AvroColumns.Proofs.Outcome

namespace AvroColumns

open Outcome

namespace Placement

def placed : Placement → Placed
  | .plain p => p
  | .grouped _ p => p

@[simp] theorem placed_plain (p : Placed) : (plain p).placed = p := rfl

@[simp] theorem placed_grouped (container : Path) (p : Placed) : (grouped container p).placed = p :=
  rfl

end Placement

namespace Plan

variable {columns : List Column} {plan : Plan} {ps : List Placement} {place : Placement}
  {c : Column} {i : Nat} {container : Path} {p : Placed} {gs : List Group}

def groupedOf (ps : List Placement) : List Placed :=
  ps.filterMap fun
    | .plain _ => none
    | .grouped _ p => some p

theorem place_eq_ok (h : Plan.place i c = .ok place) :
    ∃ path, Path.compile c.path = .ok path ∧
      match path.wildcard? with
      | none => place = .plain ⟨c, i, path⟩
      | some w => place = .grouped (path.container w) ⟨c, i, path.behind w⟩ := by
  rw [Plan.place] at h
  by_cases hb : Text.isBlankText c.path
  · simp [hb] at h
  · simp only [hb] at h
    obtain ⟨path, hp, h⟩ := bind_eq_ok_iff.mp h
    rw [mapError_eq_ok_iff] at hp
    refine ⟨path, hp, ?_⟩
    by_cases hc : 1 < path.segments.countP Segment.isWildcard
    · simp [hc] at h
    · simp only [hc] at h
      cases hw : path.wildcard? with
      | none => simpa [hw, eq_comm] using h
      | some w => simpa [hw, eq_comm] using h

theorem placed_of_place (h : Plan.place i c = .ok place) :
    place.placed.column = c ∧ place.placed.ordinal = i := by
  obtain ⟨path, -, h⟩ := place_eq_ok h
  cases hw : path.wildcard? <;> rw [hw] at h <;> subst h <;> exact ⟨rfl, rfl⟩

theorem compile_eq_ok_iff :
    compile columns = .ok plan ↔
      ∃ ps, (columns.zipIdx.mapM fun (c, i) => Plan.place i c) = .ok ps ∧
        plan = ⟨columns, plainOf ps, groupsOf ps⟩ := by
  rw [compile, bind_eq_ok_iff]
  simp [eq_comm]

theorem ordinals_eq_range (h : (columns.zipIdx.mapM fun (c, i) => Plan.place i c) = .ok ps) :
    ps.map (·.placed.ordinal) = List.range columns.length := by
  have hsnd : columns.zipIdx.map (·.2) = List.range columns.length := by
    rw [List.zipIdx_map_snd, List.range_eq_range']
  rw [← hsnd]
  replace h := mapM_eq_ok_iff.mp h
  generalize columns.zipIdx = placed at h
  induction h with
  | nil => rfl
  | cons hp _ ih => rw [List.map_cons, List.map_cons, ih, (placed_of_place hp).2]

theorem getElem?_of_place (h : (columns.zipIdx.mapM fun (c, i) => Plan.place i c) = .ok ps)
    (hc : columns[i]? = some c) : ∃ place, ps[i]? = some place ∧ Plan.place i c = .ok place := by
  have hz : columns.zipIdx[i]? = some (c, i) := by simp [hc]
  exact getElem?_of_mapM h hz

@[simp] theorem mem_plainOf : p ∈ plainOf ps ↔ .plain p ∈ ps := by
  rw [plainOf, List.mem_filterMap]
  constructor
  · rintro ⟨place, hm, h⟩
    cases place with
    | plain q => cases h; exact hm
    | grouped => cases h
  · exact fun h => ⟨_, h, rfl⟩

@[simp] theorem mem_groupedOf : p ∈ groupedOf ps ↔ ∃ container, .grouped container p ∈ ps := by
  rw [groupedOf, List.mem_filterMap]
  constructor
  · rintro ⟨place, hm, h⟩
    cases place with
    | plain => cases h
    | grouped container q => cases h; exact ⟨container, hm⟩
  · exact fun ⟨_, h⟩ => ⟨_, h, rfl⟩

theorem plainOf_append_groupedOf_perm (ps : List Placement) :
    (plainOf ps ++ groupedOf ps).Perm (ps.map (·.placed)) := by
  induction ps with
  | nil => exact .nil
  | cons place ps ih =>
    cases place with
    | plain p => exact .cons p ih
    | grouped container p => exact List.perm_middle.trans (.cons p ih)

theorem flatMap_addMember_perm :
    ((addMember container p gs).flatMap (·.members)).Perm (gs.flatMap (·.members) ++ [p]) := by
  induction gs with
  | nil => exact .refl _
  | cons g gs ih =>
    rw [addMember]
    split
    · simp only [List.flatMap_cons, List.append_assoc]
      exact .append_left _ List.perm_append_comm
    · simp only [List.flatMap_cons, List.append_assoc]
      exact .append_left _ ih

@[simp] theorem groupsOf_concat : groupsOf (ps ++ [place]) =
    match place with
    | .plain _ => groupsOf ps
    | .grouped container p => addMember container p (groupsOf ps) := by
  rw [groupsOf, List.foldl_append]
  rfl

theorem flatMap_groupsOf_perm : ((groupsOf ps).flatMap (·.members)).Perm (groupedOf ps) := by
  induction ps using List.reverseRecOn with
  | nil => exact .nil
  | append_singleton ps place ih =>
    cases place with
    | plain p => simpa [groupedOf] using ih
    | grouped container p =>
      rw [groupsOf_concat]
      refine flatMap_addMember_perm.trans ?_
      simpa [groupedOf] using ih.append_right [p]

theorem addMember_forall {P : Group → Prop} (h : ∀ g ∈ gs, P g) (start : P ⟨container, [p]⟩)
    (join : ∀ g : Group, P g → P ⟨g.container, g.members ++ [p]⟩) :
    ∀ g ∈ addMember container p gs, P g := by
  induction gs with
  | nil =>
    rw [addMember, List.forall_mem_singleton]
    exact start
  | cons g gs ih =>
    rw [List.forall_mem_cons] at h
    rw [addMember]
    split
    · exact List.forall_mem_cons.mpr ⟨join g h.1, h.2⟩
    · exact List.forall_mem_cons.mpr ⟨h.1, ih h.2⟩

theorem groupsOf_forall {P : Group → Prop}
    (start : ∀ container p, .grouped container p ∈ ps → P ⟨container, [p]⟩)
    (join : ∀ (g : Group) container p, .grouped container p ∈ ps → P g →
      P ⟨g.container, g.members ++ [p]⟩) : ∀ g ∈ groupsOf ps, P g := by
  induction ps using List.reverseRecOn with
  | nil => exact nofun
  | append_singleton ps place ih =>
    have hgs : ∀ g ∈ groupsOf ps, P g := ih (fun container p hm => start container p (by simp [hm]))
      fun g container p hm => join g container p (by simp [hm])
    rw [groupsOf_concat]
    cases place with
    | plain p => exact hgs
    | grouped container p =>
      exact addMember_forall hgs (start container p (by simp)) fun g => join g container p (by simp)

theorem groupsOf_ne_nil (ps : List Placement) : ∀ g ∈ groupsOf ps, g.members ≠ [] :=
  groupsOf_forall (by simp) (by simp)

end Plan

end AvroColumns
