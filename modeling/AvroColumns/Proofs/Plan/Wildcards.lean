import AvroColumns.Proofs.Plan.Placement

namespace AvroColumns

open Outcome

namespace Path

variable {p : Path} {i : Nat}

theorem wildcard_not_mem (h : p.wildcard? = none) : .wildcard ∉ p.segments := by
  intro hm
  have := List.findIdx?_eq_none_iff.mp h _ hm
  cases this

theorem wildcard_not_mem_of_cut (h : p.wildcard? = some i)
    (hc : p.segments.countP Segment.isWildcard ≤ 1) :
    .wildcard ∉ (p.container i).segments ∧ .wildcard ∉ (p.behind i).segments := by
  obtain ⟨hi, hw, -⟩ := List.findIdx?_eq_some_iff_getElem.mp h
  have hcut : p.segments = p.segments.take i ++ p.segments[i] :: p.segments.drop (i + 1) := by
    rw [List.getElem_cons_drop, List.take_append_drop]
  have absent {segments : List Segment} (h0 : segments.countP Segment.isWildcard = 0) :
      .wildcard ∉ segments := by
    intro hm
    exact List.countP_eq_zero.mp h0 _ hm rfl
  rw [hcut, List.countP_append, List.countP_cons_of_pos hw] at hc
  have hbefore : .wildcard ∉ p.segments.take i := absent (by omega)
  have hafter : .wildcard ∉ p.segments.drop (i + 1) := absent (by omega)
  exact ⟨hbefore, hafter⟩

end Path

namespace Placement

inductive Resolved : Placement → Prop
  | plain {p} : .wildcard ∉ p.path.segments → Resolved (.plain p)
  | grouped {container p} : .wildcard ∉ container.segments → .wildcard ∉ p.path.segments →
      Resolved (.grouped container p)

end Placement

structure Group.Resolved (g : Group) : Prop where
  container : .wildcard ∉ g.container.segments
  members : ∀ p ∈ g.members, .wildcard ∉ p.path.segments

namespace Plan

variable {columns : List Column} {plan : Plan} {ps : List Placement} {place : Placement} {c : Column}
  {i : Nat} {path : Path}

theorem count_of_place (h : Plan.place i c = .ok place) (hp : Path.compile c.path = .ok path) :
    path.segments.countP Segment.isWildcard ≤ 1 := by
  rw [Plan.place] at h
  by_cases hb : Text.isBlankText c.path
  · simp [hb] at h
  · simp only [hb, hp] at h
    by_cases hc : 1 < path.segments.countP Segment.isWildcard
    · simp [hc] at h
    · exact Nat.le_of_not_lt hc

theorem resolved_of_place (h : Plan.place i c = .ok place) : place.Resolved := by
  obtain ⟨path, hp, hplace⟩ := place_eq_ok h
  cases hw : path.wildcard? with
  | none =>
    simp only [hw] at hplace
    subst hplace
    exact .plain (Path.wildcard_not_mem hw)
  | some w =>
    simp only [hw] at hplace
    subst hplace
    obtain ⟨hcontainer, hbehind⟩ := Path.wildcard_not_mem_of_cut hw (count_of_place h hp)
    exact .grouped hcontainer hbehind

theorem resolved_groupsOf (h : ∀ place ∈ ps, place.Resolved) : ∀ g ∈ groupsOf ps, g.Resolved := by
  refine groupsOf_forall (fun container p hm => ?_) fun g container p hm hg => ?_
  · cases h _ hm with
    | grouped hcontainer hp => exact ⟨hcontainer, by simpa using hp⟩
  · cases h _ hm with
    | grouped hcontainer hp =>
      refine ⟨hg.container, ?_⟩
      simpa [or_imp, forall_and] using ⟨hg.members, hp⟩

theorem resolved_of_compile (h : compile columns = .ok plan) :
    (∀ p ∈ plan.plain, .wildcard ∉ p.path.segments) ∧ ∀ g ∈ plan.groups, g.Resolved := by
  obtain ⟨ps, hps, rfl⟩ := compile_eq_ok_iff.mp h
  have hplaced (place : Placement) (hm : place ∈ ps) : place.Resolved := by
    obtain ⟨⟨c, i⟩, -, hc⟩ := exists_of_mem_mapM hps hm
    exact resolved_of_place hc
  refine ⟨?_, resolved_groupsOf hplaced⟩
  intro p hp
  cases hplaced _ (mem_plainOf.mp hp) with
  | plain h => exact h

end Plan

end AvroColumns
