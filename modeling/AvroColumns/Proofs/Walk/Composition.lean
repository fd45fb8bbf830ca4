import AvroColumns.Proofs.Datum.Ending
import AvroColumns.Proofs.Walk.Trail

/-!
# Walks one after the other

A walk settles the unions at its end as every step does at its start, and what is settled stays as it is.
So a walk that has come to a place goes on from there like a walk that starts there, and a walk that has
come to nothing comes to nothing along more segments.
-/

namespace AvroColumns

open Outcome

namespace Guide

variable {g : Guide} {s t : Schema} {v w : Datum} {n : Node} {p q : Position} {step previous : Segment}
  {before after : List Segment} {isLast : Bool} {place : String} {fallback : Option Schema}

theorem step_of_settled (h : g.settle place p.schema p.value = .ok (t, w)) :
    g.step isLast step ⟨w, t, p.fallback⟩ = g.step isLast step p := by
  have hp : g.settle step.text p.schema p.value = .ok (t, w) := settle_of_place _ h
  have hw : g.settle step.text t w = .ok (t, w) := (settle_eq_ok_iff.mp h).2.settle _
  simp only [Guide.step, hp, hw]

theorem toMember_absent_of_last {name : String} {r : RecordType Schema}
    (h : g.toMember true place name r v fallback = .ok (.ended .absent)) :
    g.toMember false place name r v fallback = .ok (.ended .absent) := by
  cases hf : r.find? name with
  | some f =>
    rw [toMember_of_find? hf] at h ⊢
    exact h
  | none =>
    rw [toMember_of_lacking hf] at h ⊢
    simp only [if_true] at h
    split at h
    next => cases h
    next w hw =>
      cases h
      obtain ⟨_, _, hw⟩ := standIn?_defaulted hw
      cases hw
    next => exact h

theorem along_absent_of_last (h : g.along true step n w fallback = .ok (.ended .absent)) :
    g.along false step n w fallback = .ok (.ended .absent) := by
  cases meets step n with
  | wildcard => cases h
  | member => exact toMember_absent_of_last h
  | entry hk => rwa [along_entry hk] at h ⊢
  | item hi => rwa [along_item hi] at h ⊢
  | mismatch _ hm =>
    rw [hm] at h
    cases h

theorem step_absent_of_last (h : g.step isLast step p = .ok (.ended .absent)) :
    g.step false step p = .ok (.ended .absent) := by
  cases isLast with
  | false => exact h
  | true =>
    obtain ⟨schema, v, hs, ⟨hv, -⟩ | ⟨hv, n, hn, ha⟩⟩ := step_eq_ok_iff.mp h
    · exact step_of_null hs hv
    · exact step_eq_ok_iff.mpr ⟨schema, v, hs, .inr ⟨hv, n, hn, along_absent_of_last ha⟩⟩

theorem walkFrom_of_settled (h : g.settle place p.schema p.value = .ok (t, w)) :
    g.walkFrom previous (step :: after) ⟨w, t, p.fallback⟩ =
      g.walkFrom previous (step :: after) p := by
  rw [walkFrom_cons, walkFrom_cons, step_of_settled h]

theorem step_of_arrive_absent (h : g.arrive place p = .ok .absent) :
    g.step isLast step p = .ok (.ended .absent) := by
  obtain ⟨⟨schema, v⟩, hs, h⟩ := bind_eq_ok_iff.mp h
  cases hv : v.isNull with
  | true => exact step_of_null (settle_of_place step.text hs) hv
  | false => simp [hv] at h

theorem walkFrom_append_of_absent (h : g.walkFrom previous before p = .ok .absent) :
    g.walkFrom previous (before ++ step :: after) p = .ok .absent := by
  induction before generalizing previous p with
  | nil =>
    rw [List.nil_append, walkFrom_cons, step_of_arrive_absent h]
    rfl
  | cons s before ih =>
    rw [walkFrom_cons] at h
    rw [List.cons_append, walkFrom_cons]
    have hnil : (before ++ step :: after).isEmpty = false := by simp
    rw [hnil]
    obtain ⟨o, hs, h⟩ := bind_eq_ok_iff.mp h
    cases o with
    | ended w =>
      cases h
      rw [step_absent_of_last hs]
      rfl
    | onward q =>
      rw [step_of_onward false hs]
      exact ih h

/-- A walk along two paths, one after the other, is the walk along the second from where the first has
come to, and comes to nothing if the first does. -/
theorem walk_append (g : Guide) (p : Position) (before : List Segment) (h : after ≠ []) :
    (∀ q, g.walk before p = .ok (.reached q) → g.walk (before ++ after) p = g.walk after q) ∧
    (g.walk before p = .ok .absent → g.walk (before ++ after) p = .ok .absent) := by
  obtain ⟨step, after, rfl⟩ := List.exists_cons_of_ne_nil h
  constructor
  · intro q hq
    obtain ⟨r, place, hl, ha⟩ := leads_of_reached hq
    obtain ⟨t, w, hs, -, rfl⟩ := arrive_reached_iff.mp ha
    calc g.walk (before ++ step :: after) p
        = g.walkFrom (.member "$") (step :: after) r := hl.walkFrom_append
      _ = g.walk (step :: after) ⟨w, t, r.fallback⟩ := (walkFrom_of_settled hs).symm
  · exact walkFrom_append_of_absent

def annotated : Document :=
  .ofSchema (.record ⟨⟨"", "Chain"⟩,
    [⟨"value", [], .primitive .int, none⟩,
      ⟨"next", [], .union [.primitive .null, .ref ⟨"", "Chain"⟩], some .null⟩,
      ⟨"note", [], .primitive .int, some (.int 7)⟩]⟩)

theorem walk_append_chain :
    let g : Guide := ⟨.chain, some annotated, false⟩
    let p := g.start (.record [("value", .int 1), ("next", .union 1 (.record
      [("value", .int 2), ("next", .union 0 .null)]))])
    let q : Position := ⟨.record [("value", .int 2), ("next", .union 0 .null)], .ref ⟨"", "Chain"⟩,
      some (.union [.primitive .null, .ref ⟨"", "Chain"⟩])⟩
    [Segment.member "note"] ≠ [] ∧ g.walk [.member "next"] p = .ok (.reached q) ∧
      g.walk [.member "next", .member "note"] p = g.walk [.member "note"] q ∧
      g.walk [.member "note"] q = .ok (.defaulted (.int 7) .int) ∧
      g.walk [.member "next", .member "next"] p = .ok .absent ∧
      g.walk [.member "next", .member "next", .member "note"] p = .ok .absent := by
  intro g p q
  have hne : [Segment.member "note"] ≠ [] := nofun
  have hq : g.walk [.member "next"] p = .ok (.reached q) := rfl
  have ha : g.walk [.member "next", .member "next"] p = .ok .absent := rfl
  exact ⟨hne, hq, (walk_append g p _ hne).1 q hq, rfl, ha, (walk_append g p _ hne).2 ha⟩

end Guide

end AvroColumns
