import AvroColumns.Proofs.Datum.Parts
import AvroColumns.Proofs.Walk.Step

namespace AvroColumns.Guide

open Outcome

inductive Leads (g : Guide) : Position → List Segment → Position → Prop
  | nil {p} : Leads g p [] p
  | cons {s segments p q r} : g.step false s p = .ok (.onward q) → Leads g q segments r →
      Leads g p (s :: segments) r

variable {g : Guide} {p q r : Position} {s previous previous' : Segment}
  {segments rest : List Segment}

theorem Leads.invariant {P : Position → Prop}
    (preserved : ∀ {s p q}, P p → g.step false s p = .ok (.onward q) → P q)
    (h : g.Leads p segments q) (hp : P p) : P q := by
  induction h with
  | nil => exact hp
  | cons hs _ ih => exact ih (preserved hp hs)

theorem step_of_onward {isLast : Bool} (isLast' : Bool) (h : g.step isLast s p = .ok (.onward q)) :
    g.step isLast' s p = .ok (.onward q) :=
  step_onward_iff.mpr (step_onward_iff.mp h)

@[simp] theorem walkFrom_cons : g.walkFrom previous (s :: rest) p =
    g.step rest.isEmpty s p >>= fun
      | .ended w => .ok w
      | .onward q => g.walkFrom s rest q := by
  rw [walkFrom]
  rfl

theorem walkFrom_of_onward (h : g.step rest.isEmpty s p = .ok (.onward q)) :
    g.walkFrom previous (s :: rest) p = g.walkFrom s rest q := by
  rw [walkFrom_cons, h]
  rfl

theorem arrive_reached_iff {place : String} :
    g.arrive place p = .ok (.reached q) ↔ ∃ schema v,
      g.settle place p.schema p.value = .ok (schema, v) ∧ v.isNull = false ∧
        q = ⟨v, schema, p.fallback⟩ := by
  simp only [arrive, bind_eq_ok_iff, Prod.exists]
  constructor
  · rintro ⟨schema, v, hs, h⟩
    cases hv : v.isNull with
    | true => simp [hv] at h
    | false => exact ⟨schema, v, hs, hv, by simpa [hv, eq_comm] using h⟩
  · rintro ⟨schema, v, hs, hv, rfl⟩
    exact ⟨schema, v, hs, by simp [hv]⟩

theorem walkFrom_of_previous {w : Walk} (h : g.walkFrom previous segments p = .ok w) :
    g.walkFrom previous' segments p = .ok w := by
  cases segments with
  | nil => exact arrive_of_place _ h
  | cons s rest => rwa [walkFrom_cons] at h ⊢

theorem Leads.walkFrom_append (h : g.Leads p segments q) :
    g.walkFrom previous (segments ++ s :: rest) p = g.walkFrom previous (s :: rest) q := by
  induction h generalizing previous with
  | nil => rfl
  | cons hs _ ih =>
    rw [List.cons_append, walkFrom_of_onward (step_of_onward _ hs), ih, walkFrom_cons, walkFrom_cons]

theorem leads_of_reached (h : g.walkFrom previous segments p = .ok (.reached q)) :
    ∃ r place, g.Leads p segments r ∧ g.arrive place r = .ok (.reached q) := by
  induction segments generalizing previous p with
  | nil => exact ⟨p, previous.text, .nil, h⟩
  | cons s rest ih =>
    rw [walkFrom_cons] at h
    obtain ⟨step, hs, h⟩ := bind_eq_ok_iff.mp h
    cases step with
    | ended w =>
      cases h
      rcases step_ended hs with hw | ⟨_, _, hw⟩
      · cases hw
      · obtain ⟨_, _, hw⟩ := standIn?_defaulted hw
        cases hw
    | onward p' =>
      obtain ⟨r, place, hl, ha⟩ := ih h
      exact ⟨r, place, .cons (step_of_onward _ hs) hl, ha⟩

theorem Turn.within {x y : Schema × Datum} (h : g.Turn x y) : y.2.Within x.2 := by
  cases h with
  | choose _ hb =>
    rcases Document.branch?_eq_some_iff.mp hb with ⟨i, rfl, -⟩ | ⟨-, -, rfl⟩
    · exact .part (by simp) .refl
    · exact .refl
  | untag => exact .part (by simp) .refl

theorem settle_within {place : String} {schema : Schema} {v : Datum} {r : Schema × Datum}
    (h : g.settle place schema v = .ok r) : r.2.Within v :=
  settle_induction (P := fun x => r.2.Within x.2) h (fun _ => .refl) fun ht hr => hr.trans ht.within

theorem Onward.within {fallback : Option Schema} {n : Node} {v : Datum}
    (h : g.Onward fallback s n v q) : q.value.Within v := by
  cases h with
  | member _ hl => exact .part (List.mem_map_of_mem (f := (·.2)) (Datum.lookup_mem hl)) .refl
  | entry _ hl => exact .part (List.mem_map_of_mem (f := (·.2)) (Datum.lookup_mem hl)) .refl
  | item _ _ hv => exact .part (List.mem_of_getElem? hv) .refl

theorem Leads.within (h : g.Leads p segments q) : q.value.Within p.value := by
  refine h.invariant (P := fun r => r.value.Within p.value) ?_ .refl
  intro s r r' hr hs
  obtain ⟨schema, v, n, hv, -, -, ho⟩ := step_onward_iff.mp hs
  exact (ho.within.trans (settle_within hv)).trans hr

end AvroColumns.Guide
