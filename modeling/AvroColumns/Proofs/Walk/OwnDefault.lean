import AvroColumns.Proofs.Walk.StandIn

namespace AvroColumns

namespace Node

def inner : Node → List Schema
  | .record r => r.fields.map (·.type)
  | .map values => [values]
  | .array items => [items]
  | _ => []

def akin : Node → Node → Bool
  | .record _, .record _ => true
  | .map _, .map _ | .map _, .array _ | .array _, .map _ | .array _, .array _ => true
  | _, _ => false

end Node

namespace Document

inductive Branch (d : Document) : Schema → Schema → Prop
  | refl {s} : Branch d s s
  | member {s members m t} : d.node s = .ok (.union members) → m ∈ members → Branch d m t →
      Branch d s t

inductive Reaches (d : Document) : Schema → Prop
  | root : Reaches d d.root
  | inner {s t n u} : Reaches d s → Branch d s t → d.node t = .ok n → u ∈ n.inner → Reaches d u

def container? (d : Document) (members : List Schema) : Option Schema :=
  members.find? fun m => (d.node m).toOption.any Node.isContainer

/-- No union that a walk can come to has, beside its first container, another one of that sort. -/
def Unambiguous (d : Document) : Prop :=
  ∀ s members c n t m, d.Reaches s → d.node s = .ok (.union members) →
    d.container? members = some c → d.node c = .ok n → d.Branch s t → d.node t = .ok m →
    m.akin n = true → m = n

end Document

namespace Guide

open Outcome

variable {g : Guide} {p q : Position} {s : Segment} {segments : List Segment} {n : Node}
  {v : Datum} {o : Except Walk.Fault Walk} {target : Target}

/-- The place in the default schema is either lost or the place in the schema itself. -/
def Aligned (g : Guide) (p : Position) : Prop :=
  g.document.Reaches p.schema ∧ (p.fallback = none ∨ p.fallback = some p.schema)

theorem Turn.branch {x y : Schema × Datum} {t : Schema} (h : g.Turn x y)
    (hb : g.document.Branch y.1 t) : g.document.Branch x.1 t := by
  cases h with
  | choose hn hc =>
    rcases Document.branch?_eq_some_iff.mp hc with ⟨i, -, hm⟩ | ⟨-, hm, -⟩
    · exact .member (node_eq_ok_iff.mp hn) (List.mem_of_getElem? hm) hb
    · exact .member (node_eq_ok_iff.mp hn) (List.mem_of_find?_eq_some hm) hb
  | untag => exact hb

theorem settle_branch {place : String} {schema t : Schema} {v' : Datum}
    (h : g.settle place schema v = .ok (t, v')) : g.document.Branch schema t :=
  settle_induction (P := fun x => g.document.Branch x.1 t) h (fun _ => .refl) fun ht hb => ht.branch hb

theorem defaultContainer?_own (hd : g.defaults = some g.document) {schema c : Schema}
    (h : g.defaultContainer? schema = some c) :
    c = schema ∨ ∃ members, g.document.node schema = .ok (.union members) ∧
      g.document.container? members = some c := by
  rw [defaultContainer?, defaultNode?_of_defaults hd] at h
  cases hn : g.document.node schema with
  | error e => simp [hn] at h
  | ok n =>
    cases n with
    | union members =>
      refine .inr ⟨members, rfl, ?_⟩
      have hp : g.isDefaultContainer =
          fun m => (g.document.node m).toOption.any Node.isContainer := by
        funext m
        rw [isDefaultContainer, defaultNode?_of_defaults hd]
        cases (g.document.node m).toOption <;> rfl
      rw [Document.container?, ← hp]
      simpa [hn] using h
    | _ =>
      left
      simpa [hn, eq_comm] using h

theorem Aligned.node_eq (hd : g.defaults = some g.document) (hu : g.document.Unambiguous)
    (hp : g.Aligned p) {place : String} {t : Schema} {v' : Datum} {m : Node}
    (hs : g.settle place p.schema p.value = .ok (t, v')) (hm : g.node t = .ok m)
    (hn : (p.fallback.bind g.defaultContainer?).bind g.defaultNode? = some n)
    (ha : m.akin n = true) : m = n := by
  obtain ⟨hr, hf | hf⟩ := hp
  · simp [hf] at hn
  · rw [hf, Option.bind_some, Option.bind_eq_some_iff] at hn
    obtain ⟨c, hc, hn⟩ := hn
    rw [defaultNode?_of_defaults hd, toOption_eq_some_iff] at hn
    rw [node_eq_ok_iff] at hm
    have hb := settle_branch hs
    obtain rfl | ⟨members, hus, hc⟩ := defaultContainer?_own hd hc
    · cases hb with
      | refl => exact Except.ok.inj (hm.symm.trans hn)
      | member hus _ _ =>
        obtain rfl := Except.ok.inj (hus.symm.trans hn)
        cases m <;> cases ha
    · exact hu _ _ _ _ _ _ hr hus hc hn hb hm ha

theorem Aligned.onward (hd : g.defaults = some g.document) (hu : g.document.Unambiguous)
    (hp : g.Aligned p) {isLast : Bool} (h : g.step isLast s p = .ok (.onward q)) :
    g.Aligned q := by
  obtain ⟨schema, v, n, hs, -, hn, ho⟩ := step_onward_iff.mp h
  have hin {u} (hu : u ∈ n.inner) : g.document.Reaches u :=
    .inner hp.1 (settle_branch hs) (node_eq_ok_iff.mp hn) hu
  have same {m : Node} := hp.node_eq hd hu hs hn (n := m)
  cases ho with
  | @member _ r f _ _ hf hl =>
    refine ⟨hin (List.mem_map_of_mem (List.mem_reverse.mp (List.mem_of_find?_eq_some hf))), ?_⟩
    cases hr : g.defaultRecord? (p.fallback.bind g.defaultContainer?) with
    | none => exact .inl rfl
    | some r' =>
      cases same (defaultRecord?_eq_some_iff.mp hr) rfl
      exact .inr (by simp [hf])
  | entry _ hl =>
    refine ⟨hin (List.mem_singleton.mpr rfl), ?_⟩
    cases hv : g.defaultValues? (p.fallback.bind g.defaultContainer?) with
    | none => exact .inl rfl
    | some values' =>
      cases same (defaultValues?_eq_some_iff.mp hv) rfl
      exact .inr rfl
  | item _ _ hl =>
    refine ⟨hin (List.mem_singleton.mpr rfl), ?_⟩
    cases hi : g.defaultItems? (p.fallback.bind g.defaultContainer?) with
    | none => exact .inl rfl
    | some items' =>
      cases same (defaultItems?_eq_some_iff.mp hi) rfl
      exact .inr rfl

theorem Aligned.answer (hd : g.defaults = some g.document) (hu : g.document.Unambiguous)
    (hp : g.Aligned p) {name : String} (h : g.Lacks name p) : g.answer name p = .ok none := by
  obtain ⟨schema, v, r, hs, -, hn, hf⟩ := h
  have hnone : (g.defaultRecord? (p.fallback.bind g.defaultContainer?)).bind (·.find? name) =
      none := by
    cases hr : g.defaultRecord? (p.fallback.bind g.defaultContainer?) with
    | none => rfl
    | some r' =>
      cases hp.node_eq hd hu hs hn (defaultRecord?_eq_some_iff.mp hr) rfl
      exact hf
  simp [Guide.answer, standIn?, hnone]

theorem Aligned.not_standsIn (hd : g.defaults = some g.document) (hu : g.document.Unambiguous)
    (hp : g.Aligned p) : ¬ g.StandsIn segments p o := by
  intro h
  induction h with
  | @here name p o hl ha =>
    rw [hp.answer hd hu hl] at ha
    cases o <;> cases ha
  | onward hs _ ih => exact ih (hp.onward hd hu hs)

theorem Aligned.leads (hd : g.defaults = some g.document) (hu : g.document.Unambiguous)
    (hp : g.Aligned p) (h : g.Leads p segments q) : g.Aligned q :=
  h.invariant (fun hp hs => hp.onward hd hu hs) hp

theorem aligned_start (hd : g.defaults = some g.document) : g.Aligned (g.start v) :=
  ⟨.root, .inr (by simp [start, hd])⟩

theorem not_defaultShows_own (hd : g.defaults = some g.document) (hu : g.document.Unambiguous) :
    ¬ g.DefaultShows (g.start v) segments target := by
  rintro ⟨o, h, -⟩
  exact (aligned_start hd).not_standsIn hd hu h

end Guide

end AvroColumns
