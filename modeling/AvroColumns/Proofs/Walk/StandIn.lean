import AvroColumns.Column.Extraction
import AvroColumns.Proofs.Walk.Trail

namespace AvroColumns

namespace Position

variable (p : Position)

def forget : Position :=
  { p with fallback := none }

@[simp] theorem value_forget : p.forget.value = p.value := rfl

@[simp] theorem schema_forget : p.forget.schema = p.schema := rfl

@[simp] theorem fallback_forget : p.forget.fallback = none := rfl

@[simp] theorem forget_mk (v : Datum) (s : Schema) (fallback : Option Schema) :
    forget ⟨v, s, fallback⟩ = ⟨v, s, none⟩ :=
  rfl

end Position

namespace Walk

variable (p : Position) (w : Walk)

def forget : Walk → Walk
  | .reached p => .reached p.forget
  | w => w

@[simp] theorem forget_absent : forget .absent = .absent := rfl

@[simp] theorem forget_defaulted (literal : Json) (kind : LeafKind) :
    forget (.defaulted literal kind) = .defaulted literal kind := rfl

@[simp] theorem forget_reached : forget (.reached p) = .reached p.forget := rfl

def Step.forget : Step → Step
  | .onward p => .onward p.forget
  | .ended w => .ended w.forget

@[simp] theorem Step.forget_onward : forget (.onward p) = .onward p.forget := rfl

@[simp] theorem Step.forget_ended : forget (.ended w) = .ended w.forget := rfl

end Walk

namespace Guide

open Outcome

def withoutDefaults (g : Guide) : Guide :=
  { g with defaults := none }

/-- The position is at a record that has no member of a name. -/
def Lacks (g : Guide) (name : String) (p : Position) : Prop :=
  ∃ schema v r, g.settle (Segment.member name).text p.schema p.value = .ok (schema, v) ∧
    v.isNull = false ∧ g.node schema = .ok (.record r) ∧ r.find? name = none

def answer (g : Guide) (name : String) (p : Position) : Except Walk.Fault (Option Walk) :=
  g.standIn? (g.defaultRecord? (p.fallback.bind g.defaultContainer?)) name

/-- The segments lead to a record that lacks the last of them, and the default schema has an answer
for it: a literal, or that it knows of no such type. -/
inductive StandsIn (g : Guide) : List Segment → Position → Except Walk.Fault Walk → Prop
  | here {name p o} : g.Lacks name p → g.answer name p = o.map some → StandsIn g [.member name] p o
  | onward {s segments p q o} : g.step false s p = .ok (.onward q) → StandsIn g segments q o →
      StandsIn g (s :: segments) p o

variable {g : Guide} {p q : Position} {s previous : Segment} {segments : List Segment}
  {isLast : Bool} {n : Node} {v : Datum} {fallback : Option Schema} {o : Except Walk.Fault Walk}
  {target : Target}

@[simp] theorem settle_withoutDefaults : g.withoutDefaults.settle = g.settle := by
  delta settle
  rfl

@[simp] theorem node_withoutDefaults (schema : Schema) :
    g.withoutDefaults.node schema = g.node schema :=
  rfl

@[simp] theorem tolerant_withoutDefaults : g.withoutDefaults.tolerant = g.tolerant := rfl

@[simp] theorem start_withoutDefaults (v : Datum) :
    g.withoutDefaults.start v = (g.start v).forget :=
  rfl

@[simp] theorem standIn?_withoutDefaults (r : Option (RecordType Schema)) (name : String) :
    g.withoutDefaults.standIn? r name = .ok none :=
  rfl

@[simp] theorem defaultRecord?_none : g.defaultRecord? none = none := rfl

@[simp] theorem defaultValues?_none : g.defaultValues? none = none := rfl

@[simp] theorem defaultItems?_none : g.defaultItems? none = none := rfl

@[simp] theorem entryFallback_none : g.entryFallback none = none := rfl

theorem toMember_withoutDefaults {place name : String} {r : RecordType Schema}
    (h : isLast = true → r.find? name = none →
      g.standIn? (g.defaultRecord? fallback) name = .ok none) :
    g.withoutDefaults.toMember isLast place name r v none =
      (g.toMember isLast place name r v fallback).map Walk.Step.forget := by
  cases hf : r.find? name with
  | some f =>
    rw [toMember_of_find? hf, toMember_of_find? hf]
    cases v with
    | record members => cases hl : Datum.lookup name members <;> simp [hl]
    | _ => rfl
  | none =>
    rw [toMember_of_lacking hf, toMember_of_lacking hf]
    have h' : (if isLast then g.standIn? (g.defaultRecord? fallback) name else .ok none) =
        .ok none := by
      cases isLast with
      | false => rfl
      | true => exact h rfl hf
    rw [h']
    cases ht : g.tolerant <;> simp [ht]

@[simp] theorem toEntry_withoutDefaults {place key : String} {values : Schema} :
    g.withoutDefaults.toEntry place key values v none =
      (g.toEntry place key values v fallback).map Walk.Step.forget := by
  cases v with
  | map entries => cases hl : Datum.lookup key entries <;> simp [toEntry, hl]
  | _ => rfl

@[simp] theorem toItem_withoutDefaults {place : String} {i : Int} {items : Schema} :
    g.withoutDefaults.toItem place i items v none =
      (g.toItem place i items v fallback).map Walk.Step.forget := by
  cases v with
  | array vs =>
    simp only [toItem]
    cases (if i < 0 then none else vs[i.toNat]?) <;> rfl
  | _ => rfl

theorem along_withoutDefaults
    (h : ∀ name r, isLast = true → s = .member name → n = .record r → r.find? name = none →
      g.standIn? (g.defaultRecord? fallback) name = .ok none) :
    g.withoutDefaults.along isLast s n v none =
      (g.along isLast s n v fallback).map Walk.Step.forget := by
  cases meets s n with
  | wildcard => rfl
  | @member name r => exact toMember_withoutDefaults fun hl hf => h name r hl rfl rfl hf
  | entry hk =>
    rw [along_entry hk, along_entry hk]
    exact toEntry_withoutDefaults
  | item hi =>
    rw [along_item hi, along_item hi]
    exact toItem_withoutDefaults
  | mismatch _ hm =>
    rw [hm, hm]
    rfl

theorem step_withoutDefaults
    (h : ∀ name, isLast = true → s = .member name → g.Lacks name p → g.answer name p = .ok none) :
    g.withoutDefaults.step isLast s p.forget = (g.step isLast s p).map Walk.Step.forget := by
  simp only [step, settle_withoutDefaults, Position.schema_forget, Position.value_forget]
  cases hs : g.settle s.text p.schema p.value with
  | error f => rfl
  | ok r =>
    obtain ⟨schema, v⟩ := r
    simp only [ok_bind]
    cases hv : v.isNull with
    | true => rfl
    | false =>
      simp only [node_withoutDefaults]
      cases hn : g.node schema with
      | error f => rfl
      | ok n =>
        refine along_withoutDefaults fun name r hl hs' hr hf => ?_
        subst hs' hr
        exact h name hl rfl ⟨schema, v, r, hs, hv, hn, hf⟩

@[simp] theorem arrive_withoutDefaults {place : String} :
    g.withoutDefaults.arrive place p.forget = (g.arrive place p).map Walk.forget := by
  simp only [arrive, settle_withoutDefaults, Position.schema_forget, Position.value_forget]
  cases g.settle place p.schema p.value with
  | error f => rfl
  | ok r =>
    obtain ⟨schema, v⟩ := r
    cases hv : v.isNull <;> simp [hv]

theorem Lacks.step {name : String} (h : g.Lacks name p) :
    g.step isLast (.member name) p =
      match if isLast then g.answer name p else .ok none with
      | .error f => .error f
      | .ok (some w) => .ok (.ended w)
      | .ok none =>
        if g.tolerant then .ok (.ended .absent)
        else .error (.missing (Segment.member name).text) := by
  obtain ⟨schema, v, r, hs, hv, hn, hf⟩ := h
  rw [step_of_settle hs hv hn]
  exact toMember_of_lacking hf

theorem StandsIn.walkFrom (h : g.StandsIn segments p o) (previous : Segment) :
    g.walkFrom previous segments p = o := by
  induction h generalizing previous with
  | @here name p o hl ha =>
    rw [walkFrom_cons, List.isEmpty_nil, hl.step, if_pos rfl, ha]
    cases o <;> rfl
  | onward hs _ ih => rw [walkFrom_of_onward (step_of_onward _ hs), ih]

theorem StandsIn.walkFrom_withoutDefaults (h : g.StandsIn segments p o) :
    g.withoutDefaults.walkFrom previous segments p.forget =
      if g.tolerant then .ok .absent else .error (.missing (lastPlace segments)) := by
  induction h generalizing previous with
  | @here name p o hl ha =>
    have hl' : g.withoutDefaults.Lacks name p.forget := by
      obtain ⟨schema, v, r, hs, h⟩ := hl
      exact ⟨schema, v, r, by simpa using hs, h⟩
    cases ht : g.tolerant <;> simp [hl'.step, answer, ht, lastPlace]
  | @onward s segments p q o hs hr ih =>
    have hstep : g.withoutDefaults.step false s p.forget = .ok (.onward q.forget) := by
      rw [step_withoutDefaults (by simp), hs]
      rfl
    replace hstep := step_of_onward segments.isEmpty hstep
    rw [walkFrom_of_onward hstep, ih]
    cases hr with
    | here => rfl
    | onward => simp [lastPlace]

theorem walkFrom_withoutDefaults (h : ∀ o, ¬ g.StandsIn segments p o) :
    g.withoutDefaults.walkFrom previous segments p.forget =
      (g.walkFrom previous segments p).map Walk.forget := by
  induction segments generalizing previous p with
  | nil => exact arrive_withoutDefaults
  | cons s rest ih =>
    have hstep : g.withoutDefaults.step rest.isEmpty s p.forget =
        (g.step rest.isEmpty s p).map Walk.Step.forget := by
      refine step_withoutDefaults fun name hlast hs hl => ?_
      subst hs
      rw [List.isEmpty_iff] at hlast
      subst hlast
      cases ha : g.answer name p with
      | error f => exact absurd (.here hl ha) (h (.error f))
      | ok o =>
        cases o with
        | none => rfl
        | some w => exact absurd (.here hl ha) (h (.ok w))
    rw [walkFrom_cons, walkFrom_cons, hstep]
    cases hs : g.step rest.isEmpty s p with
    | error f => rfl
    | ok step =>
      cases step with
      | ended w => rfl
      | onward q => exact ih fun o ho => h o (.onward (step_of_onward _ hs) ho)

@[simp] theorem finish_forget (w : Walk) :
    g.withoutDefaults.finish segments target w.forget = g.finish segments target w := by
  cases w <;> rfl

theorem exists_cause {r : Except ConversionFault (Option Cell)} {fault : Walk.Fault}
    (h : r.mapError Walk.Fault.conversion = .error fault) : ∃ cause, fault = .conversion cause := by
  cases r with
  | error cause =>
    cases h
    exact ⟨cause, rfl⟩
  | ok c => cases h

theorem finish_error {w : Walk} {fault : Walk.Fault} (h : g.finish segments target w = .error fault) :
    (∃ cause, fault = .conversion cause) ∨ (∃ name, fault = .unknownType name) ∨
      ∃ label, fault = .unresolved (lastPlace segments) (.endsOn label) := by
  cases w with
  | absent => cases h
  | defaulted literal kind => exact .inl (exists_cause h)
  | reached p =>
    rw [finish] at h
    cases hn : g.node p.schema with
    | error fault =>
      rw [hn] at h
      cases h
      exact .inr (.inl (node_error hn))
    | ok n =>
      simp only [hn, ok_bind] at h
      split at h
      next => exact .inl (exists_cause h)
      next =>
        cases h
        exact .inr (.inr ⟨_, rfl⟩)

theorem StandsIn.defaulted {w : Walk} (h : g.StandsIn segments p (.ok w)) :
    ∃ literal kind, w = .defaulted literal kind := by
  generalize ho : Except.ok w = o at h
  induction h with
  | here _ ha =>
    subst ho
    exact standIn?_defaulted ha
  | onward _ _ ih => exact ih ho

theorem StandsIn.cell_ne_missing {place : String} (h : g.StandsIn segments p o) :
    (o >>= g.finish segments target) ≠ .error (.missing place) := by
  generalize segments = all
  induction h with
  | @here name p o hl ha =>
    cases o with
    | error f =>
      rintro hm
      cases hm
      obtain ⟨type, hf⟩ := standIn?_error ha
      cases hf
    | ok w =>
      obtain ⟨literal, kind, rfl⟩ := standIn?_defaulted ha
      cases hc : kind.literalCell literal target <;> simp [finish, hc]
  | onward _ _ ih => exact ih

/-- The default schema makes the cell that segments lead to another one: it has an answer, and the
answer is not the empty cell that a missing member would get anyway. -/
def DefaultShows (g : Guide) (p : Position) (segments : List Segment) (target : Target) : Prop :=
  ∃ o, g.StandsIn segments p o ∧
    ¬ (g.tolerant = true ∧ (o >>= g.finish segments target) = .ok none)

theorem extractFrom_withoutDefaults_iff :
    g.withoutDefaults.extractFrom p.forget segments target = g.extractFrom p segments target ↔
      ¬ g.DefaultShows p segments target := by
  by_cases h : ∃ o, g.StandsIn segments p o
  -- One walk ends in `o` and the other at a missing member: they agree only on an empty cell.
  · obtain ⟨o, h⟩ := h
    have hw : g.extractFrom p segments target = (o >>= g.finish segments target) := by
      rw [extractFrom, walk, h.walkFrom]
    have hw' : g.withoutDefaults.extractFrom p.forget segments target =
        if g.tolerant then .ok none else .error (.missing (lastPlace segments)) := by
      rw [extractFrom, walk, h.walkFrom_withoutDefaults]
      cases g.tolerant <;> rfl
    have honly : g.DefaultShows p segments target ↔
        ¬ (g.tolerant = true ∧ (o >>= g.finish segments target) = .ok none) := by
      constructor
      · rintro ⟨o', h', hne⟩
        rwa [← h'.walkFrom .wildcard, h.walkFrom] at hne
      · exact fun hne => ⟨o, h, hne⟩
    rw [hw, hw', honly, not_not]
    cases ht : g.tolerant with
    | true => simp [eq_comm]
    | false => simpa [eq_comm] using h.cell_ne_missing
  -- Otherwise one walk is the other without its fallback, which no cell depends on.
  · simp only [not_exists] at h
    refine iff_of_true ?_ fun ⟨o, ho, _⟩ => h o ho
    rw [extractFrom, extractFrom, walk, walk, walkFrom_withoutDefaults h]
    cases g.walkFrom (.member "$") segments p with
    | error f => rfl
    | ok w => exact finish_forget w

end Guide

end AvroColumns
