import AvroColumns.Proofs.Walk.Vanishing

namespace AvroColumns

theorem Document.definition?_of_node_error {d : Document} {schema : Schema} {e : UnknownType}
    (h : d.node schema = .error e) : d.definition? e.name = none := by
  obtain ⟨name, -, hd, rfl⟩ := Document.node_eq_error_iff.mp h
  exact hd

namespace Guide

open Outcome

/-- The segments lead to a record that has no member of the name that comes next. -/
def LeadsToLacking (g : Guide) (p : Position) (segments : List Segment) (name : String)
    (rest : List Segment) : Prop :=
  ∃ before q, segments = before ++ .member name :: rest ∧ g.Leads p before q ∧ g.Lacks name q

/-- What may come of a last member that is missing: it stays missing, or some record of the default
schema declares a literal for it, the type of which is known or not. -/
inductive Filling (defaults : Document) (name : String) : Except Walk.Fault Walk → Prop
  | missing : Filling defaults name (.error (.missing (Segment.member name).text))
  | defaulted {schema r f literal kind} : defaults.node schema = .ok (.record r) →
      r.find? name = some f → f.default = some literal →
      literalKind? defaults f.type = .ok (some kind) →
      Filling defaults name (.ok (.defaulted literal kind))
  | unknownType {schema r f literal type} : defaults.node schema = .ok (.record r) →
      r.find? name = some f → f.default = some literal →
      literalKind? defaults f.type = .error ⟨type⟩ → defaults.definition? type = none →
      Filling defaults name (.error (.unknownType type))

variable {g : Guide} {p q r : Position} {s previous : Segment} {before segments rest : List Segment}
  {isLast : Bool} {n : Node} {v : Datum} {fallback : Option Schema} {o : Except Walk.Fault Walk}
  {d defaults : Document} {name place : String} {schema : Schema}

theorem definition?_of_literalKind?_error {e : UnknownType} (h : literalKind? d schema = .error e) :
    d.definition? e.name = none := by
  rw [literalKind?] at h
  rcases bind_eq_error_iff.mp h with h | ⟨n, -, h⟩
  · exact Document.definition?_of_node_error h
  · split at h
    next => cases h
    next =>
      rcases bind_eq_error_iff.mp h with h | ⟨first, -, h⟩
      · exact Document.definition?_of_node_error h
      · cases h
    next => cases h

theorem exists_of_defaultRecord? {record : RecordType Schema} (hd : g.defaults = some defaults)
    (h : g.defaultRecord? fallback = some record) :
    ∃ schema, defaults.node schema = .ok (.record record) := by
  obtain ⟨schema, -, hn⟩ := Option.bind_eq_some_iff.mp (defaultRecord?_eq_some_iff.mp h)
  rw [defaultNode?_of_defaults hd, toOption_eq_some_iff] at hn
  exact ⟨schema, hn⟩

theorem filling_of_answer (hd : g.defaults = some defaults) (h : g.answer name p = o.map some) :
    Filling defaults name o := by
  rw [answer, standIn?] at h
  split at h
  next d _ _ type literal hd' hf =>
    cases hd.symm.trans hd'
    obtain ⟨record, hr, hf⟩ := Option.bind_eq_some_iff.mp hf
    obtain ⟨schema, hn⟩ := exists_of_defaultRecord? hd hr
    cases hk : literalKind? defaults type with
    | error e =>
      rw [hk] at h
      obtain rfl := map_eq_error_iff.mp h.symm
      exact .unknownType hn hf rfl hk (definition?_of_literalKind?_error hk)
    | ok kind =>
      rw [hk] at h
      obtain ⟨w, rfl, hw⟩ := map_eq_ok_iff.mp h.symm
      obtain ⟨kind, rfl, rfl⟩ := Option.map_eq_some_iff.mp hw.symm
      exact .defaulted hn hf rfl hk
  next => cases o <;> cases h

theorem answer_eq_none (hd : g.defaults = none) (name : String) (p : Position) :
    g.answer name p = .ok none := by
  simp [answer, standIn?, hd]

theorem not_standsIn (hd : g.defaults = none) : ¬ g.StandsIn segments p o := by
  intro h
  induction h with
  | @here name p o _ ha =>
    rw [answer_eq_none hd] at ha
    cases o <;> cases ha
  | onward _ _ ih => exact ih

theorem walkFrom_ne_defaulted (hd : g.defaults = none) (literal : Json) (kind : LeafKind) :
    g.walkFrom previous segments p ≠ .ok (.defaulted literal kind) := by
  intro h
  induction segments generalizing previous p with
  | nil =>
    obtain ⟨⟨schema, v⟩, -, h⟩ := bind_eq_ok_iff.mp h
    cases hv : v.isNull <;> simp [hv] at h
  | cons s segments ih =>
    rw [walkFrom_cons] at h
    obtain ⟨o, hs, h⟩ := bind_eq_ok_iff.mp h
    cases o with
    | ended w =>
      cases h
      rcases step_ended hs with hw | ⟨_, _, hw⟩
      · cases hw
      · rw [standIn?, hd] at hw
        cases hw
    | onward q => exact ih h

theorem Lacks.step_missing (ht : g.tolerant = false) (h : g.Lacks name p)
    (ha : isLast = true → g.answer name p = .ok none) :
    g.step isLast (.member name) p = .error (.missing (Segment.member name).text) := by
  have hnone : (if isLast then g.answer name p else .ok none) = .ok none := by
    cases isLast with
    | false => rfl
    | true => exact ha rfl
  rw [h.step, hnone, ht]
  rfl

theorem step_eq_missing (h : g.step isLast s p = .error (.missing place)) :
    ∃ name, s = .member name ∧ g.Lacks name p ∧ place = s.text := by
  rcases step_error h with h | ⟨schema, v, hs, hv, h | ⟨n, hn, h⟩⟩
  · rcases settle_error h with ⟨_, ⟨⟩⟩ | ⟨_, ⟨⟩⟩
  · obtain ⟨_, ⟨⟩⟩ := node_error h
  · rcases along_error h with ⟨-, ⟨⟩⟩ | ⟨name, r, rfl, rfl, hf, ⟨⟨⟩⟩ | ⟨_, ⟨⟩⟩⟩ | ⟨_, ⟨⟩, -⟩
    exact ⟨name, rfl, ⟨schema, v, r, hs, hv, hn, hf⟩, rfl⟩

theorem leadsToLacking_of_missing (h : g.walkFrom previous segments p = .error (.missing place)) :
    ∃ name rest, g.LeadsToLacking p segments name rest ∧ place = (Segment.member name).text := by
  induction segments generalizing previous p with
  | nil =>
    obtain ⟨_, ⟨⟩⟩ | ⟨_, ⟨⟩⟩ := settle_error (arrive_error h)
  | cons s segments ih =>
    rw [walkFrom_cons] at h
    rcases bind_eq_error_iff.mp h with h | ⟨o, hs, h⟩
    · obtain ⟨name, rfl, hl, rfl⟩ := step_eq_missing h
      exact ⟨name, segments, ⟨[], p, rfl, .nil, hl⟩, rfl⟩
    · cases o with
      | ended w => cases h
      | onward q =>
        obtain ⟨name, rest, ⟨before, q, rfl, hb, hl⟩, rfl⟩ := ih h
        exact ⟨name, rest, ⟨s :: before, q, rfl, .cons (step_of_onward _ hs) hb, hl⟩, rfl⟩

theorem LeadsToLacking.walkFrom (ht : g.tolerant = false)
    (h : g.LeadsToLacking p segments name rest) (hd : rest = [] → g.defaults = none) :
    g.walkFrom previous segments p = .error (.missing (Segment.member name).text) := by
  obtain ⟨before, q, rfl, hb, hl⟩ := h
  rw [hb.walkFrom_append, walkFrom_cons, hl.step_missing ht]
  · rfl
  · intro hlast
    exact answer_eq_none (hd (List.isEmpty_iff.mp hlast)) name q

theorem StandsIn.exists_answer (h : g.StandsIn segments p o) :
    ∃ name q, g.LeadsToLacking p segments name [] ∧ g.answer name q = o.map some := by
  induction h with
  | here hl ha => exact ⟨_, _, ⟨[], _, rfl, .nil, hl⟩, ha⟩
  | @onward s segments p q o hs _ ih =>
    obtain ⟨name, r, ⟨before, q', rfl, hb, hl⟩, ha⟩ := ih
    exact ⟨name, r, ⟨s :: before, q', rfl, .cons hs hb, hl⟩, ha⟩

theorem Lacks.of_forget (h : g.withoutDefaults.Lacks name p) (hp : p.forget = q.forget) :
    g.Lacks name q := by
  obtain ⟨schema, v, r, hs, h⟩ := h
  simp only [Position.forget, Position.mk.injEq, and_true] at hp
  rw [settle_withoutDefaults, hp.1, hp.2] at hs
  exact ⟨schema, v, r, hs, h⟩

theorem step_forget (hp : p.forget = q.forget) :
    (g.withoutDefaults.step false s p).map Walk.Step.forget =
      (g.step false s q).map Walk.Step.forget := by
  rw [← step_withoutDefaults (by simp), ← step_withoutDefaults (by simp), hp]
  rfl

theorem Leads.of_forget (h : g.withoutDefaults.Leads p segments r) (hp : p.forget = q.forget) :
    ∃ r', g.Leads q segments r' ∧ r.forget = r'.forget := by
  induction h generalizing q with
  | nil => exact ⟨q, .nil, hp⟩
  | @cons s segments p p' r hs _ ih =>
    have hmap := step_forget (g := g) (s := s) hp
    rw [hs] at hmap
    obtain ⟨o, hs', ho⟩ := map_eq_ok_iff.mp hmap.symm
    cases o with
    | ended w => cases ho
    | onward q' =>
      obtain ⟨r', hl, hr⟩ := ih (Walk.Step.onward.inj ho).symm
      exact ⟨r', .cons hs' hl, hr⟩

theorem LeadsToLacking.of_forget (h : g.withoutDefaults.LeadsToLacking p segments name rest)
    (hp : p.forget = q.forget) : g.LeadsToLacking q segments name rest := by
  obtain ⟨before, r, rfl, hb, hl⟩ := h
  obtain ⟨r', hb', hr⟩ := hb.of_forget hp
  exact ⟨before, r', rfl, hb', hl.of_forget hr⟩

theorem walkFrom_bare (hp : p.forget = q.forget) :
    (g.withoutDefaults.walkFrom previous segments p).map Walk.forget =
      g.withoutDefaults.walkFrom previous segments q.forget := by
  rw [← hp]
  exact (walkFrom_withoutDefaults (g := g.withoutDefaults) fun _ => not_standsIn rfl).symm

theorem walkFrom_forget (h : ∀ o, ¬ g.StandsIn segments q o) (hp : p.forget = q.forget) :
    (g.withoutDefaults.walkFrom previous segments p).map Walk.forget =
      (g.walkFrom previous segments q).map Walk.forget :=
  (walkFrom_bare hp).trans (walkFrom_withoutDefaults h)

theorem StandsIn.missing (ht : g.tolerant = false) (h : g.StandsIn segments q o)
    (hp : p.forget = q.forget) :
    g.withoutDefaults.walkFrom previous segments p = .error (.missing (lastPlace segments)) := by
  have hmap : (g.withoutDefaults.walkFrom previous segments p).map Walk.forget =
      g.withoutDefaults.walkFrom previous segments q.forget := walkFrom_bare hp
  rw [h.walkFrom_withoutDefaults, ht] at hmap
  exact map_eq_error_iff.mp hmap

theorem LeadsToLacking.filling (ht : g.tolerant = false) (hd : g.defaults = some defaults)
    (h : g.withoutDefaults.LeadsToLacking p segments name []) (hp : p.forget = q.forget) :
    Filling defaults name (g.walkFrom previous segments q) := by
  by_cases hs : ∃ o, g.StandsIn segments q o
  · obtain ⟨o, hs⟩ := hs
    obtain ⟨name', q', hl, ha⟩ := hs.exists_answer
    obtain ⟨before, r, rfl, -⟩ := h
    obtain ⟨before', r', hb, -⟩ := hl
    obtain ⟨-, hlast⟩ := List.append_inj' hb rfl
    cases hlast
    rw [hs.walkFrom]
    exact filling_of_answer hd ha
  · have hmap : (g.withoutDefaults.walkFrom previous segments p).map Walk.forget =
        (g.walkFrom previous segments q).map Walk.forget := walkFrom_forget (not_exists.mp hs) hp
    rw [LeadsToLacking.walkFrom (g := g.withoutDefaults) ht h fun _ => rfl] at hmap
    rw [map_eq_error_iff.mp hmap.symm]
    exact .missing

/-- Two strict walks along the same segments through the same value, without and with a default schema.
Both come to the same, save that the one with the default schema may fill in the last member where the
other is missing it. -/
theorem defaults_only_fill (d defaults : Document) (v : Datum) (schema : Schema)
    (fallback fallback' : Option Schema) (segments : List Segment) :
    let bare : Guide := ⟨d, none, false⟩
    let p : Position := ⟨v, schema, fallback⟩
    let plain := bare.walk segments p
    let filled := walk ⟨d, some defaults, false⟩ segments ⟨v, schema, fallback'⟩
    (plain = .ok .absent → filled = .ok .absent) ∧
    (∀ q, plain = .ok (.reached q) →
      ∃ q', filled = .ok (.reached q') ∧ q'.value = q.value ∧ q'.schema = q.schema) ∧
    (∀ literal kind, plain ≠ .ok (.defaulted literal kind)) ∧
    (∀ fault, (∀ place, fault ≠ .missing place) → plain = .error fault → filled = .error fault) ∧
    (∀ place, plain = .error (.missing place) ↔
      ∃ name rest, bare.LeadsToLacking p segments name rest ∧ place = (Segment.member name).text) ∧
    ∀ name rest, bare.LeadsToLacking p segments name rest →
      if rest = [] then Filling defaults name filled
      else filled = .error (.missing (Segment.member name).text) := by
  intro bare p plain filled
  let full : Guide := ⟨d, some defaults, false⟩
  let q : Position := ⟨v, schema, fallback'⟩
  have hp : p.forget = q.forget := rfl
  have hmissing (place) : plain = .error (.missing place) ↔
      ∃ name rest, bare.LeadsToLacking p segments name rest ∧
        place = (Segment.member name).text := by
    constructor
    · exact leadsToLacking_of_missing
    · rintro ⟨name, rest, h, rfl⟩
      exact h.walkFrom rfl fun _ => rfl
  have hagree (h : ∀ place, plain ≠ .error (.missing place)) :
      filled.map Walk.forget = plain.map Walk.forget :=
    (walkFrom_forget (g := full) (fun o ho => h _ (ho.missing rfl hp)) hp).symm
  refine ⟨fun h => ?_, fun r h => ?_, walkFrom_ne_defaulted rfl, fun fault hf h => ?_, hmissing,
    fun name rest h => ?_⟩
  · have hmap := hagree (by rw [h]; nofun)
    rw [h] at hmap
    obtain ⟨w, hw, hforget⟩ := map_eq_ok_iff.mp hmap
    cases w with
    | absent => exact hw
    | _ => cases hforget
  · have hmap := hagree (by rw [h]; nofun)
    rw [h] at hmap
    obtain ⟨w, hw, hforget⟩ := map_eq_ok_iff.mp hmap
    cases w with
    | reached r' =>
      obtain ⟨hv, hs, -⟩ := Position.mk.inj (Walk.reached.inj hforget)
      exact ⟨r', hw, hv, hs⟩
    | _ => cases hforget
  · have hmap := hagree fun place hm => hf place (Except.error.inj (h.symm.trans hm))
    rw [h] at hmap
    exact map_eq_error_iff.mp hmap
  · split
    next hrest =>
      subst hrest
      exact h.filling (g := full) rfl rfl hp
    next hrest => exact (h.of_forget (g := full) hp).walkFrom rfl fun hnil => absurd hnil hrest

def older : Document :=
  .ofSchema (.record ⟨⟨"", "r"⟩, [⟨"b", [], .primitive .int, none⟩]⟩)

def newer : Document :=
  .ofSchema (.record ⟨⟨"", "r"⟩,
    [⟨"b", [], .primitive .int, some (.int 3)⟩, ⟨"c", [], .primitive .int, some (.int 5)⟩]⟩)

theorem newer_fills :
    let bare : Guide := ⟨older, none, false⟩
    let full : Guide := ⟨older, some newer, false⟩
    let v : Datum := .record [("b", .int 1)]
    bare.walk [.member "c"] (bare.start v) = .error (.missing ".c") ∧
      Filling newer "c" (full.walk [.member "c"] (full.start v)) ∧
      full.walk [.member "c"] (full.start v) = .ok (.defaulted (.int 5) .int) ∧
      full.walk [.member "c", .member "e"] (full.start v) = .error (.missing ".c") ∧
      full.walk [.member "b", .member "e"] (full.start v) =
        .error (.incompatible ".e" (.memberOf "primitive")) ∧
      ∃ q, full.walk [.member "b"] (full.start v) = .ok (.reached q) ∧ q.value = .int 1 := by
  intro bare full v
  have hl : bare.Lacks "c" (bare.start v) := ⟨_, _, _, rfl, rfl, rfl, rfl⟩
  obtain ⟨-, -, -, -, hmissing, hfill⟩ :=
    defaults_only_fill older newer v older.root none (some newer.root) [.member "c"]
  obtain ⟨-, -, -, -, -, hinside⟩ :=
    defaults_only_fill older newer v older.root none (some newer.root) [.member "c", .member "e"]
  obtain ⟨-, -, -, herror, -, -⟩ :=
    defaults_only_fill older newer v older.root none (some newer.root) [.member "b", .member "e"]
  obtain ⟨-, hreached, -, -, -, -⟩ :=
    defaults_only_fill older newer v older.root none (some newer.root) [.member "b"]
  refine ⟨(hmissing _).mpr ⟨"c", [], ⟨[], _, rfl, .nil, hl⟩, rfl⟩,
    hfill "c" [] ⟨[], _, rfl, .nil, hl⟩, rfl,
    hinside "c" [.member "e"] ⟨[], _, rfl, .nil, hl⟩, herror _ nofun rfl, ?_⟩
  obtain ⟨q, hq, hvalue, -⟩ := hreached _ rfl
  exact ⟨q, hq, hvalue⟩

end Guide

end AvroColumns
