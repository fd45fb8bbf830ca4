import AvroColumns.Column.Extraction
import AvroColumns.Proofs.Walk.Trail
import AvroColumns.Proofs.Walk.Typed

namespace AvroColumns

open Outcome Datum

namespace Document

def Takes (d : Document) (s t : Schema) : Prop :=
  d.Branch s t ∧ ∃ v, Typed d t v ∧ v.isTagged = false ∧ v.isNull = false

/-- Whatever a value of the schema belongs to answers every segment, and the last one leads to leaves. -/
def Admits (d : Document) : List Segment → Schema → Prop
  | [], s => ∀ t n, d.Takes s t → d.node t = .ok n → n.leaf?.isSome
  | step :: rest, s => ∀ t n, d.Takes s t → d.node t = .ok n →
      ∃ inside, n.inside? step = some inside ∧ ∀ u ∈ inside, Admits d rest u

end Document

namespace Guide

variable {g : Guide} {s t : Schema} {v w : Datum} {n : Node} {step : Segment}
  {fallback : Option Schema} {segments places : List Segment} {previous : Segment} {target : Target}
  {p : Position}

def outcome (g : Guide) (previous : Segment) (segments places : List Segment) (target : Target)
    (p : Position) : Except Walk.Fault (Option Cell) := do
  g.finish places target (← g.walkFrom previous segments p)

theorem outcome_nil (hs : ∀ place, g.settle place p.schema p.value = .ok (t, w)) :
    g.outcome previous [] places target p =
      if w.isNull then .ok none else g.finish places target (.reached ⟨w, t, p.fallback⟩) := by
  rw [outcome, walkFrom, arrive, hs]
  cases h : w.isNull <;> simp [h, finish]

theorem outcome_cons (hs : ∀ place, g.settle place p.schema p.value = .ok (t, w))
    (hn : g.document.node t = .ok n) {rest : List Segment} :
    g.outcome previous (step :: rest) places target p =
      if w.isNull then .ok none
      else g.along rest.isEmpty step n w (p.fallback.bind g.defaultContainer?) >>= fun
        | .ended v => g.finish places target v
        | .onward q => g.outcome step rest places target q := by
  rw [outcome, walkFrom_cons, Guide.step, hs]
  cases hw : w.isNull with
  | true => simp [hw, finish]
  | false =>
    have hn' : g.node t = .ok n := node_eq_ok_iff.mpr hn
    simp only [ok_bind, hw, Bool.false_eq_true, if_false, hn']
    cases g.along rest.isEmpty step n w (p.fallback.bind g.defaultContainer?) with
    | error fault => rfl
    | ok o => cases o <;> rfl

theorem finish_reached (hn : g.document.node s = .ok n) :
    g.finish places target (.reached ⟨v, s, fallback⟩) =
      match n.leaf? with
      | some kind => (v.toCell kind target).mapError Walk.Fault.conversion
      | none => .error (.unresolved (lastPlace places) (.endsOn n.label)) := by
  have hn' : g.node s = .ok n := node_eq_ok_iff.mpr hn
  simp only [finish, hn', ok_bind]
  cases n.leaf? <;> rfl

theorem outcome_of_admits (hu : g.document.Unshadowed) (hs : p.schema.Within g.document.root)
    (hv : Typed g.document p.schema p.value) (ha : g.document.Admits segments p.schema)
    {fault : Walk.Fault} (h : g.outcome previous segments places target p = .error fault) :
    ∃ cause, fault = .conversion cause := by
  induction segments generalizing previous p with
  | nil =>
    obtain ⟨t, w, hsettle, hb, hw, ht⟩ := settle_typed hv
    obtain ⟨n, hn⟩ := hw.exists_node
    rw [outcome_nil hsettle] at h
    split at h
    next => cases h
    next hnull =>
      have hleaf := ha t n ⟨hb, w, hw, ht, Bool.not_eq_true _ ▸ hnull⟩ hn
      obtain ⟨kind, hk⟩ := Option.isSome_iff_exists.mp hleaf
      rw [finish_reached hn, hk] at h
      exact exists_cause h
  | cons step rest ih =>
    obtain ⟨t, w, hsettle, hb, hw, ht⟩ := settle_typed hv
    obtain ⟨n, hn⟩ := hw.exists_node
    rw [outcome_cons hsettle hn] at h
    split at h
    next => cases h
    next hnull =>
      obtain ⟨inside, hi, hin⟩ := ha t n ⟨hb, w, hw, ht, Bool.not_eq_true _ ▸ hnull⟩ hn
      have hwithin := hb.within hs
      rcases along_proceeds hu hwithin hw hn hi with hstep | ⟨q, hstep, hq, hvq⟩
      · rw [hstep] at h
        cases h
      · rw [hstep] at h
        exact ih (Document.within_of_node hwithin hn (n.mem_parts hi hq)) hvq (hin _ hq) h

theorem exists_astray (places : List Segment) (target : Target) (hd : g.defaults = none)
    (ht : g.tolerant = false) (hu : g.document.Unshadowed)
    (hl : ∀ u : Schema, u.Within g.document.root → u.Lawful) (hs : s.Within g.document.root)
    (ha : ¬ g.document.Admits segments s) :
    ∃ v, Typed g.document s v ∧ ∀ previous fallback, ∃ fault,
      g.outcome previous segments places target ⟨v, s, fallback⟩ = .error fault ∧ fault.isAstray := by
  -- The value is built from its end: what goes astray further on, a value around it that leads there,
  -- and the tags of the unions above.
  induction segments generalizing s with
  | nil =>
    simp only [Document.Admits, not_forall] at ha
    obtain ⟨t, n, ⟨hb, w, hw, htag, hnull⟩, hn, hleaf⟩ := ha
    obtain ⟨v, hv, hsettle⟩ := exists_settle hb hw htag
    refine ⟨v, hv, ?_⟩
    intro previous fallback
    refine ⟨.unresolved (lastPlace places) (.endsOn n.label), ?_, rfl⟩
    rw [outcome_nil hsettle, hnull, finish_reached hn, Option.not_isSome_iff_eq_none.mp hleaf]
    rfl
  | cons step rest ih =>
    simp only [Document.Admits, not_forall] at ha
    obtain ⟨t, n, ⟨hb, w, hw, htag, hnull⟩, hn, hin⟩ := ha
    have hwithin := hb.within hs
    cases hi : n.inside? step with
    | none =>
      obtain ⟨v, hv, hsettle⟩ := exists_settle hb hw htag
      refine ⟨v, hv, ?_⟩
      intro previous fallback
      obtain ⟨fault, hstep, hf⟩ := along_astray (v := w) ht hd hi
      refine ⟨fault, ?_, hf⟩
      rw [outcome_cons hsettle hn, hnull, hstep]
      rfl
    | some inside =>
      obtain ⟨u, hu', hau⟩ : ∃ u ∈ inside, ¬ g.document.Admits rest u := by
        by_contra hne
        push Not at hne
        exact hin ⟨inside, hi, hne⟩
      obtain ⟨v', hv', hastray⟩ :=
        ih (Document.within_of_node hwithin hn (n.mem_parts hi hu')) hau
      obtain ⟨w', hw', htag', hnull', honward⟩ := exists_onward hu hl hwithin hw hn hi hu' hv'
      obtain ⟨v, hv, hsettle⟩ := exists_settle hb hw' htag'
      refine ⟨v, hv, ?_⟩
      intro previous fallback
      obtain ⟨fallback', ho⟩ := honward (fallback.bind g.defaultContainer?)
      obtain ⟨fault, hwalk, hf⟩ := hastray step fallback'
      refine ⟨fault, ?_, hf⟩
      rw [outcome_cons hsettle hn, hnull', (along_onward_iff rest.isEmpty).mpr ho]
      exact hwalk

theorem admits_iff (previous : Segment) (places : List Segment) (target : Target)
    (hd : g.defaults = none) (ht : g.tolerant = false) (hu : g.document.Unshadowed)
    (hl : ∀ u : Schema, u.Within g.document.root → u.Lawful) (hs : s.Within g.document.root) :
    g.document.Admits segments s ↔ ∀ v fault, Typed g.document s v →
      g.outcome previous segments places target ⟨v, s, none⟩ = .error fault →
      fault.isAstray = false := by
  constructor
  · intro ha v fault hv he
    obtain ⟨cause, rfl⟩ := outcome_of_admits (p := ⟨v, s, none⟩) hu hs hv ha he
    rfl
  · intro hall
    by_contra ha
    obtain ⟨v, hv, hastray⟩ := exists_astray places target hd ht hu hl hs ha
    obtain ⟨fault, he, hf⟩ := hastray previous none
    simp [hall v fault hv he] at hf

end Guide

end AvroColumns
