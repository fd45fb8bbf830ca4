import Mathlib
import AvroColumns.Proofs.Datum.Calls
import AvroColumns.Schema.Loading

namespace AvroColumns.Datum.Call

open Outcome Relation

section

variable (d : Document)

def Returns (c : Call) (r : Except Fault Datum) : Prop :=
  r ≠ .error .endless ∧ ∃ budget, c.run d budget = r

/-- One call makes another, the calls in its body before that one having returned. -/
def Makes (c c' : Call) : Prop :=
  (c.body d).Makes (Returns d) c'

/-- No chain of calls that starts with this one goes on for ever. -/
def Ends (c : Call) : Prop :=
  Acc (fun c' c => Makes d c c') c

/-- A call comes to a default that its own decoding enters again. -/
def Loops (c : Call) : Prop :=
  ∃ s literal, ReflTransGen (Makes d) c (.absent s literal) ∧
    TransGen (Makes d) (.absent s literal) (.absent s literal)

end

variable {d : Document} {c c' : Call} {r : Except Fault Datum} {s : Schema} {literal : Json}
  {budget : Nat}

theorem Returns.below (h : c.Returns d r) : Body.Below (c.run d budget) r := by
  obtain ⟨hr, budget', rfl⟩ := h
  rcases Nat.le_total budget budget' with h | h
  · exact run_below h
  · rcases run_below h with h | h
    · exact absurd h hr
    · rw [h]
      exact .refl

@[simp] theorem makes_absent : Makes d (.absent s literal) c ↔ c = .default s literal := by
  constructor
  · intro h
    exact List.mem_singleton.mp h.mem
  · rintro rfl
    exact Body.Makes.one

theorem ends_of_run (h : c.run d budget ≠ .error .endless) : c.Ends d := by
  induction budget, c using run_induction d with
  | zero s literal => exact absurd rfl h
  | succ budget s literal ih =>
    apply Acc.intro
    intro c hc
    rw [makes_absent.mp hc]
    exact ih h
  | body budget c hc ih =>
    apply Acc.intro
    intro c' hc'
    apply ih c' hc'.mem
    intro he
    apply h
    rw [run_eq hc]
    exact Body.run_eq_endless_of_makes hc' (fun x r hr => hr.below) he

theorem Ends.of_reflTransGen (h : c.Ends d) (hc : ReflTransGen (Makes d) c c') : c'.Ends d := by
  induction hc with
  | refl => exact h
  | tail _ hm ih => exact ih.inv hm

theorem Ends.not_transGen (h : c.Ends d) : ¬ TransGen (Makes d) c c := by
  induction h with
  | intro c _ ih =>
    intro hc
    obtain ⟨c', hm, hr⟩ := TransGen.head'_iff.mp hc
    exact ih c' hm (.tail' hr hm)

theorem Ends.not_loops (h : c.Ends d) : ¬ c.Loops d := by
  rintro ⟨s, literal, hr, ht⟩
  exact (h.of_reflTransGen hr).not_transGen ht

def defaultsOf : Definition → List Call
  | .record r => r.fields.filterMap fun f => f.default.map (.absent f.type)
  | _ => []

theorem length_defaultsOfMembers {ss : List Schema}
    (h : ∀ s ∈ ss, (s.definitions.flatMap defaultsOf).length = s.defaultCount) :
    ((Schema.definitionsOfMembers ss).flatMap defaultsOf).length =
      Schema.defaultCountOfMembers ss := by
  induction ss with
  | nil => rfl
  | cons s ss ih =>
    rw [Schema.definitionsOfMembers, List.flatMap_append, List.length_append, h s (by simp),
      ih fun t ht => h t (by simp [ht]), Schema.defaultCountOfMembers]

theorem length_defaultsOfFields {fs : List (Field Schema)}
    (h : ∀ f ∈ fs, (f.type.definitions.flatMap defaultsOf).length = f.type.defaultCount) :
    (fs.filterMap fun f => f.default.map (absent f.type)).length +
      ((Schema.definitionsOfFields fs).flatMap defaultsOf).length =
      Schema.defaultCountOfFields fs := by
  induction fs with
  | nil => rfl
  | cons f fs ih =>
    have hf := h f (by simp)
    have ih := ih fun g hg => h g (by simp [hg])
    obtain ⟨name, aliases, s, default⟩ := f
    rw [Schema.definitionsOfFields, Schema.defaultCountOfFields, List.flatMap_append,
      List.length_append, hf, ← ih]
    cases default <;> simp <;> omega

@[simp] theorem length_defaults (s : Schema) :
    (s.definitions.flatMap defaultsOf).length = s.defaultCount := by
  induction s using Schema.parts_induction with
  | h s ih =>
    cases s with
    | record r =>
      obtain ⟨name, fields⟩ := r
      rw [Schema.definitions, Schema.defaultCount, List.flatMap_cons, List.length_append]
      exact length_defaultsOfFields fun f hf => ih _ (List.mem_map_of_mem hf)
    | union members =>
      rw [Schema.definitions, Schema.defaultCount]
      exact length_defaultsOfMembers ih
    | array items =>
      rw [Schema.definitions, Schema.defaultCount]
      exact ih items (by simp)
    | map values =>
      rw [Schema.definitions, Schema.defaultCount]
      exact ih values (by simp)
    | decimal precision scale c =>
      cases c <;> rfl
    | _ => rfl

theorem Of.mem_defaults (h : (Call.absent s literal).Of d) :
    Call.absent s literal ∈ d.root.definitions.flatMap defaultsOf := by
  cases h with
  | @absent r f _ hr hf hd =>
    apply List.mem_flatMap.mpr
    refine ⟨.record r, hr.mem_definitions rfl, ?_⟩
    apply List.mem_filterMap.mpr
    exact ⟨f, hf, by rw [hd, Option.map_some]⟩

theorem exists_nested (hc : c.Of d) (h : c.run d budget = .error .endless) :
    ∃ l : List Call, l.length = budget + 1 ∧ l.Pairwise (TransGen (Makes d)) ∧
      ∀ x ∈ l, ReflTransGen (Makes d) c x ∧ x.Of d ∧ ∃ s literal, x = .absent s literal := by
  induction budget, c using run_induction d with
  | zero s literal =>
    refine ⟨[.absent s literal], rfl, List.pairwise_singleton _ _, ?_⟩
    intro x hx
    obtain rfl := List.mem_singleton.mp hx
    exact ⟨.refl, hc, s, literal, rfl⟩
  | succ budget s literal ih =>
    have hm : Makes d (.absent s literal) (.default s literal) := makes_absent.mpr rfl
    obtain ⟨l, hl, hp, hr⟩ := ih (hc.of_body hm.mem) h
    refine ⟨.absent s literal :: l, by rw [List.length_cons, hl], ?_, ?_⟩
    · refine List.pairwise_cons.mpr ⟨?_, hp⟩
      intro x hx
      exact .head' hm (hr x hx).1
    · intro x hx
      rcases List.mem_cons.mp hx with rfl | hx
      · exact ⟨.refl, hc, s, literal, rfl⟩
      · exact ⟨(hr x hx).1.head hm, (hr x hx).2⟩
  | body budget c hb ih =>
    rw [run_eq hb] at h
    obtain ⟨c', hm, he⟩ := Body.makes_of_run_eq_endless productive_body h
    replace hm : Makes d c c' := hm.mono fun x r hr => ⟨hr.2, budget, hr.1⟩
    obtain ⟨l, hl, hp, hr⟩ := ih c' hm.mem (hc.of_body hm.mem) he
    refine ⟨l, hl, hp, ?_⟩
    intro x hx
    exact ⟨(hr x hx).1.head hm, (hr x hx).2⟩

theorem loops_of_run (hc : c.Of d) (h : c.run d d.root.defaultCount = .error .endless) :
    c.Loops d := by
  obtain ⟨l, hl, hp, hr⟩ := exists_nested hc h
  by_contra hn
  have hnodup : l.Nodup := by
    apply hp.imp_of_mem
    intro x y hx _ hxy
    rintro rfl
    obtain ⟨hx, -, s, literal, rfl⟩ := hr _ hx
    exact hn ⟨s, literal, hx, hxy⟩
  have hsub : l ⊆ d.root.definitions.flatMap defaultsOf := by
    intro x hx
    obtain ⟨-, ho, s, literal, rfl⟩ := hr _ hx
    exact ho.mem_defaults
  have := (List.subperm_of_subset hnodup hsub).length_le
  rw [length_defaults, hl] at this
  omega

theorem ends_iff (hc : c.Of d) :
    (c.Ends d ↔ ¬ c.Loops d) ∧ (c.Ends d ↔ c.Returns d (c.run d d.root.defaultCount)) := by
  have hrun (h : ¬ c.Loops d) : c.run d d.root.defaultCount ≠ .error .endless :=
    fun he => h (loops_of_run hc he)
  constructor
  · constructor
    · exact Ends.not_loops
    · intro h
      exact ends_of_run (hrun h)
  · constructor
    · intro h
      exact ⟨hrun h.not_loops, _, rfl⟩
    · intro h
      exact ends_of_run h.1

end AvroColumns.Datum.Call

namespace AvroColumns.Document

open Datum

variable (d : Document)

/-- Decoding ends exactly if it does not come to a default that needs itself, and then its outcome is
that of the calls: from the root of a document, and from the default of a schema in it. -/
theorem decode_ends_iff :
    (∀ j, ((Call.value d.root j).Ends d ↔ ¬ (Call.value d.root j).Loops d) ∧
      ((Call.value d.root j).Ends d ↔ (Call.value d.root j).Returns d (d.decode j))) ∧
    ∀ s j, s.Within d.root →
      ((Call.default s j).Ends d ↔ ¬ (Call.default s j).Loops d) ∧
      ((Call.default s j).Ends d ↔ (Call.default s j).Returns d (d.decodeDefault s j)) := by
  constructor
  · intro j
    exact Call.ends_iff (.value .refl)
  · intro s j hs
    exact Call.ends_iff (.default hs)

def chain : Document :=
  .ofSchema (.record ⟨⟨"", "Chain"⟩,
    [⟨"value", [], .primitive .int, none⟩,
      ⟨"next", [], .union [.primitive .null, .ref ⟨"", "Chain"⟩], some .null⟩]⟩)

theorem chain_ends :
    (Call.value chain.root (.obj [("value", .int 1)])).Ends chain ∧
      (Call.default (.union [.primitive .null, .ref ⟨"", "Chain"⟩]) .null).Ends chain := by
  constructor
  · apply ((decode_ends_iff chain).1 (.obj [("value", .int 1)])).2.mpr
    refine ⟨?_, _, rfl⟩
    have hv : chain.decode (.obj [("value", .int 1)]) =
        .ok (.record [("value", .int 1), ("next", .union 0 .null)]) := by cbv
    rw [hv]
    simp
  · apply ((decode_ends_iff chain).2 _ .null ?_).2.mpr
    · refine ⟨?_, _, rfl⟩
      have hv : chain.decodeDefault (.union [.primitive .null, .ref ⟨"", "Chain"⟩]) .null =
          .ok (.union 0 .null) := by cbv
      rw [hv]
      simp
    · apply Schema.Within.part _ .refl
      exact List.mem_cons_of_mem _ List.mem_cons_self

def bottomless : Json :=
  .obj [("type", .str "record"), ("name", .str "R"), ("fields", .arr [
    .obj [("name", .str "x"), ("default", .obj []),
      ("type", .arr [.str "R", .obj [("type", .str "map"), ("values", .str "int")]])]])]

theorem bottomless_not_ends :
    ∃ d, Document.ofText bottomless.text = .ok d ∧ ¬ (Call.value d.root (.obj [])).Ends d := by
  let d := Document.ofSchema (.record ⟨⟨"", "R"⟩,
    [⟨"x", [], .union [.ref ⟨"", "R"⟩, .map (.primitive .int)], some (.obj [])⟩]⟩)
  refine ⟨d, by cbv, ?_⟩
  intro h
  have hr : (Call.value d.root (.obj [])).run d d.root.defaultCount = .error .endless := by cbv
  exact h.not_loops (Call.loops_of_run (.value .refl) hr)

end AvroColumns.Document
