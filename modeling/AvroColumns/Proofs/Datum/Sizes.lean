import Mathlib
import AvroColumns.Proofs.Datum.Typing
import AvroColumns.Proofs.Schema.Parts
import AvroColumns.Schema.Loading

namespace AvroColumns

namespace Schema

def blockSize? : Schema → Option Nat
  | .fixed f | .decimal _ _ (.fixed f) => some f.size
  | .primitive .duration => some 12
  | _ => none

end Schema

namespace Datum

def block? : Datum → Option (List UInt8)
  | .fixed _ b | .decimal b | .duration b => some b
  | _ => none

/-- In a value of one schema, a value and the schema that stands beside it, references being followed. -/
inductive At (d : Document) : Schema → Datum → Schema → Datum → Prop
  | refl {s v} : At d s v s v
  | item {s vs v t w} (hv : v ∈ vs) (h : At d s v t w) : At d (.array s) (.array vs) t w
  | entry {s entries e t w} (he : e ∈ entries) (h : At d s e.2 t w) :
    At d (.map s) (.map entries) t w
  | member {r members p t w} (hp : p ∈ r.fields.zip members) (h : At d p.1.type p.2.2 t w) :
    At d (.record r) (.record members) t w
  | branch {ms i s v t w} (hi : ms[i]? = some s) (h : At d s v t w) :
    At d (.union ms) (.union i v) t w
  | ref {n D v t w} (hD : d.follow n = .ok D) (h : At d D.toSchema v t w) : At d (.ref n) v t w

/-- A value of its schema at every node, with a block of the declared size wherever one is declared. -/
structure WellTyped (d : Document) (s : Schema) (v : Datum) : Prop where
  typed : ∀ t w, At d s v t w → Typed d t w
  sized : ∀ t w n, At d s v t w → t.blockSize? = some n → ∃ b, w.block? = some b ∧ b.length = n

variable {d : Document} {s t : Schema} {v w : Datum} {j : Json} {n : Nat}

theorem At.typed (h : At d s v t w) (hv : Typed d s v) : Typed d t w := by
  induction h with
  | refl => exact hv
  | item hw _ ih =>
    cases hv with
    | array h => exact ih (h _ hw)
  | entry he _ ih =>
    cases hv with
    | map h => exact ih (h _ he)
  | member hp _ ih =>
    cases hv with
    | record hn h => exact ih (h _ hp)
  | branch hi _ ih =>
    cases hv with
    | union hi' h =>
      cases hi.symm.trans hi'
      exact ih h
  | ref hD _ ih =>
    cases hv with
    | ref hD' h =>
      cases hD.symm.trans hD'
      exact ih h

theorem At.within (h : At d s v t w) (hs : s.Within d.root) (ht : ∀ f, t ≠ .fixed f) :
    t.Within d.root := by
  induction h with
  | refl => exact hs
  | item _ _ ih | entry _ _ ih => exact ih (.part List.mem_cons_self hs) ht
  | member hp _ ih => exact ih (Schema.within_field (List.of_mem_zip hp).1 hs) ht
  | branch hi _ ih => exact ih (.part (List.mem_of_getElem? hi) hs) ht
  | @ref _ D _ _ _ hD h ih =>
    cases D with
    | record r => exact ih (Document.within_of_follow hD) ht
    | enum e =>
      obtain ⟨u, hu, he⟩ := Schema.exists_within_of_mem_definitions (Document.mem_of_follow hD)
      rw [Schema.definition?_eq_enum he] at hu
      exact ih hu ht
    | fixed f =>
      -- a block that carries a decimal is defined without being a part of the document
      cases h
      exact absurd rfl (ht f)

theorem Typed.sized (hv : Typed d t w) (hn : t.blockSize? = some n) :
    (∃ b, w.block? = some b ∧ b.length = n) ∨
      ∃ precision scale f b, t = .decimal precision scale (.fixed f) ∧ w = .decimal b ∧ n = f.size := by
  cases hv with
  | @primitive p w h =>
    cases p <;> cases hn
    cases w with
    | duration b => exact .inl ⟨b, rfl, h⟩
    | _ => cases h
  | @decimal precision scale c b =>
    cases c with
    | bytes => cases hn
    | fixed f =>
      cases hn
      exact .inr ⟨precision, scale, f, b, rfl, rfl, rfl⟩
  | fixed h =>
    cases hn
    exact .inl ⟨_, rfl, h⟩
  | _ => cases hn

/-- What is decoded is a value of its schema at every node, and well typed exactly if the bytes of each
decimal fill the block that carries it: so whenever no decimal of the schema is carried by a block. -/
theorem wellTyped_iff_of_decode (h : d.decode j = .ok v) :
    (∀ t w, At d d.root v t w → Typed d t w) ∧
    (WellTyped d d.root v ↔
      ∀ precision scale f b, At d d.root v (.decimal precision scale (.fixed f)) (.decimal b) →
        b.length = f.size) ∧
    ((∀ precision scale f, ¬ Schema.Within (.decimal precision scale (.fixed f)) d.root) →
      WellTyped d d.root v) := by
  have htyped (t : Schema) (w : Datum) (ht : At d d.root v t w) : Typed d t w :=
    ht.typed (typed_of_decode h)
  have hwell (hb : ∀ precision scale f b,
      At d d.root v (.decimal precision scale (.fixed f)) (.decimal b) → b.length = f.size) :
      WellTyped d d.root v := by
    refine ⟨htyped, fun t w n ht hn => ?_⟩
    obtain hblock | ⟨precision, scale, f, b, rfl, rfl, rfl⟩ := (htyped t w ht).sized hn
    · exact hblock
    · exact ⟨b, rfl, hb precision scale f b ht⟩
  refine ⟨htyped, ⟨?_, hwell⟩, ?_⟩
  · intro hv precision scale f b hb
    obtain ⟨_, ⟨⟩, hl⟩ := hv.sized _ _ _ hb rfl
    exact hl
  · intro hnone
    refine hwell fun precision scale f b hb => ?_
    exact absurd (hb.within .refl nofun) (hnone precision scale f)

def amount : Schema :=
  .decimal 4 2 (.fixed ⟨⟨"", "D"⟩, 4⟩)

def amountJson : Json :=
  .obj [("logicalType", .str "decimal"), ("name", .str "D"), ("precision", .int 4), ("scale", .int 2),
    ("size", .int 4), ("type", .str "fixed")]

def amountsJson : Json :=
  .obj [("items", .arr [.str "null", amountJson]), ("type", .str "array")]

set_option maxRecDepth 4000 in
theorem wellTyped_amounts :
    ∃ d v, Document.ofText amountsJson.text = .ok d ∧
      d.decode (.arr [.null, .obj [("D", .str "\x00\x00\x01\x02")], .str "abcd"]) = .ok v ∧
      v = .array [.union 0 .null, .union 1 (.decimal [0, 0, 1, 2]),
        .union 1 (.decimal [97, 98, 99, 100])] ∧
      WellTyped d d.root v := by
  let d : Document := .ofSchema (.array (.union [.primitive .null, amount]))
  have ht : Document.ofText amountsJson.text = .ok d := by cbv
  have hd : d.decode (.arr [.null, .obj [("D", .str "\x00\x00\x01\x02")], .str "abcd"]) =
      .ok (.array [.union 0 .null, .union 1 (.decimal [0, 0, 1, 2]),
        .union 1 (.decimal [97, 98, 99, 100])]) := by cbv
  refine ⟨d, _, ht, hd, rfl, (wellTyped_iff_of_decode hd).2.1.mpr ?_⟩
  intro precision scale f b hb
  cases hb with
  | item hv hb =>
    simp only [List.mem_cons, List.not_mem_nil, or_false] at hv
    obtain rfl | rfl | rfl := hv
    · obtain _ | _ | _ | _ | ⟨⟨⟩, hb⟩ := hb
      cases hb
    all_goals
      obtain _ | _ | _ | _ | ⟨⟨⟩, hb⟩ := hb
      cases hb
      rfl

theorem short_amount_not_wellTyped :
    ∃ d, Document.ofText amountJson.text = .ok d ∧ d.root = amount ∧
      d.decode (.str "ab") = .ok (.decimal [97, 98]) ∧ ¬ WellTyped d d.root (.decimal [97, 98]) := by
  refine ⟨.ofSchema amount, by cbv, rfl, by cbv, fun h => ?_⟩
  obtain ⟨_, ⟨⟩, hl⟩ := h.sized amount (.decimal [97, 98]) 4 .refl rfl
  cases hl

end Datum

end AvroColumns
