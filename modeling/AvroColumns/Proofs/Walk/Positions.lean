import AvroColumns.Proofs.Walk.Brackets
import AvroColumns.Proofs.Walk.Vanishing

namespace AvroColumns

namespace Numeral

variable {cs : List Char} {i : Int}

theorem Spells.int64? (h : Spells cs i) :
    int64? (Text.trimChars cs) = if fitsInt64 i then some i else none := by
  have htrim : Text.trimChars cs = cs := by
    apply (Text.trimmed_of_forall ?_).trimChars_eq_self
    intro c hc
    rcases h.digit_or_minus hc with hc | rfl
    · exact not_isBlank_of_isDigit hc
    · decide
  have hinteger : integer? cs = some i := by
    obtain ⟨ds, hds, ⟨rfl, rfl⟩ | ⟨rfl, rfl⟩⟩ := h
    · exact integer?_eq_some_iff.mpr ⟨[], _, rfl, hds, .inl ⟨.inl rfl, rfl⟩⟩
    · exact integer?_eq_some_iff.mpr ⟨['-'], ds, rfl, hds, .inr ⟨rfl, rfl⟩⟩
  rw [htrim, Numeral.int64?, hinteger]
  cases hi : fitsInt64 i <;> simp [hi]

end Numeral

namespace Guide

open Datum

variable {g : Guide} {s : Segment} {i : Int} {items : Schema} {vs : List Datum} {v : Datum}
  {fallback : Option Schema}

theorem walk_item (hs : s.itemIndex? = some i) (hi : 0 ≤ i) (hv : vs[i.toNat]? = some v) :
    g.walk [s] ⟨.array vs, .array items, fallback⟩ =
      g.arrive s.text ⟨v, items, g.defaultItems? (fallback.bind g.defaultContainer?)⟩ := by
  refine walkFrom_of_onward (step_onward_iff.mpr ⟨_, _, _, rfl, rfl, rfl, ?_⟩)
  exact .item hs hi hv

theorem walk_no_item (hs : s.itemIndex? = some i) (hi : i < 0 ∨ vs.length ≤ i) :
    g.walk [s] ⟨.array vs, .array items, fallback⟩ = .ok .absent :=
  Void.walkFrom (.item rfl rfl hs hi) _

theorem walk_not_item {k : String} (hk : Numeral.int64? (Text.trimChars k.toList) = none) :
    g.walk [.key k] ⟨.array vs, .array items, fallback⟩ =
      .error (.incompatible (Segment.key k).text (.notIndex k)) := by
  have hs : g.settle (Segment.key k).text (.array items) (.array vs) =
      .ok (.array items, .array vs) := rfl
  rw [walk, walkFrom_cons, step_of_settle hs rfl rfl, along, hk]
  rfl

theorem arrive_untagged {place : String} (hv : Typed g.document items v) (fallback : Option Schema) :
    (v.untagged.isNull → g.arrive place ⟨v, items, fallback⟩ = .ok .absent) ∧
    (v.untagged.isNull = false → ∃ q, g.arrive place ⟨v, items, fallback⟩ = .ok (.reached q) ∧
      q.value = v.untagged) := by
  obtain ⟨t, w, hw, -⟩ := settle_typed hv
  obtain rfl : w = v.untagged := settle_untag (hw place)
  constructor
  · intro hnull
    simp [arrive, hw place, hnull]
  · intro hnull
    exact ⟨_, arrive_reached_iff.mpr ⟨t, _, hw place, hnull, rfl⟩, rfl⟩

end Guide

namespace Path

open Datum Numeral

variable {k : String} {i : Int} {path : Path} {s : Segment}

def intoArray (path : Path) (vars : Variables) (g : Guide) (items : Schema) (vs : List Datum)
    (fallback : Option Schema) : Except Walk.Fault Walk :=
  g.walk (path.bind vars).segments ⟨.array vs, .array items, fallback⟩

/-- In every array the path leads to the element at the position, and to nothing if there is none. An
element of the items' schema is reached without its tags, or is nothing if it is null. -/
structure Locates (path : Path) (i : Int) : Prop where
  outside : ∀ vars g items vs fallback, i < 0 ∨ vs.length ≤ i →
    path.intoArray vars g items vs fallback = .ok .absent
  inside : ∀ vars g items vs fallback v, 0 ≤ i → vs[i.toNat]? = some v → ∃ place fallback',
    path.intoArray vars g items vs fallback = g.arrive place ⟨v, items, fallback'⟩
  null : ∀ vars g items vs fallback v, 0 ≤ i → vs[i.toNat]? = some v → Typed g.document items v →
    v.untagged.isNull → path.intoArray vars g items vs fallback = .ok .absent
  element : ∀ vars g items vs fallback v, 0 ≤ i → vs[i.toNat]? = some v → Typed g.document items v →
    v.untagged.isNull = false → ∃ q,
      path.intoArray vars g items vs fallback = .ok (.reached q) ∧ q.value = v.untagged

theorem locates_of_itemIndex? (hs : ∀ vars, (path.bind vars).segments = [s])
    (hi : s.itemIndex? = some i) : Locates path i := by
  have inside vars g items vs fallback v (h0 : 0 ≤ i) (hv : vs[i.toNat]? = some v) :
      ∃ place fallback', path.intoArray vars g items vs fallback =
        g.arrive place ⟨v, items, fallback'⟩ := by
    rw [intoArray, hs, Guide.walk_item hi h0 hv]
    exact ⟨_, _, rfl⟩
  constructor
  · intro vars g items vs fallback h
    rw [intoArray, hs]
    exact Guide.walk_no_item hi h
  · exact inside
  · intro vars g items vs fallback v h0 hv ht hnull
    obtain ⟨place, fallback', h⟩ := inside vars g items vs fallback v h0 hv
    exact h.trans ((Guide.arrive_untagged ht fallback').1 hnull)
  · intro vars g items vs fallback v h0 hv ht hnull
    obtain ⟨place, fallback', h⟩ := inside vars g items vs fallback v h0 hv
    rw [h]
    exact (Guide.arrive_untagged ht fallback').2 hnull

/-- A numeral in brackets locates the element at its number exactly if the number fits 64 bits, and is
a position of no array if it does not. -/
theorem locates_bracketed (h : Spells k.toList i) :
    ∃ path, compile (bracketed k) = .ok path ∧ (path.Locates i ↔ fitsInt64 i) ∧
      (fitsInt64 i = false → ∀ vars g items vs fallback,
        path.intoArray vars g items vs fallback =
          .error (.incompatible ("[" ++ k ++ "]") (.notIndex k))) := by
  have hp : Placeholder.occurs k.toList = false :=
    Placeholder.occurs_eq_false (h.not_mem rfl (by decide))
  have hstar : k.toList ≠ ['*'] := fun hk => h.not_mem (c := '*') rfl (by decide) (by simp [hk])
  have hsegment : Segment.ofBracket k.toList = if fitsInt64 i then .index i else .key k := by
    rw [Segment.ofBracket, if_neg hstar, h.index?]
    cases fitsInt64 i <;> simp
  have hbind (vars : Variables) :
      (bind ⟨bracketed k, .container, [Segment.ofBracket k.toList]⟩ vars).segments =
        [Segment.ofBracket k.toList] := bind_bracketed vars hp
  refine ⟨_, compile_bracketed (h.not_mem rfl (by decide)) (h.not_mem rfl (by decide)) hp, ?_⟩
  cases hi : fitsInt64 i with
  | true =>
    rw [hi, if_pos rfl] at hsegment
    rw [hsegment] at hbind ⊢
    exact ⟨iff_of_true (locates_of_itemIndex? hbind rfl) rfl, by simp⟩
  | false =>
    rw [hi, if_neg Bool.false_ne_true] at hsegment
    rw [hsegment] at hbind ⊢
    have herror vars g items vs fallback :
        intoArray ⟨bracketed k, .container, [.key k]⟩ vars g items vs fallback =
          .error (.incompatible ("[" ++ k ++ "]") (.notIndex k)) := by
      have hplace : (Segment.key k).text = "[" ++ k ++ "]" := by
        simp [Segment.text, Segment.chars, ← String.toList_inj]
      have hnone : int64? (Text.trimChars k.toList) = none := by
        rw [h.int64?, hi]
        rfl
      rw [intoArray, hbind, Guide.walk_not_item hnone, hplace]
    refine ⟨iff_of_false ?_ Bool.false_ne_true, fun _ => herror⟩
    intro hl
    -- the empty array has no element at any position
    have habsent := hl.outside .none ⟨.ofSchema (.array (.primitive .int)), none, false⟩
      (.primitive .int) [] none (by simp; omega)
    cases habsent.symm.trans (herror _ _ _ _ _)

theorem locates_bracketed_padded :
    let items : Schema := .union [.primitive .null, .primitive .string]
    let g : Guide := ⟨.ofSchema (.array items), none, false⟩
    Spells "01".toList 1 ∧ ∃ path, compile "$[01]" = .ok path ∧ path.Locates 1 ∧
      (∃ q, g.walk (path.bind .none).segments
          (g.start (.array [.union 0 .null, .union 1 (.string "b")])) = .ok (.reached q) ∧
        q.value = .string "b") ∧
      g.walk (path.bind .none).segments
          (g.start (.array [.union 1 (.string "a"), .union 0 .null])) = .ok .absent ∧
      g.walk (path.bind .none).segments (g.start (.array [.union 1 (.string "a")])) = .ok .absent := by
  intro items g
  have h : Spells "01".toList 1 := ⟨['0', '1'], by decide, .inl ⟨rfl, by decide⟩⟩
  obtain ⟨path, hc, hiff, -⟩ := locates_bracketed h
  have hl := hiff.mpr (by decide)
  have htext : Typed g.document items (.union 1 (.string "b")) :=
    .union (show _ = some (.primitive .string) from rfl) (.primitive trivial)
  have hnull : Typed g.document items (.union 0 .null) :=
    .union (show _ = some (.primitive .null) from rfl) (.primitive trivial)
  refine ⟨h, path, hc, hl, ?_, ?_, ?_⟩
  · exact hl.element .none g items _ none _ (by decide) rfl htext rfl
  · exact hl.null .none g items _ none _ (by decide) rfl hnull rfl
  · exact hl.outside .none g items _ none (.inr (by decide))

theorem beyond_words_fails :
    let g : Guide := ⟨.ofSchema (.array (.primitive .int)), none, false⟩
    Spells "9223372036854775808".toList 9223372036854775808 ∧
      Typed g.document g.document.root (.array [.int 1]) ∧
      ∃ path, compile "$[9223372036854775808]" = .ok path ∧
        ¬ path.Locates 9223372036854775808 ∧
        g.walk (path.bind .none).segments (g.start (.array [.int 1])) =
          .error (.incompatible "[9223372036854775808]" (.notIndex "9223372036854775808")) := by
  intro g
  have h : Spells "9223372036854775808".toList 9223372036854775808 :=
    ⟨"9223372036854775808".toList, by decide, .inl ⟨rfl, by decide⟩⟩
  have htyped : Typed g.document g.document.root (.array [.int 1]) :=
    .array (List.forall_mem_singleton.mpr (.primitive rfl))
  have herror : g.walk [.key "9223372036854775808"] (g.start (.array [.int 1])) =
      .error (.incompatible "[9223372036854775808]" (.notIndex "9223372036854775808")) := rfl
  refine ⟨h, htyped, ⟨"$[9223372036854775808]", .container, [.key "9223372036854775808"]⟩, rfl, ?_, herror⟩
  intro hl
  have habsent := hl.outside .none g (.primitive .int) [.int 1] none (.inr (by decide))
  cases habsent.symm.trans herror

end Path

end AvroColumns
