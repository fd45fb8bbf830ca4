import AvroColumns.Proofs.Numeric.Numerals
import AvroColumns.Proofs.Path.Weaving
import AvroColumns.Proofs.Walk.Typed

namespace AvroColumns

namespace Placeholder

variable {cs ds : List Char}

theorem occurs_append (hd : ds.head? ≠ some '\x7b') :
    occurs (cs ++ ds) = (occurs cs || occurs ds) := by
  fun_induction occurs cs with
  | case1 cs => simp [occurs]
  | case2 c cs hne ih =>
    rw [List.cons_append, occurs.eq_2, ih]
    rintro es rfl hes
    cases cs with
    | nil => simp_all
    | cons c cs => exact hne cs rfl (by simp_all)
  | case3 => rfl

end Placeholder

namespace Path

variable {k : String}

def bracketed (k : String) : String :=
  "$[" ++ k ++ "]"

@[simp] theorem toList_bracketed (k : String) :
    (bracketed k).toList = '$' :: '[' :: (k.toList ++ [']']) := by
  simp [bracketed]

theorem compile_bracketed (hdot : '.' ∉ k.toList) (hclose : ']' ∉ k.toList)
    (hp : Placeholder.occurs k.toList = false) :
    compile (bracketed k) = .ok ⟨bracketed k, .container, [Segment.ofBracket k.toList]⟩ := by
  have htrim : Text.Trimmed (bracketed k).toList := by
    rw [toList_bracketed]
    constructor
    · rintro _ ⟨⟩
      rfl
    · intro c hc
      rw [← List.cons_append, ← List.cons_append, List.getLast?_concat] at hc
      cases hc
      rfl
  -- neither the root nor the brackets make a placeholder with the characters beside them
  have hoccurs : Placeholder.occurs (bracketed k).toList = false := by
    rw [toList_bracketed, Placeholder.occurs.eq_2 _ _ (by simp), Placeholder.occurs.eq_2 _ _ (by simp),
      Placeholder.occurs_append (by simp), hp]
    rfl
  have hsplit : (bracketed k).toList.splitOn '.' = [(bracketed k).toList] :=
    List.splitOn_eq_singleton (by simp [hdot])
  rw [compile_eq_ok_iff, htrim.trimChars_eq_self, Placeholder.cleanse_eq_self hoccurs]
  refine ⟨by simp, rfl, ofChars_eq_ok_iff.mpr ?_⟩
  rw [hsplit, toList_bracketed]
  refine ⟨_, .container, ?_⟩
  rw [partsSegments, partSegments_bracket, bracketsFrom, bracketsFrom_append hclose]
  rfl

theorem hasPlaceholder_ofBracket {content : List Char} (h : Placeholder.occurs content = false) :
    (Segment.ofBracket content).hasPlaceholder = false := by
  rw [Segment.ofBracket]
  split
  · rfl
  · split
    · rfl
    · rwa [Segment.hasPlaceholder, String.toList_ofList]

/-- The key under which a text in brackets is looked up: a 64-bit integer is printed anew. -/
def keyOf (k : String) : String :=
  match Numeral.index? k.toList with
  | some i => Numeral.text i
  | none => k

theorem keyOf_eq_iff : keyOf k = k ↔ ¬ Numeral.Padded k.toList := by
  rw [keyOf]
  split
  next i hi =>
    rw [← Numeral.ofInt_eq_iff (Numeral.index?_eq_some_iff.mp hi), Numeral.text, ← String.toList_inj,
      String.toList_ofList]
  next hi => exact iff_of_true rfl fun h => h.1.elim (Numeral.index?_eq_none_iff.mp hi)

theorem entryKey?_ofBracket (hstar : k ≠ "*") :
    (Segment.ofBracket k.toList).entryKey? = some (keyOf k) := by
  have hne : k.toList ≠ ['*'] := fun h => hstar (String.toList_inj.mp h)
  rw [Segment.ofBracket, if_neg hne, keyOf]
  cases Numeral.index? k.toList with
  | some i => rfl
  | none => exact congrArg some String.ofList_toList

theorem bind_bracketed {raw : String} {root : Root} {content : List Char} (vars : Variables)
    (h : Placeholder.occurs content = false) :
    (bind ⟨raw, root, [Segment.ofBracket content]⟩ vars).segments = [Segment.ofBracket content] := by
  rw [bind, if_neg (by simp [hasPlaceholder_ofBracket h])]

end Path

namespace Guide

variable {g : Guide} {s : Segment} {key : String} {values : Schema} {v : Datum}
  {entries : List (String × Datum)} {fallback : Option Schema}

theorem Turn.untagged {x y : Schema × Datum} (h : g.Turn x y) : y.2.untagged = x.2.untagged := by
  cases h with
  | choose _ hb =>
    rcases Document.branch?_eq_some_iff.mp hb with ⟨i, rfl, -⟩ | ⟨-, -, rfl⟩ <;> rfl
  | untag => rfl

theorem settle_untag {place : String} {schema : Schema} {r : Schema × Datum}
    (h : g.settle place schema v = .ok r) : r.2 = v.untagged :=
  settle_induction (P := fun x => r.2 = x.2.untagged) h (fun hs => (Datum.untagged_eq_self hs.1).symm)
    fun ht hr => hr.trans ht.untagged

theorem walk_entry (hk : s.entryKey? = some key) (hl : Datum.lookup key entries = some v) :
    g.walk [s] ⟨.map entries, .map values, fallback⟩ =
      g.arrive s.text ⟨v, values, g.defaultValues? (fallback.bind g.defaultContainer?)⟩ := by
  refine walkFrom_of_onward (step_onward_iff.mpr ⟨_, _, _, rfl, rfl, rfl, ?_⟩)
  exact .entry hk hl

theorem walk_no_entry (hk : s.entryKey? = some key) (hl : Datum.lookup key entries = none) :
    g.walk [s] ⟨.map entries, .map values, fallback⟩ = .ok .absent := by
  have hs : g.settle s.text (.map values) (.map entries) = .ok (.map values, .map entries) := rfl
  rw [walk, walkFrom_cons, step_of_settle hs rfl rfl]
  cases s with
  | key k | index i =>
    cases hk
    simp only [along, toEntry, hl]
    rfl
  | _ => cases hk

end Guide

namespace Path

open Datum

variable {k key key' : String} {path : Path}

/-- In every map the path leads to the entry under the key, and to nothing if there is none. -/
def Addresses (path : Path) (key : String) : Prop :=
  ∀ (vars : Variables) (g : Guide) (values : Schema) (entries : List (String × Datum))
    (fallback : Option Schema),
    (lookup key entries = none →
      g.walk (path.bind vars).segments ⟨.map entries, .map values, fallback⟩ = .ok .absent) ∧
    ∀ v, lookup key entries = some v → Typed g.document values v → v.untagged.isNull = false →
      ∃ q, g.walk (path.bind vars).segments ⟨.map entries, .map values, fallback⟩ =
        .ok (.reached q) ∧ q.value = v.untagged

theorem addresses_of_entryKey? {s : Segment}
    (hs : ∀ vars, (path.bind vars).segments = [s]) (hk : s.entryKey? = some key) :
    Addresses path key := by
  intro vars g values entries fallback
  rw [hs]
  constructor
  · exact Guide.walk_no_entry hk
  · intro v hl hv hnull
    obtain ⟨t, w, hw, -⟩ := Guide.settle_typed hv
    obtain rfl : w = v.untagged := Guide.settle_untag (hw s.text)
    rw [Guide.walk_entry hk hl]
    exact ⟨_, Guide.arrive_reached_iff.mpr ⟨t, _, hw s.text, hnull, rfl⟩, rfl⟩

theorem Addresses.unique (h : Addresses path key) (h' : Addresses path key') : key = key' := by
  by_contra hne
  -- a map with one of the two keys only
  let g : Guide := ⟨.ofSchema (.map (.primitive .boolean)), none, false⟩
  let entries : List (String × Datum) := [(key, .boolean true)]
  have habsent := (h' .none g (.primitive .boolean) entries none).1 (by simp [entries, lookup, hne])
  obtain ⟨q, hq, -⟩ := (h .none g (.primitive .boolean) entries none).2 (.boolean true)
    (by simp [entries, lookup]) (.primitive trivial) rfl
  cases habsent.symm.trans hq

/-- A text in brackets addresses the key that it reads as, which is the text exactly if it is no padded
numeral. -/
theorem addresses_bracketed (hdot : '.' ∉ k.toList) (hclose : ']' ∉ k.toList)
    (hp : Placeholder.occurs k.toList = false) (hstar : k ≠ "*") :
    ∃ path, compile (bracketed k) = .ok path ∧ Addresses path (keyOf k) ∧
      (Addresses path k ↔ ¬ Numeral.Padded k.toList) := by
  have h : Addresses ⟨bracketed k, .container, [Segment.ofBracket k.toList]⟩ (keyOf k) :=
    addresses_of_entryKey? (fun vars => bind_bracketed vars hp) (entryKey?_ofBracket hstar)
  refine ⟨_, compile_bracketed hdot hclose hp, h, ?_⟩
  rw [← keyOf_eq_iff]
  constructor
  · exact h.unique
  · intro hk
    rwa [hk] at h

theorem addresses_bracketed_minus :
    let g : Guide := ⟨.ofSchema (.map (.primitive .int)), none, false⟩
    '.' ∉ "-7".toList ∧ ']' ∉ "-7".toList ∧ Placeholder.occurs "-7".toList = false ∧ "-7" ≠ "*" ∧
    ∃ path, compile "$[-7]" = .ok path ∧ path.Addresses "-7" ∧
      (∃ q, g.walk (path.bind .none).segments (g.start (.map [("7", .int 1), ("-7", .int 2)])) =
        .ok (.reached q) ∧ q.value = .int 2) ∧
      g.walk (path.bind .none).segments (g.start (.map [("7", .int 1)])) = .ok .absent := by
  intro g
  have hk : ¬ Numeral.Padded "-7".toList := keyOf_eq_iff.mp (by decide)
  obtain ⟨path, hc, -, hiff⟩ := addresses_bracketed (k := "-7") (by decide) (by decide) (by decide)
    (by decide)
  have h := hiff.mpr hk
  have hread (entries : List (String × Datum)) := h .none g (.primitive .int) entries none
  refine ⟨by decide, by decide, by decide, by decide, path, hc, h, ?_, ?_⟩
  · exact (hread _).2 (.int 2) rfl (.primitive rfl) rfl
  · exact (hread _).1 rfl

theorem padded_reads_other :
    let g : Guide := ⟨.ofSchema (.map (.primitive .int)), none, false⟩
    let entries : List (String × Datum) := [("007", .int 1), ("7", .int 2)]
    '.' ∉ "007".toList ∧ ']' ∉ "007".toList ∧ Placeholder.occurs "007".toList = false ∧ "007" ≠ "*" ∧
    lookup "007" entries = some (.int 1) ∧ Typed g.document g.document.root (.map entries) ∧
    ∃ path, compile "$[007]" = .ok path ∧ ¬ path.Addresses "007" ∧
      g.walk (path.bind .none).segments (g.start (.map entries)) =
        .ok (.reached ⟨.int 2, .primitive .int, none⟩) ∧
      g.walk (path.bind .none).segments (g.start (.map [("007", .int 1)])) = .ok .absent := by
  intro g entries
  have htyped : Typed g.document g.document.root (.map entries) := by
    refine .map fun e he => ?_
    simp only [entries, List.mem_cons, List.not_mem_nil, or_false] at he
    obtain rfl | rfl := he <;> exact .primitive rfl
  have habsent : g.walk [.index 7] (g.start (.map [("007", .int 1)])) = .ok .absent := rfl
  refine ⟨by decide, by decide, by decide, by decide, rfl, htyped,
    ⟨"$[007]", .container, [.index 7]⟩, rfl, ?_, rfl, habsent⟩
  intro h
  obtain ⟨q, hq, -⟩ := (h .none g (.primitive .int) [("007", .int 1)] none).2 (.int 1) rfl
    (.primitive rfl) rfl
  cases habsent.symm.trans hq

end Path

end AvroColumns
