import Mathlib
import AvroColumns.Proofs.Json.Numbers
import AvroColumns.Proofs.Rows.Melt
import AvroColumns.Proofs.Step.Rows
import AvroColumns.Proofs.Text.Base64

namespace AvroColumns

open Outcome

/-- A whole number that does not fit 64 bits with a sign, since it is too large. -/
def Json.IsLarge : Json → Prop
  | .int n => (twoTo 63 : Int) ≤ n
  | _ => False

namespace Row

variable {c : Config} {column : Nat} {item : Json} {cell : Option Cell}

/-- An item as it should be written when it is passed through: the same, without the blanks around a
payload in base64. -/
def carried (c : Config) (column : Nat) : Json → Json
  | .str s => .str (if c.encoding = .binary ∧ column = c.payloadColumn then Text.trim s else s)
  | item => item

def written (cell : Option Cell) : Json :=
  (cell.map Cell.toJson).getD .null

theorem fitsInt64_iff {n : Int} : fitsInt64 n = true ↔ -(twoTo 63 : Int) ≤ n ∧ n < twoTo 63 := by
  have hpower : (twoTo 63 : Int) = 9223372036854775808 := by decide
  rw [fitsInt64, hpower, Bool.and_eq_true, decide_eq_true_eq, decide_eq_true_eq]
  omega

theorem isFinite_ofInt {n : Int} (h : (Json.int n).InRange) : (Binary64.ofInt n).isFinite = true := by
  have hpower : (twoTo 63 : Int) ≤ twoTo 64 := by decide
  have habs : n.natAbs ≤ twoTo 64 := by
    obtain ⟨hge, hlt⟩ := h
    omega
  have hle : ((n.natAbs : Nat) : ℚ) / (1 : Nat) ≤ 2 ^ 64 := by
    rw [Nat.cast_one, div_one]
    exact_mod_cast habs
  exact (Binary64.atMost_ofRatio _ one_pos hle (by norm_num)).isFinite

theorem written_str {s : String} (h : inputCell c column (.str s) = .ok cell) :
    written cell = carried c column (.str s) := by
  rw [carried]
  cases he : c.encoding with
  | json =>
    simp only [inputCell, he] at h
    cases h
    rfl
  | binary =>
    simp only [inputCell, he] at h
    split at h
    · rename_i hcolumn
      rw [if_pos ⟨rfl, hcolumn⟩]
      split at h
      · rename_i bytes hbytes
        cases h
        exact congrArg Json.str (Base64.encode_of_decode? hbytes)
      · cases h
    · rename_i hcolumn
      rw [if_neg fun h => hcolumn h.2]
      cases h
      rfl

theorem written_large {n : Int} (h : inputCell c column (.int n) = .ok cell)
    (hrange : (Json.int n).InRange) (hlarge : (Json.int n).IsLarge) :
    written cell = .real (.ofInt n) := by
  have hfits : ¬ fitsInt64 n = true := by
    rw [fitsInt64_iff, not_and, not_lt]
    exact fun _ => hlarge
  cases h
  rw [Cell.ofJson, if_neg hfits, written, Option.map_some, Option.getD_some, Cell.toJson,
    if_pos (isFinite_ofInt hrange)]

theorem written_inputCell (h : inputCell c column item = .ok cell) (hrange : item.InRange)
    (hlarge : ¬ item.IsLarge) : written cell = carried c column item := by
  cases item with
  | null =>
    cases h
    rfl
  | bool b =>
    cases h
    rfl
  | int n =>
    cases h
    rw [Cell.ofJson, if_pos (fitsInt64_iff.mpr ⟨hrange.1, not_le.mp hlarge⟩)]
    rfl
  | real x =>
    cases h
    exact if_pos hrange
  | str s => exact written_str h
  | arr items => cases hrange
  | obj members => cases hrange

end Row

namespace Step

variable {s : Step} {fs : Files} {cache : Cache} {binding : Option Binding} {v : Datum} {d : Document}
  {isDefault : Bool} {r row : Row} {rows : List Row} {vars : Variables} {number : Nat}
  {line : List UInt8}

theorem prefix_of_decodeRow (h : (s.decodeRow fs binding cache r).1 = .ok rows) (hrow : row ∈ rows) :
    r <+: row := by
  rcases decodeRowBy_eq_ok h with rfl | ⟨v, chosen, hv⟩
  · rw [List.mem_singleton.mp hrow]
    exact List.prefix_append _ _
  · cases binding with
    | none => cases hv
    | some b =>
      obtain ⟨rows', -, rfl⟩ := map_eq_ok_iff.mp hv
      obtain ⟨cells, -, rfl⟩ := List.mem_map.mp hrow
      exact List.prefix_append _ _

theorem items_of_lineAnswer {read : String → Option Json}
    (h : s.lineAnswer fs vars read number line = some (.ok rows)) :
    ∃ text items r, Utf8.decode? line = some text ∧ read (Text.trim text) = some (.arr items) ∧
      Row.ofInput s.config (.arr items) = .ok r ∧ ∀ row ∈ rows, r <+: row := by
  obtain ⟨entry, hentry, h⟩ := Option.map_eq_some_iff.mp h
  obtain ⟨input, rfl, hinput⟩ := bind_eq_ok_iff.mp h
  have hrows := mapError_eq_ok_iff.mp hinput
  rw [Input.ofLine] at hentry
  cases htext : Utf8.decode? line with
  | none => simp [htext] at hentry
  | some text =>
    simp only [htext] at hentry
    split at hentry
    · cases hentry
    · cases hread : read (Text.trim text) with
      | none => simp [hread] at hentry
      | some j =>
        simp only [hread, Option.some.injEq] at hentry
        cases j with
        | arr items =>
          cases hr : Row.ofInput s.config (.arr items) with
          | error cause => simp [hr] at hentry
          | ok r =>
            simp only [hr] at hentry
            cases hentry
            exact ⟨text, items, r, rfl, hread, hr, fun row hrow => prefix_of_decodeRow hrows hrow⟩
        | _ => cases hentry

/-- In every row that comes of a line, a scalar of the line is written as it was, if and only if it is
no whole number that is too large for 64 bits with a sign. In place of such a number stands the nearest
binary one. -/
theorem lineAnswer_passes (h : s.lineAnswer fs vars Json.read? number line = some (.ok rows)) :
    ∃ text items, Utf8.decode? line = some text ∧
      Json.read? (Text.trim text) = some (.arr items) ∧
      ∀ row ∈ rows, ∃ written, row.toJson = .arr written ∧
        ∀ (i : Nat) (item : Json), items[i]? = some item → item.isContainer = false →
          (written[i]? = some (Row.carried s.config i item) ↔ ¬ item.IsLarge) ∧
          ∀ n, item = .int n → item.IsLarge →
            n < twoTo 64 ∧ written[i]? = some (.real (.ofInt n)) := by
  obtain ⟨text, items, r, htext, hread, hr, hrows⟩ := items_of_lineAnswer h
  refine ⟨text, items, htext, hread, fun row hrow => ⟨row.map Row.written, rfl, ?_⟩⟩
  intro i item hitem hscalar
  have hrange := Json.inRange_of_read? hread item (List.mem_of_getElem? hitem) hscalar
  have hzip : items.zipIdx[i]? = some (item, i) := by simp [hitem]
  obtain ⟨cell, hcell, hinput⟩ := getElem?_of_mapM hr hzip
  have hwritten : (row.map Row.written)[i]? = some (Row.written cell) := by
    obtain ⟨cells, rfl⟩ := hrows row hrow
    obtain ⟨hi, -⟩ := List.getElem?_eq_some_iff.mp hcell
    rw [List.getElem?_map, List.getElem?_append_left hi, hcell]
    rfl
  rw [hwritten, Option.some.injEq]
  constructor
  · constructor
    · intro hsame hlarge
      cases item with
      | int n =>
        rw [Row.written_large hinput hrange hlarge] at hsame
        cases hsame
      | _ => exact hlarge
    · exact Row.written_inputCell hinput hrange
  · rintro n rfl hlarge
    exact ⟨hrange.2, by rw [Row.written_large hinput hrange hlarge]⟩

def scalarsText : String :=
  "[null,true,\"a\",18446744073709551615]"

@[simp] theorem read_scalarsText :
    Json.read? scalarsText =
      some (.arr [.null, .bool true, .str "a", .int 18446744073709551615]) := by cbv

theorem lineAnswer_scalarsText :
    ({ marksStep with config := texts, default := none } : Step).lineAnswer (fun _ => .error .notFound)
        .none Json.read? 1 (Utf8.encode scalarsText) =
      some (.ok [[none, some (.boolean true), some (.string "a"),
        some (.number (.ofInt 18446744073709551615)), none, none]]) := by
  have h : (({ marksStep with config := texts, default := none } : Step).lineAnswer
      (fun _ => .error .notFound) .none Json.read? 1 (Utf8.encode scalarsText)).bind (·.toOption) =
    some [[none, some (.boolean true), some (.string "a"),
      some (.number (.ofInt 18446744073709551615)), none, none]] := by decide +kernel
  obtain ⟨answer, hanswer, hrows⟩ := Option.bind_eq_some_iff.mp h
  rw [hanswer, toOption_eq_some_iff.mp hrows]

theorem lineAnswer_passes_scalars :
    ∃ (s : Step) (rows : List Row),
      s.lineAnswer (fun _ => .error .notFound) .none Json.read? 1 (Utf8.encode scalarsText) =
        some (.ok rows) ∧
      rows ≠ [] ∧ ∀ row ∈ rows, ∃ written, row.toJson = .arr written ∧
        written[2]? = some (.str "a") ∧
        written[3]? = some (.real (.ofInt 18446744073709551615)) := by
  obtain ⟨text, items, htext, hread, hrows⟩ := lineAnswer_passes lineAnswer_scalarsText
  have hsame : Utf8.decode? (Utf8.encode scalarsText) = some scalarsText := by decide +kernel
  obtain rfl : scalarsText = text := Option.some.inj (hsame.symm.trans htext)
  have htrim : Text.trim scalarsText = scalarsText := by decide +kernel
  rw [htrim, read_scalarsText] at hread
  cases hread
  refine ⟨_, _, lineAnswer_scalarsText, List.cons_ne_nil _ _, fun row hrow => ?_⟩
  obtain ⟨written, hwritten, hitems⟩ := hrows row hrow
  refine ⟨written, hwritten, ?_, ?_⟩
  · exact (hitems 2 (.str "a") rfl rfl).1.mpr id
  · have hlarge : (twoTo 63 : Int) ≤ 18446744073709551615 := by decide
    exact ((hitems 3 (.int 18446744073709551615) rfl rfl).2 _ rfl hlarge).2

theorem whole_number_rounded :
    ∃ (s : Step) (items written : List Json) (row : Row),
      Json.read? scalarsText = some (.arr items) ∧
      s.lineAnswer (fun _ => .error .notFound) .none Json.read? 1 (Utf8.encode scalarsText) =
        some (.ok [row]) ∧
      row.toJson = .arr written ∧ items[3]? = some (.int 18446744073709551615) ∧
      written[3]? ≠ items[3]? ∧
      row.toJson.text = "[null,true,\"a\",1.8446744073709552e+19,null,null]" := by
  refine ⟨_, _, _, _, read_scalarsText, lineAnswer_scalarsText, rfl, rfl, ?_, by decide +kernel⟩
  intro hsame
  have hfinite : (Binary64.ofInt 18446744073709551615).isFinite = true := by decide +kernel
  simp [Cell.toJson, hfinite] at hsame

end Step

end AvroColumns
