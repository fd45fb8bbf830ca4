import Mathlib.Data.List.Basic
import AvroColumns.Proofs.Json.Characters
import AvroColumns.Proofs.Json.Printing
import AvroColumns.Proofs.Rows.Writer

namespace AvroColumns

/-- A cell is read back from a line: an integer fits 64 bits, and a finite number is read back on its
own. -/
def Cell.ReadsBack : Cell → Prop
  | .integer n => fitsInt64 n
  | .number x => x.isFinite → Json.read? (Json.real x).text = some (.real x)
  | _ => True

theorem Cell.ReadsBack.toJson {c : Cell} (h : c.ReadsBack) : c.toJson.ReadsBack := by
  cases c with
  | integer n =>
    have hlow : (twoTo 63 : Int) = 9223372036854775808 := by decide
    have hhigh : (twoTo 64 : Int) = 18446744073709551616 := by decide
    simp only [Cell.ReadsBack, fitsInt64, Bool.and_eq_true, decide_eq_true_eq] at h
    simp only [Cell.toJson, Json.ReadsBack, hlow, hhigh]
    omega
  | number x =>
    rw [Cell.toJson]
    split
    · rename_i hx
      exact h hx
    · trivial
  | _ => trivial

theorem Row.read?_toJson {r : Row} (h : ∀ c, some c ∈ r → c.ReadsBack) :
    Json.read? r.toJson.text = some r.toJson := by
  refine Json.read?_text_arr fun j hj => ?_
  obtain ⟨cell, hcell, rfl⟩ := List.mem_map.mp hj
  cases cell with
  | none => trivial
  | some c => exact (h c hcell).toJson

namespace Writer

inductive Call
  | writeRows (rows : List Row)
  | flush

def Call.rows : Call → List Row
  | .writeRows rows => rows
  | .flush => []

def call (w : Writer) : Call → Writer
  | .writeRows rows => w.writeRows rows
  | .flush => w.flush

variable (header : Option (List String)) (calls : List Call)

def after : Writer :=
  calls.foldl call (new header)

def heading : Option (List String) → List Call → List Json
  | some names, _ :: _ => [.arr (names.map .str)]
  | _, _ => []

def documents : List Json :=
  heading header calls ++ (calls.flatMap Call.rows).map Row.toJson

@[simp] theorem call_eq (w : Writer) (c : Call) : w.call c = w.writeRows c.rows := by
  cases c with
  | writeRows rows => rfl
  | flush => rfl

theorem after_eq : after header calls = (calls.map Call.rows).foldl writeRows (new header) := by
  rw [after, List.foldl_map]
  exact congrArg (calls.foldl · (new header)) (funext₂ call_eq)

@[simp] theorem text_after :
    (after header calls).text = linesText ((documents header calls).map Json.text) := by
  have hemits := (emits_foldl_writeRows (new header) (calls.map Call.rows)).text
  have hnew : (new header).text = "" := rfl
  have hheading : (if !(calls.map Call.rows).isEmpty then (new header).headerLines else []) =
      (heading header calls).map Json.text := by
    cases calls with
    | nil => cases header <;> rfl
    | cons c calls => cases header <;> rfl
  rw [after_eq, hemits, hnew, hheading, String.empty_append, documents, List.map_append,
    List.flatMap_def, List.map_map]
  rfl

@[simp] theorem rows_after : (after header calls).rows = (calls.flatMap Call.rows).length := by
  have hemits := (emits_foldl_writeRows (new header) (calls.map Call.rows)).rows
  rw [after_eq, hemits, List.flatMap_def]
  exact Nat.zero_add _

@[simp] theorem toList_linesText_cons (line : String) (lines : List String) :
    (linesText (line :: lines)).toList = line.toList ++ '\n' :: (linesText lines).toList := by
  rw [← List.singleton_append, linesText_append, String.toList_append]
  simp [linesText]

theorem splitOn_linesText {lines : List String} (h : ∀ line ∈ lines, '\n' ∉ line.toList) :
    (linesText lines).toList.splitOn '\n' = lines.map String.toList ++ [[]] := by
  induction lines with
  | nil => rfl
  | cons line lines ih =>
    rw [List.forall_mem_cons] at h
    rw [toList_linesText_cons, List.splitOn_append_cons_self_of_not_mem h.1, ih h.2]
    rfl

theorem newline_not_mem (j : Json) : '\n' ∉ j.text.toList := by
  rw [Json.text, String.toList_ofList]
  intro h
  exact absurd (Json.printable_chars j _ h) (by decide)

/-- The lines of a text; the last one ends with the text. -/
def linesOf (text : String) : List String :=
  (text.toList.splitOn '\n').map String.ofList

@[simp] theorem linesOf_linesText (js : List Json) :
    linesOf (linesText (js.map Json.text)) = js.map Json.text ++ [""] := by
  have hlines : ∀ line ∈ js.map Json.text, '\n' ∉ line.toList := by
    intro line hline
    obtain ⟨j, -, rfl⟩ := List.mem_map.mp hline
    exact newline_not_mem j
  rw [linesOf, splitOn_linesText hlines, List.map_append, List.map_map]
  simp

/-- After any calls, the lines of what was written are the header, if there is one and there was a call,
and a line for every row, in order. The header is read back as its names, and the line of a row as its
cells, one by one, as long as their numbers are read back on their own. -/
theorem lines_after (header : Option (List String)) (calls : List Call) :
    (after header calls).text = linesText ((documents header calls).map Json.text) ∧
    linesOf (after header calls).text = (documents header calls).map Json.text ++ [""] ∧
    (after header calls).rows = (calls.flatMap Call.rows).length ∧
    (∀ names : List String,
      Json.read? (Json.arr (names.map .str)).text = some (.arr (names.map .str))) ∧
    ∀ row ∈ calls.flatMap Call.rows, (∀ c, some c ∈ row → c.ReadsBack) →
      ∃ items, Json.read? row.toJson.text = some (.arr items) ∧ items.length = row.length ∧
        ∀ (i : Nat) (cell : Option Cell), row[i]? = some cell →
          items[i]? = some (match cell with
            | none => Json.null
            | some c => c.toJson) := by
  refine ⟨text_after header calls, ?_, rows_after header calls, ?_, ?_⟩
  · rw [text_after, linesOf_linesText]
  · intro names
    refine Json.read?_text_arr fun j hj => ?_
    obtain ⟨name, -, rfl⟩ := List.mem_map.mp hj
    trivial
  · intro row _ hcells
    refine ⟨_, Row.read?_toJson hcells, List.length_map _, ?_⟩
    intro i cell hcell
    rw [List.getElem?_map, hcell, Option.map_some]
    cases cell <;> rfl

def marksRow : Row :=
  [some (.string "a\n\"\\ü\x01"), none, some (.integer (-5)), some (.number ⟨0x3FE0000000000000⟩)]

theorem lines_after_marks :
    linesOf (after (some ["x\ny"]) [.flush, .writeRows [marksRow], .writeRows []]).text =
      ["[\"x\\ny\"]", "[\"a\\n\\\"\\\\ü\\u0001\",null,-5,0.5]", ""] ∧
    (after (some ["x\ny"]) [.flush, .writeRows [marksRow], .writeRows []]).rows = 1 ∧
    ∃ items, Json.read? "[\"a\\n\\\"\\\\ü\\u0001\",null,-5,0.5]" = some (.arr items) ∧
      items.length = 4 ∧ items[0]? = some (.str "a\n\"\\ü\x01") ∧ items[1]? = some .null := by
  obtain ⟨-, hlines, hrows, -, hread⟩ :=
    lines_after (some ["x\ny"]) [.flush, .writeRows [marksRow], .writeRows []]
  have hdocuments : (documents (some ["x\ny"]) [.flush, .writeRows [marksRow], .writeRows []]).map
      Json.text = ["[\"x\\ny\"]", "[\"a\\n\\\"\\\\ü\\u0001\",null,-5,0.5]"] := by
    decide +kernel
  have hcells : ∀ c, some c ∈ marksRow → c.ReadsBack := by
    intro c hc
    simp only [marksRow, List.mem_cons, Option.some.injEq, List.not_mem_nil, or_false, reduceCtorEq,
      false_or] at hc
    rcases hc with rfl | rfl | rfl
    · trivial
    · exact (by decide : fitsInt64 (-5) = true)
    · exact fun _ => rfl
  obtain ⟨items, hitems, hlength, hcell⟩ := hread marksRow (by decide) hcells
  have htext : marksRow.toJson.text = "[\"a\\n\\\"\\\\ü\\u0001\",null,-5,0.5]" := by
    decide +kernel
  rw [hdocuments] at hlines
  rw [htext] at hitems
  exact ⟨hlines, hrows, items, hitems, hlength, hcell 0 _ rfl, hcell 1 _ rfl⟩

end Writer

end AvroColumns
