import Mathlib.Data.List.Basic
import Mathlib.Data.List.Induction
import AvroColumns.Rows.Writer

namespace AvroColumns.Writer

variable (w : Writer) (r : Row) (rows : List Row)

def headerLines : List String :=
  match w.header with
  | none => []
  | some names => [(Json.arr (names.map .str)).text]

@[simp] theorem header_writeHeader : w.writeHeader.header = none := by
  rw [writeHeader]
  cases hw : w.header <;> simp [hw, writeLine]

@[simp] theorem lines_writeHeader :
    w.writeHeader.lines.toList = w.lines.toList ++ w.headerLines := by
  rw [writeHeader, headerLines]
  cases w.header with
  | none => simp
  | some names => simp [writeLine]

@[simp] theorem rows_writeHeader : w.writeHeader.rows = w.rows := by
  rw [writeHeader]
  cases w.header <;> rfl

@[simp] theorem header_writeRow : (w.writeRow r).header = w.header := rfl

@[simp] theorem lines_writeRow :
    (w.writeRow r).lines.toList = w.lines.toList ++ [r.toJson.text] := by
  simp [writeRow, writeLine]

@[simp] theorem rows_writeRow : (w.writeRow r).rows = w.rows + 1 := rfl

@[simp] theorem writeRows_nil : w.writeRows [] = w.writeHeader := rfl

@[simp] theorem writeRows_concat : w.writeRows (rows ++ [r]) = (w.writeRows rows).writeRow r :=
  List.foldl_concat ..

@[simp] theorem header_writeRows : (w.writeRows rows).header = none := by
  induction rows using List.reverseRecOn with
  | nil => simp
  | append_singleton rows r ih => simp [ih]

@[simp] theorem lines_writeRows :
    (w.writeRows rows).lines.toList =
      w.lines.toList ++ w.headerLines ++ rows.map (·.toJson.text) := by
  induction rows using List.reverseRecOn with
  | nil => simp
  | append_singleton rows r ih => simp [ih]

@[simp] theorem rows_writeRows : (w.writeRows rows).rows = w.rows + rows.length := by
  induction rows using List.reverseRecOn with
  | nil => simp
  | append_singleton rows r ih => simp [ih, Nat.add_assoc]

@[simp] theorem flush_eq : w.flush = w.writeHeader :=
  rfl

theorem writeRows_append (more : List Row) :
    w.writeRows (rows ++ more) = (w.writeRows rows).writeRows more := by
  have hw : (w.writeRows rows).writeHeader = w.writeRows rows := by
    rw [writeHeader, header_writeRows]
  rw [writeRows, List.foldl_append, writeRows, hw]
  rfl

theorem foldl_writeRows {parts : List (List Row)} (h : parts ≠ []) :
    parts.foldl writeRows w = w.writeRows parts.flatten := by
  induction parts generalizing w with
  | nil => exact absurd rfl h
  | cons part parts ih =>
    cases parts with
    | nil => simp
    | cons part' parts =>
      rw [List.foldl_cons, ih _ (by simp)]
      exact (writeRows_append w part _).symm

/-- The text of lines, each of which ends with a newline. -/
def linesText (lines : List String) : String :=
  String.join (lines.map (· ++ "\n"))

@[simp] theorem linesText_append (lines more : List String) :
    linesText (lines ++ more) = linesText lines ++ linesText more := by
  rw [linesText, List.map_append, String.join_append]
  rfl

theorem text_eq : w.text = linesText w.lines.toList := by
  rw [text, linesText, String.join, List.foldl_map, ← Array.foldl_toList]
  simp only [String.append_assoc]

/-- Between two states a writer has put out rows, and has been asked to put out any at all (perhaps
none), so that the header is written, or has not been asked. -/
structure Emits (w : Writer) (started : Bool) (rows : List Row) (w' : Writer) : Prop where
  text : w'.text = w.text ++
    linesText ((if started then w.headerLines else []) ++ rows.map (·.toJson.text))
  header : w'.header = if started then none else w.header
  rows : w'.rows = w.rows + rows.length

theorem emits_self : w.Emits false [] w :=
  ⟨by simp [linesText, String.join], rfl, rfl⟩

theorem emits_writeRows : w.Emits true rows (w.writeRows rows) := by
  constructor <;> simp [text_eq]

theorem emits_foldl_writeRows (parts : List (List Row)) :
    w.Emits (!parts.isEmpty) parts.flatten (parts.foldl writeRows w) := by
  cases parts with
  | nil => exact emits_self w
  | cons part parts =>
    rw [foldl_writeRows w (List.cons_ne_nil part parts)]
    exact emits_writeRows w _

theorem emits_flush (parts : List (List Row)) :
    w.Emits true parts.flatten (parts.foldl writeRows w).flush := by
  rw [flush_eq, ← writeRows_nil]
  cases parts with
  | nil => exact emits_writeRows w []
  | cons part parts =>
    rw [foldl_writeRows w (List.cons_ne_nil part parts), ← writeRows_append, List.append_nil]
    exact emits_writeRows w _

end AvroColumns.Writer
