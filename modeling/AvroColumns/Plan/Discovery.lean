import AvroColumns.Column.Basic
import AvroColumns.Schema.Document

/-!
# Discovery

A column for every leaf of a schema, for runs in which none is configured. Arrays are followed into
their first item and maps into a placeholder for a key. Where a union has several leaves, one column
of texts serves all of them. Records are followed to a fixed depth, since a record may lead back to
itself.
-/

namespace AvroColumns

def LeafKind.target? : LeafKind → Option Target
  | .boolean => some .boolean
  | .string | .enum | .uuid => some .string
  | .int | .long => some .integer
  | .float | .double => some .number
  | .bytes | .fixed => some .binary
  | .decimal _ | .bigDecimal => some .bigNumber
  | .date | .timeMillis | .timeMicros | .timestamp _ => some .date
  | .null | .duration => none

namespace Document

variable (d : Document)

def firstItem : String := "[0]"

def anyKey : String := "[*key*]"

def recordDepth : Nat := 32

structure Site where
  path : String
  name : String

namespace Site

def extend (site : Site) (s : String) : Site :=
  ⟨site.path ++ s, site.name ++ s⟩

def member (site : Site) (name : String) : Site :=
  site.extend ("." ++ name)

def tagged (site : Site) (r : RecordType Schema) : Site :=
  { site with name := site.name ++ "[u:" ++ r.name.base ++ "]" }

end Site

def symbolsOf? : Schema → Option (List String)
  | .enum e => some e.symbols
  | _ => none

def columnTarget? (s : Schema) : Except UnknownType (Option Target) := do
  return (← d.node s).leaf?.bind LeafKind.target?

def leafColumns (site : Site) (s : Schema) : Except UnknownType (List Column) := do
  let s ← d.resolve s
  match ← d.columnTarget? s with
  | some target => return [⟨site.name, site.path, target, symbolsOf? s⟩]
  | none => return []

def unionLeaves (site : Site) (members : List Schema) : Except UnknownType (List Column) := do
  let leaves ← members.filterM fun s => return (← d.columnTarget? s).isSome
  match leaves with
  | [] => return []
  | [s] => d.leafColumns site s
  | _ => return [⟨site.name, site.path, .string, none⟩]

mutual

def columnsAt (depth : Nat) (site : Site) (s : Schema) : Except UnknownType (List Column) :=
  match s with
  | .array items => columnsAt depth (site.extend firstItem) items
  | .map values => columnsAt depth (site.extend anyKey) values
  | .union members => do
    let leaves ← d.unionLeaves site members
    let inside ← columnsInside depth site members
    return leaves ++ inside
  | .record r => columnsOfRecord depth site r
  | .ref name =>
    match d.follow name with
    | .error e => .error e
    | .ok (.record r) => columnsOfRecord depth site r
    | .ok t => d.leafColumns site t.toSchema
  | s => d.leafColumns site s
termination_by (depth, 2 * sizeOf s + 1)

def columnsInside (depth : Nat) (site : Site) : List Schema → Except UnknownType (List Column)
  | [] => .ok []
  | s :: ss => do
    let front ←
      match s with
      | .record r => columnsOfRecord depth (site.tagged r) r
      | .ref name =>
        match d.follow name with
        | .error e => .error e
        | .ok (.record r) => columnsOfRecord depth (site.tagged r) r
        | .ok _ => .ok []
      | .array items => columnsAt depth (site.extend firstItem) items
      | .map values => columnsAt depth (site.extend anyKey) values
      | _ => .ok []
    let rest ← columnsInside depth site ss
    return front ++ rest
termination_by ss => (depth, 2 * sizeOf ss)

/-- The columns of a record's members. A record that lies too deep has none. -/
def columnsOfRecord (depth : Nat) (site : Site) (r : RecordType Schema) :
    Except UnknownType (List Column) :=
  match depth with
  | 0 => .ok []
  | depth + 1 => do
    let columns ← r.fields.mapM fun f => columnsAt depth (site.member f.name) f.type
    return columns.flatten
termination_by (depth, 0)

end

def discover : Except UnknownType (List Column) :=
  d.columnsAt recordDepth ⟨"$", "$"⟩ d.root

end Document

end AvroColumns
